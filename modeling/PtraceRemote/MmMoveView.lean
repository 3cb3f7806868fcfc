import PtraceRemote.MmResizeInv
import PtraceRemote.MmView

/-! `mremap` on the page-level view: one range is moved or grown, and all other pages stay. -/
namespace PtraceRemote

open AugTree (Balance)

def PageMap.remap (m : PageMap) (addr oldLen new newLen : ℕ) (file : Option FileId)
    (pgoff : BitVec 64) (flags : VmFlags) : PageMap := fun p =>
  if new ≤ 4096*p ∧ 4096*p < new+newLen then
    some ⟨file, pgoff+BitVec.ofNat 64 (p-new/4096), cleanFlags flags⟩
  else if new ≠ addr ∧ addr ≤ 4096*p ∧ 4096*p < addr+oldLen then none
  else m p

variable {mm mm' : Mm} {s : MmSys} {L L' A B : List VmaId} {x y : VmaId}
  {start end_ addr oldLen newLen new p : ℕ} {i : PageInfo} {v : Vma}

/-- A block on top of pages that are those of `m`. -/
theorem view_of_block {m : PageMap} {Q : Pages} {file : Option FileId} {pgoff : BitVec 64}
    {flags : VmFlags} (h : Wf mm L) (hr : RangeOk start end_)
    (hp : pages mm.core L = Q + blockPages start end_ file pgoff flags)
    (hQ : ∀ i, (p, i) ∈ Q ↔ m p = some i) :
    mm.view.clean p = if start ≤ 4096*p ∧ 4096*p < end_ then
      some ⟨file, pgoff+BitVec.ofNat 64 (p-start/4096), cleanFlags flags⟩ else m p := by
  split
  next hin =>
    refine (view_iff h).2 ?_
    rw [hp, Multiset.mem_add]
    exact .inr ((mem_blockPages hr).2 ⟨hin, rfl⟩)
  next hout =>
    refine Option.ext fun i => ?_
    rw [view_iff h, hp, Multiset.mem_add, ← hQ]
    exact or_iff_left fun hblock => hout ((mem_blockPages hr).1 hblock).1

/-- What a page of the area `x` shows, counted from the address `addr` in it. -/
theorem view_area (h : Wf mm L) (hx : x ∈ L) (hs : (mm.core x).vmStart ≤ addr) (ha : 4096 ∣ addr)
    (hp : addr ≤ 4096*p) (he : 4096*p < (mm.core x).vmEnd) : mm.view.clean p =
      some ⟨(mm.core x).vmFile, (mm.core x).pgoffAt addr+BitVec.ofNat 64 (p-addr/4096),
        cleanFlags (mm.core x).vmFlags⟩ := by
  have hv := h.ordered.area x hx
  have hview : mm.view p = some ((mm.core x).pageAt p) :=
    (view_eq_some h).2 ⟨x, hx, ⟨hs.trans hp, he⟩, rfl⟩
  have hsum : (addr-(mm.core x).vmStart)/4096+(p-addr/4096) = p-(mm.core x).vmStart/4096 := by
    have := hv.start_dvd
    omega
  rw [PageMap.clean, hview, Option.map_some, Vma.pageAt, PageInfo.clean, Vma.pgoffAt,
    BitVec.add_assoc, ← BitVec.ofNat_add, hsum]

/-- A range that moves does not meet the one that it leaves. -/
def Apart (addr oldLen new newLen : ℕ) : Prop :=
  new = addr ∨ addr+oldLen ≤ new ∨ new+newLen ≤ addr

/-- The offset that the range has after a move. -/
def RemapPgoff (v : Vma) (addr new : ℕ) (pgoff : BitVec 64) : Prop :=
  pgoff = v.pgoffAt addr ∨ vmaIsAnonymous v = true ∧ v.anonVma = none ∧
    pgoff = BitVec.ofNat 64 (new/4096)

theorem copyPgoff_remap (v : Vma) (addr new : ℕ) :
    RemapPgoff v addr new (copyPgoff v new (v.pgoffAt addr)) := by
  unfold copyPgoff RemapPgoff
  split
  next h => exact .inr ⟨h.1, h.2, rfl⟩
  next => exact .inl rfl

/-- The view after a move to a place that does not meet the old range. -/
theorem view_moved (h : Wf mm L) (h' : Wf mm' L') (ho : RangeOk addr (addr+oldLen))
    (hr : RangeOk new (new+newLen)) (hne : new ≠ addr)
    (hp : pages mm'.core L' = movedPages mm L x addr oldLen newLen new) :
    mm'.view.clean = mm.view.clean.remap addr oldLen new newLen (mm.core x).vmFile
      (copyPgoff (mm.vma x) new ((mm.core x).pgoffAt addr)) (mm.core x).vmFlags := by
  funext p
  rw [view_of_block h' hr hp fun i => mem_outside_iff h ho, PageMap.remap]
  refine if_congr Iff.rfl rfl ?_
  rw [PageMap.unmap]
  refine if_congr ?_ rfl rfl
  exact ⟨fun hin => ⟨hne, hin⟩, And.right⟩

/-- The view after growing in place. -/
theorem view_grown (h : Wf mm L) (h' : Wf mm' L') (hx : x ∈ L) (hs : (mm.core x).vmStart ≤ addr)
    (ha : 4096 ∣ addr) (hend : addr+oldLen = (mm.core x).vmEnd)
    (hr : RangeOk (mm.core x).vmEnd (addr+newLen))
    (hp : pages mm'.core L' = pages mm.core L + blockPages (mm.core x).vmEnd (addr+newLen)
      (mm.core x).vmFile ((mm.core x).pgoffAt (mm.core x).vmEnd) (mm.core x).vmFlags) :
    mm'.view.clean = mm.view.clean.remap addr oldLen addr newLen (mm.core x).vmFile
      ((mm.core x).pgoffAt addr) (mm.core x).vmFlags := by
  have hv := h.ordered.area x hx
  funext p
  rw [view_of_block h' hr hp fun i => (view_iff h).symm, PageMap.remap]
  by_cases hblock : (mm.core x).vmEnd ≤ 4096*p ∧ 4096*p < addr+newLen
  · have hin : addr ≤ 4096*p ∧ 4096*p < addr+newLen := by omega
    rw [if_pos hblock, if_pos hin]
    have hsum : ((mm.core x).vmEnd-(mm.core x).vmStart)/4096+(p-(mm.core x).vmEnd/4096) =
        (addr-(mm.core x).vmStart)/4096+(p-addr/4096) := by
      have := hv.start_dvd
      have := hv.end_dvd
      omega
    rw [Vma.pgoffAt, Vma.pgoffAt, BitVec.add_assoc, ← BitVec.ofNat_add, hsum, BitVec.add_assoc,
      ← BitVec.ofNat_add]
  · rw [if_neg hblock]
    split
    next hin =>
      have he : 4096*p < (mm.core x).vmEnd := by omega
      exact view_area h hx hs ha hin.1 he
    next => rw [if_neg (fun hcon => hcon.1 rfl)]

/-- A range that stays as it is. -/
theorem view_stays (h : Wf mm L) (hx : x ∈ L) (hs : (mm.core x).vmStart ≤ addr) (ha : 4096 ∣ addr)
    (he : addr+oldLen ≤ (mm.core x).vmEnd) :
    mm.view.clean = mm.view.clean.remap addr oldLen addr oldLen
      (mm.core x).vmFile ((mm.core x).pgoffAt addr) (mm.core x).vmFlags := by
  funext p
  rw [PageMap.remap]
  split
  next hin => exact view_area h hx hs ha hin.1 (by omega)
  next => rw [if_neg (fun hcon => hcon.1 rfl)]

theorem remap_unmap (m : PageMap) (file : Option FileId) (pgoff : BitVec 64) (flags : VmFlags) :
    (m.unmap new (new+newLen)).remap addr oldLen new newLen file pgoff flags =
      m.remap addr oldLen new newLen file pgoff flags := by
  funext p
  unfold PageMap.remap PageMap.unmap
  split
  next => rfl
  next => rfl

/-- What is found at an address after a `do_munmap` that did not touch it is a part of the area that
was there. -/
theorem doMunmap_source (rb : Balance VmaId) (conf : MmConf) {len : ℕ} (h : Wf s.mm L) (hx : x ∈ L)
    (hs : (s.mm.core x).vmStart ≤ addr) (he : addr < (s.mm.core x).vmEnd) (ha : 4096 ∣ addr)
    (h' : Wf (doMunmap rb conf s start len).2.mm L')
    (hview : (doMunmap rb conf s start len).2.mm.view.clean (addr/4096) =
      s.mm.view.clean (addr/4096))
    (hfound : findVma (doMunmap rb conf s start len).2.mm addr = some y) :
    let v := s.mm.core x
    let w := (doMunmap rb conf s start len).2.mm.core y
    y ∈ L' ∧ w.vmStart ≤ addr ∧ PartOf ((doMunmap rb conf s start len).2.mm.vma y) (s.mm.vma x) ∧
      w.vmFile = v.vmFile ∧ w.pgoffAt addr = v.pgoffAt addr ∧
        cleanFlags w.vmFlags = cleanFlags v.vmFlags := by
  intro v w
  have hq : 4096*(addr/4096) = addr := Nat.mul_div_cancel' ha
  have hfrag := doMunmap_fragments rb conf start len h
  set t := (doMunmap rb conf s start len).2
  have hsrc := view_area h hx hs ha hq.ge (by rw [hq]; exact he)
  -- the page is still there, so `y` is the area that holds it
  obtain ⟨hy, hys, hye⟩ : y ∈ L' ∧ (t.mm.core y).vmStart ≤ addr ∧ addr < (t.mm.core y).vmEnd := by
    rw [← hview, PageMap.clean, Option.map_eq_some_iff] at hsrc
    obtain ⟨i, hi, -⟩ := hsrc
    obtain ⟨z, hz, ⟨hzs, hze⟩, -⟩ := (view_eq_some h').1 hi
    rw [hq] at hzs hze
    obtain ⟨A, B, rfl⟩ := List.append_of_mem hz
    rw [findVma_at h' hzs hze] at hfound
    obtain rfl := Option.some.inj hfound
    exact ⟨hz, hzs, hze⟩
  have hpart : PartOf (t.mm.vma y) (s.mm.vma x) := by
    obtain ⟨z, hz, hpart⟩ := hfrag y (by rw [h'.rep.inorder]; exact hy)
    have hz : z ∈ L := by rwa [h.rep.inorder] at hz
    have hzs : (s.mm.core z).vmStart ≤ addr := le_trans hpart.start hys
    have hze : addr < (s.mm.core z).vmEnd := hye.trans_le hpart.end_
    obtain ⟨A, B, rfl⟩ := List.append_of_mem hz
    have hfind := findVma_at h hzs hze
    obtain ⟨A', B', hsplit⟩ := List.append_of_mem hx
    rw [hsplit] at h
    rw [findVma_at h hs he] at hfind
    obtain rfl := Option.some.inj hfind
    exact hpart.toPartOf
  have hdst := view_area h' hy hys ha hq.ge (by rw [hq]; exact hye)
  rw [hview, hsrc, Nat.sub_self, BitVec.add_zero, BitVec.add_zero] at hdst
  injection hdst with hdst
  injection hdst with hfile hpgoff hflags
  exact ⟨hy, hys, hpart, hfile.symm, hpgoff.symm, hflags.symm⟩

/-- A move to a given place. -/
theorem mremapToTask_view (rb : Balance VmaId) (env : MmEnv) (h : Wf s.mm L) (hx : x ∈ L)
    (hs : (s.mm.core x).vmStart ≤ addr) (he : addr+oldLen ≤ (s.mm.core x).vmEnd)
    (ho : RangeOk addr (addr+oldLen)) (htask : addr+oldLen ≤ TASK_SIZE) (hn : 4096 ∣ newLen)
    (hle : oldLen ≤ newLen) (hcalm : CalmAfter 2 s) :
    let r := mremapToTask rb env s addr oldLen new newLen
    let v := s.mm.vma x
    r.1 < 0 ∨ r.1 = new ∧ Apart addr oldLen new newLen ∧ ∃ pgoff, RemapPgoff v addr new pgoff ∧
      r.2.2.mm.view.clean = s.mm.view.clean.remap addr oldLen new newLen v.vmFile pgoff
        v.vmFlags := by
  intro r v
  have hlt := ho.lt
  have hold : 4096 ∣ oldLen := (Nat.dvd_add_right ho.start_dvd).1 ho.end_dvd
  rcases mremapToTask_spec rb env h hold hn (by omega) with
    ⟨hneg, -⟩ | ⟨hret, hrange, L', P, hdoes, hmove⟩
  · exact .inl hneg
  refine .inr ⟨hret, ?_⟩
  obtain ⟨hdisj, M, y, hclear, hfound, hP⟩ := hmove hle
  rw [wadd_eq ho.end_lt] at hdisj
  have hgone := view_of_outside h hclear.wf hrange hclear.pages
  have hq : 4096*(addr/4096) = addr := Nat.mul_div_cancel' ho.start_dvd
  have hkept : (doMunmap rb env.conf s new newLen).2.mm.view.clean (addr/4096) =
      s.mm.view.clean (addr/4096) := by
    rw [hgone, PageMap.unmap, if_neg (by omega)]
  obtain ⟨hy, hys, hpart, hfile, hpgoff, hflags⟩ :=
    doMunmap_source rb env.conf h hx hs (by omega) ho.start_dvd hclear.wf hkept hfound
  set t := (doMunmap rb env.conf s new newLen).2
  have hview :=
    view_moved hclear.wf hdoes.wf ho hrange (by omega) (hdoes.pages.trans (hP hcalm ho htask))
  rw [hgone, remap_unmap, hfile] at hview
  refine ⟨.inr (by omega), copyPgoff (t.mm.vma y) new ((t.mm.core y).pgoffAt addr), ?_,
    hview.trans ?_⟩
  · rcases copyPgoff_remap (t.mm.vma y) addr new with hoff | ⟨hops, hanon, hoff⟩
    · exact .inl (hoff.trans hpgoff)
    · refine .inr ⟨?_, hpart.anon.symm.trans hanon, hoff⟩
      rw [vmaIsAnonymous, ← hpart.ops]
      exact hops
  · unfold PageMap.remap
    rw [hflags]
    rfl

def Remaps (mm : Mm) (v : Vma) (addr oldLen newLen : ℕ) (r : ℤ × Bool × MmSys) : Prop :=
  Apart addr oldLen r.1.toNat newLen ∧ ∃ pgoff, RemapPgoff v addr r.1.toNat pgoff ∧
    r.2.2.mm.view.clean = mm.view.clean.remap addr oldLen r.1.toNat newLen v.vmFile pgoff v.vmFlags

theorem mremapGrow_view (rb : Balance VmaId) (env : MmEnv) (flags : Bits) (h : Wf s.mm L)
    (hx : x ∈ L) (hs : (s.mm.core x).vmStart ≤ addr) (he : addr+oldLen ≤ (s.mm.core x).vmEnd)
    (ho : RangeOk addr (addr+oldLen)) (htask : addr+oldLen ≤ TASK_SIZE) (hn : 4096 ∣ newLen)
    (hlim : newLen < 2^64) (hlt : oldLen < newLen) (hcalm : CalmAfter 2 s) :
    let r := mremapGrow rb env s addr oldLen newLen flags
    r.1 < 0 ∨ Remaps s.mm (s.mm.vma x) addr oldLen newLen r := by
  intro r
  have hpos := ho.lt
  have hold : 4096 ∣ oldLen := (Nat.dvd_add_right ho.start_dvd).1 ho.end_dvd
  rcases mremapGrow_spec rb env flags h ho.start_dvd hold hn hlt hlim with
    ⟨herr, -⟩ | ⟨y, new, hret, hfound, L', P, hkeeps, hgrown⟩
  · exact .inl herr.2
  have hret : r.1.toNat = new := by rw [show r.1 = new from hret, Int.toNat_natCast]
  obtain ⟨A, B, rfl⟩ := List.append_of_mem hx
  rw [findVma_at h hs (by omega)] at hfound
  obtain rfl := Option.some.inj hfound
  refine .inr ?_
  unfold Remaps
  rw [hret]
  rcases hgrown with ⟨rfl, hend, hnewtask, -, hP⟩ | ⟨hrange, hfree, hP⟩
  · have hr : RangeOk (s.mm.core x).vmEnd (new+newLen) :=
      ⟨by omega, (h.ordered.area x hx).end_dvd, dvd_add ho.start_dvd hn,
        hnewtask.trans_lt (by decide)⟩
    exact ⟨.inl rfl, _, .inl rfl,
      view_grown h hkeeps.wf hx hs ho.start_dvd hend hr (hkeeps.pages.trans hP)⟩
  · have hne : new ≠ addr := by
      have := hrange.lt
      rcases hfree x hx with hle | hle <;> omega
    have hapart : addr+oldLen ≤ new ∨ new+newLen ≤ addr :=
      (hfree x hx).imp he.trans fun hbelow => hbelow.trans hs
    exact ⟨.inr hapart, _, copyPgoff_remap _ addr new,
      view_moved h hkeeps.wf ho hrange hne (hkeeps.pages.trans (hP hcalm ho htask))⟩

theorem mremapLocked_view (rb : Balance VmaId) (env : MmEnv) (flags : Bits) (h : Wf s.mm L)
    (hx : x ∈ L) (hs : (s.mm.core x).vmStart ≤ addr) (he : addr+oldLen ≤ (s.mm.core x).vmEnd)
    (ho : RangeOk addr (addr+oldLen)) (htask : addr+oldLen ≤ TASK_SIZE) (hn : 4096 ∣ newLen)
    (hlim : newLen < 2^64) (hle : oldLen ≤ newLen) (hcalm : CalmAfter 2 s) :
    let r := mremapLocked rb env s addr oldLen newLen flags new
    r.1 < 0 ∨ Remaps s.mm (s.mm.vma x) addr oldLen newLen r ∧
      (flags.has MREMAP_FIXED = true → r.1 = new) := by
  intro r
  have hr : mremapLocked rb env s addr oldLen newLen flags new = r := rfl
  clear_value r
  unfold mremapLocked at hr
  rcases ite_eq_iff.1 hr with ⟨-, rfl⟩ | ⟨hfixed, hr⟩
  · rcases mremapToTask_view rb env h hx hs he ho htask hn hle hcalm with hneg | ⟨hret, hmove⟩
    · exact .inl hneg
    · refine .inr ⟨?_, fun _ => hret⟩
      unfold Remaps
      rw [hret, Int.toNat_natCast]
      exact hmove
  rcases ite_eq_iff.1 hr with ⟨hge, hr⟩ | ⟨hlt, rfl⟩
  · -- nothing to be unmapped, which `do_munmap` calls an error
    obtain rfl : oldLen = newLen := le_antisymm hle hge
    dsimp only at hr
    rw [Nat.sub_self, doMunmap_nothing, if_neg (fun hcon => hcon.2 rfl)] at hr
    subst hr
    exact .inr ⟨⟨.inl rfl, _, .inl rfl, view_stays h hx hs ho.start_dvd he⟩,
      fun hf => absurd hf hfixed⟩
  · exact (mremapGrow_view rb env flags h hx hs he ho htask hn hlim (not_le.1 hlt) hcalm).imp_right
      fun hgrow => ⟨hgrow, fun hf => absurd hf hfixed⟩

/-- A successful `mremap` of a range in one ordinary area, to at least its length, moves or grows
the range on the view. The first three calls are the lock, the security module and the reverse
mapping; those that allocate come later. -/
theorem mremapTask_view (rb : Balance VmaId) (env : MmEnv) (s : MmSys) (L : List VmaId) (x : VmaId)
    (addr oldLen newLen : ℕ) (flags : Bits) (newAddr : ℕ) (h : Wf s.mm L) (hx : x ∈ L)
    (hs : (s.mm.vma x).vmStart ≤ addr) (he : addr+pageAlign oldLen ≤ (s.mm.vma x).vmEnd)
    (hpos : 0 < pageAlign oldLen) (hle : pageAlign oldLen ≤ pageAlign newLen)
    (htask : addr+pageAlign oldLen ≤ TASK_SIZE) (hcalm : CalmAfter 3 s) :
    let r := mremapTask rb env s addr oldLen newLen flags newAddr
    let v := s.mm.vma x
    let new := r.1.toNat
    0 ≤ r.1 →
      (Apart addr (pageAlign oldLen) new (pageAlign newLen) ∧ ∃ pgoff, RemapPgoff v addr new pgoff ∧
      r.2.2.mm.view.clean =
        s.mm.view.clean.remap addr (pageAlign oldLen) new (pageAlign newLen) v.vmFile pgoff
          v.vmFlags) ∧
      (flags.has MREMAP_FIXED = true → r.1 = newAddr) := by
  intro r v new hok
  rcases mremapTask_cases rb env s addr oldLen newLen flags newAddr with
    ⟨herr, -⟩ | ⟨hargs, -, hret, hstate⟩
  · exact absurd hok (not_le.2 herr.2)
  have hmm : s.outcome.2.mm = s.mm := outcome_mm s
  have ho : RangeOk addr (addr+pageAlign oldLen) :=
    ⟨by omega, hargs.aligned, dvd_add hargs.aligned (pageAlign_dvd oldLen),
      htask.trans_lt (by decide)⟩
  have hw : Wf s.outcome.2.mm L := by rw [hmm]; exact h
  have hs : (s.outcome.2.mm.core x).vmStart ≤ addr := by rw [hmm]; exact hs
  have he : addr+pageAlign oldLen ≤ (s.outcome.2.mm.core x).vmEnd := by rw [hmm]; exact he
  rcases mremapLocked_view rb env flags hw hx hs he ho htask (pageAlign_dvd newLen)
    (pageAlign_lt newLen) hle hcalm.outcome with hneg | ⟨hmaps, hfixed⟩
  · rw [← hret] at hneg
    exact absurd hok (not_le.2 hneg)
  · unfold Remaps at hmaps
    rw [← hret, ← hstate, hmm] at hmaps
    rw [← hret] at hfixed
    exact ⟨hmaps, hfixed⟩

/-- The second of four pages is moved to a given place, where it grows to two. -/
theorem mremapTask_view_fourPages :
    let s : MmSys := { mm := Mm.ofArea fourPages }
    let r := mremapTask Balance.plain (MmEnv.unlimited 10) s 0x11000 1 0x2000
      (MREMAP_MAYMOVE ||| MREMAP_FIXED) 0x20000
    r.1 = 0x20000 ∧ ∃ pgoff, RemapPgoff fourPages 0x11000 0x20000 pgoff ∧ r.2.2.mm.view.clean =
      s.mm.view.clean.remap 0x11000 (pageAlign 1) 0x20000 (pageAlign 0x2000) none pgoff
        (VM_READ ||| VM_SOFTDIRTY) := by
  intro s r
  have hwf : Wf s.mm [0] := wf_ofArea ⟨by decide, by decide, by decide, by decide⟩
  have hret : r.1 = 0x20000 := by decide +kernel
  obtain ⟨⟨-, hview⟩, -⟩ :=
    mremapTask_view Balance.plain (MmEnv.unlimited 10) s [0] 0 0x11000 1 0x2000
    (MREMAP_MAYMOVE ||| MREMAP_FIXED) 0x20000 hwf (by decide) (by decide) (by decide) (by decide)
      (by decide) (by decide)
    (fun _ he => absurd he (by simp [s])) (hret ▸ by decide)
  have hnat : r.1.toNat = 0x20000 := by rw [hret]; rfl
  rw [show (mremapTask Balance.plain (MmEnv.unlimited 10) s 0x11000 1 0x2000
    (MREMAP_MAYMOVE ||| MREMAP_FIXED) 0x20000).1.toNat = 0x20000 from hnat] at hview
  exact ⟨hret, hview⟩

end PtraceRemote
