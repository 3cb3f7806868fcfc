import PtraceRemote.MmResizeInv

/-! What stands in the range that a growing `mremap` returns: pages with the flags of the old area,
also when the old range could not be unmapped. -/
namespace PtraceRemote

open AugTree (Balance)

variable {mm : Mm} {s s' : MmSys} {rb : Balance VmaId} {env : MmEnv} {L L' : List VmaId} {x : VmaId}
  {start end_ addr oldLen newLen new p : ℕ} {flags a b : VmFlags} {P Q : Pages}

def bareFlags (flags : VmFlags) : VmFlags := flags &&& ~~~(VM_SOFTDIRTY ||| VM_ACCOUNT)

theorem bareFlags_of_clean (h : cleanFlags a = cleanFlags b) : bareFlags a = bareFlags b := by
  have hmask : ~~~(VM_SOFTDIRTY ||| VM_ACCOUNT) = ~~~VM_SOFTDIRTY &&& ~~~VM_ACCOUNT := by decide
  unfold cleanFlags at h
  rw [bareFlags, bareFlags, hmask, ← BitVec.and_assoc, h, BitVec.and_assoc]

theorem bareFlags_clean (a : VmFlags) : bareFlags (cleanFlags a) = bareFlags a := by
  have hmask : ~~~VM_SOFTDIRTY &&& ~~~(VM_SOFTDIRTY ||| VM_ACCOUNT) =
    ~~~(VM_SOFTDIRTY ||| VM_ACCOUNT) := by decide
  rw [bareFlags, cleanFlags, BitVec.and_assoc, hmask, bareFlags]

theorem bareFlags_uncharged (v : Vma) : bareFlags v.uncharged.vmFlags = bareFlags v.vmFlags := by
  have hmask : ~~~VM_ACCOUNT &&& ~~~(VM_SOFTDIRTY ||| VM_ACCOUNT) =
    ~~~(VM_SOFTDIRTY ||| VM_ACCOUNT) := by decide
  rw [bareFlags, Vma.uncharged, BitVec.and_assoc, hmask, bareFlags]

/-- The other bits can be read off. -/
theorem and_bareFlags {m : VmFlags} (hm : ~~~(VM_SOFTDIRTY ||| VM_ACCOUNT) &&& m = m)
    (h : bareFlags a = bareFlags b) :
    a &&& m = b &&& m := by
  have hand : ∀ c : VmFlags, c &&& m = bareFlags c &&& m := by
    intro c
    rw [bareFlags, BitVec.and_assoc, hm]
  rw [hand a, hand b, h]

theorem has_bareFlags {m : VmFlags} (hm : ~~~(VM_SOFTDIRTY ||| VM_ACCOUNT) &&& m = m)
    (h : bareFlags a = bareFlags b) :
    a.has m = b.has m := by
  rw [VmFlags.has, VmFlags.has, and_bareFlags hm h]

def ShowsRange (P : Pages) (flags : VmFlags) (start end_ : ℕ) : Prop :=
  ∀ p, start ≤ 4096*p → 4096*p < end_ → ∃ i, (p, i) ∈ P ∧ bareFlags i.flags = bareFlags flags

theorem ShowsRange.add (h : ShowsRange P flags start end_) (Q : Pages) :
    ShowsRange (Q+P) flags start end_ := by
  intro p hs he
  obtain ⟨i, hi, hflags⟩ := h p hs he
  exact ⟨i, Multiset.mem_add.2 (.inr hi), hflags⟩

theorem showsRange_block {file : Option FileId} {pgoff : BitVec 64} (hr : RangeOk start end_) :
    ShowsRange (blockPages start end_ file pgoff flags) flags start end_ := by
  intro p hs he
  exact ⟨_, (mem_blockPages hr).2 ⟨⟨hs, he⟩, rfl⟩, bareFlags_clean flags⟩

/-- Unmapping a range that does not meet it. -/
theorem ShowsRange.outside {lo hi : ℕ} (h : ShowsRange P flags start end_) (hd : 4096 ∣ end_)
    (hdisj : end_ ≤ lo ∨ hi ≤ start) : ShowsRange (outside lo hi P) flags start end_ := by
  intro p hs he
  obtain ⟨i, hi, hflags⟩ := h p hs he
  refine ⟨i, Multiset.mem_filter.2 ⟨hi, ?_⟩, hflags⟩
  dsimp only
  omega

/-- Hiding the charge of an area. -/
theorem ShowsRange.stuck {vmFlags : VmFlags} (h : ShowsRange (pages s.mm.core L) flags start end_)
    (hw : Wf s.mm L) (x : VmaId) :
    ShowsRange (pages (stuckCore s.mm.core x vmFlags) L) flags start end_ := by
  intro p hs he
  obtain ⟨i, hi, hflags⟩ := h p hs he
  obtain ⟨y, hy, hyi⟩ := mem_pages hi
  obtain ⟨hcov, rfl⟩ := (mem_weight_iff (hw.ordered.area y hy)).1 hyi
  have hother : stuckCore s.mm.core x vmFlags y = s.mm.core y ∨
      stuckCore s.mm.core x vmFlags y = (s.mm.core y).uncharged := by
    unfold stuckCore
    split
    · by_cases hyx : y = x
      · subst hyx
        rw [Function.update_self]
        exact .inr rfl
      · rw [Function.update_of_ne hyx]
        exact .inl rfl
    · exact .inl rfl
  have hmem : ∀ w, stuckCore s.mm.core x vmFlags y = w → ∀ e ∈ w.weight single,
      e ∈ pages (stuckCore s.mm.core x vmFlags) L := by
    rintro w rfl e he
    exact mem_pages_of hy he
  rcases hother with hsame | hhid
  · exact ⟨_, hmem _ hsame _ hyi, hflags⟩
  · refine ⟨_, hmem _ hhid (p, ((s.mm.core y).uncharged.pageAt p).clean) ?_, ?_⟩
    · exact (mem_weight_iff (v := (s.mm.core y).uncharged) (hw.ordered.area y hy)).2 ⟨hcov, rfl⟩
    · refine Eq.trans ?_ hflags
      show bareFlags (cleanFlags (s.mm.core y).uncharged.vmFlags) =
        bareFlags (cleanFlags (s.mm.core y).vmFlags)
      rw [bareFlags_clean, bareFlags_clean, bareFlags_uncharged]

def GrowFailed (r : ℤ × Bool × MmSys) : Prop := r.1 < 0 ∧ (r.2.1 = true → r.1 % 4096 ≠ 0)

theorem growFailed_of_unlocked {e : ℤ} (he : e < 0) (t : MmSys) : GrowFailed (e, false, t) :=
  ⟨he, nofun⟩

theorem growFailed_of_err {e : ℤ} (he : IsErr e) (locked : Bool) (t : MmSys) :
    GrowFailed (e, locked, t) :=
  ⟨he.2, fun _ => he.offset⟩

def GrewTo (flags : VmFlags) (newLen : ℕ) (new : ℕ) (r : ℤ × Bool × MmSys) : Prop :=
  r.1 = new ∧ RangeOk new (new+newLen) ∧ new+newLen ≤ TASK_SIZE ∧ r.2.1 = flags.has VM_LOCKED ∧
    ∃ L, Wf r.2.2.mm L ∧ ShowsRange (pages r.2.2.mm.core L) flags new (new+newLen)

theorem moveVma_grew (rb : Balance VmaId) (env : MmEnv) (h : Wf s.mm L) (hx : x ∈ L)
    (hs : (s.mm.core x).vmStart ≤ addr) (he : addr+oldLen ≤ (s.mm.core x).vmEnd)
    (hd : 4096 ∣ oldLen) (hr : RangeOk new (new+newLen)) (htask : new+newLen ≤ TASK_SIZE) :
    let r := moveVma rb env s x addr oldLen newLen new
    GrowFailed r ∨ GrewTo (s.mm.core x).vmFlags newLen new r := by
  have hnomem : -ENOMEM < 0 := by decide
  unfold moveVma
  dsimp only
  split
  next => exact .inl (growFailed_of_unlocked hnomem _)
  have hmm : s.outcome.2.mm = s.mm := outcome_mm s
  split
  next hk => exact .inl (growFailed_of_err (outcome_isErr hk) _ _)
  set s₁ := s.outcome.2
  have hw₁ : Wf s₁.mm L := by rw [hmm]; exact h
  have hcore₁ : s₁.mm.core x = s.mm.core x := by rw [hmm]
  rcases copyVma_spec rb ((s.mm.vma x).pgoffAt addr) hw₁ hx hr with
    ⟨hnone, -⟩ | ⟨copy, x', L', hsome, hcopied⟩
  · rw [hnone]
    exact .inl (growFailed_of_unlocked hnomem _)
  rw [hsome]
  dsimp only
  set s₂ := (copyVma rb s₁ x new newLen ((s.mm.vma x).pgoffAt addr)).2
  obtain ⟨htables, hq₃⟩ := moveTables_spec s₂ x'
  split
  next hne => exact .inl (growFailed_of_err (htables.resolve_left hne) _ _)
  refine .inr ⟨rfl, hr, htask, rfl, ?_⟩
  have hsx : (s₂.mm.core x').vmStart ≤ addr := hcopied.src_covers.1.trans (by rw [hcore₁]; exact hs)
  have hex : addr+oldLen ≤ (s₂.mm.core x').vmEnd :=
    le_trans (by rw [hcore₁]; exact he) hcopied.src_covers.2
  obtain ⟨L'', P, hdoes, hP⟩ :=
    hcopied.done rb env.conf hw₁ hx hq₃ hcopied.src_mem hsx hex hd hcopied.src_flags
  rw [hcore₁] at hdoes
  have hcopy : ShowsRange (pages s₂.mm.core L') (s.mm.core x).vmFlags new (new+newLen) := by
    rw [hcopied.adds, hcore₁]
    exact (showsRange_block hr).add _
  refine ⟨L'', hdoes.wf, ?_⟩
  change ShowsRange (pages
    (moveDone rb env.conf (moveTables s₂ x').2 x' addr oldLen newLen (s.mm.core x).vmFlags).mm.core
    L'') _ _ _
  rw [hdoes.pages]
  -- the old range goes or is stuck, and the copy stays
  rcases hP with ⟨-, rfl⟩ | ⟨-, rfl, -⟩
  · refine hcopy.outside hr.end_dvd ?_
    rcases hcopied.free x hx with hle | hle
    · rw [hcore₁] at hle
      exact .inr (he.trans hle)
    · rw [hcore₁] at hle
      exact .inl (hle.trans hs)
  · exact hcopy.stuck hcopied.wf x'

theorem growByMove_grew (rb : Balance VmaId) (env : MmEnv) (flags : Bits) (h : Wf s.mm L)
    (hx : x ∈ L) (hs : (s.mm.core x).vmStart ≤ addr) (he : addr+oldLen ≤ (s.mm.core x).vmEnd)
    (hd : 4096 ∣ oldLen) (hn : 4096 ∣ newLen) (hpos : 0 < newLen) :
    let r := growByMove rb env s x addr oldLen newLen flags
    GrowFailed r ∨ ∃ new, GrewTo (s.mm.core x).vmFlags newLen new r := by
  unfold growByMove
  dsimp only
  split
  next =>
    obtain ⟨hq, hmm, hres⟩ := unmappedAreaOf_spec env s s.mm.topdown (s.mm.vma x).vmFile 0 newLen
      ((s.mm.vma x).pgoffAt addr) (moveFlags (s.mm.vma x))
    unfold getTaskUnmappedArea
    set area :=
      unmappedAreaOf env s s.mm.topdown (s.mm.vma x).vmFile 0 newLen ((s.mm.vma x).pgoffAt addr)
      (moveFlags (s.mm.vma x))
    split
    next hoff =>
      exact .inl (growFailed_of_unlocked (hres.resolve_right fun hok => hoff hok.2.2.2).2 _)
    next hoff =>
      have hoff := not_not.1 hoff
      obtain ⟨-, h0, hle, -⟩ := hres.resolve_left fun he => he.offset hoff
      unfold TASK_SIZE at hle
      have hlim : area.1.toNat+newLen ≤ TASK_SIZE := by
        unfold TASK_SIZE
        omega
      have hrange : RangeOk area.1.toNat (area.1.toNat+newLen) :=
        ⟨by omega, by omega, by omega, by unfold TASK_SIZE at hlim; omega⟩
      have hcore : area.2.mm.core x = s.mm.core x := by rw [hmm]
      have hs : (area.2.mm.core x).vmStart ≤ addr := by rw [hcore]; exact hs
      have he : addr+oldLen ≤ (area.2.mm.core x).vmEnd := by rw [hcore]; exact he
      have hgrew := moveVma_grew rb env (s := area.2) (by rw [hmm]; exact h) hx hs he hd hrange hlim
      rw [hcore] at hgrew
      exact hgrew.imp_right fun hg => ⟨_, hg⟩
  next => exact .inl (growFailed_of_unlocked (by decide) _)

/-- The pages of the area itself. -/
theorem showsRange_area (h : Wf mm L) (hx : x ∈ L) :
    ShowsRange (pages mm.core L) (mm.core x).vmFlags (mm.core x).vmStart (mm.core x).vmEnd := by
  intro p hs he
  exact ⟨_, mem_pages_of hx ((mem_weight_iff (h.ordered.area x hx)).2 ⟨⟨hs, he⟩, rfl⟩),
    bareFlags_clean _⟩

theorem growInPlace_grew {A B : List VmaId} (rb : Balance VmaId) (h : Wf s.mm (A ++ x :: B))
    (ha : 4096 ∣ addr) (hs : (s.mm.core x).vmStart ≤ addr)
    (hend : addr+oldLen = (s.mm.core x).vmEnd) (hlt : oldLen < newLen) (hd : 4096 ∣ addr+newLen)
    (htask : addr+newLen ≤ TASK_SIZE) (hB : ∀ b ∈ B, addr+newLen ≤ (s.mm.core b).vmStart) :
    GrewTo (s.mm.core x).vmFlags newLen addr (growInPlace rb s x addr oldLen newLen) := by
  have hlim : addr+newLen < 2^64 := htask.trans_lt (by decide)
  obtain ⟨hret, hacts⟩ := growInPlace_spec rb h hend hlt hd hlim hB
  have hv := h.ordered.area x (by simp)
  have hlock : (growInPlace rb s x addr oldLen newLen).2.1 =
      (s.mm.core x).vmFlags.has VM_LOCKED := by
    have hne : (addr : ℤ) ≠ -ENOMEM := fun he => by
      unfold ENOMEM at he
      omega
    unfold growInPlace at hret ⊢
    dsimp only at hret ⊢
    split at hret
    · exact absurd hret.symm hne
    · next hz =>
      rw [if_neg hz]
      split
      next hl => exact hl.symm
      next hl => exact (Bool.eq_false_iff.2 hl).symm
  refine ⟨hret, ⟨by omega, ha, hd, hlim⟩, htask, hlock, A ++ x :: B, hacts.wf, ?_⟩
  rw [hacts.pages]
  intro p hp hp'
  by_cases hold : 4096*p < (s.mm.core x).vmEnd
  · obtain ⟨i, hi, hflags⟩ := showsRange_area h (by simp) p (hs.trans hp) hold
    exact ⟨i, Multiset.mem_add.2 (.inl hi), hflags⟩
  · have hr : RangeOk (s.mm.core x).vmEnd (addr+newLen) := ⟨by omega, hv.end_dvd, hd, hlim⟩
    exact (showsRange_block hr).add _ p (not_lt.1 hold) hp'

theorem growArea_grew (rb : Balance VmaId) (env : MmEnv) (flags : Bits) (h : Wf s.mm L)
    (ha : 4096 ∣ addr) (ho : 4096 ∣ oldLen) (hn : 4096 ∣ newLen) (hlt : oldLen < newLen)
    (hlim : newLen < 2^64) (hx : x ∈ L) (hs : (s.mm.core x).vmStart ≤ addr)
    (he : addr+oldLen ≤ (s.mm.core x).vmEnd) :
    let r := growArea rb env s x addr oldLen newLen flags
    GrowFailed r ∨ ∃ new, GrewTo (s.mm.core x).vmFlags newLen new r := by
  obtain ⟨A, B, rfl⟩ := List.append_of_mem hx
  unfold growArea
  dsimp only
  have hmove : ∀ t : MmSys, t.mm = s.mm →
      GrowFailed (growByMove rb env t x addr oldLen newLen flags) ∨ ∃ new,
        GrewTo (s.mm.core x).vmFlags newLen new
          (growByMove rb env t x addr oldLen newLen flags) := by
    intro t hmm
    have hcore : t.mm.core x = s.mm.core x := by rw [hmm]
    have hs : (t.mm.core x).vmStart ≤ addr := by rw [hcore]; exact hs
    have he : addr+oldLen ≤ (t.mm.core x).vmEnd := by rw [hcore]; exact he
    have hgrew :=
      growByMove_grew rb env flags (by rw [hmm]; exact h) hx hs he ho hn (Nat.zero_lt_of_lt hlt)
    rwa [hcore] at hgrew
  by_cases hend : oldLen = (s.mm.vma x).vmEnd-addr
  · rw [if_pos hend]
    have hend' : oldLen = (s.mm.core x).vmEnd-addr := hend
    have hold : addr+oldLen = (s.mm.core x).vmEnd := by omega
    have hnew : (s.mm.core x).vmEnd+(newLen-oldLen) = addr+newLen := by omega
    obtain ⟨hq, hmm, hexp⟩ := vmaExpandable_spec env h (show newLen-oldLen < 2^64 by omega)
    split
    next hok =>
      obtain ⟨htask, hB⟩ := hexp hok
      rw [hnew] at htask hB
      have hcore : (vmaExpandable env s x (newLen-oldLen)).2.mm.core x = s.mm.core x := by rw [hmm]
      have hs : ((vmaExpandable env s x (newLen-oldLen)).2.mm.core x).vmStart ≤ addr := by
        rw [hcore]; exact hs
      have hgrew :=
        growInPlace_grew rb (hq.wf h) ha hs (by rw [hcore]; exact hold) hlt (dvd_add ha hn) htask
        (by rw [hmm]; exact hB)
      rw [hcore] at hgrew
      exact .inr ⟨addr, hgrew⟩
    next => exact hmove _ hmm
  · rw [if_neg hend, if_neg (by simp)]
    exact hmove s rfl

theorem GrewTo.aligned {r : ℤ × Bool × MmSys} (h : GrewTo flags newLen new r) :
    ¬r.1 % 4096 ≠ 0 := by
  have hd := h.2.1.start_dvd
  rw [h.1]
  omega

/-- The charge is given back unless the result is an address. -/
theorem GrewTo.or_unacct {r : ℤ × Bool × MmSys} (h : GrewTo flags newLen new r) (charged : ℤ) :
    GrewTo flags newLen new (if r.1 % 4096 ≠ 0 then (r.1, r.2.1, vmUnacctMemory r.2.2 charged)
      else r) := by
  rw [if_neg h.aligned]
  exact h

theorem GrowFailed.or_unacct {r : ℤ × Bool × MmSys} (h : GrowFailed r) (charged : ℤ) :
    GrowFailed (if r.1 % 4096 ≠ 0 then (r.1, r.2.1, vmUnacctMemory r.2.2 charged) else r) := by
  split
  · exact h
  · exact h

theorem mremapGrow_grew (rb : Balance VmaId) (env : MmEnv) (flags : Bits) (h : Wf s.mm L)
    (ha : 4096 ∣ addr) (ho : 4096 ∣ oldLen) (hn : 4096 ∣ newLen) (hlt : oldLen < newLen)
    (hlim : newLen < 2^64) :
    let r := mremapGrow rb env s addr oldLen newLen flags
    GrowFailed r ∨ ∃ x ∈ L, (s.mm.core x).vmStart ≤ addr ∧ addr < (s.mm.core x).vmEnd ∧
      (s.mm.core x).vmFlags.has VM_HUGETLB = false ∧ ∃ new,
        GrewTo (s.mm.core x).vmFlags newLen new r := by
  unfold mremapGrow growWith
  dsimp only
  obtain ⟨hmm, ⟨e, hfail, herr, -⟩ | ⟨x, hok, hres⟩⟩ :=
    vmaToResizeTask_spec env addr oldLen newLen h
  · rw [hfail]
    exact .inl (growFailed_of_unlocked herr.2 _)
  rw [hok]
  dsimp only
  set t := (vmaToResizeTask env s addr oldLen newLen).2
  have hcore : t.mm.core x = s.mm.core x := by rw [hmm]
  have hs : (t.mm.core x).vmStart ≤ addr := by rw [hcore]; exact hres.start
  have he : addr+oldLen ≤ (t.mm.core x).vmEnd := by rw [hcore]; exact hres.fits
  have hgrow := growArea_grew rb env flags (by rw [hmm]; exact h) ha ho hn hlt hlim hres.mem hs he
  rw [hcore] at hgrow
  rcases hgrow with hfailed | ⟨new, hgrew⟩
  · exact .inl (hfailed.or_unacct _)
  · exact .inr ⟨x, hres.mem, hres.start, hres.lt, hres.ordinary, new, hgrew.or_unacct _⟩

theorem moveTo_grew (rb : Balance VmaId) (env : MmEnv) (addr : ℕ) (h : Wf s.mm L)
    (ho : 4096 ∣ oldLen) (hr : RangeOk new (new+newLen)) (ht : new+newLen ≤ TASK_SIZE) :
    let r := moveTo rb env s addr oldLen new newLen
    GrowFailed r ∨ ∃ x ∈ L, (s.mm.core x).vmStart ≤ addr ∧ addr < (s.mm.core x).vmEnd ∧
      (s.mm.core x).vmFlags.has VM_HUGETLB = false ∧ GrewTo (s.mm.core x).vmFlags newLen new r := by
  unfold moveTo moveWith
  dsimp only
  obtain ⟨hmm, ⟨e, hfail, herr, -⟩ | ⟨x, hok, hres⟩⟩ :=
    vmaToResizeTask_spec env addr oldLen newLen h
  · rw [hfail]
    exact .inl (growFailed_of_unlocked herr.2 _)
  rw [hok]
  dsimp only
  set t := (vmaToResizeTask env s addr oldLen newLen).2
  obtain ⟨hq, hmm', hres'⟩ :=
    unmappedAreaOf_spec env t (env.cur t.mm).topdown (t.mm.vma x).vmFile new newLen
    ((t.mm.vma x).pgoffAt addr) (MAP_FIXED ||| moveFlags (t.mm.vma x))
  unfold getUnmappedArea
  set area := unmappedAreaOf env t (env.cur t.mm).topdown (t.mm.vma x).vmFile new newLen
    ((t.mm.vma x).pgoffAt addr) (MAP_FIXED ||| moveFlags (t.mm.vma x))
  split
  next hoff =>
    exact .inl (growFailed_of_unlocked (hres'.resolve_right fun hok => hoff hok.2.2.2).2 _)
  have hcore : area.2.mm.core x = s.mm.core x := by rw [hmm', hmm]
  have hs : (area.2.mm.core x).vmStart ≤ addr := by rw [hcore]; exact hres.start
  have he : addr+oldLen ≤ (area.2.mm.core x).vmEnd := by rw [hcore]; exact hres.fits
  have hgrew := moveVma_grew rb env (by rw [hmm', hmm]; exact h) hres.mem hs he ho hr ht
  rw [hcore] at hgrew
  rcases hgrew with hfailed | hgrew
  · exact .inl (hfailed.or_unacct _)
  · exact .inr ⟨x, hres.mem, hres.start, hres.lt, hres.ordinary, hgrew.or_unacct _⟩

/-- What is found at `addr` after a `do_munmap` was there before. -/
theorem doMunmap_before (rb : Balance VmaId) (conf : MmConf) {len : ℕ} {y : VmaId} (h : Wf s.mm L)
    (h' : Wf (doMunmap rb conf s start len).2.mm L') (hz : (doMunmap rb conf s start len).1 = 0)
    (ha : 4096 ∣ addr) (hy : y ∈ L')
    (hs : ((doMunmap rb conf s start len).2.mm.core y).vmStart ≤ addr)
    (he : addr < ((doMunmap rb conf s start len).2.mm.core y).vmEnd) :
    ∃ x ∈ L, (s.mm.core x).vmStart ≤ addr ∧ addr < (s.mm.core x).vmEnd ∧
      cleanFlags (s.mm.core x).vmFlags =
        cleanFlags ((doMunmap rb conf s start len).2.mm.core y).vmFlags := by
  obtain ⟨k, rfl⟩ := ha
  obtain ⟨L₁, hdoes⟩ := ((doMunmap_does rb conf start len h).resolve_left fun hn => hn.1.ne hz).2
  obtain rfl : L' = L₁ := h'.unique hdoes.wf
  have hmem : (k, (((doMunmap rb conf s start len).2.mm.core y).pageAt k).clean) ∈
      pages (doMunmap rb conf s start len).2.mm.core L' := by
    obtain ⟨A, B, rfl⟩ := List.append_of_mem hy
    rw [pages, total_append, total_cons, Multiset.mem_add, Multiset.mem_add]
    exact .inr (.inl ((mem_weight_iff (h'.ordered.area y hy)).2 ⟨⟨hs, he⟩, rfl⟩))
  rw [hdoes.pages] at hmem
  obtain ⟨x, hx, hxk⟩ := mem_pages (Multiset.mem_filter.1 hmem).1
  obtain ⟨⟨hxs, hxe⟩, hinfo⟩ := (mem_weight_iff (h.ordered.area x hx)).1 hxk
  exact ⟨x, hx, hxs, hxe, (congrArg PageInfo.flags hinfo).symm⟩

theorem mremapToTask_grew (rb : Balance VmaId) (env : MmEnv) (h : Wf s.mm L) (ha : 4096 ∣ addr)
    (ho : 4096 ∣ oldLen) (hn : 4096 ∣ newLen) (hlt : oldLen < newLen) :
    let r := mremapToTask rb env s addr oldLen new newLen
    GrowFailed r ∨ ∃ x ∈ L, (s.mm.core x).vmStart ≤ addr ∧ addr < (s.mm.core x).vmEnd ∧
      (s.mm.core x).vmFlags.has VM_HUGETLB = false ∧ GrewTo (s.mm.core x).vmFlags newLen new r := by
  unfold mremapToTask
  split
  next => exact .inl (growFailed_of_unlocked (by decide) _)
  next hoff =>
  split
  next => exact .inl (growFailed_of_unlocked (by decide) _)
  next htask =>
  split
  next => exact .inl (growFailed_of_unlocked (by decide) _)
  unfold offsetInPage at hoff
  have htask' : new+newLen ≤ TASK_SIZE := by omega
  have hrange : RangeOk new (new+newLen) :=
    ⟨by omega, by omega, by omega, htask'.trans_lt (by decide)⟩
  dsimp only
  rcases doMunmap_does rb env.conf new newLen h with ⟨hneg, -⟩ | ⟨hz, L₁, hclear⟩
  · rw [if_pos hneg.ne]
    exact .inl (growFailed_of_unlocked hneg _)
  rw [if_neg (not_not.2 hz), if_neg (not_le.2 hlt), if_neg (fun hne => hne.1 rfl),
    min_eq_left hlt.le]
  rcases moveTo_grew rb env addr hclear.wf ho hrange htask' with
    hfailed | ⟨y, hy, hs, he, hh, hgrew⟩
  · exact .inl hfailed
  · obtain ⟨x, hx, hxs, hxe, hflags⟩ := doMunmap_before rb env.conf h hclear.wf hz ha hy hs he
    have hbare := bareFlags_of_clean hflags
    refine .inr ⟨x, hx, hxs, hxe, by rw [has_bareFlags (by decide) hbare]; exact hh, ?_⟩
    obtain ⟨hret, hrange, htask, hlock, L', hw, hshows⟩ := hgrew
    refine ⟨hret, hrange, htask, by rw [has_bareFlags (by decide) hbare]; exact hlock, L', hw,
      fun p hp hp' => ?_⟩
    obtain ⟨i, hi, hi'⟩ := hshows p hp hp'
    exact ⟨i, hi, hi'.trans hbare.symm⟩

/-- `mremap_task` that grows a range: the range that it returns shows the flags of the area at
`addr`, and is to be populated if that area is locked. -/
theorem mremapTask_grew (rb : Balance VmaId) (env : MmEnv) (addr : ℕ) (flags : Bits) (new : ℕ)
    (h : Wf s.mm L) (hlt : pageAlign oldLen < pageAlign newLen) :
    let r := mremapTask rb env s addr oldLen newLen flags new
    r.1 < 0 ∧ r.2.1 = false ∨ ∃ x ∈ L, (s.mm.core x).vmStart ≤ addr ∧ addr < (s.mm.core x).vmEnd ∧
      (s.mm.core x).vmFlags.has VM_HUGETLB = false ∧ ∃ a,
        (flags.has MREMAP_FIXED = true → a = new) ∧
        GrewTo (s.mm.core x).vmFlags (pageAlign newLen) a r := by
  have hinval : -EINVAL < 0 := by decide
  unfold mremapTask
  dsimp only
  split
  next => exact .inl ⟨hinval, rfl⟩
  split
  next => exact .inl ⟨hinval, rfl⟩
  split
  next => exact .inl ⟨hinval, rfl⟩
  next hoff =>
  split
  next => exact .inl ⟨hinval, rfl⟩
  split
  next => exact .inl ⟨show -EINTR < 0 by decide, rfl⟩
  have ha : 4096 ∣ addr := by
    unfold offsetInPage at hoff
    omega
  have hmm : s.outcome.2.mm = s.mm := outcome_mm s
  have hw : Wf s.outcome.2.mm L := by rw [hmm]; exact h
  have hold := pageAlign_dvd oldLen
  have hnew := pageAlign_dvd newLen
  have hgrew : let r :=
    mremapLocked rb env s.outcome.2 addr (pageAlign oldLen) (pageAlign newLen) flags new
      GrowFailed r ∨ ∃ x ∈ L, (s.mm.core x).vmStart ≤ addr ∧ addr < (s.mm.core x).vmEnd ∧
        (s.mm.core x).vmFlags.has VM_HUGETLB = false ∧ ∃ a,
        (flags.has MREMAP_FIXED = true → a = new) ∧
          GrewTo (s.mm.core x).vmFlags (pageAlign newLen) a r := by
    unfold mremapLocked
    rw [← hmm]
    split
    next hfixed =>
      refine (mremapToTask_grew rb env hw ha hold hnew hlt).imp_right ?_
      rintro ⟨x, hx, hxs, hxe, hh, hgrew⟩
      exact ⟨x, hx, hxs, hxe, hh, new, fun _ => rfl, hgrew⟩
    next hfixed =>
      rw [if_neg (not_le.2 hlt)]
      refine (mremapGrow_grew rb env flags hw ha hold hnew hlt (pageAlign_lt newLen)).imp_right ?_
      rintro ⟨x, hx, hxs, hxe, hh, a, hgrew⟩
      exact ⟨x, hx, hxs, hxe, hh, a, fun hf => absurd hf hfixed, hgrew⟩
  dsimp only at hgrew
  generalize mremapLocked rb env s.outcome.2 addr (pageAlign oldLen) (pageAlign newLen) flags new =
    r at hgrew ⊢
  rcases hgrew with
    ⟨hneg, hoff⟩ | ⟨x, hx, hxs, hxe, hh, a, hfix, hret, hrange, htask, hlock, L', hw', hshows⟩
  · refine .inl ⟨hneg, ?_⟩
    cases hl : r.2.1 with
    | false => rfl
    | true => simp [hoff hl]
  · refine .inr ⟨x, hx, hxs, hxe, hh, a, hfix, hret, hrange, htask, ?_, L', hw', hshows⟩
    have hdvd := hrange.start_dvd
    have haligned : r.1 % 4096 = 0 := by
      rw [hret]
      omega
    rw [hlock, decide_eq_true haligned, decide_eq_true hlt, Bool.and_true, Bool.and_true]

end PtraceRemote
