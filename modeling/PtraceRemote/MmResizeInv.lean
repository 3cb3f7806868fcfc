import PtraceRemote.MmMoveInv

/-! What `mremap` can come to: growing in place, moving to a free range and moving to a given one.
The books are kept on all ways, up to the page counters when the growth does not fit into an
`int`. -/
namespace PtraceRemote

open AugTree (Balance)

variable {mm : Mm} {s s' s'' : MmSys} {rb : Balance VmaId} {conf : MmConf} {env : MmEnv}
  {L L' L'' A B P : List VmaId} {x y n : VmaId} {start end_ len addr oldLen newLen new : ℕ}
  {v : Vma}

def growCharge (v : Vma) (delta : ℕ) : ℕ := if v.vmFlags.has VM_ACCOUNT then delta/4096 else 0

structure Resizes (s : MmSys) (L : List VmaId) (s' : MmSys) (x : VmaId) (addr oldLen newLen : ℕ) :
    Prop where
  found : findVma s.mm addr = some x
  mem : x ∈ L
  start : (s.mm.core x).vmStart ≤ addr
  lt : addr < (s.mm.core x).vmEnd
  fits : addr+oldLen ≤ (s.mm.core x).vmEnd
  ordinary : (s.mm.core x).vmFlags.has VM_HUGETLB = false
  charge : ∀ G, Does G s L s' L (pages s.mm.core L) (growCharge (s.mm.core x) (newLen-oldLen))

theorem vmaToResizeTask_spec (env : MmEnv) (addr oldLen newLen : ℕ) (h : Wf s.mm L) :
    let r := vmaToResizeTask env s addr oldLen newLen
    r.2.mm = s.mm ∧ ((∃ e, r.1 = .error e ∧ IsErr e ∧ Same s r.2 L) ∨
      ∃ x, r.1 = .ok (x, growCharge (s.mm.core x) (newLen-oldLen)) ∧
        Resizes s L r.2 x addr oldLen newLen) := by
  intro r
  have hr : vmaToResizeTask env s addr oldLen newLen = r := rfl
  clear_value r
  have hself := Same.refl h
  have hfail : ∀ e, IsErr e → (Except.error e, s) = r →
    r.2.mm = s.mm ∧ ((∃ e, r.1 = .error e ∧ IsErr e ∧ Same s r.2 L) ∨
      ∃ x, r.1 = .ok (x, growCharge (s.mm.core x) (newLen-oldLen)) ∧
      Resizes s L r.2 x addr oldLen newLen) := by
    rintro e he rfl
    exact ⟨rfl, .inl ⟨e, rfl, he, hself⟩⟩
  unfold vmaToResizeTask at hr
  cases hf : findVma s.mm addr with
  | none =>
    rw [hf] at hr
    exact hfail _ isErr_fault hr
  | some x =>
    rw [hf] at hr
    obtain ⟨A, B, rfl, -, hlt⟩ := findVma_some h.rep (ordered_core.1 h.ordered) hf
    have hres : ∀ s', (s.mm.core x).vmStart ≤ addr → (s.mm.core x).vmFlags.has VM_HUGETLB = false →
        oldLen ≤ (s.mm.core x).vmEnd-addr →
        (∀ G, Does G s (A ++ x :: B) s' (A ++ x :: B) (pages s.mm.core (A ++ x :: B))
          (growCharge (s.mm.core x) (newLen-oldLen))) →
            Resizes s (A ++ x :: B) s' x addr oldLen newLen :=
      fun s' h₁ h₂ h₃ h₄ =>
        ⟨hf, by simp, h₁, hlt, by have : addr < (s.mm.core x).vmEnd := hlt; omega, h₂, h₄⟩
    dsimp only at hr
    rcases ite_eq_iff.1 hr with ⟨-, hr⟩ | ⟨hstart, hr⟩
    · exact hfail _ isErr_fault hr
    have hstart : (s.mm.core x).vmStart ≤ addr := not_lt.1 hstart
    rcases ite_eq_iff.1 hr with ⟨-, hr⟩ | ⟨hhuge, hr⟩
    · exact hfail _ isErr_inval hr
    have hhuge : (s.mm.core x).vmFlags.has VM_HUGETLB = false := Bool.eq_false_of_not_eq_true hhuge
    rcases ite_eq_iff.1 hr with ⟨-, hr⟩ | ⟨hfits, hr⟩
    · exact hfail _ isErr_fault hr
    have hfits : oldLen ≤ (s.mm.core x).vmEnd-addr := not_lt.1 hfits
    have hfree : growCharge (s.mm.core x) (newLen-oldLen) = 0 → (Except.ok (x, 0), s) = r →
        r.2.mm = s.mm ∧ ((∃ e, r.1 = .error e ∧ IsErr e ∧ Same s r.2 (A ++ x :: B)) ∨ ∃ y,
          r.1 = .ok (y, growCharge (s.mm.core y) (newLen-oldLen)) ∧
          Resizes s (A ++ x :: B) r.2 y addr oldLen newLen) := by
      rintro hz rfl
      refine ⟨rfl, .inr ⟨x, by rw [hz], hres s hstart hhuge hfits fun G => ?_⟩⟩
      rw [hz]
      exact hself.does
    rcases ite_eq_iff.1 hr with ⟨heq, hr⟩ | ⟨-, hr⟩
    · refine hfree ?_ hr
      rw [heq, Nat.sub_self, growCharge]
      split <;> rfl
    rcases ite_eq_iff.1 hr with ⟨-, hr⟩ | ⟨-, hr⟩
    · exact hfail _ isErr_inval hr
    rcases ite_eq_iff.1 hr with ⟨-, hr⟩ | ⟨-, hr⟩
    · exact hfail _ isErr_fault hr
    rcases ite_eq_iff.1 hr with ⟨-, hr⟩ | ⟨-, hr⟩
    · exact hfail _ ⟨by decide, by decide⟩ hr
    rcases ite_eq_iff.1 hr with ⟨-, hr⟩ | ⟨-, hr⟩
    · exact hfail _ isErr_nomem hr
    rcases ite_eq_iff.1 hr with ⟨hacct, hr⟩ | ⟨hacct, hr⟩
    · have hcharge : growCharge (s.mm.core x) (newLen-oldLen) = (newLen-oldLen)/4096 := if_pos hacct
      have hcost := fun G => @vmEnoughMemory_spec s (A ++ x :: B) G h ((newLen-oldLen)/4096 : ℕ)
      rcases ite_eq_iff.1 hr with ⟨hne, rfl⟩ | ⟨hz, rfl⟩
      · exact ⟨(hcost True).1,
          .inl ⟨_, rfl, isErr_nomem, ((hcost True).2.resolve_right fun hz => hne hz.1).2⟩⟩
      · refine ⟨(hcost True).1, .inr ⟨x, by rw [hcharge], hres _ hstart hhuge hfits fun G => ?_⟩⟩
        rw [hcharge]
        exact ((hcost G).2.resolve_left fun hne => hz hne.1).2
    · exact hfree (if_neg hacct) hr

/-- The number of pages is right as long as it fits into an `int`. -/
theorem intPages_eq {delta : ℕ} (h : delta/4096 < 2^31) :
    intPages delta = BitVec.ofNat 64 (delta/4096) := by
  have hlt : delta/4096 % 2^32 = delta/4096 := Nat.mod_eq_of_lt (h.trans (by decide))
  have hmsb : (BitVec.ofNat 32 (delta/4096)).msb = false := by
    rw [BitVec.msb_eq_decide, BitVec.toNat_ofNat, hlt]
    exact decide_eq_false (Nat.not_le.2 h)
  unfold intPages
  rw [BitVec.setWidth_ofNat_of_le (by decide), BitVec.signExtend_eq_setWidth_of_msb_false hmsb]
  refine BitVec.eq_of_toNat_eq ?_
  rw [BitVec.toNat_setWidth, BitVec.toNat_ofNat, BitVec.toNat_ofNat, hlt]

/-- Moving the end of the area `x` up to `end_`. -/
theorem acts_extend (rb : Balance VmaId) (h : Wf s.mm (A ++ x :: B))
    (hr : RangeOk (s.mm.core x).vmStart end_) (he : (s.mm.core x).vmEnd ≤ end_)
    (hB : ∀ b ∈ B, end_ ≤ (s.mm.core b).vmStart) :
    let v := s.mm.core x
    let r := vmaAdjust rb s x v.vmStart end_ v.vmPgoff none none
    r.1 = 0 ∧ r.2.mm.core x = { v with vmEnd := end_ } ∧ Acts s (A ++ x :: B) r.2 (A ++ x :: B)
      (pages s.mm.core (A ++ x :: B) + blockPages v.vmEnd end_ v.vmFile
        (v.pgoffAt v.vmEnd) v.vmFlags)
      (-charge (blockPages v.vmEnd end_ v.vmFile (v.pgoffAt v.vmEnd) v.vmFlags)) := by
  dsimp only
  have hv := h.ordered.area x (by simp)
  obtain ⟨hz, hadj⟩ := vmaAdjust_keep rb (s.mm.core x).vmPgoff none none h hr h.below hB he
  set r := vmaAdjust rb s x (s.mm.core x).vmStart end_ (s.mm.core x).vmPgoff none none
  set w : Vma := { s.mm.core x with
    vmStart := (s.mm.core x).vmStart, vmEnd := end_, vmPgoff := (s.mm.core x).vmPgoff } with hw
  have hweight : w.weight single = (s.mm.core x).weight single +
      blockPages (s.mm.core x).vmEnd end_ (s.mm.core x).vmFile
      ((s.mm.core x).pgoffAt (s.mm.core x).vmEnd) (s.mm.core x).vmFlags :=
    blockSum_split hv.lt.le he hv.start_dvd hv.end_dvd hr.end_dvd
  have hpages : pages r.2.mm.core (A ++ x :: B) = pages s.mm.core (A ++ x :: B) +
      blockPages (s.mm.core x).vmEnd end_ (s.mm.core x).vmFile
      ((s.mm.core x).pgoffAt (s.mm.core x).vmEnd) (s.mm.core x).vmFlags := by
    rw [hadj.core, pages, total_update h.rep.notMem, hweight, pages, total_append, total_cons]
    abel
  have hcount : counters r.2 = counters s := by
    have hzero : refVec none 0 = 0 := by
      simp only [refVec, held, ite_self]
      rfl
    rw [counters_dropRefs hadj.rest hadj.fCount hadj.committed, hzero, sub_zero]
  have hrefs : references r.2.mm.core (A ++ x :: B) = references s.mm.core (A ++ x :: B) := by
    rw [hadj.core]
    refine references_congr fun y _ => ?_
    by_cases hy : y = x
    · subst hy
      rw [Function.update_self]
    · rw [Function.update_of_ne hy]
  refine ⟨hz, ?_, hadj.wf, hpages, ?_, fixed_of_rest hadj.rest⟩
  · rw [hadj.core, Function.update_self]
  · rw [ledger, hcount, hpages, hrefs, charge_add, ledger]
    abel

theorem statVec_sub (flags : VmFlags) (a b : BitVec 64) :
    statVec flags (a-b) = statVec flags a - statVec flags b := by
  unfold statVec
  split <;> split <;> split <;> simp

theorem lockVec_sub_ite (p : Prop) [Decidable p] (a b : BitVec 64) :
    lockVec (if p then a-b else 0) =
      lockVec (if p then a else 0) - lockVec (if p then b else 0) := by
  split <;> simp [lockVec]

def pagesError (delta : ℕ) : BitVec 64 := intPages delta-BitVec.ofNat 64 (delta/4096)

theorem growInPlace_spec (rb : Balance VmaId) {oldLen newLen : ℕ} (h : Wf s.mm (A ++ x :: B))
    (hend : addr+oldLen = (s.mm.core x).vmEnd) (hlt : oldLen < newLen) (hd : 4096 ∣ addr+newLen)
    (hlim : addr+newLen < 2^64) (hB : ∀ b ∈ B, addr+newLen ≤ (s.mm.core b).vmStart) :
    let v := s.mm.core x
    let e := pagesError (newLen-oldLen)
    let r := growInPlace rb s x addr oldLen newLen
    r.1 = addr ∧ Acts s (A ++ x :: B) r.2.2 (A ++ x :: B)
      (pages s.mm.core (A ++ x :: B) + blockPages v.vmEnd (addr+newLen) v.vmFile
        (v.pgoffAt v.vmEnd) v.vmFlags)
      (statVec v.vmFlags e + lockVec (if v.vmFlags.has VM_LOCKED then e else 0) -
        acctVec (growCharge v (newLen-oldLen))) := by
  dsimp only
  have hv := h.ordered.area x (by simp)
  have hr : RangeOk (s.mm.core x).vmStart (addr+newLen) :=
    ⟨by have := hv.lt; omega, hv.start_dvd, hd, hlim⟩
  obtain ⟨hz, hx, hext⟩ := acts_extend rb h hr (by omega) hB
  unfold growInPlace
  dsimp only
  have hz' : (vmaAdjust rb s x (s.mm.vma x).vmStart (addr+newLen) (s.mm.vma x).vmPgoff none
      none).1 = 0 := hz
  rw [if_neg (not_not.2 hz')]
  set r := vmaAdjust rb s x (s.mm.vma x).vmStart (addr+newLen) (s.mm.vma x).vmPgoff none none
  have hext : Acts s (A ++ x :: B) r.2 (A ++ x :: B) _ _ := hext
  have hstat := hext.trans (acts_stat hext.wf (s.mm.core x).vmFlags (intPages (newLen-oldLen)))
  rw [hext.pages] at hstat
  have hcharge : charge (blockPages (s.mm.core x).vmEnd (addr+newLen) (s.mm.core x).vmFile
      ((s.mm.core x).pgoffAt (s.mm.core x).vmEnd) (s.mm.core x).vmFlags) =
      statVec (s.mm.core x).vmFlags (BitVec.ofNat 64 ((newLen-oldLen)/4096)) +
        lockVec (if (s.mm.core x).vmFlags.has VM_LOCKED then
          BitVec.ofNat 64 ((newLen-oldLen)/4096) else 0) +
        acctVec (growCharge (s.mm.core x) (newLen-oldLen)) := by
    rw [charge_block, ← hend, Nat.add_sub_add_left, growCharge]
    congr 2
    split <;> rfl
  rw [pagesError, statVec_sub, lockVec_sub_ite]
  rw [hcharge] at hstat
  split
  next hl =>
    have hl : (s.mm.core x).vmFlags.has VM_LOCKED = true := hl
    have hlock := hstat.trans (acts_lock hstat.wf (intPages (newLen-oldLen)))
    rw [hstat.pages] at hlock
    rw [if_pos hl] at hlock
    rw [if_pos hl, if_pos hl]
    refine ⟨rfl, Eq.mp (congrArg _ ?_) hlock⟩
    abel
  next hl =>
    have hl : ¬(s.mm.core x).vmFlags.has VM_LOCKED = true := hl
    rw [if_neg hl] at hstat
    rw [if_neg hl, if_neg hl]
    refine ⟨rfl, Eq.mp (congrArg _ ?_) hstat⟩
    rw [lockVec_zero]
    abel

/-! The move. -/

def movedPages (mm : Mm) (L : List VmaId) (x : VmaId) (addr oldLen newLen new : ℕ) : Pages :=
  outside addr (addr+oldLen) (pages mm.core L) + blockPages new (new+newLen) (mm.core x).vmFile
    (copyPgoff (mm.vma x) new ((mm.core x).pgoffAt addr)) (mm.core x).vmFlags

def MovedTo (s : MmSys) (L : List VmaId) (x : VmaId) (addr oldLen newLen new : ℕ)
    (r : ℤ × Bool × MmSys) : Prop :=
  r.1 = new ∧ RangeOk new (new+newLen) ∧ Free s.mm.core L new (new+newLen) ∧ ∃ L' P,
    Does (LockExact s L) s L r.2.2 L' P
      (if (s.mm.core x).vmFlags.has VM_ACCOUNT then
        ((oldLen/4096 : ℕ) : ℤ)-(newLen/4096 : ℕ) else 0) ∧
    (CalmAfter 2 s → RangeOk addr (addr+oldLen) → addr+oldLen ≤ TASK_SIZE →
      P = movedPages s.mm L x addr oldLen newLen new)

/-- The move after the search for an address has asked the security module. -/
theorem moveVma_moves (rb : Balance VmaId) (env : MmEnv) (h : Wf s.mm L) (hx : x ∈ L)
    (hs : (s.mm.core x).vmStart ≤ addr) (he : addr+oldLen ≤ (s.mm.core x).vmEnd)
    (hd : 4096 ∣ oldLen) (hh : (s.mm.core x).vmFlags.has VM_HUGETLB = false)
    (hr : RangeOk new (new+newLen)) :
    let r := moveVma rb env s.outcome.2 x addr oldLen newLen new
    FailsUndone (UndoesCopy rb env s.outcome.2 x addr newLen new) s L r ∨
      MovedTo s L x addr oldLen newLen new r := by
  intro r
  have hmm : s.outcome.2.mm = s.mm := outcome_mm s
  have hsame : Same s s.outcome.2 L := (outcome_quiet s).same h
  have hcalm : CalmAfter 2 s → Calm s.outcome.2.outcome.2 := fun hc => hc.outcome.outcome
  have hmove : MoveResult (UndoesCopy rb env s.outcome.2 x addr newLen new) s.outcome.2 L x addr
      oldLen newLen new r := by
    refine moveVma_spec rb env ?_ hx ?_ ?_ hd hr <;> rwa [hmm]
  clear_value r
  rcases hmove with ⟨herr, L', P, hdoes, hP⟩ | ⟨hnew, hfree, L', P, hdoes, hP⟩
  · exact .inl ⟨herr, L', P, hsame.then_does hdoes, hP.of_mm hmm⟩
  · rw [hmm] at hfree hdoes hP
    exact .inr ⟨hnew, hr, hfree, L', P, hsame.then_does hdoes,
      fun hc ho hto => hP.resolve_right (not_not.2 ⟨hcalm hc, ho, hto, hh⟩)⟩

/-- `UndoesCopy` for the move of an area that cannot grow where it is. -/
def MoveUndoes (rb : Balance VmaId) (env : MmEnv) (s : MmSys) (x : VmaId) (addr newLen : ℕ)
    (flags : Bits) : Prop :=
  let v := s.mm.vma x
  let area := getTaskUnmappedArea env s v.vmFile 0 newLen (v.pgoffAt addr) (moveFlags v)
  flags.has MREMAP_MAYMOVE = true → area.1 % 4096 = 0 →
    UndoesCopy rb env area.2 x addr newLen area.1.toNat

theorem growByMove_spec (rb : Balance VmaId) (env : MmEnv) (flags : Bits) (h : Wf s.mm L)
    (hx : x ∈ L) (hs : (s.mm.core x).vmStart ≤ addr) (he : addr+oldLen ≤ (s.mm.core x).vmEnd)
    (hd : 4096 ∣ oldLen) (hh : (s.mm.core x).vmFlags.has VM_HUGETLB = false) (hn : 4096 ∣ newLen)
    (hpos : 0 < newLen) :
    let r := growByMove rb env s x addr oldLen newLen flags
    FailsUndone (MoveUndoes rb env s x addr newLen flags) s L r ∨ ∃ new,
      MovedTo s L x addr oldLen newLen new r := by
  intro r
  have hr : growByMove rb env s x addr oldLen newLen flags = r := rfl
  clear_value r
  unfold growByMove at hr
  rcases ite_eq_iff.1 hr with ⟨hmay, hr⟩ | ⟨hstay, rfl⟩
  · dsimp only at hr
    have hspec := unmappedAreaOf_spec env s s.mm.topdown (s.mm.vma x).vmFile 0 newLen
      ((s.mm.vma x).pgoffAt addr) (moveFlags (s.mm.vma x))
    obtain ⟨hq, -, hres⟩ := hspec
    rcases ite_eq_iff.1 hr with ⟨hoff, rfl⟩ | ⟨hoff, rfl⟩
    · exact .inl ((hq.same h).failsUndone (hres.resolve_right fun hok => hoff hok.2.2.2) fun _ hz =>
        absurd hz hoff)
    · have hoff := not_not.1 hoff
      have hstate := outcomes_unmappedAreaOf hoff
      obtain ⟨-, h0, hle, -⟩ := hres.resolve_left fun he => he.offset hoff
      unfold getTaskUnmappedArea
      rw [hstate]
      set a :=
        (unmappedAreaOf env s s.mm.topdown (s.mm.vma x).vmFile 0 newLen ((s.mm.vma x).pgoffAt addr)
        (moveFlags (s.mm.vma x))).1
      have ha : a % 4096 = 0 := hoff
      unfold TASK_SIZE at hle
      have hlim : a.toNat+newLen ≤ TASK_SIZE := by
        unfold TASK_SIZE
        omega
      have hrange : RangeOk a.toNat (a.toNat+newLen) :=
        ⟨by omega, by omega, by omega, by unfold TASK_SIZE at hlim; omega⟩
      rcases moveVma_moves rb env h hx hs he hd hh hrange with ⟨herr, L', P, hdoes, hP⟩ | hm
      · refine .inl ⟨herr, L', P, hdoes, hP.congr ?_⟩
        unfold MoveUndoes getTaskUnmappedArea
        dsimp only
        rw [hstate]
        exact ⟨fun hu _ _ => hu, fun hu => hu hmay hoff⟩
      · exact .inr ⟨_, hm⟩
  · exact .inl ((Same.refl h).failsUndone isErr_nomem fun hmay => absurd hmay hstay)

theorem vmaExpandable_spec (env : MmEnv) {delta : ℕ} (h : Wf s.mm (A ++ x :: B))
    (hd : delta < 2^64) :
    let v := s.mm.core x
    let r := vmaExpandable env s x delta
    Quiet s r.2 ∧ r.2.mm = s.mm ∧ (r.1 = true → v.vmEnd+delta ≤ TASK_SIZE ∧ ∀ b ∈ B,
      v.vmEnd+delta ≤ (s.mm.core b).vmStart) := by
  intro v r
  have hr : vmaExpandable env s x delta = r := rfl
  clear_value r
  have hv : AreaOk v := h.ordered.area x (by simp)
  unfold vmaExpandable at hr
  dsimp only at hr
  rcases ite_eq_iff.1 hr with ⟨-, rfl⟩ | ⟨hwrap, hr⟩
  · exact ⟨Quiet.refl s, rfl, nofun⟩
  rcases ite_eq_iff.1 hr with ⟨-, rfl⟩ | ⟨hnext, rfl⟩
  · exact ⟨Quiet.refl s, rfl, nofun⟩
  have hwrap : v.vmEnd ≤ wadd v.vmEnd delta := not_lt.1 hwrap
  have hend : wadd v.vmEnd delta = v.vmEnd+delta := by
    have hlt := hv.end_lt
    unfold wadd at hwrap ⊢
    omega
  have hend' : wadd (s.mm.vma x).vmEnd delta = v.vmEnd+delta := hend
  rw [hend'] at hnext ⊢
  obtain ⟨hq, hmm, hres⟩ :=
    unmappedAreaOf_spec env s (env.cur s.mm).topdown none (s.mm.vma x).vmStart
    (v.vmEnd+delta-(s.mm.vma x).vmStart) 0 MAP_FIXED
  refine ⟨hq, hmm, fun hok => ?_⟩
  have hoff := of_decide_eq_true hok
  obtain ⟨harea, h0, hle, -⟩ := hres.resolve_left fun he => he.offset hoff
  have hshared : MAP_FIXED.has MAP_SHARED = false := by decide
  have harch : getArea env s.mm (env.cur s.mm).topdown none (s.mm.vma x).vmStart
    (v.vmEnd+delta-(s.mm.vma x).vmStart) 0
      MAP_FIXED = archArea env s.mm (env.cur s.mm).topdown (s.mm.vma x).vmStart
        (v.vmEnd+delta-(s.mm.vma x).vmStart) MAP_FIXED := by
    unfold getArea
    dsimp only
    rw [hshared]
    rfl
  rw [harea, harch] at hle h0
  rw [archArea_fixed h0] at hle
  have hstart : (s.mm.vma x).vmStart = v.vmStart := rfl
  have hlt := hv.lt
  refine ⟨by rw [hstart] at hle; omega, fun b hb => ?_⟩
  rw [h.rep.next_eq] at hnext
  obtain ⟨c, B', rfl⟩ := List.exists_cons_of_ne_nil (List.ne_nil_of_mem hb)
  have hc : v.vmEnd+delta ≤ (s.mm.core c).vmStart := by
    by_contra hcon
    exact hnext (decide_eq_true (not_le.1 hcon))
  rcases List.mem_cons.1 hb with rfl | hb
  · exact hc
  · obtain ⟨-, hxB, -⟩ := ordered_append.1 h.ordered
    obtain ⟨-, hcB, -⟩ := ordered_cons.1 hxB
    obtain ⟨hca, -, hcb⟩ := ordered_cons.1 hcB
    exact (hc.trans hca.lt.le).trans (hcb b hb)

/-! Growing. -/

structure Keeps (G : Prop) (s : MmSys) (L : List VmaId) (s' : MmSys) (L' : List VmaId) (P : Pages)
    (c : ℤ) : Prop where
  wf : Wf s'.mm L'
  pages : pages s'.mm.core L' = P
  kept : ∃ k : Ledger, ledger s' L' = ledger s L + k + acctVec c ∧ k.2.2.2.2.2 = 0 ∧ (G → k = 0)
  fixed : s'.mm.fixed = s.mm.fixed

theorem Does.keeps {G : Prop} {P : Pages} {c : ℤ} (h : Does G s L s' L' P c) :
    Keeps G s L s' L' P c := by
  obtain ⟨d, hd, hz⟩ := h.kept
  exact ⟨h.wf, h.pages, ⟨lockVec d, hd, rfl, fun hg => by rw [hz hg, lockVec_zero]⟩, h.fixed⟩

theorem Keeps.lockExact {G : Prop} {P : Pages} {c : ℤ} (h : Keeps G s L s' L' P c) (hg : G)
    (hl : LockExact s L) :
    LockExact s' L' := by
  obtain ⟨k, hk, -, hz⟩ := h.kept
  have hadd : ∀ a b : Ledger, lockPart (a+b) = lockPart a+lockPart b := fun _ _ => rfl
  have hacct : lockPart (acctVec c) = 0 := rfl
  unfold LockExact at hl ⊢
  rw [hk, hz hg, add_zero, hadd, hl, hacct, add_zero]

/-- Operations that come one after the other, each of them right if the lock entry is and `F`
holds. -/
theorem Keeps.seq {F : Prop} {P Q : Pages} {c c' : ℤ} (h : Keeps (LockExact s L ∧ F) s L s' L' P c)
    (h' : Keeps (LockExact s' L' ∧ F) s' L' s'' L'' Q c') :
    Keeps (LockExact s L ∧ F) s L s'' L'' Q (c+c') := by
  obtain ⟨k, hk, hk0, hz⟩ := h.kept
  obtain ⟨k', hk', hk0', hz'⟩ := h'.kept
  refine ⟨h'.wf, h'.pages, ⟨k+k', ?_, ?_, fun hg => ?_⟩, h'.fixed.trans h.fixed⟩
  · rw [hk', hk, acctVec_add]
    abel
  · show k.2.2.2.2.2+k'.2.2.2.2.2 = 0
    rw [hk0, hk0', add_zero]
  · rw [hz hg, hz' ⟨h.lockExact hg hg.1, hg.2⟩, add_zero]

theorem Keeps.unacct {G : Prop} {P : Pages} {c : ℤ} (h : Keeps G s L s' L' P c) (k : ℤ) :
    Keeps G s L (vmUnacctMemory s' k) L' P (c-k) := by
  obtain ⟨e, he, hrest, hz⟩ := h.kept
  refine ⟨h.wf, h.pages, ⟨e, ?_, hrest, hz⟩, h.fixed⟩
  rw [ledger_unacct, he, sub_eq_add_neg c, acctVec_add, acctVec_neg]
  abel

def GrowthFits (oldLen newLen : ℕ) : Prop := (newLen-oldLen)/4096 < 2^31

def GrowsInPlace (mm : Mm) (x : VmaId) (addr oldLen newLen : ℕ) : Prop :=
  addr+oldLen = (mm.vma x).vmEnd ∧ ∀ n, mm.vmNext x = some n → addr+newLen ≤ (mm.vma n).vmStart

theorem growInPlace_keeps (rb : Balance VmaId) (h : Wf s.mm (A ++ x :: B))
    (hend : addr+oldLen = (s.mm.core x).vmEnd) (hlt : oldLen < newLen) (hd : 4096 ∣ addr+newLen)
    (hlim : addr+newLen < 2^64) (hB : ∀ b ∈ B, addr+newLen ≤ (s.mm.core b).vmStart) :
    let v := s.mm.core x
    let r := growInPlace rb s x addr oldLen newLen
    r.1 = addr ∧ Keeps (LockExact s (A ++ x :: B) ∧ GrowthFits oldLen newLen) s (A ++ x :: B) r.2.2
      (A ++ x :: B)
      (pages s.mm.core (A ++ x :: B) + blockPages v.vmEnd (addr+newLen) v.vmFile
        (v.pgoffAt v.vmEnd) v.vmFlags)
      (-growCharge v (newLen-oldLen)) := by
  intro v r
  obtain ⟨hret, hacts⟩ := growInPlace_spec rb h hend hlt hd hlim hB
  refine ⟨hret, hacts.wf, hacts.pages, ⟨statVec v.vmFlags (pagesError (newLen-oldLen)) +
    lockVec (if v.vmFlags.has VM_LOCKED then pagesError (newLen-oldLen) else 0), ?_, ?_,
    fun hg => ?_⟩, hacts.fixed⟩
  · rw [hacts.books, acctVec_neg]
    abel
  · simp [statVec, lockVec]
  · rw [pagesError, intPages_eq hg.2, sub_self, ite_self, lockVec_zero, add_zero, statVec]
    simp only [ite_self]
    rfl

theorem Keeps.mono {G G' : Prop} {P : Pages} {c : ℤ} (h : Keeps G s L s' L' P c) (hG : G' → G) :
    Keeps G' s L s' L' P c := by
  obtain ⟨k, hk, hk0, hz⟩ := h.kept
  exact ⟨h.wf, h.pages, ⟨k, hk, hk0, fun hg => hz (hG hg)⟩, h.fixed⟩

def Grown (s : MmSys) (L : List VmaId) (x : VmaId) (addr oldLen newLen new : ℕ) (P : Pages) :
    Prop :=
  let v := s.mm.core x
  (new = addr ∧ addr+oldLen = v.vmEnd ∧ addr+newLen ≤ TASK_SIZE ∧
    Free s.mm.core L v.vmEnd (addr+newLen) ∧
    P = pages s.mm.core L +
      blockPages v.vmEnd (addr+newLen) v.vmFile (v.pgoffAt v.vmEnd) v.vmFlags) ∨
  RangeOk new (new+newLen) ∧ Free s.mm.core L new (new+newLen) ∧
    (CalmAfter 2 s → RangeOk addr (addr+oldLen) → addr+oldLen ≤ TASK_SIZE →
      P = movedPages s.mm L x addr oldLen newLen new)

/-- A move uses up the charge for the growth. -/
theorem moved_charge (v : Vma) (ho : 4096 ∣ oldLen) (hn : 4096 ∣ newLen) (hle : oldLen ≤ newLen) :
    (if v.vmFlags.has VM_ACCOUNT then ((oldLen/4096 : ℕ) : ℤ)-(newLen/4096 : ℕ) else 0) =
      -growCharge v (newLen-oldLen) := by
  unfold growCharge
  split
  · omega
  · rfl

/-- `UndoesCopy` for a growing `mremap` that has found the area. -/
def GrowUndoes (rb : Balance VmaId) (env : MmEnv) (s : MmSys) (x : VmaId) (addr oldLen newLen : ℕ)
    (flags : Bits) : Prop :=
  let expand := if oldLen = (s.mm.vma x).vmEnd-addr then vmaExpandable env s x (newLen-oldLen)
    else (false, s)
  expand.1 = false → MoveUndoes rb env expand.2 x addr newLen flags

/-- What follows an area, up to the next one. -/
theorem free_after (ho : Ordered core (A ++ x :: B)) {end_ : ℕ}
    (hB : ∀ b ∈ B, end_ ≤ (core b).vmStart) :
    Free core (A ++ x :: B) (core x).vmEnd end_ := by
  obtain ⟨-, hx, hA⟩ := ordered_append.1 ho
  intro y hy
  rcases List.mem_append.1 hy with hy | hy
  · have hle := hA y hy x (by simp)
    have hlt := (ho.area x (by simp)).lt
    exact .inl (hle.trans hlt.le)
  · rcases List.mem_cons.1 hy with rfl | hy
    · exact .inl le_rfl
    · exact .inr (hB y hy)

/-- Growing with the charge taken. -/
theorem growArea_spec (rb : Balance VmaId) (env : MmEnv) (flags : Bits) (h : Wf s.mm L)
    (ha : 4096 ∣ addr) (ho : 4096 ∣ oldLen) (hn : 4096 ∣ newLen) (hlt : oldLen < newLen)
    (hlim : newLen < 2^64) (hx : x ∈ L) (hs : (s.mm.core x).vmStart ≤ addr)
    (he : addr+oldLen ≤ (s.mm.core x).vmEnd) (hh : (s.mm.core x).vmFlags.has VM_HUGETLB = false) :
    let v := s.mm.core x
    let r := growArea rb env s x addr oldLen newLen flags
    FailsUndone (GrowUndoes rb env s x addr oldLen newLen flags) s L r ∨ ∃ new : ℕ,
      r.1 = new ∧ 4096 ∣ new ∧ ∃ L' P,
      Keeps (LockExact s L ∧ (GrowsInPlace s.mm x addr oldLen newLen → GrowthFits oldLen newLen)) s
        L r.2.2 L' P (-growCharge v (newLen-oldLen)) ∧
      Grown s L x addr oldLen newLen new P := by
  intro v r
  have hr : growArea rb env s x addr oldLen newLen flags = r := rfl
  clear_value r
  obtain ⟨A, B, rfl⟩ := List.append_of_mem hx
  have he : addr+oldLen ≤ v.vmEnd := he
  unfold growArea at hr
  dsimp only at hr
  generalize hexpand :
    (if oldLen = (s.mm.vma x).vmEnd-addr then vmaExpandable env s x (newLen-oldLen)
    else (false, s)) = expand at hr
  have hstate : Quiet s expand.2 ∧ expand.2.mm = s.mm ∧ Uses s expand.2 ∧ (expand.1 = true →
      addr+oldLen = v.vmEnd ∧ addr+newLen ≤ TASK_SIZE ∧ ∀ b ∈ B,
      addr+newLen ≤ (s.mm.core b).vmStart) := by
    rcases ite_eq_iff.1 hexpand with ⟨hend, rfl⟩ | ⟨-, rfl⟩
    · have hend : oldLen = v.vmEnd-addr := hend
      have hdelta : newLen-oldLen < 2^64 := by omega
      obtain ⟨hq, hmm, hexp⟩ := vmaExpandable_spec env h hdelta
      have hold : addr+oldLen = v.vmEnd := by omega
      have hnew : v.vmEnd+(newLen-oldLen) = addr+newLen := by omega
      refine ⟨hq, hmm, uses_vmaExpandable, fun ht => ?_⟩
      obtain ⟨htask, hB⟩ := hexp ht
      rw [hnew] at htask hB
      exact ⟨hold, htask, hB⟩
    · exact ⟨Quiet.refl s, rfl, Uses.refl s, nofun⟩
  obtain ⟨hq, hmm, hu, hexp⟩ := hstate
  have hsame : Same s expand.2 (A ++ x :: B) := hq.same h
  have hw := hsame.wf
  have hcore : expand.2.mm.core x = v := by rw [hmm]
  rcases ite_eq_iff.1 hr with ⟨hb, rfl⟩ | ⟨hb, rfl⟩
  · obtain ⟨hend, htask, hB⟩ := hexp hb
    have hlim' : addr+newLen < 2^64 := htask.trans_lt (by decide)
    obtain ⟨hret, hgrow⟩ :=
      growInPlace_keeps rb hw (by rw [hcore]; exact hend) hlt (dvd_add ha hn) hlim'
      (by rw [hmm]; exact hB)
    have hkeep : Keeps (LockExact s (A ++ x :: B) ∧ GrowthFits oldLen newLen) s (A ++ x :: B)
      expand.2 (A ++ x :: B) (pages s.mm.core (A ++ x :: B)) 0 := hsame.does.keeps
    have hplace : GrowsInPlace s.mm x addr oldLen newLen := by
      refine ⟨hend, fun n hn => hB n ?_⟩
      rw [h.rep.next_eq] at hn
      exact List.mem_of_head? hn
    have hcount : LockExact s (A ++ x :: B) ∧
      (GrowsInPlace s.mm x addr oldLen newLen → GrowthFits oldLen newLen) →
      LockExact s (A ++ x :: B) ∧ GrowthFits oldLen newLen := And.imp_right fun hf => hf hplace
    have hseq := (hkeep.seq hgrow).mono hcount
    rw [hcore, hmm, zero_add] at hseq
    exact .inr ⟨addr, hret, ha, _, _, hseq, .inl ⟨rfl, hend, htask, free_after h.ordered hB, rfl⟩⟩
  · have hs : (expand.2.mm.core x).vmStart ≤ addr := by rw [hcore]; exact hs
    have he : addr+oldLen ≤ (expand.2.mm.core x).vmEnd := by rw [hcore]; exact he
    have hh : (expand.2.mm.core x).vmFlags.has VM_HUGETLB = false := by rw [hcore]; exact hh
    have hmove := growByMove_spec rb env flags hw hx hs he ho hh hn (Nat.zero_lt_of_lt hlt)
    rcases hmove with ⟨herr, L', P, hdoes, hP⟩ | ⟨new, hret, hrange, hfree, L', P, hdoes, hP⟩
    · refine .inl ⟨herr, L', P, hsame.then_does hdoes, (hP.of_mm hmm).congr ?_⟩
      unfold GrowUndoes
      dsimp only
      rw [hexpand]
      exact ⟨fun hu _ => hu, fun hu => hu (Bool.eq_false_iff.2 hb)⟩
    · rw [hmm] at hfree hP
      rw [hcore, moved_charge v ho hn hlt.le] at hdoes
      exact .inr ⟨new, hret, hrange.start_dvd, L', P, (hsame.then_does hdoes).keeps.mono And.left,
        .inr ⟨hrange, hfree, fun hc => hP (hc.uses hu)⟩⟩

def GrowthCounted (mm : Mm) (addr oldLen newLen : ℕ) : Prop :=
  ∀ x, findVma mm addr = some x → GrowsInPlace mm x addr oldLen newLen → GrowthFits oldLen newLen

/-- `UndoesCopy` for the move that a growing `mremap` makes, if it makes one. -/
def ResizeUndoes (rb : Balance VmaId) (env : MmEnv) (s : MmSys) (addr oldLen newLen : ℕ)
    (flags : Bits) : Prop :=
  let resize := vmaToResizeTask env s addr oldLen newLen
  ∀ c ∈ resize.1.toOption, GrowUndoes rb env resize.2 c.1 addr oldLen newLen flags

instance : Decidable (ResizeUndoes rb env s addr oldLen newLen flags) :=
  have : DecidablePred fun c : VmaId × ℕ =>
    GrowUndoes rb env (vmaToResizeTask env s addr oldLen newLen).2 c.1 addr
    oldLen newLen flags := fun _ => inferInstanceAs (Decidable (_ → _ → _ → _))
  inferInstanceAs (Decidable (∀ c ∈ (vmaToResizeTask env s addr oldLen newLen).1.toOption, _))

/-- The result of `mremap` on the way that grows an area. -/
theorem mremapGrow_spec (rb : Balance VmaId) (env : MmEnv) (flags : Bits) (h : Wf s.mm L)
    (ha : 4096 ∣ addr) (ho : 4096 ∣ oldLen) (hn : 4096 ∣ newLen) (hlt : oldLen < newLen)
    (hlim : newLen < 2^64) :
    let r := mremapGrow rb env s addr oldLen newLen flags
    let G := LockExact s L ∧ GrowthCounted s.mm addr oldLen newLen
    (IsErr r.1 ∧ ∃ L' P,
      Keeps G s L r.2.2 L' P 0 ∧ Undone (ResizeUndoes rb env s addr oldLen newLen flags) s L P) ∨
    ∃ (x : VmaId) (new : ℕ), r.1 = new ∧ findVma s.mm addr = some x ∧ ∃ L' P,
      Keeps G s L r.2.2 L' P 0 ∧ Grown s L x addr oldLen newLen new P := by
  intro r G
  have hr : mremapGrow rb env s addr oldLen newLen flags = r := rfl
  clear_value r
  unfold mremapGrow growWith at hr
  dsimp only at hr
  obtain ⟨hmm, ⟨e, hfail, herr, hsame⟩ | ⟨x, hok, hres⟩⟩ :=
    vmaToResizeTask_spec env addr oldLen newLen h
  · rw [hfail] at hr
    subst hr
    refine .inl ⟨herr, L, _, hsame.does.keeps, undone_pages fun c hc => ?_⟩
    rw [hfail] at hc
    exact absurd hc (Option.not_mem_none c)
  · rw [hok] at hr
    dsimp only at hr
    have hu : Uses s (vmaToResizeTask env s addr oldLen newLen).2 := uses_vmaToResizeTask
    have hcharge := (hres.charge G).keeps
    set t := (vmaToResizeTask env s addr oldLen newLen).2 with ht
    have hundo : GrowUndoes rb env t x addr oldLen newLen flags ↔
        ResizeUndoes rb env s addr oldLen newLen flags := by
      unfold ResizeUndoes
      dsimp only
      rw [hok, ← ht]
      refine ⟨fun hu c hc => ?_, fun hu => hu _ rfl⟩
      obtain rfl := Option.some_inj.1 hc
      exact hu
    have hcore : t.mm.core x = s.mm.core x := by rw [hmm]
    have hs : (t.mm.core x).vmStart ≤ addr := by rw [hcore]; exact hres.start
    have he : addr+oldLen ≤ (t.mm.core x).vmEnd := by rw [hcore]; exact hres.fits
    have hh : (t.mm.core x).vmFlags.has VM_HUGETLB = false := by rw [hcore]; exact hres.ordinary
    have hgrow := growArea_spec rb env flags hcharge.wf ha ho hn hlt hlim hres.mem hs he hh
    dsimp only at hgrow
    generalize growArea rb env t x addr oldLen newLen flags = r' at hr hgrow
    rw [hcore] at hgrow
    rcases hgrow with ⟨herr, L', P, hdoes, hP⟩ | ⟨new, hret, hdvd, L', P, hkeeps, hgrown⟩
    · rw [if_pos herr.offset] at hr
      subst hr
      have hseq :=
        (hcharge.seq (hdoes.keeps.mono And.left)).unacct (growCharge (s.mm.core x) (newLen-oldLen))
      rw [add_zero, sub_self] at hseq
      exact .inl ⟨herr, L', P, hseq, (hP.of_mm hmm).congr hundo⟩
    · have hoff : ¬r'.1 % 4096 ≠ 0 := by
        rw [hret]
        omega
      rw [if_neg hoff] at hr
      subst hr
      rw [hmm] at hkeeps
      have hseq := hcharge.seq (hkeeps.mono (And.imp_right fun hc => hc x hres.found))
      rw [add_neg_cancel] at hseq
      refine .inr ⟨x, new, hret, hres.found, L', P, hseq, ?_⟩
      unfold Grown at hgrown ⊢
      rw [hmm] at hgrown
      exact hgrown.imp_right fun ⟨hr, hf, hP⟩ => ⟨hr, hf, fun hc => hP (hc.uses hu)⟩

/-! Moving to a given place. -/

theorem moveTo_spec (rb : Balance VmaId) (env : MmEnv) (h : Wf s.mm L) (ho : 4096 ∣ oldLen)
    (hn : 4096 ∣ newLen) (hle : oldLen ≤ newLen) (hr : RangeOk new (new+newLen)) :
    let r := moveTo rb env s addr oldLen new newLen
    (IsErr r.1 ∧ ∃ L' P, Does (LockExact s L) s L r.2.2 L' P 0) ∨
    ∃ x, r.1 = new ∧ findVma s.mm addr = some x ∧ ∃ L' P, Does (LockExact s L) s L r.2.2 L' P 0 ∧
      (CalmAfter 2 s → RangeOk addr (addr+oldLen) → addr+oldLen ≤ TASK_SIZE →
        P = movedPages s.mm L x addr oldLen newLen new) := by
  intro r
  have hdef : moveTo rb env s addr oldLen new newLen = r := rfl
  clear_value r
  unfold moveTo moveWith at hdef
  dsimp only at hdef
  obtain ⟨hmm, ⟨e, hfail, herr, hsame⟩ | ⟨x, hok, hres⟩⟩ :=
    vmaToResizeTask_spec env addr oldLen newLen h
  · rw [hfail] at hdef
    subst hdef
    exact .inl ⟨herr, L, _, hsame.does⟩
  · rw [hok] at hdef
    dsimp only at hdef
    have hu : Uses s (vmaToResizeTask env s addr oldLen newLen).2 := uses_vmaToResizeTask
    have hcharge := hres.charge (LockExact s L)
    set t := (vmaToResizeTask env s addr oldLen newLen).2
    set g : ℤ := ((growCharge (s.mm.core x) (newLen-oldLen) : ℕ) : ℤ)
    have hcore : t.mm.core x = s.mm.core x := by rw [hmm]
    obtain ⟨hq, -, harea⟩ :=
      unmappedAreaOf_spec env t (env.cur t.mm).topdown (t.mm.vma x).vmFile new newLen
      ((t.mm.vma x).pgoffAt addr) (MAP_FIXED ||| moveFlags (t.mm.vma x))
    have hsame := hq.same hcharge.wf
    rcases ite_eq_iff.1 hdef with ⟨hoff, rfl⟩ | ⟨hoff, hdef⟩
    · have hseq := (hcharge.seq hsame.does).unacct g
      rw [add_zero, sub_self] at hseq
      exact .inl ⟨harea.resolve_right fun hok => hoff hok.2.2.2, L, _, hseq⟩
    · have hstate := outcomes_unmappedAreaOf (not_not.1 hoff)
      unfold getUnmappedArea at hdef
      rw [hstate] at hdef
      have hs : (t.mm.core x).vmStart ≤ addr := by rw [hcore]; exact hres.start
      have he : addr+oldLen ≤ (t.mm.core x).vmEnd := by rw [hcore]; exact hres.fits
      have hh : (t.mm.core x).vmFlags.has VM_HUGETLB = false := by rw [hcore]; exact hres.ordinary
      have hmove := moveVma_moves rb env hcharge.wf hres.mem hs he ho hh hr
      dsimp only at hmove
      generalize moveVma rb env t.outcome.2 x addr oldLen newLen new = move at hdef hmove
      rcases hmove with ⟨herr, L', P, hdoes, -⟩ | ⟨hret, hrange, -, L', P, hdoes, hP⟩
      · rw [if_pos herr.offset] at hdef
        subst hdef
        have hseq := (hcharge.seq hdoes).unacct g
        rw [add_zero, sub_self] at hseq
        exact .inl ⟨herr, L', P, hseq⟩
      · have hoff : ¬move.1 % 4096 ≠ 0 := by
          have := hrange.start_dvd
          rw [hret]
          omega
        rw [if_neg hoff] at hdef
        subst hdef
        rw [hcore, moved_charge _ ho hn hle] at hdoes
        have hseq := hcharge.seq hdoes
        rw [add_neg_cancel] at hseq
        rw [hmm] at hP
        exact .inr ⟨x, hret, hres.found, L', P, hseq, fun hc => hP (hc.uses hu)⟩

theorem mremapToTask_spec (rb : Balance VmaId) (env : MmEnv) (h : Wf s.mm L) (ho : 4096 ∣ oldLen)
    (hn : 4096 ∣ newLen) (hpos : 0 < newLen) :
    let r := mremapToTask rb env s addr oldLen new newLen
    let t := (doMunmap rb env.conf s new newLen).2
    (r.1 < 0 ∧ ∃ L' P, Does (LockExact s L) s L r.2.2 L' P 0) ∨
    r.1 = new ∧ RangeOk new (new+newLen) ∧ ∃ L' P, Does (LockExact s L) s L r.2.2 L' P 0 ∧
      (oldLen ≤ newLen → (new+newLen ≤ addr ∨ wadd addr oldLen ≤ new) ∧ ∃ M x,
        Does (LockExact s L) s L t M (outside new (new+newLen) (pages s.mm.core L)) 0 ∧
          findVma t.mm addr = some x ∧
        (CalmAfter 2 s → RangeOk addr (addr+oldLen) → addr+oldLen ≤ TASK_SIZE →
          P = movedPages t.mm M x addr oldLen newLen new)) := by
  intro r t
  have hr : mremapToTask rb env s addr oldLen new newLen = r := rfl
  clear_value r
  have hinval : -EINVAL < 0 := by decide
  have hself : ∃ L' P, Does (LockExact s L) s L s L' P 0 := ⟨L, _, (Same.refl h).does⟩
  unfold mremapToTask at hr
  rcases ite_eq_iff.1 hr with ⟨-, rfl⟩ | ⟨hoff, hr⟩
  · exact .inl ⟨hinval, hself⟩
  rcases ite_eq_iff.1 hr with ⟨-, rfl⟩ | ⟨htask, hr⟩
  · exact .inl ⟨hinval, hself⟩
  rcases ite_eq_iff.1 hr with ⟨-, rfl⟩ | ⟨hdisj, hr⟩
  · exact .inl ⟨hinval, hself⟩
  unfold offsetInPage at hoff
  have htask' : new+newLen ≤ TASK_SIZE := by omega
  have hrange : RangeOk new (new+newLen) :=
    ⟨by omega, by omega, by omega, htask'.trans_lt (by decide)⟩
  dsimp only at hr
  rcases doMunmap_does rb env.conf new newLen h with ⟨hneg, L₁, hclear⟩ | ⟨hz, L₁, hclear⟩
  · rw [if_pos hneg.ne] at hr
    subst hr
    exact .inl ⟨hneg, L₁, _, hclear⟩
  rw [if_neg (not_not.2 hz)] at hr
  rw [hrange.pageAlign_len] at hclear
  have hu : Uses s (doMunmap rb env.conf s new newLen).2 := uses_doMunmap
  change Uses s t at hu
  change Does _ s L t L₁ _ 0 at hclear
  -- the part of the old range that is longer than the new one
  obtain ⟨shrink, hshrink, L₂, P₂, hdoes₂, hsame⟩ : ∃ shrink, (if newLen ≤ oldLen then
      doMunmap rb env.conf t (wadd addr newLen) (oldLen-newLen) else (0, t)) = shrink ∧
      ∃ L₂ P₂, Does (LockExact s L) s L shrink.2 L₂ P₂ 0 ∧
        (shrink.1 < 0 ∨ shrink.1 = 0) ∧ (oldLen ≤ newLen → shrink.2 = t) := by
    refine ⟨_, rfl, ?_⟩
    split
    next hle =>
      have hgone : oldLen ≤ newLen → (doMunmap rb env.conf t (wadd addr newLen) (oldLen-newLen)).2 =
          t := fun hge => by
        rw [Nat.sub_eq_zero_of_le hge, doMunmap_nothing]
      rcases doMunmap_does rb env.conf (wadd addr newLen) (oldLen-newLen) hclear.wf with
        ⟨hneg, L₂, hd⟩ | ⟨hz, L₂, hd⟩
      · exact ⟨L₂, _, hclear.seq hd, .inl hneg, hgone⟩
      · exact ⟨L₂, _, hclear.seq hd, .inr hz, hgone⟩
    next => exact ⟨L₁, _, hclear, .inr rfl, fun _ => rfl⟩
  rw [hshrink] at hr
  rcases ite_eq_iff.1 hr with ⟨hfail, rfl⟩ | ⟨-, rfl⟩
  · exact .inl ⟨hsame.1.resolve_right hfail.1, L₂, P₂, hdoes₂⟩
  have hmin : 4096 ∣ min oldLen newLen := by
    rcases min_choice oldLen newLen with hm | hm <;> rw [hm] <;> assumption
  rcases moveTo_spec rb env hdoes₂.wf hmin hn (min_le_right _ _) hrange with
    ⟨herr, L', P, hdoes⟩ | ⟨x, hret, hfound, L', P, hdoes, hP⟩
  · exact .inl ⟨herr.2, L', P, hdoes₂.seq hdoes⟩
  · refine .inr ⟨hret, hrange, L', P, hdoes₂.seq hdoes, fun hle => ?_⟩
    have hnot : new+newLen ≤ addr ∨ wadd addr oldLen ≤ new := by omega
    have ht := hsame.2 hle
    rw [ht] at hfound hP hdoes₂
    have hL : L₂ = L₁ := hdoes₂.wf.unique hclear.wf
    rw [min_eq_left hle, hL] at hP
    exact ⟨hnot, L₁, x, hclear, hfound, fun hc => hP (hc.uses hu)⟩

/-- The area stays as it is, or loses its end. -/
theorem mremapShrink_spec (rb : Balance VmaId) (env : MmEnv) (h : Wf s.mm L)
    (addr oldLen newLen : ℕ) :
    let shrink := doMunmap rb env.conf s (wadd addr newLen) (oldLen-newLen)
    let r : ℤ × Bool × MmSys :=
      if shrink.1 ≠ 0 ∧ oldLen ≠ newLen then (shrink.1, false, shrink.2)
        else (addr, false, shrink.2)
    ∃ L' P, Does (LockExact s L) s L r.2.2 L' P 0 := by
  intro shrink r
  have hr : r.2.2 = shrink.2 := by
    show (if shrink.1 ≠ 0 ∧ oldLen ≠ newLen then (shrink.1, false, shrink.2)
      else (↑addr, false, shrink.2)).2.2 = _
    split <;> rfl
  rw [hr]
  rcases doMunmap_does rb env.conf (wadd addr newLen) (oldLen-newLen) h with
    ⟨-, L', hd⟩ | ⟨-, L', hd⟩
  · exact ⟨L', _, hd⟩
  · exact ⟨L', _, hd⟩

theorem mremapLocked_keeps (rb : Balance VmaId) (env : MmEnv) (flags : Bits) (new : ℕ)
    (h : Wf s.mm L) (ha : 4096 ∣ addr) (ho : 4096 ∣ oldLen) (hn : 4096 ∣ newLen) (hpos : 0 < newLen)
    (hlim : newLen < 2^64) :
    ∃ L' P, Keeps
      (LockExact s L ∧ (flags.has MREMAP_FIXED = false → GrowthCounted s.mm addr oldLen newLen)) s L
      (mremapLocked rb env s addr oldLen newLen flags new).2.2 L' P 0 := by
  unfold mremapLocked
  split
  next =>
    rcases mremapToTask_spec rb env h ho hn hpos with ⟨-, L', P, hd⟩ | ⟨-, -, L', P, hd, -⟩
    · exact ⟨L', P, hd.keeps.mono And.left⟩
    · exact ⟨L', P, hd.keeps.mono And.left⟩
  next hfixed =>
    have hcount :=
        fun hc : flags.has MREMAP_FIXED = false → GrowthCounted s.mm addr oldLen newLen =>
      hc (Bool.eq_false_iff.2 hfixed)
    split
    next =>
      obtain ⟨L', P, hd⟩ := mremapShrink_spec rb env h addr oldLen newLen
      exact ⟨L', P, hd.keeps.mono And.left⟩
    next hlt =>
      rcases mremapGrow_spec rb env flags h ha ho hn (not_le.1 hlt) hlim with
        ⟨-, L', P, hk, -⟩ | ⟨-, -, -, -, L', P, hk, -⟩
      · exact ⟨L', P, hk.mono (And.imp_right hcount)⟩
      · exact ⟨L', P, hk.mono (And.imp_right hcount)⟩

structure MremapArgs (addr newLen : ℕ) (flags : Bits) : Prop where
  known : flags.has (~~~(MREMAP_FIXED ||| MREMAP_MAYMOVE)) = false
  aligned : 4096 ∣ addr
  pos : 0 < pageAlign newLen
  fixed : flags.has MREMAP_FIXED = true → flags.has MREMAP_MAYMOVE = true

/-- `mremap_task` refuses its arguments, is interrupted, or does its work under the lock. -/
theorem mremapTask_cases (rb : Balance VmaId) (env : MmEnv) (s : MmSys) (addr oldLen newLen : ℕ)
    (flags : Bits) (new : ℕ) :
    let r := mremapTask rb env s addr oldLen newLen flags new
    let r' := mremapLocked rb env s.outcome.2 addr (pageAlign oldLen) (pageAlign newLen) flags new
    (IsErr r.1 ∧ (r.2.2 = s ∨ r.2.2 = s.outcome.2)) ∨
      MremapArgs addr newLen flags ∧ s.outcome.1 = 0 ∧ r.1 = r'.1 ∧ r.2.2 = r'.2.2 := by
  intro r r'
  have hr : mremapTask rb env s addr oldLen newLen flags new = r := rfl
  clear_value r
  unfold mremapTask at hr
  dsimp only at hr
  rcases ite_eq_iff.1 hr with ⟨-, rfl⟩ | ⟨hknown, hr⟩
  · exact .inl ⟨isErr_inval, .inl rfl⟩
  rcases ite_eq_iff.1 hr with ⟨-, rfl⟩ | ⟨hfixed, hr⟩
  · exact .inl ⟨isErr_inval, .inl rfl⟩
  rcases ite_eq_iff.1 hr with ⟨-, rfl⟩ | ⟨hoff, hr⟩
  · exact .inl ⟨isErr_inval, .inl rfl⟩
  rcases ite_eq_iff.1 hr with ⟨-, rfl⟩ | ⟨hlen, hr⟩
  · exact .inl ⟨isErr_inval, .inl rfl⟩
  rcases ite_eq_iff.1 hr with ⟨-, rfl⟩ | ⟨hlock, rfl⟩
  · exact .inl ⟨isErr_intr, .inr rfl⟩
  refine .inr
    ⟨⟨Bool.eq_false_iff.2 hknown, Nat.dvd_of_mod_eq_zero (not_not.1 hoff), Nat.pos_of_ne_zero hlen,
    fun hf => ?_⟩, not_not.1 hlock, rfl, rfl⟩
  by_contra hmove
  exact hfixed ⟨hf, Bool.eq_false_of_not_eq_true hmove⟩

def MremapCounted (mm : Mm) (addr oldLen newLen : ℕ) (flags : Bits) : Prop :=
  flags.has MREMAP_FIXED = false → GrowthCounted mm addr (pageAlign oldLen) (pageAlign newLen)

/-- `mremap_task` keeps the books, up to the page counters when the growth does not fit into an
`int`. -/
theorem mremapTask_keeps (rb : Balance VmaId) (env : MmEnv) (addr oldLen newLen : ℕ) (flags : Bits)
    (new : ℕ) (h : Wf s.mm L) :
    ∃ L' P, Keeps (LockExact s L ∧ MremapCounted s.mm addr oldLen newLen flags) s L
      (mremapTask rb env s addr oldLen newLen flags new).2.2 L' P 0 := by
  have hmm : s.outcome.2.mm = s.mm := outcome_mm s
  have hsame : Same s s.outcome.2 L := (outcome_quiet s).same h
  rcases mremapTask_cases rb env s addr oldLen newLen flags new with
    ⟨-, hs | hs⟩ | ⟨hargs, -, -, hs⟩
  · rw [hs]
    exact ⟨L, _, (Same.refl h).does.keeps⟩
  · rw [hs]
    exact ⟨L, _, hsame.does.keeps⟩
  · rw [hs]
    obtain ⟨L', P, hk⟩ :=
      mremapLocked_keeps rb env flags new hsame.wf hargs.aligned (pageAlign_dvd oldLen)
      (pageAlign_dvd newLen) hargs.pos (pageAlign_lt newLen)
    rw [hmm] at hk
    have hkeep : Keeps (LockExact s L ∧ MremapCounted s.mm addr oldLen newLen flags) s L
      s.outcome.2 L (pages s.mm.core L) 0 := hsame.does.keeps
    exact ⟨L', P, hkeep.seq hk⟩

end PtraceRemote
