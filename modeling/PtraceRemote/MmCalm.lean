import PtraceRemote.MmCarve
import PtraceRemote.MmMove

/-! Which calls may fail: every function uses up a first part of the list of outcomes, and without a
failing outcome left an ordinary area can always be split. -/
namespace PtraceRemote

open AugTree (Balance)

variable {s s' s'' : MmSys} {rb : Balance VmaId} {conf : MmConf} {env : MmEnv} {L A B : List VmaId}
  {x n : VmaId} {start end_ len addr : ℕ}

def Uses (s s' : MmSys) : Prop := s'.outcomes <:+ s.outcomes

theorem Uses.refl (s : MmSys) : Uses s s := List.suffix_rfl

theorem Uses.trans (h : Uses s s') (h' : Uses s' s'') : Uses s s'' := List.IsSuffix.trans h' h

theorem outcomes_outcome (s : MmSys) : s.outcome.2.outcomes = s.outcomes.tail := by
  unfold MmSys.outcome
  split
  next h => rw [h]; rfl
  next e es h => rw [h]; rfl

theorem uses_outcome (s : MmSys) : Uses s s.outcome.2 := by
  rw [Uses, outcomes_outcome]
  exact List.tail_suffix _

@[simp] theorem outcomes_getFile (s : MmSys) (f : Option FileId) :
    (s.getFile f).outcomes = s.outcomes := by
  cases f <;> rfl

@[simp] theorem outcomes_fput (s : MmSys) (f : Option FileId) :
    (s.fput f).outcomes = s.outcomes := by
  cases f <;> rfl

@[simp] theorem outcomes_setMm (s : MmSys) (mm : Mm) : (s.setMm mm).outcomes = s.outcomes := rfl

@[simp] theorem outcomes_unacct (s : MmSys) (k : ℤ) : (vmUnacctMemory s k).outcomes = s.outcomes :=
  rfl

theorem uses_anonVmaClone (s : MmSys) (dst src : VmaId) : Uses s (anonVmaClone s dst src).2 := by
  unfold anonVmaClone
  dsimp only
  split
  · exact uses_outcome s
  · exact uses_outcome s

theorem uses_importAnon (s : MmSys) (e : Option VmaId) (i : VmaId) :
    Uses s (importAnon s e i).2 := by
  unfold importAnon
  split
  · split
    · exact uses_anonVmaClone _ i _
    · exact Uses.refl s
  · exact Uses.refl s

@[simp] theorem outcomes_adjustRemove {gone : VmaId} {pgoff : BitVec 64} {prev : Option VmaId}
    {file : Option FileId} :
    (adjustRemove rb s x gone start end_ pgoff prev file).outcomes = s.outcomes := by
  simp [adjustRemove]

@[simp] theorem outcomes_adjustSwallow {pgoff : BitVec 64} {file : Option FileId} :
    (adjustSwallow rb s x n start pgoff file).outcomes = s.outcomes := by
  simp [adjustSwallow]

@[simp] theorem outcomes_adjustAgain {pgoff : BitVec 64} {file : Option FileId} :
    (adjustAgain rb s x start pgoff file).outcomes = s.outcomes := by
  unfold adjustAgain
  split <;> simp

theorem uses_orElse {r : ℤ × MmSys} (h : Uses s r.2) (ht : s'.outcomes = r.2.outcomes) :
    Uses s (if r.1 ≠ 0 then r else (0, s')).2 := by
  split
  · exact h
  · rw [Uses, ht]
    exact h

theorem uses_vmaAdjust {pgoff : BitVec 64} {insert expand : Option VmaId} :
    Uses s (vmaAdjust rb s x start end_ pgoff insert expand).2 := by
  unfold vmaAdjust
  dsimp only
  cases adjustMode s.mm x end_ insert expand with
  | keep => exact Uses.refl s
  | shift next pages =>
    refine uses_orElse ?_ rfl
    split
    · exact uses_importAnon _ _ _
    · exact uses_importAnon _ _ _
  | removeNext next => exact uses_orElse (uses_importAnon _ _ _) outcomes_adjustSwallow
  | removeTwo next =>
    exact uses_orElse (uses_importAnon _ _ _) (outcomes_adjustAgain.trans outcomes_adjustRemove)
  | removeSelf next => exact uses_orElse (uses_importAnon _ _ _) outcomes_adjustRemove

theorem uses_mergeResult {r : ℤ × MmSys} (h : Uses s r.2) : Uses s (mergeResult x r).2 := by
  unfold mergeResult
  split <;> exact h

theorem uses_vmaMerge {prev : Option VmaId} {q : MergeReq} : Uses s (vmaMerge rb s prev q).2 := by
  unfold vmaMerge
  dsimp only
  split
  · exact Uses.refl s
  split
  · split
    · exact uses_mergeResult uses_vmaAdjust
    · exact uses_mergeResult uses_vmaAdjust
  · split
    · split
      · exact uses_mergeResult uses_vmaAdjust
      · exact uses_mergeResult uses_vmaAdjust
    · exact Uses.refl s

theorem uses_splitVmaNoLimit {newBelow : Bool} :
    Uses s (splitVmaNoLimit rb s x addr newBelow).2 := by
  unfold splitVmaNoLimit
  dsimp only
  split
  next => exact Uses.refl s
  have h₁ := uses_outcome s
  split
  next => exact h₁
  set s₂ := allocVma s.outcome.2 (splitHalf (s.mm.vma x) addr newBelow)
  have h₃ : Uses s s₂.outcome.2 := Uses.trans h₁ (uses_outcome s₂)
  split
  next => exact h₃
  have h₄ := h₃.trans (uses_anonVmaClone s₂.outcome.2 s.outcome.2.mm.nextId x)
  split
  next => exact h₄
  have hadjust : ∀ t new, Uses t (splitAdjust rb t x new addr newBelow).2 := by
    intro t new
    unfold splitAdjust
    dsimp only
    split <;> exact uses_vmaAdjust
  have h₅ :=
    hadjust ((anonVmaClone s₂.outcome.2 s.outcome.2.mm.nextId x).2.getFile (s.mm.vma x).vmFile)
    s.outcome.2.mm.nextId
  rw [Uses, outcomes_getFile] at h₅
  split
  · exact h₄.trans h₅
  · rw [Uses, outcomes_fput]
    exact h₄.trans h₅

theorem uses_splitLast : Uses s (splitLast rb s end_).2 := by
  unfold splitLast
  split
  · split
    · exact uses_splitVmaNoLimit
    · exact Uses.refl s
  · exact Uses.refl s

theorem outcomes_removeVmaList (s : MmSys) (areas : List VmaId) :
    (removeVmaList s areas).outcomes = s.outcomes := by
  have hfold : ∀ (M : List VmaId) (t : MmSys), (M.foldl removeVma t).outcomes = t.outcomes := by
    intro M
    induction M with
    | nil => exact fun t => rfl
    | cons y M ih =>
      intro t
      rw [List.foldl_cons, ih]
      simp [removeVma]
  exact hfold areas s

theorem uses_doMunmap : Uses s (doMunmap rb conf s start len).2 := by
  unfold doMunmap
  dsimp only
  split
  next => exact Uses.refl s
  split
  next => exact Uses.refl s
  split
  next => exact Uses.refl s
  split
  next => exact Uses.refl s
  have hunmap : ∀ t prev, Uses t (unmapAreas rb t prev (start+pageAlign len)) := by
    intro t prev
    rw [Uses, unmapAreas, outcomes_removeVmaList]
    exact List.suffix_rfl
  split
  next =>
    split
    next => exact Uses.refl s
    split
    next => exact uses_splitVmaNoLimit
    split
    next => exact uses_splitVmaNoLimit.trans uses_splitLast
    next => exact (uses_splitVmaNoLimit.trans uses_splitLast).trans (hunmap _ _)
  next =>
    split
    next => exact uses_splitLast
    next => exact uses_splitLast.trans (hunmap _ _)

theorem uses_vmEnoughMemory (s : MmSys) (k : ℤ) : Uses s (vmEnoughMemory s k).2 := by
  unfold vmEnoughMemory
  dsimp only
  split
  · exact uses_outcome { s with committed := s.committed+k }
  · exact uses_outcome { s with committed := s.committed+k }

theorem uses_copyVma {pgoff : BitVec 64} : Uses s (copyVma rb s x addr len pgoff).2 := by
  have hnew : ∀ t pgoff k, Uses t (copyNew rb t x addr len pgoff k).2 := by
    intro t pgoff k
    unfold copyNew
    dsimp only
    have h₁ := uses_outcome t
    split
    next => exact h₁
    set t₂ := allocVma t.outcome.2
      { t.mm.vma x with vmStart := addr, vmEnd := addr+len, vmPgoff := pgoff, anonChain := 0 }
    have h₃ : Uses t t₂.outcome.2 := Uses.trans h₁ (uses_outcome t₂)
    split
    next => exact h₃
    have h₄ := h₃.trans (uses_anonVmaClone t₂.outcome.2 t.outcome.2.mm.nextId x)
    split
    next => exact h₄
    next =>
      rw [Uses, outcomes_setMm, outcomes_getFile]
      exact h₄
  unfold copyVma
  dsimp only
  split
  · exact Uses.refl s
  · split
    · exact uses_vmaMerge
    · exact uses_vmaMerge.trans (hnew _ _ _)

theorem uses_moveTables : Uses s (moveTables s x).2 := by
  unfold moveTables
  dsimp only
  split
  · exact uses_outcome s
  · split
    · exact (uses_outcome s).trans (uses_outcome _)
    · exact uses_outcome s

/-- A search that finds an address has asked the security module. -/
theorem outcomes_unmappedAreaOf {topdown : Bool} {file : Option FileId} {pgoff : BitVec 64}
    {flags : Bits} (h : (unmappedAreaOf env s topdown file addr len pgoff flags).1 % 4096 = 0) :
    (unmappedAreaOf env s topdown file addr len pgoff flags).2 = s.outcome.2 := by
  have hnomem : ¬(-ENOMEM : ℤ) % 4096 = 0 := by decide
  have hinval : ¬(-EINVAL : ℤ) % 4096 = 0 := by decide
  unfold unmappedAreaOf at h ⊢
  dsimp only at h ⊢
  split at h
  next => exact absurd h hnomem
  next h₁ =>
  rw [if_neg h₁]
  split at h
  next h₂ => exact absurd h (getArea_err h₂).offset
  next h₂ =>
  rw [if_neg h₂]
  split at h
  next => exact absurd h hnomem
  next h₃ =>
  rw [if_neg h₃]
  split at h
  next => exact absurd h hinval
  next h₄ =>
  rw [if_neg h₄]
  split <;> rfl

theorem uses_unmappedAreaOf {topdown : Bool} {file : Option FileId} {pgoff : BitVec 64}
    {flags : Bits} :
    Uses s (unmappedAreaOf env s topdown file addr len pgoff flags).2 := by
  unfold unmappedAreaOf
  dsimp only
  repeat' split
  all_goals first | exact Uses.refl s | exact uses_outcome s

theorem of_ite {α : Type*} {c Q : Prop} [Decidable c] {a b r : α} (h : (if c then a else b) = r)
    (ha : a = r → Q) (hb : b = r → Q) : Q := by
  split at h
  · exact ha h
  · exact hb h

/-- `vma_to_resize_task` changes nothing but the charge. -/
theorem vmaToResizeTask_state (env : MmEnv) (s : MmSys) (addr oldLen newLen : ℕ) :
    (vmaToResizeTask env s addr oldLen newLen).2 = s ∨
      ∃ k, (vmaToResizeTask env s addr oldLen newLen).2 = (vmEnoughMemory s k).2 := by
  generalize hr : vmaToResizeTask env s addr oldLen newLen = r
  have hself : ∀ e, (e, s) = r → r.2 = s ∨ ∃ k, r.2 = (vmEnoughMemory s k).2 := by
    rintro e rfl
    exact .inl rfl
  have hcharge : ∀ e k, (e, (vmEnoughMemory s k).2) = r → r.2 = s ∨ ∃ k,
      r.2 = (vmEnoughMemory s k).2 := by
    rintro e k rfl
    exact .inr ⟨k, rfl⟩
  unfold vmaToResizeTask at hr
  cases hf : findVma s.mm addr with
  | none =>
    rw [hf] at hr
    exact hself _ hr
  | some x =>
    rw [hf] at hr
    dsimp only at hr
    refine of_ite hr (hself _) fun hr => ?_
    refine of_ite hr (hself _) fun hr => ?_
    refine of_ite hr (hself _) fun hr => ?_
    refine of_ite hr (hself _) fun hr => ?_
    refine of_ite hr (hself _) fun hr => ?_
    refine of_ite hr (hself _) fun hr => ?_
    refine of_ite hr (hself _) fun hr => ?_
    refine of_ite hr (hself _) fun hr => ?_
    refine of_ite hr (fun hr => ?_) (hself _)
    exact of_ite hr (hcharge _ _) (hcharge _ _)

theorem uses_vmaToResizeTask {oldLen newLen : ℕ} :
    Uses s (vmaToResizeTask env s addr oldLen newLen).2 := by
  rcases vmaToResizeTask_state env s addr oldLen newLen with h | ⟨k, h⟩
  · rw [h]
    exact Uses.refl s
  · rw [h]
    exact uses_vmEnoughMemory s k

theorem uses_vmaExpandable {delta : ℕ} : Uses s (vmaExpandable env s x delta).2 := by
  unfold vmaExpandable
  dsimp only
  repeat' split
  all_goals first | exact Uses.refl s | exact uses_unmappedAreaOf

/-! Without failing outcomes. -/

def Calm (s : MmSys) : Prop := ∀ e ∈ s.outcomes, e = 0

theorem Calm.uses (h : Calm s) (hu : Uses s s') : Calm s' :=
  fun e he => h e (List.IsSuffix.mem he hu)

/-- Those that come after the first `k` do. -/
def CalmAfter (k : ℕ) (s : MmSys) : Prop := ∀ e ∈ s.outcomes.drop k, e = 0

theorem CalmAfter.uses {k : ℕ} (h : CalmAfter k s) (hu : Uses s s') : CalmAfter k s' := by
  obtain ⟨used, hused⟩ := hu
  intro e he
  have hdrop : s'.outcomes.drop k = (s.outcomes.drop k).drop used.length := by
    rw [List.drop_drop, Nat.add_comm, ← List.drop_drop, ← hused, List.drop_left]
  rw [hdrop] at he
  exact h e (List.mem_of_mem_drop he)

theorem CalmAfter.outcome {k : ℕ} (h : CalmAfter (k+1) s) : CalmAfter k s.outcome.2 := by
  intro e he
  rw [outcomes_outcome, ← List.drop_one, List.drop_drop, Nat.add_comm] at he
  exact h e he

theorem Calm.outcome (h : Calm s) : s.outcome.1 = 0 := by
  unfold MmSys.outcome
  split
  next => rfl
  next e es hes =>
    rw [h e (by simp [hes])]
    rfl

theorem Calm.anonVmaClone (h : Calm s) (dst src : VmaId) : (anonVmaClone s dst src).1 = 0 := by
  unfold PtraceRemote.anonVmaClone
  dsimp only
  rw [if_pos h.outcome]

def MmSys.Succeeds (s : MmSys) (i : ℕ) : Prop := ∀ e, s.outcomes[i]? = some e → e = 0

theorem outcome_zero_iff (s : MmSys) : s.outcome.1 = 0 ↔ s.Succeeds 0 := by
  unfold MmSys.outcome MmSys.Succeeds
  split
  next h => simp [h]
  next e es h =>
    rw [h]
    constructor
    · intro he e' he'
      obtain rfl := Option.some.inj he'
      exact Fin.ext (Int.natCast_eq_zero.1 (neg_eq_zero.1 he))
    · intro he
      rw [he e rfl]
      rfl

theorem succeeds_outcome (s : MmSys) (i : ℕ) : s.outcome.2.Succeeds i ↔ s.Succeeds (i+1) := by
  rw [MmSys.Succeeds, MmSys.Succeeds, outcomes_outcome, List.getElem?_tail]

theorem Calm.succeeds (h : Calm s) (i : ℕ) : s.Succeeds i :=
  fun e he => h e (List.mem_of_getElem? he)

def CanCut (s : MmSys) (k : ℕ) (v : Vma) (addr : ℕ) : Prop :=
  (isVmHugetlbPage v = true → addr % v.hugeSize = 0) ∧ s.Succeeds (3*k) ∧ s.Succeeds (3*k+1) ∧
    s.Succeeds (3*k+2)

theorem splitVmaNoLimit_cuts (rb : Balance VmaId) (s : MmSys) (x : VmaId) (addr : ℕ)
    (newBelow : Bool) :
    let r := splitVmaNoLimit rb s x addr newBelow
    (r.1 = 0 ∧ CanCut s 0 (s.mm.vma x) addr ∧ r.2.outcomes = s.outcomes.drop 3) ∨
      r.1 ≠ 0 ∧ ¬CanCut s 0 (s.mm.vma x) addr := by
  have hnomem : -ENOMEM ≠ 0 := by decide
  dsimp only
  unfold splitVmaNoLimit
  dsimp only
  split
  next hhuge => exact .inr ⟨show -EINVAL ≠ 0 by decide, fun hc => hhuge.2 (hc.1 hhuge.1)⟩
  next hhuge =>
    split
    next halloc => exact .inr ⟨hnomem, fun hc => halloc ((outcome_zero_iff s).2 hc.2.1)⟩
    next halloc =>
      set s₂ := allocVma s.outcome.2 (splitHalf (s.mm.vma x) addr newBelow)
      have h₂ : ∀ i, s₂.Succeeds i ↔ s.Succeeds (i+1) := succeeds_outcome s
      split
      next hpol => exact .inr ⟨hpol, fun hc => hpol ((outcome_zero_iff s₂).2 ((h₂ 0).2 hc.2.2.1))⟩
      next hpol =>
        have hclone : (anonVmaClone s₂.outcome.2 s.outcome.2.mm.nextId x).1 = 0 ↔ s.Succeeds 2 := by
          rw [← h₂, ← succeeds_outcome, ← outcome_zero_iff]
          unfold PtraceRemote.anonVmaClone
          dsimp only
          split
          next hz => exact iff_of_true rfl hz
          next hz => exact iff_of_false hnomem hz
        split
        next hne => exact .inr ⟨hne, fun hc => hne (hclone.2 hc.2.2.2)⟩
        next hz =>
          have hadjust : ∀ t new, (splitAdjust rb t x new addr newBelow).1 = 0 ∧
              (splitAdjust rb t x new addr newBelow).2.outcomes = t.outcomes := by
            intro t new
            unfold splitAdjust
            dsimp only
            split <;> rw [vmaAdjust_insert] <;> exact ⟨rfl, rfl⟩
          rw [if_pos (hadjust _ _).1]
          refine .inl
            ⟨rfl, ⟨fun hh => not_not.1 fun hne =>
              hhuge ⟨hh, hne⟩, (outcome_zero_iff s).1 (not_not.1 halloc),
            (h₂ 0).1 ((outcome_zero_iff s₂).1 (not_not.1 hpol)), hclone.1 (not_not.1 hz)⟩, ?_⟩
          have h₄ : (PtraceRemote.anonVmaClone s₂.outcome.2 s.outcome.2.mm.nextId x).2.outcomes =
              s₂.outcome.2.outcome.2.outcomes := by
            unfold PtraceRemote.anonVmaClone
            dsimp only
            split <;> rfl
          rw [(hadjust _ _).2, outcomes_getFile, h₄, outcomes_outcome, outcomes_outcome]
          show s.outcome.2.outcomes.tail.tail = _
          rw [outcomes_outcome, ← List.drop_one, ← List.drop_one, ← List.drop_one, List.drop_drop,
            List.drop_drop]

/-- An area can be split between two of its pages. -/
theorem Calm.split_aligned (h : Calm s)
    (hhuge : ¬(isVmHugetlbPage (s.mm.vma x) = true ∧ addr % (s.mm.vma x).hugeSize ≠ 0))
    (newBelow : Bool) :
    (splitVmaNoLimit rb s x addr newBelow).1 = 0 := by
  rcases splitVmaNoLimit_cuts rb s x addr newBelow with ⟨hz, -⟩ | ⟨-, hnot⟩
  · exact hz
  · refine absurd ⟨fun hh => ?_, h.succeeds _, h.succeeds _, h.succeeds _⟩ hnot
    exact not_not.1 fun hne => hhuge ⟨hh, hne⟩

/-- An ordinary area can be split. -/
theorem Calm.split (h : Calm s) (hh : (s.mm.core x).vmFlags.has VM_HUGETLB = false)
    (newBelow : Bool) :
    (splitVmaNoLimit rb s x addr newBelow).1 = 0 := by
  apply h.split_aligned
  have hh : isVmHugetlbPage (s.mm.vma x) = false := hh
  simp [hh]

/-- `do_munmap` inside an ordinary area, below the limit on areas. -/
theorem Calm.doMunmap_inside (hc : Calm s) (h : Wf s.mm (A ++ x :: B))
    (hr : RangeOk start (start+len)) (hs : (s.mm.core x).vmStart ≤ start)
    (he : start+len ≤ (s.mm.core x).vmEnd) (hh : (s.mm.core x).vmFlags.has VM_HUGETLB = false)
    (htask : start+len ≤ TASK_SIZE) (hmax : s.mm.mapCount < conf.maxMapCount) :
    (doMunmap rb conf s start len).1 = 0 := by
  have hargs : ¬(TASK_SIZE < start ∨ TASK_SIZE-start < len) := by
    have := hr.lt
    omega
  have hlimit : ¬(start+len < (s.mm.core x).vmEnd ∧ conf.maxMapCount ≤ s.mm.mapCount) :=
      fun hl => by
    have := hl.2
    omega
  -- the cut at the end of the range, in whatever state the area `y` still holds it
  have hlast : ∀ t A' y B', Calm t → Wf t.mm (A' ++ y :: B') → (t.mm.core y).vmStart < start+len →
      start+len ≤ (t.mm.core y).vmEnd → (t.mm.core y).vmFlags.has VM_HUGETLB = false →
      (splitLast rb t (start+len)).1 = 0 := by
    intro t A' y B' ht hw hlo hhi hhuge
    rcases hhi.eq_or_lt with heq | hlt
    · rw [heq, splitLast_end rb hw]
    · rw [splitLast_inside rb hw hlo hlt]
      exact ht.split hhuge true
  rw [PtraceRemote.doMunmap_inside rb conf h hr hs he, if_neg hargs]
  by_cases hlt : (s.mm.core x).vmStart < start
  · rw [if_pos hlt, if_neg hlimit]
    dsimp only
    have hfirst : (splitVmaNoLimit rb s x start false).1 = 0 := hc.split hh false
    rw [if_neg (not_not.2 hfirst)]
    rcases splitVmaNoLimit_spec rb false h hlt (hr.lt.trans_le he) hr.start_dvd with
      ⟨hne, -⟩ | ⟨-, m, hsplit⟩
    · exact absurd hfirst hne
    have hw : Wf (splitVmaNoLimit rb s x start false).2.mm ((A ++ [x]) ++ m :: B) := by
      simpa [halves] using hsplit.wf
    have hm : (splitVmaNoLimit rb s x start false).2.mm.core m = (s.mm.core x).upper start := by
      rw [hsplit.new]
      rfl
    have hz := hlast _ _ m _ (hc.uses uses_splitVmaNoLimit) hw (by rw [hm]; exact hr.lt)
      (by rw [hm]; exact he) (by rw [hm]; exact hh)
    rw [if_neg (not_not.2 hz)]
  · rw [if_neg hlt]
    dsimp only
    have hz := hlast s A x B hc h (hs.trans_lt hr.lt) he hh
    rw [if_neg (not_not.2 hz)]

end PtraceRemote
