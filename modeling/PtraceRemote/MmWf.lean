import PtraceRemote.MmRep

/-! Well-formed address spaces: what `validate_mm` and `browse_rb` check. Moving the bounds of an
area between its neighbours and linking a new one keep them well formed. -/
namespace PtraceRemote

open AugTree (Balance)

def Vma.core (v : Vma) : Vma := { v with anonVma := none, anonChain := 0 }

def Mm.core (mm : Mm) (x : VmaId) : Vma := (mm.vma x).core

def Mm.rest (mm : Mm) : Mm :=
  { mm with
    vma := fun _ => {}, vmNext := fun _ => none, vmPrev := fun _ => none, mmap := none, mmRb := .nil
    rbSubtreeGap := fun _ => 0, mapCount := 0, highestVmEnd := 0, nextId := 0 }

def topEnd (core : VmaId → Vma) (L : List VmaId) : ℕ :=
  match L.getLast? with
  | some x => (core x).vmEnd
  | none => 0

/-- A well-formed address space whose areas are those of `L`. -/
structure Wf (mm : Mm) (L : List VmaId) : Prop where
  rep : Rep mm L ∅
  ordered : Ordered mm.core L
  highest : mm.highestVmEnd = topEnd mm.core L

def emptyMm : Mm := { mmapBase := 0x10000, topdown := false, def_ok := no_defFlags }

theorem wf_emptyMm : Wf emptyMm [] where
  rep := ⟨rfl, trivial, List.nodup_nil, rfl, trivial, rfl, by simp⟩
  ordered := ⟨List.Pairwise.nil, by simp⟩
  highest := rfl

def Mm.ofArea (v : Vma) : Mm :=
  { vma := fun _ => v, mmap := some 0, mmRb := .node .nil 0 .nil, rbSubtreeGap := fun _ => v.vmStart
    mapCount := 1, highestVmEnd := v.vmEnd, nextId := 1 }

theorem wf_ofArea {v : Vma} (h : AreaOk v) : Wf (Mm.ofArea v) [0] := by
  refine ⟨⟨rfl, ⟨rfl, rfl, trivial⟩, List.nodup_singleton 0, rfl, ⟨trivial, trivial, fun _ => ?_⟩,
    rfl, ?_⟩, ⟨?_, ?_⟩, rfl⟩
  · simp [AugTree.aug, AugTree.top, Mm.ownGap, Mm.ofArea]
  · simp [Mm.ofArea]
  · exact List.pairwise_singleton _ 0
  · intro x _
    exact ⟨h.lt, h.start_dvd, h.end_dvd, h.end_lt⟩

variable {mm mm' : Mm} {rb : Balance VmaId} {L A B : List VmaId} {S : Set VmaId} {x n : VmaId}
  {core : VmaId → Vma} {start end_ : ℕ} {pgoff : BitVec 64}

theorem ordered_core : Ordered mm.core L ↔ Ordered mm.vma L :=
  ⟨fun h => ⟨h.sorted, h.area⟩, fun h => ⟨h.sorted, h.area⟩⟩

theorem core_modVma (f : Vma → Vma) :
    (mm.modVma x f).core = Function.update mm.core x (f (mm.vma x)).core := by
  funext y
  by_cases hy : y = x
  · subst hy; simp [Mm.core, Mm.modVma]
  · simp [Mm.core, Mm.modVma, hy]

theorem core_setBounds : (mm.setBounds x start end_ pgoff).core = Function.update mm.core x
    { mm.core x with vmStart := start, vmEnd := end_, vmPgoff := pgoff } :=
  core_modVma _

theorem Ordered.sublist {L' : List VmaId} (h : Ordered core L) (hs : L'.Sublist L) :
    Ordered core L' :=
  ⟨h.sorted.sublist hs, fun x hx => h.area x (hs.subset hx)⟩

/-- Replacing one area by another that fits between its neighbours. -/
theorem Ordered.update {v : Vma} (h : Ordered core (A ++ x :: B)) (hx : x ∉ A ∧ x ∉ B)
    (hv : AreaOk v) (hA : ∀ a ∈ A, (core a).vmEnd ≤ v.vmStart)
    (hB : ∀ b ∈ B, v.vmEnd ≤ (core b).vmStart) :
    Ordered (Function.update core x v) (A ++ x :: B) := by
  have hneA : ∀ a ∈ A, Function.update core x v a = core a := fun a ha =>
    Function.update_of_ne (fun he : a = x => hx.1 (he ▸ ha)) _ _
  have hneB : ∀ b ∈ B, Function.update core x v b = core b := fun b hb =>
    Function.update_of_ne (fun he : b = x => hx.2 (he ▸ hb)) _ _
  obtain ⟨h₁, h₂, h₃⟩ := ordered_append.1 h
  obtain ⟨-, h₄, -⟩ := ordered_cons.1 h₂
  refine ordered_append.2 ⟨h₁.congr hneA, ordered_cons.2 ⟨by simpa using hv, h₄.congr hneB, ?_⟩, ?_⟩
  · exact fun b hb => by rw [Function.update_self, hneB b hb]; exact hB b hb
  · intro a ha b hb
    rw [hneA a ha]
    rcases List.mem_cons.1 hb with rfl | hb
    · rw [Function.update_self]; exact hA a ha
    · rw [hneB b hb]; exact h₃ a ha b (by simp [hb])

theorem topEnd_append (hB : B ≠ []) : topEnd core (A ++ B) = topEnd core B := by
  rw [topEnd, List.getLast?_append, topEnd]
  cases hl : B.getLast? with
  | none => exact absurd (List.getLast?_eq_none_iff.1 hl) hB
  | some y => rfl

theorem topEnd_append_cons (hB : B ≠ []) : topEnd core (A ++ x :: B) = topEnd core B := by
  rw [topEnd_append (by simp)]
  exact topEnd_append (A := [x]) hB

theorem topEnd_congr {core' : VmaId → Vma} (h : ∀ y ∈ L, (core' y).vmEnd = (core y).vmEnd) :
    topEnd core' L = topEnd core L := by
  unfold topEnd
  cases hl : L.getLast? with
  | none => rfl
  | some y => exact h y (List.mem_of_getLast? hl)

structure Quiet (s s' : MmSys) : Prop where
  mm : ∃ vma', s'.mm = { s.mm with vma := vma' }
  core : s'.mm.core = s.mm.core
  fCount : s'.fCount = s.fCount
  committed : s'.committed = s.committed

theorem Quiet.refl (s : MmSys) : Quiet s s := ⟨⟨_, rfl⟩, rfl, rfl, rfl⟩

theorem Quiet.trans {s s' s'' : MmSys} (h : Quiet s s') (h' : Quiet s' s'') : Quiet s s'' := by
  obtain ⟨v, hv⟩ := h.mm
  obtain ⟨v', hv'⟩ := h'.mm
  exact ⟨⟨v', by rw [hv', hv]⟩, h'.core.trans h.core, h'.fCount.trans h.fCount,
    h'.committed.trans h.committed⟩

theorem core_field {α : Type} {vma vma' : VmaId → Vma} (f : Vma → α)
    (h : (fun y => (vma' y).core) = fun y => (vma y).core) (hf : ∀ v : Vma, f v.core = f v)
    (y : VmaId) :
    f (vma' y) = f (vma y) := by
  rw [← hf, ← hf (vma y), congrFun h y]

theorem Quiet.wf {s s' : MmSys} (h : Quiet s s') (hw : Wf s.mm L) : Wf s'.mm L := by
  obtain ⟨v, hv⟩ := h.mm
  have hc : { s.mm with vma := v }.core = s.mm.core := hv ▸ h.core
  refine ⟨?_, h.core ▸ hw.ordered, by rw [h.core, hv]; exact hw.highest⟩
  rw [hv]
  refine hw.rep.reshape v fun y _ hy => ⟨hy, ?_⟩
  unfold Mm.ownGap
  dsimp only
  cases s.mm.vmPrev y with
  | none => exact core_field Vma.vmStart hc (fun _ => rfl) y
  | some p =>
    exact congrArg₂ wsub (core_field Vma.vmStart hc (fun _ => rfl) y)
      (core_field Vma.vmEnd hc (fun _ => rfl) p)

theorem Quiet.rest {s s' : MmSys} (h : Quiet s s') : s'.mm.rest = s.mm.rest := by
  obtain ⟨v, hv⟩ := h.mm
  rw [hv]; rfl

theorem outcome_quiet (s : MmSys) : Quiet s s.outcome.2 := by
  unfold MmSys.outcome
  split <;> exact ⟨⟨_, rfl⟩, rfl, rfl, rfl⟩

theorem modVma_quiet (s : MmSys) (x : VmaId) {f : Vma → Vma}
    (hf : (f (s.mm.vma x)).core = (s.mm.vma x).core) :
    Quiet s (s.setMm (s.mm.modVma x f)) := by
  refine ⟨⟨_, rfl⟩, ?_, rfl, rfl⟩
  show (s.mm.modVma x f).core = _
  rw [core_modVma, hf]
  exact Function.update_eq_self _ _

theorem anonVmaClone_quiet (s : MmSys) (dst src : VmaId) : Quiet s (anonVmaClone s dst src).2 := by
  unfold anonVmaClone
  dsimp only
  split <;> exact (outcome_quiet s).trans (modVma_quiet _ _ rfl)

theorem importAnon_quiet (s : MmSys) (e : Option VmaId) (i : VmaId) :
    Quiet s (importAnon s e i).2 := by
  unfold importAnon
  split
  · split
    · exact (modVma_quiet _ _ rfl).trans (anonVmaClone_quiet _ _ _)
    · exact Quiet.refl s
  · exact Quiet.refl s

/-- Moving the bounds of `x` between its neighbours. -/
theorem Wf.keep (rb : Balance VmaId) (pgoff : BitVec 64) (h : Wf mm (A ++ x :: B))
    (hr : RangeOk start end_) (hA : ∀ a ∈ A, (mm.core a).vmEnd ≤ start)
    (hB : ∀ b ∈ B, end_ ≤ (mm.core b).vmStart) :
    Wf (adjustKeep rb mm x start end_ pgoff none) (A ++ x :: B) ∧
      (adjustKeep rb mm x start end_ pgoff none).core = Function.update mm.core x
        { mm.core x with vmStart := start, vmEnd := end_, vmPgoff := pgoff } ∧
      (adjustKeep rb mm x start end_ pgoff none).rest = mm.rest := by
  set mm₀ := mm.setBounds x start end_ pgoff with hmm₀
  have hcore : mm₀.core = _ := core_setBounds
  have hord : Ordered mm₀.core (A ++ x :: B) := by
    rw [hcore]; exact h.ordered.update h.rep.notMem hr hA hB
  -- the gaps that the new bounds make stale are repaired one after the other
  set mm₁ := if start ≠ (mm.vma x).vmStart then vmaGapUpdate mm₀ x else mm₀ with hmm₁
  have hrep : Rep mm₁ (A ++ x :: B) {y | end_ ≠ (mm.vma x).vmEnd ∧ B.head? = some y} := by
    rw [hmm₁]
    split
    next hs =>
      refine Rep.gapUpdate (h.rep.setBounds (Set.empty_subset _) (.inr (Set.mem_insert _ _)) ?_)
        (by simp)
      by_cases he : end_ = (mm.vma x).vmEnd
      · exact .inl he
      · exact .inr fun y hy => Set.mem_insert_of_mem _ ⟨he, hy⟩
    next hs =>
      refine h.rep.setBounds (Set.empty_subset _) (.inl (not_not.1 hs)) ?_
      by_cases he : end_ = (mm.vma x).vmEnd
      · exact .inl he
      · exact .inr fun y hy => ⟨he, hy⟩
  have h₁ : mm₁.core = mm₀.core ∧ mm₁.rest = mm.rest ∧ mm₁.highestVmEnd = mm.highestVmEnd := by
    rw [hmm₁]; split <;> exact ⟨rfl, rfl, rfl⟩
  have hnext : mm₁.vmNext x = B.head? := hrep.next_eq
  have hx : mm.core x = (mm.vma x).core := rfl
  have hupd : ∀ y, y ≠ x → mm₀.core y = mm.core y := fun y hy => by
    rw [hcore, Function.update_of_ne hy]
  have hself : (mm₀.core x).vmEnd = end_ := by rw [hcore, Function.update_self]
  show Wf (if end_ ≠ (mm.vma x).vmEnd then _ else mm₁) _ ∧
    (if end_ ≠ (mm.vma x).vmEnd then _ else mm₁).core = _ ∧
    (if end_ ≠ (mm.vma x).vmEnd then _ else mm₁).rest = _
  by_cases he : end_ = (mm.vma x).vmEnd
  · simp only [ne_eq, he, not_true_eq_false, if_false] at hrep ⊢
    refine ⟨⟨hrep.mono fun y hy => hy.1.elim, h₁.1 ▸ hord, ?_⟩, by rw [h₁.1, hcore, he], h₁.2.1⟩
    rw [h₁.2.2, h.highest, h₁.1]
    refine (topEnd_congr fun y _ => ?_).symm
    by_cases hy : y = x
    · rw [hy, hself, he]; rfl
    · rw [hupd y hy]
  · simp only [ne_eq, he, not_false_eq_true, if_true, true_and] at hrep ⊢
    rw [hnext]
    cases B with
    | nil =>
      refine ⟨⟨?_, h₁.1 ▸ hord, ?_⟩, h₁.1.trans hcore, h₁.2.1⟩
      · have hrep : Rep mm₁ (A ++ [x]) ∅ := hrep.mono fun y hy => by simp at hy
        exact ⟨hrep.head, hrep.seg, hrep.nodup, hrep.inorder, hrep.gaps, hrep.count, hrep.fresh⟩
      · show end_ = _
        rw [topEnd, List.getLast?_concat]
        exact hself.symm.trans (congrArg Vma.vmEnd (congrFun h₁.1 x).symm)
    | cons b bs =>
      refine ⟨⟨?_, h₁.1 ▸ hord, ?_⟩, h₁.1.trans hcore, h₁.2.1⟩
      · exact (hrep.mono fun y hy => Set.mem_insert_iff.2 (.inl (by simpa using hy.symm))).gapUpdate
          (by simp)
      · show mm₁.highestVmEnd = topEnd mm₁.core _
        rw [h₁.2.2, h.highest, h₁.1, topEnd_append_cons (by simp), topEnd_append_cons (by simp)]
        exact (topEnd_congr fun y hy => by rw [hupd y fun he => h.rep.notMem.2 (he ▸ hy)]).symm

/-- A new area `n` enters between `A` and `B`; the gap after it may be stale. -/
theorem wf_link {k : VmaLinks} (hrep : Rep mm (A ++ B) {y | B.head? = some y})
    (hord : Ordered mm.core (A ++ B)) (hhigh : B ≠ [] → mm.highestVmEnd = topEnd mm.core B)
    (hn : n ∉ A ++ B) (hf : n < mm.nextId) (hk : LinksAt mm A B k) (hr : AreaOk (mm.core n))
    (hA : ∀ a ∈ A, (mm.core a).vmEnd ≤ (mm.core n).vmStart)
    (hB : ∀ b ∈ B, (mm.core n).vmEnd ≤ (mm.core b).vmStart) :
    Wf (vmaLink rb mm n k) (A ++ n :: B) ∧ (vmaLink rb mm n k).core = mm.core ∧
      (vmaLink rb mm n k).rest = mm.rest := by
  refine ⟨⟨hrep.link hn hf hk, ?_, ?_⟩, rfl, rfl⟩
  · obtain ⟨h₁, h₂, h₃⟩ := ordered_append.1 hord
    refine ordered_append.2 ⟨h₁, ordered_cons.2 ⟨hr, h₂, hB⟩, fun a ha b hb => ?_⟩
    rcases List.mem_cons.1 hb with rfl | hb
    · exact hA a ha
    · exact h₃ a ha b hb
  · have hnext : (vmaLinkList mm n k.prev k.rbParent).vmNext n = B.head? := by
      rw [← hk.next_eq hrep]
      exact Function.update_self ..
    show (match (vmaLinkList mm n k.prev k.rbParent).vmNext n with
      | some _ => mm.highestVmEnd
      | none => (mm.vma n).vmEnd) = topEnd mm.core (A ++ n :: B)
    rw [hnext]
    cases B with
    | nil => rw [topEnd, List.getLast?_concat]; rfl
    | cons b bs => rw [topEnd_append_cons (by simp), ← hhigh (by simp)]; rfl

theorem wf_insertVmStruct (rb : Balance VmaId) (hrep : Rep mm (A ++ B) {y | B.head? = some y})
    (hord : Ordered mm.core (A ++ B)) (hhigh : B ≠ [] → mm.highestVmEnd = topEnd mm.core B)
    (hn : n ∉ A ++ B) (hf : n < mm.nextId) (hr : AreaOk (mm.core n))
    (hA : ∀ a ∈ A, (mm.core a).vmEnd ≤ (mm.core n).vmStart)
    (hB : ∀ b ∈ B, (mm.core n).vmEnd ≤ (mm.core b).vmStart) :
    Wf (insertVmStruct rb mm n) (A ++ n :: B) ∧ (insertVmStruct rb mm n).core = mm.core ∧
      (insertVmStruct rb mm n).rest = mm.rest := by
  obtain ⟨k, hk, hkat⟩ := findVmaLinks_at hrep (ordered_core.1 hord) hr.lt hA hB
  have : insertVmStruct rb mm n = vmaLink rb mm n k := by
    unfold insertVmStruct
    change findVmaLinks mm (mm.vma n).vmStart (mm.vma n).vmEnd = some k at hk
    rw [hk]
  rw [this]
  exact wf_link hrep hord hhigh hn hf hkat hr hA hB

end PtraceRemote
