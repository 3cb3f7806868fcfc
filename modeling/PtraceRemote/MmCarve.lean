import PtraceRemote.MmMapInv

/-! `do_munmap` of a range inside one area: which areas are left, and when it cannot fail. -/
namespace PtraceRemote

open AugTree (Balance)

variable {mm : Mm} {s s' s'' : MmSys} {rb : Balance VmaId} {conf : MmConf} {L L' A B : List VmaId}
  {x n : VmaId} {start end_ len addr : ℕ}

theorem Wf.unique (h : Wf mm L) (h' : Wf mm L') : L = L' := h.rep.inorder.symm.trans h'.rep.inorder

theorem Wf.below (h : Wf mm (A ++ x :: B)) : ∀ a ∈ A, (mm.core a).vmEnd ≤ (mm.core x).vmStart :=
  fun a ha => (ordered_append.1 h.ordered).2.2 a ha x (by simp)

theorem Wf.above (h : Wf mm (A ++ x :: B)) : ∀ b ∈ B, (mm.core x).vmEnd ≤ (mm.core b).vmStart :=
  (ordered_cons.1 (ordered_append.1 h.ordered).2.1).2.2

/-- `find_vma` finds the area that holds the address. -/
theorem findVma_at (h : Wf mm (A ++ x :: B)) (hs : (mm.core x).vmStart ≤ addr)
    (he : addr < (mm.core x).vmEnd) :
    findVma mm addr = some x := by
  have hA : A.find? (fun y => decide (addr < (mm.vma y).vmEnd)) = none := by
    refine List.find?_eq_none.2 fun a ha => ?_
    have hle : (mm.vma a).vmEnd ≤ addr := (h.below a ha).trans hs
    simpa using hle
  have hx : addr < (mm.vma x).vmEnd := he
  rw [findVma_eq h.rep (ordered_core.1 h.ordered), List.find?_append, hA, Option.none_or]
  simp [hx]

/-- Nothing is cut where an area ends. -/
theorem splitLast_end (rb : Balance VmaId) (h : Wf s.mm (A ++ x :: B)) :
    splitLast rb s (s.mm.core x).vmEnd = (0, s) := by
  unfold splitLast
  cases hf : findVma s.mm (s.mm.core x).vmEnd with
  | none => rfl
  | some y =>
    have hA : ∀ a ∈ A ++ [x], (s.mm.core a).vmEnd ≤ (s.mm.core x).vmEnd := by
      intro a ha
      rcases List.mem_append.1 ha with ha | ha
      · exact (h.below a ha).trans (h.ordered.area x (by simp)).lt.le
      · rw [List.mem_singleton.1 ha]
    have h' : Wf s.mm ((A ++ [x]) ++ B) := by simpa using h
    obtain ⟨R₁, R₂, rfl, -, -⟩ := findVma_suffix h' hA hf
    exact if_neg (not_lt.2 (h.above y (by simp)))

theorem splitLast_inside (rb : Balance VmaId) (h : Wf s.mm (A ++ x :: B))
    (hs : (s.mm.core x).vmStart < end_) (he : end_ < (s.mm.core x).vmEnd) :
    splitLast rb s end_ = splitVmaNoLimit rb s x end_ true := by
  unfold splitLast
  rw [findVma_at h hs.le he]
  exact if_pos hs

inductive Left (v : Vma) (core : VmaId → Vma) (x : VmaId) (start end_ : ℕ) : List VmaId → Prop
  | nothing : v.vmStart = start → v.vmEnd = end_ → Left v core x start end_ []
  | lower : v.vmStart < start → v.vmEnd = end_ → core x = v.lower start →
      Left v core x start end_ [x]
  | upper : v.vmStart = start → end_ < v.vmEnd → core x = v.upper end_ →
      Left v core x start end_ [x]
  | both {n : VmaId} : v.vmStart < start → end_ < v.vmEnd → core x = v.lower start →
      core n = v.upper end_ → Left v core x start end_ [x, n]

structure Carved (s s' : MmSys) (A : List VmaId) (x : VmaId) (B : List VmaId) (start end_ : ℕ)
    (P : List VmaId) : Prop where
  wf : Wf s'.mm (A ++ (P ++ B))
  other : ∀ y ∈ A ++ B, s'.mm.core y = s.mm.core y
  left : Left (s.mm.core x) s'.mm.core x start end_ P

theorem upper_upper {v : Vma} (h₁ : v.vmStart ≤ start) (h₂ : start ≤ end_) (hs : 4096 ∣ start)
    (he : 4096 ∣ end_) :
    (v.upper start).upper end_ = v.upper end_ := by
  have hsum : (start-v.vmStart)/4096+(end_-start)/4096 = (end_-v.vmStart)/4096 := by omega
  simp only [Vma.upper, Vma.mk.injEq, true_and, and_true]
  rw [BitVec.add_assoc, ← BitVec.ofNat_add, hsum]

/-- Unmapping the area `x` as a whole. -/
theorem unmapAreas_one (rb : Balance VmaId) (h : Wf s.mm (A ++ x :: B)) :
    let s' := unmapAreas rb s A.getLast? (s.mm.core x).vmEnd
    Wf s'.mm (A ++ B) ∧ s'.mm.core = s.mm.core := by
  have hw : Wf s.mm (A ++ ([x] ++ B)) := h
  have hM : ∀ m ∈ [x], (s.mm.core m).vmStart < (s.mm.core x).vmEnd := by
    intro m hm
    rw [List.mem_singleton.1 hm]
    exact (h.ordered.area x (by simp)).lt
  obtain ⟨hwf, hcore, -⟩ := unmapAreas_spec rb hw hM h.above
  exact ⟨hwf, hcore⟩

/-- From the start of the area on: the whole of it, or its lower part. -/
theorem carve_front (rb : Balance VmaId) (h : Wf s.mm (A ++ x :: B))
    (hs : (s.mm.core x).vmStart < end_) (he : end_ ≤ (s.mm.core x).vmEnd) (hd : 4096 ∣ end_)
    (hz : (splitLast rb s end_).1 = 0) :
    ∃ P, Carved s (unmapAreas rb (splitLast rb s end_).2 A.getLast? end_) A x B
      (s.mm.core x).vmStart end_ P := by
  rcases he.eq_or_lt with rfl | he
  · obtain ⟨hwf, hcore⟩ := unmapAreas_one rb h
    rw [splitLast_end rb h]
    exact ⟨[], hwf, fun y _ => by rw [hcore], .nothing rfl rfl⟩
  · rw [splitLast_inside rb h hs he] at hz ⊢
    rcases splitVmaNoLimit_spec rb true h hs he hd with ⟨hne, -⟩ | ⟨-, m, hsplit⟩
    · exact absurd hz hne
    · set s₁ := (splitVmaNoLimit rb s x end_ true).2
      have hw₁ : Wf s₁.mm (A ++ m :: (x :: B)) := hsplit.wf
      have hend : (s₁.mm.core m).vmEnd = end_ := by
        rw [hsplit.new]
        rfl
      obtain ⟨hwf, hcore⟩ := unmapAreas_one rb hw₁
      rw [hend] at hwf hcore
      refine ⟨[x], hwf, fun y hy => ?_, .upper rfl he ?_⟩
      · rw [hcore, hsplit.other y hy]
      · rw [hcore, hsplit.kept]
        rfl

/-- From a point inside the area on. -/
theorem carve_behind (rb : Balance VmaId) (h : Wf s.mm (A ++ x :: B)) (hr : RangeOk start end_)
    (hs : (s.mm.core x).vmStart < start) (he : end_ ≤ (s.mm.core x).vmEnd)
    (hz : (splitVmaNoLimit rb s x start false).1 = 0)
    (hz' : (splitLast rb (splitVmaNoLimit rb s x start false).2 end_).1 = 0) :
    ∃ P, Carved s
      (unmapAreas rb (splitLast rb (splitVmaNoLimit rb s x start false).2 end_).2 (some x) end_)
      A x B start end_ P := by
  have hx : start < (s.mm.core x).vmEnd := hr.lt.trans_le he
  rcases splitVmaNoLimit_spec rb false h hs hx hr.start_dvd with ⟨hne, -⟩ | ⟨-, m, hsplit⟩
  · exact absurd hz hne
  · set s₁ := (splitVmaNoLimit rb s x start false).2
    have hw₁ : Wf s₁.mm ((A ++ [x]) ++ m :: B) := by simpa [halves] using hsplit.wf
    have hm : s₁.mm.core m = (s.mm.core x).upper start := by
      rw [hsplit.new]
      rfl
    have hkept : s₁.mm.core x = (s.mm.core x).lower start := by
      rw [hsplit.kept]
      rfl
    have hmx : m ≠ x := fun hmx => hsplit.fresh (by simp [hmx])
    have hms : (s₁.mm.core m).vmStart < end_ := by
      rw [hm]
      exact hr.lt
    have hme : end_ ≤ (s₁.mm.core m).vmEnd := by
      rw [hm]
      exact he
    obtain ⟨P, hcut⟩ := carve_front rb hw₁ hms hme hr.end_dvd hz'
    rw [List.getLast?_concat] at hcut
    set s₂ := unmapAreas rb (splitLast rb s₁ end_).2 (some x) end_
    have hx₂ : s₂.mm.core x = (s.mm.core x).lower start := by
      rw [hcut.other x (by simp), hkept]
    have hother : ∀ y ∈ A ++ B, s₂.mm.core y = s.mm.core y := by
      intro y hy
      have hy' : y ∈ (A ++ [x]) ++ B := by
        rcases List.mem_append.1 hy with hy | hy <;> simp [hy]
      rw [hcut.other y hy', hsplit.other y hy]
    have hwf : Wf s₂.mm (A ++ (x :: P ++ B)) := by simpa using hcut.wf
    refine ⟨x :: P, hwf, hother, ?_⟩
    rcases hcut.left with ⟨-, hend⟩ | ⟨hlt, -, -⟩ | ⟨-, hend, hup⟩ | ⟨hlt, -, -, -⟩
    · rw [hm] at hend
      exact .lower hs hend hx₂
    · exact absurd hlt (lt_irrefl _)
    · rw [hm] at hend hup
      refine .both hs hend hx₂ ?_
      rw [hup, upper_upper hs.le hr.lt.le hr.start_dvd hr.end_dvd]
    · exact absurd hlt (lt_irrefl _)

/-- `do_munmap` of a range inside the area `x`. -/
theorem doMunmap_inside (rb : Balance VmaId) (conf : MmConf) (h : Wf s.mm (A ++ x :: B))
    (hr : RangeOk start (start+len)) (hs : (s.mm.core x).vmStart ≤ start)
    (he : start+len ≤ (s.mm.core x).vmEnd) :
    doMunmap rb conf s start len =
      if TASK_SIZE < start ∨ TASK_SIZE-start < len then (-EINVAL, s)
      else if (s.mm.core x).vmStart < start then
        if start+len < (s.mm.core x).vmEnd ∧ conf.maxMapCount ≤ s.mm.mapCount then (-ENOMEM, s)
        else
          let first := splitVmaNoLimit rb s x start false
          let last := splitLast rb first.2 (start+len)
          if first.1 ≠ 0 then first
          else if last.1 ≠ 0 then last else (0, unmapAreas rb last.2 (some x) (start+len))
      else
        let last := splitLast rb s (start+len)
        if last.1 ≠ 0 then last else (0, unmapAreas rb last.2 A.getLast? (start+len)) := by
  have hlt := hr.lt
  have hoff : offsetInPage start = 0 := Nat.mod_eq_zero_of_dvd hr.start_dvd
  have hlen : len ≠ 0 := by omega
  have hend : ¬start+len ≤ (s.mm.vma x).vmStart := by
    have hs : (s.mm.vma x).vmStart ≤ start := hs
    omega
  unfold doMunmap
  simp only [hoff, ne_eq, not_true_eq_false, false_or]
  split
  · rfl
  · rw [hr.pageAlign_len, if_neg hlen, findVma_at h hs (hlt.trans_le he)]
    dsimp only
    rw [if_neg hend, h.rep.prev_eq]
    rfl

/-- A successful `do_munmap` inside the area `x`. -/
theorem doMunmap_carves (rb : Balance VmaId) (conf : MmConf) (h : Wf s.mm (A ++ x :: B))
    (hr : RangeOk start (start+len)) (hs : (s.mm.core x).vmStart ≤ start)
    (he : start+len ≤ (s.mm.core x).vmEnd) (hz : (doMunmap rb conf s start len).1 = 0) :
    ∃ P, Carved s (doMunmap rb conf s start len).2 A x B start (start+len) P := by
  have hinval : -EINVAL ≠ 0 := by decide
  have hnomem : -ENOMEM ≠ 0 := by decide
  rw [doMunmap_inside rb conf h hr hs he] at hz ⊢
  by_cases htask : TASK_SIZE < start ∨ TASK_SIZE-start < len
  · rw [if_pos htask] at hz
    exact absurd hz hinval
  rw [if_neg htask] at hz ⊢
  by_cases hlt : (s.mm.core x).vmStart < start
  · rw [if_pos hlt] at hz ⊢
    by_cases hmax : start+len < (s.mm.core x).vmEnd ∧ conf.maxMapCount ≤ s.mm.mapCount
    · rw [if_pos hmax] at hz
      exact absurd hz hnomem
    rw [if_neg hmax] at hz ⊢
    dsimp only at hz ⊢
    by_cases hfirst : (splitVmaNoLimit rb s x start false).1 ≠ 0
    · rw [if_pos hfirst] at hz
      exact absurd hz hfirst
    rw [if_neg hfirst] at hz ⊢
    by_cases hlast : (splitLast rb (splitVmaNoLimit rb s x start false).2 (start+len)).1 ≠ 0
    · rw [if_pos hlast] at hz
      exact absurd hz hlast
    rw [if_neg hlast]
    exact carve_behind rb h hr hlt he (not_not.1 hfirst) (not_not.1 hlast)
  · rw [if_neg hlt] at hz ⊢
    dsimp only at hz ⊢
    obtain rfl : (s.mm.core x).vmStart = start := le_antisymm hs (not_lt.1 hlt)
    by_cases hlast : (splitLast rb s ((s.mm.core x).vmStart+len)).1 ≠ 0
    · rw [if_pos hlast] at hz
      exact absurd hz hlast
    rw [if_neg hlast]
    exact carve_front rb h hr.lt he hr.end_dvd (not_not.1 hlast)

end PtraceRemote
