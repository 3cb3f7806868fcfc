import PtraceRemote.MmMapView

/-! Counting pages: the numbers that the limits are about, read off the page-level view, and the
counters and `count_vma_pages_range` against them. -/
namespace PtraceRemote

open AugTree (Balance)

variable {mm mm' : Mm} {s s' : MmSys} {L L' A B : List VmaId} {x : VmaId} {core : VmaId → Vma}
  {P : VmFlags → Bool} {start end_ p : ℕ}

def Mm.pagesIn (mm : Mm) (P : VmFlags → Bool) (start end_ : ℕ) : Finset ℕ :=
  (Finset.Ico (start/4096) (end_/4096)).filter fun p => (mm.view p).any fun i => P i.flags

def Vma.overlap (v : Vma) (start end_ : ℕ) : ℕ := (min end_ v.vmEnd-max start v.vmStart)/4096

def overlaps (P : VmFlags → Bool) (core : VmaId → Vma) (start end_ : ℕ) (L : List VmaId) : ℕ :=
  (L.map fun x => if P (core x).vmFlags then (core x).overlap start end_ else 0).sum

theorem overlaps_cons : overlaps P core start end_ (x :: B) =
    (if P (core x).vmFlags then (core x).overlap start end_ else 0) + overlaps P core start
      end_ B := by
  rw [overlaps, List.map_cons, List.sum_cons]
  rfl

theorem overlaps_append : overlaps P core start end_ (A ++ B) =
    overlaps P core start end_ A + overlaps P core start end_ B := by
  rw [overlaps, List.map_append, List.sum_append]
  rfl

theorem overlap_eq_zero {v : Vma} (h : v.vmEnd ≤ start ∨ end_ ≤ v.vmStart) :
    v.overlap start end_ = 0 := by
  unfold Vma.overlap
  omega

theorem overlaps_free (h : Free core L start end_) : overlaps P core start end_ L = 0 := by
  apply List.sum_eq_zero
  intro n hn
  obtain ⟨y, hy, rfl⟩ := List.mem_map.1 hn
  rw [overlap_eq_zero (h y hy), ite_self]

theorem mem_pagesIn (h : Wf mm L) : p ∈ mm.pagesIn P start end_ ↔ (start/4096 ≤ p ∧ p < end_/4096) ∧
    ∃ x ∈ L, (mm.core x).covers p ∧ P (mm.core x).vmFlags = true := by
  rw [Mm.pagesIn, Finset.mem_filter, Finset.mem_Ico, Option.any_eq_true]
  refine and_congr_right fun _ => ?_
  constructor
  · rintro ⟨i, hi, hP⟩
    obtain ⟨x, hx, hcov, rfl⟩ := (view_eq_some h).1 hi
    exact ⟨x, hx, hcov, hP⟩
  · rintro ⟨x, hx, hcov, hP⟩
    exact ⟨_, (view_eq_some h).2 ⟨x, hx, hcov, rfl⟩, hP⟩

/-- A set of pages is counted area by area. -/
theorem card_covered (ho : Ordered core L) (hs : 4096 ∣ start) (he : 4096 ∣ end_) {S : Finset ℕ}
    (hS : ∀ p, p ∈ S ↔ (start/4096 ≤ p ∧ p < end_/4096) ∧ ∃ x ∈ L,
      (core x).covers p ∧ P (core x).vmFlags = true) :
    S.card = overlaps P core start end_ L := by
  induction L generalizing S with
  | nil =>
    apply Finset.card_eq_zero.2
    apply Finset.eq_empty_of_forall_notMem
    intro p hp
    obtain ⟨-, x, hx, -⟩ := (hS p).1 hp
    exact absurd hx (List.not_mem_nil)
  | cons x B ih =>
    obtain ⟨hx, hB, hafter⟩ := ordered_cons.1 ho
    obtain ⟨hlt, hd, hd', -⟩ := hx
    -- the pages of `S` in `x`, and the others
    rw [overlaps_cons, ← Finset.card_filter_add_card_filter_not
      (fun p => (core x).vmStart ≤ 4096*p ∧ 4096*p < (core x).vmEnd)]
    congr 1
    · have hmem : ∀ p, p ∈ S.filter (fun p => (core x).vmStart ≤ 4096*p ∧ 4096*p < (core x).vmEnd) ↔
          ((start/4096 ≤ p ∧ p < end_/4096) ∧ (core x).covers p) ∧ P (core x).vmFlags = true := by
        intro p
        rw [Finset.mem_filter, hS]
        constructor
        · rintro ⟨⟨hp, y, hy, hcov, hP⟩, hxp⟩
          rcases List.mem_cons.1 hy with rfl | hy
          · exact ⟨⟨hp, hxp⟩, hP⟩
          · have hle := hafter y hy
            exact absurd hcov.1 (by omega)
        · rintro ⟨⟨hp, hxp⟩, hP⟩
          exact ⟨⟨hp, x, List.mem_cons_self, hxp, hP⟩, hxp⟩
      cases hP : P (core x).vmFlags with
      | false =>
        rw [if_neg (by simp)]
        apply Finset.card_eq_zero.2
        apply Finset.eq_empty_of_forall_notMem
        intro p hp
        rw [hmem, hP] at hp
        exact absurd hp.2 (by simp)
      | true =>
        have hblock : S.filter (fun p => (core x).vmStart ≤ 4096*p ∧ 4096*p < (core x).vmEnd) =
            Finset.Ico (max start (core x).vmStart/4096) (min end_ (core x).vmEnd/4096) := by
          ext p
          rw [hmem, hP, and_iff_left rfl, Finset.mem_Ico, Vma.covers]
          omega
        rw [hblock, Nat.card_Ico, if_pos rfl, Vma.overlap]
        omega
    · apply ih hB
      intro p
      rw [Finset.mem_filter, hS]
      constructor
      · rintro ⟨⟨hp, y, hy, hcov, hP⟩, hxp⟩
        rcases List.mem_cons.1 hy with rfl | hy
        · exact absurd hcov hxp
        · exact ⟨hp, y, hy, hcov, hP⟩
      · rintro ⟨hp, y, hy, hcov, hP⟩
        have hle := hafter y hy
        have hcov' := hcov.1
        exact ⟨⟨hp, y, List.mem_cons_of_mem x hy, hcov, hP⟩, by omega⟩

theorem card_pagesIn (h : Wf mm L) (hs : 4096 ∣ start) (he : 4096 ∣ end_) :
    (mm.pagesIn P start end_).card = overlaps P mm.core start end_ L :=
  card_covered h.ordered hs he fun _ => mem_pagesIn h

/-- The loop over the rest of the overlaps: it stops at an area behind the range. -/
theorem overlaps_takeWhile (end_ : ℕ) (ho : Ordered core B)
    (hB : ∀ y ∈ B, start ≤ (core y).vmStart) :
    ((B.takeWhile fun y => decide ((core y).vmStart ≤ end_)).map fun y =>
      (min end_ (core y).vmEnd-(core y).vmStart)/4096).sum =
        overlaps (fun _ => true) core start end_ B := by
  induction B with
  | nil => rfl
  | cons y ys ih =>
    obtain ⟨hy, hys, hafter⟩ := ordered_cons.1 ho
    by_cases hle : (core y).vmStart ≤ end_
    · have hmax : max start (core y).vmStart = (core y).vmStart :=
        max_eq_right (hB y List.mem_cons_self)
      rw [List.takeWhile_cons_of_pos (by simpa using hle), List.map_cons, List.sum_cons,
        overlaps_cons,
        ih hys fun z hz => hB z (List.mem_cons_of_mem y hz), if_pos rfl, Vma.overlap, hmax]
    · rw [List.takeWhile_cons_of_neg (by simpa using hle)]
      symm
      apply overlaps_free
      intro z hz
      rcases List.mem_cons.1 hz with rfl | hz
      · exact .inr (by omega)
      · have h₁ := hafter z hz
        have h₂ := hy.lt
        exact .inr (by omega)

theorem countVmaPagesRange_eq (h : Wf mm L) :
    countVmaPagesRange mm start end_ = overlaps (fun _ => true) mm.core start end_ L := by
  have ho := ordered_core.1 h.ordered
  unfold countVmaPagesRange findVmaIntersection
  cases hf : findVma mm start with
  | none =>
    have hbelow : Free mm.core L start end_ := fun y hy => .inl (findVma_none h.rep ho hf y hy)
    exact (overlaps_free hbelow).symm
  | some x =>
    obtain ⟨A, B, rfl, hA, hx⟩ := findVma_some h.rep ho hf
    obtain ⟨hxok, hB, hafter⟩ := ordered_cons.1 (ordered_append.1 h.ordered).2.1
    have hxs : start < (mm.core x).vmEnd := hx
    have hzero : overlaps (fun _ => true) mm.core start end_ A = 0 :=
      overlaps_free fun a ha => .inl (hA a ha)
    dsimp only
    by_cases hle : end_ ≤ (mm.core x).vmStart
    · rw [if_pos (show end_ ≤ (mm.vma x).vmStart from hle)]
      symm
      apply overlaps_free
      intro y hy
      rcases List.mem_append.1 hy with hy | hy
      · exact .inl (hA y hy)
      · rcases List.mem_cons.1 hy with rfl | hy
        · exact .inr hle
        · exact .inr (hle.trans (hxok.lt.le.trans (hafter y hy)))
    · rw [if_neg (show ¬end_ ≤ (mm.vma x).vmStart from hle)]
      have hrest : mm.areasFrom (mm.vmNext x) = B := by
        have h' : Wf mm ((A ++ [x]) ++ B) := by rwa [List.append_assoc]
        have hfrom := areasFrom_eq h'
        rwa [List.getLast?_concat] at hfrom
      have hloop := overlaps_takeWhile end_ hB fun y hy => hxs.le.trans (hafter y hy)
      dsimp only
      rw [hrest, overlaps_append, hzero, zero_add, overlaps_cons, if_pos rfl, ← hloop]
      rfl

theorem countVmaPagesRange_card (h : Wf mm L) (hs : 4096 ∣ start) (he : 4096 ∣ end_) :
    countVmaPagesRange mm start end_ = (mm.pagesIn (fun _ => true) start end_).card := by
  rw [countVmaPagesRange_eq h, card_pagesIn h hs he]

theorem card_pagesIn_le (mm : Mm) (P : VmFlags → Bool) (start end_ : ℕ) :
    (mm.pagesIn P start end_).card ≤ end_/4096-start/4096 := by
  calc (mm.pagesIn P start end_).card ≤ (Finset.Ico (start/4096) (end_/4096)).card :=
    Finset.card_filter_le ..
    _ = end_/4096-start/4096 := Nat.card_Ico ..

def Mm.pagesAll (mm : Mm) (P : VmFlags → Bool) : Finset ℕ := mm.pagesIn P 0 (2^64)

theorem card_pagesAll_le (mm : Mm) (P : VmFlags → Bool) : (mm.pagesAll P).card ≤ 2^52 :=
  card_pagesIn_le mm P 0 (2^64)

theorem pagesIn_subset (hle : end_ ≤ 2^64) : mm.pagesIn P start end_ ⊆ mm.pagesAll P := by
  apply Finset.filter_subset_filter
  apply Finset.Ico_subset_Ico (Nat.zero_le _)
  omega

section Class

variable (hP : ∀ flags, P (cleanFlags flags) = P flags)

include hP

/-- The pages of the areas, counted on the view. -/
theorem card_pagesAll (h : Wf mm L) : (mm.pagesAll P).card = pagesOf P (pages mm.core L) := by
  rw [Mm.pagesAll, card_pagesIn h (by decide) (by decide), pagesOf_pages hP, overlaps]
  congr 1
  apply List.map_congr_left
  intro x hx
  have hend := (h.ordered.area x hx).end_lt
  rw [Vma.overlap, Vma.pages, Nat.zero_max, min_eq_right hend.le]

theorem any_clean (m : PageMap) (p : ℕ) :
    ((m.clean p).any fun i => P i.flags) = ((m p).any fun i => P i.flags) := by
  rw [PageMap.clean]
  cases m p with
  | none => rfl
  | some i => exact hP i.flags

/-- Unmapping a range takes away the pages in it. -/
theorem card_outside (h : Wf mm L) (h' : Wf mm' L') (hr : RangeOk start end_)
    (hout : pages mm'.core L' = outside start end_ (pages mm.core L)) :
    (mm'.pagesAll P).card + (mm.pagesIn P start end_).card = (mm.pagesAll P).card := by
  have hview := view_of_outside h h' hr hout
  obtain ⟨-, hs, he, hlt⟩ := hr
  have hdiff : mm'.pagesAll P = mm.pagesAll P \ mm.pagesIn P start end_ := by
    ext p
    rw [Finset.mem_sdiff]
    simp only [Mm.pagesAll, Mm.pagesIn, Finset.mem_filter, Finset.mem_Ico]
    rw [← any_clean hP mm'.view, ← any_clean hP mm.view, hview, PageMap.unmap]
    split
    next hin =>
      rw [Option.any_none]
      refine iff_of_false (fun hp => absurd hp.2 (by simp)) fun hp => hp.2 ⟨by omega, hp.1.2⟩
    next hin =>
      refine ⟨fun hp => ⟨hp, fun hq => hin (by omega)⟩, fun hp => hp.1⟩
  rw [hdiff, Finset.card_sdiff_of_subset (pagesIn_subset hlt.le),
    Nat.sub_add_cancel (Finset.card_le_card (pagesIn_subset hlt.le))]

end Class

end PtraceRemote
