import Mathlib.Tactic

/-! Reference counts as numbers of holders. An object is held by owners, each of which owns one
object or none, and by a list of loose references. -/
namespace Holders

variable {κ ι : Type} [DecidableEq ι] {U : Finset κ} {own : κ → Option ι} {held : List ι} {k : κ}
  {i j : ι}

def refs (U : Finset κ) (own : κ → Option ι) (held : List ι) (i : ι) : ℤ :=
  (U.filter fun k => own k = some i).card + held.count i

theorem refs_cons : refs U own (j :: held) i = refs U own held i + if j = i then 1 else 0 := by
  unfold refs
  rw [List.count_cons]
  by_cases hj : j = i
  · simp [hj, add_assoc]
  · simp [hj]

/-- A loose reference may be put in front. -/
theorem refs_cons_erase (h : j ∈ held) : refs U own (j :: held.erase j) i = refs U own held i := by
  unfold refs
  rw [(List.perm_cons_erase h).count_eq]

/-- One owner gives up what it has for `v`. -/
theorem refs_update [DecidableEq κ] (hk : k ∈ U) (v : Option ι) :
    refs U (Function.update own k v) held i =
      refs U own held i + (if v = some i then 1 else 0) - if own k = some i then 1 else 0 := by
  have hsum (o : κ → Option ι) : ((U.filter fun l => o l = some i).card : ℤ) =
      (if o k = some i then 1 else 0) + ∑ l ∈ U.erase k, if o l = some i then (1 : ℤ) else 0 := by
    rw [Finset.add_sum_erase U (fun l => if o l = some i then (1 : ℤ) else 0) hk, Finset.sum_boole]
  have hrest : ∑ l ∈ U.erase k, (if Function.update own k v l = some i then (1 : ℤ) else 0) =
      ∑ l ∈ U.erase k, if own l = some i then (1 : ℤ) else 0 := by
    apply Finset.sum_congr rfl
    intro l hl
    rw [Function.update_of_ne (Finset.ne_of_mem_erase hl)]
  unfold refs
  rw [hsum, hsum own, hrest, Function.update_self]
  ring

theorem refs_pos_of_own (hk : k ∈ U) (h : own k = some i) : 0 < refs U own held i := by
  have hpos : 0 < (U.filter fun k => own k = some i).card :=
    Finset.card_pos.2 ⟨k, Finset.mem_filter.2 ⟨hk, h⟩⟩
  unfold refs
  omega

theorem refs_pos_of_mem (h : i ∈ held) : 0 < refs U own held i := by
  have hpos : 0 < held.count i := List.count_pos_iff.2 h
  unfold refs
  omega

/-- One reference is held by one owner. -/
theorem own_unique {l : κ} (h : refs U own held i = 1) (hk : k ∈ U) (hl : l ∈ U)
    (hi : own k = some i) (hj : own l = some i) : k = l := by
  have hcard : (U.filter fun k => own k = some i).card ≤ 1 := by
    unfold refs at h
    omega
  exact Finset.card_le_one.1 hcard k (Finset.mem_filter.2 ⟨hk, hi⟩) l (Finset.mem_filter.2 ⟨hl, hj⟩)

/-- When every owner has let go and nothing is held, there are no references. -/
theorem refs_eq_zero (hown : ∀ k, own k = none) (hheld : held = []) : refs U own held i = 0 := by
  unfold refs
  simp [hown, hheld]

end Holders
