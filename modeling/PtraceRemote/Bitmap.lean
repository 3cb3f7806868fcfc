import Mathlib.Tactic

/-! Bit arrays addressed one bit, one byte or one 64-bit word at a time: a linear search for the
next clear bit, full words, and a copy followed by a clear. -/
namespace Bitmap

/-- Word `w` of the array is all ones. -/
def wordFull (b : ℕ → Bool) (w : ℕ) : Prop := ∀ j, j < 64 → b (64*w+j) = true

instance (b : ℕ → Bool) (w : ℕ) : Decidable (wordFull b w) :=
  inferInstanceAs (Decidable (∀ j, j < 64 → b (64*w+j) = true))

def wordZero (b : ℕ → Bool) (w : ℕ) : Prop := ∀ j, j < 64 → b (64*w+j) = false

instance (b : ℕ → Bool) (w : ℕ) : Decidable (wordZero b w) :=
  inferInstanceAs (Decidable (∀ j, j < 64 → b (64*w+j) = false))

def nextZeroFrom (b : ℕ → Bool) : ℕ → ℕ → ℕ
  | 0, i => i
  | n+1, i => if b i then nextZeroFrom b n (i+1) else i

def findNextZeroBit (b : ℕ → Bool) (size offset : ℕ) : ℕ :=
  if size ≤ offset then size else nextZeroFrom b (size-offset) offset

def copyClear {α : Type*} (dst src : ℕ → α) (zero : α) (cpy set : ℕ) : ℕ → α :=
  fun i => if i < cpy then src i else if i < cpy+set then zero else dst i

theorem nextZeroFrom_spec (b : ℕ → Bool) (n i : ℕ) :
    i ≤ nextZeroFrom b n i ∧ nextZeroFrom b n i ≤ i+n ∧
    (∀ k, i ≤ k → k < nextZeroFrom b n i → b k = true) ∧
    (nextZeroFrom b n i < i+n → b (nextZeroFrom b n i) = false) := by
  induction n generalizing i with
  | zero => exact ⟨le_rfl, le_rfl, fun k h1 h2 => absurd h2 (by simp only [nextZeroFrom]; omega),
      fun h => absurd h (by simp only [nextZeroFrom]; omega)⟩
  | succ n ih =>
    by_cases hb : b i = true
    · have hr : nextZeroFrom b (n+1) i = nextZeroFrom b n (i+1) := by simp [nextZeroFrom, hb]
      obtain ⟨h1, h2, h3, h4⟩ := ih (i+1)
      rw [hr]
      refine ⟨by omega, by omega, fun k hk hlt => ?_, fun h => h4 (by omega)⟩
      rcases Nat.eq_or_lt_of_le hk with rfl | hk
      · exact hb
      · exact h3 k hk hlt
    · have hr : nextZeroFrom b (n+1) i = i := by simp [nextZeroFrom, hb]
      rw [hr]
      exact ⟨le_rfl, by omega, fun k h1 h2 => absurd h2 (by omega), fun _ => by simpa using hb⟩

section FindNextZeroBit
variable (b : ℕ → Bool) (size offset : ℕ)

theorem findNextZeroBit_le : findNextZeroBit b size offset ≤ size := by
  unfold findNextZeroBit
  split
  · exact le_rfl
  · have := (nextZeroFrom_spec b (size-offset) offset).2.1
    omega

theorem le_findNextZeroBit (h : offset ≤ size) : offset ≤ findNextZeroBit b size offset := by
  unfold findNextZeroBit
  split
  · exact h
  · exact (nextZeroFrom_spec b (size-offset) offset).1

theorem findNextZeroBit_set_below (k : ℕ) (hk : offset ≤ k) (h : k < findNextZeroBit b size offset)
    (hs : offset ≤ size) : b k = true := by
  unfold findNextZeroBit at h
  split at h
  · omega
  · exact (nextZeroFrom_spec b (size-offset) offset).2.2.1 k hk h

theorem findNextZeroBit_clear (h : findNextZeroBit b size offset < size) :
    b (findNextZeroBit b size offset) = false := by
  unfold findNextZeroBit at h ⊢
  split at h
  · omega
  · rename_i hs
    rw [if_neg hs]
    exact (nextZeroFrom_spec b (size-offset) offset).2.2.2 (by omega)

/-- The search is determined by what it has to find. -/
theorem findNextZeroBit_unique {r : ℕ} (hle : offset ≤ r) (hr : r ≤ size)
    (hset : ∀ k, offset ≤ k → k < r → b k = true) (hclear : r < size → b r = false) :
    findNextZeroBit b size offset = r := by
  have hs : offset ≤ size := hle.trans hr
  have hge := le_findNextZeroBit b size offset hs
  have hsize := findNextZeroBit_le b size offset
  rcases Nat.lt_trichotomy (findNextZeroBit b size offset) r with hlt | heq | hgt
  · have hfound := findNextZeroBit_clear b size offset (hlt.trans_le hr)
    rw [hset _ hge hlt] at hfound
    exact absurd hfound (by decide)
  · exact heq
  · have hbit := findNextZeroBit_set_below b size offset r hle hgt hs
    rw [hclear (hgt.trans_le hsize)] at hbit
    exact absurd hbit (by decide)

end FindNextZeroBit

theorem wordFull_congr {b c : ℕ → Bool} {w : ℕ} (h : ∀ j, j < 64 → b (64*w+j) = c (64*w+j)) :
    wordFull b w ↔ wordFull c w :=
  forall₂_congr fun j hj => by rw [h j hj]

theorem wordFull_update_other {b : ℕ → Bool} {w i : ℕ} (v : Bool) (h : i/64 ≠ w) :
    wordFull (Function.update b i v) w ↔ wordFull b w := by
  apply wordFull_congr
  intro j hj
  apply Function.update_of_ne
  omega

theorem not_wordFull_of_clear {b : ℕ → Bool} {i : ℕ} (h : b i = false) : ¬ wordFull b (i/64) := by
  intro hf
  have := hf (i%64) (Nat.mod_lt _ (by decide))
  rw [Nat.div_add_mod, h] at this
  exact absurd this (by decide)

/-- A set bit below a full word's end: membership of a bit in its word. -/
theorem wordFull_bit {b : ℕ → Bool} {i : ℕ} (h : wordFull b (i/64)) : b i = true := by
  have := h (i%64) (Nat.mod_lt _ (by decide))
  rwa [Nat.div_add_mod] at this

section CopyClear
variable {α : Type*} {dst src : ℕ → α} {zero : α} {cpy set i : ℕ}

theorem copyClear_copied (h : i < cpy) : copyClear dst src zero cpy set i = src i := if_pos h

theorem copyClear_cleared (h : cpy ≤ i) (h2 : i < cpy+set) :
    copyClear dst src zero cpy set i = zero := by
  simp only [copyClear, Nat.not_lt.mpr h, if_false, h2, if_true]

theorem copyClear_kept (h : cpy+set ≤ i) : copyClear dst src zero cpy set i = dst i := by
  simp only [copyClear, show ¬ i < cpy by omega, show ¬ i < cpy+set by omega, if_false]

/-- Where something is written, what was there before does not matter. -/
theorem copyClear_congr (dst' : ℕ → α) (h : i < cpy+set) :
    copyClear dst src zero cpy set i = copyClear dst' src zero cpy set i := by
  unfold copyClear
  rw [if_pos h, if_pos h]

end CopyClear

end Bitmap
