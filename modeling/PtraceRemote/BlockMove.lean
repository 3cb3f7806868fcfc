import Mathlib.Tactic

/-! Moving a block of cells of an array, piece by piece and back again. -/
namespace BlockMove

variable {α : Type*} {e : α} {f g h : ℕ → α} {src dst k m : ℕ}

def Empty (e : α) (f : ℕ → α) (src k : ℕ) : Prop := ∀ p, src ≤ p → p < src+k → f p = e

def Apart (src dst k : ℕ) : Prop := src+k ≤ dst ∨ dst+k ≤ src

/-- `g` is `f` after the `k` cells from `src` on have gone to `dst`; they leave empty cells
behind. -/
def Moves (e : α) (f g : ℕ → α) (src dst k : ℕ) : Prop :=
  ∀ p, g p = if dst ≤ p ∧ p < dst+k then f (src+(p-dst)) else if src ≤ p ∧ p < src+k then e else f p

theorem Apart.symm (h : Apart src dst k) : Apart dst src k := Or.symm h

theorem Apart.le (h : Apart src dst k) (hm : m ≤ k) : Apart src dst m := by
  unfold Apart at *
  omega

theorem Empty.le (h : Empty e f src k) (hm : m ≤ k) : Empty e f src m :=
  fun p h₁ h₂ => h p h₁ (by omega)

theorem moves_zero (e : α) (f : ℕ → α) (src dst : ℕ) : Moves e f f src dst 0 := by
  intro p
  rw [if_neg (by omega), if_neg (by omega)]

/-- Where there is nothing to move, nothing changes. -/
theorem moves_empty (hs : Empty e f src k) (hd : Empty e f dst k) : Moves e f f src dst k := by
  intro p
  split
  next hp => rw [hd p hp.1 hp.2, hs _ (by omega) (by omega)]
  split
  next hp => exact hs p hp.1 hp.2
  next => rfl

/-- A block and the block behind it. -/
theorem Moves.append (h₁ : Moves e f g src dst k) (h₂ : Moves e g h (src+k) (dst+k) m)
    (ha : Apart src dst (k+m)) :
    Moves e f h src dst (k+m) := by
  unfold Apart at ha
  intro p
  have hp₁ := h₁ p
  have hp₂ := h₂ p
  by_cases hin : dst ≤ p ∧ p < dst+(k+m)
  · rw [if_pos hin]
    by_cases hfirst : p < dst+k
    · rw [if_neg (by omega), if_neg (by omega)] at hp₂
      rw [hp₂, hp₁, if_pos ⟨hin.1, hfirst⟩]
    · -- the cell comes from the second block, which the first move has left alone
      have hq := h₁ (src+k+(p-(dst+k)))
      rw [if_neg (by omega), if_neg (by omega)] at hq
      rw [hp₂, if_pos (by omega), hq]
      congr 1
      omega
  · rw [if_neg hin]
    rw [if_neg (by omega)] at hp₁ hp₂
    by_cases hsrc : src ≤ p ∧ p < src+(k+m)
    · rw [if_pos hsrc]
      by_cases hfirst : p < src+k
      · rw [if_neg (by omega)] at hp₂
        rw [hp₂, hp₁, if_pos ⟨hsrc.1, hfirst⟩]
      · rw [hp₂, if_pos (by omega)]
    · rw [if_neg hsrc]
      rw [if_neg (by omega)] at hp₁ hp₂
      rw [hp₂, hp₁]

theorem Moves.empty_src (hm : Moves e f g src dst k) (ha : Apart src dst k) : Empty e g src k := by
  unfold Apart at ha
  intro p h₁ h₂
  rw [hm p, if_neg (by omega), if_pos ⟨h₁, h₂⟩]

/-- What lies behind the block at its new place stays empty. -/
theorem Moves.empty_behind (hm : Moves e f g src dst k) (hd : Empty e f dst (k+m))
    (ha : Apart src dst (k+m)) :
    Empty e g (dst+k) m := by
  unfold Apart at ha
  intro p h₁ h₂
  rw [hm p, if_neg (by omega), if_neg (by omega), hd p (by omega) (by omega)]

/-- Moving a block to an empty place and back changes nothing. -/
theorem Moves.back (h₁ : Moves e f g src dst k) (h₂ : Moves e g h dst src k)
    (hd : Empty e f dst k) : h = f := by
  funext p
  by_cases hsrc : src ≤ p ∧ p < src+k
  · rw [h₂ p, if_pos hsrc, h₁, if_pos (by omega)]
    congr 1
    omega
  · by_cases hdst : dst ≤ p ∧ p < dst+k
    · rw [h₂ p, if_neg hsrc, if_pos hdst, hd p hdst.1 hdst.2]
    · rw [h₂ p, if_neg hsrc, if_neg hdst, h₁ p, if_neg hdst, if_neg hsrc]

end BlockMove
