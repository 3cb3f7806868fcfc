import Mathlib.Tactic

/-! Locks that are taken in the order of their ranks. A task may wait for a lock only if it holds
none of a higher rank; one task at a time may hold others of the same rank. Then not all holders can
be waiting. -/
namespace LockOrder

variable {τ ι : Type} {rank : ι → ℕ} {waits holds : τ → ι → Prop} {bulk : τ → Prop} {n : ℕ}

structure Stuck (rank : ι → ℕ) (waits holds : τ → ι → Prop) (bulk : τ → Prop) : Prop where
  held : ∀ t l, waits t l → ∃ u l', holds u l ∧ waits u l'
  ordered : ∀ t l l', waits t l → holds t l' → rank l' ≤ rank l
  strict : ∀ t l l', waits t l → holds t l' → rank l' = rank l → bulk t
  unique : ∀ t u, bulk t → bulk u → t = u
  self : ∀ t l, waits t l → ¬holds t l

/-- Nobody waits for a lock of the highest rank that is waited for: its holder would be the one task
that may, and it would wait for itself. -/
theorem Stuck.nobody_waits (h : Stuck rank waits holds bulk) (hn : ∀ l, rank l ≤ n) (t : τ)
    (l : ι) : ¬waits t l := by
  intro hwait
  let R : Set ℕ := {r | ∃ t l, waits t l ∧ rank l = r}
  have hne : R.Nonempty := ⟨rank l, t, l, hwait, rfl⟩
  have hbound : BddAbove R := ⟨n, by rintro r ⟨t, l, -, rfl⟩; exact hn l⟩
  obtain ⟨t, l, hwait, hmax⟩ := Nat.sSup_mem hne hbound
  have hle (u : τ) (k : ι) (hu : waits u k) : rank k ≤ rank l :=
    hmax ▸ le_csSup hbound ⟨u, k, hu, rfl⟩
  -- the holder of a lock of the highest rank waits for one of the same rank
  have hnext (u : τ) (k : ι) (hu : waits u k) (hk : rank k = rank l) :
      ∃ v k', holds v k ∧ waits v k' ∧ rank k' = rank l ∧ bulk v := by
    obtain ⟨v, k', hv, hv'⟩ := h.held u k hu
    have hrank : rank k' = rank l := le_antisymm (hle v k' hv') (hk ▸ h.ordered v k' k hv' hv)
    exact ⟨v, k', hv, hv', hrank, h.strict v k' k hv' hv (hk.trans hrank.symm)⟩
  obtain ⟨u, k, -, hu, hk, hbulk⟩ := hnext t l hwait rfl
  obtain ⟨v, k', hv, -, -, hbulk'⟩ := hnext u k hu hk
  rw [h.unique v u hbulk' hbulk] at hv
  exact h.self u k hu hv

end LockOrder
