import Mathlib.Tactic

/-! Calls that are given limits. A call has ended before it asks them, or it comes to a place where
it does: there they refuse it, or it goes on in a way that no longer depends on them. -/
namespace Verdict

variable {Λ α β ρ τ : Type} {asks asks' : α → Prop} {call : Λ → ρ} {refusal : Λ → α → Option β}
  {granted : α → ρ} {refuse : α → β → ρ} {alike : ρ → ρ → Prop}

structure Asked (asks : α → Prop) (call : Λ → ρ) (refusal : Λ → α → Option β) (granted : α → ρ)
    (refuse : α → β → ρ) : Prop where
  unasked : (∀ a, ¬asks a) → ∀ lim lim', call lim = call lim'
  asked : ∀ a, asks a → ∀ lim, call lim = (refusal lim a).elim (granted a) (refuse a)

/-- A check that does not depend on the limits. -/
theorem Asked.check {c : Prop} [Decidable c] {r : ρ}
    (h : ¬c → Asked asks call refusal granted refuse) :
    Asked (fun a => ¬c ∧ asks a) (fun lim => if c then r else call lim) refusal granted refuse := by
  by_cases hc : c
  · simp only [if_pos hc]
    exact ⟨fun _ _ _ => rfl, fun a ha => absurd hc ha.1⟩
  · simp only [if_neg hc]
    exact ⟨fun hno => (h hc).unasked fun a ha => hno a ⟨hc, ha⟩, fun a ha => (h hc).asked a ha.2⟩

theorem Asked.map (h : Asked asks call refusal granted refuse) (f : ρ → τ) :
    Asked asks (fun lim => f (call lim)) refusal (fun a => f (granted a)) fun a e =>
      f (refuse a e) := by
  constructor
  · intro hno lim lim'
    rw [h.unasked hno lim lim']
  · intro a ha lim
    rw [h.asked a ha lim]
    cases refusal lim a with
    | none => rfl
    | some e => rfl

theorem Asked.congr (h : Asked asks call refusal granted refuse) (hasks : ∀ a, asks' a ↔ asks a) :
    Asked asks' call refusal granted refuse :=
  ⟨fun hno => h.unasked fun a ha => hno a ((hasks a).2 ha), fun a ha => h.asked a ((hasks a).1 ha)⟩

end Verdict
