import Mathlib.Tactic

/-! Runs of a system that makes one step after the other, and what they keep if every step keeps it.
A condition on a step may look at the state in which the step is made. -/
namespace Runs

variable {σ α : Type} {step : σ → α → σ} {P Q : σ → α → Prop} {s : σ} {l : List α}

def run (step : σ → α → σ) (s : σ) (l : List α) : σ := l.foldl step s

def Every (step : σ → α → σ) (P : σ → α → Prop) : σ → List α → Prop
  | _, [] => True
  | s, a :: l => P s a ∧ Every step P (step s a) l

theorem every_of_forall {P : α → Prop} (step : σ → α → σ) (s : σ) (h : ∀ a ∈ l, P a) :
    Every step (fun _ a => P a) s l := by
  induction l generalizing s with
  | nil => trivial
  | cons a l ih =>
    exact ⟨h a List.mem_cons_self, ih (step s a) fun b hb => h b (List.mem_cons_of_mem a hb)⟩

theorem Every.and (h : Every step P s l) (h' : Every step Q s l) :
    Every step (fun s a => P s a ∧ Q s a) s l := by
  induction l generalizing s with
  | nil => trivial
  | cons a l ih => exact ⟨⟨h.1, h'.1⟩, ih h.2 h'.2⟩

/-- A quantity that every step keeps, as long as the invariant holds, is kept by the run. -/
theorem Every.keeps {β : Type} {I : σ → Prop} (q : σ → β) (h : Every step P s l) (hI : I s)
    (hstep : ∀ s a, I s → P s a → I (step s a) ∧ q (step s a) = q s) :
    I (run step s l) ∧ q (run step s l) = q s := by
  induction l generalizing s with
  | nil => exact ⟨hI, rfl⟩
  | cons a l ih =>
    obtain ⟨hI', hq⟩ := hstep s a hI h.1
    obtain ⟨hrun, hrest⟩ := ih h.2 hI'
    exact ⟨hrun, hrest.trans hq⟩

/-- What holds of every step that is made under the invariant holds of every step of the run. -/
theorem Every.under {I : σ → Prop} (h : Every step P s l) (hI : I s)
    (hstep : ∀ s a, I s → P s a → Q s a ∧ I (step s a)) : Every step Q s l ∧ I (run step s l) := by
  induction l generalizing s with
  | nil => exact ⟨trivial, hI⟩
  | cons a l ih =>
    obtain ⟨hQ, hI'⟩ := hstep s a hI h.1
    obtain ⟨hrest, hrun⟩ := ih h.2 hI'
    exact ⟨⟨hQ, hrest⟩, hrun⟩

end Runs
