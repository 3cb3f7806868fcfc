import Mathlib.Data.List.Nodup
import Mathlib.Tactic.Common

/-!
# Doubly linked segments

Intrusive lists given by two link functions: what it means that a list of nodes is chained, how
segments are cut and joined, and how a chain is walked.
-/

namespace Linked

variable {α : Type*} {next prev next' prev' : α → Option α}

def Seg (next prev : α → Option α) : Option α → List α → Option α → Prop
  | _, [], _ => True
  | p, x :: xs, n => prev x = p ∧ next x = xs.head?.or n ∧ Seg next prev (some x) xs n

theorem seg_append {p n : Option α} {A B : List α} :
    Seg next prev p (A ++ B) n ↔
      Seg next prev p A (B.head?.or n) ∧ Seg next prev (A.getLast?.or p) B n := by
  induction A generalizing p with
  | nil => simp [Seg]
  | cons x xs ih =>
    cases xs with
    | nil => simp [Seg, and_assoc]
    | cons y ys =>
      have hl : (y :: ys).getLast?.or p = (y :: ys).getLast?.or (some x) := by
        rw [List.getLast?_cons]; rfl
      rw [List.getLast?_cons_cons, hl]
      change prev x = p ∧ next x = some y ∧ Seg next prev (some x) (y :: ys ++ B) n ↔
        (prev x = p ∧ next x = some y ∧ Seg next prev (some x) (y :: ys) (B.head?.or n)) ∧ _
      rw [ih, and_assoc, and_assoc]

/-- A segment only depends on the links of its own nodes. -/
theorem Seg.congr {p n : Option α} {l : List α} (h : Seg next prev p l n)
    (hn : ∀ x ∈ l, next' x = next x) (hp : ∀ x ∈ l, prev' x = prev x) : Seg next' prev' p l n := by
  induction l generalizing p with
  | nil => trivial
  | cons x xs ih =>
    obtain ⟨h₁, h₂, h₃⟩ := h
    refine ⟨by rw [hp x (by simp), h₁], by rw [hn x (by simp), h₂], ih h₃ ?_ ?_⟩
    · exact fun y hy => hn y (by simp [hy])
    · exact fun y hy => hp y (by simp [hy])

/-- Redirecting the last node of a segment changes where the segment leads. -/
theorem Seg.retarget {p n n' : Option α} {l : List α} (h : Seg next prev p l n) (hnd : l.Nodup)
    (hn : ∀ x ∈ l, l.getLast? ≠ some x → next' x = next x)
    (hl : ∀ x, l.getLast? = some x → next' x = n') (hp : ∀ x ∈ l, prev' x = prev x) :
    Seg next' prev' p l n' := by
  induction l generalizing p with
  | nil => trivial
  | cons x xs ih =>
    obtain ⟨h₁, h₂, h₃⟩ := h
    cases xs with
    | nil => exact ⟨by rw [hp x (by simp), h₁], by simpa using hl x (by simp), trivial⟩
    | cons y ys =>
      have hne : (y :: ys).getLast? ≠ some x := fun he =>
        (List.nodup_cons.1 hnd).1 (List.mem_of_getLast? he)
      refine ⟨by rw [hp x (by simp), h₁], ?_, ih h₃ (List.nodup_cons.1 hnd).2 ?_ ?_ ?_⟩
      · rw [hn x (by simp) (by rwa [List.getLast?_cons_cons]), h₂]; simp
      · exact fun z hz hzl => hn z (by simp [hz]) (by rwa [List.getLast?_cons_cons])
      · exact fun z hz => hl z (by rwa [List.getLast?_cons_cons])
      · exact fun z hz => hp z (by simp [hz])

/-- Redirecting the back link of the first node changes where the segment is entered from. -/
theorem Seg.reenter {p p' n : Option α} {l : List α} (h : Seg next prev p l n) (hnd : l.Nodup)
    (hp : ∀ x ∈ l, l.head? ≠ some x → prev' x = prev x) (hh : ∀ x, l.head? = some x → prev' x = p')
    (hn : ∀ x ∈ l, next' x = next x) :
    Seg next' prev' p' l n := by
  cases l with
  | nil => trivial
  | cons x xs =>
    obtain ⟨-, h₂, h₃⟩ := h
    refine ⟨hh x rfl, by rw [hn x (by simp), h₂], h₃.congr ?_ ?_⟩
    · exact fun y hy => hn y (by simp [hy])
    · refine fun y hy => hp y (by simp [hy]) fun he => (List.nodup_cons.1 hnd).1 ?_
      rwa [show x = y by simpa using he]

/-- Cutting `M` out of a chain: only the nodes on both sides of it are relinked. -/
theorem Seg.cut {A M B : List α} (h : Seg next prev none (A ++ (M ++ B)) none)
    (hnd : (A ++ (M ++ B)).Nodup) (hn : ∀ x, x ∉ M → A.getLast? ≠ some x → next' x = next x)
    (hl : ∀ x, A.getLast? = some x → next' x = B.head?)
    (hp : ∀ x, x ∉ M → B.head? ≠ some x → prev' x = prev x)
    (hh : ∀ x, B.head? = some x → prev' x = A.getLast?) :
    Seg next' prev' none (A ++ B) none := by
  obtain ⟨hA, hMB⟩ := seg_append.1 h
  obtain ⟨-, hB⟩ := seg_append.1 hMB
  obtain ⟨hndA, hndMB, hdA⟩ := List.nodup_append.1 hnd
  obtain ⟨-, hndB, hdM⟩ := List.nodup_append.1 hndMB
  have hAM : ∀ x ∈ A, x ∉ M := fun x hx hm => hdA x hx x (by simp [hm]) rfl
  have hBM : ∀ x ∈ B, x ∉ M := fun x hx hm => hdM x hm x hx rfl
  have hAB : ∀ x ∈ A, x ∉ B := fun x hx hb => hdA x hx x (by simp [hb]) rfl
  refine seg_append.2 ⟨hA.retarget hndA (fun x hx hne => hn x (hAM x hx) hne) ?_ ?_,
    hB.reenter hndB (fun x hx hne => hp x (hBM x hx) hne) ?_ ?_⟩
  · exact fun x hx => by simpa using hl x hx
  · exact fun x hx => hp x (hAM x hx) fun he => hAB x hx (List.mem_of_head? he)
  · exact fun x hx => by simpa using hh x hx
  · exact fun x hx => hn x (hBM x hx) fun he => hAB x (List.mem_of_getLast? he) hx

/-- Linking a new node between two halves of a chain. -/
theorem Seg.insert {A B : List α} {x : α} (h : Seg next prev none (A ++ B) none)
    (hnd : (A ++ B).Nodup) (hx : x ∉ A ++ B) (hxp : prev' x = A.getLast?) (hxn : next' x = B.head?)
    (hn : ∀ y, y ≠ x → A.getLast? ≠ some y → next' y = next y)
    (hl : ∀ y, A.getLast? = some y → next' y = some x)
    (hp : ∀ y, y ≠ x → B.head? ≠ some y → prev' y = prev y)
    (hh : ∀ y, B.head? = some y → prev' y = some x) :
    Seg next' prev' none (A ++ x :: B) none := by
  obtain ⟨hA, hB⟩ := seg_append.1 h
  obtain ⟨hndA, hndB, hd⟩ := List.nodup_append.1 hnd
  have hne : ∀ y ∈ A ++ B, y ≠ x := fun y hy he => hx (he ▸ hy)
  have hAB : ∀ y ∈ A, y ∉ B := fun y hy hb => hd y hy y hb rfl
  refine seg_append.2 ⟨hA.retarget hndA ?_ ?_ ?_, by simpa using hxp, by simpa using hxn,
    hB.reenter hndB ?_ hh ?_⟩
  · exact fun y hy => hn y (hne y (by simp [hy]))
  · exact fun y hy => by simpa using hl y hy
  · exact fun y hy => hp y (hne y (by simp [hy])) fun he => hAB y hy (List.mem_of_head? he)
  · exact fun y hy => hp y (hne y (by simp [hy]))
  · exact fun y hy => hn y (hne y (by simp [hy])) fun he => hAB y (List.mem_of_getLast? he) hy

theorem Seg.next_eq {p n : Option α} {A B : List α} {x : α} (h : Seg next prev p (A ++ x :: B) n) :
    next x = B.head?.or n :=
  (seg_append.1 h).2.2.1

theorem Seg.prev_eq {p n : Option α} {A B : List α} {x : α} (h : Seg next prev p (A ++ x :: B) n) :
    prev x = A.getLast?.or p :=
  (seg_append.1 h).2.1

/-- The node that is entered from `x` is the one after it. -/
theorem Seg.head_of_prev {A B : List α} {x y : α} (h : Seg next prev none (A ++ x :: B) none)
    (hnd : (A ++ x :: B).Nodup) (hy : y ∈ A ++ x :: B) (hp : prev y = some x) :
    B.head? = some y := by
  have hxA : x ∉ A := fun hx => (List.nodup_append.1 hnd).2.2 x hx x (by simp) rfl
  rcases List.mem_append.1 hy with hyA | hyB
  · obtain ⟨A₁, A₂, rfl⟩ := List.append_of_mem hyA
    rw [List.append_assoc, List.cons_append] at h
    rw [h.prev_eq] at hp
    exact absurd (List.mem_append_left _ (List.mem_of_getLast? (by simpa using hp))) hxA
  rcases List.mem_cons.1 hyB with rfl | hyB
  · rw [h.prev_eq] at hp
    exact absurd (List.mem_of_getLast? (by simpa using hp)) hxA
  · obtain ⟨B₁, B₂, rfl⟩ := List.append_of_mem hyB
    rw [show A ++ x :: (B₁ ++ y :: B₂) = (A ++ x :: B₁) ++ y :: B₂ by simp] at h hnd
    rw [h.prev_eq] at hp
    cases B₁ with
    | nil => rfl
    | cons b bs =>
      have hl : (b :: bs).getLast? = some x := by simpa [List.getLast?_append] using hp
      have : x ∉ b :: bs := by
        have := (List.nodup_append.1 hnd).1
        exact (List.nodup_cons.1 (List.nodup_append.1 this).2.1).1
      exact absurd (List.mem_of_getLast? hl) this

def walk (next : α → Option α) : ℕ → Option α → List α
  | 0, _ => []
  | _ + 1, none => []
  | fuel + 1, some x => x :: walk next fuel (next x)

theorem walk_eq {p : Option α} {l : List α} {fuel : ℕ} (h : Seg next prev p l none)
    (hf : l.length ≤ fuel) : walk next fuel l.head? = l := by
  induction l generalizing p fuel with
  | nil => cases fuel <;> rfl
  | cons x xs ih =>
    obtain ⟨-, h₂, h₃⟩ := h
    obtain ⟨f, rfl⟩ : ∃ f, fuel = f+1 := ⟨fuel-1, by simp at hf; omega⟩
    have h₂ : next x = xs.head? := by simpa using h₂
    rw [List.head?_cons, walk, h₂, ih h₃ (by simpa using hf)]

end Linked
