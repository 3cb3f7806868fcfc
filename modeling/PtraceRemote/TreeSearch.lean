import PtraceRemote.AugTree

/-! Pruned in-order search of a binary tree: as a loop that goes down to children and climbs back to
parents, and as a recursion. The loop ends, with the result of the recursion; and if only subtrees
without a wanted element are pruned, that result is the first wanted element. -/
namespace TreeSearch

open AugTree

variable {α : Type}

inductive Verdict where
  | take
  | stop
  | next
  deriving DecidableEq

inductive Result (α : Type) where
  | hit (x : α)
  | stop
  | miss

structure Rules (α : Type) where
  first : α → AugTree α → Bool
  test : α → Verdict
  second : AugTree α → Bool

inductive Frame (α : Type) where
  | first (x : α) (r : AugTree α)
  | second (l : AugTree α) (x : α)

inductive Cursor (α : Type) where
  | visit (t : AugTree α) (up : List (Frame α))
  | check (l : AugTree α) (x : α) (r : AugTree α) (up : List (Frame α))
  | climb (t : AugTree α) (up : List (Frame α))
  | done (res : Result α)

namespace Rules

def step (R : Rules α) : Cursor α → Cursor α
  | .visit nil up => .climb nil up
  | .visit (node l x r) up => if R.first x l then .visit l (.first x r :: up) else .check l x r up
  | .check l x r up =>
    match R.test x with
    | .take => .done (.hit x)
    | .stop => .done .stop
    | .next => if R.second r then .visit r (.second l x :: up) else .climb (node l x r) up
  | .climb _ [] => .done .miss
  | .climb l (.first x r :: up) => .check l x r up
  | .climb r (.second l x :: up) => .climb (node l x r) up
  | .done res => .done res

def loop (R : Rules α) : ℕ → Cursor α → Option (Result α)
  | _, .done res => some res
  | 0, _ => none
  | n+1, c => R.loop n (R.step c)

def verdict (R : Rules α) (x : α) (rest : Result α) : Result α :=
  match R.test x with
  | .take => .hit x
  | .stop => .stop
  | .next => rest

def search (R : Rules α) : AugTree α → Result α
  | nil => .miss
  | node l x r =>
    match if R.first x l then R.search l else .miss with
    | .miss => R.verdict x (if R.second r then R.search r else .miss)
    | res => res

end Rules

section Loop
variable {R : Rules α} {c : Cursor α} {res : Result α}

def Ends (R : Rules α) (c : Cursor α) (res : Result α) : Prop :=
  ∃ N, ∀ n, N ≤ n → R.loop n c = some res

theorem ends_done : Ends R (.done res) res := by
  refine ⟨0, fun n _ => ?_⟩
  cases n <;> rfl

theorem Ends.step (h : Ends R (R.step c) res) : Ends R c res := by
  obtain ⟨N, hN⟩ := h
  refine ⟨N+1, fun n hn => ?_⟩
  obtain ⟨m, rfl⟩ : ∃ m, n = m+1 := ⟨n-1, by omega⟩
  have hm := hN m (by omega)
  cases c with
  | done res' =>
    cases m <;> exact hm
  | visit t up => exact hm
  | check l x r up => exact hm
  | climb t up => exact hm

def leave (res : Result α) (t : AugTree α) (up : List (Frame α)) : Cursor α :=
  match res with
  | .miss => .climb t up
  | res => .done res

/-- What the loop finds in a subtree is what the recursion finds there. -/
theorem Ends.visit (t : AugTree α) (up : List (Frame α))
    (h : Ends R (leave (R.search t) t up) res) : Ends R (.visit t up) res := by
  induction t generalizing up with
  | nil => exact Ends.step h
  | node l x r ihl ihr =>
    -- from the test of `x` on
    have hcheck : Ends R (leave (R.verdict x (if R.second r then R.search r else .miss))
        (node l x r) up) res → Ends R (.check l x r up) res := by
      intro h
      apply Ends.step
      unfold Rules.verdict at h
      simp only [Rules.step]
      cases ht : R.test x with
      | take => rwa [ht] at h
      | stop => rwa [ht] at h
      | next =>
        rw [ht] at h
        dsimp only at h ⊢
        by_cases hs : R.second r = true
        · rw [if_pos hs] at h ⊢
          apply ihr
          cases hr : R.search r with
          | miss =>
            rw [hr] at h
            exact Ends.step h
          | hit y => rwa [hr] at h
          | stop => rwa [hr] at h
        · rwa [if_neg hs] at h ⊢
    apply Ends.step
    simp only [Rules.search] at h
    simp only [Rules.step]
    by_cases hf : R.first x l = true
    · rw [if_pos hf] at h ⊢
      apply ihl
      cases hl : R.search l with
      | miss =>
        rw [hl] at h
        exact Ends.step (hcheck h)
      | hit y => rwa [hl] at h
      | stop => rwa [hl] at h
    · rw [if_neg hf] at h ⊢
      exact hcheck h

/-- The loop ends with the result of the recursion. -/
theorem ends_search (R : Rules α) (t : AugTree α) : Ends R (.visit t []) (R.search t) := by
  apply Ends.visit
  cases R.search t with
  | miss => exact Ends.step ends_done
  | hit x => exact ends_done
  | stop => exact ends_done

end Loop

section Spec
variable {R : Rules α} {want : α → Prop}

def Says (want : α → Prop) (test : α → Verdict) (L : List α) : Result α → Prop
  | .hit x => ∃ A B, L = A ++ x :: B ∧ test x = .take ∧ ∀ y ∈ A, ¬ want y
  | .stop => ∃ A x B, L = A ++ x :: B ∧ test x = .stop ∧ ∀ y ∈ A, ¬ want y
  | .miss => ∀ y ∈ L, ¬ want y

theorem Says.before {test : α → Verdict} {L M : List α} {res : Result α} (h : Says want test M res)
    (hL : ∀ y ∈ L, ¬ want y) : Says want test (L ++ M) res := by
  have hboth (A : List α) (hA : ∀ y ∈ A, ¬ want y) : ∀ y ∈ L ++ A, ¬ want y := by
    intro y hy
    rcases List.mem_append.mp hy with hy | hy
    · exact hL y hy
    · exact hA y hy
  cases res with
  | hit x =>
    obtain ⟨A, B, rfl, ht, hA⟩ := h
    exact ⟨L ++ A, B, (List.append_assoc ..).symm, ht, hboth A hA⟩
  | stop =>
    obtain ⟨A, x, B, rfl, ht, hA⟩ := h
    exact ⟨L ++ A, x, B, (List.append_assoc ..).symm, ht, hboth A hA⟩
  | miss => exact hboth M h

/-- Elements behind a hit or a stop do not matter. -/
theorem Says.after {test : α → Verdict} {L M : List α} {res : Result α} (h : Says want test L res)
    (hres : res ≠ .miss) : Says want test (L ++ M) res := by
  cases res with
  | hit x =>
    obtain ⟨A, B, rfl, ht, hA⟩ := h
    exact ⟨A, B ++ M, List.append_assoc .., ht, hA⟩
  | stop =>
    obtain ⟨A, x, B, rfl, ht, hA⟩ := h
    exact ⟨A, x, B ++ M, List.append_assoc .., ht, hA⟩
  | miss => exact absurd rfl hres

inductive Sound (R : Rules α) (want : α → Prop) : AugTree α → Prop
  | nil : Sound R want nil
  | node {l : AugTree α} {x : α} {r : AugTree α} (hl : Sound R want l) (hr : Sound R want r)
    (hfirst : R.first x l = false → ∀ y ∈ l.inorder, ¬ want y)
    (htest : R.test x = .next → ¬ want x)
    (hsecond : R.second r = false → ∀ y ∈ r.inorder, ¬ want y) : Sound R want (node l x r)

/-- A sound search finds the first wanted element, unless it is stopped before. -/
theorem Sound.says {t : AugTree α} (h : Sound R want t) :
    Says want R.test t.inorder (R.search t) := by
  induction h with
  | nil => exact fun y hy => absurd hy (List.not_mem_nil)
  | @node l x r _ _ hfirst htest hsecond ihl ihr =>
    have hleft : Says want R.test l.inorder (if R.first x l then R.search l else .miss) := by
      by_cases hf : R.first x l = true
      · rwa [if_pos hf]
      · rw [if_neg hf]
        exact hfirst (Bool.eq_false_iff.mpr hf)
    have hright : Says want R.test r.inorder (if R.second r then R.search r else .miss) := by
      by_cases hs : R.second r = true
      · rwa [if_pos hs]
      · rw [if_neg hs]
        exact hsecond (Bool.eq_false_iff.mpr hs)
    have hrest : Says want R.test (x :: r.inorder)
        (R.verdict x (if R.second r then R.search r else .miss)) := by
      unfold Rules.verdict
      cases ht : R.test x with
      | take => exact ⟨[], r.inorder, rfl, ht, fun y hy => absurd hy List.not_mem_nil⟩
      | stop => exact ⟨[], x, r.inorder, rfl, ht, fun y hy => absurd hy List.not_mem_nil⟩
      | next =>
        apply hright.before (L := [x])
        intro y hy
        rw [List.mem_singleton.mp hy]
        exact htest ht
    simp only [Rules.search, AugTree.inorder]
    cases hres : (if R.first x l then R.search l else .miss : Result α) with
    | miss =>
      rw [hres] at hleft
      exact hrest.before hleft
    | hit y =>
      rw [hres] at hleft
      apply hleft.after
      rintro ⟨⟩
    | stop =>
      rw [hres] at hleft
      apply hleft.after
      rintro ⟨⟩

end Spec

def mirror : AugTree α → AugTree α
  | nil => nil
  | node l x r => node (mirror r) x (mirror l)

@[simp] theorem inorder_mirror (t : AugTree α) : (mirror t).inorder = t.inorder.reverse := by
  induction t with
  | nil => rfl
  | node l x r ihl ihr => simp [mirror, AugTree.inorder, ihl, ihr]

@[simp] theorem top_mirror (g : α → ℕ) (t : AugTree α) : (mirror t).top g = t.top g := by
  cases t <;> rfl

/-- The augmentation does not know left from right. -/
theorem ok_mirror {own g : α → ℕ} {S : Set α} {t : AugTree α} (h : t.Ok own g S) :
    (mirror t).Ok own g S := by
  induction t with
  | nil => trivial
  | node l x r ihl ihr =>
    obtain ⟨hl, hr, hx⟩ := h
    refine ⟨ihr hr, ihl hl, fun hS => ?_⟩
    rw [hx hS, aug, aug, top_mirror, top_mirror, max_comm (l.top g)]

/-- No element of a subtree exceeds what its root stores. -/
theorem own_le_top {own g : α → ℕ} {t : AugTree α} (h : t.Ok own g ∅) {y : α} (hy : y ∈ t.inorder) :
    own y ≤ t.top g := by
  induction t with
  | nil => exact absurd hy List.not_mem_nil
  | node l x r ihl ihr =>
    obtain ⟨hl, hr, hx⟩ := h
    have htop : (node l x r).top g = max (own x) (max (l.top g) (r.top g)) :=
      hx (Set.notMem_empty x)
    rw [htop]
    simp only [AugTree.inorder, List.mem_append, List.mem_cons] at hy
    rcases hy with hy | rfl | hy
    · exact (ihl hl hy).trans ((le_max_left _ _).trans (le_max_right _ _))
    · exact le_max_left _ _
    · exact (ihr hr hy).trans ((le_max_right _ _).trans (le_max_right _ _))

end TreeSearch
