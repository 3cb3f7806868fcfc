import Mathlib.Data.List.Nodup
import Mathlib.Data.Set.Insert
import Mathlib.Tactic.Common

/-!
# Binary trees with an augmented maximum

Every node stores the maximum of its own value and of what its children store. An update may leave
some nodes stale; walking from a stale node towards the root repairs it.
-/

inductive AugTree (α : Type) where
  | nil
  | node (l : AugTree α) (x : α) (r : AugTree α)
  deriving DecidableEq, Repr

namespace AugTree

variable {α : Type}

def inorder : AugTree α → List α
  | nil => []
  | node l x r => l.inorder ++ x :: r.inorder

def top (g : α → ℕ) : AugTree α → ℕ
  | nil => 0
  | node _ x _ => g x

def aug (own g : α → ℕ) (l : AugTree α) (x : α) (r : AugTree α) : ℕ :=
  max (own x) (max (l.top g) (r.top g))

def Ok (own g : α → ℕ) (S : Set α) : AugTree α → Prop
  | nil => True
  | node l x r => Ok own g S l ∧ Ok own g S r ∧ (x ∉ S → g x = aug own g l x r)

theorem top_congr {g g' : α → ℕ} {t : AugTree α} (h : ∀ y ∈ t.inorder, g' y = g y) :
    t.top g' = t.top g := by
  cases t with
  | nil => rfl
  | node l x r => exact h x (by simp [inorder])

/-- The condition reads the stored values of the tree's nodes, and the own values of those nodes
that have to be right. -/
theorem Ok.congr {own own' g g' : α → ℕ} {S S' : Set α} {t : AugTree α} (h : Ok own g S t)
    (hg : ∀ y ∈ t.inorder, g' y = g y) (ho : ∀ y ∈ t.inorder, y ∉ S' → y ∉ S ∧ own' y = own y) :
    Ok own' g' S' t := by
  induction t with
  | nil => trivial
  | node l x r ihl ihr =>
    obtain ⟨hl, hr, hx⟩ := h
    simp only [inorder, List.mem_append, List.mem_cons] at hg ho
    refine ⟨ihl hl (fun y hy => hg y (.inl hy)) fun y hy => ho y (.inl hy),
      ihr hr (fun y hy => hg y (.inr (.inr hy))) fun y hy => ho y (.inr (.inr hy)), fun hS => ?_⟩
    obtain ⟨hS', hown⟩ := ho x (.inr (.inl rfl)) hS
    rw [hg x (.inr (.inl rfl)), hx hS', aug, aug, hown,
      top_congr fun y hy => hg y (.inl hy), top_congr fun y hy => hg y (.inr (.inr hy))]

theorem Ok.mono {own g : α → ℕ} {S S' : Set α} {t : AugTree α} (h : Ok own g S t) (hS : S ⊆ S') :
    Ok own g S' t :=
  h.congr (fun _ _ => rfl) fun _ _ hy => ⟨fun hs => hy (hS hs), rfl⟩

def descend (goLeft : α → Bool) : AugTree α → List Bool
  | nil => []
  | node l x r => if goLeft x then true :: l.descend goLeft else false :: r.descend goLeft

def insertAt (x : α) : AugTree α → List Bool → AugTree α
  | nil, _ => node nil x nil
  | node l y r, true :: path => node (l.insertAt x path) y r
  | node l y r, false :: path => node l y (r.insertAt x path)
  | node l y r, [] => node l y r

theorem inorder_insertAt {goLeft : α → Bool} {t : AugTree α} {A B : List α} (x : α)
    (ht : t.inorder = A ++ B) (hA : ∀ y ∈ A, goLeft y = false) (hB : ∀ y ∈ B, goLeft y = true) :
    (t.insertAt x (t.descend goLeft)).inorder = A ++ x :: B := by
  induction t generalizing A B with
  | nil =>
    obtain ⟨rfl, rfl⟩ : A = [] ∧ B = [] := by simpa [inorder] using ht.symm
    rfl
  | node l y r ihl ihr =>
    rw [inorder] at ht
    cases hy : goLeft y with
    | true =>
      -- `y` belongs to `B`, so all of `A` is in the left subtree
      obtain ⟨C, hl, hC⟩ : ∃ C, l.inorder = A ++ C ∧ B = C ++ y :: r.inorder := by
        rcases List.append_eq_append_iff.1 ht with ⟨C, hA', hB'⟩ | ⟨C, hl, hB'⟩
        · cases C with
          | nil => exact ⟨[], by simpa using hA'.symm, by simpa using hB'.symm⟩
          | cons z zs =>
            obtain ⟨rfl, -⟩ : y = z ∧ r.inorder = zs ++ B := by simpa using hB'
            exact absurd (hA y (by simp [hA'])) (by simp [hy])
        · exact ⟨C, hl, hB'⟩
      have := ihl hl hA fun z hz => hB z (by simp [hC, hz])
      simp [descend, hy, insertAt, inorder, this, hC]
    | false =>
      obtain ⟨C, hr, hC⟩ : ∃ C, r.inorder = C ++ B ∧ A = l.inorder ++ y :: C := by
        rcases List.append_eq_append_iff.1 ht with ⟨C, hA', hB'⟩ | ⟨C, hl, hB'⟩
        · cases C with
          | nil =>
            have hB' : B = y :: r.inorder := by simpa using hB'.symm
            exact absurd (hB y (by simp [hB'])) (by simp [hy])
          | cons z zs =>
            obtain ⟨rfl, h⟩ : y = z ∧ r.inorder = zs ++ B := by simpa using hB'
            exact ⟨zs, h, hA'⟩
        · exact absurd (hB y (by simp [hB'])) (by simp [hy])
      have := ihr hr (fun z hz => hA z (by simp [hC, hz])) hB
      simp [descend, hy, insertAt, inorder, this, hC]

/-- A new leaf that stores 0 does not disturb its ancestors. -/
theorem Ok.insertAt {own g : α → ℕ} {S : Set α} {t : AugTree α} {x : α} (h : Ok own g S t)
    (hx : g x = 0) (goLeft : α → Bool) :
    Ok own g (insert x S) (t.insertAt x (t.descend goLeft)) := by
  have htop : ∀ t : AugTree α, (t.insertAt x (t.descend goLeft)).top g = t.top g := by
    intro t
    cases t with
    | nil => simpa [AugTree.insertAt, top] using hx
    | node l y r => simp only [descend]; split <;> rfl
  induction t with
  | nil => exact ⟨trivial, trivial, fun hS => absurd (Set.mem_insert _ _) hS⟩
  | node l y r ihl ihr =>
    obtain ⟨hl, hr, hy⟩ := h
    have hy' : y ∉ insert x S → g y = aug own g l y r := fun hS =>
      hy fun hs => hS (Set.mem_insert_of_mem _ hs)
    simp only [descend]
    split
    · refine ⟨ihl hl, hr.mono (Set.subset_insert _ _), fun hS => ?_⟩
      rw [hy' hS, aug, aug, htop l]
    · refine ⟨hl.mono (Set.subset_insert _ _), ihr hr, fun hS => ?_⟩
      rw [hy' hS, aug, aug, htop r]

section Propagate

variable [DecidableEq α]

def recompute (own g : α → ℕ) (l : AugTree α) (y : α) (r : AugTree α) : (α → ℕ) × Bool :=
  if g y = aug own g l y r then (g, false) else (Function.update g y (aug own g l y r), true)

def propagate (own : α → ℕ) (x : α) : AugTree α → (α → ℕ) → Option ((α → ℕ) × Bool)
  | nil, _ => none
  | node l y r, g =>
    if y = x then some (recompute own g l y r)
    else match l.propagate own x g with
      | some (g', changed) => some (if changed then recompute own g' l y r else (g', false))
      | none => match r.propagate own x g with
        | some (g', changed) => some (if changed then recompute own g' l y r else (g', false))
        | none => none

def repair (own : α → ℕ) (x : α) (t : AugTree α) (g : α → ℕ) : α → ℕ :=
  match t.propagate own x g with
  | some (g', _) => g'
  | none => g

structure Repaired (own g : α → ℕ) (S : Set α) (t : AugTree α) (g' : α → ℕ) (changed : Bool) :
    Prop where
  ok : Ok own g' S t
  frame : ∀ y, y ∉ t.inorder → g' y = g y
  same : changed = false → t.top g' = t.top g

theorem repaired_recompute {own g g' : α → ℕ} {S : Set α} {l r : AugTree α} {y : α}
    (hnd : (node l y r).inorder.Nodup) (hl : Ok own g' S l) (hr : Ok own g' S r)
    (hfr : ∀ z, z ∉ (node l y r).inorder → g' z = g z) (hy : g' y = g y) :
    Repaired own g S (node l y r) (recompute own g' l y r).1 (recompute own g' l y r).2 := by
  obtain ⟨hyl, hyr⟩ : y ∉ l.inorder ∧ y ∉ r.inorder := by
    obtain ⟨-, h₂, h₃⟩ := List.nodup_append.1 hnd
    exact ⟨fun h => h₃ y h y (by simp) rfl, (List.nodup_cons.1 h₂).1⟩
  have hup : ∀ (v : ℕ) (z : α), z ≠ y → Function.update g' y v z = g' z :=
    fun v z hz => Function.update_of_ne hz _ _
  unfold recompute
  split
  next he => exact ⟨⟨hl, hr, fun _ => he⟩, hfr, fun _ => hy⟩
  next he =>
    have hl' : ∀ z ∈ l.inorder, Function.update g' y (aug own g' l y r) z = g' z :=
      fun z hz => hup _ z fun h => hyl (h ▸ hz)
    have hr' : ∀ z ∈ r.inorder, Function.update g' y (aug own g' l y r) z = g' z :=
      fun z hz => hup _ z fun h => hyr (h ▸ hz)
    refine ⟨⟨hl.congr hl' fun _ _ h => ⟨h, rfl⟩, hr.congr hr' fun _ _ h => ⟨h, rfl⟩, fun _ => ?_⟩,
      fun z hz => ?_, nofun⟩
    · change Function.update g' y (aug own g' l y r) y = _
      rw [Function.update_self]
      conv_rhs => rw [aug, top_congr hl', top_congr hr']
      rfl
    · exact (hup _ z fun h => hz (by simp [inorder, h])).trans (hfr z hz)

theorem propagate_none {own : α → ℕ} {x : α} {t : AugTree α} {g : α → ℕ} (hx : x ∉ t.inorder) :
    t.propagate own x g = none := by
  induction t with
  | nil => rfl
  | node l y r ihl ihr =>
    simp only [inorder, List.mem_append, List.mem_cons, not_or] at hx
    simp only [propagate, if_neg (Ne.symm hx.2.1), ihl hx.1, ihr hx.2.2]

/-- One step of the walk above a subtree that has been repaired. -/
theorem repaired_ancestor {own g g' : α → ℕ} {S : Set α} {l r : AugTree α} {y : α} {c : Bool}
    (hnd : (node l y r).inorder.Nodup) (hl : Ok own g' S l) (hr : Ok own g' S r)
    (hfr : ∀ z, z ∉ (node l y r).inorder → g' z = g z) (hy : g' y = g y)
    (hsame : c = false → l.top g' = l.top g ∧ r.top g' = r.top g)
    (hold : y ∉ S → g y = aug own g l y r) :
    ∃ g'' c', (if c then recompute own g' l y r else (g', false)) = (g'', c') ∧
      Repaired own g S (node l y r) g'' c' := by
  cases c with
  | true => exact ⟨_, _, rfl, repaired_recompute hnd hl hr hfr hy⟩
  | false =>
    obtain ⟨h₁, h₂⟩ := hsame rfl
    refine ⟨_, _, rfl, ⟨hl, hr, fun hS => ?_⟩, hfr, fun _ => hy⟩
    rw [hy, hold hS, aug, aug, h₁, h₂]

theorem propagate_repaired {own g : α → ℕ} {S : Set α} {t : AugTree α} {x : α}
    (h : Ok own g (insert x S) t) (hnd : t.inorder.Nodup) (hx : x ∈ t.inorder) :
    ∃ g' c, t.propagate own x g = some (g', c) ∧ Repaired own g S t g' c := by
  induction t with
  | nil => simp [inorder] at hx
  | node l y r ihl ihr =>
    obtain ⟨hl, hr, hy⟩ := h
    obtain ⟨hndl, hndr, hd⟩ := List.nodup_append.1 hnd
    obtain ⟨hyr, hndr⟩ := List.nodup_cons.1 hndr
    have hyl : y ∉ l.inorder := fun h => hd y h y (by simp) rfl
    have hdisj : ∀ z ∈ l.inorder, z ∉ r.inorder := fun z hz hz' => hd z hz z (by simp [hz']) rfl
    by_cases hyx : y = x
    · -- the walk starts at this node: both subtrees are free of `x`
      subst hyx
      refine ⟨_, _, by rw [propagate, if_pos rfl],
        repaired_recompute hnd ?_ ?_ (fun _ _ => rfl) rfl⟩
      · exact hl.congr (fun _ _ => rfl) fun z hz hS =>
          ⟨by rintro (rfl | h); exacts [hyl hz, hS h], rfl⟩
      · exact hr.congr (fun _ _ => rfl) fun z hz hS =>
          ⟨by rintro (rfl | h); exacts [hyr hz, hS h], rfl⟩
    · have hold : y ∉ S → g y = aug own g l y r := fun hS =>
        hy (by rintro (h | h); exacts [hyx h, hS h])
      by_cases hxl : x ∈ l.inorder
      · obtain ⟨g', c, hp, hrep⟩ := ihl hl hndl hxl
        have hgr : ∀ z ∈ r.inorder, g' z = g z := fun z hz => hrep.frame z fun h => hdisj z h hz
        have hr' : Ok own g' S r := hr.congr hgr fun z hz hS =>
          ⟨by rintro (rfl | h); exacts [hdisj _ hxl hz, hS h], rfl⟩
        obtain ⟨g'', c', he, hres⟩ := repaired_ancestor hnd hrep.ok hr'
          (fun z hz => hrep.frame z fun h => hz (by simp [inorder, h])) (hrep.frame y hyl)
          (fun hc => ⟨hrep.same hc, top_congr hgr⟩) hold
        exact ⟨g'', c', by rw [propagate, if_neg hyx, hp]; exact congrArg some he, hres⟩
      · have hxr : x ∈ r.inorder := by
          simp only [inorder, List.mem_append, List.mem_cons] at hx
          tauto
        obtain ⟨g', c, hp, hrep⟩ := ihr hr hndr hxr
        have hgl : ∀ z ∈ l.inorder, g' z = g z := fun z hz => hrep.frame z fun h => hdisj z hz h
        have hl' : Ok own g' S l := hl.congr hgl fun z hz hS =>
          ⟨by rintro (rfl | h); exacts [hxl hz, hS h], rfl⟩
        obtain ⟨g'', c', he, hres⟩ := repaired_ancestor hnd hl' hrep.ok
          (fun z hz => hrep.frame z fun h => hz (by simp [inorder, h])) (hrep.frame y hyr)
          (fun hc => ⟨top_congr hgl, hrep.same hc⟩) hold
        refine ⟨g'', c', ?_, hres⟩
        rw [propagate, if_neg hyx, propagate_none hxl]
        simp only [hp]
        exact congrArg some he

theorem Ok.repair {own g : α → ℕ} {S : Set α} {t : AugTree α} {x : α} (h : Ok own g (insert x S) t)
    (hnd : t.inorder.Nodup) (hx : x ∈ t.inorder) : Ok own (t.repair own x g) S t := by
  obtain ⟨g', c, hp, hrep⟩ := propagate_repaired h hnd hx
  rw [AugTree.repair, hp]
  exact hrep.ok

def refresh (own : α → ℕ) : AugTree α → (α → ℕ) → α → ℕ
  | nil, g => g
  | node l x r, g =>
    let g' := r.refresh own (l.refresh own g)
    Function.update g' x (aug own g' l x r)

theorem refresh_of_notMem {own g : α → ℕ} {t : AugTree α} {y : α} (hy : y ∉ t.inorder) :
    t.refresh own g y = g y := by
  induction t generalizing g with
  | nil => rfl
  | node l x r ihl ihr =>
    simp only [inorder, List.mem_append, List.mem_cons, not_or] at hy
    rw [refresh, Function.update_of_ne hy.2.1, ihr hy.2.2, ihl hy.1]

theorem ok_refresh {own g : α → ℕ} {t : AugTree α} (hnd : t.inorder.Nodup) :
    Ok own (t.refresh own g) ∅ t := by
  induction t generalizing g with
  | nil => trivial
  | node l x r ihl ihr =>
    obtain ⟨hndl, hndr, hd⟩ := List.nodup_append.1 hnd
    obtain ⟨hxr, hndr⟩ := List.nodup_cons.1 hndr
    have hxl : x ∉ l.inorder := fun h => hd x h x (by simp) rfl
    have hne : ∀ z v, z ≠ x →
        Function.update (r.refresh own (l.refresh own g)) x v z =
        r.refresh own (l.refresh own g) z :=
      fun z v hz => Function.update_of_ne hz _ _
    have hl : ∀ z ∈ l.inorder, (node l x r).refresh own g z = l.refresh own g z := fun z hz => by
      rw [refresh, hne z _ fun h => hxl (h ▸ hz),
        refresh_of_notMem fun h => hd z hz z (by simp [h]) rfl]
    have hr : ∀ z ∈ r.inorder,
        (node l x r).refresh own g z = r.refresh own (l.refresh own g) z := fun z hz => by
      rw [refresh, hne z _ fun h => hxr (h ▸ hz)]
    refine ⟨(ihl hndl).congr hl fun _ _ h => ⟨h, rfl⟩, (ihr hndr).congr hr fun _ _ h => ⟨h, rfl⟩,
      fun _ => ?_⟩
    rw [aug, top_congr hl, top_congr hr, refresh, Function.update_self, aug]
    congr 2
    exact top_congr fun z hz => refresh_of_notMem fun h => hd z hz z (by simp [h]) rfl

def join : AugTree α → AugTree α → AugTree α
  | nil, r => r
  | node a x b, r => node a x (b.join r)

omit [DecidableEq α] in
theorem inorder_join (l r : AugTree α) : (l.join r).inorder = l.inorder ++ r.inorder := by
  induction l with
  | nil => rfl
  | node a x b _ ihb => simp [join, inorder, ihb]

def remove (x : α) : AugTree α → AugTree α
  | nil => nil
  | node l y r =>
    if y = x then l.join r
    else if x ∈ l.inorder then node (l.remove x) y r else node l y (r.remove x)

theorem inorder_remove {x : α} {t : AugTree α} (hnd : t.inorder.Nodup) :
    (t.remove x).inorder = t.inorder.erase x := by
  induction t with
  | nil => rfl
  | node l y r ihl ihr =>
    obtain ⟨hndl, hndr, hd⟩ := List.nodup_append.1 hnd
    obtain ⟨hyr, hndr⟩ := List.nodup_cons.1 hndr
    have hyl : y ∉ l.inorder := fun h => hd y h y (by simp) rfl
    rw [remove, inorder]
    split
    next h => subst h; rw [inorder_join, List.erase_append_right _ hyl, List.erase_cons_head]
    next h =>
      split
      next hxl => rw [inorder, ihl hndl, List.erase_append_left _ hxl]
      next hxl =>
        rw [inorder, ihr hndr, List.erase_append_right _ hxl,
          List.erase_cons_tail (by simpa using h)]

end Propagate

/-- A balancing scheme: after a leaf was linked, and to take a node out. It may restructure the tree
as it likes, but keeps the order and the stored values right where they were. -/
structure Balance (α : Type) [DecidableEq α] where
  insert : (α → ℕ) → (α → ℕ) → AugTree α → α → AugTree α × (α → ℕ)
  erase : (α → ℕ) → (α → ℕ) → AugTree α → α → AugTree α × (α → ℕ)
  inorder_insert : ∀ own g t x, t.inorder.Nodup → (insert own g t x).1.inorder = t.inorder
  ok_insert : ∀ own g t x, t.inorder.Nodup → t.Ok own g ∅ →
    (insert own g t x).1.Ok own (insert own g t x).2 ∅
  inorder_erase : ∀ own g t x, t.inorder.Nodup → (erase own g t x).1.inorder = t.inorder.erase x
  ok_erase : ∀ own g t x S, t.inorder.Nodup → t.Ok own g (Insert.insert x S) →
    (erase own g t x).1.Ok own (erase own g t x).2 S

def Balance.plain [DecidableEq α] : Balance α where
  insert _ g t _ := (t, g)
  erase own g t x := (t.remove x, (t.remove x).refresh own g)
  inorder_insert _ _ _ _ _ := rfl
  ok_insert _ _ _ _ _ h := h
  inorder_erase _ _ _ _ h := AugTree.inorder_remove h
  ok_erase own g t x S hnd _ := by
    have : (t.remove x).inorder.Nodup := by rw [AugTree.inorder_remove hnd]; exact hnd.erase x
    exact (AugTree.ok_refresh this).mono (Set.empty_subset S)

end AugTree
