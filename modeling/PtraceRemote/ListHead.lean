import Mathlib.Data.List.Nodup
import Mathlib.Data.Set.Insert
import Mathlib.Tactic.Common

/-! Circular doubly linked lists with a head, where the nodes do not know which list they are on. A
family of such rings is described by its heads and what each of them holds. -/
namespace ListHead

structure Links (α : Type) where
  next : α → α
  prev : α → α

section Operations

variable {α : Type} [DecidableEq α]

def Links.init (l : Links α) (x : α) : Links α :=
  ⟨Function.update l.next x x, Function.update l.prev x x⟩

def Links.add (l : Links α) (x head : α) : Links α :=
  let n := l.next head
  ⟨Function.update (Function.update l.next x n) head x,
    Function.update (Function.update l.prev n x) x head⟩

def Links.delInit (l : Links α) (x : α) : Links α :=
  let p := l.prev x
  let n := l.next x
  Links.init ⟨Function.update l.next p n, Function.update l.prev n p⟩ x

def Links.isEmpty (l : Links α) (head : α) : Bool := l.next head == head

def Links.walk (l : Links α) (head : α) : ℕ → α → List α
  | 0, _ => []
  | n+1, x => if x = head then [] else x :: l.walk head n (l.next x)

def Links.toList (l : Links α) (head : α) (n : ℕ) : List α := l.walk head n (l.next head)

variable (l : Links α) (x h y : α)

theorem init_next : (l.init x).next y = if y = x then x else l.next y := Function.update_apply ..

theorem init_prev : (l.init x).prev y = if y = x then x else l.prev y := Function.update_apply ..

theorem add_next : (l.add x h).next y = if y = h then x else if y = x then l.next h
    else l.next y := by
  simp only [Links.add, Function.update_apply]

theorem add_prev : (l.add x h).prev y = if y = x then h else if y = l.next h then x
    else l.prev y := by
  simp only [Links.add, Function.update_apply]

theorem delInit_next :
    (l.delInit x).next y = if y = x then x else if y = l.prev x then l.next x else l.next y := by
  simp only [Links.delInit, Links.init, Function.update_apply]

theorem delInit_prev :
    (l.delInit x).prev y = if y = x then x else if y = l.next x then l.prev x else l.prev y := by
  simp only [Links.delInit, Links.init, Function.update_apply]

end Operations

variable {α : Type} {l l' : Links α} {a b h x : α} {A B xs ys : List α}

def Path (l : Links α) : α → List α → α → Prop
  | a, [], b => l.next a = b ∧ l.prev b = a
  | a, x :: xs, b => l.next a = x ∧ l.prev x = a ∧ Path l x xs b

theorem path_append : Path l a (A ++ x :: B) b ↔ Path l a A x ∧ Path l x B b := by
  induction A generalizing a with
  | nil => simp [Path, and_assoc]
  | cons y ys ih => simp [Path, ih, and_assoc]

theorem Path.frame (h : Path l a xs b) (hn : ∀ y ∈ a :: xs, l'.next y = l.next y)
    (hp : ∀ y, y ∈ xs ∨ y = b → l'.prev y = l.prev y) : Path l' a xs b := by
  induction xs generalizing a with
  | nil =>
    obtain ⟨h₁, h₂⟩ := h
    exact ⟨(hn a (by simp)).trans h₁, (hp b (by simp)).trans h₂⟩
  | cons y ys ih =>
    obtain ⟨h₁, h₂, h₃⟩ := h
    refine ⟨(hn a (by simp)).trans h₁, (hp y (by simp)).trans h₂,
      ih h₃ (fun z hz => hn z (by simp_all)) ?_⟩
    exact fun z hz => hp z (hz.imp_left fun hz => by simp [hz])

/-- The node before `x` and the one behind it. -/
theorem Path.prev_mem (hp : Path l a A x) : l.prev x ∈ a :: A := by
  induction A generalizing a with
  | nil => rw [hp.2]; simp
  | cons y ys ih => exact List.mem_cons_of_mem a (ih hp.2.2)

theorem Path.next_mem (hp : Path l x B b) : l.next x = b ∨ l.next x ∈ B := by
  cases B with
  | nil => exact .inl hp.1
  | cons y ys => rw [hp.1]; simp

/-- A path whose last pointer is redirected. -/
theorem Path.redirect (hp : Path l a A x) (hnd : (a :: A).Nodup) (hb : l'.next (l.prev x) = b)
    (hb' : l'.prev b = l.prev x) (hn : ∀ y ∈ a :: A, y ≠ l.prev x → l'.next y = l.next y)
    (hpr : ∀ y ∈ A, l'.prev y = l.prev y) : Path l' a A b := by
  induction A generalizing a with
  | nil =>
    have hax : l.prev x = a := hp.2
    rw [hax] at hb hb'
    exact ⟨hb, hb'⟩
  | cons y ys ih =>
    obtain ⟨h₁, h₂, h₃⟩ := hp
    have hne : a ≠ l.prev x := fun he => (List.nodup_cons.1 hnd).1 (he ▸ h₃.prev_mem)
    refine ⟨(hn a (by simp) hne).trans h₁, (hpr y (by simp)).trans h₂, ?_⟩
    exact ih h₃ (List.nodup_cons.1 hnd).2 (fun z hz => hn z (List.mem_cons_of_mem a hz))
      fun z hz => hpr z (List.mem_cons_of_mem y hz)

structure Ring (l : Links α) (h : α) (xs : List α) : Prop where
  path : Path l h xs h
  nodup : (h :: xs).Nodup

theorem Ring.next_mem (hr : Ring l h xs) : l.next h ∈ h :: xs := by
  cases xs with
  | nil => rw [hr.path.1]; simp
  | cons y ys => rw [hr.path.1]; simp

/-- A ring through which no pointer has changed. -/
theorem Ring.frame (hr : Ring l h xs) (hn : ∀ y ∈ h :: xs, l'.next y = l.next y)
    (hp : ∀ y ∈ h :: xs, l'.prev y = l.prev y) : Ring l' h xs :=
  ⟨hr.path.frame hn fun y hy => hp y (by rcases hy with hy | hy <;> simp [hy]), hr.nodup⟩

variable [DecidableEq α]

theorem Ring.isEmpty (hr : Ring l h xs) : l.isEmpty h = true ↔ xs = [] := by
  rw [Links.isEmpty, beq_iff_eq]
  cases xs with
  | nil => exact iff_of_true hr.path.1 rfl
  | cons y ys =>
    refine iff_of_false (fun he => ?_) (by simp)
    have hy : y = h := hr.path.1.symm.trans he
    exact (List.nodup_cons.1 hr.nodup).1 (by simp [hy])

theorem Path.walk_eq {n : ℕ} (hp : Path l a xs h) (hh : h ∉ xs) (hn : xs.length ≤ n) :
    l.walk h n (l.next a) = xs := by
  induction xs generalizing a n with
  | nil =>
    cases n with
    | zero => rfl
    | succ n => rw [Links.walk, if_pos hp.1]
  | cons y ys ih =>
    obtain ⟨n, rfl⟩ : ∃ m, n = m+1 := Nat.exists_eq_succ_of_ne_zero (by rintro rfl; simp at hn)
    rw [List.mem_cons, not_or] at hh
    rw [hp.1, Links.walk, if_neg (Ne.symm hh.1), ih hp.2.2 hh.2 (by simpa using hn)]

theorem Ring.toList_eq {n : ℕ} (hr : Ring l h xs) (hn : xs.length ≤ n) : l.toList h n = xs :=
  hr.path.walk_eq (List.nodup_cons.1 hr.nodup).1 hn

theorem ring_init (l : Links α) (x : α) : Ring (l.init x) x [] := by
  refine ⟨⟨?_, ?_⟩, List.nodup_singleton x⟩
  · rw [init_next, if_pos rfl]
  · rw [init_prev, if_pos rfl]

theorem Ring.add (hr : Ring l h xs) (hx : x ∉ h :: xs) : Ring (l.add x h) h (x :: xs) := by
  have hxh : x ≠ h := fun he => hx (by simp [he])
  have hnx : l.next h ≠ x := fun he => hx (he ▸ hr.next_mem)
  have hnext : (l.add x h).next x = l.next h := by rw [add_next, if_neg hxh, if_pos rfl]
  have hprev : (l.add x h).prev (l.next h) = x := by rw [add_prev, if_neg hnx, if_pos rfl]
  have hnodup : (h :: x :: xs).Nodup := by
    have := hr.nodup
    simp_all
    exact fun he => hxh he.symm
  refine ⟨⟨by rw [add_next, if_pos rfl], by rw [add_prev, if_pos rfl], ?_⟩, hnodup⟩
  cases xs with
  | nil =>
    have hn : l.next h = h := hr.path.1
    rw [hn] at hnext hprev
    exact ⟨hnext, hprev⟩
  | cons y ys =>
    obtain ⟨hn, -, hpath⟩ := hr.path
    rw [hn] at hnext hprev
    have hnot := (List.nodup_cons.1 hr.nodup).1
    refine ⟨hnext, hprev, hpath.frame (fun z hz => ?_) fun z hz => ?_⟩
    · have hzh : z ≠ h := fun he => hnot (he ▸ hz)
      have hzx : z ≠ x := fun he => hx (by rw [← he]; simp [hz])
      rw [add_next, if_neg hzh, if_neg hzx]
    · have hzy : z ≠ y := by
        rcases hz with hz | rfl
        · exact fun he => (List.nodup_cons.1 (List.nodup_cons.1 hr.nodup).2).1 (he ▸ hz)
        · exact fun he => hnot (by simp [he])
      have hzx : z ≠ x := by
        rcases hz with hz | rfl
        · exact fun he => hx (by rw [← he]; simp [hz])
        · exact hxh.symm
      rw [add_prev, hn, if_neg hzx, if_neg hzy]

theorem Ring.del (hr : Ring l h (A ++ x :: B)) : Ring (l.delInit x) h (A ++ B) := by
  obtain ⟨hpath, hnd⟩ := hr
  obtain ⟨hA, hB⟩ := path_append.1 hpath
  have hndA : (h :: A).Nodup := by
    have := hnd
    simp only [← List.cons_append] at this
    exact (List.nodup_append.1 this).1
  have hx : x ∉ h :: A := by
    have := hnd
    simp only [← List.cons_append] at this
    exact fun hmem => (List.nodup_append.1 this).2.2 x hmem x (by simp) rfl
  have hxB : x ∉ B := by
    have := (List.nodup_cons.1 hnd).2
    exact (List.nodup_cons.1 (List.nodup_append.1 this).2.1).1
  have hdisj : ∀ y ∈ h :: A, y ∉ B := by
    have := hnd
    simp only [← List.cons_append] at this
    exact fun y hy hyB => (List.nodup_append.1 this).2.2 y hy y (by simp [hyB]) rfl
  have hpx : l.prev x ≠ x := fun he => hx (he ▸ hA.prev_mem)
  have hnx : l.next x ≠ x := by
    rcases hB.next_mem with he | hmem
    · exact fun he' => hx (by rw [← he', he]; simp)
    · exact fun he' => hxB (he' ▸ hmem)
  have hnodup : (h :: (A ++ B)).Nodup := by
    refine List.Nodup.sublist ?_ hnd
    simp
  -- the pointers at the joint
  have hjoin :
      (l.delInit x).next (l.prev x) = l.next x := by rw [delInit_next, if_neg hpx, if_pos rfl]
  have hjoin' :
      (l.delInit x).prev (l.next x) = l.prev x := by rw [delInit_prev, if_neg hnx, if_pos rfl]
  have hfirst : ∀ b, l.next x = b → (∀ y ∈ A, y ≠ l.next x) → Path (l.delInit x) h A b := by
    intro b hb hAb
    rw [hb] at hjoin hjoin'
    refine hA.redirect hndA hjoin hjoin' (fun y hy hne => ?_) fun y hy => ?_
    · have hyx : y ≠ x := fun he => hx (he ▸ hy)
      rw [delInit_next, if_neg hyx, if_neg hne]
    · have hyx : y ≠ x := fun he => hx (by rw [← he]; simp [hy])
      rw [delInit_prev, if_neg hyx, if_neg (hAb y hy)]
  refine ⟨?_, hnodup⟩
  cases B with
  | nil =>
    rw [List.append_nil]
    refine hfirst h hB.1 fun y hy he => ?_
    rw [hB.1] at he
    exact (List.nodup_cons.1 hndA).1 (he ▸ hy)
  | cons y ys =>
    obtain ⟨hn, -, htail⟩ := hB
    refine path_append.2
      ⟨hfirst y hn fun z hz he => hdisj z (by simp [hz]) (by simp [he, hn]), htail.frame ?_ ?_⟩
    · intro z hz
      have hzx : z ≠ x := fun he => hxB (by rw [← he]; exact hz)
      have hzp : z ≠ l.prev x := fun he => hdisj _ hA.prev_mem (by rw [← he]; exact hz)
      rw [delInit_next, if_neg hzx, if_neg hzp]
    · intro z hz
      have hzx : z ≠ x := by
        rcases hz with hz | rfl
        · exact fun he => hxB (by rw [← he]; simp [hz])
        · exact fun he => hx (by simp [he])
      have hzy : z ≠ l.next x := by
        rw [hn]
        rcases hz with hz | rfl
        · have := (List.nodup_append.1 (List.nodup_cons.1 hnd).2).2.1
          exact fun he => (List.nodup_cons.1 (List.nodup_cons.1 this).2).1 (he ▸ hz)
        · exact fun he => hdisj z (by simp) (by simp [he])
      rw [delInit_prev, if_neg hzx, if_neg hzy]

structure Rings (l : Links α) (heads : Set α) (items : α → List α) : Prop where
  ring : ∀ h ∈ heads, Ring l h (items h)
  disjoint : ∀ h ∈ heads, ∀ h' ∈ heads, h ≠ h' → List.Disjoint (h :: items h) (h' :: items h')

variable {heads : Set α} {items : α → List α}

omit [DecidableEq α] in
theorem Rings.congr {heads' : Set α} {items' : α → List α} (hr : Rings l heads items)
    (hh : heads' = heads) (hi : ∀ k ∈ heads, items' k = items k) : Rings l heads' items' := by
  subst hh
  refine ⟨fun k hk => ?_, fun k hk k' hk' => ?_⟩
  · rw [hi k hk]
    exact hr.ring k hk
  · rw [hi k hk, hi k' hk']
    exact hr.disjoint k hk k' hk'

/-- The node `x` joins the list of `h`; its own ring is no longer part of the family. -/
theorem Rings.add (hr : Rings l heads items) (hx : x ∈ heads) (hh : h ∈ heads) (hne : x ≠ h) :
    Rings (l.add x h) (heads \ {x}) (Function.update items h (x :: items h)) := by
  have hd := hr.disjoint x hx h hh hne
  have hxh : x ∉ h :: items h := hd (by simp)
  refine ⟨fun k hk => ?_, fun k hk k' hk' hkk => ?_⟩
  · obtain ⟨hk, hkx⟩ := hk
    by_cases hkh : k = h
    · subst hkh
      rw [Function.update_self]
      exact (hr.ring k hk).add hxh
    · rw [Function.update_of_ne hkh]
      -- the other rings meet neither `x` nor the ring of `h`
      have hdx := hr.disjoint k hk x hx hkx
      have hdh := hr.disjoint k hk h hh hkh
      refine (hr.ring k hk).frame (fun y hy => ?_) fun y hy => ?_
      · have hyh : y ≠ h := fun he => hdh hy (by simp [he])
        have hyx : y ≠ x := fun he => hdx hy (by simp [he])
        rw [add_next, if_neg hyh, if_neg hyx]
      · have hyx : y ≠ x := fun he => hdx hy (by simp [he])
        have hyn : y ≠ l.next h := fun he => hdh hy (he ▸ (hr.ring h hh).next_mem)
        rw [add_prev, if_neg hyx, if_neg hyn]
  · -- every node is where it was, or is `x`, whose old ring is no longer there
    have hmem : ∀ {k y}, k ∈ heads \ {x} → y ∈ k :: Function.update items h (x :: items h) k →
        y ∈ k :: items k ∨ k = h ∧ y = x := by
      intro k y _ hy
      by_cases hkh : k = h
      · subst hkh
        rw [Function.update_self] at hy
        simp only [List.mem_cons] at hy ⊢
        tauto
      · rw [Function.update_of_ne hkh] at hy
        exact .inl hy
    intro y hy hy'
    have hxnot : ∀ {k}, k ∈ heads \ {x} → x ∉ k :: items k := fun hk hmem =>
      hr.disjoint x hx _ hk.1 (fun he => hk.2 he.symm) (by simp) hmem
    rcases hmem hk hy with h₁ | ⟨h₁, h₂⟩ <;> rcases hmem hk' hy' with h₃ | ⟨h₃, h₄⟩
    · exact hr.disjoint k hk.1 k' hk'.1 hkk h₁ h₃
    · exact hxnot hk (h₄ ▸ h₁)
    · exact hxnot hk' (h₂ ▸ h₃)
    · exact hkk (h₁.trans h₃.symm)

/-- The node `x` leaves the list of `h` and is alone. -/
theorem Rings.del (hr : Rings l heads items) (hh : h ∈ heads) (hi : items h = A ++ x :: B) :
    Rings (l.delInit x) (insert x heads)
      (Function.update (Function.update items h (A ++ B)) x []) := by
  have hring := hr.ring h hh
  rw [hi] at hring
  have hxh : x ≠ h := fun he => (List.nodup_cons.1 hring.nodup).1 (by simp [he])
  have hmid : x ∈ h :: items h := by rw [hi]; simp
  have hxnot : ∀ k ∈ heads, k ≠ h → x ∉ k :: items k := fun k hk hne hmem =>
    hr.disjoint k hk h hh hne hmem hmid
  have hxheads : x ∉ heads := fun hx => hr.disjoint x hx h hh hxh (by simp) hmid
  have hne : ∀ k ∈ heads, k ≠ x := fun k hk he => hxheads (he ▸ hk)
  obtain ⟨hA, hB⟩ := path_append.1 hring.path
  have hprev : l.prev x ∈ h :: items h := by
    have := hA.prev_mem
    rw [hi]
    simp only [List.mem_cons, List.mem_append] at this ⊢
    tauto
  have hnext : l.next x ∈ h :: items h := by
    rw [hi]
    rcases hB.next_mem with he | hmem
    · simp [he]
    · simp [hmem]
  refine ⟨fun k hk => ?_, fun k hk k' hk' hkk => ?_⟩
  · rcases Set.mem_insert_iff.1 hk with rfl | hk
    · rw [Function.update_self]
      refine ⟨⟨?_, ?_⟩, List.nodup_singleton k⟩
      · rw [delInit_next, if_pos rfl]
      · rw [delInit_prev, if_pos rfl]
    · rw [Function.update_of_ne (hne k hk)]
      by_cases hkh : k = h
      · subst hkh
        rw [Function.update_self]
        exact hring.del
      · rw [Function.update_of_ne hkh]
        have hd := hr.disjoint k hk h hh hkh
        refine (hr.ring k hk).frame (fun y hy => ?_) fun y hy => ?_
        · have hyx : y ≠ x := fun he => hxnot k hk hkh (he ▸ hy)
          have hyp : y ≠ l.prev x := fun he => hd hy (he ▸ hprev)
          rw [delInit_next, if_neg hyx, if_neg hyp]
        · have hyx : y ≠ x := fun he => hxnot k hk hkh (he ▸ hy)
          have hyn : y ≠ l.next x := fun he => hd hy (he ▸ hnext)
          rw [delInit_prev, if_neg hyx, if_neg hyn]
  · -- apart from `x`, which has its own ring now, every node was there before
    have hmem :
        ∀ {k y}, k ∈ heads → y ∈ k :: Function.update (Function.update items h (A ++ B)) x [] k →
          y ∈ k :: items k ∧ y ≠ x := by
      intro k y hk hy
      rw [Function.update_of_ne (hne k hk)] at hy
      by_cases hkh : k = h
      · subst hkh
        rw [Function.update_self] at hy
        refine ⟨?_, fun he => ?_⟩
        · rw [hi]
          simp only [List.mem_cons, List.mem_append] at hy ⊢
          tauto
        · have hnd := hring.nodup
          rw [he] at hy
          rcases List.mem_cons.1 hy with he' | hy
          · exact hxh he'
          · have hnd' := (List.nodup_cons.1 hnd).2
            rcases List.mem_append.1 hy with hy | hy
            · exact (List.nodup_append.1 hnd').2.2 x hy x (by simp) rfl
            · exact (List.nodup_cons.1 (List.nodup_append.1 hnd').2.1).1 hy
      · rw [Function.update_of_ne hkh] at hy
        exact ⟨hy, fun he => hxnot k hk hkh (he ▸ hy)⟩
    have halone :
        ∀ {y}, y ∈ x :: Function.update (Function.update items h (A ++ B)) x [] x → y = x := by
      intro y hy
      rw [Function.update_self] at hy
      simpa using hy
    intro y hy hy'
    rcases Set.mem_insert_iff.1 hk with rfl | h₁ <;> rcases Set.mem_insert_iff.1 hk' with rfl | h₂
    · exact hkk rfl
    · exact (hmem h₂ hy').2 (halone hy)
    · exact (hmem h₁ hy).2 (halone hy')
    · exact hr.disjoint k h₁ k' h₂ hkk (hmem h₁ hy).1 (hmem h₂ hy').1

/-- A node that has been on no list is set up. -/
theorem Rings.init (hr : Rings l heads items) (hx : ∀ k ∈ heads, x ∉ k :: items k) :
    Rings (l.init x) (insert x heads) (Function.update items x []) := by
  have hne : ∀ k ∈ heads, k ≠ x := fun k hk he => hx k hk (by simp [he])
  refine ⟨fun k hk => ?_, fun k hk k' hk' hkk => ?_⟩
  · rcases Set.mem_insert_iff.1 hk with rfl | hk
    · rw [Function.update_self]
      exact ring_init l k
    · rw [Function.update_of_ne (hne k hk)]
      refine (hr.ring k hk).frame (fun y hy => ?_) fun y hy => ?_
      · rw [init_next, if_neg]
        exact fun he => hx k hk (he ▸ hy)
      · rw [init_prev, if_neg]
        exact fun he => hx k hk (he ▸ hy)
  · intro y hy hy'
    rcases Set.mem_insert_iff.1 hk with rfl | h₁ <;> rcases Set.mem_insert_iff.1 hk' with rfl | h₂
    · exact hkk rfl
    · rw [Function.update_self, List.mem_singleton] at hy
      rw [Function.update_of_ne (hne k' h₂), hy] at hy'
      exact hx k' h₂ hy'
    · rw [Function.update_self, List.mem_singleton] at hy'
      rw [Function.update_of_ne (hne k h₁), hy'] at hy
      exact hx k h₁ hy
    · rw [Function.update_of_ne (hne k h₁)] at hy
      rw [Function.update_of_ne (hne k' h₂)] at hy'
      exact hr.disjoint k h₁ k' h₂ hkk hy hy'

end ListHead
