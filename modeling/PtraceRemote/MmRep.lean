import PtraceRemote.Mm

/-! The five representations of the set of areas: list head, `vm_next`/`vm_prev`, tree, gaps and
count. `Rep` says that they show one list, with the gaps of the areas in `S` possibly stale; each
primitive of mm/mmap.c says which gaps it leaves stale. -/
namespace PtraceRemote

open AugTree (Balance)
open Linked (Seg)

structure Rep (mm : Mm) (L : List VmaId) (S : Set VmaId) : Prop where
  head : mm.mmap = L.head?
  seg : Seg mm.vmNext mm.vmPrev none L none
  nodup : L.Nodup
  inorder : mm.mmRb.inorder = L
  gaps : mm.mmRb.Ok mm.ownGap mm.rbSubtreeGap S
  count : mm.mapCount = L.length
  fresh : ∀ x ∈ L, x < mm.nextId

variable {mm : Mm} {rb : Balance VmaId} {L A B : List VmaId} {S S' : Set VmaId} {x y : VmaId}

theorem Rep.next_eq (h : Rep mm (A ++ x :: B) S) : mm.vmNext x = B.head? := by
  simpa using h.seg.next_eq

theorem Rep.prev_eq (h : Rep mm (A ++ x :: B) S) : mm.vmPrev x = A.getLast? := by
  simpa using h.seg.prev_eq

theorem notMem_of_nodup (h : (A ++ x :: B).Nodup) : x ∉ A ∧ x ∉ B := by
  simpa using (List.nodup_cons.1 (List.nodup_middle.1 h)).1

theorem Rep.notMem (h : Rep mm (A ++ x :: B) S) : x ∉ A ∧ x ∉ B := notMem_of_nodup h.nodup

/-- Only areas change; the gaps have to be right wherever the areas' own gaps still are. -/
theorem Rep.reshape (h : Rep mm L S) (vma' : VmaId → Vma)
    (ho : ∀ y ∈ L, y ∉ S' → y ∉ S ∧ { mm with vma := vma' }.ownGap y = mm.ownGap y) :
    Rep { mm with vma := vma' } L S' :=
  ⟨h.head, h.seg, h.nodup, h.inorder,
    h.gaps.congr (fun _ _ => rfl) fun y hy => ho y (h.inorder ▸ hy), h.count, h.fresh⟩

/-- Moving the bounds of `x` makes its own gap and the gap of its successor stale. -/
theorem Rep.setBounds (h : Rep mm (A ++ x :: B) S) {start end_ : ℕ} {pgoff : BitVec 64}
    (hS : S ⊆ S') (hx : start = (mm.vma x).vmStart ∨ x ∈ S')
    (hn : end_ = (mm.vma x).vmEnd ∨ ∀ y, B.head? = some y → y ∈ S') :
    Rep (mm.setBounds x start end_ pgoff) (A ++ x :: B) S' := by
  refine h.reshape _ fun y hy hyS => ⟨fun hs => hyS (hS hs), ?_⟩
  have hstart : (Function.update mm.vma x { mm.vma x with
      vmStart := start, vmEnd := end_, vmPgoff := pgoff } y).vmStart = (mm.vma y).vmStart := by
    by_cases hyx : y = x
    · subst hyx; simpa using hx.resolve_right hyS
    · rw [Function.update_of_ne hyx]
  unfold Mm.ownGap
  dsimp only
  cases hp : mm.vmPrev y with
  | none => exact hstart
  | some p =>
    by_cases hpx : p = x
    · -- `y` follows `x`, so `x` has kept its end
      subst hpx
      have hend := hn.resolve_right fun hall => hyS (hall y (h.seg.head_of_prev h.nodup hy hp))
      exact congrArg₂ wsub hstart (by rw [Function.update_self, ← hend])
    · exact congrArg₂ wsub hstart (by rw [Function.update_of_ne hpx])

theorem Rep.gapUpdate (h : Rep mm L (insert y S)) (hy : y ∈ L) : Rep (vmaGapUpdate mm y) L S :=
  ⟨h.head, h.seg, h.nodup, h.inorder,
    h.gaps.repair (h.inorder ▸ h.nodup) (h.inorder ▸ hy), h.count, h.fresh⟩

theorem Rep.mono (h : Rep mm L S) (hS : S ⊆ S') : Rep mm L S' :=
  { h with gaps := h.gaps.mono hS }

/-- Repairing the gap after the areas `A` when it is the only stale one. -/
theorem Rep.gapUpdateNext (h : Rep mm (A ++ B) {y | B.head? = some y}) :
    Rep (gapUpdateNext mm B.head?) (A ++ B) ∅ := by
  cases B with
  | nil => exact h.mono fun y hy => by simp at hy
  | cons b bs =>
    refine (h.mono fun y hy => ?_).gapUpdate (S := ∅) (y := b) (by simp)
    exact Set.mem_insert_iff.2 (.inl (by simpa using hy.symm))

theorem setLink_of_ne {f : VmaId → Option VmaId} {o v : Option VmaId} (h : o ≠ some y) :
    setLink f o v y = f y := by
  cases o with
  | none => rfl
  | some n => exact Function.update_of_ne (fun he => h (by rw [he])) _ _

theorem setLink_some {f : VmaId → Option VmaId} {v : Option VmaId} : setLink f (some y) v y = v :=
  Function.update_self ..

def headAfter (head prev next : Option VmaId) : Option VmaId :=
  match prev with
  | some _ => head
  | none => next

theorem headAfter_eq {M : List VmaId} : headAfter (A ++ (M ++ B)).head? A.getLast? B.head? =
    (A ++ B).head? := by
  cases A with
  | nil => rfl
  | cons a as => rw [List.getLast?_cons]; rfl

/-- Taking `x` out: its own stale gap disappears with it, the one after it becomes stale. -/
theorem Rep.unlink (h : Rep mm (A ++ x :: B) (insert x S)) {prev : Option VmaId}
    (hp : prev = none ∨ prev = A.getLast?) :
    Rep { vmaUnlinkCommon rb mm x prev with mapCount := mm.mapCount-1 } (A ++ B)
      (S ∪ {y | B.head? = some y}) := by
  have hprev : prev.or (mm.vmPrev x) = A.getLast? := by
    rw [h.prev_eq]; rcases hp with rfl | rfl <;> simp
  have hnext : mm.vmNext x = B.head? := h.next_eq
  have hnd := h.nodup
  have htree : mm.mmRb.inorder.Nodup := h.inorder ▸ hnd
  have horder : (rb.erase mm.ownGap mm.rbSubtreeGap mm.mmRb x).1.inorder = A ++ B := by
    rw [rb.inorder_erase _ _ _ _ htree, h.inorder, List.erase_append_right _ h.notMem.1,
      List.erase_cons_head]
  refine ⟨?_, ?_, ?_, horder, ?_, ?_, fun y hy => h.fresh y ?_⟩
  · show headAfter mm.mmap (prev.or (mm.vmPrev x)) (mm.vmNext x) = _
    rw [hprev, hnext, h.head]
    exact headAfter_eq (M := [x])
  · show Seg (setLink mm.vmNext (prev.or (mm.vmPrev x)) (mm.vmNext x))
      (setLink mm.vmPrev (mm.vmNext x) (prev.or (mm.vmPrev x))) none (A ++ B) none
    rw [hprev, hnext]
    refine Seg.cut (M := [x]) h.seg h.nodup (fun y _ hy => setLink_of_ne hy) (fun y hy => ?_)
      (fun y _ hy => setLink_of_ne hy) fun y hy => ?_
    · rw [hy]; exact setLink_some
    · rw [hy]; exact setLink_some
  · exact (List.nodup_append.1 hnd).imp id
        (And.imp (fun h => (List.nodup_cons.1 h).2) fun h a ha b hb =>
      h a ha b (by simp [hb])) |> List.nodup_append.2
  · refine (rb.ok_erase _ _ _ _ S htree h.gaps).congr (fun _ _ => rfl) fun y hy hyS => ?_
    have hyS : y ∉ S ∧ B.head? ≠ some y := not_or.1 hyS
    refine ⟨hyS.1, ?_⟩
    have : (vmaUnlinkCommon rb mm x prev).vmPrev y = mm.vmPrev y := by
      show setLink mm.vmPrev (mm.vmNext x) (prev.or (mm.vmPrev x)) y = _
      rw [hnext, hprev]
      exact setLink_of_ne hyS.2
    unfold Mm.ownGap
    dsimp only
    rw [this]
    rfl
  · show mm.mapCount-1 = _
    rw [h.count]
    simp
    ring
  · simp only [List.mem_append, List.mem_cons] at hy ⊢
    tauto

/-- A range that an area can have: not empty, page aligned. -/
structure RangeOk (start end_ : ℕ) : Prop where
  lt : start < end_
  start_dvd : 4096 ∣ start
  end_dvd : 4096 ∣ end_
  end_lt : end_ < 2^64

abbrev AreaOk (v : Vma) : Prop := RangeOk v.vmStart v.vmEnd

structure Ordered (vma : VmaId → Vma) (L : List VmaId) : Prop where
  sorted : L.Pairwise fun a b => (vma a).vmEnd ≤ (vma b).vmStart
  area : ∀ x ∈ L, AreaOk (vma x)

theorem ordered_append {vma : VmaId → Vma} : Ordered vma (A ++ B) ↔ Ordered vma A ∧ Ordered vma B ∧
    ∀ a ∈ A, ∀ b ∈ B, (vma a).vmEnd ≤ (vma b).vmStart := by
  constructor
  · rintro ⟨hs, ha⟩
    obtain ⟨h₁, h₂, h₃⟩ := List.pairwise_append.1 hs
    exact ⟨⟨h₁, fun x hx => ha x (by simp [hx])⟩, ⟨h₂, fun x hx => ha x (by simp [hx])⟩, h₃⟩
  · rintro ⟨h₁, h₂, h₃⟩
    refine ⟨List.pairwise_append.2 ⟨h₁.sorted, h₂.sorted, h₃⟩, fun x hx => ?_⟩
    exact (List.mem_append.1 hx).elim (h₁.area x) (h₂.area x)

theorem ordered_cons {vma : VmaId → Vma} : Ordered vma (x :: B) ↔ AreaOk (vma x) ∧ Ordered vma B ∧
    ∀ b ∈ B, (vma x).vmEnd ≤ (vma b).vmStart := by
  constructor
  · rintro ⟨hs, ha⟩
    obtain ⟨h₁, h₂⟩ := List.pairwise_cons.1 hs
    exact ⟨ha x (by simp), ⟨h₂, fun y hy => ha y (by simp [hy])⟩, h₁⟩
  · rintro ⟨h₁, h₂, h₃⟩
    refine ⟨List.pairwise_cons.2 ⟨h₃, h₂.sorted⟩, fun y hy => ?_⟩
    rcases List.mem_cons.1 hy with rfl | hy
    exacts [h₁, h₂.area y hy]

theorem Ordered.congr {vma vma' : VmaId → Vma} (h : Ordered vma L) (hv : ∀ y ∈ L, vma' y = vma y) :
    Ordered vma' L := by
  refine ⟨h.sorted.imp_of_mem fun ha hb hab => ?_, fun y hy => hv y hy ▸ h.area y hy⟩
  rwa [hv _ ha, hv _ hb]

/-- `find_vma` finds the first area that ends above the address. -/
theorem findVmaIn_eq {vma : VmaId → Vma} {addr : ℕ} {t : AugTree VmaId} {found : Option VmaId}
    (h : Ordered vma t.inorder) : findVmaIn vma addr t found =
      (t.inorder.find? fun y => decide (addr < (vma y).vmEnd)).or found := by
  induction t generalizing found with
  | nil => rfl
  | node l x r ihl ihr =>
    rw [AugTree.inorder] at h ⊢
    obtain ⟨hl, hxr, hd⟩ := ordered_append.1 h
    obtain ⟨-, hr, -⟩ := ordered_cons.1 hxr
    rw [findVmaIn, List.find?_append, List.find?_cons]
    by_cases hx : addr < (vma x).vmEnd
    · rw [if_pos hx, decide_eq_true hx]
      -- `x` covers the address, so no area on the left ends above it
      by_cases hs : (vma x).vmStart ≤ addr
      · have : l.inorder.find? (fun y => decide (addr < (vma y).vmEnd)) = none := by
          refine List.find?_eq_none.2 fun y hy => ?_
          have := hd y hy x (by simp)
          simpa using this.trans hs
        rw [if_pos hs, this]; rfl
      · rw [if_neg hs, ihl hl]
        cases l.inorder.find? (fun y => decide (addr < (vma y).vmEnd)) <;> rfl
    · have : l.inorder.find? (fun y => decide (addr < (vma y).vmEnd)) = none := by
        refine List.find?_eq_none.2 fun y hy => ?_
        have h₁ := hd y hy x (by simp)
        have h₂ := (h.area x (by simp)).lt
        simp only [decide_eq_true_eq]
        omega
      rw [if_neg hx, ihr hr, this, decide_eq_false hx]; rfl

structure LinksAt (mm : Mm) (A B : List VmaId) (k : VmaLinks) : Prop where
  prev : k.prev = A.getLast?
  parent : A = [] → k.rbParent = B.head?
  down : ∃ goLeft : VmaId → Bool, k.rbLink = mm.mmRb.descend goLeft ∧
    (∀ a ∈ A, goLeft a = false) ∧ ∀ b ∈ B, goLeft b = true

theorem LinksAt.next_eq {k : VmaLinks} (hk : LinksAt mm A B k) (h : Rep mm (A ++ B) S) :
    (match k.prev with | some p => mm.vmNext p | none => k.rbParent) = B.head? := by
  rw [hk.prev]
  rcases List.eq_nil_or_concat' A with rfl | ⟨A', p, rfl⟩
  · exact hk.parent rfl
  · rw [List.append_assoc] at h
    rw [List.getLast?_concat]
    exact h.next_eq

/-- A new area is linked between `A` and `B`; the gap after it may have been stale. -/
theorem Rep.link (h : Rep mm (A ++ B) {y | B.head? = some y}) (hx : x ∉ A ++ B) (hf : x < mm.nextId)
    {k : VmaLinks} (hk : LinksAt mm A B k) : Rep (vmaLink rb mm x k) (A ++ x :: B) ∅ := by
  have hnext := hk.next_eq h
  obtain ⟨goLeft, hdown, hA, hB⟩ := hk.down
  -- the list comes first: only the gap after `x` depends on it
  set mm₁ := vmaLinkList mm x k.prev k.rbParent with hmm₁
  have hn₁ : mm₁.vmNext = Function.update (setLink mm.vmNext A.getLast? (some x)) x B.head? := by
    rw [← hnext, ← hk.prev]; rfl
  have hp₁ : mm₁.vmPrev = setLink (Function.update mm.vmPrev x A.getLast?) B.head? (some x) := by
    rw [← hnext, ← hk.prev]; rfl
  have hne : ∀ y ∈ A ++ B, y ≠ x := fun y hy he => hx (he ▸ hy)
  have hxB : B.head? ≠ some x := fun he => hx (List.mem_append_right _ (List.mem_of_head? he))
  have hxA : A.getLast? ≠ some x := fun he => hx (List.mem_append_left _ (List.mem_of_getLast? he))
  have hseg : Seg mm₁.vmNext mm₁.vmPrev none (A ++ x :: B) none := by
    rw [hn₁, hp₁]
    refine h.seg.insert h.nodup hx ?_ ?_ ?_ ?_ ?_ ?_
    · rw [setLink_of_ne hxB, Function.update_self]
    · rw [Function.update_self]
    · exact fun y hy hl => by rw [Function.update_of_ne hy, setLink_of_ne hl]
    · intro y hy
      rw [Function.update_of_ne (fun he : y = x => hxA (he ▸ hy)), hy, setLink_some]
    · exact fun y hy hl => by rw [setLink_of_ne hl, Function.update_of_ne hy]
    · exact fun y hy => by rw [hy, setLink_some]
  have hown : ∀ y ∈ A ++ B, B.head? ≠ some y → mm₁.ownGap y = mm.ownGap y := by
    intro y hy hl
    have : mm₁.vmPrev y = mm.vmPrev y := by
      rw [hp₁, setLink_of_ne hl, Function.update_of_ne (hne y hy)]
    unfold Mm.ownGap
    rw [this]
    rfl
  have hok₁ : mm₁.mmRb.Ok mm₁.ownGap mm₁.rbSubtreeGap {y | B.head? = some y} :=
    h.gaps.congr (fun _ _ => rfl) fun y hy hyS => ⟨hyS, hown y (h.inorder ▸ hy) hyS⟩
  -- then the gap after it is repaired, on the tree that does not have `x` yet
  have hord₁ : mm₁.mmRb.inorder = A ++ B := h.inorder
  have hnd₁ : mm₁.mmRb.inorder.Nodup := hord₁ ▸ h.nodup
  have hnx : mm₁.vmNext x = B.head? := by rw [hn₁, Function.update_self]
  have hok₂ : mm₁.mmRb.Ok mm₁.ownGap (gapAfterLink mm₁ x).rbSubtreeGap ∅ := by
    show mm₁.mmRb.Ok mm₁.ownGap (PtraceRemote.gapUpdateNext mm₁ (mm₁.vmNext x)).rbSubtreeGap ∅
    rw [hnx]
    cases B with
    | nil => exact hok₁.mono fun y hy => by simp at hy
    | cons b bs =>
      refine AugTree.Ok.repair (hok₁.mono fun y hy => ?_) hnd₁ (by simp [hord₁])
      exact Set.mem_insert_iff.2 (.inl (by simpa using hy.symm))
  -- the leaf enters with gap 0 and is then recomputed
  set g := Function.update (gapAfterLink mm₁ x).rbSubtreeGap x 0 with hg
  set t := mm₁.mmRb.insertAt x k.rbLink with ht
  have hordt : t.inorder = A ++ x :: B := by
    rw [ht, hdown]
    exact AugTree.inorder_insertAt x hord₁ hA hB
  have hndt : (A ++ x :: B).Nodup := by
    exact List.nodup_middle.2 (List.nodup_cons.2 ⟨hx, h.nodup⟩)
  have hokt : t.Ok mm₁.ownGap g {x} := by
    rw [ht, hdown]
    have hg₂ : mm₁.mmRb.Ok mm₁.ownGap g ∅ := hok₂.congr (fun y hy => by
      rw [hg, Function.update_of_ne (hne y (hord₁ ▸ hy))]) fun _ _ h => ⟨h, rfl⟩
    have := hg₂.insertAt (x := x) (by rw [hg, Function.update_self]) goLeft
    rw [insert_empty_eq] at this
    exact this
  have hok₃ : t.Ok mm₁.ownGap (t.repair mm₁.ownGap x g) ∅ :=
    AugTree.Ok.repair (by simpa using hokt) (hordt ▸ hndt) (by simp [hordt])
  refine ⟨?_, hseg, hndt, ?_, ?_, ?_, ?_⟩
  · show (match k.prev with | some _ => mm.mmap | none => some x) = _
    rw [hk.prev, h.head]
    cases A with
    | nil => rfl
    | cons a as => rw [List.getLast?_cons]; rfl
  · exact (rb.inorder_insert _ _ t x (hordt ▸ hndt)).trans hordt
  · exact rb.ok_insert _ _ t x (hordt ▸ hndt) hok₃
  · show mm.mapCount+1 = _
    rw [h.count]
    simp only [List.length_append, List.length_cons]
    push_cast
    ring
  · intro y hy
    show y < mm.nextId
    simp only [List.mem_append, List.mem_cons] at hy
    rcases hy with hy | rfl | hy
    · exact h.fresh y (by simp [hy])
    · exact hf
    · exact h.fresh y (by simp [hy])

theorem findVmaLinksIn_none {vma : VmaId → Vma} {addr end_ : ℕ} {t : AugTree VmaId}
    {prev parent : Option VmaId} (h : findVmaLinksIn vma addr end_ t prev parent = none) :
    ∃ x ∈ t.inorder, addr < (vma x).vmEnd ∧ (vma x).vmStart < end_ := by
  induction t generalizing prev parent with
  | nil => simp [findVmaLinksIn] at h
  | node l x r ihl ihr =>
    simp only [AugTree.inorder, List.mem_append, List.mem_cons]
    rw [findVmaLinksIn] at h
    split at h
    next hx =>
      split at h
      next hs => exact ⟨x, .inr (.inl rfl), hx, hs⟩
      next hs =>
        obtain ⟨y, hy, hy'⟩ := ihl (Option.map_eq_none_iff.1 h)
        exact ⟨y, .inl hy, hy'⟩
    next hx =>
      obtain ⟨y, hy, hy'⟩ := ihr (Option.map_eq_none_iff.1 h)
      exact ⟨y, .inr (.inr hy), hy'⟩

theorem findVmaLinksIn_some {vma : VmaId → Vma} {addr end_ : ℕ} {t : AugTree VmaId}
    {prev parent : Option VmaId} {k : VmaLinks} (ho : Ordered vma t.inorder)
    (h : findVmaLinksIn vma addr end_ t prev parent = some k) :
    ∃ A B, t.inorder = A ++ B ∧ (∀ a ∈ A, (vma a).vmEnd ≤ addr) ∧
      (∀ b ∈ B, addr < (vma b).vmEnd ∧ end_ ≤ (vma b).vmStart) ∧ k.prev = A.getLast?.or prev ∧
      (A = [] → k.rbParent = B.head?.or parent) ∧
      k.rbLink = t.descend fun y => decide (addr < (vma y).vmEnd) := by
  induction t generalizing prev parent k with
  | nil =>
    obtain rfl := Option.some.inj h
    exact ⟨[], [], rfl, nofun, nofun, rfl, fun _ => rfl, rfl⟩
  | node l x r ihl ihr =>
    obtain ⟨hl, hxr, hd⟩ := ordered_append.1 ho
    obtain ⟨hx', hr, hd'⟩ := ordered_cons.1 hxr
    rw [findVmaLinksIn] at h
    split at h
    -- descend to the left: `x` and all behind it lie above the range
    next hx =>
      split at h
      next => simp at h
      next hs =>
        obtain ⟨k', hk', rfl⟩ := Option.map_eq_some_iff.1 h
        obtain ⟨A, B, hAB, hA, hB, hp, hpar, hdown⟩ := ihl hl hk'
        refine ⟨A, B ++ x :: r.inorder, by rw [AugTree.inorder, hAB, List.append_assoc], hA, ?_, hp,
          fun hnil => ?_, ?_⟩
        · intro b hb
          rcases List.mem_append.1 hb with hb | hb
          · exact hB b hb
          rcases List.mem_cons.1 hb with rfl | hb
          · exact ⟨hx, by omega⟩
          · have h₁ := hd' b hb
            have h₂ := (hr.area b hb).lt
            have h₃ := hx'.lt
            exact ⟨by omega, by omega⟩
        · show k'.rbParent = _
          rw [hpar hnil]
          cases B <;> rfl
        · rw [AugTree.descend, decide_eq_true hx, if_pos rfl, hdown]
    -- descend to the right: `x` is the predecessor so far
    next hx =>
      obtain ⟨k', hk', rfl⟩ := Option.map_eq_some_iff.1 h
      obtain ⟨A, B, hAB, hA, hB, hp, hpar, hdown⟩ := ihr hr hk'
      refine ⟨l.inorder ++ x :: A, B, by rw [AugTree.inorder, hAB]; simp, ?_, hB, ?_, by simp, ?_⟩
      · intro a ha
        rcases List.mem_append.1 ha with ha | ha
        · have h₁ := hd a ha x (by simp)
          have h₂ := hx'.lt
          omega
        rcases List.mem_cons.1 ha with rfl | ha
        · omega
        · exact hA a ha
      · show k'.prev = _
        rw [hp, List.getLast?_append, List.getLast?_cons]
        cases A.getLast? <;> rfl
      · rw [AugTree.descend, decide_eq_false hx, if_neg Bool.false_ne_true, hdown]

theorem findVmaLinks_some {addr end_ : ℕ} {k : VmaLinks} (h : Rep mm L S) (ho : Ordered mm.vma L)
    (hk : findVmaLinks mm addr end_ = some k) : ∃ A B, L = A ++ B ∧ LinksAt mm A B k ∧
      (∀ a ∈ A, (mm.vma a).vmEnd ≤ addr) ∧ ∀ b ∈ B,
        addr < (mm.vma b).vmEnd ∧ end_ ≤ (mm.vma b).vmStart := by
  obtain ⟨A, B, hAB, hA, hB, hp, hpar, hdown⟩ := findVmaLinksIn_some (h.inorder ▸ ho) hk
  refine ⟨A, B, h.inorder ▸ hAB,
    ⟨by simpa using hp, fun hn => by simpa using hpar hn, _, hdown, ?_, ?_⟩, hA, hB⟩
  · exact fun a ha => by simpa using hA a ha
  · exact fun b hb => by simpa using (hB b hb).1

theorem split_unique {P : VmaId → Prop} {A' B' : List VmaId} (h : A ++ B = A' ++ B')
    (hA : ∀ a ∈ A, P a) (hB : ∀ b ∈ B, ¬P b) (hA' : ∀ a ∈ A', P a) (hB' : ∀ b ∈ B', ¬P b) :
    A = A' ∧ B = B' := by
  rcases List.append_eq_append_iff.1 h with ⟨C, hC, hC'⟩ | ⟨C, hC, hC'⟩
  · cases C with
    | nil => exact ⟨by simpa using hC.symm, by simpa using hC'⟩
    | cons c cs => exact absurd (hA' c (by simp [hC])) (hB c (by simp [hC']))
  · cases C with
    | nil => exact ⟨by simpa using hC, by simpa using hC'.symm⟩
    | cons c cs => exact absurd (hA c (by simp [hC])) (hB' c (by simp [hC']))

/-- Between areas that leave room for it, the place for `[addr, end_)` is found. -/
theorem findVmaLinks_at {addr end_ : ℕ} (h : Rep mm (A ++ B) S) (ho : Ordered mm.vma (A ++ B))
    (hlt : addr < end_) (hA : ∀ a ∈ A, (mm.vma a).vmEnd ≤ addr)
    (hB : ∀ b ∈ B, end_ ≤ (mm.vma b).vmStart) :
    ∃ k, findVmaLinks mm addr end_ = some k ∧ LinksAt mm A B k := by
  have hB' : ∀ b ∈ B, ¬(mm.vma b).vmEnd ≤ addr := fun b hb => by
    have h₁ := hB b hb
    have h₂ := (ho.area b (by simp [hb])).lt
    omega
  cases hk : findVmaLinks mm addr end_ with
  | none =>
    obtain ⟨x, hx, h₁, h₂⟩ := findVmaLinksIn_none hk
    rw [h.inorder] at hx
    rcases List.mem_append.1 hx with hx | hx
    · have := hA x hx; omega
    · have := hB x hx; omega
  | some k =>
    obtain ⟨A', B', hAB, hk', h₁, h₂⟩ := findVmaLinks_some h ho hk
    obtain ⟨rfl, rfl⟩ := split_unique (P := fun a => (mm.vma a).vmEnd ≤ addr) hAB hA hB' h₁
      fun b hb => by have := (h₂ b hb).1; omega
    exact ⟨k, rfl, hk'⟩

theorem findVmaLinks_none {addr end_ : ℕ} (h : Rep mm L S) (hk : findVmaLinks mm addr end_ = none) :
    ∃ x ∈ L, addr < (mm.vma x).vmEnd ∧ (mm.vma x).vmStart < end_ := by
  obtain ⟨x, hx, hx'⟩ := findVmaLinksIn_none hk
  exact ⟨x, h.inorder ▸ hx, hx'⟩

theorem findVma_eq {addr : ℕ} (h : Rep mm L S) (ho : Ordered mm.vma L) :
    findVma mm addr = L.find? fun y => decide (addr < (mm.vma y).vmEnd) := by
  rw [findVma, findVmaIn_eq (h.inorder ▸ ho), Option.or_none, h.inorder]

theorem findVma_some {addr : ℕ} (h : Rep mm L S) (ho : Ordered mm.vma L)
    (hx : findVma mm addr = some x) :
    ∃ A B, L = A ++ x :: B ∧ (∀ a ∈ A, (mm.vma a).vmEnd ≤ addr) ∧ addr < (mm.vma x).vmEnd := by
  rw [findVma_eq h ho] at hx
  obtain ⟨hlt, A, B, rfl, hA⟩ := List.find?_eq_some_iff_append.1 hx
  exact ⟨A, B, rfl, fun a ha => by simpa using hA a ha, by simpa using hlt⟩

theorem findVma_none {addr : ℕ} (h : Rep mm L S) (ho : Ordered mm.vma L)
    (hx : findVma mm addr = none) :
    ∀ a ∈ L, (mm.vma a).vmEnd ≤ addr := by
  rw [findVma_eq h ho] at hx
  exact fun a ha => by simpa using List.find?_eq_none.1 hx a ha

end PtraceRemote
