import PtraceRemote.TreeSearch
import PtraceRemote.MmMap
import PtraceRemote.MmWf

/-! `unmapped_area` and `unmapped_area_topdown` with their alignment: the loop over the tree pruned
by `rb_subtree_gap`, what it returns, and when it gives up. -/
namespace PtraceRemote

open TreeSearch (Rules Result Sound Says mirror)

/-- `struct vm_unmapped_area_info` without the flag that chooses the direction. -/
structure VmUnmappedAreaInfo where
  length : BitVec 64
  lowLimit : BitVec 64
  highLimit : BitVec 64
  alignMask : BitVec 64
  alignOffset : BitVec 64

def upRules (mm : Mm) (length lowLimit highLimit : ℕ) : Rules VmaId where
  first x l := decide (lowLimit ≤ (mm.vma x).vmStart) && promising mm length l
  test x :=
    let gapStart := prevEnd mm x
    let gapEnd := (mm.vma x).vmStart
    if highLimit < gapStart then .stop
    else if lowLimit ≤ gapEnd ∧ length ≤ wsub gapEnd gapStart then .take
    else .next
  second r := promising mm length r

def downRules (mm : Mm) (length lowLimit highLimit : ℕ) : Rules VmaId where
  first x r := decide (prevEnd mm x ≤ highLimit) && promising mm length r
  test x :=
    let gapStart := prevEnd mm x
    let gapEnd := (mm.vma x).vmStart
    if gapEnd < lowLimit then .stop
    else if gapStart ≤ highLimit ∧ length ≤ wsub gapEnd gapStart then .take
    else .next
  second l := promising mm length l

def searchFrom (fuel : ℕ) (rules : Rules VmaId) (mm : Mm) (length : ℕ) (root : AugTree VmaId) :
    Option (Result VmaId) :=
  if promising mm length root then rules.loop fuel (.visit root []) else some .miss

def alignGapStart (info : VmUnmappedAreaInfo) (gapStart : ℕ) : ℕ :=
  wadd gapStart (wsub info.alignOffset.toNat gapStart &&& info.alignMask.toNat)

def alignGapEnd (info : VmUnmappedAreaInfo) (gapEnd : ℕ) : ℕ :=
  let gapEnd := wsub gapEnd info.length.toNat
  wsub gapEnd (wsub gapEnd info.alignOffset.toNat &&& info.alignMask.toNat)

def unmappedAreaLoop (fuel : ℕ) (mm : Mm) (info : VmUnmappedAreaInfo) : Option (Option ℕ) :=
  let length := wadd info.length.toNat info.alignMask.toNat
  if length < info.length.toNat then some none
  else if info.highLimit.toNat < length then some none
  else
    let highLimit := wsub info.highLimit.toNat length
    if highLimit < info.lowLimit.toNat then some none
    else
      let lowLimit := wadd info.lowLimit.toNat length
      (searchFrom fuel (upRules mm length lowLimit highLimit) mm length mm.mmRb).map fun
        | .hit x => some (alignGapStart info (max (prevEnd mm x) info.lowLimit.toNat))
        | .stop => none
        | .miss =>
          if highLimit < mm.highestVmEnd then none
          else some (alignGapStart info (max mm.highestVmEnd info.lowLimit.toNat))

def unmappedAreaTopdownLoop (fuel : ℕ) (mm : Mm) (info : VmUnmappedAreaInfo) : Option (Option ℕ) :=
  let length := wadd info.length.toNat info.alignMask.toNat
  if length < info.length.toNat then some none
  else if info.highLimit.toNat < length then some none
  else
    let highLimit := wsub info.highLimit.toNat length
    if highLimit < info.lowLimit.toNat then some none
    else
      let lowLimit := wadd info.lowLimit.toNat length
      if mm.highestVmEnd ≤ highLimit then some (some (alignGapEnd info info.highLimit.toNat))
      else
        (searchFrom fuel (downRules mm length lowLimit highLimit) mm length (mirror mm.mmRb)).map
          fun
          | .hit x => some (alignGapEnd info (min (mm.vma x).vmStart info.highLimit.toNat))
          | _ => none

/-! The order of the gaps. -/

section Order
variable {mm : Mm} {L A B : List VmaId} {x y : VmaId}

theorem prevEnd_eq (h : Wf mm (A ++ x :: B)) : prevEnd mm x = topEnd mm.core A := by
  unfold prevEnd topEnd
  rw [h.rep.prev_eq]
  cases A.getLast? <;> rfl

theorem le_topEnd (h : Ordered mm.core L) (hy : y ∈ L) : (mm.vma y).vmEnd ≤ topEnd mm.core L := by
  induction L using List.reverseRecOn with
  | nil => exact absurd hy List.not_mem_nil
  | append_singleton L z =>
    obtain ⟨-, hz, hsorted⟩ := ordered_append.1 h
    have htop : topEnd mm.core (L ++ [z]) = (mm.vma z).vmEnd := by
      rw [topEnd_append (List.cons_ne_nil _ _)]
      rfl
    rw [htop]
    rcases List.mem_append.mp hy with hy | hy
    · have hlt := (hz.area z (List.mem_singleton_self z)).lt
      exact (hsorted y hy z (List.mem_singleton_self z)).trans hlt.le
    · rw [List.mem_singleton.mp hy]

/-- The gap before an area lies behind all earlier areas. -/
theorem le_prevEnd (h : Wf mm (A ++ x :: B)) (hy : y ∈ A) : (mm.vma y).vmEnd ≤ prevEnd mm x := by
  rw [prevEnd_eq h]
  exact le_topEnd (ordered_append.1 h.ordered).1 hy

theorem prevEnd_le (h : Wf mm L) (hx : x ∈ L) : prevEnd mm x ≤ (mm.vma x).vmStart := by
  obtain ⟨A, B, rfl⟩ := List.append_of_mem hx
  rw [prevEnd_eq h]
  unfold topEnd
  cases hl : A.getLast? with
  | none => exact Nat.zero_le _
  | some p =>
    exact (ordered_append.1 h.ordered).2.2 p (List.mem_of_getLast? hl) x List.mem_cons_self

theorem vmEnd_le_highest (h : Wf mm L) (hx : x ∈ L) : (mm.vma x).vmEnd ≤ mm.highestVmEnd := by
  rw [h.highest]
  exact le_topEnd h.ordered hx

theorem wsub_gap (h : Wf mm L) (hx : x ∈ L) :
    wsub (mm.vma x).vmStart (prevEnd mm x) = (mm.vma x).vmStart-prevEnd mm x := by
  have harea := h.ordered.area x hx
  exact wsub_eq (prevEnd_le h hx) (lt_trans harea.lt harea.end_lt)

theorem ownGap_eq (h : Wf mm L) (hx : x ∈ L) : mm.ownGap x = (mm.vma x).vmStart-prevEnd mm x := by
  have hgap := wsub_gap h hx
  unfold Mm.ownGap
  unfold prevEnd at hgap ⊢
  cases hp : mm.vmPrev x with
  | none => rfl
  | some p =>
    rw [hp] at hgap
    exact hgap

/-- Areas in order, each ending where the gap before a later one starts or earlier. -/
theorem pairwise_prevEnd (h : Wf mm L) : L.Pairwise fun a b => (mm.vma a).vmEnd ≤ prevEnd mm b := by
  rw [List.pairwise_iff_forall_sublist]
  intro a b hab
  obtain ⟨A, B, hL, hb⟩ : ∃ A B, L = A ++ b :: B ∧ a ∈ A := by
    obtain ⟨A, C, rfl, hA, hC⟩ := List.cons_sublist_iff.mp hab
    obtain ⟨D, E, rfl⟩ := List.append_of_mem (List.singleton_sublist.mp hC)
    exact ⟨A ++ D, E, (List.append_assoc ..).symm, List.mem_append_left D hA⟩
  subst hL
  exact le_prevEnd h hb

end Order

/-! What the search is for. -/

def gaps (mm : Mm) (L : List VmaId) : List (ℕ × ℕ) :=
  L.map (fun x => (prevEnd mm x, (mm.vma x).vmStart)) ++ [(mm.highestVmEnd, 2^64)]

def Roomy (n low high : ℕ) (gap : ℕ × ℕ) : Prop := n ≤ min gap.2 high-max gap.1 low

instance (n low high : ℕ) (gap : ℕ × ℕ) : Decidable (Roomy n low high gap) :=
  inferInstanceAs (Decidable (_ ≤ _))

structure Admissible (mm : Mm) (L : List VmaId) (len low high a : ℕ) : Prop where
  low_le : low ≤ a
  le_high : a+len ≤ high
  free : ∀ x ∈ L, (mm.vma x).vmEnd ≤ a ∨ a+len ≤ (mm.vma x).vmStart

section Bounds
variable {mm : Mm} {L A B : List VmaId} {x y : VmaId} {n low high a gs ge : ℕ}

/-- The three tests of the loop say that the clipped gap is long enough. -/
theorem roomy_iff (hn : 0 < n) (hh : n ≤ high) (hl : low ≤ high-n) :
    Roomy n low high (gs, ge) ↔ low+n ≤ ge ∧ gs ≤ high-n ∧ gs+n ≤ ge := by
  unfold Roomy
  omega

/-- A range inside a clipped gap is admissible. -/
theorem admissible_of_gap (h : Wf mm L) (hx : x ∈ L) (h₁ : prevEnd mm x ≤ a) (h₂ : low ≤ a)
    (h₃ : a+n ≤ (mm.vma x).vmStart) (h₄ : a+n ≤ high) : Admissible mm L n low high a := by
  refine ⟨h₂, h₄, fun y hy => ?_⟩
  obtain ⟨A, B, rfl⟩ := List.append_of_mem hx
  rcases List.mem_append.mp hy with hy | hy
  · exact .inl ((le_prevEnd h hy).trans h₁)
  · rcases List.mem_cons.mp hy with rfl | hy
    · exact .inr h₃
    · obtain ⟨-, htail, -⟩ := ordered_append.1 h.ordered
      obtain ⟨harea, -, hbelow⟩ := ordered_cons.1 htail
      exact .inr (h₃.trans (harea.lt.le.trans (hbelow y hy)))

theorem admissible_of_highest (h : Wf mm L) (h₁ : mm.highestVmEnd ≤ a) (h₂ : low ≤ a)
    (h₃ : a+n ≤ high) :
    Admissible mm L n low high a :=
  ⟨h₂, h₃, fun _ hx => .inl ((vmEnd_le_highest h hx).trans h₁)⟩

/-- An admissible range lies in one of the gaps. -/
theorem Admissible.gap (ha : Admissible mm L n low high a) (h : Wf mm L) :
    (∃ x ∈ L, prevEnd mm x ≤ a ∧ a+n ≤ (mm.vma x).vmStart) ∨ mm.highestVmEnd ≤ a := by
  -- split the areas into those below the range and those above it
  have hsplit : ∀ B A, L = A ++ B → (∀ x ∈ A, (mm.vma x).vmEnd ≤ a) →
      (∃ x ∈ L, prevEnd mm x ≤ a ∧ a+n ≤ (mm.vma x).vmStart) ∨ ∀ x ∈ L, (mm.vma x).vmEnd ≤ a := by
    intro B
    induction B with
    | nil =>
      intro A hL hA
      rw [List.append_nil] at hL
      exact .inr (hL ▸ hA)
    | cons x B ih =>
      intro A hL hA
      have hx : x ∈ L := by simp [hL]
      rcases ha.free x hx with hend | hstart
      · apply ih (A ++ [x]) (by simp [hL])
        intro y hy
        rcases List.mem_append.mp hy with hy | hy
        · exact hA y hy
        · rw [List.mem_singleton.mp hy]
          exact hend
      · refine .inl ⟨x, hx, ?_, hstart⟩
        rw [prevEnd_eq (hL ▸ h)]
        unfold topEnd
        cases hl : A.getLast? with
        | none => exact Nat.zero_le _
        | some p => exact hA p (List.mem_of_getLast? hl)
  rcases hsplit L [] rfl (fun x hx => absurd hx List.not_mem_nil) with hgap | hall
  · exact .inl hgap
  · refine .inr ?_
    rw [h.highest]
    unfold topEnd
    cases hl : L.getLast? with
    | none => exact Nat.zero_le _
    | some p => exact hall p (List.mem_of_getLast? hl)

end Bounds

/-! The two loops find the first and the last gap with enough room. -/

section Search
variable {mm : Mm} {L : List VmaId} {x : VmaId} {n low high : ℕ}

def RoomyBefore (mm : Mm) (n low high : ℕ) (x : VmaId) : Prop :=
  Roomy n low high (prevEnd mm x, (mm.vma x).vmStart)

theorem not_roomy_of_ownGap (hn : 0 < n) (hh : n ≤ high) (hl : low ≤ high-n)
    (hlt : (mm.vma x).vmStart-prevEnd mm x < n) : ¬ RoomyBefore mm n low high x := by
  unfold RoomyBefore
  rw [roomy_iff hn hh hl]
  omega

/-- A subtree that does not look promising has no gap with enough room. -/
theorem not_roomy_of_promising (h : Wf mm L) (hn : 0 < n) (hh : n ≤ high) (hl : low ≤ high-n)
    {t : AugTree VmaId} (hok : t.Ok mm.ownGap mm.rbSubtreeGap ∅) (hmem : ∀ y ∈ t.inorder, y ∈ L)
    (hp : promising mm n t = false) : ∀ y ∈ t.inorder, ¬ RoomyBefore mm n low high y := by
  intro y hy
  apply not_roomy_of_ownGap hn hh hl
  rw [← ownGap_eq h (hmem y hy)]
  apply lt_of_le_of_lt (TreeSearch.own_le_top hok hy)
  cases t with
  | nil => exact absurd hy List.not_mem_nil
  | node l z r => exact Nat.not_le.mp (of_decide_eq_false hp)

theorem sound_upRules (h : Wf mm L) (hn : 0 < n) (hh : n ≤ high) (hl : low ≤ high-n)
    (t : AugTree VmaId) (hok : t.Ok mm.ownGap mm.rbSubtreeGap ∅) (hmem : ∀ y ∈ t.inorder, y ∈ L)
    (hpair : t.inorder.Pairwise fun a b => (mm.vma a).vmEnd ≤ prevEnd mm b) :
    Sound (upRules mm n (low+n) (high-n)) (RoomyBefore mm n low high) t := by
  induction t with
  | nil => exact .nil
  | node l x r ihl ihr =>
    obtain ⟨hokl, hokr, -⟩ := hok
    simp only [AugTree.inorder, List.mem_append, List.mem_cons] at hmem
    obtain ⟨hpl, hpr, hbefore⟩ := List.pairwise_append.mp hpair
    have hx : x ∈ L := hmem x (.inr (.inl rfl))
    have hml : ∀ y ∈ l.inorder, y ∈ L := fun y hy => hmem y (.inl hy)
    have hmr : ∀ y ∈ r.inorder, y ∈ L := fun y hy => hmem y (.inr (.inr hy))
    refine .node (ihl hokl hml hpl) (ihr hokr hmr (List.pairwise_cons.mp hpr).2) ?_ ?_ ?_
    · intro hfirst y hy
      rcases Bool.and_eq_false_iff.mp hfirst with hlow | hp
      · -- the gaps on the left end even lower
        have hend := hbefore y hy x List.mem_cons_self
        have hle := prevEnd_le h hx
        have hlt := (h.ordered.area y (hml y hy)).lt
        have hlow := of_decide_eq_false hlow
        change (mm.vma y).vmStart < (mm.vma y).vmEnd at hlt
        unfold RoomyBefore
        rw [roomy_iff hn hh hl]
        omega
      · exact not_roomy_of_promising h hn hh hl hokl hml hp y hy
    · intro htest
      simp only [upRules] at htest
      unfold RoomyBefore
      rw [roomy_iff hn hh hl]
      rintro ⟨h₁, h₂, h₃⟩
      rw [if_neg (by omega), wsub_gap h hx, if_pos ⟨h₁, by omega⟩] at htest
      cases htest
    · exact fun hp => not_roomy_of_promising h hn hh hl hokr hmr hp

theorem sound_downRules (h : Wf mm L) (hn : 0 < n) (hh : n ≤ high) (hl : low ≤ high-n)
    (t : AugTree VmaId) (hok : t.Ok mm.ownGap mm.rbSubtreeGap ∅) (hmem : ∀ y ∈ t.inorder, y ∈ L)
    (hpair : t.inorder.Pairwise fun a b => (mm.vma b).vmEnd ≤ prevEnd mm a) :
    Sound (downRules mm n (low+n) (high-n)) (RoomyBefore mm n low high) t := by
  induction t with
  | nil => exact .nil
  | node r x l ihr ihl =>
    obtain ⟨hokr, hokl, -⟩ := hok
    simp only [AugTree.inorder, List.mem_append, List.mem_cons] at hmem
    obtain ⟨hpr, hpl, hafter⟩ := List.pairwise_append.mp hpair
    have hx : x ∈ L := hmem x (.inr (.inl rfl))
    have hmr : ∀ y ∈ r.inorder, y ∈ L := fun y hy => hmem y (.inl hy)
    have hml : ∀ y ∈ l.inorder, y ∈ L := fun y hy => hmem y (.inr (.inr hy))
    refine .node (ihr hokr hmr hpr) (ihl hokl hml (List.pairwise_cons.mp hpl).2) ?_ ?_ ?_
    · intro hfirst y hy
      rcases Bool.and_eq_false_iff.mp hfirst with hhigh | hp
      · -- the gaps on the right start even higher
        have hend := hafter y hy x List.mem_cons_self
        have hle := prevEnd_le h hx
        have hlt := (h.ordered.area x hx).lt
        have hhigh := of_decide_eq_false hhigh
        change (mm.vma x).vmStart < (mm.vma x).vmEnd at hlt
        unfold RoomyBefore
        rw [roomy_iff hn hh hl]
        omega
      · exact not_roomy_of_promising h hn hh hl hokr hmr hp y hy
    · intro htest
      simp only [downRules] at htest
      unfold RoomyBefore
      rw [roomy_iff hn hh hl]
      rintro ⟨h₁, h₂, h₃⟩
      rw [if_neg (by omega), wsub_gap h hx, if_pos ⟨h₂, by omega⟩] at htest
      cases htest
    · exact fun hp => not_roomy_of_promising h hn hh hl hokl hml hp

def searched (rules : Rules VmaId) (mm : Mm) (length : ℕ) (root : AugTree VmaId) : Result VmaId :=
  if promising mm length root then rules.search root else .miss

theorem searchFrom_eq (rules : Rules VmaId) (mm : Mm) (length : ℕ) (root : AugTree VmaId) :
    ∃ N, ∀ fuel, N ≤ fuel →
      searchFrom fuel rules mm length root = some (searched rules mm length root) := by
  unfold searchFrom searched
  by_cases hp : promising mm length root = true
  · obtain ⟨N, hN⟩ := TreeSearch.ends_search rules root
    refine ⟨N, fun fuel hf => ?_⟩
    rw [if_pos hp, if_pos hp, hN fuel hf]
  · refine ⟨0, fun fuel _ => ?_⟩
    rw [if_neg hp, if_neg hp]

theorem says_searched (h : Wf mm L) (hn : 0 < n) (hh : n ≤ high) (hl : low ≤ high-n)
    {rules : Rules VmaId} {t : AugTree VmaId} (hok : t.Ok mm.ownGap mm.rbSubtreeGap ∅)
    (hmem : ∀ y ∈ t.inorder, y ∈ L) (hs : Sound rules (RoomyBefore mm n low high) t) :
    Says (RoomyBefore mm n low high) rules.test t.inorder (searched rules mm n t) := by
  unfold searched
  by_cases hp : promising mm n t = true
  · rw [if_pos hp]
    exact hs.says
  · rw [if_neg hp]
    exact not_roomy_of_promising h hn hh hl hok hmem (Bool.eq_false_iff.mpr hp)

def FirstRoomy (mm : Mm) (L : List VmaId) (n low high : ℕ) : Result VmaId → Prop
  | .hit x =>
    ∃ A B, L = A ++ x :: B ∧ RoomyBefore mm n low high x ∧ ∀ y ∈ A, ¬ RoomyBefore mm n low high y
  | .stop => (∀ y ∈ L, ¬ RoomyBefore mm n low high y) ∧ high-n < mm.highestVmEnd
  | .miss => ∀ y ∈ L, ¬ RoomyBefore mm n low high y

theorem firstRoomy_up (h : Wf mm L) (hn : 0 < n) (hh : n ≤ high) (hl : low ≤ high-n) :
    FirstRoomy mm L n low high (searched (upRules mm n (low+n) (high-n)) mm n mm.mmRb) := by
  have hin := h.rep.inorder
  have hsays := says_searched h hn hh hl h.rep.gaps (fun y hy => hin ▸ hy)
    (sound_upRules h hn hh hl mm.mmRb h.rep.gaps (fun y hy => hin ▸ hy) (hin ▸ pairwise_prevEnd h))
  rw [hin] at hsays
  cases hres : searched (upRules mm n (low+n) (high-n)) mm n mm.mmRb with
  | hit x =>
    rw [hres] at hsays
    obtain ⟨A, B, hL, htest, hA⟩ := hsays
    have hx : x ∈ L := by simp [hL]
    refine ⟨A, B, hL, ?_, hA⟩
    simp only [upRules] at htest
    unfold RoomyBefore
    rw [roomy_iff hn hh hl]
    split at htest
    · exact nomatch htest
    · split at htest
      next hroom =>
        rw [wsub_gap h hx] at hroom
        omega
      next => exact nomatch htest
  | stop =>
    rw [hres] at hsays
    obtain ⟨A, x, B, hL, htest, hA⟩ := hsays
    have hx : x ∈ L := by simp [hL]
    have hstart : high-n < prevEnd mm x := by
      simp only [upRules] at htest
      split at htest
      · assumption
      · split at htest <;> exact nomatch htest
    have hle := prevEnd_le h hx
    have hlt : (mm.vma x).vmStart < (mm.vma x).vmEnd := (h.ordered.area x hx).lt
    refine ⟨fun y hy => ?_, ?_⟩
    · rw [hL] at hy
      rcases List.mem_append.mp hy with hy | hy
      · exact hA y hy
      · -- from `x` on all gaps start too high
        have hlater : prevEnd mm x ≤ prevEnd mm y := by
          rcases List.mem_cons.mp hy with rfl | hy
          · exact le_rfl
          · have hpair := hL ▸ pairwise_prevEnd h
            have := (List.pairwise_cons.mp (List.pairwise_append.mp hpair).2.1).1 y hy
            omega
        unfold RoomyBefore
        rw [roomy_iff hn hh hl]
        omega
    · have := vmEnd_le_highest h hx
      omega
  | miss =>
    rw [hres] at hsays
    exact hsays

def LastRoomy (mm : Mm) (L : List VmaId) (n low high : ℕ) : Result VmaId → Prop
  | .hit x =>
    ∃ A B, L = A ++ x :: B ∧ RoomyBefore mm n low high x ∧ ∀ y ∈ B, ¬ RoomyBefore mm n low high y
  | _ => ∀ y ∈ L, ¬ RoomyBefore mm n low high y

theorem lastRoomy_down (h : Wf mm L) (hn : 0 < n) (hh : n ≤ high) (hl : low ≤ high-n) :
    LastRoomy mm L n low high
      (searched (downRules mm n (low+n) (high-n)) mm n (mirror mm.mmRb)) := by
  have hin :
      (mirror mm.mmRb).inorder = L.reverse := by rw [TreeSearch.inorder_mirror, h.rep.inorder]
  have hok := TreeSearch.ok_mirror h.rep.gaps
  have hmem : ∀ y ∈ (mirror mm.mmRb).inorder, y ∈ L := fun y hy => List.mem_reverse.mp (hin ▸ hy)
  have hpair : (mirror mm.mmRb).inorder.Pairwise fun a b => (mm.vma b).vmEnd ≤ prevEnd mm a := by
    rw [hin, List.pairwise_reverse]
    exact pairwise_prevEnd h
  have hsays := says_searched h hn hh hl hok hmem (sound_downRules h hn hh hl _ hok hmem hpair)
  rw [hin] at hsays
  have hback {A B : List VmaId} {x : VmaId} (hL : L.reverse = A ++ x :: B) :
      L = B.reverse ++ x :: A.reverse := by
    rw [← List.reverse_reverse L, hL]
    simp
  cases hres : searched (downRules mm n (low+n) (high-n)) mm n (mirror mm.mmRb) with
  | hit x =>
    rw [hres] at hsays
    obtain ⟨A, B, hL, htest, hA⟩ := hsays
    have hL := hback hL
    have hx : x ∈ L := by simp [hL]
    refine ⟨B.reverse, A.reverse, hL, ?_, fun y hy => hA y (List.mem_reverse.mp hy)⟩
    simp only [downRules] at htest
    unfold RoomyBefore
    rw [roomy_iff hn hh hl]
    split at htest
    · exact nomatch htest
    · split at htest
      next hroom =>
        rw [wsub_gap h hx] at hroom
        omega
      next => exact nomatch htest
  | stop =>
    rw [hres] at hsays
    obtain ⟨A, x, B, hL, htest, hA⟩ := hsays
    have hL := hback hL
    have hx : x ∈ L := by simp [hL]
    have hend : (mm.vma x).vmStart < low+n := by
      simp only [downRules] at htest
      split at htest
      · assumption
      · split at htest <;> exact nomatch htest
    intro y hy
    rw [hL] at hy
    rcases List.mem_append.mp hy with hy | hy
    · -- up to `x` all gaps end too low
      have hpair := hL ▸ pairwise_prevEnd h
      have hbefore := (List.pairwise_append.mp hpair).2.2 y hy x List.mem_cons_self
      have hle := prevEnd_le h hx
      have hlt : (mm.vma y).vmStart < (mm.vma y).vmEnd := (h.ordered.area y (by simp [hL, hy])).lt
      unfold RoomyBefore
      rw [roomy_iff hn hh hl]
      omega
    · rcases List.mem_cons.mp hy with rfl | hy
      · unfold RoomyBefore
        rw [roomy_iff hn hh hl]
        omega
      · exact hA y (List.mem_reverse.mp hy)
  | miss =>
    rw [hres] at hsays
    exact fun y hy => hsays y (List.mem_reverse.mpr hy)

end Search

end PtraceRemote
