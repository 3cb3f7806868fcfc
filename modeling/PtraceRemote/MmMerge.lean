import PtraceRemote.MmAdjust

/-! `vma_merge`: which areas a request can be merged with, and what the areas are afterwards, for a
request that lies in free space and for one that changes the flags of a part of an area. -/
namespace PtraceRemote

open AugTree (Balance)

variable {mm : Mm} {rb : Balance VmaId} {L A B : List VmaId} {x n : VmaId} {core : VmaId → Vma}
  {s : MmSys} {q : MergeReq} {prev : Option VmaId}

structure JoinsAfter (v : Vma) (q : MergeReq) : Prop where
  at_addr : v.vmEnd = q.addr
  file : v.vmFile = q.file
  flags : cleanFlags v.vmFlags = cleanFlags q.vmFlags
  pgoff : v.vmPgoff+BitVec.ofNat 64 v.pages = q.pgoff

structure JoinsBefore (v : Vma) (q : MergeReq) : Prop where
  at_end : q.end_ = v.vmStart
  file : v.vmFile = q.file
  flags : cleanFlags v.vmFlags = cleanFlags q.vmFlags
  pgoff : v.vmPgoff = q.pgoff+q.pglen

theorem joinsAfter_of {v : Vma} (h : mergesAfter v q = true) : JoinsAfter v.core q := by
  simp only [mergesAfter, Bool.and_eq_true, beq_iff_eq] at h
  obtain ⟨h₁, h₂, h₃⟩ := canVmaMergeAfter_spec h.2
  exact ⟨h.1.1, h₁, h₂, h₃⟩

theorem joinsBefore_of {v : Vma} (h : mergesBefore v q = true) : JoinsBefore v.core q := by
  simp only [mergesBefore, Bool.and_eq_true, beq_iff_eq] at h
  obtain ⟨h₁, h₂, h₃⟩ := canVmaMergeBefore_spec h.2
  exact ⟨h.1.1, h₁, h₂, h₃⟩

inductive FreeMerge (core : VmaId → Vma) (q : MergeReq) (A B : List VmaId) :
    VmaId → List VmaId → (VmaId → Vma) → ℤ → Prop where
  | after {A' : List VmaId} {p : VmaId} : A = A' ++ [p] → JoinsAfter (core p) q →
      FreeMerge core q A B p (A ++ B) (Function.update core p { core p with vmEnd := q.end_ }) 0
  | both {A' B' : List VmaId} {p n : VmaId} : A = A' ++ [p] → B = n :: B' → JoinsAfter (core p) q →
      JoinsBefore (core n) q → FreeMerge core q A B p (A ++ B')
        (Function.update core p { core p with vmEnd := (core n).vmEnd }) 1
  | before {B' : List VmaId} {n : VmaId} : B = n :: B' → JoinsBefore (core n) q →
      FreeMerge core q A B n (A ++ B) (Function.update core n
        { core n with vmStart := q.addr, vmPgoff := (core n).vmPgoff-q.pglen }) 0

theorem nextOf_eq {S : Set VmaId} (h : Rep mm (A ++ B) S) (hp : prev = A.getLast?) :
    mm.nextOf prev = B.head? := by
  rcases List.eq_nil_or_concat' A with rfl | ⟨A', p, rfl⟩
  · rw [hp]; exact h.head
  · rw [hp, List.getLast?_concat]
    rw [List.append_assoc] at h
    exact h.next_eq

/-- The adjustment decides: it fails and nothing has changed, or the areas are merged as planned. -/
theorem mergeResult_spec {P : VmaId → List VmaId → (VmaId → Vma) → ℤ → Prop} {y : VmaId}
    {r : ℤ × MmSys} {L' : List VmaId} {core' : VmaId → Vma} {file : Option FileId} {k : ℤ}
    (hr : (r.1 ≠ 0 ∧ Quiet s r.2) ∨ r.1 = 0 ∧ Adjusted s r.2 L' core' file k)
    (hP : P y L' core' k) :
    ((mergeResult y r).1 = none ∧ Quiet s (mergeResult y r).2) ∨ ∃ v L' core' k,
      (mergeResult y r).1 = some v ∧ P v L' core' k ∧
        Adjusted s (mergeResult y r).2 L' core' file k := by
  unfold mergeResult
  rcases hr with ⟨h, hq⟩ | ⟨h, hadj⟩
  · rw [if_pos h]; exact .inl ⟨rfl, hq⟩
  · rw [if_neg (not_not.2 h)]; exact .inr ⟨y, L', core', k, rfl, hP, hadj⟩

theorem eq_concat_of_getLast? {p : VmaId} (h : A.getLast? = some p) : ∃ A', A = A' ++ [p] := by
  rcases List.eq_nil_or_concat' A with rfl | ⟨A', p', rfl⟩
  · simp at h
  · rw [List.getLast?_concat] at h
    exact ⟨A', by rw [Option.some.inj h]⟩

theorem eq_cons_of_head? {b : VmaId} (h : B.head? = some b) : ∃ B', B = b :: B' := by
  cases B with
  | nil => simp at h
  | cons c cs => exact ⟨cs, by rw [show c = b by simpa using h]⟩

/-- Merging a request for free space. -/
theorem vmaMerge_free (rb : Balance VmaId) (h : Wf s.mm (A ++ B)) (hp : prev = A.getLast?)
    (hr : RangeOk q.addr q.end_) (hA : ∀ a ∈ A, (s.mm.core a).vmEnd ≤ q.addr)
    (hB : ∀ b ∈ B, q.end_ ≤ (s.mm.core b).vmStart) :
    ((vmaMerge rb s prev q).1 = none ∧ Quiet s (vmaMerge rb s prev q).2) ∨
      ∃ v L' core' k, (vmaMerge rb s prev q).1 = some v ∧ FreeMerge s.mm.core q A B v L' core' k ∧
        Adjusted s (vmaMerge rb s prev q).2 L' core' q.file k := by
  have harea : s.mm.nextOf prev = B.head? := nextOf_eq h.rep hp
  have hpast : s.mm.pastArea B.head? q.end_ = B.head? := by
    cases B with
    | nil => rfl
    | cons b bs =>
      have h₁ := hB b (by simp)
      have h₂ := (h.ordered.area b (by simp)).lt
      exact if_neg (show ¬(s.mm.core b).vmEnd = q.end_ by omega)
  unfold vmaMerge
  dsimp only
  rw [harea, hpast]
  split
  next => exact .inl ⟨rfl, Quiet.refl s⟩
  next =>
  split
  next p hpm =>
    -- the predecessor takes the request, and possibly the successor as well
    obtain ⟨hpp, hjoin⟩ := Option.filter_eq_some_iff.1 hpm
    obtain ⟨A', rfl⟩ := eq_concat_of_getLast? (hp.symm.trans hpp)
    have hja : JoinsAfter (s.mm.core p) q := joinsAfter_of hjoin
    have hplt := (h.ordered.area p (by simp)).lt
    split
    next n hnm =>
      obtain ⟨hnm, -⟩ := Option.filter_eq_some_iff.1 hnm
      obtain ⟨hnn, hbefore⟩ := Option.filter_eq_some_iff.1 hnm
      have hjb : JoinsBefore (s.mm.core n) q := joinsBefore_of hbefore
      obtain ⟨B', rfl⟩ := eq_cons_of_head? hnn
      rw [List.append_assoc] at h
      have := vmaAdjust_removeNext rb (s.mm.core p).vmPgoff h
      rw [hja.file] at this
      refine mergeResult_spec this ?_
      have hm : FreeMerge s.mm.core q (A' ++ [p]) (n :: B') p _ _ 1 := .both rfl rfl hja hjb
      rwa [List.append_assoc] at hm
    next hnm =>
      rw [List.append_assoc] at h
      have hA' : ∀ a ∈ A', (s.mm.core a).vmEnd ≤ (s.mm.core p).vmStart := fun a ha =>
        (ordered_append.1 h.ordered).2.2 a ha p (by simp)
      have hpr : RangeOk (s.mm.core p).vmStart q.end_ := by
        have h₁ := h.ordered.area p (by simp)
        have h₂ := hr.lt
        exact ⟨by rw [← hja.at_addr] at h₂; omega, h₁.start_dvd, hr.end_dvd, hr.end_lt⟩
      have := vmaAdjust_keep rb (s.mm.core p).vmPgoff (some p) q.file h hpr hA' hB
        (by rw [hja.at_addr]; exact hr.lt.le)
      refine mergeResult_spec (.inr this) ?_
      have hm : FreeMerge s.mm.core q (A' ++ [p]) B p _ _ 0 := .after rfl hja
      rwa [List.append_assoc] at hm
  next hpm =>
    split
    next n a hnm han =>
      obtain ⟨hnn, hbefore⟩ := Option.filter_eq_some_iff.1 hnm
      have hjb : JoinsBefore (s.mm.core n) q := joinsBefore_of hbefore
      obtain rfl : a = n := Option.some.inj (han.symm.trans hnn)
      obtain ⟨B', rfl⟩ := eq_cons_of_head? hnn
      have hcase4 : prev.filter (fun p => decide (q.addr < (s.mm.vma p).vmEnd)) = none := by
        refine Option.filter_eq_none_iff.2 fun p hpp => ?_
        obtain ⟨A', rfl⟩ := eq_concat_of_getLast? (hp.symm.trans hpp)
        have : (s.mm.vma p).vmEnd ≤ q.addr := hA p (by simp)
        simpa using this
      rw [hcase4]
      have hn := h.ordered.area a (by simp)
      have hnr : RangeOk q.addr (s.mm.core a).vmEnd := by
        have h₁ := hr.lt
        have h₂ := hn.lt
        exact ⟨by rw [hjb.at_end] at h₁; omega, hr.start_dvd, hn.end_dvd, hn.end_lt⟩
      have := vmaAdjust_keep rb ((s.mm.core a).vmPgoff-q.pglen) (some a) q.file h hnr hA
        (ordered_cons.1 (ordered_append.1 h.ordered).2.1).2.2 le_rfl
      exact mergeResult_spec (.inr this) (FreeMerge.before (A := A) rfl hjb)
    next => exact .inl ⟨rfl, Quiet.refl s⟩

inductive InsideMerge (core : VmaId → Vma) (q : MergeReq) (A : List VmaId) (x : VmaId)
    (B : List VmaId) :
    VmaId → List VmaId → (VmaId → Vma) → ℤ → Prop where
  | case4 {B' : List VmaId} {n : VmaId} : B = n :: B' → (core x).vmStart < q.addr →
      q.end_ = (core x).vmEnd → JoinsBefore (core n) q →
      InsideMerge core q A x B n (A ++ x :: B) (shifted core x n q.addr) 0
  | case5 {A' : List VmaId} {p : VmaId} : A = A' ++ [p] → q.addr = (core x).vmStart →
      q.end_ < (core x).vmEnd → JoinsAfter (core p) q →
      InsideMerge core q A x B p (A ++ x :: B) (shifted core p x q.end_) 0
  | case6 {A' B' : List VmaId} {p n : VmaId} : A = A' ++ [p] → B = n :: B' →
      q.addr = (core x).vmStart → q.end_ = (core x).vmEnd → JoinsAfter (core p) q →
      JoinsBefore (core n) q → InsideMerge core q A x B p (A ++ B')
        (Function.update core p { core p with vmEnd := (core n).vmEnd }) 2
  | case7 {A' : List VmaId} {p : VmaId} : A = A' ++ [p] → q.addr = (core x).vmStart →
      q.end_ = (core x).vmEnd → JoinsAfter (core p) q → InsideMerge core q A x B p (A ++ B)
        (Function.update core p { core p with vmEnd := (core x).vmEnd }) 1
  | case8 {B' : List VmaId} {n : VmaId} : B = n :: B' → q.addr = (core x).vmStart →
      q.end_ = (core x).vmEnd → JoinsBefore (core n) q → InsideMerge core q A x B n (A ++ n :: B')
        (Function.update core n
          { core n with vmStart := q.addr, vmPgoff := (core n).vmPgoff-q.pglen }) 1

/-- A request that starts behind the start of `x`: only its end can meet the next area. -/
theorem vmaMerge_behind (h : Wf s.mm (A ++ x :: B)) (hr : RangeOk q.addr q.end_)
    (hs : (s.mm.core x).vmStart < q.addr) (he : q.end_ ≤ (s.mm.core x).vmEnd) :
    ((vmaMerge rb s (some x) q).1 = none ∧ Quiet s (vmaMerge rb s (some x) q).2) ∨
      ∃ v L' core' k, (vmaMerge rb s (some x) q).1 = some v ∧
        InsideMerge s.mm.core q A x B v L' core' k ∧
          Adjusted s (vmaMerge rb s (some x) q).2 L' core' q.file k := by
  have hlt := hr.lt
  have harea : s.mm.nextOf (some x) = B.head? := h.rep.next_eq
  have hxB := (ordered_cons.1 (ordered_append.1 h.ordered).2.1).2.2
  have hpast : s.mm.pastArea B.head? q.end_ = B.head? := by
    cases B with
    | nil => rfl
    | cons b bs =>
      have h₁ := hxB b (by simp)
      have h₂ := (h.ordered.area b (by simp)).lt
      exact if_neg (show ¬(s.mm.core b).vmEnd = q.end_ by omega)
  have hafter : (some x).filter (fun p => mergesAfter (s.mm.vma p) q) = none := by
    refine Option.filter_eq_none_iff.2 fun p hp hj => ?_
    obtain rfl := Option.some.inj hp
    have : (s.mm.core x).vmEnd = q.addr := (joinsAfter_of hj).at_addr
    omega
  unfold vmaMerge
  dsimp only
  rw [harea, hpast, hafter]
  dsimp only
  split
  next => exact .inl ⟨rfl, Quiet.refl s⟩
  next =>
  split
  next n a hnm han =>
    obtain ⟨hnn, hbefore⟩ := Option.filter_eq_some_iff.1 hnm
    have hjb : JoinsBefore (s.mm.core n) q := joinsBefore_of hbefore
    obtain rfl : a = n := Option.some.inj (han.symm.trans hnn)
    obtain ⟨B', rfl⟩ := eq_cons_of_head? hnn
    have hend : q.end_ = (s.mm.core x).vmEnd := le_antisymm he (by
      rw [hjb.at_end]; exact hxB a (by simp))
    have hcase4 : (some x).filter (fun p => decide (q.addr < (s.mm.vma p).vmEnd)) = some x :=
      Option.filter_eq_some_iff.2 ⟨rfl, decide_eq_true (show q.addr < (s.mm.core x).vmEnd by omega)⟩
    rw [hcase4]
    have hx := h.ordered.area x (by simp)
    have hn := h.ordered.area a (by simp)
    have hjs := hjb.at_end
    have hxr : RangeOk (s.mm.core x).vmStart q.addr :=
      ⟨hs, hx.start_dvd, hr.start_dvd, by have := hx.end_lt; omega⟩
    have hadj := vmaAdjust_shift rb (some a) q.file h (hend.symm.trans hjs) hxr
      ⟨by have := hn.lt; omega, hr.start_dvd, hn.end_dvd, hn.end_lt⟩ (by omega)
    exact mergeResult_spec hadj (.case4 rfl hs hend hjb)
  next => exact .inl ⟨rfl, Quiet.refl s⟩

/-- A request for the start of `x`, or for all of it. Where `x` itself goes away, the file whose
reference is dropped is that of `x`. -/
theorem vmaMerge_front (h : Wf s.mm (A ++ x :: B)) (hr : RangeOk q.addr q.end_)
    (hs : q.addr = (s.mm.core x).vmStart) (he : q.end_ ≤ (s.mm.core x).vmEnd) :
    ((vmaMerge rb s A.getLast? q).1 = none ∧ Quiet s (vmaMerge rb s A.getLast? q).2) ∨
      ∃ v L' core' k file, (vmaMerge rb s A.getLast? q).1 = some v ∧
        InsideMerge s.mm.core q A x B v L' core' k ∧ (file = q.file ∨ file = (s.mm.core x).vmFile) ∧
        Adjusted s (vmaMerge rb s A.getLast? q).2 L' core' file k := by
  have hlt := hr.lt
  have hsame {res : Option VmaId × MmSys} : (∃ v L' core' k, res.1 = some v ∧
      InsideMerge s.mm.core q A x B v L' core' k ∧ Adjusted s res.2 L' core' q.file k) →
      ∃ v L' core' k file, res.1 = some v ∧ InsideMerge s.mm.core q A x B v L' core' k ∧
        (file = q.file ∨ file = (s.mm.core x).vmFile) ∧ Adjusted s res.2 L' core' file k := by
    rintro ⟨v, L', core', k, hv, hm, hadj⟩
    exact ⟨v, L', core', k, _, hv, hm, .inl rfl, hadj⟩
  have harea : s.mm.nextOf A.getLast? = some x := nextOf_eq h.rep rfl
  have hx := h.ordered.area x (by simp)
  obtain ⟨-, hxB, hAx⟩ := ordered_append.1 h.ordered
  have hxB := (ordered_cons.1 hxB).2.2
  have hpast : s.mm.pastArea (some x) q.end_ = if (s.mm.core x).vmEnd = q.end_ then B.head?
      else some x := by
    show (if (s.mm.core x).vmEnd = q.end_ then s.mm.vmNext x else some x) = _
    rw [h.rep.next_eq]
  -- a successor that the request can merge with lies behind all of `x`
  have hnext : ∀ n, (if (s.mm.core x).vmEnd = q.end_ then B.head? else some x) = some n →
      JoinsBefore (s.mm.core n) q → q.end_ = (s.mm.core x).vmEnd ∧ ∃ B', B = n :: B' := by
    intro n hn hj
    split at hn
    next hend => exact ⟨hend.symm, eq_cons_of_head? hn⟩
    next hend =>
      obtain rfl := Option.some.inj hn
      have := hj.at_end
      omega
  unfold vmaMerge
  dsimp only
  rw [harea, hpast]
  split
  next => exact .inl ⟨rfl, Quiet.refl s⟩
  next =>
  split
  next p hpm =>
    obtain ⟨hpp, hjoin⟩ := Option.filter_eq_some_iff.1 hpm
    have hja : JoinsAfter (s.mm.core p) q := joinsAfter_of hjoin
    obtain ⟨A', rfl⟩ := eq_concat_of_getLast? hpp
    have hp := h.ordered.area p (by simp)
    have hpa := hja.at_addr
    have hAA : ∀ C : List VmaId, (A' ++ [p]) ++ C = A' ++ p :: C := fun C => by simp
    rw [hAA] at h
    split
    next n hnm =>
      obtain ⟨hnm, -⟩ := Option.filter_eq_some_iff.1 hnm
      obtain ⟨hnn, hbefore⟩ := Option.filter_eq_some_iff.1 hnm
      have hjb : JoinsBefore (s.mm.core n) q := joinsBefore_of hbefore
      obtain ⟨hend, B', rfl⟩ := hnext n hnn hjb
      have := vmaAdjust_removeTwo rb (s.mm.core p).vmPgoff h
      rw [hja.file, ← hAA] at this
      exact (mergeResult_spec this (.case6 rfl rfl hs hend hja hjb)).imp_right hsame
    next hnm =>
      by_cases hend : q.end_ = (s.mm.core x).vmEnd
      · have := vmaAdjust_removeNext rb (s.mm.core p).vmPgoff h
        rw [hja.file, ← hAA, ← hend] at this
        refine (mergeResult_spec (P := InsideMerge s.mm.core q (A' ++ [p]) x B) this ?_).imp_right
          hsame
        rw [hend]
        exact .case7 rfl hs hend hja
      · have hpr : RangeOk (s.mm.core p).vmStart q.end_ :=
          ⟨by have := hp.lt; omega, hp.start_dvd, hr.end_dvd, hr.end_lt⟩
        have := vmaAdjust_shift rb (some p) q.file h (hpa.trans hs) hpr
          ⟨by omega, hr.end_dvd, hx.end_dvd, hx.end_lt⟩ (by omega)
        rw [← hAA] at this
        exact (mergeResult_spec this (.case5 rfl hs (by omega) hja)).imp_right hsame
  next hpm =>
    split
    next n a hnm han =>
      obtain ⟨hnn, hbefore⟩ := Option.filter_eq_some_iff.1 hnm
      have hjb : JoinsBefore (s.mm.core n) q := joinsBefore_of hbefore
      obtain ⟨hend, B', rfl⟩ := hnext n hnn hjb
      obtain rfl := Option.some.inj han
      have hcase4 : A.getLast?.filter (fun p => decide (q.addr < (s.mm.vma p).vmEnd)) = none := by
        refine Option.filter_eq_none_iff.2 fun p hpp => ?_
        have : (s.mm.vma p).vmEnd ≤ q.addr := hs ▸ hAx p (List.mem_of_getLast? hpp) x (by simp)
        simpa using this
      rw [hcase4]
      have := vmaAdjust_removeSelf rb ((s.mm.core n).vmPgoff-q.pglen) h hs
      refine (mergeResult_spec this (InsideMerge.case8 (A := A) rfl hs hend hjb)).imp_right ?_
      rintro ⟨v, L', core', k, hv, hm, hadj⟩
      exact ⟨v, L', core', k, _, hv, hm, .inr rfl, hadj⟩
    next => exact .inl ⟨rfl, Quiet.refl s⟩

end PtraceRemote
