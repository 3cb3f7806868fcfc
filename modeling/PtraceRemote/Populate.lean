import PtraceRemote.MmWf

/-! The walk of `__mm_populate_task` over the areas of an address space, for any results of
`populate_vma_page_range`. -/
namespace PtraceRemote

structure PopulateResult where
  ret : ℤ
  dropped : Bool

structure PopulateCall where
  vma : VmaId
  start : ℕ
  end_ : ℕ
  /-- `mmap_sem` is held. -/
  held : Bool
  ret : ℤ

abbrev PopulateOracle := ℕ → ℕ → ℕ → PopulateResult

structure PopulateState where
  nstart : ℕ
  vma : Option VmaId := none
  locked : Bool := false
  sem : ℤ := 0
  calls : List PopulateCall := []

section
variable (mm : Mm) (pop : PopulateOracle) (end_ : ℕ) (ignoreErrors : Bool)

def populateLook (s : PopulateState) : Option PopulateState :=
  if s.locked = false then
    some { s with locked := true, sem := s.sem+1, vma := findVma mm s.nstart }
  else match s.vma with
    | none => none
    | some x => some (if (mm.vma x).vmEnd ≤ s.nstart then { s with vma := mm.vmNext x } else s)

def populateCall (s : PopulateState) (x : VmaId) (start nend : ℕ) : PopulateState :=
  let r := pop s.calls.length start nend
  { s with
    locked := !r.dropped
    sem := if r.dropped then s.sem-1 else s.sem
    calls := s.calls ++ [⟨x, start, nend, decide (0 < s.sem), r.ret⟩] }

def populateLoop : ℕ → PopulateState → Option (ℤ × PopulateState)
  | 0, _ => none
  | fuel+1, s =>
    if end_ ≤ s.nstart then some (0, s)
    else match populateLook mm s with
      | none => none
      | some s =>
        match s.vma with
        | none => some (0, s)
        | some x =>
          if end_ ≤ (mm.vma x).vmStart then some (0, s)
          else
            let nend := min end_ (mm.vma x).vmEnd
            if (mm.vma x).vmFlags.has (VM_PFNMAP ||| VM_IO) then
              populateLoop fuel { s with nstart := nend }
            else
              let nstart := if s.nstart < (mm.vma x).vmStart then (mm.vma x).vmStart else s.nstart
              let ret := (pop s.calls.length nstart nend).ret
              let s := populateCall pop s x nstart nend
              if ret < 0 then
                if ignoreErrors then populateLoop fuel { s with nstart := nend } else some (ret, s)
              else populateLoop fuel { s with nstart := wadd nstart (ret.toNat*4096) }

def mmPopulateTask (start len : ℕ) (fuel : ℕ) : Option (ℤ × PopulateState) :=
  (populateLoop mm pop (wadd start len) ignoreErrors fuel { nstart := start }).map fun r =>
    (r.1, if r.2.locked then { r.2 with sem := r.2.sem-1 } else r.2)

end

/-! What is asked of it. -/

/-- A number of pages of the range, at least one, or an error. -/
def PopulateOracle.Valid (pop : PopulateOracle) : Prop :=
  ∀ n start nend, start < nend → 4096 ∣ start → 4096 ∣ nend → (pop n start nend).ret < 0 ∨
    0 < (pop n start nend).ret ∧ start+(pop n start nend).ret.toNat*4096 ≤ nend

/-- The assertions of `populate_vma_page_range`, and a range inside the request. -/
structure PopulateCall.Ok (mm : Mm) (L : List VmaId) (start end_ : ℕ) (c : PopulateCall) :
    Prop where
  mem : c.vma ∈ L
  lt : c.start < c.end_
  start_dvd : 4096 ∣ c.start
  end_dvd : 4096 ∣ c.end_
  start_le : start ≤ c.start
  le_end : c.end_ ≤ end_
  vmStart_le : (mm.vma c.vma).vmStart ≤ c.start
  le_vmEnd : c.end_ ≤ (mm.vma c.vma).vmEnd
  held : c.held = true

def Attempted (calls : List PopulateCall) (x : VmaId) (p : ℕ) : Prop :=
  ∃ c ∈ calls, c.vma = x ∧ c.start ≤ p ∧ p < c.end_ ∧ (p < c.start+c.ret.toNat*4096 ∨ c.ret < 0)

def Mm.Populates (mm : Mm) (x : VmaId) : Prop :=
  (mm.vma x).vmFlags.has (VM_PFNMAP ||| VM_IO) = false

/-- Everything to be populated in `[start, upto)` has been attempted. -/
def AttemptedUpto (mm : Mm) (L : List VmaId) (start upto : ℕ) (calls : List PopulateCall) : Prop :=
  ∀ x ∈ L, mm.Populates x → ∀ p, start ≤ p → p < upto → (mm.vma x).vmStart ≤ p →
    p < (mm.vma x).vmEnd → Attempted calls x p

structure WalkInv (mm : Mm) (L : List VmaId) (start end_ : ℕ) (s : PopulateState) : Prop where
  start_le : start ≤ s.nstart
  nstart_dvd : 4096 ∣ s.nstart
  sem : s.sem = if s.locked then 1 else 0
  /-- The cached area is the first one that ends behind `nstart`, or the one before it. -/
  cached : s.locked = true → ∃ A x B, L = A ++ x :: B ∧ s.vma = some x ∧
    (∀ a ∈ A, (mm.vma a).vmEnd ≤ s.nstart) ∧ s.nstart ≤ (mm.vma x).vmEnd
  calls : ∀ c ∈ s.calls, c.Ok mm L start end_

structure PopulateInv (mm : Mm) (L : List VmaId) (start end_ : ℕ) (s : PopulateState) : Prop
    extends WalkInv mm L start end_ s where
  below : ∀ c ∈ s.calls, c.start < s.nstart
  ascending : s.calls.Pairwise fun c d => c.start < d.start
  attempted : AttemptedUpto mm L start s.nstart s.calls

structure Populated (mm : Mm) (L : List VmaId) (start end_ : ℕ) (s : PopulateState) : Prop where
  sem : s.sem = if s.locked then 1 else 0
  calls : ∀ c ∈ s.calls, c.Ok mm L start end_
  ascending : s.calls.Pairwise fun c d => c.start < d.start
  attempted : AttemptedUpto mm L start end_ s.calls

variable {mm : Mm} {L A B : List VmaId} {pop : PopulateOracle} {start end_ n fuel : ℕ}
  {s s' : PopulateState} {x : VmaId} {calls calls' : List PopulateCall}

theorem Attempted.mono {p : ℕ} (h : Attempted calls x p) (hsub : ∀ c ∈ calls, c ∈ calls') :
    Attempted calls' x p := by
  obtain ⟨c, hc, hrest⟩ := h
  exact ⟨c, hsub c hc, hrest⟩

/-- Only `x` has addresses between the cursor and its next position. -/
theorem AttemptedUpto.advance (h : AttemptedUpto mm L start n calls) (ho : Ordered mm.vma L)
    (hL : L = A ++ x :: B) (hA : ∀ a ∈ A, (mm.vma a).vmEnd ≤ n) {n' : ℕ}
    (hn : n' ≤ (mm.vma x).vmEnd) (hsub : ∀ c ∈ calls, c ∈ calls')
    (hx : mm.Populates x → ∀ p, n ≤ p → p < n' → (mm.vma x).vmStart ≤ p → Attempted calls' x p) :
    AttemptedUpto mm L start n' calls' := by
  intro y hy hpop p hstart hp hys hye
  by_cases hold : p < n
  · exact (h y hy hpop p hstart hold hys hye).mono hsub
  · rw [hL] at hy
    rcases List.mem_append.1 hy with hy | hy
    · have hend := hA y hy
      omega
    · rcases List.mem_cons.1 hy with rfl | hy
      · exact hx hpop p (not_lt.1 hold) hp hys
      · have hlater := (ordered_cons.1 (ordered_append.1 (hL ▸ ho)).2.1).2.2 y hy
        omega

/-- Every lookup ends where `find_vma` does, whether the lock was dropped or not. -/
theorem populateLook_eq (h : Wf mm L) (hi : WalkInv mm L start end_ s) :
    populateLook mm s = some { s with locked := true, sem := 1, vma := findVma mm s.nstart } := by
  have ho := ordered_core.1 h.ordered
  have hsem := hi.sem
  unfold populateLook
  cases hl : s.locked with
  | false =>
    rw [hl, if_neg (by simp)] at hsem
    rw [if_pos rfl, hsem]
    rfl
  | true =>
    obtain ⟨A, x, B, rfl, hx, hA, hle⟩ := hi.cached hl
    rw [hl, if_pos rfl] at hsem
    rw [if_neg (by simp), hx]
    dsimp only
    have hfind : findVma mm s.nstart = if (mm.vma x).vmEnd ≤ s.nstart then mm.vmNext x
        else some x := by
      rw [findVma_eq h.rep ho, List.find?_append, List.find?_eq_none.2 (by simpa using hA),
        Option.none_or]
      by_cases hend : (mm.vma x).vmEnd ≤ s.nstart
      · rw [if_pos hend, List.find?_cons_of_neg (by simpa using hend), h.rep.next_eq]
        -- the next area begins at the cursor or behind it
        cases B with
        | nil => rfl
        | cons y B =>
          have hnext := (ordered_cons.1 (ordered_append.1 ho).2.1).2.2 y List.mem_cons_self
          have hlt := (ho.area y (by simp)).lt
          rw [List.find?_cons_of_pos (by simp; omega)]
          rfl
      · rw [if_neg hend, List.find?_cons_of_pos (by simpa using hend)]
    rw [hfind]
    split
    · rw [← hsem, ← hl]
    · rw [← hsem, ← hl, ← hx]

theorem PopulateInv.ended (hi : PopulateInv mm L start end_ s) (hend : end_ ≤ s.nstart) :
    Populated mm L start end_ s :=
  ⟨hi.sem, hi.calls, hi.ascending,
    fun x hx hpop p hp hlt => hi.attempted x hx hpop p hp (hlt.trans_le hend)⟩

/-- The walk ends early where no area meets the rest of the range. -/
theorem PopulateInv.ended_early (hi : PopulateInv mm L start end_ s) {v : Option VmaId}
    (hnone : ∀ y ∈ L, (mm.vma y).vmEnd ≤ s.nstart ∨ end_ ≤ (mm.vma y).vmStart) :
    Populated mm L start end_ { s with locked := true, sem := 1, vma := v } := by
  refine ⟨rfl, hi.calls, hi.ascending, ?_⟩
  intro y hy hpop p hp hlt hys hye
  rcases hnone y hy with hbefore | hbehind
  · exact hi.attempted y hy hpop p hp (by omega) hys hye
  · omega

/-- The cursor moves on inside the first area behind it, and calls for that area are made. -/
theorem PopulateInv.advance (hi : PopulateInv mm L start end_ s) (ho : Ordered mm.vma L)
    (hL : L = A ++ x :: B) (hA : ∀ a ∈ A, (mm.vma a).vmEnd ≤ s.nstart) (hlt : s.nstart < n)
    (hle : n ≤ (mm.vma x).vmEnd) (hd : 4096 ∣ n) (locked : Bool) {new : List PopulateCall}
    (hnew : ∀ c ∈ new, c.Ok mm L start end_ ∧ s.nstart ≤ c.start ∧ c.start < n)
    (hone : new.length ≤ 1)
    (hx : mm.Populates x → ∀ p, s.nstart ≤ p → p < n → (mm.vma x).vmStart ≤ p →
      Attempted (s.calls ++ new) x p) :
    PopulateInv mm L start end_ ⟨n, some x, locked, if locked then 1 else 0, s.calls ++ new⟩ where
  start_le := hi.start_le.trans hlt.le
  nstart_dvd := hd
  sem := rfl
  cached _ := ⟨A, x, B, hL, rfl, fun a ha => (hA a ha).trans hlt.le, hle⟩
  calls c hc := by
    rcases List.mem_append.1 hc with hc | hc
    · exact hi.calls c hc
    · exact (hnew c hc).1
  below c hc := by
    rcases List.mem_append.1 hc with hc | hc
    · exact (hi.below c hc).trans hlt
    · exact (hnew c hc).2.2
  ascending := by
    refine List.pairwise_append.2 ⟨hi.ascending, ?_, fun c hc d hd => ?_⟩
    · match new, hone with
      | [], _ => exact List.Pairwise.nil
      | [c], _ => exact List.pairwise_singleton _ c
    · exact (hi.below c hc).trans_le (hnew d hd).2.1
  attempted := hi.attempted.advance ho hL hA hle (fun c hc => List.mem_append_left _ hc) hx

structure NextArea (mm : Mm) (L : List VmaId) (end_ : ℕ) (s : PopulateState) (A : List VmaId)
    (x : VmaId) (B : List VmaId) : Prop where
  split : L = A ++ x :: B
  before : ∀ a ∈ A, (mm.vma a).vmEnd ≤ s.nstart
  behind : s.nstart < (mm.vma x).vmEnd
  meets : (mm.vma x).vmStart < end_

def PopulateState.called (s : PopulateState) (x : VmaId) (start nend : ℕ) (r : PopulateResult)
    (nstart : ℕ) :
    PopulateState :=
  ⟨nstart, some x, !r.dropped, if !r.dropped then 1
    else 0, s.calls ++ [⟨x, start, nend, true, r.ret⟩]⟩

/-- One round: nothing is left to be done, an area is passed over, or a call is made. -/
theorem populateLoop_round (h : Wf mm L) (hi : WalkInv mm L start end_ s) (hlt : s.nstart < end_)
    (fuel : ℕ) :
    (∃ v, populateLoop mm pop end_ true (fuel+1) s =
      some (0, { s with locked := true, sem := 1, vma := v }) ∧
      ∀ y ∈ L, (mm.vma y).vmEnd ≤ s.nstart ∨ end_ ≤ (mm.vma y).vmStart) ∨
    ∃ A x B, NextArea mm L end_ s A x B ∧
      (¬mm.Populates x ∧ populateLoop mm pop end_ true (fuel+1) s =
        populateLoop mm pop end_ true fuel ⟨min end_ (mm.vma x).vmEnd, some x, true, 1, s.calls⟩ ∨
      let cursor := max s.nstart (mm.vma x).vmStart
      let nend := min end_ (mm.vma x).vmEnd
      let r := pop s.calls.length cursor nend
      mm.Populates x ∧ populateLoop mm pop end_ true (fuel+1) s = populateLoop mm pop end_ true fuel
        (s.called x cursor nend r
          (if r.ret < 0 then nend else wadd cursor (r.ret.toNat*4096)))) := by
  have ho := ordered_core.1 h.ordered
  rw [populateLoop, if_neg (not_le.2 hlt), populateLook_eq h hi]
  dsimp only
  cases hf : findVma mm s.nstart with
  | none => exact .inl ⟨none, rfl, fun y hy => .inl (findVma_none h.rep ho hf y hy)⟩
  | some x =>
    obtain ⟨A, B, hL, hA, hlt'⟩ := findVma_some h.rep ho hf
    dsimp only
    by_cases hbehind : end_ ≤ (mm.vma x).vmStart
    · rw [if_pos hbehind]
      refine .inl ⟨some x, rfl, fun y hy => ?_⟩
      rw [hL] at hy
      rcases List.mem_append.1 hy with hy | hy
      · exact .inl (hA y hy)
      · rcases List.mem_cons.1 hy with rfl | hy
        · exact .inr hbehind
        · have hlater := (ordered_cons.1 (ordered_append.1 (hL ▸ ho)).2.1).2.2 y hy
          have hxlt := (ho.area x (by simp [hL])).lt
          exact .inr (by omega)
    rw [if_neg hbehind]
    refine .inr ⟨A, x, B, ⟨hL, hA, hlt', not_le.1 hbehind⟩, ?_⟩
    by_cases hspecial : (mm.vma x).vmFlags.has (VM_PFNMAP ||| VM_IO) = true
    · rw [if_pos hspecial]
      refine .inl ⟨fun hpop => ?_, rfl⟩
      rw [hpop] at hspecial
      exact absurd hspecial (by simp)
    · rw [if_neg hspecial]
      refine .inr ⟨Bool.eq_false_iff.2 hspecial, ?_⟩
      have hcursor : (if s.nstart < (mm.vma x).vmStart then (mm.vma x).vmStart else s.nstart) =
          max s.nstart (mm.vma x).vmStart := by
        split <;> omega
      rw [hcursor]
      set cursor := max s.nstart (mm.vma x).vmStart
      set nend := min end_ (mm.vma x).vmEnd
      set r := pop s.calls.length cursor nend with hr
      have hcall :
          populateCall pop { s with locked := true, sem := 1, vma := some x } x cursor nend =
          s.called x cursor nend r s.nstart := by
        unfold populateCall PopulateState.called
        dsimp only
        rw [← hr]
        cases r.dropped <;> rfl
      rw [hcall]
      by_cases herr : r.ret < 0
      · rw [if_pos herr, if_pos herr, if_pos rfl]
        rfl
      · rw [if_neg herr, if_neg herr]
        rfl

/-- The range of a call, and where the cursor may stand behind it. -/
theorem NextArea.call (hn : NextArea mm L end_ s A x B) (h : Wf mm L)
    (hi : WalkInv mm L start end_ s) (hdvd : 4096 ∣ end_) (hlt : s.nstart < end_) (ret : ℤ) :
    let cursor := max s.nstart (mm.vma x).vmStart
    let nend := min end_ (mm.vma x).vmEnd
    cursor < nend ∧ 4096 ∣ cursor ∧ 4096 ∣ nend ∧
      PopulateCall.Ok mm L start end_ ⟨x, cursor, nend, true, ret⟩ := by
  intro cursor nend
  have hx : x ∈ L := by simp [hn.split]
  obtain ⟨hxlt, hxs, hxe, -⟩ := (ordered_core.1 h.ordered).area x hx
  have hbehind := hn.behind
  have hmeets := hn.meets
  have hstart := hi.start_le
  have hrange : cursor < nend := by omega
  have hcursor : 4096 ∣ max s.nstart (mm.vma x).vmStart := by
    rcases max_choice s.nstart (mm.vma x).vmStart with hmax | hmax
    · exact hmax.symm ▸ hi.nstart_dvd
    · exact hmax.symm ▸ hxs
  have hnend : 4096 ∣ min end_ (mm.vma x).vmEnd := by
    rcases min_choice end_ (mm.vma x).vmEnd with hmin | hmin
    · exact hmin.symm ▸ hdvd
    · exact hmin.symm ▸ hxe
  exact ⟨hrange, hcursor, hnend, hx, hrange, hcursor, hnend, by dsimp only; omega, min_le_left _ _,
    le_max_right _ _, min_le_right _ _, rfl⟩

/-- With enough fuel the loop ends, and what it owes holds. -/
theorem populateLoop_ends (h : Wf mm L) (hv : pop.Valid) (hdvd : 4096 ∣ end_) (hend : end_ < 2^64)
    (hi : PopulateInv mm L start end_ s) (hfuel : end_-s.nstart < fuel) :
    ∃ s', populateLoop mm pop end_ true fuel s = some (0, s') ∧ Populated mm L start end_ s' := by
  have ho := ordered_core.1 h.ordered
  induction fuel generalizing s with
  | zero => omega
  | succ fuel ih =>
    by_cases hdone : end_ ≤ s.nstart
    · unfold populateLoop
      rw [if_pos hdone]
      exact ⟨s, rfl, hi.ended hdone⟩
    have hlt := not_le.1 hdone
    rcases populateLoop_round h hi.toWalkInv hlt fuel with
      ⟨v, hloop, hnone⟩ | ⟨A, x, B, hn, ⟨hspecial, hloop⟩ | ⟨-, hloop⟩⟩
    · exact ⟨_, hloop, hi.ended_early hnone⟩
    all_goals
      obtain ⟨hrange, hcd, hnd, hok⟩ := hn.call h hi.toWalkInv hdvd hlt
        (pop s.calls.length (max s.nstart (mm.vma x).vmStart) (min end_ (mm.vma x).vmEnd)).ret
      set cursor := max s.nstart (mm.vma x).vmStart with hc
      set nend := min end_ (mm.vma x).vmEnd with hne
      have hcursor : s.nstart ≤ cursor := le_max_left _ _
    · rw [hloop]
      have hnext :=
        hi.advance ho hn.split hn.before (show s.nstart < nend by omega) (min_le_right _ _) hnd true
        (List.forall_mem_nil _) (by simp) fun hpop => absurd hpop hspecial
      rw [List.append_nil] at hnext
      exact ih hnext (by dsimp only; omega)
    · rw [hloop]
      set r := pop s.calls.length cursor nend with hr
      -- the cursor ends inside the range of the call, and what it has passed has been attempted
      have hstep : ∀ n', cursor < n' → n' ≤ nend → 4096 ∣ n' →
          (∀ p, cursor ≤ p → p < n' → p < cursor+r.ret.toNat*4096 ∨ r.ret < 0) →
          PopulateInv mm L start end_ (s.called x cursor nend r n') := by
        intro n' hlt' hle' hd' hdone'
        refine hi.advance ho hn.split hn.before (hcursor.trans_lt hlt')
          (hle'.trans (min_le_right _ _)) hd' _ ?_ le_rfl ?_
        · intro c hc
          obtain rfl := List.mem_singleton.1 hc
          exact ⟨hok, hcursor, hlt'⟩
        · intro _ p hp hp' hxp
          have hcp : cursor ≤ p := max_le hp hxp
          exact ⟨_, List.mem_append_right _ (List.mem_singleton_self _), rfl, hcp,
            hp'.trans_le hle', hdone' p hcp hp'⟩
      rcases hv s.calls.length cursor nend hrange hcd hnd with herr | ⟨hpos, hfits⟩
      · rw [← hr] at herr
        rw [if_pos herr]
        exact ih (hstep nend hrange le_rfl hnd fun _ _ _ => .inr herr)
          (by show end_-nend < fuel; omega)
      · rw [← hr] at hpos hfits
        have hpages : 0 < r.ret.toNat := by omega
        rw [if_neg (not_lt.2 hpos.le), wadd_eq (by omega)]
        refine ih (hstep _ (by omega) hfits (by omega) fun _ _ hp => .inl hp) ?_
        show end_-(cursor+r.ret.toNat*4096) < fuel
        omega

def PopulateOracle.Fits (pop : PopulateOracle) : Prop :=
  ∀ n start nend, start < nend → 4096 ∣ start → 4096 ∣ nend → (pop n start nend).ret < 0 ∨
    start+(pop n start nend).ret.toNat*4096 ≤ nend

/-- If the loop ends, its calls are inside the request, even when some of them make no progress. -/
theorem populateLoop_calls (h : Wf mm L) (hv : pop.Fits) (hdvd : 4096 ∣ end_) (hend : end_ < 2^64)
    (hi : WalkInv mm L start end_ s) {r : ℤ × PopulateState}
    (hr : populateLoop mm pop end_ true fuel s = some r) :
    ∀ c ∈ r.2.calls, c.Ok mm L start end_ := by
  induction fuel generalizing s with
  | zero => cases hr
  | succ fuel ih =>
    by_cases hdone : end_ ≤ s.nstart
    · unfold populateLoop at hr
      rw [if_pos hdone] at hr
      obtain rfl := Option.some.inj hr
      exact hi.calls
    have hlt := not_le.1 hdone
    rcases populateLoop_round h hi hlt fuel with
      ⟨v, hloop, -⟩ | ⟨A, x, B, hn, ⟨-, hloop⟩ | ⟨-, hloop⟩⟩
    · rw [hloop] at hr
      obtain rfl := Option.some.inj hr
      exact hi.calls
    -- both kinds of rounds go on from the cursor in `x`, the first without a call
    all_goals
      obtain ⟨hrange, hcd, hnd, hok⟩ := hn.call h hi hdvd hlt
        (pop s.calls.length (max s.nstart (mm.vma x).vmStart) (min end_ (mm.vma x).vmEnd)).ret
      set cursor := max s.nstart (mm.vma x).vmStart with hc
      set nend := min end_ (mm.vma x).vmEnd with hne
      have hcursor : s.nstart ≤ cursor := le_max_left _ _
      have hstart := hi.start_le
      rw [hloop] at hr
    · have hbefore : ∀ a ∈ A, (mm.vma a).vmEnd ≤ nend :=
        fun a ha => (hn.before a ha).trans (by omega)
      refine ih ?_ hr
      exact ⟨by dsimp only; omega, hnd, rfl,
        fun _ => ⟨A, x, B, hn.split, rfl, hbefore, min_le_right _ _⟩, hi.calls⟩
    · set r' := pop s.calls.length cursor nend with hr'
      have hstep : ∀ n', cursor ≤ n' → n' ≤ nend → 4096 ∣ n' →
          WalkInv mm L start end_ (s.called x cursor nend r' n') := by
        intro n' hle hle' hd'
        have hbefore : ∀ a ∈ A, (mm.vma a).vmEnd ≤ n' :=
          fun a ha => (hn.before a ha).trans (hcursor.trans hle)
        refine ⟨hstart.trans (hcursor.trans hle), hd', rfl,
          fun _ => ⟨A, x, B, hn.split, rfl, hbefore, hle'.trans (min_le_right _ _)⟩, ?_⟩
        intro c hc
        rcases List.mem_append.1 hc with hc | hc
        · exact hi.calls c hc
        · obtain rfl := List.mem_singleton.1 hc
          exact hok
      rcases hv s.calls.length cursor nend hrange hcd hnd with herr | hfits
      · rw [← hr'] at herr
        rw [if_pos herr] at hr
        exact ih (hstep nend hrange.le le_rfl hnd) hr
      · rw [← hr'] at hfits
        split at hr
        · exact ih (hstep nend hrange.le le_rfl hnd) hr
        · rw [wadd_eq (by omega)] at hr
          exact ih (hstep _ (Nat.le_add_right _ _) hfits (dvd_add hcd (Dvd.intro_left _ rfl))) hr

theorem populateInv_init (hstart : 4096 ∣ start) :
    PopulateInv mm L start end_ { nstart := start } := by
  refine ⟨⟨le_rfl, hstart, rfl, fun hl => absurd hl (by simp), fun c hc =>
    absurd hc List.not_mem_nil⟩, fun c hc => absurd hc List.not_mem_nil, List.Pairwise.nil, ?_⟩
  intro x hx hpop p hp hlt
  exact absurd hp (not_le.2 hlt)

theorem mmPopulateTask_calls {len : ℕ} {r : ℤ × PopulateState} (h : Wf mm L) (hv : pop.Fits)
    (hstart : 4096 ∣ start) (hlen : 4096 ∣ len) (hwrap : start+len < 2^64)
    (hr : mmPopulateTask mm pop true start len fuel = some r) :
    ∀ c ∈ r.2.calls, c.Ok mm L start (start+len) := by
  unfold mmPopulateTask at hr
  rw [wadd_eq hwrap] at hr
  obtain ⟨r', hloop, rfl⟩ := Option.map_eq_some_iff.1 hr
  have hcalls :=
    populateLoop_calls h hv (dvd_add hstart hlen) hwrap (populateInv_init hstart).toWalkInv hloop
  dsimp only
  split
  · exact hcalls
  · exact hcalls

/-- The lock is dropped at the end if it is held. -/
theorem mmPopulateTask_populated {len : ℕ} (h : Wf mm L) (hv : pop.Valid) (hstart : 4096 ∣ start)
    (hlen : 4096 ∣ len) (hwrap : start+len < 2^64) (hfuel : len < fuel) :
    ∃ s, mmPopulateTask mm pop true start len fuel = some (0, { s with sem := 0 }) ∧
      Populated mm L start (start+len) s := by
  obtain ⟨s, hloop, hpop⟩ :=
    populateLoop_ends h hv (dvd_add hstart hlen) hwrap (populateInv_init hstart)
    (show start+len-start < fuel by omega)
  have hsem := hpop.sem
  have hunlock : (if s.locked then { s with sem := s.sem-1 } else s) = { s with sem := 0 } := by
    split at hsem
    next hl => rw [if_pos hl, hsem, sub_self]
    next hl => rw [if_neg hl, ← hsem]
  refine ⟨s, ?_, hpop⟩
  unfold mmPopulateTask
  rw [wadd_eq hwrap, hloop, Option.map_some]
  dsimp only
  rw [hunlock]

/-- `__mm_populate_task`, errors ignored: for any results of `populate_vma_page_range` it ends with
`mmap_sem` released, its calls meet the assertions made there and go upwards, and every address of
the request in an area that is not passed over is attempted, up to the first error in the area. -/
theorem mmPopulateTask_walk (mm : Mm) (L : List VmaId) (pop : PopulateOracle) (start len fuel : ℕ)
    (h : Wf mm L) (hv : pop.Valid) (hstart : 4096 ∣ start) (hlen : 4096 ∣ len)
    (hwrap : start+len < 2^64) (hfuel : len < fuel) :
    ∃ s, mmPopulateTask mm pop true start len fuel = some (0, s) ∧ s.sem = 0 ∧
      (∀ c ∈ s.calls, c.Ok mm L start (start+len)) ∧
        (s.calls.Pairwise fun c d => c.start < d.start) ∧
      AttemptedUpto mm L start (start+len) s.calls := by
  obtain ⟨s, hs, hpop⟩ := mmPopulateTask_populated h hv hstart hlen hwrap hfuel
  exact ⟨_, hs, rfl, hpop.calls, hpop.ascending, hpop.attempted⟩

/-- One page at a time, with the lock dropped at every other call and an error at the third. -/
theorem mmPopulateTask_walk_fourPages :
    let v : Vma := { vmStart := 0x10000, vmEnd := 0x14000, vmFlags := VM_READ }
    let pop : PopulateOracle := fun n _ _ => ⟨if n = 2 then -14 else 1, n % 2 == 0⟩
    ∃ s, mmPopulateTask (Mm.ofArea v) pop true 0xf000 0x8000 0x8001 = some (0, s) ∧ s.sem = 0 ∧
      AttemptedUpto (Mm.ofArea v) [0] 0xf000 0x17000 s.calls := by
  intro v pop
  have hv : pop.Valid := by
    intro n start nend hlt hs he
    by_cases hn : n = 2
    · exact .inl (by simp [pop, hn])
    · refine .inr ⟨by simp [pop, hn], ?_⟩
      have hret : (pop n start nend).ret.toNat = 1 := by simp [pop, hn]
      rw [hret]
      omega
  obtain ⟨s, hs, hsem, -, -, hatt⟩ := mmPopulateTask_walk (Mm.ofArea v) [0] pop 0xf000 0x8000 0x8001
    (wf_ofArea ⟨by decide, by decide, by decide, by decide⟩) hv (by decide) (by decide)
    (by decide) (by decide)
  exact ⟨s, hs, hsem, hatt⟩

end PtraceRemote
