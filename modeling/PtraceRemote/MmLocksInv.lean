import PtraceRemote.LockOrder
import PtraceRemote.MmLocks

/-! The tasks of `MmLocks` all at once: what every step keeps, why one of them can always go on, and
what holds of every run. -/
namespace PtraceRemote

section System

variable {rank : VmLock → ℕ} {s s' : LockSys} {t : TaskId} {signal : Bool}

def LockSys.held (s : LockSys) (t : TaskId) : Set VmLock := {l | s.rwsem l = some t}

def LockSys.bits (s : LockSys) (t : TaskId) : Set VmLock := {l | s.mutex = some t ∧ s.bit l = true}

structure LocksOk (rank : VmLock → ℕ) (s : LockSys) : Prop where
  keeps : ∀ t, LockKeeps rank (decide (s.mutex = some t)) (s.held t) (s.bits t) (s.prog t)
  clear : s.mutex = none → ∀ l, s.bit l = false
  bug : s.bug = false

/-- The rule for the next operation of `t`, with what it has. -/
theorem LocksOk.keeps_prog {p : List LockOp} (h : LocksOk rank s) (hp : s.prog t = p) :
    ∃ M H B, decide (s.mutex = some t) = M ∧ s.held t = H ∧ s.bits t = B ∧ LockKeeps rank M H B p :=
  ⟨_, _, _, rfl, rfl, rfl, hp ▸ h.keeps t⟩

/-- A step of `t` that the others do not notice. -/
theorem LocksOk.of_step {p : List LockOp} (h : LocksOk rank s)
    (hprog : s'.prog = Function.update s.prog t p)
    (hkeeps : LockKeeps rank (decide (s'.mutex = some t)) (s'.held t) (s'.bits t) p)
    (hothers : ∀ u, u ≠ t → (s'.mutex = some u ↔ s.mutex = some u) ∧ s'.held u = s.held u ∧
      s'.bits u = s.bits u)
    (hclear : s'.mutex = none → ∀ l, s'.bit l = false) (hbug : s'.bug = false) :
    LocksOk rank s' := by
  refine ⟨fun u => ?_, hclear, hbug⟩
  rcases eq_or_ne u t with rfl | hu
  · rw [hprog, Function.update_self]
    exact hkeeps
  · obtain ⟨hmutex, hheld, hbits⟩ := hothers u hu
    have hdec : decide (s'.mutex = some u) = decide (s.mutex = some u) := decide_eq_decide.2 hmutex
    rw [hprog, Function.update_of_ne hu, hdec, hheld, hbits]
    exact h.keeps u

theorem LockSys.bits_of_mutex (h : s.mutex = some t) : s.bits t = {l | s.bit l = true} := by
  ext l
  simp [LockSys.bits, h]

theorem LockSys.bits_of_not (h : s.mutex ≠ some t) : s.bits t = ∅ := by
  ext l
  simp [LockSys.bits, h]

/-- The owner of the mutex keeps the bits of all others empty. -/
theorem LockSys.bits_others {u : TaskId} (h : s.mutex = some t) (hu : u ≠ t) : s.bits u = ∅ := by
  apply LockSys.bits_of_not
  rw [h]
  exact fun he => hu (Option.some.inj he).symm

theorem LockSys.held_setOwner (s : LockSys) (l : VmLock) (t : TaskId) :
    (s.setOwner l (some t)).held t = insert l (s.held t) := by
  ext k
  rcases eq_or_ne k l with rfl | hk
  · simp [LockSys.held, LockSys.setOwner]
  · simp [LockSys.held, LockSys.setOwner, hk]

theorem LockSys.held_free (s : LockSys) (l : VmLock) (t : TaskId) :
    (s.setOwner l none).held t = s.held t \ {l} := by
  ext k
  rcases eq_or_ne k l with rfl | hk
  · simp [LockSys.held, LockSys.setOwner]
  · simp [LockSys.held, LockSys.setOwner, hk]

/-- A lock that changes between being free and being held by `t` concerns no other task. -/
theorem LockSys.held_other {l : VmLock} {v : Option TaskId} {u : TaskId} (hu : u ≠ t)
    (hl : s.rwsem l = none ∨ s.rwsem l = some t) (hv : v = none ∨ v = some t) :
    (s.setOwner l v).held u = s.held u := by
  ext k
  rcases eq_or_ne k l with rfl | hk
  · have h1 : s.rwsem k ≠ some u := by
      rcases hl with hl | hl <;> rw [hl]
      · simp
      · exact fun he => hu (Option.some.inj he).symm
    have h2 : v ≠ some u := by
      rcases hv with hv | hv <;> rw [hv]
      · simp
      · exact fun he => hu (Option.some.inj he).symm
    simp [LockSys.held, LockSys.setOwner, h1, h2]
  · simp [LockSys.held, LockSys.setOwner, Function.update_of_ne hk]

theorem LockSys.bits_setBit {l : VmLock} {v : Bool} (h : s.mutex = some t) :
    (s.setBit l v).bits t = if v then insert l (s.bits t) else s.bits t \ {l} := by
  have h' : (s.setBit l v).mutex = some t := h
  rw [LockSys.bits_of_mutex h', LockSys.bits_of_mutex h]
  ext k
  rcases eq_or_ne k l with rfl | hk
  · cases v <;> simp [LockSys.setBit]
  · cases v <;> simp [LockSys.setBit, hk]

/-- The owner of the mutex changes a bit. -/
theorem LocksOk.set_bit {l : VmLock} {v : Bool} {rest : List LockOp} (h : LocksOk rank s)
    (hmine : s.mutex = some t)
    (hkeeps :
      LockKeeps rank true (s.held t) (if v then insert l (s.bits t) else s.bits t \ {l}) rest) :
    LocksOk rank ((s.setProg t rest).setBit l v) := by
  have hdec : decide (((s.setProg t rest).setBit l v).mutex = some t) = true := decide_eq_true hmine
  refine h.of_step (t := t) rfl ?_ ?_ ?_ h.bug
  · rw [hdec, LockSys.bits_setBit (s := s.setProg t rest) hmine]
    exact hkeeps
  · intro u hu
    refine ⟨Iff.rfl, rfl, ?_⟩
    rw [LockSys.bits_others (s := (s.setProg t rest).setBit l v) hmine hu,
      LockSys.bits_others hmine hu]
  · intro hnone
    exact absurd (hmine.symm.trans hnone) (by simp)

/-- A task takes a free lock, or lets go of one that it has. -/
theorem LocksOk.set_owner {l : VmLock} {v : Option TaskId} {rest : List LockOp} (h : LocksOk rank s)
    (hl : s.rwsem l = none ∨ s.rwsem l = some t) (hv : v = none ∨ v = some t)
    (hkeeps : LockKeeps rank (decide (s.mutex = some t)) ((s.setOwner l v).held t)
      (s.bits t) rest) :
    LocksOk rank ((s.setProg t rest).setOwner l v) := by
  refine h.of_step (t := t) rfl hkeeps ?_ h.clear h.bug
  intro u hu
  exact ⟨Iff.rfl, LockSys.held_other (s := s.setProg t rest) hu hl hv, rfl⟩

theorem LocksOk.mutex_lock {rest : List LockOp} (h : LocksOk rank s) (hfree : s.mutex = none)
    (hheld : s.held t = ∅) (hkeeps : LockKeeps rank true ∅ ∅ rest) :
    LocksOk rank { s.setProg t rest with mutex := some t } := by
  have hbits : ({ s.setProg t rest with mutex := some t } : LockSys).bits t = ∅ := by
    rw [LockSys.bits_of_mutex rfl]
    ext l
    simp [LockSys.setProg, h.clear hfree l]
  have hheld' : ({ s.setProg t rest with mutex := some t } : LockSys).held t = ∅ := hheld
  refine h.of_step rfl ?_ ?_ (by simp) h.bug
  · rw [hbits, hheld']
    simpa using hkeeps
  · intro u hu
    refine ⟨?_, rfl, ?_⟩
    · simp [hfree, hu.symm]
    · rw [LockSys.bits_of_not (by simp [hu.symm]), LockSys.bits_of_not (by simp [hfree])]

theorem LocksOk.mutex_unlock {rest : List LockOp} (h : LocksOk rank s) (hmine : s.mutex = some t)
    (hheld : s.held t = ∅) (hbits : s.bits t = ∅) (hkeeps : LockKeeps rank false ∅ ∅ rest) :
    LocksOk rank { s.setProg t rest with mutex := none } := by
  have hzero (l : VmLock) : s.bit l = false := by
    have hl : l ∉ s.bits t := by
      rw [hbits]
      exact Set.notMem_empty l
    rw [LockSys.bits_of_mutex hmine] at hl
    simpa using hl
  have hheld' : ({ s.setProg t rest with mutex := none } : LockSys).held t = ∅ := hheld
  refine h.of_step rfl ?_ ?_ (fun _ => hzero) h.bug
  · rw [LockSys.bits_of_not (by simp), hheld']
    simpa using hkeeps
  · intro u hu
    refine ⟨?_, rfl, ?_⟩
    · simp [hmine, hu.symm]
    · rw [LockSys.bits_of_not (by simp), LockSys.bits_others hmine hu]

theorem LockSys.mem_bits {l : VmLock} (h : s.mutex = some t) : l ∈ s.bits t ↔ s.bit l = true := by
  rw [LockSys.bits_of_mutex h]
  rfl

theorem LockSys.setProg_setProg (s : LockSys) (t : TaskId) (p p' : List LockOp) :
    (s.setProg t p).setProg t p' = s.setProg t p' := by
  simp [LockSys.setProg]

/-- One step of one task. -/
theorem LocksOk.step (h : LocksOk rank s) (hstep : s.step t signal = some s') :
    LocksOk rank s' := by
  unfold LockSys.step at hstep
  cases hprog : s.prog t with
  | nil =>
    rw [hprog] at hstep
    cases hstep
  | cons op rest =>
    rw [hprog] at hstep
    obtain ⟨M, H, B, hM, hH, hB, hkeeps⟩ := h.keeps_prog hprog
    have hmine (hm : M = true) : s.mutex = some t := of_decide_eq_true (hM.trans hm)
    have hsame {p : List LockOp} (hp : LockKeeps rank M H B p) : LocksOk rank (s.setProg t p) := by
      rw [← hM, ← hH, ← hB] at hp
      exact h.of_step rfl hp (fun _ _ => ⟨Iff.rfl, rfl, rfl⟩) h.clear h.bug
    cases hkeeps with
    | mutexLock hp =>
      dsimp only at hstep
      split at hstep
      next hfree =>
        cases hstep
        exact h.mutex_lock hfree hH hp
      next => cases hstep
    | mutexUnlock hp =>
      cases hstep
      exact h.mutex_unlock (hmine rfl) hH hB hp
    | mutexLocked hp =>
      have hne : (s.setProg t rest).mutex ≠ none := by
        show s.mutex ≠ none
        rw [hmine rfl]
        simp
      dsimp only at hstep
      rw [if_neg hne] at hstep
      cases hstep
      exact hsame hp
    | signalPending hp hdrop =>
      cases hstep
      rw [LockSys.setProg_setProg]
      split
      · exact hsame hdrop
      · exact hsame hp
    | locked hl hp =>
      rw [← hB, LockSys.mem_bits (hmine rfl)] at hl
      dsimp only at hstep
      rw [if_pos (show (s.setProg t rest).bit _ = true from hl)] at hstep
      cases hstep
      exact hsame hp
    | lock hl hp =>
      rw [← hB, LockSys.mem_bits (hmine rfl)] at hl
      dsimp only at hstep
      rw [if_neg (show ¬(s.setProg t rest).bit _ = true from hl), LockSys.setProg_setProg] at hstep
      cases hstep
      exact hsame hp
    | unlock hl hp =>
      rw [← hB, LockSys.mem_bits (hmine rfl)] at hl
      dsimp only at hstep
      rw [if_pos (show (s.setProg t rest).bit _ = true from hl), LockSys.setProg_setProg] at hstep
      cases hstep
      exact hsame hp
    | unlocked hl hp =>
      rw [← hB, LockSys.mem_bits (hmine rfl)] at hl
      dsimp only at hstep
      rw [if_neg (show ¬(s.setProg t rest).bit _ = true from hl)] at hstep
      cases hstep
      exact hsame hp
    | setBit hl hp =>
      rw [← hB, LockSys.mem_bits (hmine rfl)] at hl
      dsimp only at hstep
      rw [if_neg (show ¬(s.setProg t rest).bit _ = true from hl)] at hstep
      cases hstep
      apply h.set_bit (hmine rfl)
      rw [hH, hB]
      exact hp
    | clearBit hl hp =>
      rw [← hB, LockSys.mem_bits (hmine rfl)] at hl
      dsimp only at hstep
      rw [if_pos (show (s.setProg t rest).bit _ = true from hl)] at hstep
      cases hstep
      apply h.set_bit (hmine rfl)
      rw [hH, hB]
      exact hp
    | downWrite hl hle hlt hp =>
      dsimp only at hstep
      split at hstep
      next hfree =>
        cases hstep
        apply h.set_owner (.inl hfree) (.inr rfl)
        rw [LockSys.held_setOwner, hM, hH, hB]
        exact hp
      next => cases hstep
    | upWrite hl hp =>
      cases hstep
      rw [← hH] at hl
      apply h.set_owner (.inr hl) (.inl rfl)
      rw [LockSys.held_free, hM, hH, hB]
      exact hp
    | allLocked hl hp =>
      cases hstep
      exact hsame hp

/-- Why a task makes no step. -/
theorem LockSys.blocked (h : s.step t false = none) :
    s.prog t = [] ∨ (s.mutex ≠ none ∧ ∃ rest, s.prog t = .mutexLock :: rest) ∨
      ∃ l rest, s.rwsem l ≠ none ∧ s.prog t = .downWrite l :: rest := by
  unfold LockSys.step at h
  cases hprog : s.prog t with
  | nil => exact .inl rfl
  | cons op rest =>
    rw [hprog] at h
    cases op with
    | mutexLock =>
      dsimp only at h
      split at h
      next => cases h
      next hne => exact .inr (.inl ⟨hne, rest, rfl⟩)
    | downWrite l =>
      dsimp only at h
      split at h
      next => cases h
      next hne => exact .inr (.inr ⟨l, rest, hne, rfl⟩)
    | _ => cases h

def LockSys.Waits (s : LockSys) (t : TaskId) (l : VmLock) : Prop :=
  ∃ rest, s.prog t = .downWrite l :: rest

/-- Who holds a lock, or the mutex, and makes no step is waiting for a lock. -/
theorem LocksOk.holder_waits (h : LocksOk rank s) (hblocked : s.step t false = none)
    (hholds : s.mutex = some t ∨ ∃ l, s.rwsem l = some t) : ∃ l, s.Waits t l := by
  have hnot {p : List LockOp} (hprog : s.prog t = p)
      (hp : p = [] ∨ ∃ rest, p = .mutexLock :: rest) : False := by
    obtain ⟨M, H, B, hM, hH, hB, hkeeps⟩ := h.keeps_prog hprog
    have hidle : decide (s.mutex = some t) = false ∧ s.held t = ∅ := by
      rcases hp with rfl | ⟨rest, rfl⟩ <;> cases hkeeps <;> exact ⟨hM, hH⟩
    rcases hholds with hm | ⟨l, hl⟩
    · exact of_decide_eq_false hidle.1 hm
    · exact Set.notMem_empty l (hidle.2 ▸ hl)
  rcases LockSys.blocked hblocked with hp | ⟨-, rest, hp⟩ | ⟨l, rest, -, hp⟩
  · exact (hnot hp (.inl rfl)).elim
  · exact (hnot hp (.inr ⟨rest, rfl⟩)).elim
  · exact ⟨l, rest, hp⟩

theorem LocksOk.waits (h : LocksOk rank s) {l : VmLock} (hw : s.Waits t l) :
    s.rwsem l ≠ some t ∧ (∀ k, s.rwsem k = some t → rank k ≤ rank l) ∧
      ∀ k, s.rwsem k = some t → rank k = rank l → s.mutex = some t := by
  obtain ⟨rest, hprog⟩ := hw
  obtain ⟨M, H, B, hM, hH, hB, hkeeps⟩ := h.keeps_prog hprog
  cases hkeeps with
  | downWrite hl hle hlt hp =>
    rw [← hH] at hl hle hlt
    refine ⟨hl, hle, fun k hk heq => ?_⟩
    by_contra hm
    exact hlt (hM.symm.trans (decide_eq_false hm)) k hk heq

/-- As long as a task is not done, some task can make a step. -/
theorem LocksOk.progress {huge : ℕ → Bool} (h : LocksOk (lockRank huge) s) (hnot : s.prog t ≠ []) :
    ∃ u s', s.step u false = some s' := by
  by_contra hall
  have hblocked (u : TaskId) : s.step u false = none := by
    cases hu : s.step u false with
    | none => rfl
    | some s' => exact absurd ⟨u, s', hu⟩ hall
  have hstuck : LockOrder.Stuck (lockRank huge) s.Waits (fun u l => s.rwsem l = some u) fun u =>
      s.mutex = some u := by
    refine ⟨?_, ?_, ?_, ?_, ?_⟩
    · intro u l hw
      obtain ⟨rest, hprog⟩ := hw
      rcases LockSys.blocked (hblocked u) with hp | ⟨-, rest', hp⟩ | ⟨l', rest', hne, hp⟩ <;>
        rw [hprog] at hp <;> cases hp
      obtain ⟨v, hv⟩ := Option.ne_none_iff_exists'.1 hne
      obtain ⟨k, hk⟩ := h.holder_waits (hblocked v) (.inr ⟨l, hv⟩)
      exact ⟨v, k, hv, hk⟩
    · intro u l k hw hk
      exact (h.waits hw).2.1 k hk
    · intro u l k hw hk heq
      exact (h.waits hw).2.2 k hk heq
    · intro u v hu hv
      exact Option.some.inj (hu.symm.trans hv)
    · intro u l hw
      exact (h.waits hw).1
  have hbound (l : VmLock) : lockRank huge l ≤ 2 := by
    cases l with
    | mapping m =>
      show (if huge m then 0 else 1) ≤ 2
      split <;> decide
    | anon r => exact le_rfl
  have hnobody := hstuck.nobody_waits hbound
  rcases LockSys.blocked (hblocked t) with hp | ⟨hne, -⟩ | ⟨l, rest, -, hp⟩
  · exact hnot hp
  · obtain ⟨m, hm⟩ := Option.ne_none_iff_exists'.1 hne
    obtain ⟨l, hl⟩ := h.holder_waits (hblocked m) (.inl hm)
    exact hnobody m l hl
  · exact hnobody t l ⟨rest, hp⟩

end System

/-! Whole runs. -/

def LockOp.weight : LockOp → ℕ
  | .vmLock _ => 3
  | .vmUnlock _ => 3
  | .signalPending areas => 3+3*(areas.flatMap LockArea.locks).length
  | _ => 1

def lockWeight (p : List LockOp) : ℕ := (p.map LockOp.weight).sum

def LockSys.start (fMapping : FileId → Option ℕ) (tasks : TaskId → LockTask) : LockSys :=
  ⟨none, fun _ => none, fun _ => false, fun t => (tasks t).prog fMapping, false⟩

def LockSys.runs (s : LockSys) : List (TaskId × Bool) → Option LockSys
  | [] => some s
  | (t, signal) :: events => (s.step t signal).bind fun s' => s'.runs events

section Runs

variable {s s' : LockSys} {t : TaskId} {signal : Bool} {events : List (TaskId × Bool)}

theorem lockWeight_append (p p' : List LockOp) :
    lockWeight (p ++ p') = lockWeight p + lockWeight p' := by
  simp [lockWeight]

theorem lockWeight_mmDropAllLocks (areas : List LockArea) :
    lockWeight (mmDropAllLocks areas) = 2+3*(areas.flatMap LockArea.locks).length := by
  have hflat : (areas.flatMap fun a => a.locks.map LockOp.vmUnlock) =
      (areas.flatMap LockArea.locks).map .vmUnlock := by
    rw [List.map_flatMap]
  have hsum (ls : List VmLock) : lockWeight (ls.map LockOp.vmUnlock) = 3*ls.length := by
    induction ls with
    | nil => rfl
    | cons l ls ih =>
      show 3+lockWeight (ls.map LockOp.vmUnlock) = _
      rw [ih, List.length_cons]
      ring
  unfold mmDropAllLocks
  rw [hflat, List.cons_append]
  show 1+lockWeight _ = _
  rw [lockWeight_append, hsum]
  show 1+(_+1) = _
  omega

/-- A step replaces the program of its task by a lighter one. -/
theorem LockSys.step_weight (h : s.step t signal = some s') :
    ∃ p, s'.prog = Function.update s.prog t p ∧ lockWeight p < lockWeight (s.prog t) := by
  unfold LockSys.step at h
  cases hprog : s.prog t with
  | nil =>
    rw [hprog] at h
    cases h
  | cons op rest =>
    have hcons : lockWeight (op :: rest) = op.weight + lockWeight rest := rfl
    rw [hprog] at h
    rw [hcons]
    have hrest (hpos : 0 < op.weight) (hs : s'.prog = Function.update s.prog t rest) :
        ∃ p, s'.prog = Function.update s.prog t p ∧ lockWeight p < op.weight + lockWeight rest :=
      ⟨rest, hs, by omega⟩
    cases op with
    | mutexLock =>
      dsimp only at h
      split at h
      · cases h
        exact hrest Nat.one_pos rfl
      · cases h
    | mutexUnlock =>
      cases h
      exact hrest Nat.one_pos rfl
    | mutexLocked =>
      cases h
      apply hrest Nat.one_pos
      split <;> rfl
    | signalPending areas =>
      cases h
      split
      · rw [LockSys.setProg_setProg]
        refine ⟨mmDropAllLocks areas, rfl, ?_⟩
        rw [lockWeight_mmDropAllLocks]
        show _ < (3+3*_) + _
        omega
      · refine ⟨rest, rfl, ?_⟩
        show _ < (3+3*_) + _
        omega
    | vmLock l =>
      cases h
      split
      · exact ⟨rest, rfl, Nat.lt_add_of_pos_left (show 0 < 3 by decide)⟩
      · rw [LockSys.setProg_setProg]
        refine ⟨lockOps l ++ rest, rfl, ?_⟩
        rw [lockWeight_append]
        cases l <;> exact Nat.add_lt_add_right (show 2 < 3 by decide) _
    | vmUnlock l =>
      cases h
      split
      · rw [LockSys.setProg_setProg]
        refine ⟨unlockOps l ++ rest, rfl, ?_⟩
        rw [lockWeight_append]
        cases l <;> exact Nat.add_lt_add_right (show 2 < 3 by decide) _
      · exact ⟨rest, rfl, Nat.lt_add_of_pos_left (show 0 < 3 by decide)⟩
    | setBit l =>
      cases h
      apply hrest Nat.one_pos
      split <;> rfl
    | clearBit l =>
      cases h
      apply hrest Nat.one_pos
      split <;> rfl
    | downWrite l =>
      dsimp only at h
      split at h
      · cases h
        exact hrest Nat.one_pos rfl
      · cases h
    | upWrite l =>
      cases h
      exact hrest Nat.one_pos rfl
    | allLocked areas =>
      cases h
      exact hrest Nat.one_pos rfl

theorem LocksOk.runs {rank : VmLock → ℕ} (h : LocksOk rank s) (hrun : s.runs events = some s') :
    LocksOk rank s' := by
  induction events generalizing s with
  | nil =>
    cases hrun
    exact h
  | cons e events ih =>
    obtain ⟨t, signal⟩ := e
    obtain ⟨s₁, hstep, hrest⟩ := Option.bind_eq_some_iff.1 hrun
    exact ih (h.step hstep) hrest

/-- Every step of a run costs something. -/
theorem LockSys.runs_length {U : Finset TaskId} (hU : ∀ t, t ∉ U → s.prog t = [])
    (hrun : s.runs events = some s') :
    events.length + ∑ t ∈ U, lockWeight (s'.prog t) ≤ ∑ t ∈ U, lockWeight (s.prog t) := by
  induction events generalizing s with
  | nil =>
    cases hrun
    simp
  | cons e events ih =>
    obtain ⟨t, signal⟩ := e
    obtain ⟨s₁, hstep, hrest⟩ := Option.bind_eq_some_iff.1 hrun
    obtain ⟨p, hprog, hlt⟩ := LockSys.step_weight hstep
    have ht : t ∈ U := by
      by_contra ht
      rw [hU t ht] at hlt
      exact Nat.not_lt_zero _ hlt
    -- the weight of the task that moves goes down, the others keep theirs
    have hsum : ∑ u ∈ U, lockWeight (s₁.prog u) < ∑ u ∈ U, lockWeight (s.prog u) := by
      apply Finset.sum_lt_sum
      · intro u _
        rcases eq_or_ne u t with rfl | hu
        · rw [hprog, Function.update_self]
          exact hlt.le
        · rw [hprog, Function.update_of_ne hu]
      · refine ⟨t, ht, ?_⟩
        rw [hprog, Function.update_self]
        exact hlt
    have hU' : ∀ u, u ∉ U → s₁.prog u = [] := by
      intro u hu
      have hne : u ≠ t := fun hut => hu (hut ▸ ht)
      rw [hprog, Function.update_of_ne hne]
      exact hU u hu
    have hlen := ih hU' hrest
    rw [List.length_cons]
    omega

theorem locksOk_start {huge : ℕ → Bool} {fMapping : FileId → Option ℕ} {tasks : TaskId → LockTask}
    (hv : ∀ t, (tasks t).Valid huge fMapping) :
    LocksOk (lockRank huge) (LockSys.start fMapping tasks) := by
  refine ⟨fun t => ?_, fun _ _ => rfl, rfl⟩
  have hheld : (LockSys.start fMapping tasks).held t = ∅ := by
    ext l
    simp [LockSys.held, LockSys.start]
  have hbits : (LockSys.start fMapping tasks).bits t = ∅ :=
    LockSys.bits_of_not (by simp [LockSys.start])
  rw [hheld, hbits]
  exact (tasks t).keeps (hv t)

end Runs

def mappedMm : Mm :=
  Mm.ofArea { vmStart := 0x10000, vmEnd := 0x11000, vmFlags := VM_READ, vmFile := some 3,
              anonVma := some 1 }

def lockTasks : TaskId → LockTask
  | 0 => .allLocks mappedMm fun _ => [9, 9]
  | 1 => .rmap (some 5) (some 9)
  | _ => .idle

def lockEvents : List (TaskId × Bool) :=
  [1, 0, 0, 0, 0, 0, 1, 1, 1, 0, 0, 0, 0, 0, 0].map (·, false)

theorem valid_lockTasks (t : TaskId) : (lockTasks t).Valid (fun _ => false) fun _ => some 5 := by
  match t with
  | 0 =>
    intro a ha m _
    have ha' : a ∈ [(⟨some 5, false, [9, 9]⟩ : LockArea)] := ha
    rw [List.mem_singleton.1 ha']
  | 1 => trivial
  | _+2 => trivial

theorem runs_lockEvents :
    ∃ s, (LockSys.start (fun _ => some 5) lockTasks).runs lockEvents = some s ∧
    ∃ rest, s.prog 0 = .allLocked [⟨some 5, false, [9, 9]⟩] :: rest := by
  have hprog : ((LockSys.start (fun _ => some 5) lockTasks).runs lockEvents).map
      (fun s => s.prog 0) = some (.allLocked [⟨some 5, false, [9, 9]⟩] ::
        mmDropAllLocks [⟨some 5, false, [9, 9]⟩]) := by
    decide +kernel
  obtain ⟨s, hs, hp⟩ := Option.map_eq_some_iff.1 hprog
  exact ⟨s, hs, _, hp⟩

/-- However the steps of the tasks interleave and wherever signals arrive, no `BUG` is hit, a task
for which `mm_take_all_locks` has succeeded holds every lock of its address space, and in the end
all is released. -/
theorem allLocks_safe (huge : ℕ → Bool) (fMapping : FileId → Option ℕ) (tasks : TaskId → LockTask)
    (events : List (TaskId × Bool)) (s : LockSys) (hv : ∀ t, (tasks t).Valid huge fMapping)
    (hrun : (LockSys.start fMapping tasks).runs events = some s) :
    s.bug = false ∧
      (∀ t areas rest, s.prog t = .allLocked areas :: rest → ∀ a ∈ areas, ∀ l ∈ a.locks,
        s.rwsem l = some t) ∧
      ((∀ t, s.prog t = []) → s.mutex = none ∧ ∀ l, s.rwsem l = none ∧ s.bit l = false) := by
  have hok := (locksOk_start hv).runs hrun
  refine ⟨hok.bug, ?_, ?_⟩
  · intro t areas rest hprog
    obtain ⟨M, H, B, -, hH, -, hkeeps⟩ := hok.keeps_prog hprog
    cases hkeeps with
    | allLocked hl _ =>
      rw [← hH] at hl
      exact hl
  · intro hdone
    -- at the end of its program a task keeps nothing
    have hidle (t : TaskId) : s.mutex ≠ some t ∧ s.held t = ∅ := by
      obtain ⟨M, H, B, hM, hH, -, hkeeps⟩ := hok.keeps_prog (hdone t)
      cases hkeeps
      exact ⟨of_decide_eq_false hM, hH⟩
    have hmutex : s.mutex = none := by
      by_contra hne
      obtain ⟨t, ht⟩ := Option.ne_none_iff_exists'.1 hne
      exact (hidle t).1 ht
    refine ⟨hmutex, fun l => ⟨?_, hok.clear hmutex l⟩⟩
    by_contra hne
    obtain ⟨t, ht⟩ := Option.ne_none_iff_exists'.1 hne
    exact Set.notMem_empty l ((hidle t).2 ▸ ht)

/-- The first task has all locks, after it has waited for the second. -/
theorem allLocks_safe_lockTasks :
    ∃ s, (LockSys.start (fun _ => some 5) lockTasks).runs lockEvents = some s ∧
    s.rwsem (.mapping 5) = some 0 ∧ s.rwsem (.anon 9) = some 0 := by
  obtain ⟨s, hs, rest, hp⟩ := runs_lockEvents
  obtain ⟨-, hall, -⟩ := allLocks_safe (fun _ => false) (fun _ => some 5) lockTasks lockEvents s
    valid_lockTasks hs
  have hlocks := hall 0 _ rest hp _ (List.mem_singleton.2 rfl)
  exact ⟨s, hs, hlocks _ (by decide), hlocks _ (by decide)⟩

/-- No run is longer than its tasks have to do, and as long as one of them is not done, one of them
can go on: they all come to an end. -/
theorem allLocks_finish (huge : ℕ → Bool) (fMapping : FileId → Option ℕ) (U : Finset TaskId)
    (tasks : TaskId → LockTask) (events : List (TaskId × Bool)) (s : LockSys)
    (hv : ∀ t, (tasks t).Valid huge fMapping) (hU : ∀ t, t ∉ U → tasks t = .idle)
    (hrun : (LockSys.start fMapping tasks).runs events = some s) :
    events.length ≤ ∑ t ∈ U, lockWeight ((tasks t).prog fMapping) ∧
      ∀ t, s.prog t ≠ [] → ∃ u s', s.step u false = some s' := by
  refine ⟨?_, fun t ht => ((locksOk_start hv).runs hrun).progress ht⟩
  have hidle (t : TaskId) (ht : t ∉ U) : (LockSys.start fMapping tasks).prog t = [] := by
    show (tasks t).prog fMapping = []
    rw [hU t ht]
    rfl
  exact le_trans (Nat.le_add_right _ _) (LockSys.runs_length hidle hrun)

/-- The first task has all its locks and can drop them. -/
theorem allLocks_finish_lockTasks :
    ∃ s, (LockSys.start (fun _ => some 5) lockTasks).runs lockEvents = some s ∧ s.prog 0 ≠ [] ∧
    lockEvents.length ≤ lockWeight ((lockTasks 0).prog fun _ => some 5)+lockWeight
      ((lockTasks 1).prog fun _ => some 5) ∧
    ∃ u s', s.step u false = some s' := by
  obtain ⟨s, hs, rest, hp⟩ := runs_lockEvents
  have hidle (t : TaskId) (ht : t ∉ ({0, 1} : Finset ℕ)) : lockTasks t = .idle := by
    match t with
    | 0 => exact absurd (by decide) ht
    | 1 => exact absurd (by decide) ht
    | _+2 => rfl
  obtain ⟨hlen, hstep⟩ :=
    allLocks_finish (fun _ => false) (fun _ => some 5) {0, 1} lockTasks lockEvents s
    valid_lockTasks hidle hs
  have hbusy : s.prog 0 ≠ [] := by
    rw [hp]
    exact List.cons_ne_nil _ _
  rw [Finset.sum_pair Nat.zero_ne_one] at hlen
  exact ⟨s, hs, hbusy, hlen, hstep 0 hbusy⟩

end PtraceRemote
