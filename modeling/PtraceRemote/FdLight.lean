import PtraceRemote.FdCallSlots
import PtraceRemote.FdLife

/-! Lookups without a reference: `__fget_light` of `fs/file.c` takes none if the table of the task
is not shared, and `__fdget_pos` no lock on the position if the file is not. Both rest on what other
tasks cannot do meanwhile, the requests of a tracer included. -/
namespace PtraceRemote

def fmodeAtomicPos : ℕ := 0x8000

structure Fd where
  file : FileId
  fput : Bool
  posUnlock : Bool
deriving DecidableEq

def fgetLight (fMode : FileId → ℕ) (s : FilesSys) (task : TaskId) (fd mask : ℕ) :
    Option Fd × FilesSys :=
  match s.taskFiles task with
  | none => (none, { s with fd := { s.fd with bug := true } })
  | some i =>
    if s.count i = 1 then
      match fcheckFiles (s.fd.files i) fd with
      | none => (none, s)
      | some file => if fMode file &&& mask ≠ 0 then (none, s) else (some ⟨file, false, false⟩, s)
    else
      match fgetFiles fMode (s.fd.files i) fd mask with
      | none => (none, s)
      | some file => (some ⟨file, true, false⟩, { s with fd := s.fd.getFile file })

structure Borrow where
  task : TaskId
  fd : Fd
  pos : Bool
deriving DecidableEq

/-- The tables with what is borrowed from them; `posLock` says of which files `f_pos_lock` is
held. -/
structure LightSys where
  sys : FilesSys
  borrows : List Borrow
  posLock : FileId → Bool

namespace LightSys

def fdget (fMode : FileId → ℕ) (s : LightSys) (task : TaskId) (fd mask : ℕ) : LightSys :=
  match fgetLight fMode s.sys task fd mask with
  | (none, sys) => { s with sys := sys }
  | (some v, sys) => { s with sys := sys, borrows := ⟨task, v, false⟩ :: s.borrows }

def LocksPos (fMode : FileId → ℕ) (sys : FilesSys) (file : FileId) : Prop :=
  fMode file &&& fmodeAtomicPos ≠ 0 ∧ sys.fd.fCount file > 1

instance (fMode : FileId → ℕ) (sys : FilesSys) (file : FileId) :
    Decidable (LocksPos fMode sys file) :=
  inferInstanceAs (Decidable (_ ∧ _))

def fdgetPos (fMode : FileId → ℕ) (s : LightSys) (task : TaskId) (fd : ℕ) : LightSys :=
  match fgetLight fMode s.sys task fd fmodePath with
  | (none, sys) => { s with sys := sys }
  | (some v, sys) =>
    if LocksPos fMode sys v.file then
      { sys := sys, borrows := ⟨task, { v with posUnlock := true }, true⟩ :: s.borrows
        posLock := Function.update s.posLock v.file true }
    else { s with sys := sys, borrows := ⟨task, v, true⟩ :: s.borrows }

def fdput (s : LightSys) (b : Borrow) : LightSys :=
  { sys := if b.fd.fput then { s.sys with fd := s.sys.fd.fput b.fd.file } else s.sys
    borrows := s.borrows.erase b
    posLock := if b.fd.posUnlock then Function.update s.posLock b.fd.file false else s.posLock }

end LightSys

inductive LightEvent where
  | fdget (task : TaskId) (fd mask : ℕ)
  | fdgetPos (task : TaskId) (fd : ℕ)
  | fdput (b : Borrow)
  | life (ev : LifeEvent)

def LightSys.after (fMode : FileId → ℕ) (s : LightSys) : LightEvent → LightSys
  | .fdget task fd mask => s.fdget fMode task fd mask
  | .fdgetPos task fd => s.fdgetPos fMode task fd
  | .fdput b => s.fdput b
  | .life ev => { s with sys := s.sys.after ev }

def LightSys.Busy (s : LightSys) (task : TaskId) : Prop := ∃ b ∈ s.borrows, b.task = task

def LightSys.UsesPos (s : LightSys) (task : TaskId) : Prop :=
  ∃ b ∈ s.borrows, b.task = task ∧ b.pos = true

def LightSys.Allows (s : LightSys) : LifeEvent → Prop
  | .call st =>
    (∃ task, s.sys.taskFiles task = some st.cur ∧ ¬s.UsesPos task ∧ (s.Busy task → ¬st.call.Closes))
      ∧ ∀ j, st.call.peer = some j → ∃ tracee, s.sys.taskFiles tracee = some j ∧ ¬s.Busy tracee
  | .getFiles _ => True
  | .putFiles _ => True
  | .adopt _ i => ∀ task, s.Busy task → s.sys.taskFiles task ≠ some i
  | .resetFiles task i => ¬s.Busy task ∧ ∀ other, s.Busy other → s.sys.taskFiles other ≠ some i
  | .exitFiles task => ¬s.Busy task

def LightEvent.Valid (U : Finset TaskId) (T : Finset FilesId) (fMode : FileId → ℕ) (s : LightSys) :
    LightEvent → Prop
  | .fdget task _ _ => s.sys.taskFiles task ≠ none ∧ ¬s.UsesPos task
  | .fdgetPos task fd => s.sys.taskFiles task ≠ none ∧ ¬s.UsesPos task ∧
      ∀ v sys, fgetLight fMode s.sys task fd fmodePath = (some v, sys) →
      LightSys.LocksPos fMode sys v.file →
        s.posLock v.file = false
  | .fdput b => b ∈ s.borrows
  | .life ev => ev.Valid U T s.sys ∧ s.Allows ev

/-! Events of the tables, seen from a table that one task has for itself. -/

section Tables

variable {U : Finset TaskId} {T : Finset FilesId} {s : FilesSys} {i j : FilesId} {task : TaskId}
  {f : FileId} {k : ℕ} {ev : LifeEvent}

def FilesSys.Alone (s : FilesSys) (task : TaskId) (i : FilesId) : Prop :=
  s.taskFiles task = some i ∧ ∀ other, s.taskFiles other = some i → other = task

theorem putFilesStruct_taskFiles (s : FilesSys) (i : FilesId) :
    (s.putFilesStruct i).taskFiles = s.taskFiles := by
  unfold FilesSys.putFilesStruct
  dsimp only
  split <;> rfl

theorem resetFilesStruct_taskFiles (s : FilesSys) (task : TaskId) (i : FilesId) :
    (s.resetFilesStruct task i).taskFiles = Function.update s.taskFiles task (some i) := by
  unfold FilesSys.resetFilesStruct
  dsimp only
  split
  · rfl
  · exact putFilesStruct_taskFiles _ _

theorem exitFiles_taskFiles (s : FilesSys) (task : TaskId) :
    (s.exitFiles task).taskFiles = Function.update s.taskFiles task none := by
  unfold FilesSys.exitFiles
  split
  next hnone => rw [← hnone, Function.update_eq_self]
  next => exact putFilesStruct_taskFiles _ _

theorem call_taskFiles (s : FilesSys) (st : FdCallStep) : (s.call st).taskFiles = s.taskFiles := by
  unfold FilesSys.call
  dsimp only
  split
  · split <;> rfl
  · rfl

theorem call_fd (s : FilesSys) (st : FdCallStep) : (s.call st).fd = (st.exec s.fd).2 := by
  unfold FilesSys.call
  dsimp only
  split
  · split <;> rfl
  · rfl

theorem FilesSys.Alone.update {s' : FilesSys} {other : TaskId} {v : Option FilesId}
    (h : s.Alone task i) (hs : s'.taskFiles = Function.update s.taskFiles other v)
    (hne : other ≠ task) (hv : v ≠ some i) :
    s'.Alone task i := by
  unfold FilesSys.Alone
  rw [hs]
  refine ⟨?_, fun t ht => ?_⟩
  · rw [Function.update_of_ne hne.symm]
    exact h.1
  · rcases eq_or_ne t other with rfl | hto
    · rw [Function.update_self] at ht
      exact absurd ht hv
    · rw [Function.update_of_ne hto] at ht
      exact h.2 t ht

/-- Only a table whose last reference is dropped is closed. -/
theorem putFilesStruct_files (hj : (s.putFilesStruct i).count j ≠ 0) :
    (s.putFilesStruct i).fd.files j = s.fd.files j := by
  unfold FilesSys.putFilesStruct at hj ⊢
  dsimp only at hj ⊢
  split at hj
  next hzero =>
    rw [if_pos hzero]
    apply closeFiles_others
    rintro rfl
    exact hj hzero
  next hne => rw [if_neg hne]

theorem putFilesStruct_gains (h : FdSysOk s.fd) (hk : (s.putFilesStruct i).fd.slot j k = some f) :
    s.fd.slot j k = some f := by
  unfold FilesSys.putFilesStruct at hk
  dsimp only at hk
  split at hk
  next =>
    rcases eq_or_ne j i with rfl | hj
    · exact absurd ((slot_closeFiles h j k).symm.trans hk) (by simp)
    · have hsame : (s.fd.closeFiles i).files j = s.fd.files j := closeFiles_others s.fd hj
      unfold FdSys.slot at hk ⊢
      rwa [hsame] at hk
  next => exact hk

/-- Events other than calls only close tables. -/
theorem after_files (hev : ∀ st, ev ≠ .call st) (hj : (s.after ev).count j ≠ 0) :
    (s.after ev).fd.files j = s.fd.files j := by
  cases ev with
  | call st => exact absurd rfl (hev st)
  | getFiles task =>
    unfold FilesSys.after FilesSys.getFilesStruct
    dsimp only
    split <;> rfl
  | putFiles i => exact putFilesStruct_files (s := { s with held := s.held.erase i }) hj
  | adopt task i => rfl
  | resetFiles task i =>
    unfold FilesSys.after FilesSys.resetFilesStruct at hj ⊢
    dsimp only at hj ⊢
    cases hold : s.taskFiles task with
    | none => rfl
    | some old =>
      rw [hold] at hj
      exact putFilesStruct_files hj
  | exitFiles task =>
    unfold FilesSys.after FilesSys.exitFiles at hj ⊢
    dsimp only at hj ⊢
    cases hold : s.taskFiles task with
    | none => rfl
    | some old =>
      rw [hold] at hj
      exact putFilesStruct_files hj

theorem after_gains (h : FdSysOk s.fd) (hev : ∀ st, ev ≠ .call st)
    (hk : (s.after ev).fd.slot j k = some f) :
    s.fd.slot j k = some f := by
  cases ev with
  | call st => exact absurd rfl (hev st)
  | getFiles task =>
    unfold FilesSys.after FilesSys.getFilesStruct at hk
    dsimp only at hk
    split at hk <;> exact hk
  | putFiles i => exact putFilesStruct_gains (s := { s with held := s.held.erase i }) h hk
  | adopt task i => exact hk
  | resetFiles task i =>
    unfold FilesSys.after FilesSys.resetFilesStruct at hk
    dsimp only at hk
    cases hold : s.taskFiles task with
    | none =>
      rw [hold] at hk
      exact hk
    | some old =>
      rw [hold] at hk
      exact putFilesStruct_gains (s := { s with
        taskFiles := Function.update s.taskFiles task (some i)
        held := s.held.erase i }) h hk
  | exitFiles task =>
    unfold FilesSys.after FilesSys.exitFiles at hk
    dsimp only at hk
    cases hold : s.taskFiles task with
    | none =>
      rw [hold] at hk
      exact hk
    | some old =>
      rw [hold] at hk
      exact putFilesStruct_gains
        (s := { s with taskFiles := Function.update s.taskFiles task none }) h hk

/-- A table that a busy task has for itself stays so, and keeps its files. -/
theorem alone_kept {t : LightSys} (h : LifeOk U T t.sys) (hv : ev.Valid U T t.sys)
    (ha : t.Allows ev) (hbusy : t.Busy task) (halone : t.sys.Alone task i) :
    (t.sys.after ev).Alone task i ∧ ∀ k f, t.sys.fd.slot i k = some f →
      (t.sys.after ev).fd.slot i k = some f := by
  obtain ⟨hi, hother⟩ := halone
  have hafter := (h.step ev hv).1
  have hframe (hev : ∀ st, ev ≠ .call st) (hkeep : (t.sys.after ev).Alone task i) :
      ∀ k f, t.sys.fd.slot i k = some f → (t.sys.after ev).fd.slot i k = some f := by
    intro k f hk
    have hlive := hafter.live (.inl ⟨task, hkeep.1⟩)
    unfold FdSys.slot
    rw [after_files hev hlive.ne']
    exact hk
  cases ev with
  | call st =>
    obtain ⟨⟨caller, hcaller, -, hcloses⟩, htracee⟩ := ha
    have hsame : (t.sys.call st).taskFiles = t.sys.taskFiles := call_taskFiles t.sys st
    refine ⟨⟨(congrFun hsame task).trans hi,
      fun other ho => hother other ((congrFun hsame other).symm.trans ho)⟩, ?_⟩
    intro k f hk
    have hlive : 0 < t.sys.count i := h.live (.inl ⟨task, hi⟩)
    obtain ⟨hopen, hx, -, -, hfork⟩ := hv
    have hpeer : st.call.peer ≠ some i := by
      intro hp
      obtain ⟨tracee, htr, hidle⟩ := htracee i hp
      rw [hother tracee htr] at hidle
      exact hidle hbusy
    have hnew (newf : Option RawMem) : st.call ≠ .fork i newf :=
      fun hc => hlive.ne' (hfork i newf hc).2
    show (t.sys.call st).fd.slot i k = some f
    rw [call_fd]
    by_cases hcur : st.cur = i
    · -- the caller is the task itself, and closes nothing
      have hself : caller = task := hother caller (hcur ▸ hcaller)
      subst hcur
      exact st.keeps h.ok hopen hx (hcloses (hself ▸ hbusy)) hpeer hnew hk
    · have hfiles := st.others t.sys.fd (Ne.symm hcur) hpeer hnew
      unfold FdSys.slot
      rw [hfiles]
      exact hk
  | getFiles other =>
    have hkeep : (t.sys.getFilesStruct other).Alone task i := by
      unfold FilesSys.Alone FilesSys.getFilesStruct
      split <;> exact ⟨hi, hother⟩
    exact ⟨hkeep, hframe (by simp) hkeep⟩
  | putFiles j =>
    have hsame : (t.sys.after (.putFiles j)).taskFiles = t.sys.taskFiles :=
      putFilesStruct_taskFiles { t.sys with held := t.sys.held.erase j } j
    have hkeep : (t.sys.after (.putFiles j)).Alone task i := by
      unfold FilesSys.Alone
      rw [hsame]
      exact ⟨hi, hother⟩
    exact ⟨hkeep, hframe (by simp) hkeep⟩
  | adopt other j =>
    have hne : other ≠ task := by
      rintro rfl
      exact absurd (hv.2.2.symm.trans hi) (by simp)
    have hj : some j ≠ some i := fun hji => ha task hbusy (hji ▸ hi)
    have hkeep : (t.sys.after (.adopt other j)).Alone task i :=
      FilesSys.Alone.update ⟨hi, hother⟩ rfl hne hj
    exact ⟨hkeep, hframe (by simp) hkeep⟩
  | resetFiles other j =>
    have hne : other ≠ task := fun hot => ha.1 (hot ▸ hbusy)
    have hj : some j ≠ some i := fun hji => ha.2 task hbusy (hji ▸ hi)
    have hsame : (t.sys.after (.resetFiles other j)).taskFiles =
        Function.update t.sys.taskFiles other (some j) :=
      resetFilesStruct_taskFiles { t.sys with held := t.sys.held.erase j } other j
    have hkeep : (t.sys.after (.resetFiles other j)).Alone task i :=
      FilesSys.Alone.update ⟨hi, hother⟩ hsame hne hj
    exact ⟨hkeep, hframe (by simp) hkeep⟩
  | exitFiles other =>
    have hne : other ≠ task := fun hot => ha (hot ▸ hbusy)
    have hkeep : (t.sys.after (.exitFiles other)).Alone task i :=
      FilesSys.Alone.update ⟨hi, hother⟩ (exitFiles_taskFiles t.sys other) hne (by simp)
    exact ⟨hkeep, hframe (by simp) hkeep⟩

/-- A file that one table alone has gets into no other table, unless by a call of a task that has
it. -/
theorem life_gains {t : LightSys} (h : LifeOk U T t.sys) (hv : ev.Valid U T t.sys)
    (hk : (t.sys.after ev).fd.slot j k = some f) :
    t.sys.fd.slot j k = some f ∨ ∃ st, ev = .call st ∧
      (t.sys.fd.Has st.cur f ∨ ∃ p, st.call.peer = some p ∧ t.sys.fd.Has p f) := by
  by_cases hev : ∃ st, ev = .call st
  · obtain ⟨st, rfl⟩ := hev
    obtain ⟨hopen, hx, -, -, -⟩ := hv
    have hk' : (t.sys.call st).fd.slot j k = some f := hk
    rw [call_fd] at hk'
    exact (st.gains h.ok hopen hx hk').imp_right fun hhas => ⟨st, rfl, hhas⟩
  · exact .inl (after_gains h.ok (fun st hst => hev ⟨st, hst⟩) hk)

end Tables

end PtraceRemote
