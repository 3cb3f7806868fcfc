import PtraceRemote.FdConcurrent
import PtraceRemote.FdCallRefs
import PtraceRemote.Holders

/-! The life of descriptor tables: tasks share them, fork them and exit, others hold references to
them, and `put_files_struct` of `fs/file.c` closes what the last of them leaves open. -/
namespace PtraceRemote

open Runs (run Every)

/-- The tables with their `count`, and the `files` of every task. `held` are the references that
belong to no task: those that `get_files_struct` gave out, and that to a table which `dup_fd` has
made. -/
structure FilesSys where
  fd : FdSys
  count : FilesId → ℤ
  taskFiles : TaskId → Option FilesId
  held : List FilesId

namespace FilesSys

def getFilesStruct (s : FilesSys) (task : TaskId) : FilesSys :=
  match s.taskFiles task with
  | none => s
  | some i => { s with count := Function.update s.count i (s.count i+1), held := i :: s.held }

def putFilesStruct (s : FilesSys) (i : FilesId) : FilesSys :=
  let s := { s with count := Function.update s.count i (s.count i-1) }
  if s.count i = 0 then { s with fd := s.fd.closeFiles i } else s

def resetFilesStruct (s : FilesSys) (task : TaskId) (i : FilesId) : FilesSys :=
  let t := { s with taskFiles := Function.update s.taskFiles task (some i) }
  match s.taskFiles task with
  | none => { t with fd := { t.fd with bug := true } }
  | some old => t.putFilesStruct old

def exitFiles (s : FilesSys) (task : TaskId) : FilesSys :=
  match s.taskFiles task with
  | none => s
  | some i => { s with taskFiles := Function.update s.taskFiles task none }.putFilesStruct i

def call (s : FilesSys) (st : FdCallStep) : FilesSys :=
  let r := st.exec s.fd
  let t := { s with fd := r.2 }
  match st.call with
  | .fork j _ =>
    if r.1 < 0 then t else { t with count := Function.update t.count j 1, held := j :: t.held }
  | _ => t

end FilesSys

/-- `adopt` is the beginning of a task: it is given a reference that is held. -/
inductive LifeEvent where
  | call (st : FdCallStep)
  | getFiles (task : TaskId)
  | putFiles (i : FilesId)
  | adopt (task : TaskId) (i : FilesId)
  | resetFiles (task : TaskId) (i : FilesId)
  | exitFiles (task : TaskId)

def FilesSys.after (s : FilesSys) : LifeEvent → FilesSys
  | .call st => s.call st
  | .getFiles task => s.getFilesStruct task
  | .putFiles i => { s with held := s.held.erase i }.putFilesStruct i
  | .adopt task i =>
    { s with taskFiles := Function.update s.taskFiles task (some i), held := s.held.erase i }
  | .resetFiles task i => { s with held := s.held.erase i }.resetFilesStruct task i
  | .exitFiles task => s.exitFiles task

/-! Whole lives. -/

section Life

variable {U : Finset TaskId} {T : Finset FilesId} {s s' : FilesSys} {i j : FilesId} {task : TaskId}
  {st : FdCallStep}

def FilesSys.refs (U : Finset TaskId) (s : FilesSys) (i : FilesId) : ℤ :=
  Holders.refs U s.taskFiles s.held i

/-- The tables are in order and counted right, and a table without a count has been closed. `U` are
the tasks that there can be, and `T` the memory that tables can be in. -/
structure LifeOk (U : Finset TaskId) (T : Finset FilesId) (s : FilesSys) : Prop where
  ok : FdSysOk s.fd
  bug : s.fd.bug = false
  tasks : ∀ task i, s.taskFiles task = some i → task ∈ U
  tables : ∀ i, s.count i ≠ 0 → i ∈ T
  count : ∀ i, s.count i = s.refs U i
  closed : ∀ i, s.count i = 0 → ∀ fd, s.fd.slot i fd = none

def FilesSys.InUse (s : FilesSys) (i : FilesId) : Prop :=
  (∃ task, s.taskFiles task = some i) ∨ i ∈ s.held

def LifeEvent.Valid (U : Finset TaskId) (T : Finset FilesId) (s : FilesSys) : LifeEvent → Prop
  | .call st => st.env.nrOpen ≤ sysctlNrOpenMax ∧ st.GrowsExactly s.fd ∧ s.InUse st.cur ∧
      (∀ j, st.call.peer = some j → s.InUse j) ∧ ∀ j newf, st.call = .fork j newf →
      j ∈ T ∧ s.count j = 0
  | .getFiles _ => True
  | .putFiles i => i ∈ s.held
  | .adopt task i => i ∈ s.held ∧ task ∈ U ∧ s.taskFiles task = none
  | .resetFiles task i => i ∈ s.held ∧ s.taskFiles task ≠ none
  | .exitFiles _ => True

def LifeEvent.tables (s : FilesSys) : LifeEvent → List FilesId
  | .call st => st.cur :: st.call.peer.toList
  | .getFiles task => (s.taskFiles task).toList
  | .putFiles i => [i]
  | .adopt _ i => [i]
  | .resetFiles task i => i :: (s.taskFiles task).toList
  | .exitFiles task => (s.taskFiles task).toList

/-- None of them has been freed. -/
def LifeEvent.Live (s : FilesSys) (ev : LifeEvent) : Prop := ∀ i ∈ ev.tables s, 0 < s.count i

theorem LifeOk.live (h : LifeOk U T s) (hi : s.InUse i) : 0 < s.count i := by
  rw [h.count]
  rcases hi with ⟨task, htask⟩ | hheld
  · exact Holders.refs_pos_of_own (h.tasks task i htask) htask
  · exact Holders.refs_pos_of_mem hheld

theorem LifeOk.mem (h : LifeOk U T s) (hi : s.InUse i) : i ∈ T := h.tables i (h.live hi).ne'

/-- References that change hands. -/
theorem LifeOk.handOver (h : LifeOk U T s) {own : TaskId → Option FilesId} {held : List FilesId}
    (htasks : ∀ task i, own task = some i → task ∈ U)
    (hrefs : ∀ i, Holders.refs U own held i = s.refs U i) :
    LifeOk U T { s with taskFiles := own, held := held } := by
  refine ⟨h.ok, h.bug, htasks, h.tables, fun i => ?_, h.closed⟩
  rw [h.count]
  exact (hrefs i).symm

theorem LifeOk.tasks_update (h : LifeOk U T s) (htask : task ∈ U) (v : Option FilesId) (t : TaskId)
    (k : FilesId) (ht : Function.update s.taskFiles task v t = some k) : t ∈ U := by
  rcases eq_or_ne t task with rfl | hne
  · exact htask
  · apply h.tasks t k
    rwa [Function.update_of_ne hne] at ht

def FilesSys.outside (T : Finset FilesId) (s : FilesSys) (f : FileId) : ℤ :=
  s.fd.fCount f - s.fd.slotsIn T f

/-- A reference that is held is dropped. With the last one the table is closed. -/
theorem LifeOk.put (h : LifeOk U T { s with held := i :: s.held }) :
    LifeOk U T (s.putFilesStruct i) ∧ (s.putFilesStruct i).outside T = s.outside T := by
  have hT : i ∈ T := h.mem (.inr List.mem_cons_self)
  let t : FilesSys := { s with count := Function.update s.count i (s.count i-1) }
  have hcount (k : FilesId) : t.count k = s.refs U k := by
    have hk : s.count k = s.refs U k + if i = k then 1 else 0 := (h.count k).trans Holders.refs_cons
    rcases eq_or_ne k i with rfl | hne
    · have hself : t.count k = s.count k-1 := Function.update_self ..
      rw [hself, hk, if_pos rfl]
      ring
    · have hother : t.count k = s.count k := Function.update_of_ne hne ..
      rw [hother, hk, if_neg hne.symm, add_zero]
  have htables (k : FilesId) (hk : t.count k ≠ 0) : k ∈ T := by
    rcases eq_or_ne k i with rfl | hne
    · exact hT
    · have hother : t.count k = s.count k := Function.update_of_ne hne ..
      exact h.tables k (hother ▸ hk)
  have hclosed (k : FilesId) (hne : k ≠ i) (hk : t.count k = 0) (fd : ℕ) :
      s.fd.slot k fd = none := by
    have hother : t.count k = s.count k := Function.update_of_ne hne ..
    exact h.closed k (hother ▸ hk) fd
  have hput : s.putFilesStruct i = if t.count i = 0 then { t with fd := t.fd.closeFiles i }
    else t := rfl
  rw [hput]
  split
  next hzero =>
    have hkept := closeFiles_kept (T := T) h.ok hT
    refine ⟨⟨hkept.ok, hkept.bug.trans h.bug, h.tasks, htables, hcount, fun k hk fd => ?_⟩,
      funext hkept.balance⟩
    rcases eq_or_ne k i with rfl | hne
    · exact slot_closeFiles h.ok k fd
    · have hsame : (s.fd.closeFiles i).files k = s.fd.files k := closeFiles_others s.fd hne
      show fcheckFiles ((s.fd.closeFiles i).files k) fd = none
      rw [hsame]
      exact hclosed k hne hk fd
  next hne =>
    refine ⟨⟨h.ok, h.bug, h.tasks, htables, hcount, fun k hk fd => ?_⟩, rfl⟩
    exact hclosed k (fun hki => hne (hki ▸ hk)) hk fd

theorem LifeOk.exit (h : LifeOk U T s) (task : TaskId) :
    LifeOk U T (s.exitFiles task) ∧ (s.exitFiles task).outside T = s.outside T := by
  unfold FilesSys.exitFiles
  cases htask : s.taskFiles task with
  | none => exact ⟨h, rfl⟩
  | some i =>
    apply LifeOk.put (s := { s with taskFiles := Function.update s.taskFiles task none })
    have hmem : task ∈ U := h.tasks task i htask
    apply h.handOver (h.tasks_update hmem none)
    -- the reference of the task is now a loose one
    intro k
    rw [Holders.refs_cons, Holders.refs_update hmem, htask]
    simp [FilesSys.refs]

theorem LifeOk.reset (h : LifeOk U T s) (hi : i ∈ s.held) (htask : s.taskFiles task ≠ none) :
    let t := ({ s with held := s.held.erase i } : FilesSys).resetFilesStruct task i
    LifeOk U T t ∧ t.outside T = s.outside T := by
  intro t
  obtain ⟨old, hold⟩ := Option.ne_none_iff_exists'.1 htask
  have hmem : task ∈ U := h.tasks task old hold
  have ht : t = ({ s with
      taskFiles := Function.update s.taskFiles task (some i), held := s.held.erase i } :
        FilesSys).putFilesStruct old := by
    unfold t FilesSys.resetFilesStruct
    dsimp only
    rw [hold]
  rw [ht]
  apply LifeOk.put
    (s := { s with taskFiles := Function.update s.taskFiles task (some i), held := s.held.erase i })
  apply h.handOver (h.tasks_update hmem (some i))
  -- the task has the reference to `i`, and that to its old table is loose
  intro k
  have herase : Holders.refs U s.taskFiles (i :: s.held.erase i) k = s.refs U k :=
    Holders.refs_cons_erase hi
  rw [Holders.refs_cons] at herase
  rw [Holders.refs_cons, Holders.refs_update hmem, hold, ← herase]
  simp only [Option.some.injEq]
  ring

theorem LifeOk.get (h : LifeOk U T s) (task : TaskId) : LifeOk U T (s.getFilesStruct task) := by
  unfold FilesSys.getFilesStruct
  cases htask : s.taskFiles task with
  | none => exact h
  | some i =>
    have hinUse : s.InUse i := .inl ⟨task, htask⟩
    have hpos := h.live hinUse
    have hcount (k : FilesId) : Function.update s.count i (s.count i+1) k = s.count k + if i =
        k then 1 else 0 := by
      rcases eq_or_ne k i with rfl | hne
      · rw [Function.update_self, if_pos rfl]
      · rw [Function.update_of_ne hne, if_neg hne.symm, add_zero]
    have hsame (k : FilesId) (hk : Function.update s.count i (s.count i+1) k = 0) :
        s.count k = 0 := by
      rw [hcount] at hk
      split at hk
      next hik => rw [← hik] at hk; omega
      next => omega
    refine ⟨h.ok, h.bug, h.tasks, fun k hk => ?_, fun k => ?_, fun k hk => h.closed k (hsame k hk)⟩
    · rcases eq_or_ne i k with rfl | hne
      · exact h.mem hinUse
      · apply h.tables k
        dsimp only at hk
        rwa [hcount, if_neg hne, add_zero] at hk
    · dsimp only
      rw [hcount, h.count]
      exact Holders.refs_cons.symm

theorem LifeOk.adopt (h : LifeOk U T s) (hi : i ∈ s.held) (htask : task ∈ U)
    (hnone : s.taskFiles task = none) :
    LifeOk U T { s with taskFiles := Function.update s.taskFiles task (some i),
                        held := s.held.erase i } := by
  apply h.handOver (h.tasks_update htask (some i))
  intro k
  have herase : Holders.refs U s.taskFiles (i :: s.held.erase i) k = s.refs U k :=
    Holders.refs_cons_erase hi
  rw [Holders.refs_cons] at herase
  rw [Holders.refs_update htask, hnone, ← herase]
  simp

/-- A call that leaves the references to tables alone. -/
theorem FilesSys.call_eq (hfork : ∀ j newf, st.call ≠ .fork j newf) :
    s.call st = { s with fd := (st.exec s.fd).2 } := by
  obtain ⟨env, mems, cur, call⟩ := st
  cases call with
  | fork j newf => exact absurd rfl (hfork j newf)
  | _ => rfl

theorem FilesSys.call_fork {newf : Option RawMem} (hcall : st.call = .fork j newf) :
    s.call st = if (st.exec s.fd).1 < 0 then { s with fd := (st.exec s.fd).2 }
      else { s with fd := (st.exec s.fd).2, count := Function.update s.count j 1,
                    held := j :: s.held } := by
  unfold FilesSys.call
  dsimp only
  rw [hcall]

theorem dupFd_failed (h : (st.exec s.fd).1 < 0) {newf : Option RawMem}
    (hcall : st.call = .fork j newf) :
    (st.exec s.fd).2 = s.fd := by
  have hexec : st.exec s.fd = s.fd.dupFd st.env newf (st.mems.headD none) st.cur j := by
    unfold FdCallStep.exec
    rw [hcall]
  rw [hexec] at h ⊢
  unfold FdSys.dupFd at h ⊢
  split at h
  next => rfl
  next => exact absurd h (lt_irrefl 0)

/-- A call on tables in use. -/
theorem LifeOk.call (h : LifeOk U T s) (hv : LifeEvent.Valid U T s (.call st)) :
    LifeOk U T (s.call st) ∧ (s.call st).outside T = s.outside T := by
  obtain ⟨hopen, hx, hcur, hpeer, hfork⟩ := hv
  have hkept : CallKept T s.fd (st.exec s.fd).2 := by
    apply st.kept h.ok (h.mem hcur) (fun j hj => h.mem (hpeer j hj)) _ hopen hx
    intro j newf hcall
    obtain ⟨hj, hzero⟩ := hfork j newf hcall
    exact ⟨hj, h.closed j hzero⟩
  have hbug : (st.exec s.fd).2.bug = false := hkept.bug.trans h.bug
  have houtside : (fun f => (st.exec s.fd).2.fCount f - (st.exec s.fd).2.slotsIn T f) =
      s.outside T :=
    funext hkept.balance
  have hothers (k : FilesId) (hk : s.count k = 0) (hne : ∀ newf, st.call ≠ .fork k newf) (fd : ℕ) :
      (st.exec s.fd).2.slot k fd = none := by
    have hsame : (st.exec s.fd).2.files k = s.fd.files k := by
      apply st.others s.fd _ _ hne
      · rintro rfl
        exact (h.live hcur).ne' hk
      · intro hkp
        exact (h.live (hpeer k hkp)).ne' hk
    show fcheckFiles ((st.exec s.fd).2.files k) fd = none
    rw [hsame]
    exact h.closed k hk fd
  by_cases hf : ∃ j newf, st.call = .fork j newf
  · obtain ⟨j, newf, hcall⟩ := hf
    obtain ⟨hj, hzero⟩ := hfork j newf hcall
    rw [FilesSys.call_fork hcall]
    split
    next hneg =>
      rw [dupFd_failed hneg hcall]
      exact ⟨h, rfl⟩
    next =>
      refine ⟨⟨hkept.ok, hbug, h.tasks, fun k hk => ?_, fun k => ?_, fun k hk => ?_⟩, houtside⟩
      · rcases eq_or_ne k j with rfl | hne
        · exact hj
        · apply h.tables k
          dsimp only at hk
          rwa [Function.update_of_ne hne] at hk
      · -- the new table has one reference, which is held
        have hrefs : s.refs U k + (if j = k then 1 else 0) =
            Holders.refs U s.taskFiles (j :: s.held) k :=
          Holders.refs_cons.symm
        show Function.update s.count j 1 k = Holders.refs U s.taskFiles (j :: s.held) k
        rw [← hrefs, ← h.count]
        rcases eq_or_ne k j with rfl | hne
        · rw [Function.update_self, hzero, if_pos rfl, zero_add]
        · rw [Function.update_of_ne hne, if_neg hne.symm, add_zero]
      · have hne : k ≠ j := by
          rintro rfl
          dsimp only at hk
          rw [Function.update_self] at hk
          exact one_ne_zero hk
        dsimp only at hk
        rw [Function.update_of_ne hne] at hk
        apply hothers k hk
        intro newf' hcall'
        rw [hcall] at hcall'
        cases hcall'
        exact hne rfl
  · have hnot : ∀ j newf, st.call ≠ .fork j newf := fun j newf hcall => hf ⟨j, newf, hcall⟩
    rw [FilesSys.call_eq hnot]
    exact ⟨⟨hkept.ok, hbug, h.tasks, h.tables, h.count, fun k hk => hothers k hk (hnot k)⟩,
      houtside⟩

/-- One event. -/
theorem LifeOk.step (h : LifeOk U T s) (ev : LifeEvent) (hv : ev.Valid U T s) :
    LifeOk U T (s.after ev) ∧ (s.after ev).outside T = s.outside T := by
  cases ev with
  | call st => exact h.call hv
  | getFiles task =>
    refine ⟨h.get task, ?_⟩
    unfold FilesSys.after FilesSys.getFilesStruct
    dsimp only
    split <;> rfl
  | putFiles i =>
    apply LifeOk.put (s := { s with held := s.held.erase i })
    exact h.handOver h.tasks fun k => Holders.refs_cons_erase hv
  | adopt task i => exact ⟨h.adopt hv.1 hv.2.1 hv.2.2, rfl⟩
  | resetFiles task i => exact h.reset hv.1 hv.2
  | exitFiles task => exact h.exit task

theorem LifeOk.uses_live (h : LifeOk U T s) (ev : LifeEvent) (hv : ev.Valid U T s) : ev.Live s := by
  intro i hi
  apply h.live
  have hof (task : TaskId) (hmem : i ∈ (s.taskFiles task).toList) : s.InUse i :=
    .inl ⟨task, Option.mem_toList.1 hmem⟩
  cases ev with
  | call st =>
    obtain ⟨-, -, hcur, hpeer, -⟩ := hv
    rcases List.mem_cons.1 hi with rfl | hi
    · exact hcur
    · exact hpeer i (Option.mem_toList.1 hi)
  | getFiles task => exact hof task hi
  | putFiles j =>
    rw [List.mem_singleton.1 hi]
    exact .inr hv
  | adopt task j =>
    rw [List.mem_singleton.1 hi]
    exact .inr hv.1
  | resetFiles task j =>
    rcases List.mem_cons.1 hi with rfl | hi
    · exact .inr hv.1
    · exact hof task hi
  | exitFiles task => exact hof task hi

end Life

/-- Over a life of tasks and their tables no freed table is touched, the counts of the tables are
the numbers of their holders, and the references to files from outside stay what they were. Once
every task has exited and nothing is held, all other references are gone. Tables grow only to sizes
that `copy_fdtable` copies: a larger one loses references. -/
theorem files_life (U : Finset TaskId) (T : Finset FilesId) (s : FilesSys) (events : List LifeEvent)
    (h : LifeOk U T s) (hv : Every FilesSys.after (LifeEvent.Valid U T) s events) :
    let t := run FilesSys.after s events
    LifeOk U T t ∧ Every FilesSys.after LifeEvent.Live s events ∧ t.outside T = s.outside T ∧
      ((∀ task, t.taskFiles task = none) → t.held = [] → t.fd.fCount = s.outside T) := by
  intro t
  obtain ⟨hok, houtside⟩ := hv.keeps (I := LifeOk U T) (FilesSys.outside T) h fun s ev h hv =>
    h.step ev hv
  obtain ⟨hlive, -⟩ :=
    hv.under (I := LifeOk U T) h fun s ev h hv => ⟨h.uses_live ev hv, (h.step ev hv).1⟩
  refine ⟨hok, hlive, houtside, fun htasks hheld => ?_⟩
  funext f
  -- a table that nobody refers to has been closed, so its slots are empty
  have hnone : t.fd.slotsIn T f = 0 := by
    apply Finset.sum_eq_zero
    intro i _
    have hzero : t.count i = 0 := (hok.count i).trans (Holders.refs_eq_zero htasks hheld)
    have hslots : slotCount (t.fd.files i) f = 0 := by
      apply slotCount_eq_zero
      intro k hk
      exact absurd ((hok.closed i hzero k).symm.trans hk) (by simp)
    rw [hslots, Nat.cast_zero]
  calc t.fd.fCount f = t.outside T f := by rw [FilesSys.outside, hnone, sub_zero]
    _ = s.outside T f := congrFun houtside f

def twoUsers : FilesSys :=
  { fd := { files := fun i => if i = 0 then oneFile 7 else if i = 1 then oneFile 8 else initFiles
            fCount := fun _ => 1, bug := false }
    count := fun i => if i < 2 then 1 else 0
    taskFiles := fun task => if task < 2 then some task else none
    held := [] }

theorem taskFiles_twoUsers {task : TaskId} {i : FilesId} (h : twoUsers.taskFiles task = some i) :
    task = i ∧ i < 2 := by
  unfold twoUsers at h
  dsimp only at h
  split at h
  next hlt =>
    cases h
    exact ⟨rfl, hlt⟩
  next => cases h

theorem lifeOk_twoUsers : LifeOk {0, 1, 2} {0, 1, 2} twoUsers := by
  have hcount {i : FilesId} (hi : ¬i < 2) : twoUsers.count i = 0 := if_neg hi
  have hsmall {i : FilesId} (hi : i < 2) : i ∈ ({0, 1, 2} : Finset ℕ) := by
    interval_cases i <;> decide
  refine ⟨?_, rfl, ?_, ?_, ?_, ?_⟩
  · intro i
    show FilesOk (if i = 0 then oneFile 7 else if i = 1 then oneFile 8 else initFiles)
    split
    · exact filesOk_oneFile 7
    split
    · exact filesOk_oneFile 8
    · exact filesOk_initFiles
  · intro task i htask
    obtain ⟨rfl, hlt⟩ := taskFiles_twoUsers htask
    exact hsmall hlt
  · intro i hi
    by_contra hmem
    exact hi (hcount fun hlt => hmem (hsmall hlt))
  · intro i
    by_cases hi : i < 2
    · interval_cases i <;> decide
    · have hnobody :
          ({0, 1, 2} : Finset ℕ).filter (fun task => twoUsers.taskFiles task = some i) = ∅ := by
        apply Finset.filter_eq_empty_iff.2
        intro task _ htask
        exact hi (taskFiles_twoUsers htask).2
      unfold FilesSys.refs Holders.refs
      rw [hcount hi, hnobody]
      rfl
  · intro i hi fd
    have hge : ¬i < 2 := by
      intro hlt
      exact absurd ((if_pos hlt).symm.trans hi) one_ne_zero
    show fcheckFiles (if i = 0 then oneFile 7 else if i = 1 then oneFile 8 else initFiles) fd = none
    have h0 : i ≠ 0 := fun h => hge (by rw [h]; decide)
    have h1 : i ≠ 1 := fun h => hge (by rw [h]; decide)
    rw [if_neg h0, if_neg h1]
    exact ite_self none

/-- The tracer gives its file to the tracee, which forks. When all three tasks have exited, the
files have lost the references that the two descriptors were at the beginning. -/
theorem files_life_twoUsers :
    let step (cur : FilesId) (call : FdCall) : LifeEvent := .call { env := smallEnv 0, cur, call }
    let events := [step 0 (.dupToRemote 1 (some ⟨0, 0⟩)), step 1 (.fork 2 (some zeroMem)),
      .adopt 2 2, .getFiles 1, .exitFiles 1, .exitFiles 0, .putFiles 1, .exitFiles 2]
    let after (n : ℕ) := run FilesSys.after twoUsers (events.take n)
    ((after 2).fd.fCount 7 = 3 ∧ (after 6).fd.fCount 7 = 2 ∧ (after 8).fd.fCount 7 = 0) ∧
      (after 8).fd.fCount = twoUsers.outside {0, 1, 2} := by
  intro step events after
  refine ⟨by decide +kernel, ?_⟩
  have hpeer (s : FilesSys) (h : s.taskFiles 1 = some 1) (j : FilesId) (hj : some 1 = some j) :
      s.InUse j := by
    cases hj
    exact .inl ⟨1, h⟩
  obtain ⟨hok, -, -, hgone⟩ := files_life {0, 1, 2} {0, 1, 2} twoUsers events lifeOk_twoUsers (by
    refine ⟨?_, ?_, ?_, trivial, trivial, trivial, ?_, trivial, trivial⟩
    · refine ⟨by decide, ?_, .inl ⟨0, rfl⟩, hpeer _ rfl, fun j newf h => by cases h⟩
      show GrowsExactly 1024 (oneFile 8) (candidateFd (oneFile 8) 0)
      decide
    · refine ⟨by decide, trivial, .inl ⟨1, rfl⟩, fun j hj => (by cases hj), fun j newf h => ?_⟩
      cases h
      exact ⟨by decide, rfl⟩
    · exact ⟨by decide +kernel, by decide, by decide +kernel⟩
    · show 1 ∈ _
      decide +kernel)
  apply hgone
  · intro task
    cases htask : (run FilesSys.after twoUsers events).taskFiles task with
    | none => rfl
    | some i =>
      have hmem := hok.tasks task i htask
      have hcases : task = 0 ∨ task = 1 ∨ task = 2 := by simpa using hmem
      have hnone : (run FilesSys.after twoUsers events).taskFiles task = none := by
        rcases hcases with rfl | rfl | rfl <;> decide +kernel
      exact absurd (hnone.symm.trans htask) (by simp)
  · decide +kernel

end PtraceRemote
