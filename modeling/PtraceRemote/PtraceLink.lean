import PtraceRemote.Freeze
import PtraceRemote.ListHead

/-! Who traces whom: the `ptrace` word, the `parent` pointer and the `ptraced` lists of all tasks,
as kernel/ptrace.c and include/linux/ptrace.h change them. A task has one `ptrace_entry`, which is
on the list of its tracer or, while its tracer exits, on a list of dead tasks. -/
namespace PtraceRemote

open ListHead (Links)

inductive ExitState where
  | running | zombie | dead
  deriving DecidableEq

structure Task where
  ptrace : BitVec 32 := 0
  parent : Tid := 0
  realParent : Tid := 0
  exitState : ExitState := .running
  exiting : Bool := false
  kthread : Bool := false
  group : ℕ := 0
  leader : Bool := true

inductive TaskNode where
  | ptraced (t : Tid)
  | entry (t : Tid)
  | dead (d : ℕ)
  deriving DecidableEq

/-- The tasks `0, …, nrTasks-1` exist. `bug` records that a `BUG_ON` was hit. -/
structure Tasks where
  task : Tid → Task
  nrTasks : ℕ
  nrDead : ℕ
  links : Links TaskNode
  bug : Bool := false

structure ReapEnv where
  groupEmpty : Tid → Bool
  notify : Tid → Bool
  ignoring : Bool

namespace Tasks

def modTask (s : Tasks) (t : Tid) (f : Task → Task) : Tasks :=
  { s with task := Function.update s.task t (f (s.task t)) }

def link (s : Tasks) (child newParent : Tid) : Tasks :=
  let s := { s with bug := s.bug || !s.links.isEmpty (.entry child) }
  let s := { s with links := s.links.add (.entry child) (.ptraced newParent) }
  s.modTask child fun v => { v with parent := newParent }

def unlink (s : Tasks) (child : Tid) : Tasks :=
  let s := { s with bug := s.bug || decide ((s.task child).ptrace = 0) }
  let s := s.modTask child fun v => { v with parent := v.realParent }
  let s := { s with links := s.links.delInit (.entry child) }
  s.modTask child fun v => { v with ptrace := 0 }

def attachWord (seize : Bool) (flags : BitVec 64) : BitVec 32 :=
  if seize then ptPtraced ||| ptSeized ||| (flags <<< 3).setWidth 32 else ptPtraced

def ERESTARTNOINTR : ℤ := 513

def ptraceAttach (s : Tasks) (cur t : Tid) (seize : Bool) (addr flags : BitVec 64)
    (interrupted : Bool) (access : ℤ) : ℤ × Tasks :=
  if seize ∧ (addr ≠ 0 ∨ flags &&& ~~~ptraceOMask.setWidth 64 ≠ 0) then (- EIO, s)
  else if (s.task t).kthread ∨ (s.task t).group = (s.task cur).group then (-EPERM, s)
  else if interrupted then (-ERESTARTNOINTR, s)
  else if access ≠ 0 then (access, s)
  else if (s.task t).exitState ≠ .running ∨ (s.task t).ptrace ≠ 0 then (-EPERM, s)
  else (0, (s.modTask t fun v => { v with ptrace := attachWord seize flags }).link t cur)

def ptraceTraceme (s : Tasks) (cur : Tid) (security : ℤ) : ℤ × Tasks :=
  if (s.task cur).ptrace ≠ 0 then (-EPERM, s)
  else if security = 0 ∧ (s.task (s.task cur).realParent).exiting = false then
    (security, (s.modTask cur fun v => { v with ptrace := ptPtraced }).link cur
      (s.task cur).realParent)
  else (security, s)

def ptraceSetoptions (s : Tasks) (child : Tid) (data : BitVec 64) (suspend : ℤ) : ℤ × Tasks :=
  if data &&& ~~~ptraceOMask.setWidth 64 ≠ 0 then (-EINVAL, s)
  else if data &&& 0x200000 ≠ 0 ∧ suspend ≠ 0 then (suspend, s)
  else (0, s.modTask child fun v => { v with
    ptrace := (v.ptrace &&& ~~~(ptraceOMask <<< 3)) ||| (data <<< 3).setWidth 32 })

def reaps (s : Tasks) (env : ReapEnv) (tracer p : Tid) : Bool :=
  let v := s.task p
  if v.exitState ≠ .zombie then false
  else if v.leader = false then true
  else if env.groupEmpty p then
    if (s.task v.realParent).group ≠ (s.task tracer).group then env.notify p else env.ignoring
  else false

def detach (s : Tasks) (env : ReapEnv) (tracer p : Tid) : Bool × Tasks :=
  let s := s.unlink p
  if s.reaps env tracer p then (true, s.modTask p fun v => { v with exitState := .dead })
    else (false, s)

def ptraceDetach (s : Tasks) (env : ReapEnv) (cur child : Tid) (data : ℕ) : ℤ × Tasks :=
  if data > 64 then (- EIO, s) else (0, (s.detach env cur child).2)

def exitLoop (env : ReapEnv) (tracer : Tid) (d : ℕ) : ℕ → TaskNode → Tasks → Tasks
  | 0, _, s => { s with bug := true }
  | fuel+1, p, s =>
    if p = .ptraced tracer then s
    else match p with
    | .entry t =>
      let n := s.links.next p
      let r := s.detach env tracer t
      let s := if r.1 then { r.2 with links := r.2.links.add (.entry t) (.dead d) } else r.2
      exitLoop env tracer d fuel n s
    | _ => { s with bug := true }

def exitPtrace (s : Tasks) (env : ReapEnv) (tracer : Tid) : Tasks :=
  let d := s.nrDead
  let s := { s with links := s.links.init (.dead d), nrDead := d+1 }
  exitLoop env tracer d (s.nrTasks+1) (s.links.next (.ptraced tracer)) s

def newTask (s : Tasks) (v : Task) : Tasks :=
  { s with
    task := Function.update s.task s.nrTasks { v with ptrace := 0, parent := v.realParent }
    nrTasks := s.nrTasks+1
    links := (s.links.init (.entry s.nrTasks)).init (.ptraced s.nrTasks) }

def ptraceInitTask (s : Tasks) (cur : Tid) (v : Task) (ptrace : Bool) : Tasks :=
  let child := s.nrTasks
  let s := s.newTask v
  if ptrace ∧ (s.task cur).ptrace ≠ 0 then
    (s.modTask child fun v => { v with ptrace := (s.task cur).ptrace }).link child
      (s.task cur).parent
  else s

def attached (s : Tasks) (cur child : Tid) : Bool :=
  decide (child < s.nrTasks) && decide ((s.task child).ptrace ≠ 0) &&
    decide ((s.task child).parent = cur)

def taskOf : TaskNode → Option Tid
  | .entry t => some t
  | _ => none

def ptracedList (s : Tasks) (u : Tid) : List Tid :=
  (s.links.toList (.ptraced u) s.nrTasks).filterMap taskOf

def deadList (s : Tasks) (d : ℕ) : List Tid := (s.links.toList (.dead d) s.nrTasks).filterMap taskOf

def runs (s : Tasks) (t : Tid) : Bool :=
  decide (t < s.nrTasks) && decide ((s.task t).exitState = .running)

end Tasks

/-- The operations on the relation. `exits` sets `PF_EXITING`, `becomesZombie` is the end of
`do_exit`. -/
inductive RelOp where
  | traceme (cur : Tid) (security : ℤ)
  | attach (cur t : Tid) (seize : Bool) (addr flags : BitVec 64) (interrupted : Bool) (access : ℤ)
  | setoptions (cur child : Tid) (data : BitVec 64) (suspend : ℤ)
  | detach (cur child : Tid) (data : ℕ) (env : ReapEnv)
  | exitPtrace (tracer : Tid) (env : ReapEnv)
  | initTask (cur : Tid) (v : Task) (ptrace : Bool)
  | exits (t : Tid)
  | becomesZombie (t : Tid)

namespace Tasks

def step (s : Tasks) : RelOp → Option Tasks
  | .traceme cur security => if s.runs cur then some (s.ptraceTraceme cur security).2 else none
  | .attach cur t seize addr flags interrupted access =>
    if s.runs cur ∧ t < s.nrTasks then
      some (s.ptraceAttach cur t seize addr flags interrupted access).2 else none
  | .setoptions cur child data suspend =>
    if s.attached cur child then some (s.ptraceSetoptions child data suspend).2 else none
  | .detach cur child data env =>
    if s.attached cur child then some (s.ptraceDetach env cur child data).2 else none
  | .exitPtrace tracer env => if tracer < s.nrTasks then some (s.exitPtrace env tracer) else none
  | .initTask cur v ptrace =>
    if s.runs cur ∧ v.realParent < s.nrTasks then some (s.ptraceInitTask cur v ptrace) else none
  | .exits t =>
    if t < s.nrTasks then some (s.modTask t fun v => { v with exiting := true }) else none
  | .becomesZombie t =>
    if s.runs t then some (s.modTask t fun v => { v with exitState := .zombie }) else none

def run : List RelOp → Tasks → Option Tasks
  | [], s => some s
  | op :: ops, s => (s.step op).bind (run ops)

end Tasks

end PtraceRemote
