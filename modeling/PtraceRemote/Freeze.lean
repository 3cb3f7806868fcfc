import PtraceRemote.Basic

/-! The attach, freeze and unfreeze protocol of `kernel/ptrace.c` for one tracee and any number of
callers. What a remote request works on, the tracee's `mm` and `files`, is one opaque component
`res`. -/
namespace PtraceRemote

def taskRunning : ℕ := 0
def taskInterruptible : ℕ := 1
def taskStoppedBit : ℕ := 4
def taskFrozen : ℕ := 8
def taskDead : ℕ := 64
def taskWakekill : ℕ := 128
def taskTraced : ℕ := taskWakekill ||| taskFrozen

def ptPtraced : BitVec 32 := 0x1
def ptSeized : BitVec 32 := 0x10000
def ptraceOMask : BitVec 32 := 0x3000ff
def ptExitkill : BitVec 32 := 0x100000 <<< 3

abbrev Tid := ℕ

inductive RemoteRequest where
  | mmap | munmap | mremap | mprotect | dupToRemote | dup2ToRemote | dupFromRemote | close
  deriving DecidableEq

/-- The requests of `ptrace()`. `resume` stands for `PTRACE_CONT`, `PTRACE_SYSCALL` and the stepping
requests, `other` for those whose body neither resumes nor detaches the tracee (peek and poke,
registers, siginfo, signal mask, seccomp filter, unknown requests). -/
inductive Request where
  | traceme | attach | seize | kill | interrupt | listen
  | detach (validSignal : Bool)
  | resume (valid : Bool)
  | setoptions (data : BitVec 32)
  | other
  | remote (r : RemoteRequest)
  deriving DecidableEq

def Request.ignoreState : Request → Bool
  | kill => true
  | interrupt => true
  | _ => false

def Request.attaches : Request → Bool
  | traceme => true
  | attach => true
  | seize => true
  | _ => false

def Request.isDetach : Request → Bool
  | detach _ => true
  | _ => false

/-- Where a task is in its `ptrace()` call. `outside` remembers the last call: its request, its
result and whether its body ran. -/
inductive Call where
  | outside (last : Option (Request × ℤ × Bool))
  | called (compat : Bool) (req : Request)
  /-- the tracee is frozen and the caller is in `wait_task_inactive` -/
  | waiting (compat : Bool) (req : Request)
  /-- in `arch_ptrace` or `compat_arch_ptrace` -/
  | body (compat : Bool) (req : Request)
  | bodyDone (req : Request) (ret : ℤ)

def Call.attached : Call → Bool
  | waiting _ _ => true
  | body _ _ => true
  | bodyDone req ret => !(req.isDetach && ret == 0)
  | _ => false

def Call.ignoreState : Call → Bool
  | waiting _ req => req.ignoreState
  | body _ req => req.ignoreState
  | bodyDone req _ => req.ignoreState
  | _ => false

def Call.owns (p : Call) : Bool := p.attached && !p.ignoreState

/-- `killedFrozen` is history: a SIGKILL came while the tracee was frozen, and it has not been made
runnable since. `onCpu` is false once the tracee has left the processor. -/
structure Tracee (ρ : Type*) where
  state : ℕ
  onCpu : Bool
  ptrace : BitVec 32
  parent : Tid
  realParent : Tid
  listening : Bool
  trapNotify : Bool
  eventStop : Bool
  fatal : Bool
  exited : Bool
  self : Tid
  killedFrozen : Bool
  res : ρ
  call : Tid → Call

namespace Tracee
variable {ρ : Type*}

def setCall (s : Tracee ρ) (c : Tid) (p : Call) : Tracee ρ :=
  { s with call := Function.update s.call c p }

def taskIsTraced (s : Tracee ρ) : Bool := s.state &&& taskFrozen ≠ 0

def wakeUpState (s : Tracee ρ) (mask : ℕ) : Tracee ρ :=
  if s.state &&& mask ≠ 0 then
    { s with state := taskRunning, onCpu := true, killedFrozen := false }
  else s

def ptraceSignalWakeUp (s : Tracee ρ) (resume : Bool) : Tracee ρ :=
  s.wakeUpState ((if resume then taskFrozen else 0) ||| taskInterruptible)

def ptraceUnlink (s : Tracee ρ) (stopPending : Bool) : Tracee ρ :=
  let s := { s with parent := s.realParent, ptrace := 0, trapNotify := false }
  if stopPending || s.taskIsTraced then s.ptraceSignalWakeUp true else s

def canFreeze (s : Tracee ρ) : Bool := !s.listening && s.taskIsTraced && !s.fatal

def ptraceUnfreezeTraced (s : Tracee ρ) : Tracee ρ :=
  if s.state ≠ taskFrozen then s
  else if s.fatal then s.wakeUpState taskFrozen
  else { s with state := taskTraced }

def isTracedBy (s : Tracee ρ) (c : Tid) : Prop := s.ptrace ≠ 0 ∧ s.parent = c

def sigkill (s : Tracee ρ) : Tracee ρ :=
  { s with
    fatal := true
    killedFrozen := s.killedFrozen || s.state == taskFrozen }.wakeUpState
      (taskWakekill ||| taskInterruptible)

def ptraceSetoptions (s : Tracee ρ) (valid : Bool) (opts : BitVec 32) : ℤ × Tracee ρ :=
  if valid then (0, { s with ptrace := s.ptrace &&& ~~~(ptraceOMask <<< 3) ||| opts <<< 3 })
  else (-EINVAL, s)

def seized (s : Tracee ρ) : Bool := s.ptrace &&& ptSeized ≠ 0

def ptraceInterrupt (s : Tracee ρ) (locked pending : Bool) : ℤ × Tracee ρ :=
  if s.seized && locked then (0, if pending then s.ptraceSignalWakeUp s.listening else s)
  else (- EIO, s)

def ptraceListen (s : Tracee ρ) (locked : Bool) : ℤ × Tracee ρ :=
  if s.seized && locked && s.eventStop then
    let s := { s with listening := true }
    (0, if s.trapNotify then s.ptraceSignalWakeUp true else s)
  else (- EIO, s)

def ptraceDetach (s : Tracee ρ) (valid stopPending : Bool) : ℤ × Tracee ρ :=
  if valid then (0, s.ptraceUnlink stopPending) else (- EIO, s)

def ptraceResume (s : Tracee ρ) (valid : Bool) : ℤ × Tracee ρ :=
  if valid then (0, s.wakeUpState taskFrozen) else (- EIO, s)

def requestBody (s : Tracee ρ) (lucky pending : Bool) (data : ℤ) : Request → ℤ × Tracee ρ
  | .setoptions opts => s.ptraceSetoptions lucky opts
  | .interrupt => s.ptraceInterrupt lucky pending
  | .listen => s.ptraceListen lucky
  | .detach valid => s.ptraceDetach valid pending
  | .resume valid => s.ptraceResume valid
  | .kill => if s.exited then (0, s) else s.ptraceResume true
  | .traceme => (data, s)
  | .attach => (data, s)
  | .seize => (data, s)
  | .other => (data, s)
  | .remote _ => (data, s)

def checkAttachDone (s : Tracee ρ) (c : Tid) (compat : Bool) (req : Request) (ret : ℤ) : Tracee ρ :=
  if (if compat then ret ≠ 0 else ret < 0) then s.setCall c (.outside (some (req, ret, false)))
  else s.setCall c (.body compat req)

end Tracee

open Tracee

/-- One step of the task `c` in its `ptrace()` call on the tracee. -/
inductive CallStep {ρ : Type*} (c : Tid) (s : Tracee ρ) : Tracee ρ → Prop
  | call (compat : Bool) (req : Request) (last : Option (Request × ℤ × Bool))
    (hp : s.call c = .outside last) : CallStep c s (s.setCall c (.called compat req))
  /-- `ptrace_get_task_struct` finds no task -/
  | lookup (compat : Bool) (req : Request) (hp : s.call c = .called compat req) :
    CallStep c s (s.setCall c (.outside (some (req, -ESRCH, false))))
  /-- `PTRACE_TRACEME` by the tracee itself -/
  | traceme (compat : Bool) (hp : s.call c = .called compat .traceme) (hc : c = s.self)
    (h0 : s.ptrace = 0) :
    CallStep c s ({ s with ptrace := ptPtraced, parent := s.realParent }.setCall c
      (.outside (some (.traceme, 0, true))))
  /-- `ptrace_attach` behind its checks -/
  | attach (compat : Bool) (req : Request) (opts : BitVec 32) (hp : s.call c = .called compat req)
    (hreq : req = .attach ∨ req = .seize) (hc : c ≠ s.self) (h0 : s.ptrace = 0)
    (hex : s.exited = false) :
    CallStep c s (({ s with
        ptrace := if req = Request.seize then ptPtraced ||| ptSeized ||| opts <<< 3 else ptPtraced
        parent := c }.wakeUpState (taskInterruptible ||| taskStoppedBit)).setCall c
      (.outside (some (req, 0, true))))
  /-- the failures of `ptrace_traceme` and `ptrace_attach` -/
  | attachFails (compat : Bool) (req : Request) (ret : ℤ) (hp : s.call c = .called compat req)
    (hreq : req.attaches = true) : CallStep c s (s.setCall c (.outside (some (req, ret, false))))
  | checkFails (compat : Bool) (req : Request) (hp : s.call c = .called compat req)
    (hreq : req.attaches = false)
    (hno : ¬(s.isTracedBy c ∧ (req.ignoreState = true ∨ s.canFreeze = true))) :
    CallStep c s (s.checkAttachDone c compat req (-ESRCH))
  | checkIgnore (compat : Bool) (req : Request) (hp : s.call c = .called compat req)
    (hreq : req.ignoreState = true) (ht : s.isTracedBy c) :
    CallStep c s (s.checkAttachDone c compat req 0)
  /-- `ptrace_freeze_traced`, under `siglock` -/
  | freeze (compat : Bool) (req : Request) (hp : s.call c = .called compat req)
    (hreq : req.attaches = false) (hi : req.ignoreState = false) (ht : s.isTracedBy c)
    (hf : s.canFreeze = true) :
    CallStep c s ({ s with state := taskFrozen }.setCall c (.waiting compat req))
  /-- `wait_task_inactive` sees another state than the one it waits for -/
  | waitFails (compat : Bool) (req : Request) (hp : s.call c = .waiting compat req)
    (hst : s.state ≠ taskFrozen) : CallStep c s (s.checkAttachDone c compat req (-ESRCH))
  | waitDone (compat : Bool) (req : Request) (hp : s.call c = .waiting compat req)
    (hst : s.state = taskFrozen) (hcpu : s.onCpu = false) :
    CallStep c s (s.checkAttachDone c compat req 0)
  /-- a remote request works on the tracee's `mm` and `files` -/
  | remote (compat : Bool) (r : RemoteRequest) (res : ρ)
      (hp : s.call c = .body compat (.remote r)) :
    CallStep c s { s with res := res }
  | bodyEnd (compat : Bool) (req : Request) (lucky pending : Bool) (data : ℤ)
    (hp : s.call c = .body compat req) :
    CallStep c s ((s.requestBody lucky pending data req).2.setCall c
      (.bodyDone req (s.requestBody lucky pending data req).1))
  | finish (req : Request) (ret : ℤ) (hp : s.call c = .bodyDone req ret) :
    CallStep c s ((if ret ≠ 0 ∨ req.isDetach = false then s.ptraceUnfreezeTraced else s).setCall c
      (.outside (some (req, ret, true))))

inductive EnvStep {ρ : Type*} (s : Tracee ρ) : Tracee ρ → Prop
  /-- the tracee runs on its own: it may change everything it owns and dequeue a SIGKILL -/
  | run (res : ρ) (fatal : Bool) (hst : s.state = taskRunning) :
    EnvStep s { s with res := res, fatal := fatal, listening := false, onCpu := true }
  /-- `ptrace_stop` -/
  | stop (eventStop : Bool) (hst : s.state = taskRunning) (ht : s.ptrace ≠ 0)
    (hex : s.exited = false) : EnvStep s { s with state := taskTraced, eventStop := eventStop }
  /-- `may_ptrace_stop` fails, so `ptrace_stop` returns without having slept -/
  | stopAborted (hcpu : s.onCpu = true) (ht : s.taskIsTraced = true) :
    EnvStep s { s with state := taskRunning, killedFrozen := false }
  /-- the tracee leaves the processor, unless `signal_pending_state` keeps it runnable -/
  | schedule (hst : s.state ≠ taskRunning) :
    EnvStep s (if s.state &&& taskWakekill ≠ 0 ∧ s.fatal = true then
      { s with state := taskRunning, onCpu := true, killedFrozen := false }
      else { s with onCpu := false })
  | sleep (st : ℕ) (hst : s.state = taskRunning) (hs : st &&& taskFrozen = 0) :
    EnvStep s { s with state := st }
  /-- a wake-up from a sleep that is not a ptrace stop -/
  | wake (hs : s.taskIsTraced = false) (hex : s.exited = false) :
    EnvStep s { s with state := taskRunning, onCpu := true }
  | exit (hst : s.state = taskRunning) : EnvStep s { s with exited := true, state := taskDead }
  /-- `release_task` unlinks a dead tracee -/
  | release (hex : s.exited = true) : EnvStep s { s with ptrace := 0, parent := s.realParent }
  | reparent (p : Tid) :
    EnvStep s { s with realParent := p, parent := if s.ptrace = 0 then p else s.parent }
  | sigkill : EnvStep s s.sigkill
  /-- a group-stop event: `ptrace_trap_notify` -/
  | trapNotify : EnvStep s ({ s with trapNotify := true }.ptraceSignalWakeUp s.listening)
  /-- `exit_ptrace` of a tracer, which is not inside `ptrace()` then -/
  | exitPtrace (c : Tid) (last : Option (Request × ℤ × Bool)) (stopPending : Bool)
    (hp : s.call c = .outside last) (ht : s.isTracedBy c) :
    EnvStep s ((if s.ptrace &&& ptExitkill ≠ 0 then s.sigkill else s).ptraceUnlink stopPending)

inductive FreezeStep {ρ : Type*} (s : Tracee ρ) : Tracee ρ → Prop
  | call (c : Tid) (s' : Tracee ρ) (h : CallStep c s s') : FreezeStep s s'
  | env (s' : Tracee ρ) (h : EnvStep s s') : FreezeStep s s'

end PtraceRemote
