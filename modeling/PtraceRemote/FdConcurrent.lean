import PtraceRemote.FdTableInv

/-! One `files_struct` used by many tasks. A step is one `file_lock` critical section or one step of
the `rcu-sched` section of `__fd_install`, so runs are all interleavings of these. -/
namespace PtraceRemote

abbrev TaskId := ℕ

inductive Want where
  | alloc (start endFd flags : ℕ)
  | dup2 (fd : ℕ) (file : Option FileId) (flags : ℕ)

inductive Pc where
  | idle
  /-- in `expand_files`, waiting for the resize of another task -/
  | waiting (w : Want) (nr : ℕ)
  /-- in `expand_fdtable` with the lock dropped, before it reads `count` -/
  | resizing (w : Want) (nr : ℕ)
  /-- in `expand_fdtable`, in or behind `synchronize_sched`, with its new table -/
  | resized (w : Want) (nr : ℕ) (newFdt : Option Fdtable)
  /-- in `__fd_install`, behind `rcu_read_lock_sched` -/
  | entered (fd : ℕ) (file : FileId)
  /-- in `__fd_install`, outside the section, waiting for a resize to end -/
  | installWait (fd : ℕ) (file : FileId)
  /-- `resize_in_progress` was seen to be false -/
  | tested (fd : ℕ) (file : FileId)
  /-- `files->fdt` was read -/
  | loaded (fd : ℕ) (file : FileId) (fdt : ℕ)

namespace Pc

def resizes : Pc → Option ℕ
  | resizing _ nr => some nr
  | resized _ nr _ => some nr
  | _ => none

def installs : Pc → Option ℕ
  | entered fd _ => some fd
  | installWait fd _ => some fd
  | tested fd _ => some fd
  | loaded fd _ _ => some fd
  | _ => none

def inRcu : Pc → Bool
  | entered _ _ => true
  | tested _ _ => true
  | loaded _ _ _ => true
  | _ => false

def pastTest : Pc → Bool
  | tested _ _ => true
  | loaded _ _ _ => true
  | _ => false

end Pc

/-- The shared table and the tasks. `grace` are the sections a running `synchronize_sched` still
waits for. `held` and `installed` are history: the descriptors each task reserved and did not
install or give back yet, and the file last put into each slot and not removed since. When `count`
is one, `sole` is the only task that acts. -/
structure Shared where
  tables : ℕ → Fdtable
  fdt : ℕ
  nextFd : ℕ
  resizeInProgress : Bool
  count : ℕ
  sole : TaskId
  pc : TaskId → Pc
  grace : TaskId → Bool
  held : TaskId → List ℕ
  installed : ℕ → Option FileId
  bug : Bool

namespace Shared

def view (s : Shared) : FilesStruct := ⟨s.tables s.fdt, s.nextFd⟩

def setView (s : Shared) (files : FilesStruct) : Shared :=
  { s with tables := Function.update s.tables s.fdt files.fdt, nextFd := files.nextFd }

def setPc (s : Shared) (t : TaskId) (p : Pc) : Shared :=
  { s with pc := Function.update s.pc t p }

def expandSlow (nrOpen : ℕ) (t : TaskId) (w : Want) (nr : ℕ) (s : Shared) : Shared :=
  if nr ≥ nrOpen then s.setPc t .idle
  else if s.resizeInProgress then s.setPc t (.waiting w nr)
  else { s with resizeInProgress := true }.setPc t (.resizing w nr)

def allocSection (nrOpen : ℕ) (t : TaskId) (start endFd flags : ℕ) (s : Shared) : Shared :=
  let fd := candidateFd s.view start
  if fd ≥ endFd then s.setPc t .idle
  else if fd < s.view.fdt.maxFds then
    { s.setView (takeFd s.view start flags fd) with
      held := Function.update s.held t (fd :: s.held t) }.setPc t .idle
  else s.expandSlow nrOpen t (.alloc start endFd flags) fd

def dup2Section (nrOpen : ℕ) (t : TaskId) (fd : ℕ) (file : Option FileId) (flags : ℕ) (s : Shared) :
    Shared :=
  if fd < s.view.fdt.maxFds then
    match file with
    | none => s.setPc t .idle
    | some f =>
      let r := doDup2 s.view f fd flags
      if r.1 < 0 then s.setPc t .idle
      else { s.setView r.2.1 with
        installed := Function.update s.installed fd (some f) }.setPc t .idle
  else s.expandSlow nrOpen t (.dup2 fd file flags) fd

def lockSection (nrOpen : ℕ) (t : TaskId) (w : Want) (s : Shared) : Shared :=
  match w with
  | .alloc start endFd flags => s.allocSection nrOpen t start endFd flags
  | .dup2 fd file flags => s.dup2Section nrOpen t fd file flags

def resume (nrOpen : ℕ) (t : TaskId) (w : Want) (nr : ℕ) (s : Shared) : Shared :=
  if nr < s.view.fdt.maxFds then s.lockSection nrOpen t w else s.expandSlow nrOpen t w nr

def finishResize (nrOpen : ℕ) (t : TaskId) (w : Want) (nr : ℕ) (newFdt : Option Fdtable) (a : ℕ)
    (s : Shared) : Shared :=
  let done := { s with resizeInProgress := false }
  match newFdt with
  | none => done.setPc t .idle
  | some n =>
    if n.maxFds ≤ nr then done.setPc t .idle
    else if nr < s.view.fdt.maxFds ∨ n.maxFds < s.view.fdt.maxFds then { s with bug := true }
    else { done with
      tables := Function.update s.tables a (copyFdtable n s.view.fdt)
      fdt := a }.lockSection nrOpen t w

def closeSection (fd : ℕ) (s : Shared) : Shared :=
  match closeFd s.view fd with
  | (none, _) => s
  | (some _, files) => { s.setView files with installed := Function.update s.installed fd none }

def store (t : TaskId) (fd : ℕ) (file : FileId) (a : ℕ) (s : Shared) : Shared :=
  if (s.tables a).fd fd ≠ none then { s with bug := true }
  else
    let fdt := { s.tables a with fd := Function.update (s.tables a).fd fd (some file) }
    { s with
      tables := Function.update s.tables a fdt
      grace := Function.update s.grace t false
      held := Function.update s.held t ((s.held t).erase fd)
      installed := Function.update s.installed fd (some file) }.setPc t .idle

def Acts (s : Shared) (t : TaskId) : Prop := s.count = 1 → t = s.sole

end Shared

open Shared

inductive FdStep (s : Shared) : Shared → Prop
  | enter (nrOpen : ℕ) (t : TaskId) (w : Want) (ht : s.Acts t) (hp : s.pc t = .idle) :
    FdStep s (s.lockSection nrOpen t w)
  | resume (nrOpen : ℕ) (t : TaskId) (w : Want) (nr : ℕ) (ht : s.Acts t)
    (hp : s.pc t = .waiting w nr) : FdStep s (s.resume nrOpen t w nr)
  /-- allocate the new table, read `count` and start waiting for the open sections -/
  | synchronize (nrOpen : ℕ) (mem : Option RawMem) (t : TaskId) (w : Want) (nr : ℕ)
    (ht : s.Acts t) (hp : s.pc t = .resizing w nr) :
    FdStep s ({ s with grace := fun u => decide (s.count > 1) && (s.pc u).inRcu }.setPc t
      (.resized w nr (allocFdtable nrOpen mem nr)))
  | finish (nrOpen : ℕ) (t : TaskId) (w : Want) (nr : ℕ) (newFdt : Option Fdtable) (a : ℕ)
    (ht : s.Acts t) (hp : s.pc t = .resized w nr newFdt) (hg : ∀ u, s.grace u = false)
    (ha : a ≠ s.fdt) : FdStep s (s.finishResize nrOpen t w nr newFdt a)
  | close (t : TaskId) (fd : ℕ) (ht : s.Acts t) (hp : s.pc t = .idle) :
    FdStep s (s.closeSection fd)
  | putUnused (t : TaskId) (fd : ℕ) (ht : s.Acts t) (hp : s.pc t = .idle) (hh : fd ∈ s.held t) :
    FdStep s { s.setView (putUnusedFd s.view fd) with
      held := Function.update s.held t ((s.held t).erase fd) }
  | install (t : TaskId) (fd : ℕ) (file : FileId) (ht : s.Acts t) (hp : s.pc t = .idle)
    (hh : fd ∈ s.held t) : FdStep s (s.setPc t (.entered fd file))
  | test (t : TaskId) (fd : ℕ) (file : FileId) (ht : s.Acts t) (hp : s.pc t = .entered fd file)
    (hr : s.resizeInProgress = false) : FdStep s (s.setPc t (.tested fd file))
  | leave (t : TaskId) (fd : ℕ) (file : FileId) (ht : s.Acts t) (hp : s.pc t = .entered fd file)
    (hr : s.resizeInProgress = true) :
    FdStep s ({ s with grace := Function.update s.grace t false }.setPc t (.installWait fd file))
  | retry (t : TaskId) (fd : ℕ) (file : FileId) (ht : s.Acts t)
    (hp : s.pc t = .installWait fd file) : FdStep s (s.setPc t (.entered fd file))
  | load (t : TaskId) (fd : ℕ) (file : FileId) (ht : s.Acts t) (hp : s.pc t = .tested fd file) :
    FdStep s (s.setPc t (.loaded fd file s.fdt))
  | store (t : TaskId) (fd : ℕ) (file : FileId) (a : ℕ) (ht : s.Acts t)
    (hp : s.pc t = .loaded fd file a) : FdStep s (s.store t fd file a)
  /-- `count` drops to one only when nobody but the sole user is inside a call -/
  | setCount (count : ℕ) (sole : TaskId) (hpos : 0 < count)
      (hc : count = 1 → ∀ t, t ≠ sole → s.pc t = .idle) :
    FdStep s { s with count := count, sole := sole }

def ResizesExactly (s : Shared) : Prop :=
  ∀ t w nr n, s.pc t = .resized w nr (some n) → nr < n.maxFds →
    GrowthExact s.view.fdt.maxFds n.maxFds

end PtraceRemote
