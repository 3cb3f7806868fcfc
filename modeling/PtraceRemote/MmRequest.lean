import PtraceRemote.MmMove
import PtraceRemote.MmProt

/-! The memory requests of kernel/ptrace.c, and the operations that a task or its tracer can make
one after the other. -/
namespace PtraceRemote

open AugTree (Balance)

/-- The argument block of a request in the memory of the tracer: can it be read, and can it be
written? -/
structure UserPtr where
  readable : Bool := true
  writable : Bool := true
  deriving DecidableEq, Repr

def isErrValue (r : ℤ) : Bool := decide (-4096 < r ∧ r < 0)

def withArgs (user : UserPtr) (s : MmSys) (request : ℤ × MmSys) : ℤ × MmSys :=
  if user.readable = false then (-EFAULT, s) else request

def returnAddr (user : UserPtr) (r : ℤ × MmSys) : ℤ × MmSys :=
  if isErrValue r.1 then r
  else if user.writable = false then (-EFAULT, r.2)
  else (0, r.2)

variable (rb : Balance VmaId) (env : MmEnv) (s : MmSys) (user : UserPtr)

def ptraceRemoteMmap (file : Option FileId) (addr len : ℕ) (prot flags : Bits) (offset : ℕ) :
    ℤ × MmSys :=
  withArgs user s (returnAddr user (doMmapRemote rb env s file addr len prot flags offset))

def lockedMunmap (addr len : ℕ) : ℤ × MmSys :=
  let lock := s.outcome
  if lock.1 ≠ 0 then (-EINTR, lock.2) else doMunmap rb env.conf lock.2 addr len

def ptraceRemoteMunmap (addr len : ℕ) : ℤ × MmSys :=
  withArgs user s (lockedMunmap rb env s addr len)

def ptraceRemoteMremap (addr oldLen newLen : ℕ) (flags : Bits) (newAddr : ℕ) : ℤ × MmSys :=
  let r := mremapTask rb env s addr oldLen newLen flags newAddr
  withArgs user s (returnAddr user (r.1, r.2.2))

def ptraceRemoteMprotect (addr len : ℕ) (prot : Bits) : ℤ × MmSys :=
  withArgs user s (mprotectTask rb env s addr len prot)

/-- An operation on the address space: a request of the tracer or a system call of the task
itself. -/
inductive MmCall where
  | remoteMmap (user : UserPtr) (file : Option FileId) (addr len : ℕ) (prot flags : Bits)
      (offset : ℕ)
  | remoteMunmap (user : UserPtr) (addr len : ℕ)
  | remoteMremap (user : UserPtr) (addr oldLen newLen : ℕ) (flags : Bits) (newAddr : ℕ)
  | remoteMprotect (user : UserPtr) (addr len : ℕ) (prot : Bits)
  | mmap (file : Option FileId) (addr len : ℕ) (prot flags : Bits) (pgoff : BitVec 64)
  | munmap (addr len : ℕ)
  | mremap (addr oldLen newLen : ℕ) (flags : Bits) (newAddr : ℕ)
  | mprotect (addr len : ℕ) (prot : Bits) (pkeyOk : Bool)
  | brk (addr : ℕ)

def MmCall.exec : MmCall → ℤ × MmSys
  | remoteMmap user file addr len prot flags offset =>
    ptraceRemoteMmap rb env s user file addr len prot flags offset
  | remoteMunmap user addr len => ptraceRemoteMunmap rb env s user addr len
  | remoteMremap user addr oldLen newLen flags newAddr =>
    ptraceRemoteMremap rb env s user addr oldLen newLen flags newAddr
  | remoteMprotect user addr len prot => ptraceRemoteMprotect rb env s user addr len prot
  | mmap file addr len prot flags pgoff => mmapPgoff rb env.own s file addr len prot flags pgoff
  | munmap addr len => lockedMunmap rb env.own s addr len
  | mremap addr oldLen newLen flags newAddr =>
    let r := mremapTask rb env.own s addr oldLen newLen flags newAddr
    (r.1, r.2.2)
  | mprotect addr len prot pkeyOk => doMprotectPkeyTask rb env.own s addr len prot pkeyOk
  | brk addr => PtraceRemote.brk rb env.own s addr

/-- One operation of a run: the task that makes it, how the calls that may fail end, and the
call. -/
structure MmStep where
  env : MmEnv
  outcomes : List (Fin 4096) := []
  call : MmCall

def MmStep.after (st : MmStep) : MmSys :=
  (st.call.exec rb st.env { s with outcomes := st.outcomes }).2

def mmRun (steps : List MmStep) : MmSys := steps.foldl (fun s st => st.after rb s) s

end PtraceRemote
