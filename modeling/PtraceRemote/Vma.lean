import PtraceRemote.Basic

/-! Memory areas: `vm_flags` bits, the fields of `struct vm_area_struct` that the address-space code
reads, and the tests that say which areas may be merged. -/
namespace PtraceRemote

abbrev VmaId := ℕ

abbrev VmFlags := BitVec 64

def VM_READ : VmFlags := 0x1
def VM_WRITE : VmFlags := 0x2
def VM_EXEC : VmFlags := 0x4
def VM_SHARED : VmFlags := 0x8
def VM_MAYREAD : VmFlags := 0x10
def VM_MAYWRITE : VmFlags := 0x20
def VM_MAYEXEC : VmFlags := 0x40
def VM_MAYSHARE : VmFlags := 0x80
def VM_GROWSDOWN : VmFlags := 0x100
def VM_PFNMAP : VmFlags := 0x400
def VM_DENYWRITE : VmFlags := 0x800
def VM_LOCKED : VmFlags := 0x2000
def VM_IO : VmFlags := 0x4000
def VM_DONTEXPAND : VmFlags := 0x40000
def VM_LOCKONFAULT : VmFlags := 0x80000
def VM_ACCOUNT : VmFlags := 0x100000
def VM_NORESERVE : VmFlags := 0x200000
def VM_HUGETLB : VmFlags := 0x400000
def VM_SOFTDIRTY : VmFlags := 0x8000000
def VM_MIXEDMAP : VmFlags := 0x10000000
def VM_NOHUGEPAGE : VmFlags := 0x40000000
def VM_STACK : VmFlags := VM_GROWSDOWN
def VM_SPECIAL : VmFlags := VM_IO ||| VM_DONTEXPAND ||| VM_PFNMAP ||| VM_MIXEDMAP
def VM_LOCKED_CLEAR_MASK : VmFlags := ~~~(VM_LOCKED ||| VM_LOCKONFAULT)

def VmFlags.has (flags bits : VmFlags) : Bool := flags &&& bits != 0

theorem has_twoPow (a : VmFlags) (k : ℕ) : a.has (BitVec.twoPow 64 k) = a.getLsbD k := by
  rw [VmFlags.has, BitVec.and_twoPow]
  split
  next h =>
    have hk := BitVec.lt_of_getLsbD h
    have hne : BitVec.twoPow 64 k ≠ 0 := fun he => by
      have := congrArg (BitVec.getLsbD · k) he
      simp [hk] at this
    rw [h, bne_iff_ne]
    exact hne
  next h => simp [h]

def isExecMapping (flags : VmFlags) : Bool :=
  flags &&& (VM_EXEC ||| VM_WRITE ||| VM_STACK) == VM_EXEC

def isStackMapping (flags : VmFlags) : Bool := flags &&& VM_STACK == VM_STACK

def isDataMapping (flags : VmFlags) : Bool :=
  flags &&& (VM_WRITE ||| VM_SHARED ||| VM_STACK) == VM_WRITE

structure Vma where
  vmStart : ℕ := 0
  vmEnd : ℕ := 0
  vmFlags : VmFlags := 0
  vmPgoff : BitVec 64 := 0
  vmFile : Option FileId := none
  anonVma : Option ℕ := none
  anonChain : ℕ := 0
  hasOps : Bool := false
  hasClose : Bool := false
  hasMremap : Bool := false
  policy : ℕ := 0
  uffdCtx : ℕ := 0
  hugeSize : ℕ := 4096
  deriving DecidableEq, Repr

def Vma.pages (v : Vma) : ℕ := (v.vmEnd-v.vmStart)/4096

def vmaIsAnonymous (v : Vma) : Bool := !v.hasOps

def isVmHugetlbPage (v : Vma) : Bool := v.vmFlags.has VM_HUGETLB

def isMergeableVma (v : Vma) (file : Option FileId) (vmFlags : VmFlags) (uffdCtx : ℕ) : Bool :=
  !(v.vmFlags ^^^ vmFlags).has (~~~VM_SOFTDIRTY) && v.vmFile == file && !v.hasClose &&
    v.uffdCtx == uffdCtx

def isMergeableAnonVma (anonVma1 anonVma2 : Option ℕ) (chain : Option ℕ) : Bool :=
  if (anonVma1 == none || anonVma2 == none) && (chain == none || chain == some 1) then true
  else anonVma1 == anonVma2

def canVmaMergeBefore (v : Vma) (vmFlags : VmFlags) (anonVma : Option ℕ) (file : Option FileId)
    (vmPgoff : BitVec 64) (uffdCtx : ℕ) : Bool :=
  isMergeableVma v file vmFlags uffdCtx &&
    isMergeableAnonVma anonVma v.anonVma (some v.anonChain) && v.vmPgoff == vmPgoff

def canVmaMergeAfter (v : Vma) (vmFlags : VmFlags) (anonVma : Option ℕ) (file : Option FileId)
    (vmPgoff : BitVec 64) (uffdCtx : ℕ) : Bool :=
  isMergeableVma v file vmFlags uffdCtx &&
    isMergeableAnonVma anonVma v.anonVma (some v.anonChain) &&
    v.vmPgoff+BitVec.ofNat 64 v.pages == vmPgoff

def cleanFlags (flags : VmFlags) : VmFlags := flags &&& ~~~VM_SOFTDIRTY

theorem cleanFlags_of_xor {a b : VmFlags} (h : (a ^^^ b).has (~~~VM_SOFTDIRTY) = false) :
    cleanFlags a = cleanFlags b := by
  have h : (a ^^^ b) &&& ~~~VM_SOFTDIRTY = 0#64 := by simpa [VmFlags.has] using h
  refine BitVec.eq_of_getLsbD_eq fun i hi => ?_
  have hi' := congrArg (BitVec.getLsbD · i) h
  simp only [BitVec.getLsbD_and, BitVec.getLsbD_xor, BitVec.getLsbD_zero] at hi'
  simp only [cleanFlags, BitVec.getLsbD_and]
  revert hi'
  cases a.getLsbD i <;> cases b.getLsbD i <;> cases (~~~VM_SOFTDIRTY).getLsbD i <;> decide

theorem cleanFlags_and {a m : VmFlags} (hm : ~~~VM_SOFTDIRTY &&& m = m) :
    cleanFlags a &&& m = a &&& m := by
  rw [cleanFlags, BitVec.and_assoc, hm]

theorem has_cleanFlags {a m : VmFlags} (hm : ~~~VM_SOFTDIRTY &&& m = m) :
    (cleanFlags a).has m = a.has m := by
  rw [VmFlags.has, cleanFlags_and hm, VmFlags.has]

/-- Marking an area soft-dirty is invisible. -/
theorem cleanFlags_softdirty (a : VmFlags) : cleanFlags (a ||| VM_SOFTDIRTY) = cleanFlags a := by
  rw [cleanFlags, BitVec.and_comm, BitVec.and_or_distrib_left,
    show ~~~VM_SOFTDIRTY &&& VM_SOFTDIRTY =
    0#64 by decide, BitVec.or_zero, BitVec.and_comm, cleanFlags]

@[simp] theorem isExecMapping_clean (a : VmFlags) :
    isExecMapping (cleanFlags a) = isExecMapping a := by
  rw [isExecMapping, cleanFlags_and (by decide), isExecMapping]

@[simp] theorem isStackMapping_clean (a : VmFlags) :
    isStackMapping (cleanFlags a) = isStackMapping a := by
  rw [isStackMapping, cleanFlags_and (by decide), isStackMapping]

@[simp] theorem isDataMapping_clean (a : VmFlags) :
    isDataMapping (cleanFlags a) = isDataMapping a := by
  rw [isDataMapping, cleanFlags_and (by decide), isDataMapping]

/-- What mergeability says about an area: it shows the requested file and flags. -/
theorem isMergeableVma_spec {v : Vma} {file : Option FileId} {vmFlags : VmFlags} {u : ℕ}
    (h : isMergeableVma v file vmFlags u = true) :
    v.vmFile = file ∧ cleanFlags v.vmFlags = cleanFlags vmFlags := by
  simp only [isMergeableVma, Bool.and_eq_true, Bool.not_eq_true', beq_iff_eq] at h
  exact ⟨h.1.1.2, cleanFlags_of_xor h.1.1.1⟩

theorem canVmaMergeBefore_spec {v : Vma} {vmFlags : VmFlags} {a : Option ℕ} {file : Option FileId}
    {pgoff : BitVec 64} {u : ℕ} (h : canVmaMergeBefore v vmFlags a file pgoff u = true) :
    v.vmFile = file ∧ cleanFlags v.vmFlags = cleanFlags vmFlags ∧ v.vmPgoff = pgoff := by
  simp only [canVmaMergeBefore, Bool.and_eq_true, beq_iff_eq] at h
  exact ⟨(isMergeableVma_spec h.1.1).1, (isMergeableVma_spec h.1.1).2, h.2⟩

theorem canVmaMergeAfter_spec {v : Vma} {vmFlags : VmFlags} {a : Option ℕ} {file : Option FileId}
    {pgoff : BitVec 64} {u : ℕ} (h : canVmaMergeAfter v vmFlags a file pgoff u = true) :
    v.vmFile = file ∧ cleanFlags v.vmFlags = cleanFlags vmFlags ∧
      v.vmPgoff+BitVec.ofNat 64 v.pages = pgoff := by
  simp only [canVmaMergeAfter, Bool.and_eq_true, beq_iff_eq] at h
  exact ⟨(isMergeableVma_spec h.1.1).1, (isMergeableVma_spec h.1.1).2, h.2⟩

end PtraceRemote
