import Mathlib.Data.BitVec
import PtraceRemote.MmPages
import PtraceRemote.MmUnmap

/-! The books of an address space: counters on one side, what its areas account for on the other. An
operation is in order when the difference, the ledger, is what it was before. -/
namespace PtraceRemote

abbrev Pages := Multiset (ℕ × PageInfo)

def single (p : ℕ) (i : PageInfo) : Pages := {(p, i)}

def pages (core : VmaId → Vma) (L : List VmaId) : Pages := total single core L

def blockPages (start end_ : ℕ) (file : Option FileId) (pgoff : BitVec 64) (flags : VmFlags) :
    Pages :=
  blockSum single start end_ file pgoff flags

abbrev Ledger := BitVec 64 × BitVec 64 × BitVec 64 × BitVec 64 × BitVec 64 × ℤ × (FileId → ℤ)

def counters (s : MmSys) : Ledger :=
  (s.mm.totalVm, s.mm.execVm, s.mm.stackVm, s.mm.dataVm, s.mm.lockedVm, s.committed, s.fCount)

def pagesOf (P : VmFlags → Bool) (m : Pages) : ℕ := m.countP fun e => P e.2.flags = true

def charge (m : Pages) : Ledger :=
  (BitVec.ofNat 64 (pagesOf (fun _ => true) m), BitVec.ofNat 64 (pagesOf isExecMapping m),
    BitVec.ofNat 64 (pagesOf isStackMapping m), BitVec.ofNat 64 (pagesOf isDataMapping m),
    BitVec.ofNat 64 (pagesOf (·.has VM_LOCKED) m), (pagesOf (·.has VM_ACCOUNT) m : ℤ), 0)

def references (core : VmaId → Vma) (L : List VmaId) : Ledger :=
  (0, 0, 0, 0, 0, 0, fun f => refs f core L)

def ledger (s : MmSys) (L : List VmaId) : Ledger :=
  counters s - charge (pages s.mm.core L) - references s.mm.core L

theorem pagesOf_add (P : VmFlags → Bool) (m m' : Pages) :
    pagesOf P (m+m') = pagesOf P m + pagesOf P m' :=
  Multiset.countP_add ..

theorem charge_add (m m' : Pages) : charge (m+m') = charge m + charge m' := by
  simp only [charge, pagesOf_add, BitVec.ofNat_add, Nat.cast_add, Prod.mk_add_mk, add_zero]

theorem pagesOf_single (P : VmFlags → Bool) (p : ℕ) (i : PageInfo) :
    pagesOf P (single p i) = if P i.flags then 1 else 0 := by
  rw [single, pagesOf, ← Multiset.cons_zero, Multiset.countP_cons, Multiset.countP_zero, zero_add]

/-- Of a block all pages have the same flags. -/
theorem pagesOf_block {P : VmFlags → Bool} {start end_ : ℕ} {file : Option FileId}
    {pgoff : BitVec 64} {flags : VmFlags} (hP : P (cleanFlags flags) = P flags) :
    pagesOf P (blockPages start end_ file pgoff flags) = if P flags then (end_-start)/4096
      else 0 := by
  unfold blockPages blockSum
  induction (end_-start)/4096 with
  | zero => simp [pagesOf]
  | succ n ih =>
    rw [Finset.sum_range_succ, pagesOf_add, ih, pagesOf_single, hP]
    split <;> rfl

def statVec (flags : VmFlags) (n : BitVec 64) : Ledger :=
  (n, if isExecMapping flags then n else 0, if isStackMapping flags then n else 0,
    if isDataMapping flags then n else 0, 0, 0, 0)

/-- The classes exclude each other, so the order of the tests in `vm_stat_account` is immaterial. -/
theorem mapping_classes (flags : VmFlags) :
    (isExecMapping flags = true → isStackMapping flags = false ∧ isDataMapping flags = false) ∧
      (isStackMapping flags = true → isDataMapping flags = false) := by
  have hst : ∀ m : VmFlags, VM_STACK &&& m = VM_STACK →
      flags &&& m &&& VM_STACK = flags &&& VM_STACK :=
    fun m hm => by rw [BitVec.and_assoc, BitVec.and_comm m, hm]
  have hwr : flags &&& (VM_EXEC ||| VM_WRITE ||| VM_STACK) &&& VM_WRITE = flags &&& VM_WRITE := by
    rw [BitVec.and_assoc]; rfl
  have hwr' : flags &&& (VM_WRITE ||| VM_SHARED ||| VM_STACK) &&& VM_WRITE =
      flags &&& VM_WRITE := by
    rw [BitVec.and_assoc]; rfl
  have hs₁ := hst (VM_EXEC ||| VM_WRITE ||| VM_STACK) (by decide)
  have hs₂ := hst (VM_WRITE ||| VM_SHARED ||| VM_STACK) (by decide)
  simp only [isExecMapping, isStackMapping, isDataMapping, beq_iff_eq, beq_eq_false_iff_ne]
  refine ⟨fun h => ⟨fun h' => ?_, fun h' => ?_⟩, fun h h' => ?_⟩
  · rw [h, h'] at hs₁; exact absurd hs₁ (by decide)
  · rw [h] at hwr; rw [h', ← hwr] at hwr'; exact absurd hwr' (by decide)
  · rw [h', h] at hs₂; exact absurd hs₂ (by decide)

theorem counters_vmStatAccount (s : MmSys) (flags : VmFlags) (n : BitVec 64) :
    counters (s.setMm (vmStatAccount s.mm flags n)) = counters s + statVec flags n := by
  obtain ⟨h₁, h₂⟩ := mapping_classes flags
  unfold vmStatAccount
  dsimp only
  split
  next h => simp [counters, statVec, MmSys.setMm, h, (h₁ h).1, (h₁ h).2]
  next h =>
    split
    next h' => simp [counters, statVec, MmSys.setMm, h, h', h₂ h']
    next h' =>
      split
      next h'' => simp [counters, statVec, MmSys.setMm, h, h', h'']
      next h'' => simp [counters, statVec, MmSys.setMm, h, h', h'']

end PtraceRemote
