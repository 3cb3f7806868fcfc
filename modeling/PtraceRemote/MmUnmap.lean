import PtraceRemote.Mm

/-! Page accounting, splitting and unmapping: `vm_stat_account`, `__split_vma`, `do_munmap` and what
they call in mm/mmap.c. -/
namespace PtraceRemote

open AugTree (Balance)

def TASK_SIZE : ℕ := 2^47-4096

/-- What the kernel configuration and the running task (`current`) contribute. -/
structure MmConf where
  maxMapCount : ℤ
  mmapMinAddr : ℕ
  overcommitNever : Bool
  ignoreRlimitData : Bool
  taskUnmappedBase : ℕ

def vmStatAccount (mm : Mm) (flags : VmFlags) (npages : BitVec 64) : Mm :=
  let mm := { mm with totalVm := mm.totalVm+npages }
  if isExecMapping flags then { mm with execVm := mm.execVm+npages }
  else if isStackMapping flags then { mm with stackVm := mm.stackVm+npages }
  else if isDataMapping flags then { mm with dataVm := mm.dataVm+npages }
  else mm

def vmUnacctMemory (s : MmSys) (pages : ℤ) : MmSys := { s with committed := s.committed-pages }

def vmEnoughMemory (s : MmSys) (pages : ℤ) : ℤ × MmSys :=
  let r := { s with committed := s.committed+pages }.outcome
  if r.1 = 0 then (0, r.2) else (-ENOMEM, vmUnacctMemory r.2 pages)

def allocVma (s : MmSys) (v : Vma) : MmSys :=
  s.setMm { s.mm with vma := Function.update s.mm.vma s.mm.nextId v, nextId := s.mm.nextId+1 }

def splitHalf (v : Vma) (addr : ℕ) (newBelow : Bool) : Vma :=
  if newBelow then { v with vmEnd := addr, anonChain := 0 }
  else { v with
    vmStart := addr
    vmPgoff := v.vmPgoff+BitVec.ofNat 64 ((addr-v.vmStart)/4096)
    anonChain := 0 }

def splitAdjust (rb : Balance VmaId) (s : MmSys) (x new : VmaId) (addr : ℕ) (newBelow : Bool) :
    ℤ × MmSys :=
  let v := s.mm.vma x
  if newBelow then
    vmaAdjust rb s x addr v.vmEnd (v.vmPgoff+BitVec.ofNat 64 ((addr-(s.mm.vma new).vmStart)/4096))
      (some new) none
  else vmaAdjust rb s x v.vmStart addr v.vmPgoff (some new) none

def splitVmaNoLimit (rb : Balance VmaId) (s : MmSys) (x : VmaId) (addr : ℕ) (newBelow : Bool) :
    ℤ × MmSys :=
  let v := s.mm.vma x
  if isVmHugetlbPage v ∧ addr % v.hugeSize ≠ 0 then (-EINVAL, s)
  else
    let alloc := s.outcome
    if alloc.1 ≠ 0 then (-ENOMEM, alloc.2)
    else
      let new := alloc.2.mm.nextId
      let s := allocVma alloc.2 (splitHalf v addr newBelow)
      let dupPolicy := s.outcome
      if dupPolicy.1 ≠ 0 then dupPolicy
      else
        let clone := anonVmaClone dupPolicy.2 new x
        if clone.1 ≠ 0 then clone
        else
          let adjust := splitAdjust rb (clone.2.getFile v.vmFile) x new addr newBelow
          if adjust.1 = 0 then (0, adjust.2) else (adjust.1, adjust.2.fput v.vmFile)

def splitVma (rb : Balance VmaId) (conf : MmConf) (s : MmSys) (x : VmaId) (addr : ℕ)
    (newBelow : Bool) : ℤ × MmSys :=
  if conf.maxMapCount ≤ s.mm.mapCount then (-ENOMEM, s) else splitVmaNoLimit rb s x addr newBelow

def Mm.areasFrom (mm : Mm) (first : Option VmaId) : List VmaId :=
  Linked.walk mm.vmNext mm.mapCount.toNat first

def munlockAreas (mm : Mm) (areas : List VmaId) : Mm :=
  if mm.lockedVm ≠ 0 then
    areas.foldl (fun mm y =>
      if (mm.vma y).vmFlags.has VM_LOCKED then
        { mm with lockedVm := mm.lockedVm-BitVec.ofNat 64 (mm.vma y).pages }
      else mm) mm
  else mm

def detachVmas (rb : Balance VmaId) (mm : Mm) (areas : List VmaId) (prev rest : Option VmaId) :
    Mm :=
  let mm := { mm with vmPrev := setLink mm.vmPrev areas.head? none }
  let mm := areas.foldl (fun mm y => { vmaRbErase rb mm y with mapCount := mm.mapCount-1 }) mm
  let mm := { mm with
    mmap := match prev with
      | some _ => mm.mmap
      | none => rest
    vmNext := setLink mm.vmNext prev rest
    vmPrev := setLink mm.vmPrev rest prev }
  let mm := gapUpdateNext mm rest
  { mm with
    highestVmEnd := match rest, prev with
      | some _, _ => mm.highestVmEnd
      | none, some p => (mm.vma p).vmEnd
      | none, none => 0
    vmNext := setLink mm.vmNext areas.getLast? none }

def removeVma (s : MmSys) (x : VmaId) : MmSys :=
  let v := s.mm.vma x
  (s.setMm (vmStatAccount s.mm v.vmFlags (-BitVec.ofNat 64 v.pages))).fput v.vmFile

def nrAccounted (vma : VmaId → Vma) (areas : List VmaId) : ℕ :=
  (areas.map fun y => if (vma y).vmFlags.has VM_ACCOUNT then (vma y).pages else 0).sum

def removeVmaList (s : MmSys) (areas : List VmaId) : MmSys :=
  vmUnacctMemory (areas.foldl removeVma s) (nrAccounted s.mm.vma areas)

def unmapAreas (rb : Balance VmaId) (s : MmSys) (prev : Option VmaId) (end_ : ℕ) : MmSys :=
  let below := fun y => decide ((s.mm.vma y).vmStart < end_)
  let areas := (s.mm.areasFrom (s.mm.nextOf prev)).takeWhile below
  let rest := ((s.mm.areasFrom (s.mm.nextOf prev)).dropWhile below).head?
  removeVmaList (s.setMm (detachVmas rb (munlockAreas s.mm areas) areas prev rest)) areas

def splitLast (rb : Balance VmaId) (s : MmSys) (end_ : ℕ) : ℤ × MmSys :=
  match findVma s.mm end_ with
  | some last =>
    if (s.mm.vma last).vmStart < end_ then splitVmaNoLimit rb s last end_ true else (0, s)
  | none => (0, s)

def doMunmap (rb : Balance VmaId) (conf : MmConf) (s : MmSys) (start len : ℕ) : ℤ × MmSys :=
  if offsetInPage start ≠ 0 ∨ TASK_SIZE < start ∨ TASK_SIZE-start < len then (-EINVAL, s)
  else
    let len := pageAlign len
    if len = 0 then (-EINVAL, s)
    else match findVma s.mm start with
    | none => (0, s)
    | some x =>
      let v := s.mm.vma x
      let end_ := start+len
      if end_ ≤ v.vmStart then (0, s)
      else if v.vmStart < start then
        -- a hole makes one area more
        if end_ < v.vmEnd ∧ conf.maxMapCount ≤ s.mm.mapCount then (-ENOMEM, s)
        else
          let first := splitVmaNoLimit rb s x start false
          if first.1 ≠ 0 then first
          else
            let last := splitLast rb first.2 end_
            if last.1 ≠ 0 then last else (0, unmapAreas rb last.2 (some x) end_)
      else
        let last := splitLast rb s end_
        if last.1 ≠ 0 then last else (0, unmapAreas rb last.2 (s.mm.vmPrev x) end_)

end PtraceRemote
