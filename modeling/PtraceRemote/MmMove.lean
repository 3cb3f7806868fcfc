import PtraceRemote.MmMap

/-! `mremap`: `copy_vma` of mm/mmap.c and `move_vma`, `vma_to_resize_task`, `mremap_to_task` and
`mremap_task` of mm/mremap.c. -/
namespace PtraceRemote

open AugTree (Balance)

def MREMAP_MAYMOVE : Bits := 0x1
def MREMAP_FIXED : Bits := 0x2

def Vma.pgoffAt (v : Vma) (addr : ℕ) : BitVec 64 :=
  v.vmPgoff+BitVec.ofNat 64 ((addr-v.vmStart)/4096)

def copyPgoff (v : Vma) (addr : ℕ) (pgoff : BitVec 64) : BitVec 64 :=
  if vmaIsAnonymous v ∧ v.anonVma = none then BitVec.ofNat 64 (addr/4096) else pgoff

def copyNew (rb : Balance VmaId) (s : MmSys) (x : VmaId) (addr len : ℕ) (pgoff : BitVec 64)
    (k : VmaLinks) :
    Option VmaId × MmSys :=
  let alloc := s.outcome
  if alloc.1 ≠ 0 then (none, alloc.2)
  else
    let v := s.mm.vma x
    let new := alloc.2.mm.nextId
    let s := allocVma alloc.2
      { v with vmStart := addr, vmEnd := addr+len, vmPgoff := pgoff, anonChain := 0 }
    let dupPolicy := s.outcome
    if dupPolicy.1 ≠ 0 then (none, dupPolicy.2)
    else
      let clone := anonVmaClone dupPolicy.2 new x
      if clone.1 ≠ 0 then (none, clone.2)
      else
        let s := clone.2.getFile v.vmFile
        (some new, s.setMm (vmaLink rb s.mm new k))

def copyVma (rb : Balance VmaId) (s : MmSys) (x : VmaId) (addr len : ℕ) (pgoff : BitVec 64) :
    Option (VmaId × VmaId) × MmSys :=
  let v := s.mm.vma x
  let pgoff := copyPgoff v addr pgoff
  match findVmaLinks s.mm addr (addr+len) with
  | none => (none, s)
  | some k =>
    let merge := vmaMerge rb s k.prev ⟨addr, addr+len, v.vmFlags, v.anonVma, v.vmFile, pgoff,
      v.policy, v.uffdCtx⟩
    match merge.1 with
    | some y =>
      let w := merge.2.mm.vma y
      (some (y, if w.vmStart ≤ v.vmStart ∧ v.vmStart < w.vmEnd then y else x), merge.2)
    | none =>
      let new := copyNew rb merge.2 x addr len pgoff k
      (new.1.map fun y => (y, x), new.2)

def concealAcct (mm : Mm) (x : VmaId) : Mm :=
  mm.modVma x fun v => { v with vmFlags := v.vmFlags &&& ~~~VM_ACCOUNT }

def restoreAcct (mm : Mm) (x : VmaId) : Mm :=
  mm.modVma x fun v => { v with vmFlags := v.vmFlags ||| VM_ACCOUNT }

def restorePieces (mm : Mm) (x : VmaId) (split : Bool) : Mm :=
  let mm := restoreAcct mm x
  if split then
    match mm.vmNext x with
    | some n => restoreAcct mm n
    | none => { mm with bug := true }
  else mm

def unmapCharged (rb : Balance VmaId) (conf : MmConf) (s : MmSys) (x : VmaId) (addr len : ℕ)
    (excess : ℕ) (split : Bool) : MmSys :=
  let r := doMunmap rb conf s addr len
  if r.1 < 0 then vmUnacctMemory r.2 (excess/4096 : ℕ)
  else if excess ≠ 0 then r.2.setMm (restorePieces r.2.mm x split)
  else r.2

def moveDone (rb : Balance VmaId) (conf : MmConf) (s : MmSys) (x : VmaId) (addr len newLen : ℕ)
    (vmFlags : VmFlags) : MmSys :=
  let n := BitVec.ofNat 64 (newLen/4096)
  let v := s.mm.vma x
  let s :=
    if vmFlags.has VM_ACCOUNT then
      let mm := concealAcct s.mm x
      unmapCharged rb conf (s.setMm (vmStatAccount mm (mm.vma x).vmFlags n)) x addr len
        (v.vmEnd-v.vmStart-len) (decide (v.vmStart < addr) && decide (addr+len < v.vmEnd))
    else unmapCharged rb conf (s.setMm (vmStatAccount s.mm v.vmFlags n)) x addr len 0 false
  if vmFlags.has VM_LOCKED then s.setMm { s.mm with lockedVm := s.mm.lockedVm+n } else s

def moveTables (s : MmSys) (x : VmaId) : ℤ × MmSys :=
  let tables := s.outcome
  if tables.1 ≠ 0 then (-ENOMEM, tables.2)
  else if (tables.2.mm.vma x).hasMremap then tables.2.outcome
  else (0, tables.2)

def moveVma (rb : Balance VmaId) (env : MmEnv) (s : MmSys) (x : VmaId)
    (oldAddr oldLen newLen newAddr : ℕ) :
    ℤ × Bool × MmSys :=
  let v := s.mm.vma x
  if env.conf.maxMapCount-3 ≤ s.mm.mapCount then (-ENOMEM, false, s)
  else
    let ksm := s.outcome
    if ksm.1 ≠ 0 then (ksm.1, false, ksm.2)
    else
      let copy := copyVma rb ksm.2 x newAddr newLen (v.pgoffAt oldAddr)
      match copy.1 with
      | none => (-ENOMEM, false, copy.2)
      | some (new, x) =>
        let tables := moveTables copy.2 x
        if tables.1 ≠ 0 then
          -- after an error it is the new area that is unmapped
          (tables.1, v.vmFlags.has VM_LOCKED,
            moveDone rb env.conf tables.2 new newAddr newLen newLen v.vmFlags)
        else
          (newAddr, v.vmFlags.has VM_LOCKED,
            moveDone rb env.conf tables.2 x oldAddr oldLen newLen v.vmFlags)

def vmaToResizeTask (env : MmEnv) (s : MmSys) (addr oldLen newLen : ℕ) :
    Except ℤ (VmaId × ℕ) × MmSys :=
  match findVma s.mm addr with
  | none => (.error (-EFAULT), s)
  | some x =>
    let v := s.mm.vma x
    let pgoff := v.pgoffAt addr
    let n := (newLen-oldLen)/4096
    if addr < v.vmStart then (.error (-EFAULT), s)
    else if isVmHugetlbPage v then (.error (-EINVAL), s)
    else if v.vmEnd-addr < oldLen then (.error (-EFAULT), s)
    else if newLen = oldLen then (.ok (x, 0), s)
    else if pgoff+BitVec.ofNat 64 (newLen/4096) < pgoff then (.error (-EINVAL), s)
    else if v.vmFlags.has (VM_DONTEXPAND ||| VM_PFNMAP) then (.error (-EFAULT), s)
    else if v.vmFlags.has VM_LOCKED ∧
      env.rlim.memlock < s.mm.lockedVm <<< 12+BitVec.ofNat 64 (newLen-oldLen) ∧
        env.capIpcLock = false then (.error (-EAGAIN), s)
    else if mayExpandVm env s.mm v.vmFlags (BitVec.ofNat 64 n) = false then (.error (-ENOMEM), s)
    else if v.vmFlags.has VM_ACCOUNT then
      let charge := vmEnoughMemory s n
      if charge.1 ≠ 0 then (.error (-ENOMEM), charge.2) else (.ok (x, n), charge.2)
    else (.ok (x, 0), s)

def moveFlags (v : Vma) : Bits := if v.vmFlags.has VM_MAYSHARE then MAP_SHARED else 0

def moveWith (rb : Balance VmaId) (env : MmEnv) (addr oldLen newAddr newLen : ℕ)
    (resize : Except ℤ (VmaId × ℕ) × MmSys) : ℤ × Bool × MmSys :=
  match resize.1 with
  | .error e => (e, false, resize.2)
  | .ok (x, charged) =>
    let v := resize.2.mm.vma x
    let area := getUnmappedArea env resize.2 v.vmFile newAddr newLen (v.pgoffAt addr)
      (MAP_FIXED ||| moveFlags v)
    if area.1 % 4096 ≠ 0 then (area.1, false, vmUnacctMemory area.2 charged)
    else
      let move := moveVma rb env area.2 x addr oldLen newLen newAddr
      if move.1 % 4096 ≠ 0 then (move.1, move.2.1, vmUnacctMemory move.2.2 charged) else move

def moveTo (rb : Balance VmaId) (env : MmEnv) (s : MmSys) (addr oldLen newAddr newLen : ℕ) :
    ℤ × Bool × MmSys :=
  moveWith rb env addr oldLen newAddr newLen (vmaToResizeTask env s addr oldLen newLen)

def mremapToTask (rb : Balance VmaId) (env : MmEnv) (s : MmSys) (addr oldLen newAddr newLen : ℕ) :
    ℤ × Bool × MmSys :=
  if offsetInPage newAddr ≠ 0 then (-EINVAL, false, s)
  else if TASK_SIZE < newLen ∨ TASK_SIZE-newLen < newAddr then (-EINVAL, false, s)
  else if newAddr < wadd addr oldLen ∧ addr < newAddr+newLen then (-EINVAL, false, s)
  else
    let clear := doMunmap rb env.conf s newAddr newLen
    if clear.1 ≠ 0 then (clear.1, false, clear.2)
    else
      let shrink :=
        if newLen ≤ oldLen then doMunmap rb env.conf clear.2 (wadd addr newLen) (oldLen-newLen)
          else (0, clear.2)
      if shrink.1 ≠ 0 ∧ oldLen ≠ newLen then (shrink.1, false, shrink.2)
      else moveTo rb env shrink.2 addr (min oldLen newLen) newAddr newLen

def vmaExpandable (env : MmEnv) (s : MmSys) (x : VmaId) (delta : ℕ) : Bool × MmSys :=
  let v := s.mm.vma x
  let end_ := wadd v.vmEnd delta
  if end_ < v.vmEnd then (false, s)
  else if (s.mm.vmNext x).any fun n => decide ((s.mm.vma n).vmStart < end_) then (false, s)
  else
    let area := getUnmappedArea env s none v.vmStart (end_-v.vmStart) 0 MAP_FIXED
    (decide (area.1 % 4096 = 0), area.2)

def intPages (delta : ℕ) : BitVec 64 := ((BitVec.ofNat 64 (delta/4096)).setWidth 32).signExtend 64

def growInPlace (rb : Balance VmaId) (s : MmSys) (x : VmaId) (addr oldLen newLen : ℕ) :
    ℤ × Bool × MmSys :=
  let v := s.mm.vma x
  let adjust := vmaAdjust rb s x v.vmStart (addr+newLen) v.vmPgoff none none
  if adjust.1 ≠ 0 then (-ENOMEM, false, adjust.2)
  else
    let pages := intPages (newLen-oldLen)
    let s := adjust.2.setMm (vmStatAccount adjust.2.mm v.vmFlags pages)
    if v.vmFlags.has VM_LOCKED then
      (addr, true, s.setMm { s.mm with lockedVm := s.mm.lockedVm+pages })
    else (addr, false, s)

def growByMove (rb : Balance VmaId) (env : MmEnv) (s : MmSys) (x : VmaId) (addr oldLen newLen : ℕ)
    (flags : Bits) :
    ℤ × Bool × MmSys :=
  if flags.has MREMAP_MAYMOVE then
    let v := s.mm.vma x
    let area := getTaskUnmappedArea env s v.vmFile 0 newLen (v.pgoffAt addr) (moveFlags v)
    if area.1 % 4096 ≠ 0 then (area.1, false, area.2)
    else moveVma rb env area.2 x addr oldLen newLen area.1.toNat
  else (-ENOMEM, false, s)

def growArea (rb : Balance VmaId) (env : MmEnv) (s : MmSys) (x : VmaId) (addr oldLen newLen : ℕ)
    (flags : Bits) :
    ℤ × Bool × MmSys :=
  let expand := if oldLen = (s.mm.vma x).vmEnd-addr then vmaExpandable env s x (newLen-oldLen)
    else (false, s)
  if expand.1 then growInPlace rb expand.2 x addr oldLen newLen
  else growByMove rb env expand.2 x addr oldLen newLen flags

def growWith (rb : Balance VmaId) (env : MmEnv) (addr oldLen newLen : ℕ) (flags : Bits)
    (resize : Except ℤ (VmaId × ℕ) × MmSys) : ℤ × Bool × MmSys :=
  match resize.1 with
  | .error e => (e, false, resize.2)
  | .ok (x, charged) =>
    let r := growArea rb env resize.2 x addr oldLen newLen flags
    if r.1 % 4096 ≠ 0 then (r.1, r.2.1, vmUnacctMemory r.2.2 charged) else r

def mremapGrow (rb : Balance VmaId) (env : MmEnv) (s : MmSys) (addr oldLen newLen : ℕ)
    (flags : Bits) :
    ℤ × Bool × MmSys :=
  growWith rb env addr oldLen newLen flags (vmaToResizeTask env s addr oldLen newLen)

def mremapLocked (rb : Balance VmaId) (env : MmEnv) (s : MmSys) (addr oldLen newLen : ℕ)
    (flags : Bits) (newAddr : ℕ) :
    ℤ × Bool × MmSys :=
  if flags.has MREMAP_FIXED then mremapToTask rb env s addr oldLen newAddr newLen
  else if newLen ≤ oldLen then
    let shrink := doMunmap rb env.conf s (wadd addr newLen) (oldLen-newLen)
    if shrink.1 ≠ 0 ∧ oldLen ≠ newLen then (shrink.1, false, shrink.2) else (addr, false, shrink.2)
  else mremapGrow rb env s addr oldLen newLen flags

def mremapTask (rb : Balance VmaId) (env : MmEnv) (s : MmSys) (addr oldLen newLen : ℕ)
    (flags : Bits) (newAddr : ℕ) :
    ℤ × Bool × MmSys :=
  let oldLen := pageAlign oldLen
  let newLen := pageAlign newLen
  if flags.has (~~~(MREMAP_FIXED ||| MREMAP_MAYMOVE)) then (-EINVAL, false, s)
  else if flags.has MREMAP_FIXED ∧ flags.has MREMAP_MAYMOVE = false then (-EINVAL, false, s)
  else if offsetInPage addr ≠ 0 then (-EINVAL, false, s)
  else if newLen = 0 then (-EINVAL, false, s)
  else
    let lock := s.outcome
    if lock.1 ≠ 0 then (-EINTR, false, lock.2)
    else
      let r := mremapLocked rb env lock.2 addr oldLen newLen flags newAddr
      (r.1, r.2.1 && decide (r.1 % 4096 = 0) && decide (oldLen < newLen), r.2.2)

end PtraceRemote
