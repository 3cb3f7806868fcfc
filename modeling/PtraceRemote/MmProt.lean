import PtraceRemote.MmMap

/-! `mprotect`: `mprotect_fixup` and `do_mprotect_pkey_task` of mm/mprotect.c. -/
namespace PtraceRemote

open AugTree (Balance)

def protSplit (rb : Balance VmaId) (conf : MmConf) (s : MmSys) (x : VmaId) (start end_ : ℕ) :
    ℤ × MmSys :=
  let first := if start ≠ (s.mm.vma x).vmStart then splitVma rb conf s x start true else (0, s)
  if first.1 ≠ 0 then first
  else if end_ ≠ (first.2.mm.vma x).vmEnd then splitVma rb conf first.2 x end_ false
  else (0, first.2)

def protDone (s : MmSys) (x : VmaId) (oldflags newflags : VmFlags) (nrpages : BitVec 64) : MmSys :=
  let mm := s.mm.modVma x fun v => { v with vmFlags := newflags }
  s.setMm (vmStatAccount (vmStatAccount mm oldflags (-nrpages)) newflags nrpages)

def protApply (rb : Balance VmaId) (conf : MmConf) (s : MmSys) (x : VmaId) (prev : Option VmaId)
    (start end_ : ℕ) (newflags : VmFlags) (charged : ℤ) : ℤ × Option VmaId × MmSys :=
  let v := s.mm.vma x
  let nrpages := BitVec.ofNat 64 ((end_-start)/4096)
  let merge := vmaMerge rb s prev
    ⟨start, end_, newflags, v.anonVma, v.vmFile, v.vmPgoff+BitVec.ofNat 64 ((start-v.vmStart)/4096),
      v.policy, v.uffdCtx⟩
  match merge.1 with
  | some y => (0, some y, protDone merge.2 y v.vmFlags newflags nrpages)
  | none =>
    let split := protSplit rb conf merge.2 x start end_
    if split.1 ≠ 0 then (split.1, some x, vmUnacctMemory split.2 charged)
    else (0, some x, protDone split.2 x v.vmFlags newflags nrpages)

def mprotectFixup (rb : Balance VmaId) (env : MmEnv) (s : MmSys) (x : VmaId) (prev : Option VmaId)
    (start end_ : ℕ) (newflags : VmFlags) : ℤ × Option VmaId × MmSys :=
  let oldflags := (s.mm.vma x).vmFlags
  let nrpages := (end_-start)/4096
  if newflags = oldflags then (0, some x, s)
  else if newflags.has VM_WRITE ∧ mayExpandVm env s.mm newflags (BitVec.ofNat 64 nrpages) = false ∧
      mayExpandVm env s.mm oldflags (BitVec.ofNat 64 nrpages) then (-ENOMEM, prev, s)
  else if newflags.has VM_WRITE ∧
      oldflags.has (VM_ACCOUNT ||| VM_WRITE ||| VM_HUGETLB ||| VM_SHARED ||| VM_NORESERVE)
      = false then
    let charge := vmEnoughMemory s nrpages
    if charge.1 ≠ 0 then (-ENOMEM, prev, charge.2)
    else protApply rb env.conf charge.2 x prev start end_ (newflags ||| VM_ACCOUNT) nrpages
  else protApply rb env.conf s x prev start end_ newflags 0

def protFlags (env : MmEnv) (v : Vma) (reqprot : Bits) : VmFlags :=
  let prot :=
    if env.readImpliesExec ∧ reqprot.has PROT_READ ∧ v.vmFlags.has VM_MAYEXEC then
      reqprot ||| PROT_EXEC else reqprot
  calcVmProtBits prot (env.overridePkey v.vmFlags prot) |||
    (v.vmFlags &&& ~~~(VM_READ ||| VM_WRITE ||| VM_EXEC ||| ARCH_VM_PKEY_FLAGS))

def mprotectLoop (rb : Balance VmaId) (env : MmEnv) (reqprot : Bits) (end_ : ℕ) :
    ℕ → MmSys → VmaId → Option VmaId → ℕ → ℤ × MmSys
  | 0, s, _, _, _ => (0, s.setMm { s.mm with bug := true })
  | fuel+1, s, x, prev, nstart =>
    let newflags := protFlags env (s.mm.vma x) reqprot
    -- the VM_MAY bits stand four places above the bits they allow
    if (newflags &&& ~~~(newflags >>> 4)).has (VM_READ ||| VM_WRITE ||| VM_EXEC) then (-EACCES, s)
    else
      let security := s.outcome
      if security.1 ≠ 0 then security
      else
        let tmp := min (s.mm.vma x).vmEnd end_
        let fixup := mprotectFixup rb env security.2 x prev nstart tmp newflags
        if fixup.1 ≠ 0 then (fixup.1, fixup.2.2)
        else match fixup.2.1 with
        | none => (0, fixup.2.2.setMm { fixup.2.2.mm with bug := true })
        | some p =>
          let s := fixup.2.2
          -- a merge may have reached further than this round
          let nstart := max tmp (s.mm.vma p).vmEnd
          if end_ ≤ nstart then (0, s)
          else match s.mm.vmNext p with
          | none => (-ENOMEM, s)
          | some y =>
            if (s.mm.vma y).vmStart ≠ nstart then (-ENOMEM, s)
            else mprotectLoop rb env reqprot end_ fuel s y (some p) nstart

def mprotectRange (rb : Balance VmaId) (env : MmEnv) (s : MmSys) (start end_ : ℕ)
    (grows reqprot : Bits) :
    ℤ × MmSys :=
  match findVma s.mm start with
  | none => (-ENOMEM, s)
  | some x =>
    let v := s.mm.vma x
    let fuel := s.mm.mapCount.toNat
    if grows.has PROT_GROWSDOWN then
      if end_ ≤ v.vmStart then (-ENOMEM, s)
      else if v.vmFlags.has VM_GROWSDOWN = false then (-EINVAL, s)
      else mprotectLoop rb env reqprot end_ fuel s x (s.mm.vmPrev x) v.vmStart
    else if start < v.vmStart then (-ENOMEM, s)
    else if grows.has PROT_GROWSUP then (-EINVAL, s)
    else mprotectLoop rb env reqprot end_ fuel s x
      (if v.vmStart < start then some x else s.mm.vmPrev x) start

def doMprotectPkeyTask (rb : Balance VmaId) (env : MmEnv) (s : MmSys) (start len : ℕ) (prot : Bits)
    (pkeyOk : Bool) : ℤ × MmSys :=
  let grows := prot &&& (PROT_GROWSDOWN ||| PROT_GROWSUP)
  let prot := prot &&& ~~~(PROT_GROWSDOWN ||| PROT_GROWSUP)
  if grows = PROT_GROWSDOWN ||| PROT_GROWSUP then (-EINVAL, s)
  else if offsetInPage start ≠ 0 then (-EINVAL, s)
  else if len = 0 then (0, s)
  else
    let end_ := wadd start (pageAlign len)
    if end_ ≤ start then (-ENOMEM, s)
    else if prot.has (~~~(PROT_READ ||| PROT_WRITE ||| PROT_EXEC ||| PROT_SEM)) then (-EINVAL, s)
    else
      let lock := s.outcome
      if lock.1 ≠ 0 then (-EINTR, lock.2)
      else if pkeyOk = false then (-EINVAL, lock.2)
      else mprotectRange rb env lock.2 start end_ grows prot

def mprotectTask (rb : Balance VmaId) (env : MmEnv) (s : MmSys) (start len : ℕ) (prot : Bits) :
    ℤ × MmSys :=
  doMprotectPkeyTask rb env s start len prot true

end PtraceRemote
