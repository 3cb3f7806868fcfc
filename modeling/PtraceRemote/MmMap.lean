import PtraceRemote.MmUnmap

/-! `mmap` and `brk`: the search for a free range, the checks and limits, `mmap_task_region` and
`do_brk` of mm/mmap.c, and `vm_mmap_remote` of mm/util.c. -/
namespace PtraceRemote

open AugTree (Balance)

abbrev Bits := VmFlags

def PROT_READ : Bits := 0x1
def PROT_WRITE : Bits := 0x2
def PROT_EXEC : Bits := 0x4
def PROT_SEM : Bits := 0x8
def PROT_GROWSDOWN : Bits := 0x01000000
def PROT_GROWSUP : Bits := 0x02000000
def MAP_SHARED : Bits := 0x1
def MAP_PRIVATE : Bits := 0x2
def MAP_TYPE : Bits := 0xf
def MAP_FIXED : Bits := 0x10
def MAP_ANONYMOUS : Bits := 0x20
def MAP_GROWSDOWN : Bits := 0x100
def MAP_DENYWRITE : Bits := 0x800
def MAP_EXECUTABLE : Bits := 0x1000
def MAP_LOCKED : Bits := 0x2000
def MAP_NORESERVE : Bits := 0x4000
def MAP_HUGETLB : Bits := 0x40000
def ARCH_VM_PKEY_FLAGS : VmFlags := 0xf00000000

/-- `current->signal->rlim`: soft limits, and the hard limit where it is read. -/
structure Rlimits where
  as : BitVec 64
  data : BitVec 64
  dataMax : BitVec 64
  memlock : BitVec 64

structure FileInfo where
  fmodeRead : Bool := true
  fmodeWrite : Bool := true
  append : Bool := false
  mandLocked : Bool := false
  noexec : Bool := false
  hasMmap : Bool := true
  hugepages : Bool := false
  hugeSize : ℕ := 4096
  getArea : Option (ℕ → ℕ → BitVec 64 → Bits → Except (Fin 4095) ℕ) := none
  mmapErr : Fin 4096 := 0
  mmapFlags : VmFlags → VmFlags := id
  hasOps : Bool := true
  hasClose : Bool := false
  hasMremap : Bool := false

/-- What a call reads besides the address space it changes. `curMm` is `current->mm`, or `none` when
`current` itself runs in that address space; `shmemFile` and `hugetlbFile` are the files that
`shmem_zero_setup` and `hugetlb_file_setup` create. `pkeyBits` and `overridePkey` are the protection
keys that `execute_only_pkey` and `arch_override_mprotect_pkey` choose, as bits of `vm_flags`. -/
structure MmEnv where
  conf : MmConf
  rlim : Rlimits
  capIpcLock : Bool := false
  readImpliesExec : Bool := false
  file : FileId → FileInfo := fun _ => {}
  curMm : Option Mm := none
  shmemArea : ℕ → ℕ → BitVec 64 → Bits → Except (Fin 4095) ℕ := fun addr _ _ _ => .ok addr
  shmemFile : FileId := 0
  hugetlbFile : FileId := 0
  hugetlbSize : Option ℕ := none
  pkeyBits : VmFlags := 0
  overridePkey : VmFlags → Bits → VmFlags := fun _ _ => 0
  compatBrk : Bool := false
  dataExec : Bool := false

def MmEnv.cur (env : MmEnv) (mm : Mm) : Mm := env.curMm.getD mm

def MmEnv.unlimited (maxMapCount : ℤ) : MmEnv where
  conf :=
    { maxMapCount := maxMapCount
      mmapMinAddr := 4096
      overcommitNever := false
      ignoreRlimitData := false
      taskUnmappedBase := 4096 }
  rlim := ⟨BitVec.allOnes 64, BitVec.allOnes 64, BitVec.allOnes 64, BitVec.allOnes 64⟩

/-! The search for a gap. -/

inductive GapSearch where
  | found (gapStart gapEnd : ℕ)
  | stop
  | next

def promising (mm : Mm) (length : ℕ) : AugTree VmaId → Bool
  | .nil => false
  | .node _ x _ => decide (length ≤ mm.rbSubtreeGap x)

def prevEnd (mm : Mm) (x : VmaId) : ℕ :=
  match mm.vmPrev x with
  | some p => (mm.vma p).vmEnd
  | none => 0

def gapUp (mm : Mm) (length lowLimit highLimit : ℕ) : AugTree VmaId → GapSearch
  | .nil => .next
  | .node l x r =>
    let gapEnd := (mm.vma x).vmStart
    let left :=
      if lowLimit ≤ gapEnd ∧ promising mm length l then
        gapUp mm length lowLimit highLimit l else .next
    match left with
    | .next =>
      let gapStart := prevEnd mm x
      if highLimit < gapStart then .stop
      else if lowLimit ≤ gapEnd ∧ length ≤ wsub gapEnd gapStart then .found gapStart gapEnd
      else if promising mm length r then gapUp mm length lowLimit highLimit r else .next
    | g => g

def gapDown (mm : Mm) (length lowLimit highLimit : ℕ) : AugTree VmaId → GapSearch
  | .nil => .next
  | .node l x r =>
    let gapStart := prevEnd mm x
    let right :=
      if gapStart ≤ highLimit ∧ promising mm length r then
        gapDown mm length lowLimit highLimit r else .next
    match right with
    | .next =>
      let gapEnd := (mm.vma x).vmStart
      if gapEnd < lowLimit then .stop
      else if gapStart ≤ highLimit ∧ length ≤ wsub gapEnd gapStart then .found gapStart gapEnd
      else if promising mm length l then gapDown mm length lowLimit highLimit l else .next
    | g => g

/-- `none` is `-ENOMEM`. `align_mask` is 0 in all calls. -/
def unmappedArea (mm : Mm) (length low high : ℕ) : Option ℕ :=
  if high < length ∨ high-length < low then none
  else
    let search :=
      if promising mm length mm.mmRb then
        gapUp mm length (low+length) (high-length) mm.mmRb else .next
    match search with
    | .found gapStart _ => some (max gapStart low)
    | .stop => none
    | .next => if high-length < mm.highestVmEnd then none else some (max mm.highestVmEnd low)

def unmappedAreaTopdown (mm : Mm) (length low high : ℕ) : Option ℕ :=
  if high < length ∨ high-length < low then none
  else if mm.highestVmEnd ≤ high-length then some (high-length)
  else
    let search :=
      if promising mm length mm.mmRb then
        gapDown mm length (low+length) (high-length) mm.mmRb else .next
    match search with
    | .found _ gapEnd => some (min gapEnd high-length)
    | _ => none

def hintFits (conf : MmConf) (mm : Mm) (addr len : ℕ) : Bool :=
  decide (addr ≤ wsub TASK_SIZE len) && decide (conf.mmapMinAddr ≤ addr) &&
    match findVma mm addr with
    | some x => decide (wadd addr len ≤ (mm.vma x).vmStart)
    | none => true

def areaResult (r : Option ℕ) : ℤ :=
  match r with
  | some a => a
  | none => -ENOMEM

def archGetUnmappedArea (conf : MmConf) (mm : Mm) (addr len : ℕ) (flags : Bits) : ℤ :=
  if wsub TASK_SIZE conf.mmapMinAddr < len then -ENOMEM
  else if flags.has MAP_FIXED then addr
  else if addr ≠ 0 ∧ hintFits conf mm (pageAlign addr) len then pageAlign addr
  else areaResult (unmappedArea mm len mm.mmapBase TASK_SIZE)

def archGetUnmappedAreaTopdown (conf : MmConf) (mm : Mm) (addr len : ℕ) (flags : Bits) : ℤ :=
  if wsub TASK_SIZE conf.mmapMinAddr < len then -ENOMEM
  else if flags.has MAP_FIXED then addr
  else if addr ≠ 0 ∧ hintFits conf mm (pageAlign addr) len then pageAlign addr
  else
    areaResult ((unmappedAreaTopdown mm len (max 4096 conf.mmapMinAddr) mm.mmapBase).or
      (unmappedArea mm len conf.taskUnmappedBase TASK_SIZE))

def archArea (env : MmEnv) (mm : Mm) (topdown : Bool) (addr len : ℕ) (flags : Bits) : ℤ :=
  if topdown then archGetUnmappedAreaTopdown env.conf (env.cur mm) addr len flags
  else archGetUnmappedArea env.conf (env.cur mm) addr len flags

def exceptArea (r : Except (Fin 4095) ℕ) : ℤ :=
  match r with
  | .ok a => a
  | .error e => -(e.val+1 : ℤ)

def getArea (env : MmEnv) (mm : Mm) (topdown : Bool) (file : Option FileId) (addr len : ℕ)
    (pgoff : BitVec 64) (flags : Bits) : ℤ :=
  match file with
  | some f =>
    match (env.file f).getArea with
    | some g => exceptArea (g addr len pgoff flags)
    | none => archArea env mm topdown addr len flags
  | none =>
    if flags.has MAP_SHARED then exceptArea (env.shmemArea addr len 0 flags)
    else archArea env mm topdown addr len flags

def unmappedAreaOf (env : MmEnv) (s : MmSys) (topdown : Bool) (file : Option FileId) (addr len : ℕ)
    (pgoff : BitVec 64) (flags : Bits) : ℤ × MmSys :=
  if TASK_SIZE < len then (-ENOMEM, s)
  else
    let addr := getArea env s.mm topdown file addr len pgoff flags
    if addr < 0 then (addr, s)
    else if (TASK_SIZE-len : ℕ) < addr then (-ENOMEM, s)
    else if addr % 4096 ≠ 0 then (-EINVAL, s)
    else
      let security := s.outcome
      if security.1 ≠ 0 then security else (addr, security.2)

def getTaskUnmappedArea (env : MmEnv) (s : MmSys) (file : Option FileId) (addr len : ℕ)
    (pgoff : BitVec 64) (flags : Bits) : ℤ × MmSys :=
  unmappedAreaOf env s s.mm.topdown file addr len pgoff flags

def getUnmappedArea (env : MmEnv) (s : MmSys) (file : Option FileId) (addr len : ℕ)
    (pgoff : BitVec 64) (flags : Bits) : ℤ × MmSys :=
  unmappedAreaOf env s (env.cur s.mm).topdown file addr len pgoff flags

/-! Limits, those of `current`. -/

def mayExpandVm (env : MmEnv) (mm : Mm) (flags : VmFlags) (npages : BitVec 64) : Bool :=
  if env.rlim.as >>> 12 < mm.totalVm+npages then false
  else if isDataMapping flags ∧ env.rlim.data >>> 12 < mm.dataVm+npages then
    (env.rlim.data == 0 && decide (mm.dataVm+npages ≤ env.rlim.dataMax >>> 12)) ||
      env.conf.ignoreRlimitData
  else true

def mlockFutureCheck (env : MmEnv) (mm : Mm) (flags : VmFlags) (len : ℕ) : ℤ :=
  if flags.has VM_LOCKED ∧ env.rlim.memlock >>> 12 < BitVec.ofNat 64 (len/4096)+mm.lockedVm ∧
      env.capIpcLock = false then -EAGAIN
  else 0

def canDoMlock (env : MmEnv) : Bool := env.rlim.memlock != 0 || env.capIpcLock

def countVmaPagesRange (mm : Mm) (addr end_ : ℕ) : ℕ :=
  match findVmaIntersection mm addr end_ with
  | none => 0
  | some x =>
    (min end_ (mm.vma x).vmEnd-max addr (mm.vma x).vmStart)/4096 +
      (((mm.areasFrom (mm.vmNext x)).takeWhile fun y => decide ((mm.vma y).vmStart ≤ end_)).map
        fun y => (min end_ (mm.vma y).vmEnd-(mm.vma y).vmStart)/4096).sum

/-! Mapping. -/

def accountableMapping (env : MmEnv) (file : Option FileId) (vmFlags : VmFlags) : Bool :=
  !(file.any fun f => (env.file f).hugepages) &&
    vmFlags &&& (VM_NORESERVE ||| VM_SHARED ||| VM_WRITE) == VM_WRITE

def clearOldMaps (rb : Balance VmaId) (conf : MmConf) (addr len : ℕ) :
    ℕ → MmSys → Option VmaLinks × MmSys
  | 0, s => (none, s.setMm { s.mm with bug := true })
  | fuel+1, s =>
    match findVmaLinks s.mm addr (addr+len) with
    | some k => (some k, s)
    | none =>
      let r := doMunmap rb conf s addr len
      if r.1 ≠ 0 then (none, r.2) else clearOldMaps rb conf addr len fuel r.2

def accountNew (mm : Mm) (vmFlags : VmFlags) (n : BitVec 64) (lock : Bool) : Mm :=
  let mm := vmStatAccount mm vmFlags n
  { mm with lockedVm := if lock then mm.lockedVm+n else mm.lockedVm }

def markNew (mm : Mm) (x : VmaId) (unlock : Bool) : Mm :=
  mm.modVma x fun v =>
    { v with vmFlags := (if unlock then v.vmFlags &&& VM_LOCKED_CLEAR_MASK else v.vmFlags) |||
               VM_SOFTDIRTY }

def mapDone (s : MmSys) (x : VmaId) (vmFlags : VmFlags) (len : ℕ) : MmSys :=
  let special := vmFlags.has VM_SPECIAL || isVmHugetlbPage (s.mm.vma x)
  let mm := accountNew s.mm vmFlags (BitVec.ofNat 64 (len/4096)) (vmFlags.has VM_LOCKED && !special)
  s.setMm (markNew mm x (vmFlags.has VM_LOCKED && special))

def MergeReq.area (q : MergeReq) : Vma :=
  { vmStart := q.addr, vmEnd := q.end_, vmFlags := q.vmFlags, vmPgoff := q.pgoff }

def linkNew (rb : Balance VmaId) (s : MmSys) (x : VmaId) (k : VmaLinks) (len : ℕ) : MmSys :=
  mapDone (s.setMm (vmaLink rb s.mm x k)) x (s.mm.vma x).vmFlags len

def FileInfo.mapped (i : FileInfo) (f : FileId) (v : Vma) : Vma :=
  { v with
    vmFile := some f, vmFlags := i.mmapFlags v.vmFlags, hasOps := i.hasOps, hasClose := i.hasClose
    hasMremap := i.hasMremap, hugeSize := i.hugeSize }

def mapFileChecks (s : MmSys) (vmFlags : VmFlags) : ℤ × MmSys :=
  let deny := if vmFlags.has VM_DENYWRITE then s.outcome else (0, s)
  if deny.1 ≠ 0 then deny
  else if vmFlags.has VM_SHARED then deny.2.outcome else (0, deny.2)

def mapFile (rb : Balance VmaId) (env : MmEnv) (s : MmSys) (x : VmaId) (f : FileId) (k : VmaLinks)
    (q : MergeReq) (charged : ℤ) : ℤ × MmSys :=
  let checks := mapFileChecks s q.vmFlags
  if checks.1 ≠ 0 then (checks.1, vmUnacctMemory checks.2 charged)
  else
    let s := checks.2.getFile (some f)
    if (env.file f).mmapErr ≠ 0 then (-((env.file f).mmapErr.val : ℤ), s.fput (some f))
    else
      let s := s.setMm (s.mm.modVma x ((env.file f).mapped f))
      (q.addr, linkNew rb s x k (q.end_-q.addr))

def mapAnon (rb : Balance VmaId) (env : MmEnv) (s : MmSys) (x : VmaId) (k : VmaLinks) (q : MergeReq)
    (charged : ℤ) : ℤ × MmSys :=
  if q.vmFlags.has VM_SHARED then
    let setup := s.outcome
    if setup.1 ≠ 0 then (setup.1, vmUnacctMemory setup.2 charged)
    else
      let s := setup.2.getFile (some env.shmemFile)
      let s :=
        s.setMm (s.mm.modVma x fun v => { v with vmFile := some env.shmemFile, hasOps := true })
      (q.addr, linkNew rb s x k (q.end_-q.addr))
  else (q.addr, linkNew rb s x k (q.end_-q.addr))

def mapRegion (rb : Balance VmaId) (env : MmEnv) (s : MmSys) (k : VmaLinks) (q : MergeReq)
    (charged : ℤ) :
    ℤ × MmSys :=
  let merge := vmaMerge rb s k.prev q
  match merge.1 with
  | some x => (q.addr, mapDone merge.2 x q.vmFlags (q.end_-q.addr))
  | none =>
    let alloc := merge.2.outcome
    if alloc.1 ≠ 0 then (-ENOMEM, vmUnacctMemory alloc.2 charged)
    else
      let s := allocVma alloc.2 q.area
      match q.file with
      | some f => mapFile rb env s alloc.2.mm.nextId f k q charged
      | none => mapAnon rb env s alloc.2.mm.nextId k q charged

def MergeReq.accounted (q : MergeReq) : MergeReq := { q with vmFlags := q.vmFlags ||| VM_ACCOUNT }

def chargeRegion (rb : Balance VmaId) (env : MmEnv) (s : MmSys) (k : VmaLinks) (q : MergeReq) :
    ℤ × MmSys :=
  if accountableMapping env q.file q.vmFlags then
    let charge := vmEnoughMemory s ((q.end_-q.addr)/4096 : ℕ)
    if charge.1 ≠ 0 then (-ENOMEM, charge.2)
    else mapRegion rb env charge.2 k q.accounted ((q.end_-q.addr)/4096 : ℕ)
  else mapRegion rb env s k q 0

def regionFits (env : MmEnv) (mm : Mm) (addr len : ℕ) (vmFlags : VmFlags) : Bool :=
  mayExpandVm env mm vmFlags (BitVec.ofNat 64 (len/4096)) ||
    mayExpandVm env mm vmFlags
      (BitVec.ofNat 64 (len/4096)-BitVec.ofNat 64 (countVmaPagesRange mm addr (addr+len)))

def mmapTaskRegion (rb : Balance VmaId) (env : MmEnv) (s : MmSys) (file : Option FileId)
    (addr len : ℕ) (vmFlags : VmFlags) (pgoff : BitVec 64) : ℤ × MmSys :=
  if regionFits env s.mm addr len vmFlags = false then (-ENOMEM, s)
  else
    let clear := clearOldMaps rb env.conf addr len 2 s
    match clear.1 with
    | none => (-ENOMEM, clear.2)
    | some k => chargeRegion rb env clear.2 k ⟨addr, addr+len, vmFlags, none, file, pgoff, 0, 0⟩

def calcVmTrans (x bit1 bit2 : Bits) : Bits := if x.has bit1 then bit2 else 0

def calcVmProtBits (prot : Bits) (pkeyBits : VmFlags) : VmFlags :=
  calcVmTrans prot PROT_READ VM_READ ||| calcVmTrans prot PROT_WRITE VM_WRITE |||
    calcVmTrans prot PROT_EXEC VM_EXEC ||| (pkeyBits &&& ARCH_VM_PKEY_FLAGS)

def calcVmFlagBits (flags : Bits) : VmFlags :=
  calcVmTrans flags MAP_GROWSDOWN VM_GROWSDOWN ||| calcVmTrans flags MAP_DENYWRITE VM_DENYWRITE |||
    calcVmTrans flags MAP_LOCKED VM_LOCKED

def roundHintToMin (conf : MmConf) (hint : ℕ) : ℕ :=
  if pageMask hint ≠ 0 ∧ pageMask hint < conf.mmapMinAddr then pageAlign conf.mmapMinAddr
    else pageMask hint

def shareFlags (i : FileInfo) (prot flags : Bits) (vmFlags : VmFlags) : Except ℤ VmFlags :=
  if flags &&& MAP_TYPE = MAP_SHARED then
    if prot.has PROT_WRITE ∧ i.fmodeWrite = false then .error (-EACCES)
    else if i.append ∧ i.fmodeWrite then .error (-EACCES)
    else if i.mandLocked then .error (-EAGAIN)
    else if i.fmodeWrite then .ok (vmFlags ||| VM_SHARED ||| VM_MAYSHARE)
    else .ok ((vmFlags ||| VM_SHARED ||| VM_MAYSHARE) &&& ~~~(VM_MAYWRITE ||| VM_SHARED))
  else if flags &&& MAP_TYPE = MAP_PRIVATE then .ok vmFlags
  else .error (-EINVAL)

def fileFlags (i : FileInfo) (prot flags : Bits) (vmFlags : VmFlags) : Except ℤ VmFlags :=
  match shareFlags i prot flags vmFlags with
  | .error e => .error e
  | .ok vmFlags =>
    if i.fmodeRead = false then .error (-EACCES)
    else if i.noexec ∧ vmFlags.has VM_EXEC then .error (-EPERM)
    else if i.hasMmap = false then .error (-ENODEV)
    else if vmFlags.has VM_GROWSDOWN then .error (-EINVAL)
    else .ok (if i.noexec then vmFlags &&& ~~~VM_MAYEXEC else vmFlags)

def anonFlags (flags : Bits) (vmFlags : VmFlags) (addr : ℕ) : Except ℤ (VmFlags × BitVec 64) :=
  if flags &&& MAP_TYPE = MAP_SHARED then
    if vmFlags.has VM_GROWSDOWN then .error (-EINVAL)
      else .ok (vmFlags ||| VM_SHARED ||| VM_MAYSHARE, 0)
  else if flags &&& MAP_TYPE = MAP_PRIVATE then .ok (vmFlags, BitVec.ofNat 64 (addr/4096))
  else .error (-EINVAL)

def typeFlags (env : MmEnv) (file : Option FileId) (prot flags : Bits) (vmFlags : VmFlags)
    (addr : ℕ) (pgoff : BitVec 64) : Except ℤ (VmFlags × BitVec 64) :=
  match file with
  | some f => (fileFlags (env.file f) prot flags vmFlags).map fun fl => (fl, pgoff)
  | none => anonFlags flags vmFlags addr

def reserveFlags (env : MmEnv) (file : Option FileId) (flags : Bits) (vmFlags : VmFlags) :
    VmFlags :=
  if flags.has MAP_NORESERVE ∧
      (env.conf.overcommitNever = false ∨ file.any fun f => (env.file f).hugepages) then
    vmFlags ||| VM_NORESERVE
  else vmFlags

def impliedProt (env : MmEnv) (file : Option FileId) (prot : Bits) : Bits :=
  if prot.has PROT_READ ∧ env.readImpliesExec ∧ ¬file.any fun f => (env.file f).noexec then
    prot ||| PROT_EXEC
  else prot

def baseFlags (env : MmEnv) (mm : Mm) (prot flags : Bits) : VmFlags :=
  calcVmProtBits prot (if prot = PROT_EXEC then env.pkeyBits else 0) ||| calcVmFlagBits flags |||
    mm.defFlags ||| VM_MAYREAD ||| VM_MAYWRITE ||| VM_MAYEXEC

def mapAt (rb : Balance VmaId) (env : MmEnv) (s : MmSys) (file : Option FileId) (addr len : ℕ)
    (prot flags : Bits) (pgoff : BitVec 64) : ℤ × MmSys :=
  let vmFlags := baseFlags env s.mm prot flags
  if flags.has MAP_LOCKED ∧ canDoMlock env = false then (-EPERM, s)
  else if mlockFutureCheck env s.mm vmFlags len ≠ 0 then (-EAGAIN, s)
  else match typeFlags env file prot flags vmFlags addr pgoff with
  | .error e => (e, s)
  | .ok (vmFlags, pgoff) =>
    mmapTaskRegion rb env s file addr len (reserveFlags env file flags vmFlags) pgoff

def mapHint (env : MmEnv) (flags : Bits) (addr : ℕ) : ℕ :=
  if flags.has MAP_FIXED then addr else roundHintToMin env.conf addr

def doTaskMmap (rb : Balance VmaId) (env : MmEnv) (s : MmSys) (file : Option FileId) (addr len : ℕ)
    (prot flags : Bits) (pgoff : BitVec 64) : ℤ × MmSys :=
  let prot := impliedProt env file prot
  let addr := mapHint env flags addr
  if len = 0 then (-EINVAL, s)
  else
    let len := pageAlign len
    if len = 0 then (-ENOMEM, s)
    else if pgoff+BitVec.ofNat 64 (len/4096) < pgoff then (-EOVERFLOW, s)
    else if env.conf.maxMapCount < s.mm.mapCount then (-ENOMEM, s)
    else
      let area := getTaskUnmappedArea env s file addr len pgoff flags
      if area.1 % 4096 ≠ 0 then area
      else mapAt rb env area.2 file area.1.toNat len prot flags pgoff

def vmMmapPgoff (rb : Balance VmaId) (env : MmEnv) (s : MmSys) (file : Option FileId) (addr len : ℕ)
    (prot flags : Bits) (pgoff : BitVec 64) : ℤ × MmSys :=
  let security := s.outcome
  if security.1 ≠ 0 then security
  else
    let lock := security.2.outcome
    if lock.1 ≠ 0 then (-EINTR, lock.2) else doTaskMmap rb env lock.2 file addr len prot flags pgoff

def vmMmapRemote (rb : Balance VmaId) (env : MmEnv) (s : MmSys) (file : Option FileId)
    (addr len : ℕ) (prot flags : Bits) (offset : ℕ) : ℤ × MmSys :=
  if wadd offset (pageAlign len) < offset then (-EINVAL, s)
  else if offsetInPage offset ≠ 0 then (-EINVAL, s)
  else vmMmapPgoff rb env s file addr len prot flags (BitVec.ofNat 64 (offset/4096))

def alignUp (a size : ℕ) : ℕ := wadd a (size-1)/size*size

def withMmapFile (env : MmEnv) (s : MmSys) (file : Option FileId) (len : ℕ) (flags : Bits)
    (map : MmSys → Option FileId → ℕ → Bits → ℤ × MmSys) : ℤ × MmSys :=
  let kept := flags &&& ~~~(MAP_EXECUTABLE ||| MAP_DENYWRITE)
  if flags.has MAP_ANONYMOUS = false then
    match file with
    | none => (-EBADF, s)
    | some f =>
      let s := s.getFile (some f)
      let len := if (env.file f).hugepages then alignUp len (env.file f).hugeSize else len
      let r :=
        if flags.has MAP_HUGETLB ∧ (env.file f).hugepages = false then (-EINVAL, s)
        else map s (some f) len kept
      (r.1, r.2.fput (some f))
  else if flags.has MAP_HUGETLB then
    match env.hugetlbSize with
    | none => (-EINVAL, s)
    | some size =>
      let setup := s.outcome
      if setup.1 ≠ 0 then setup
      else
        let r := map (setup.2.getFile (some env.hugetlbFile)) (some env.hugetlbFile)
          (alignUp len size) kept
        (r.1, r.2.fput (some env.hugetlbFile))
  else map s none len kept

def doMmapRemote (rb : Balance VmaId) (env : MmEnv) (s : MmSys) (file : Option FileId)
    (addr len : ℕ) (prot flags : Bits) (offset : ℕ) : ℤ × MmSys :=
  withMmapFile env s file len flags fun s file len flags =>
    vmMmapRemote rb env s file addr len prot flags offset

def mmapPgoff (rb : Balance VmaId) (env : MmEnv) (s : MmSys) (file : Option FileId) (addr len : ℕ)
    (prot flags : Bits) (pgoff : BitVec 64) : ℤ × MmSys :=
  withMmapFile env s file len flags fun s file len flags =>
    vmMmapPgoff rb env s file addr len prot flags pgoff

def oldMmap (rb : Balance VmaId) (env : MmEnv) (s : MmSys) (file : Option FileId) (addr len : ℕ)
    (prot flags : Bits) (offset : ℕ) : ℤ × MmSys :=
  if offsetInPage offset ≠ 0 then (-EINVAL, s)
  else mmapPgoff rb env s file addr len prot flags (BitVec.ofNat 64 (offset/4096))

def MmEnv.own (env : MmEnv) : MmEnv := { env with curMm := none }

/-! `brk`, a system call of the task itself. -/

def VM_DATA_DEFAULT_FLAGS (exec : Bool) : VmFlags :=
  (if exec then VM_EXEC else 0) ||| VM_READ ||| VM_WRITE ||| VM_MAYREAD |||
    VM_MAYWRITE ||| VM_MAYEXEC

def brkFlags (env : MmEnv) (mm : Mm) : VmFlags :=
  VM_DATA_DEFAULT_FLAGS env.dataExec ||| VM_ACCOUNT ||| mm.defFlags

def brkDone (s : MmSys) (x : VmaId) (flags : VmFlags) (len : ℕ) : MmSys :=
  let n := BitVec.ofNat 64 (len/4096)
  let mm := { s.mm with
    totalVm := s.mm.totalVm+n
    dataVm := s.mm.dataVm+n
    lockedVm := if flags.has VM_LOCKED then s.mm.lockedVm+n else s.mm.lockedVm }
  s.setMm (markNew mm x false)

def brkRegion (rb : Balance VmaId) (s : MmSys) (k : VmaLinks) (q : MergeReq) : ℤ × MmSys :=
  let merge := vmaMerge rb s k.prev q
  match merge.1 with
  | some x => (0, brkDone merge.2 x q.vmFlags (q.end_-q.addr))
  | none =>
    let alloc := merge.2.outcome
    if alloc.1 ≠ 0 then (-ENOMEM, vmUnacctMemory alloc.2 ((q.end_-q.addr)/4096 : ℕ))
    else
      let s := allocVma alloc.2 q.area
      let x := alloc.2.mm.nextId
      (0, brkDone (s.setMm (vmaLink rb s.mm x k)) x q.vmFlags (q.end_-q.addr))

def brkCharge (rb : Balance VmaId) (env : MmEnv) (s : MmSys) (k : VmaLinks) (q : MergeReq) :
    ℤ × MmSys :=
  if mayExpandVm env s.mm q.vmFlags (BitVec.ofNat 64 ((q.end_-q.addr)/4096)) = false then
    (-ENOMEM, s)
  else if env.conf.maxMapCount < s.mm.mapCount then (-ENOMEM, s)
  else
    let charge := vmEnoughMemory s ((q.end_-q.addr)/4096 : ℕ)
    if charge.1 ≠ 0 then (-ENOMEM, charge.2) else brkRegion rb charge.2 k q

def doBrk (rb : Balance VmaId) (env : MmEnv) (s : MmSys) (addr request : ℕ) : ℤ × MmSys :=
  let len := pageAlign request
  if len < request then (-ENOMEM, s)
  else if len = 0 then (0, s)
  else
    let flags := brkFlags env s.mm
    let area := getUnmappedArea env s none addr len 0 MAP_FIXED
    if area.1 % 4096 ≠ 0 then area
    else if mlockFutureCheck env area.2.mm area.2.mm.defFlags len ≠ 0 then (-EAGAIN, area.2)
    else
      let clear := clearOldMaps rb env.conf addr len 2 area.2
      match clear.1 with
      | none => (-ENOMEM, clear.2)
      | some k =>
        brkCharge rb env clear.2 k
          ⟨addr, addr+len, flags, none, none, BitVec.ofNat 64 (addr/4096), 0, 0⟩

def checkDataRlimit (env : MmEnv) (mm : Mm) (new : ℕ) : Bool :=
  env.rlim.data != BitVec.allOnes 64 &&
    decide (env.rlim.data.toNat < wadd (wsub new mm.startBrk) (wsub mm.endData mm.startData))

def moveBrk (rb : Balance VmaId) (env : MmEnv) (s : MmSys) (brk : ℕ) : Bool × MmSys :=
  let newbrk := pageAlign brk
  let oldbrk := pageAlign s.mm.brk
  if oldbrk = newbrk then (true, s)
  else if brk ≤ s.mm.brk then
    let r := doMunmap rb env.conf s newbrk (wsub oldbrk newbrk)
    (r.1 == 0, r.2)
  else if findVmaIntersection s.mm oldbrk (wadd newbrk 4096) ≠ none then (false, s)
  else
    let r := doBrk rb env s oldbrk (wsub newbrk oldbrk)
    (decide (0 ≤ r.1), r.2)

def brk (rb : Balance VmaId) (env : MmEnv) (s : MmSys) (brk : ℕ) : ℤ × MmSys :=
  let lock := s.outcome
  if lock.1 ≠ 0 then (-EINTR, lock.2)
  else
    let s := lock.2
    let minBrk := if env.compatBrk then s.mm.endData else s.mm.startBrk
    if brk < minBrk ∨ checkDataRlimit env s.mm brk then (s.mm.brk, s)
    else
      let r := moveBrk rb env s brk
      if r.1 then (brk, r.2.setMm { r.2.mm with brk := brk }) else (r.2.mm.brk, r.2)

end PtraceRemote
