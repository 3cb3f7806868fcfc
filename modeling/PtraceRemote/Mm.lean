import PtraceRemote.Linked
import PtraceRemote.AugTree
import PtraceRemote.Vma

/-! An address space, `struct mm_struct`: the list and the tree of its areas, and the functions of
mm/mmap.c and mm/util.c that link, unlink, adjust, merge and split areas. -/
namespace PtraceRemote

open AugTree (Balance)

def VM_DEF_MASK : VmFlags := VM_LOCKED ||| VM_LOCKONFAULT ||| VM_NOHUGEPAGE

/-- `struct mm_struct` with the areas it owns. Links and areas are indexed by area identity; fresh
areas come from `nextId`. `bug` records a `BUG()` or a NULL dereference. -/
structure Mm where
  vma : VmaId → Vma := fun _ => {}
  vmNext : VmaId → Option VmaId := fun _ => none
  vmPrev : VmaId → Option VmaId := fun _ => none
  mmap : Option VmaId := none
  mmRb : AugTree VmaId := .nil
  rbSubtreeGap : VmaId → ℕ := fun _ => 0
  mapCount : ℤ := 0
  highestVmEnd : ℕ := 0
  totalVm : BitVec 64 := 0
  execVm : BitVec 64 := 0
  stackVm : BitVec 64 := 0
  dataVm : BitVec 64 := 0
  lockedVm : BitVec 64 := 0
  defFlags : VmFlags := 0
  mmapBase : ℕ := 0
  topdown : Bool := true
  brk : ℕ := 0
  startBrk : ℕ := 0
  startData : ℕ := 0
  endData : ℕ := 0
  nextId : VmaId := 0
  bug : Bool := false
  def_ok : defFlags &&& ~~~VM_DEF_MASK = 0 := by decide

theorem no_defFlags : (0 : VmFlags) &&& ~~~VM_DEF_MASK = 0 := by decide

/-- What a request changes: the address space, the reference counts of files and the pages charged
to `vm_committed_as`. `outcomes` says how the coming calls that may fail end, an error number or 0;
when it runs out they succeed. -/
structure MmSys where
  mm : Mm
  fCount : FileId → ℤ := fun _ => 0
  committed : ℤ := 0
  outcomes : List (Fin 4096) := []

namespace MmSys

def outcome (s : MmSys) : ℤ × MmSys :=
  match s.outcomes with
  | [] => (0, s)
  | e :: es => (-(e.val : ℤ), { s with outcomes := es })

def getFile (s : MmSys) (file : Option FileId) : MmSys :=
  match file with
  | some f => { s with fCount := Function.update s.fCount f (s.fCount f+1) }
  | none => s

def fput (s : MmSys) (file : Option FileId) : MmSys :=
  match file with
  | some f => { s with fCount := Function.update s.fCount f (s.fCount f-1) }
  | none => s

def setMm (s : MmSys) (mm : Mm) : MmSys := { s with mm := mm }

end MmSys

def Mm.modVma (mm : Mm) (x : VmaId) (f : Vma → Vma) : Mm :=
  { mm with vma := Function.update mm.vma x (f (mm.vma x)) }

def Mm.ownGap (mm : Mm) (x : VmaId) : ℕ :=
  match mm.vmPrev x with
  | some p => wsub (mm.vma x).vmStart (mm.vma p).vmEnd
  | none => (mm.vma x).vmStart

def vmaGapUpdate (mm : Mm) (x : VmaId) : Mm :=
  { mm with rbSubtreeGap := mm.mmRb.repair mm.ownGap x mm.rbSubtreeGap }

def findVmaIn (vma : VmaId → Vma) (addr : ℕ) : AugTree VmaId → Option VmaId → Option VmaId
  | .nil, found => found
  | .node l x r, found =>
    if addr < (vma x).vmEnd then
      if (vma x).vmStart ≤ addr then some x else findVmaIn vma addr l (some x)
    else findVmaIn vma addr r found

def findVma (mm : Mm) (addr : ℕ) : Option VmaId := findVmaIn mm.vma addr mm.mmRb none

def findVmaIntersection (mm : Mm) (startAddr endAddr : ℕ) : Option VmaId :=
  match findVma mm startAddr with
  | some x => if endAddr ≤ (mm.vma x).vmStart then none else some x
  | none => none

structure VmaLinks where
  prev : Option VmaId
  rbParent : Option VmaId
  rbLink : List Bool

def findVmaLinksIn (vma : VmaId → Vma) (addr end_ : ℕ) :
    AugTree VmaId → Option VmaId → Option VmaId → Option VmaLinks
  | .nil, prev, parent => some ⟨prev, parent, []⟩
  | .node l x r, prev, _ =>
    if addr < (vma x).vmEnd then
      if (vma x).vmStart < end_ then none
      else (findVmaLinksIn vma addr end_ l prev (some x)).map fun k =>
        { k with rbLink := true :: k.rbLink }
    else (findVmaLinksIn vma addr end_ r (some x) (some x)).map fun k =>
      { k with rbLink := false :: k.rbLink }

def findVmaLinks (mm : Mm) (addr end_ : ℕ) : Option VmaLinks :=
  findVmaLinksIn mm.vma addr end_ mm.mmRb none none

def setLink (link : VmaId → Option VmaId) (x v : Option VmaId) : VmaId → Option VmaId :=
  match x with
  | some n => Function.update link n v
  | none => link

def vmaLinkList (mm : Mm) (x : VmaId) (prev rbParent : Option VmaId) : Mm :=
  let next := match prev with
    | some p => mm.vmNext p
    | none => rbParent
  { mm with
    mmap := match prev with
      | some _ => mm.mmap
      | none => some x
    vmPrev := setLink (Function.update mm.vmPrev x prev) next (some x)
    vmNext := Function.update (setLink mm.vmNext prev (some x)) x next }

def gapUpdateNext (mm : Mm) (next : Option VmaId) : Mm :=
  { mm with
    rbSubtreeGap := match next with
      | some n => (vmaGapUpdate mm n).rbSubtreeGap
      | none => mm.rbSubtreeGap }

def gapAfterLink (mm : Mm) (x : VmaId) : Mm :=
  { gapUpdateNext mm (mm.vmNext x) with
    highestVmEnd := match mm.vmNext x with
      | some _ => mm.highestVmEnd
      | none => (mm.vma x).vmEnd }

def vmaRbInsert (rb : Balance VmaId) (mm : Mm) (x : VmaId) : Mm :=
  { mm with
    mmRb := (rb.insert mm.ownGap mm.rbSubtreeGap mm.mmRb x).1
    rbSubtreeGap := (rb.insert mm.ownGap mm.rbSubtreeGap mm.mmRb x).2 }

def vmaRbErase (rb : Balance VmaId) (mm : Mm) (x : VmaId) : Mm :=
  { mm with
    mmRb := (rb.erase mm.ownGap mm.rbSubtreeGap mm.mmRb x).1
    rbSubtreeGap := (rb.erase mm.ownGap mm.rbSubtreeGap mm.mmRb x).2 }

def vmaLinkRb (rb : Balance VmaId) (mm : Mm) (x : VmaId) (rbLink : List Bool) : Mm :=
  let mm := gapAfterLink mm x
  let mm := { mm with
    mmRb := mm.mmRb.insertAt x rbLink, rbSubtreeGap := Function.update mm.rbSubtreeGap x 0 }
  vmaRbInsert rb (vmaGapUpdate mm x) x

def vmaLink (rb : Balance VmaId) (mm : Mm) (x : VmaId) (k : VmaLinks) : Mm :=
  let mm := vmaLinkRb rb (vmaLinkList mm x k.prev k.rbParent) x k.rbLink
  { mm with mapCount := mm.mapCount+1 }

def insertVmStruct (rb : Balance VmaId) (mm : Mm) (x : VmaId) : Mm :=
  match findVmaLinks mm (mm.vma x).vmStart (mm.vma x).vmEnd with
  | some k => vmaLink rb mm x k
  | none => { mm with bug := true }

def vmaUnlinkCommon (rb : Balance VmaId) (mm : Mm) (x : VmaId) (prev : Option VmaId) : Mm :=
  let mm := vmaRbErase rb mm x
  let next := mm.vmNext x
  let prev := prev.or (mm.vmPrev x)
  { mm with
    mmap := match prev with
      | some _ => mm.mmap
      | none => next
    vmNext := setLink mm.vmNext prev next
    vmPrev := setLink mm.vmPrev next prev }

def anonVmaClone (s : MmSys) (dst src : VmaId) : ℤ × MmSys :=
  let r := s.outcome
  if r.1 = 0 then
    (0, r.2.setMm (r.2.mm.modVma dst fun v => { v with anonChain := (r.2.mm.vma src).anonChain }))
  else
    (-ENOMEM, r.2.setMm (r.2.mm.modVma dst fun v => { v with anonVma := none, anonChain := 0 }))

inductive AdjustMode where
  | keep
  | shift (next : VmaId) (pages : ℤ)
  | removeNext (next : VmaId)
  | removeTwo (next : VmaId)
  | removeSelf (next : VmaId)

def adjustMode (mm : Mm) (x : VmaId) (end_ : ℕ) (insert expand : Option VmaId) : AdjustMode :=
  match mm.vmNext x, insert with
  | some n, none =>
    if (mm.vma n).vmEnd ≤ end_ then
      if expand = some n then .removeSelf n
      else if (mm.vma n).vmEnd < end_ then .removeTwo n else .removeNext n
    else if (mm.vma n).vmStart < end_ then .shift n (((end_-(mm.vma n).vmStart)/4096 : ℕ) : ℤ)
    else if end_ < (mm.vma x).vmEnd then .shift n (-(((mm.vma x).vmEnd-end_)/4096 : ℕ) : ℤ)
    else .keep
  | _, _ => .keep

def importAnon (s : MmSys) (exporter : Option VmaId) (importer : VmaId) : ℤ × MmSys :=
  match exporter with
  | some e =>
    if (s.mm.vma e).anonVma ≠ none ∧ (s.mm.vma importer).anonVma = none then
      anonVmaClone (s.setMm (s.mm.modVma importer fun v =>
        { v with anonVma := (s.mm.vma e).anonVma })) importer e
    else (0, s)
  | none => (0, s)

def Mm.setBounds (mm : Mm) (x : VmaId) (start end_ : ℕ) (pgoff : BitVec 64) : Mm :=
  mm.modVma x fun v => { v with vmStart := start, vmEnd := end_, vmPgoff := pgoff }

def adjustKeep (rb : Balance VmaId) (mm : Mm) (x : VmaId) (start end_ : ℕ) (pgoff : BitVec 64)
    (insert : Option VmaId) : Mm :=
  let startChanged := start ≠ (mm.vma x).vmStart
  let endChanged := end_ ≠ (mm.vma x).vmEnd
  let mm := mm.setBounds x start end_ pgoff
  match insert with
  | some i => insertVmStruct rb mm i
  | none =>
    let mm := if startChanged then vmaGapUpdate mm x else mm
    if endChanged then
      match mm.vmNext x with
      | none => { mm with highestVmEnd := end_ }
      | some n => vmaGapUpdate mm n
    else mm

def adjustShift (mm : Mm) (x next : VmaId) (start end_ : ℕ) (pgoff : BitVec 64) (pages : ℤ) : Mm :=
  let startChanged := start ≠ (mm.vma x).vmStart
  let mm := (mm.setBounds x start end_ pgoff).modVma next fun v =>
    { v with
      vmStart := ((v.vmStart : ℤ)+pages*4096).toNat, vmPgoff := v.vmPgoff+BitVec.ofInt 64 pages }
  if startChanged then vmaGapUpdate mm x else mm

def adjustRemove (rb : Balance VmaId) (s : MmSys) (x gone : VmaId) (start end_ : ℕ)
    (pgoff : BitVec 64) (prev : Option VmaId) (file : Option FileId) : MmSys :=
  let mm := vmaUnlinkCommon rb (s.mm.setBounds x start end_ pgoff) gone prev
  (s.setMm { mm with mapCount := mm.mapCount-1 }).fput file

def adjustSwallow (rb : Balance VmaId) (s : MmSys) (x next : VmaId) (start : ℕ) (pgoff : BitVec 64)
    (file : Option FileId) : MmSys :=
  let s := adjustRemove rb s x next start (s.mm.vma next).vmEnd pgoff (some x) file
  s.setMm (gapUpdateNext s.mm (s.mm.vmNext x))

def adjustAgain (rb : Balance VmaId) (s : MmSys) (x : VmaId) (start : ℕ) (pgoff : BitVec 64)
    (file : Option FileId) : MmSys :=
  match s.mm.vmNext x with
  | none => s.setMm { s.mm with bug := true }
  | some next => adjustSwallow rb s x next start pgoff file

def vmaAdjust (rb : Balance VmaId) (s : MmSys) (x : VmaId) (start end_ : ℕ) (pgoff : BitVec 64)
    (insert expand : Option VmaId) : ℤ × MmSys :=
  let file := (s.mm.vma x).vmFile
  match adjustMode s.mm x end_ insert expand with
  | .keep => (0, s.setMm (adjustKeep rb s.mm x start end_ pgoff insert))
  | .shift next pages =>
    -- the boundary moves into `next`, or back into `x`
    let r := if 0 < pages then importAnon s (some next) x else importAnon s (some x) next
    if r.1 ≠ 0 then r
    else (0, r.2.setMm (adjustShift r.2.mm x next start end_ pgoff pages))
  | .removeNext next =>
    let r := importAnon s (some next) x
    if r.1 ≠ 0 then r
    else (0, adjustSwallow rb r.2 x next start pgoff file)
  | .removeTwo next =>
    -- a `next` without an `anon_vma` leaves it to the area behind it
    let exporter := if (s.mm.vma next).anonVma = none then s.mm.vmNext next else some next
    let r := importAnon s exporter x
    if r.1 ≠ 0 then r
    else
      let s := adjustRemove rb r.2 x next start (r.2.mm.vma next).vmEnd pgoff (some x) file
      (0, adjustAgain rb s x start pgoff file)
  | .removeSelf next =>
    -- here it is `x` that goes, and `next` that stays
    let r := importAnon s (some x) next
    if r.1 ≠ 0 then r
    else
      let s := adjustRemove rb r.2 next x start end_ pgoff none file
      (0, s.setMm (vmaGapUpdate s.mm next))

def Mm.nextOf (mm : Mm) (prev : Option VmaId) : Option VmaId :=
  match prev with
  | some p => mm.vmNext p
  | none => mm.mmap

def Mm.pastArea (mm : Mm) (area : Option VmaId) (end_ : ℕ) : Option VmaId :=
  match area with
  | some a => if (mm.vma a).vmEnd = end_ then mm.vmNext a else some a
  | none => none

/-- What `vma_merge` wants to be mapped. -/
structure MergeReq where
  addr : ℕ
  end_ : ℕ
  vmFlags : VmFlags
  anonVma : Option ℕ
  file : Option FileId
  pgoff : BitVec 64
  policy : ℕ
  uffdCtx : ℕ

def MergeReq.pglen (q : MergeReq) : BitVec 64 := BitVec.ofNat 64 ((q.end_-q.addr)/4096)

def mergesAfter (v : Vma) (q : MergeReq) : Bool :=
  v.vmEnd == q.addr && v.policy == q.policy &&
    canVmaMergeAfter v q.vmFlags q.anonVma q.file q.pgoff q.uffdCtx

def mergesBefore (v : Vma) (q : MergeReq) : Bool :=
  q.end_ == v.vmStart && q.policy == v.policy &&
    canVmaMergeBefore v q.vmFlags q.anonVma q.file (q.pgoff+q.pglen) q.uffdCtx

def mergeResult (x : VmaId) (r : ℤ × MmSys) : Option VmaId × MmSys :=
  if r.1 ≠ 0 then (none, r.2) else (some x, r.2)

def vmaMerge (rb : Balance VmaId) (s : MmSys) (prev : Option VmaId) (q : MergeReq) :
    Option VmaId × MmSys :=
  let mm := s.mm
  let area := mm.nextOf prev
  let next := (mm.pastArea area q.end_).filter fun n => mergesBefore (mm.vma n) q
  if q.vmFlags.has VM_SPECIAL then (none, s)
  else match prev.filter fun p => mergesAfter (mm.vma p) q with
  | some p =>
    match next.filter fun n => isMergeableAnonVma (mm.vma p).anonVma (mm.vma n).anonVma none with
    | some n => -- cases 1, 6
        mergeResult p
          (vmaAdjust rb s p (mm.vma p).vmStart (mm.vma n).vmEnd (mm.vma p).vmPgoff none (some p))
    | none => -- cases 2, 5, 7
        mergeResult p (vmaAdjust rb s p (mm.vma p).vmStart q.end_ (mm.vma p).vmPgoff none (some p))
  | none =>
    match next, area with
    | some n, some a =>
      match prev.filter fun p => decide (q.addr < (mm.vma p).vmEnd) with
      | some p => -- case 4
          mergeResult a
            (vmaAdjust rb s p (mm.vma p).vmStart q.addr (mm.vma p).vmPgoff none (some n))
      | none => -- cases 3, 8
          mergeResult n
            (vmaAdjust rb s a q.addr (mm.vma n).vmEnd ((mm.vma n).vmPgoff-q.pglen) none (some n))
    | _, _ => (none, s)

end PtraceRemote
