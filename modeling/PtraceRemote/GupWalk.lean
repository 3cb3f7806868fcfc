import PtraceRemote.Gup

/-! `follow_page_mask`, `faultin_page` and `__get_user_pages` of mm/gup.c with all their flags, and
the references they take. The loop is told at every round what it meets: between two rounds other
tasks may have changed everything. Whether a page becomes dirty, accessed or locked is left out, and
so are the huge entries of devices. -/
namespace PtraceRemote.Pin

def EEXIST : ℤ := 17
def EHWPOISON : ℤ := 133
def HPAGE_PMD_NR : ℕ := 512

/-- A page: the compound page that it belongs to, and its number in there. -/
structure PageId where
  head : ℕ
  index : ℕ := 0
  deriving DecidableEq

/-- The `FOLL_` flags. -/
structure Foll where
  write : Bool := false
  touch : Bool := false
  get : Bool := false
  dump : Bool := false
  force : Bool := false
  nowait : Bool := false
  populate : Bool := false
  split : Bool := false
  hwpoison : Bool := false
  numa : Bool := false
  migration : Bool := false
  tried : Bool := false
  mlock : Bool := false
  remote : Bool := false
  cow : Bool := false
  deriving DecidableEq, Repr

structure Area where
  vmStart : ℕ := 0
  vmEnd : ℕ := 0
  vmFlags : VmFlags := 0
  hasFault : Bool := false
  deriving DecidableEq, Inhabited

inductive Target where
  | normal (page : PageId) (compound : Bool)
  | zero (page : PageId)
  | device (page : PageId)
  | frame
  deriving DecidableEq

structure Entry where
  target : Target
  write : Bool
  dirty : Bool
  protnone : Bool := false
  own : Bool
  deriving DecidableEq

inductive Look where
  | none
  | swap
  | migration
  | present (e : Entry)
  deriving DecidableEq

inductive HugeSplit where
  | failed (e : Fin 4095)
  | gone
  | done (look : Look)
  deriving DecidableEq

/-- Where the way down the directories ends: at one that is missing or bad, at a table or at a huge
page. -/
inductive Walk where
  | missing
  | table (look : Look)
  | huge (e : Entry) (page : PageId) (split : HugeSplit)
  deriving DecidableEq

/-- What `follow_trans_huge_pmd` returns. -/
inductive TransHuge where
  | null
  | error (e : Fin 4095)
  | page (p : PageId)
  deriving DecidableEq

/-- References to compound pages and to the `dev_pagemap`s of devices that were taken and not
dropped again. -/
structure Refs where
  page : ℕ → ℤ := fun _ => 0
  pgmap : ℤ := 0

def Refs.add (r : Refs) (head : ℕ) (n : ℤ) : Refs :=
  { r with page := Function.update r.page head (r.page head+n) }
def Refs.getPage (r : Refs) (p : PageId) : Refs := r.add p.head 1
def Refs.putPage (r : Refs) (p : PageId) : Refs := r.add p.head (-1)
def Refs.getDevPagemap (r : Refs) : Refs := { r with pgmap := r.pgmap+1 }
def Refs.putDevPagemap (r : Refs) : Refs := { r with pgmap := r.pgmap-1 }

inductive VmFault where
  | oom
  | hwpoison
  | sigbus
  | done (major retry write : Bool)
  deriving DecidableEq

/-- What a round of `__get_user_pages` meets, by address: `find_extend_vma`, `in_gate_area` with
`get_gate_page`, what `arch_vma_access_permitted` says, `follow_hugetlb_page` with its pages and
whether it gives up, a pending `SIGKILL`, the page table, `get_dev_pagemap`, `split_huge_page` and
`follow_trans_huge_pmd`, the guard page of a stack and `handle_mm_fault`. -/
structure World where
  vma : ℕ → Option Area := fun _ => none
  gate : ℕ → Option (Option (Area × PageId)) := fun _ => none
  permitted : Bool := true
  huge : ℕ → List PageId × Bool := fun _ => ([], true)
  fatal : Bool := false
  walk : ℕ → Walk := fun _ => .missing
  pgmap : Bool := true
  split : Option (Fin 4095) := none
  transHuge : Foll → Entry → PageId → Refs → TransHuge × Refs := fun _ _ _ r => (.null, r)
  guard : ℕ → Bool := fun _ => false
  handled : VmFault := .sigbus

/-- What `follow_page_mask` returns, with `*page_mask`. -/
inductive Followed where
  | page (p : PageId) (mask : ℕ)
  | null (mask : ℕ)
  | error (e : ℤ) (mask : ℕ)
  | again
  deriving DecidableEq

section Follow

variable (foll : Foll)

def noPageTable (hasFault : Bool) : Followed := if foll.dump && !hasFault then .error (-EFAULT) 0
    else .null 0

def followPfnPte : ℤ := if foll.get then -EFAULT else -EEXIST

def canFollowWritePte (e : Entry) : Bool := e.write || (foll.force && foll.cow && e.dirty)

def takePage (w : World) (p : PageId) (compound pgmap : Bool) (r : Refs) : Followed × Refs :=
  if foll.split && compound then
    let r := (r.getPage p).putPage p
    match w.split with
    | some e => (.error (-((e.val : ℤ)+1)) 0, r)
    | none => (.again, r)
  else if foll.get then (.page p 0, if pgmap then (r.getPage p).putDevPagemap else r.getPage p)
  else (.page p 0, r)

def followSpecial (r : Refs) : Followed × Refs :=
  if foll.dump then (.error (-EFAULT) 0, r) else (.error (followPfnPte foll) 0, r)

def followPagePte (hasFault : Bool) (w : World) (look : Look) (r : Refs) : Followed × Refs :=
  match look with
  | .none => (noPageTable foll hasFault, r)
  | .swap => (.null 0, r)
  | .migration => (if foll.migration then .again else .null 0, r)
  | .present e =>
    if foll.numa && e.protnone then (.null 0, r)
    else if foll.write && !canFollowWritePte foll e then (.null 0, r)
    else match e.target with
      | .normal p compound => takePage foll w p compound false r
      | .zero p => if foll.dump then (.error (-EFAULT) 0, r) else takePage foll w p false false r
      | .device p =>
        if foll.get then
          if w.pgmap then takePage foll w p false true r.getDevPagemap else (.null 0, r)
        else followSpecial foll r
      | .frame => followSpecial foll r

def followHuge (w : World) (e : Entry) (p : PageId) (r : Refs) : Followed × Refs :=
  let found := w.transHuge foll e p r
  match found.1 with
  | .null => (.null (HPAGE_PMD_NR-1), found.2)
  | .error err => (.error (-((err.val : ℤ)+1)) (HPAGE_PMD_NR-1), found.2)
  | .page q => (.page q (HPAGE_PMD_NR-1), found.2)

def followPageMask (hasFault : Bool) (w : World) (addr : ℕ) (r : Refs) : Followed × Refs :=
  match w.walk addr with
  | .missing => (noPageTable foll hasFault, r)
  | .table look => followPagePte foll hasFault w look r
  | .huge e p split =>
    if foll.numa && e.protnone then (noPageTable foll hasFault, r)
    else if foll.split then
      let r := (r.getPage p).putPage p
      match split with
      | .failed err => (.error (-((err.val : ℤ)+1)) 0, r)
      | .gone => (noPageTable foll hasFault, r)
      | .done look => followPagePte foll hasFault w look r
    else followHuge foll w e p r

end Follow

structure Faultin where
  ret : ℤ
  foll : Foll
  counted : Option Bool := none
  busy : Bool := false
  dropped : Bool := false

def faultinPage (foll : Foll) (vmFlags : VmFlags) (nonblocking guard : Bool) (handled : VmFault) :
    Faultin :=
  if foll.mlock && !foll.populate then { ret := -ENOENT, foll := foll }
  else if foll.populate && guard then { ret := -ENOENT, foll := foll }
  else match handled with
    | .oom => { ret := -ENOMEM, foll := foll }
    | .hwpoison => { ret := if foll.hwpoison then -EHWPOISON else -EFAULT, foll := foll }
    | .sigbus => { ret := -EFAULT, foll := foll }
    | .done major retry write =>
      if retry && (nonblocking || foll.nowait) then
        { ret := -EBUSY, foll := foll, counted := some major, busy := nonblocking,
          dropped := !foll.nowait }
      else { ret := 0, foll := if write && !vmFlags.has VM_WRITE then
               { foll with cow := true } else foll,
             counted := some major }

inductive Pc where
  | top
  | retry
  | follow
  deriving DecidableEq

structure Gup where
  pc : Pc := .top
  start : ℕ
  nrPages : ℕ
  vma : Option Area := none
  foll : Foll := {}
  pages : List (Option PageId) := []
  vmas : List (Option Area) := []
  refs : Refs := {}
  majFlt : ℕ := 0
  minFlt : ℕ := 0
  busy : Bool := false
  dropped : Bool := false

/-- The other arguments. `pages` is there if `FOLL_GET` is set. -/
structure Call where
  flags : Foll
  vmas : Bool := false
  nonblocking : Bool := false

inductive Outcome where
  | go (s : Gup)
  | ret (r : ℤ) (s : Gup)

def Gup.area (s : Gup) : Area := s.vma.getD default

def Gup.orError (s : Gup) (err : ℤ) : ℤ := if s.pages.length ≠ 0 then s.pages.length else err

variable (c : Call)

def Gup.next (s : Gup) (p : Option PageId) (mask : ℕ) : Gup :=
  let increm := pageIncrem s.start (if c.vmas then 0 else mask) s.nrPages
  { s with
    pc := .top
    start := s.start+increm*4096
    nrPages := s.nrPages-increm
    pages := s.pages ++ (p :: List.replicate (increm-1) none)
    vmas := if c.vmas then s.vmas ++ [s.vma] else s.vmas }

def nextPage (s : Gup) (p : Option PageId) (mask : ℕ) : Outcome :=
  let s := s.next c p mask
  if s.nrPages = 0 then .ret s.pages.length s else .go s

def Gup.count (s : Gup) : Option Bool → Gup
  | none => s
  | some true => { s with majFlt := s.majFlt+1 }
  | some false => { s with minFlt := s.minFlt+1 }

def lookAt (s : Gup) (w : World) : Outcome :=
  let followed := followPageMask s.foll s.area.hasFault w s.start s.refs
  let s := { s with refs := followed.2 }
  match followed.1 with
  | .again => .go { s with pc := .follow }
  | .null mask =>
    let f := faultinPage s.foll s.area.vmFlags c.nonblocking (w.guard s.start) w.handled
    let s := { s.count f.counted with
               foll := f.foll, busy := s.busy || f.busy, dropped := s.dropped || f.dropped }
    if f.ret = 0 then .go { s with pc := .retry }
    else if f.ret = -EBUSY then .ret s.pages.length s
    else if f.ret = -ENOENT then nextPage c s none mask
    else .ret (s.orError f.ret) s
  | .error e mask => if e = -EEXIST then nextPage c s none mask else .ret (s.orError e) s
  | .page p mask =>
    nextPage c s (if c.flags.get then some p else none) (if c.flags.get then 0 else mask)

def atRetry (s : Gup) (w : World) : Outcome := if w.fatal then .ret (s.orError (-ERESTARTSYS)) s
    else lookAt c s w

def gatePage (s : Gup) (w : World) : Outcome :=
  match w.gate s.start with
  | none => .ret (s.orError (-EFAULT)) s
  | some none => .ret (s.orError (-EFAULT)) s
  | some (some (a, p)) =>
    if c.flags.write then .ret (s.orError (-EFAULT)) s
    else if c.flags.get then
      nextPage c { s with vma := some a, refs := s.refs.getPage p } (some p) 0
    else nextPage c { s with vma := some a } none 0

def Gup.huge (s : Gup) (w : World) : Gup :=
  let ps := (w.huge s.start).1.take s.nrPages
  { s with
    pc := .top
    start := s.start+ps.length*4096
    nrPages := if (w.huge s.start).2 || ps.isEmpty then 0 else s.nrPages-ps.length
    pages := s.pages ++ ps.map fun p => if c.flags.get then some p else none
    vmas := if c.vmas then s.vmas ++ ps.map fun _ => s.vma else s.vmas
    refs := if c.flags.get then ps.foldl Refs.getPage s.refs else s.refs }

def hugePages (s : Gup) (w : World) : Outcome :=
  let s := s.huge c w
  if s.nrPages = 0 then .ret (s.orError (-EFAULT)) s else .go s

def round (s : Gup) (w : World) : Outcome :=
  match s.pc with
  | .follow => lookAt c s w
  | .retry => atRetry c s w
  | .top =>
    let s := { s with foll := c.flags }
    if s.vma.any fun a => s.start < a.vmEnd then atRetry c s w
    else match w.vma s.start with
      | none => gatePage c { s with vma := none } w
      | some a =>
        let s := { s with vma := some a }
        if checkVmaFlags a.vmFlags ⟨c.flags.populate, c.flags.write, c.flags.force⟩
            w.permitted ≠ 0 then
          .ret (s.orError (-EFAULT)) s
        else if a.vmFlags.has VM_HUGETLB then hugePages c s w
        else atRetry c s w

def rounds : Gup → List World → Option (ℤ × Gup × List World)
  | _, [] => none
  | s, w :: ws =>
    match round c s w with
    | .ret r s => some (r, s, ws)
    | .go s => rounds s ws

def getUserPages (start nrPages : ℕ) (refs : Refs) (ws : List World) :
    Option (ℤ × Gup × List World) :=
  let s : Gup := { start := start, nrPages := nrPages, refs := refs }
  if nrPages = 0 then some (0, s, ws)
  else rounds { c with flags := { c.flags with numa := c.flags.numa || !c.flags.force } } s ws

end PtraceRemote.Pin
