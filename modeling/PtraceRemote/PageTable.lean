import PtraceRemote.Basic

/-! Page tables as `move_page_tables` of mm/mremap.c sees them, and the part of `move_vma` that
moves them. Flushing and locking are left out: the address space is locked, and no entry depends on
a flush. -/
namespace PtraceRemote

def PMD_SIZE : ℕ := 2^21
def LATENCY_LIMIT : ℕ := 64*4096

structure Pte where
  frame : ℕ
  softDirty : Bool := false
  deriving DecidableEq, Repr

def Pte.sub (h : Pte) (i : ℕ) : Pte := { h with frame := h.frame+i }

inductive Pmd where
  | absent
  | table (pte : ℕ → Option Pte)
  | huge (first : Pte)

structure PageTables where
  pmd : ℕ → Pmd
  upper : ℕ → Bool
  bug : Bool := false

namespace PageTables

def look (t : PageTables) (j : ℕ) : Pmd := if t.upper (j/512) then t.pmd j else .absent

def setPmd (t : PageTables) (j : ℕ) (d : Pmd) : PageTables :=
  { t with pmd := Function.update t.pmd j d }

def pte (t : PageTables) (j i : ℕ) : Option Pte :=
  match t.pmd j with
  | .table f => f i
  | _ => none

def setPte (t : PageTables) (j i : ℕ) (e : Option Pte) : PageTables :=
  match t.pmd j with
  | .table f => t.setPmd j (.table (Function.update f i e))
  | _ => { t with bug := true }

/-- A huge page that both ends of the move are aligned for goes to an empty directory entry. -/
def takeHuge (t : PageTables) (oldAddr newAddr : ℕ) (h : Pte) : Bool × PageTables :=
  match t.pmd (newAddr/PMD_SIZE) with
  | .absent =>
    if oldAddr % PMD_SIZE = 0 ∧ newAddr % PMD_SIZE = 0 then
      (true, (t.setPmd (oldAddr/PMD_SIZE) .absent).setPmd (newAddr/PMD_SIZE) (.huge h))
    else (false, t)
  | _ => (false, t)

end PageTables

/-- What the move finds outside of mm/mremap.c. `moveHugePmd` and `split` are the functions for huge
pages of mm/huge_memory.c. -/
structure PtEnv where
  memSoftDirty : Bool := true
  moveHugePmd : PageTables → ℕ → ℕ → Pte → Bool × PageTables := PageTables.takeHuge
  split : Pte → Pmd := fun h => .table fun i => some (h.sub i)
  allocUpper : ℕ → Bool := fun _ => true
  allocTable : ℕ → Bool := fun _ => true

variable (env : PtEnv)

def getOldPmd (t : PageTables) (addr : ℕ) : Pmd := t.look (addr/PMD_SIZE)

def allocNewPmd (t : PageTables) (addr : ℕ) : Bool × PageTables :=
  let j := addr/PMD_SIZE
  if t.upper (j/512) then
    match t.pmd j with
    | .huge _ => (true, { t with bug := true })
    | _ => (true, t)
  else if env.allocUpper (j/512) then
    (true, { t with
      upper := Function.update t.upper (j/512) true
      pmd := fun i => if i/512 = j/512 then .absent else t.pmd i })
  else (false, t)

def pteAlloc (t : PageTables) (addr : ℕ) : Bool × PageTables :=
  let j := addr/PMD_SIZE
  match t.pmd j with
  | .absent => if env.allocTable j then (true, t.setPmd j (.table fun _ => none)) else (false, t)
  | _ => (true, t)

def moveSoftDirtyPte (e : Pte) : Pte := if env.memSoftDirty then { e with softDirty := true } else e

def movePte (t : PageTables) (j i j' i' : ℕ) : PageTables :=
  match t.pte j i with
  | none => t
  | some e => (t.setPte j i none).setPte j' i' (some (moveSoftDirtyPte env e))

def movePtes (j j' : ℕ) : ℕ → PageTables → ℕ → ℕ → PageTables
  | 0, t, _, _ => t
  | n+1, t, i, i' => movePtes j j' n (movePte env t j i j' i') (i+1) (i'+1)

def pmdTransUnstable : Pmd → Bool
  | .table _ => false
  | _ => true

def clearHuge (t : PageTables) (oldAddr newAddr extent : ℕ) : Bool × PageTables :=
  let j := oldAddr/PMD_SIZE
  match t.pmd j with
  | .huge h =>
    let move := if extent = PMD_SIZE then env.moveHugePmd t oldAddr newAddr h else (false, t)
    if move.1 then move
    else
      let t := move.2.setPmd j (env.split h)
      (pmdTransUnstable (t.pmd j), t)
  | _ => (false, t)

def toNextPmd (addr : ℕ) : ℕ := wsub (wadd addr PMD_SIZE/PMD_SIZE*PMD_SIZE) addr

structure PteCall where
  oldAddr : ℕ
  newAddr : ℕ
  extent : ℕ
  deriving DecidableEq, Repr

def moveExtent (t : PageTables) (oldAddr newAddr extent : ℕ) :
    Option ℕ × PageTables × List PteCall :=
  let new := allocNewPmd env t newAddr
  if new.1 = false then (none, new.2, [])
  else
    let huge := clearHuge env new.2 oldAddr newAddr extent
    if huge.1 then (some extent, huge.2, [])
    else
      let table := pteAlloc env huge.2 newAddr
      if table.1 = false then (none, table.2, [])
      else
        let extent := min (min extent (toNextPmd newAddr)) LATENCY_LIMIT
        (some extent, movePtes env (oldAddr/PMD_SIZE) (newAddr/PMD_SIZE) (extent/4096) table.2
          (oldAddr/4096 % 512) (newAddr/4096 % 512), [⟨oldAddr, newAddr, extent⟩])

def moveRound (t : PageTables) (oldAddr newAddr extent : ℕ) :
    Option ℕ × PageTables × List PteCall :=
  match getOldPmd t oldAddr with
  | .absent => (some extent, t, [])
  | _ => moveExtent env t oldAddr newAddr extent

def movePageTablesLoop (oldEnd : ℕ) :
    ℕ → PageTables → ℕ → ℕ → Option (ℕ × PageTables × List PteCall)
  | 0, _, _, _ => none
  | fuel+1, t, oldAddr, newAddr =>
    if oldAddr < oldEnd then
      let round := moveRound env t oldAddr newAddr (min (toNextPmd oldAddr) (oldEnd-oldAddr))
      match round.1 with
      | none => some (oldAddr, round.2)
      | some extent =>
        (movePageTablesLoop oldEnd fuel round.2.1 (oldAddr+extent) (newAddr+extent)).map fun r =>
          (r.1, r.2.1, round.2.2 ++ r.2.2)
    else some (oldAddr, t, [])

def movePageTables (fuel : ℕ) (t : PageTables) (oldAddr newAddr len : ℕ) :
    Option (ℕ × PageTables × List PteCall) :=
  (movePageTablesLoop env (oldAddr+len) fuel t oldAddr newAddr).map fun r =>
    (len+r.1-(oldAddr+len), r.2)

def moveVmaTables (back : PtEnv) (fuel : ℕ) (t : PageTables) (oldAddr newAddr oldLen : ℕ)
    (mremapErr : Fin 4096) :
    Option (ℤ × PageTables) :=
  match movePageTables env fuel t oldAddr newAddr oldLen with
  | none => none
  | some (movedLen, t', _) =>
    let err : ℤ := if movedLen < oldLen then -ENOMEM else -(mremapErr.val : ℤ)
    if err ≠ 0 then (movePageTables back fuel t' newAddr oldAddr movedLen).map fun r => (err, r.2.1)
    else some (0, t')

end PtraceRemote
