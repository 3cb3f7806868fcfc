import PtraceRemote.Basic
import PtraceRemote.Bitmap

/-! The descriptor tables of `fs/file.c`. Slots and bitmaps are total functions: what they hold at
or past `maxFds` is whatever the allocator left there. -/
namespace PtraceRemote
open Bitmap

def bitsPerLong : ℕ := 64
def nrOpenDefault : ℕ := 64
def oCloexec : ℕ := 0o2000000
def fmodePath : ℕ := 0x4000

structure Fdtable where
  maxFds : ℕ
  fd : ℕ → Option FileId
  closeOnExec : ℕ → Bool
  openFds : ℕ → Bool
  fullFdsBits : ℕ → Bool

structure FilesStruct where
  fdt : Fdtable
  nextFd : ℕ

/-- The contents of freshly allocated table memory, before anything is written to it. -/
structure RawMem where
  fd : ℕ → Option FileId
  closeOnExec : ℕ → Bool
  openFds : ℕ → Bool
  fullFdsBits : ℕ → Bool

def bitsToLongs (nr : ℕ) : ℕ := (nr+63)/64
def bitbitNr (nr : ℕ) : ℕ := bitsToLongs (bitsToLongs nr)
def bitbitSize (nr : ℕ) : ℕ := bitbitNr nr*8

def sub32 (a b : ℕ) : ℕ := (a+2^32-b) % 2^32

structure CopyBytes where
  cpy : ℕ
  set : ℕ

def fdBitsBytes (maxFds count : ℕ) : CopyBytes := ⟨count/8, sub32 maxFds count/8⟩

def fullBitsBytes (maxFds count : ℕ) : CopyBytes :=
  let cpy := bitbitSize count % 2^32
  ⟨cpy, sub32 (bitbitSize maxFds) cpy⟩

def copyFdBitmaps (nfdt ofdt : Fdtable) (count : ℕ) : Fdtable :=
  let bits := fdBitsBytes nfdt.maxFds count
  let full := fullBitsBytes nfdt.maxFds count
  { nfdt with
    openFds := copyClear nfdt.openFds ofdt.openFds false (8*bits.cpy) (8*bits.set)
    closeOnExec := copyClear nfdt.closeOnExec ofdt.closeOnExec false (8*bits.cpy) (8*bits.set)
    fullFdsBits := copyClear nfdt.fullFdsBits ofdt.fullFdsBits false (8*full.cpy) (8*full.set) }

def copyFdtable (nfdt ofdt : Fdtable) : Fdtable :=
  let cpy := ofdt.maxFds*8 % 2^32
  let set := sub32 nfdt.maxFds ofdt.maxFds*8 % 2^32
  copyFdBitmaps { nfdt with fd := copyClear nfdt.fd ofdt.fd none (cpy/8) (set/8) } ofdt ofdt.maxFds

def fls (n : ℕ) : ℕ := if n = 0 then 0 else Nat.log2 n+1

def roundupPowOfTwo (n : ℕ) : ℕ := 2^fls (n-1)

def fdtableSize (nrOpen nr : ℕ) : ℕ :=
  let nr := nr/128
  let nr := roundupPowOfTwo ((nr+1) % 2^32) % 2^32
  let nr := nr*128 % 2^32
  if nr > nrOpen then ((sub32 nrOpen 1 ||| 63)+1) % 2^32 else nr

def RawMem.table (m : RawMem) (maxFds : ℕ) : Fdtable :=
  ⟨maxFds, m.fd, m.closeOnExec, m.openFds, m.fullFdsBits⟩

def allocFdtable (nrOpen : ℕ) (mem : Option RawMem) (nr : ℕ) : Option Fdtable :=
  mem.map fun m => m.table (fdtableSize nrOpen nr)

def expandFdtable (nrOpen : ℕ) (mem : Option RawMem) (files : FilesStruct) (nr : ℕ) :
    ℤ × FilesStruct :=
  match allocFdtable nrOpen mem nr with
  | none => (-ENOMEM, files)
  | some newFdt =>
    if newFdt.maxFds ≤ nr then (-EMFILE, files)
    else (1, { files with fdt := copyFdtable newFdt files.fdt })

def expandFiles (nrOpen : ℕ) (mem : Option RawMem) (files : FilesStruct) (nr : ℕ) :
    ℤ × FilesStruct :=
  if nr < files.fdt.maxFds then (0, files)
  else if nr ≥ nrOpen then (-EMFILE, files)
  else expandFdtable nrOpen mem files nr

def setCloseOnExec (fd : ℕ) (fdt : Fdtable) : Fdtable :=
  { fdt with closeOnExec := Function.update fdt.closeOnExec fd true }

def clearCloseOnExec (fd : ℕ) (fdt : Fdtable) : Fdtable :=
  if fdt.closeOnExec fd then { fdt with closeOnExec := Function.update fdt.closeOnExec fd false }
  else fdt

def setOpenFd (fd : ℕ) (fdt : Fdtable) : Fdtable :=
  let fdt := { fdt with openFds := Function.update fdt.openFds fd true }
  if wordFull fdt.openFds (fd/64) then
    { fdt with fullFdsBits := Function.update fdt.fullFdsBits (fd/64) true }
  else fdt

def clearOpenFd (fd : ℕ) (fdt : Fdtable) : Fdtable :=
  { fdt with
    openFds := Function.update fdt.openFds fd false
    fullFdsBits := Function.update fdt.fullFdsBits (fd/64) false }

def markCloexec (flags fd : ℕ) (fdt : Fdtable) : Fdtable :=
  if flags &&& oCloexec ≠ 0 then setCloseOnExec fd fdt else clearCloseOnExec fd fdt

def lastOpenWord (fdt : Fdtable) : ℕ → ℕ
  | 0 => 0
  | i+1 => if wordZero fdt.openFds i then lastOpenWord fdt i else i

def countOpenFiles (fdt : Fdtable) : ℕ := (lastOpenWord fdt (fdt.maxFds/64)+1)*64

def dupSlot (oldFdt : Fdtable) (acc : Fdtable × List FileId) (i : ℕ) : Fdtable × List FileId :=
  match oldFdt.fd i with
  | some f => ({ acc.1 with fd := Function.update acc.1.fd i (some f) }, acc.2 ++ [f])
  | none =>
    let t := clearOpenFd i acc.1
    ({ t with fd := Function.update t.fd i none }, acc.2)

def dupFill (oldf : FilesStruct) (newFdt : Fdtable) : FilesStruct × List FileId :=
  let openFiles := countOpenFiles oldf.fdt
  let newFdt := copyFdBitmaps newFdt oldf.fdt openFiles
  let r := (List.range openFiles).foldl (dupSlot oldf.fdt) (newFdt, [])
  let rest := newFdt.maxFds-openFiles
  (⟨{ r.1 with fd := copyClear r.1.fd r.1.fd none openFiles rest }, 0⟩, r.2)

def dupFd (nrOpen : ℕ) (newf mem : Option RawMem) (oldf : FilesStruct) :
    Except ℤ (FilesStruct × List FileId) :=
  match newf with
  | none => .error (-ENOMEM)
  | some m =>
    let openFiles := countOpenFiles oldf.fdt
    if openFiles > nrOpenDefault then
      match allocFdtable nrOpen mem (openFiles-1) with
      | none => .error (-ENOMEM)
      | some newFdt =>
        if newFdt.maxFds < openFiles then .error (-EMFILE) else .ok (dupFill oldf newFdt)
    else .ok (dupFill oldf (m.table nrOpenDefault))

def findNextFd (fdt : Fdtable) (start : ℕ) : ℕ :=
  let maxfd := fdt.maxFds
  let maxbit := maxfd/64
  let bitbit := findNextZeroBit fdt.fullFdsBits maxbit (start/64)*64
  if bitbit > maxfd then maxfd
  else findNextZeroBit fdt.openFds maxfd (if bitbit > start then bitbit else start)

def candidateFd (files : FilesStruct) (start : ℕ) : ℕ :=
  let fd := if start < files.nextFd then files.nextFd else start
  if fd < files.fdt.maxFds then findNextFd files.fdt fd else fd

def takeFd (files : FilesStruct) (start flags fd : ℕ) : FilesStruct :=
  let fdt := markCloexec flags fd (setOpenFd fd files.fdt)
  { fdt := if fdt.fd fd ≠ none then { fdt with fd := Function.update fdt.fd fd none } else fdt
    nextFd := if start ≤ files.nextFd then fd+1 else files.nextFd }

def allocFd (nrOpen start endFd flags : ℕ) : List (Option RawMem) → FilesStruct → ℤ × FilesStruct
  | mems, files =>
    let fd := candidateFd files start
    if fd ≥ endFd then (-EMFILE, files)
    else if fd < files.fdt.maxFds then (fd, takeFd files start flags fd)
    else match mems with
      | [] => if fd ≥ nrOpen then (-EMFILE, files) else (-ENOMEM, files)
      | mem :: mems =>
        let r := expandFiles nrOpen mem files fd
        if r.1 < 0 then r else allocFd nrOpen start endFd flags mems r.2

def putUnusedFd (files : FilesStruct) (fd : ℕ) : FilesStruct :=
  { fdt := clearOpenFd fd files.fdt
    nextFd := if fd < files.nextFd then fd else files.nextFd }

def fdInstall (files : FilesStruct) (fd : ℕ) (file : FileId) : Option FilesStruct :=
  if files.fdt.fd fd ≠ none then none
  else some
    { files with fdt := { files.fdt with fd := Function.update files.fdt.fd fd (some file) } }

def closeFd (files : FilesStruct) (fd : ℕ) : Option FileId × FilesStruct :=
  if fd ≥ files.fdt.maxFds then (none, files)
  else match files.fdt.fd fd with
    | none => (none, files)
    | some file =>
      let fdt := { files.fdt with fd := Function.update files.fdt.fd fd none }
      (some file, putUnusedFd { files with fdt := clearCloseOnExec fd fdt } fd)

def cloexecBit (set : ℕ → Bool) (acc : FilesStruct × List FileId) (fd : ℕ) :
    FilesStruct × List FileId :=
  if set fd then
    match acc.1.fdt.fd fd with
    | none => acc
    | some file =>
      let fdt := { acc.1.fdt with fd := Function.update acc.1.fdt.fd fd none }
      (putUnusedFd { acc.1 with fdt := fdt } fd, acc.2 ++ [file])
  else acc

def cloexecWord (acc : FilesStruct × List FileId) (i : ℕ) : FilesStruct × List FileId :=
  let set := acc.1.fdt.closeOnExec
  if wordZero set i then acc
  else
    let fdt := { acc.1.fdt with closeOnExec := fun k => if k/64 = i then false else set k }
    ((List.range 64).map (64*i+·)).foldl (cloexecBit set) ({ acc.1 with fdt := fdt }, acc.2)

def doCloseOnExec (files : FilesStruct) : FilesStruct × List FileId :=
  (List.range (files.fdt.maxFds/64)).foldl cloexecWord (files, [])

def doDup2 (files : FilesStruct) (file : FileId) (fd flags : ℕ) :
    ℤ × FilesStruct × Option FileId :=
  let tofree := files.fdt.fd fd
  if tofree = none ∧ files.fdt.openFds fd = true then (-EBUSY, files, none)
  else
    let fdt := { files.fdt with fd := Function.update files.fdt.fd fd (some file) }
    (fd, { files with fdt := markCloexec flags fd (setOpenFd fd fdt) }, tofree)

def fcheckFiles (files : FilesStruct) (fd : ℕ) : Option FileId :=
  if fd < files.fdt.maxFds then files.fdt.fd fd else none

def fgetFiles (fMode : FileId → ℕ) (files : FilesStruct) (fd mask : ℕ) : Option FileId :=
  (fcheckFiles files fd).filter fun f => fMode f &&& mask = 0

end PtraceRemote
