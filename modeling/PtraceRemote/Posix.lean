import Mathlib.Tactic

/-! Descriptors as POSIX has them: a process has a table that says of every number which file it
refers to, if any, and whether `exec` closes it. A call takes a descriptor of one process to a
number of another; within one process these are `dup` and `dup2`. -/
namespace Posix

variable {ι α : Type} [DecidableEq ι]

structure Desc (α : Type) where
  file : α
  cloexec : Bool
  deriving DecidableEq

abbrev Table (α : Type) := ℕ → Option (Desc α)

abbrev Tables (ι α : Type) := ι → Table α

def put (s : Tables ι α) (p : ι) (fd : ℕ) (d : Option (Desc α)) : Tables ι α :=
  Function.update s p (Function.update (s p) fd d)

def Lowest (t : Table α) (start fd : ℕ) : Prop :=
  start ≤ fd ∧ t fd = none ∧ ∀ k, start ≤ k → k < fd → t k ≠ none

inductive Errno where
  | badf | mfile | nomem
  deriving DecidableEq

inductive Result where
  | fd (n : ℕ)
  | done (v : ℤ)
  | error (e : Errno)

inductive Call (ι : Type) where
  | dup (src dst : ι) (fd start : ℕ) (cloexec : Bool)
  | dup2 (src dst : ι) (old new : ℕ) (cloexec : Bool)
  | dup2Same (p : ι) (fd : ℕ)
  | close (p : ι) (fd : ℕ)
  | fork (p q : ι)
  | exec (p : ι)

inductive Step (lim top : ℕ) (s : Tables ι α) : Call ι → Result → Tables ι α → Prop
  | dup {src dst : ι} {fd start n : ℕ} {cloexec : Bool} {d : Desc α} (hd : s src fd = some d)
      (hn : Lowest (s dst) start n) (hlim : n < lim) :
      Step lim top s (.dup src dst fd start cloexec) (.fd n) (put s dst n (some ⟨d.file, cloexec⟩))
  | dup_badf {src dst : ι} {fd start : ℕ} {cloexec : Bool} (hd : s src fd = none) :
      Step lim top s (.dup src dst fd start cloexec) (.error .badf) s
  | dup_mfile {src dst : ι} {fd start n : ℕ} {cloexec : Bool} (hn : Lowest (s dst) start n)
      (hlim : lim ≤ n ∨ top ≤ n) : Step lim top s (.dup src dst fd start cloexec) (.error .mfile) s
  | dup_nomem {src dst : ι} {fd start : ℕ} {cloexec : Bool} :
      Step lim top s (.dup src dst fd start cloexec) (.error .nomem) s
  | dup2 {src dst : ι} {old new : ℕ} {cloexec : Bool} {d : Desc α} (hd : s src old = some d)
      (hlim : new < lim) :
      Step lim top s (.dup2 src dst old new cloexec) (.fd new)
        (put s dst new (some ⟨d.file, cloexec⟩))
  | dup2_badf {src dst : ι} {old new : ℕ} {cloexec : Bool}
      (h : s src old = none ∨ lim ≤ new ∨ top ≤ new) :
      Step lim top s (.dup2 src dst old new cloexec) (.error .badf) s
  | dup2_nomem {src dst : ι} {old new : ℕ} {cloexec : Bool} :
      Step lim top s (.dup2 src dst old new cloexec) (.error .nomem) s
  | dup2Same {p : ι} {fd : ℕ} (hd : s p fd ≠ none) : Step lim top s (.dup2Same p fd) (.fd fd) s
  | dup2Same_badf {p : ι} {fd : ℕ} (hd : s p fd = none) :
      Step lim top s (.dup2Same p fd) (.error .badf) s
  | close {p : ι} {fd : ℕ} {v : ℤ} (hd : s p fd ≠ none) :
      Step lim top s (.close p fd) (.done v) (put s p fd none)
  | close_badf {p : ι} {fd : ℕ} (hd : s p fd = none) : Step lim top s (.close p fd) (.error .badf) s
  | fork {p q : ι} : Step lim top s (.fork p q) (.done 0) (Function.update s q (s p))
  | fork_fails {p q : ι} {e : Errno} (he : e ≠ .badf) : Step lim top s (.fork p q) (.error e) s
  | exec {p : ι} : Step lim top s (.exec p) (.done 0)
      (Function.update s p fun fd => (s p fd).filter fun d => !d.cloexec)

end Posix
