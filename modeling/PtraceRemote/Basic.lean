import Mathlib.Tactic

/-! Error numbers, kernel word arithmetic and page arithmetic. An `unsigned long` is a natural
number below `2^64`; additions and subtractions that can wrap are written with `wadd` and `wsub`. -/
namespace PtraceRemote

abbrev FileId := ℕ

def EPERM : ℤ := 1
def ESRCH : ℤ := 3
def EINTR : ℤ := 4
def EIO : ℤ := 5
def EBADF : ℤ := 9
def EAGAIN : ℤ := 11
def ENOMEM : ℤ := 12
def EACCES : ℤ := 13
def EFAULT : ℤ := 14
def EBUSY : ℤ := 16
def ENODEV : ℤ := 19
def EINVAL : ℤ := 22
def EMFILE : ℤ := 24
def EOVERFLOW : ℤ := 75

-- error numbers are below 4096; a named instance keeps the zero of `Fin 4096` one term
instance errno_neZero : NeZero 4096 := ⟨by decide⟩

def wadd (a b : ℕ) : ℕ := (a+b) % 2^64
def wsub (a b : ℕ) : ℕ := (a+2^64-b) % 2^64

def offsetInPage (a : ℕ) : ℕ := a % 4096
def pageMask (a : ℕ) : ℕ := a/4096*4096
def pageAlign (a : ℕ) : ℕ := pageMask (wadd a 4095)

theorem wadd_eq {a b : ℕ} (h : a+b < 2^64) : wadd a b = a+b := Nat.mod_eq_of_lt h

theorem wsub_eq {a b : ℕ} (hb : b ≤ a) (ha : a < 2^64) : wsub a b = a-b := by
  unfold wsub
  rw [show a+2^64-b = a-b+2^64 by omega, Nat.add_mod_right, Nat.mod_eq_of_lt (by omega)]

theorem wadd_lt (a b : ℕ) : wadd a b < 2^64 := Nat.mod_lt _ (by decide)

theorem wsub_lt (a b : ℕ) : wsub a b < 2^64 := Nat.mod_lt _ (by decide)

theorem pageMask_dvd (a : ℕ) : 4096 ∣ pageMask a := Dvd.intro_left _ rfl

theorem pageAlign_dvd (a : ℕ) : 4096 ∣ pageAlign a := pageMask_dvd _

theorem pageMask_le (a : ℕ) : pageMask a ≤ a := Nat.div_mul_le_self a 4096

theorem pageAlign_lt (a : ℕ) : pageAlign a < 2^64 :=
  lt_of_le_of_lt (pageMask_le _) (wadd_lt _ _)

theorem pageAlign_of_dvd {a : ℕ} (h : 4096 ∣ a) (hl : a < 2^64) : pageAlign a = a := by
  unfold pageAlign pageMask wadd
  omega

end PtraceRemote
