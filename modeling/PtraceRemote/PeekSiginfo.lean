import PtraceRemote.Basic
import Mathlib.Tactic

/-! `PTRACE_PEEKSIGINFO`: a window of the queue of pending signals. The position is a 64-bit number
that the code narrows to a signed 32-bit counter, counts down along the queue and then reads the
sign of. -/
namespace PtraceRemote

abbrev SigqueueId := ℕ

/-- `struct ptrace_peeksiginfo_args`; `nr` is signed. -/
structure PeekSiginfoArgs where
  off : BitVec 64
  flags : BitVec 32
  nr : BitVec 32

def PTRACE_PEEKSIGINFO_SHARED : BitVec 32 := 1

def siginfoSize : BitVec 64 := 128

/-- The two queues of the tracee; can the copy to the `i`th slot be made, and is a signal for the
caller pending behind it? -/
structure PeekEnv where
  pending : List SigqueueId
  sharedPending : List SigqueueId
  copyOk : ℕ → Bool := fun _ => true
  signalPending : ℕ → Bool := fun _ => false

abbrev SiginfoCopy := BitVec 64 × Option SigqueueId

def walkQueue : List SigqueueId → BitVec 32 → BitVec 32 × Option SigqueueId
  | [], off => (off, none)
  | q :: queue, off => if off = 0 then (off-1, some q) else walkQueue queue (off-1)

def peekLoop (env : PeekEnv) (queue : List SigqueueId) (off : BitVec 64) :
    ℕ → ℕ → BitVec 64 → ℕ × ℤ × List SiginfoCopy
  | 0, i, _ => (i, 0, [])
  | left+1, i, data =>
    let walk := walkQueue queue ((off+BitVec.ofNat 64 i).setWidth 32)
    if 0 ≤ walk.1.toInt then (i, 0, [])
    else if env.copyOk i = false then (i, -EFAULT, [])
    else if env.signalPending i then (i+1, 0, [(data, walk.2)])
    else
      let r := peekLoop env queue off left (i+1) (data+siginfoSize)
      (r.1, r.2.1, (data, walk.2) :: r.2.2)

def peekQueue (env : PeekEnv) (flags : BitVec 32) : List SigqueueId :=
  if flags &&& PTRACE_PEEKSIGINFO_SHARED ≠ 0 then env.sharedPending else env.pending

def ptracePeekSiginfo (env : PeekEnv) (arg : Option PeekSiginfoArgs) (data : BitVec 64) :
    ℤ × List SiginfoCopy :=
  match arg with
  | none => (-EFAULT, [])
  | some arg =>
    if arg.flags &&& ~~~PTRACE_PEEKSIGINFO_SHARED ≠ 0 then (-EINVAL, [])
    else if arg.nr.toInt < 0 then (-EINVAL, [])
    else
      let r := peekLoop env (peekQueue env arg.flags) arg.off arg.nr.toNat 0 data
      (if 0 < r.1 then (r.1 : ℤ) else r.2.1, r.2.2)

/-! What is asked for. -/

def slotsFrom : BitVec 64 → List SigqueueId → List SiginfoCopy
  | _, [] => []
  | data, q :: l => (data, some q) :: slotsFrom (data+siginfoSize) l

def window (queue : List SigqueueId) (off nr : ℕ) : List SigqueueId := (queue.drop off).take nr

/-- The counter tells the positions that the loop reaches apart: inside the queue they are below
`2^32`, and one behind its end is, as a counter, at most `2^31` behind it. -/
def OffsetFits (k off nr : ℕ) : Prop :=
  nr = 0 ∨ (off < k ∧ (off+nr ≤ 2^32 ∨ k < 2^32)) ∨ (k ≤ off ∧ k ≤ off % 2^32 ∧ off % 2^32 < k+2^31)

variable {env : PeekEnv} {queue : List SigqueueId} {off data : BitVec 64} {left i p k nr : ℕ}

/-- The walk stops at the entry with the number of the counter, or has subtracted the length. -/
theorem walkQueue_eq (queue : List SigqueueId) (o : BitVec 32) :
    walkQueue queue o = if o.toNat < queue.length then (-1, queue[o.toNat]?)
      else (o-BitVec.ofNat 32 queue.length, none) := by
  induction queue generalizing o with
  | nil => simp [walkQueue]
  | cons q queue ih =>
    unfold walkQueue
    by_cases hz : o = 0
    · subst hz
      rw [if_pos rfl, if_pos (by simp)]
      rfl
    · have hne : o.toNat ≠ 0 := fun h => hz (BitVec.eq_of_toNat_eq h)
      have hsub : (o-1).toNat = o.toNat-1 := by bv_omega
      rw [if_neg hz, ih, hsub, List.length_cons]
      -- the counter runs out in the rest, or the rest is too short for it
      by_cases hlt : o.toNat-1 < queue.length
      · rw [if_pos hlt, if_pos (by omega)]
        obtain ⟨m, hm⟩ := Nat.exists_eq_succ_of_ne_zero hne
        rw [hm]
        rfl
      · rw [if_neg hlt, if_neg (by omega)]
        congr 1
        apply BitVec.eq_of_toNat_eq
        rw [BitVec.toNat_sub (o-1), hsub, BitVec.toNat_sub o, BitVec.toNat_ofNat,
          BitVec.toNat_ofNat]
        omega

theorem toInt_neg_one : ¬0 ≤ (-1 : BitVec 32).toInt := by decide

/-- What a round does at the position `p`: as a counter it is `p % 2^32`. -/
theorem walkQueue_round (queue : List SigqueueId) (hp : off.toNat+i = p) :
    let walk := walkQueue queue ((off+BitVec.ofNat 64 i).setWidth 32)
    (p % 2^32 < queue.length → ¬0 ≤ walk.1.toInt ∧ walk.2 = queue[p % 2^32]?) ∧
    (queue.length ≤ p % 2^32 → p % 2^32 < queue.length+2^31 → 0 ≤ walk.1.toInt) ∧
    (queue.length+2^31 ≤ p % 2^32 → ¬0 ≤ walk.1.toInt) := by
  have ho : ((off+BitVec.ofNat 64 i).setWidth 32).toNat = p % 2^32 := by
    rw [BitVec.toNat_setWidth, BitVec.toNat_add, BitVec.toNat_ofNat]
    omega
  dsimp only
  rw [walkQueue_eq, ho]
  refine ⟨fun hlt => ?_, fun hge hlt => ?_, fun hge => ?_⟩
  · rw [if_pos hlt]
    exact ⟨toInt_neg_one, rfl⟩
  · rw [if_neg (by omega), BitVec.toInt_eq_toNat_cond, BitVec.toNat_sub, BitVec.toNat_ofNat, ho]
    split <;> omega
  · rw [if_neg (by omega), BitVec.toInt_eq_toNat_cond, BitVec.toNat_sub, BitVec.toNat_ofNat, ho]
    split <;> omega

def RoundFits (k p : ℕ) : Prop := (p < k → p < 2^32) ∧ (k ≤ p → k ≤ p % 2^32 ∧ p % 2^32 < k+2^31)

def RoundsFit (k : ℕ) : ℕ → ℕ → Prop
  | 0, _ => True
  | left+1, p => RoundFits k p ∧ (p < k → RoundsFit k left (p+1))

theorem roundsFit_iff (hoff : 0 < nr) : RoundsFit k nr p ↔
    (p < k ∧ (p+nr ≤ 2^32 ∨ k < 2^32)) ∨ (k ≤ p ∧ k ≤ p % 2^32 ∧ p % 2^32 < k+2^31) := by
  induction nr generalizing p with
  | zero => exact absurd hoff (lt_irrefl 0)
  | succ nr ih =>
    unfold RoundsFit RoundFits
    by_cases hp : p < k
    · rcases Nat.eq_zero_or_pos nr with rfl | hpos
      · simp only [RoundsFit, implies_true, and_true]
        omega
      · rw [ih hpos]
        omega
    · omega

theorem offsetFits_iff : OffsetFits k p nr ↔ RoundsFit k nr p := by
  rcases Nat.eq_zero_or_pos nr with rfl | hpos
  · exact iff_of_true (.inl rfl) trivial
  · rw [roundsFit_iff hpos, OffsetFits]
    omega

theorem window_succ (hp : p < queue.length) :
    window queue p (left+1) = queue[p] :: window queue (p+1) left := by
  rw [window, List.drop_eq_getElem_cons hp, List.take_succ_cons]
  rfl

theorem window_nil (hp : queue.length ≤ p) : window queue p left = [] := by
  rw [window, List.drop_eq_nil_of_le hp, List.take_nil]

theorem length_slotsFrom (data : BitVec 64) (l : List SigqueueId) :
    (slotsFrom data l).length = l.length := by
  induction l generalizing data with
  | nil => rfl
  | cons q l ih => exact congrArg (·+1) (ih _)

section Quiet
variable (hcopy : ∀ i, env.copyOk i = true) (hsignal : ∀ i, env.signalPending i = false)
include hcopy hsignal

/-- Without a fault and a signal a round ends the loop or makes a copy and goes on. -/
theorem peekLoop_succ :
    let walk := walkQueue queue ((off+BitVec.ofNat 64 i).setWidth 32)
    peekLoop env queue off (left+1) i data = if 0 ≤ walk.1.toInt then (i, 0, [])
      else ((peekLoop env queue off left (i+1) (data+siginfoSize)).1,
        (peekLoop env queue off left (i+1) (data+siginfoSize)).2.1,
        (data, walk.2) :: (peekLoop env queue off left (i+1) (data+siginfoSize)).2.2) := by
  dsimp only
  rw [peekLoop]
  dsimp only
  rw [if_neg (by simp [hcopy i] : ¬env.copyOk i = false),
    if_neg (by simp [hsignal i] : ¬env.signalPending i = true)]

/-- The loop counts its copies. -/
theorem peekLoop_count (queue : List SigqueueId) (off : BitVec 64) (left i : ℕ) (data : BitVec 64) :
    (peekLoop env queue off left i data).1 = i+(peekLoop env queue off left i data).2.2.length ∧
      (peekLoop env queue off left i data).2.1 = 0 := by
  induction left generalizing i data with
  | zero => exact ⟨rfl, rfl⟩
  | succ left ih =>
    rw [peekLoop_succ hcopy hsignal]
    split
    · exact ⟨rfl, rfl⟩
    · obtain ⟨hcount, hret⟩ := ih (i+1) (data+siginfoSize)
      refine ⟨?_, hret⟩
      rw [hcount, List.length_cons]
      omega

/-- The copies are the window exactly if every round fits. -/
theorem peekLoop_iff (hnodup : queue.Nodup) (off : BitVec 64) (left i : ℕ) (data : BitVec 64) :
    (peekLoop env queue off left i data).2.2 = slotsFrom data (window queue (off.toNat+i) left) ↔
      RoundsFit queue.length left (off.toNat+i) := by
  induction left generalizing i data with
  | zero => exact iff_of_true (by rw [window, List.take_zero]; rfl) trivial
  | succ left ih =>
    set p := off.toNat+i with hp
    obtain ⟨hfound, hstop, hunfilled⟩ := walkQueue_round queue hp.symm
    rw [peekLoop_succ hcopy hsignal, RoundsFit]
    have hle : p % 2^32 ≤ p := Nat.mod_le _ _
    by_cases hin : p < queue.length
    · obtain ⟨hneg, hentry⟩ := hfound (by omega)
      have hsame : queue[p % 2^32]? = some queue[p] ↔ p < 2^32 := by
        rw [List.getElem?_eq_getElem (by omega), Option.some_inj, hnodup.getElem_inj_iff]
        omega
      rw [if_neg hneg, window_succ hin, slotsFrom, List.cons.injEq, Prod.mk.injEq, hentry, hsame]
      have hnext := ih (i+1) (data+siginfoSize)
      rw [show off.toNat+(i+1) = p+1 by omega] at hnext
      rw [hnext, RoundFits]
      constructor
      · rintro ⟨⟨-, hlt⟩, hrest⟩
        exact ⟨⟨fun _ => hlt, fun hge => by omega⟩, fun _ => hrest⟩
      · rintro ⟨hfits, hrest⟩
        exact ⟨⟨rfl, hfits.1 hin⟩, hrest hin⟩
    · rw [window_nil (not_lt.1 hin), slotsFrom]
      have hfits :
          (RoundFits queue.length p ∧ (p < queue.length → RoundsFit queue.length left (p+1))) ↔
            queue.length ≤ p % 2^32 ∧ p % 2^32 < queue.length+2^31 := by
        unfold RoundFits
        exact ⟨fun h => h.1.2 (not_lt.1 hin),
          fun h => ⟨⟨fun hc => absurd hc hin, fun _ => h⟩, fun hc => absurd hc hin⟩⟩
      rw [hfits]
      -- behind the end, anything that is copied is too much
      by_cases hlow : p % 2^32 < queue.length
      · rw [if_neg (hfound hlow).1]
        exact iff_of_false (by simp) (by omega)
      by_cases hhigh : p % 2^32 < queue.length+2^31
      · rw [if_pos (hstop (not_lt.1 hlow) hhigh)]
        exact iff_of_true rfl ⟨not_lt.1 hlow, hhigh⟩
      · rw [if_neg (hunfilled (not_lt.1 hhigh))]
        exact iff_of_false (by simp) (by omega)

end Quiet

/-- With valid flags and `nr`, all copies succeeding and no signal, `PTRACE_PEEKSIGINFO` returns the
window of the queue and its length exactly if the counter can tell the positions apart. -/
theorem peekSiginfo_window_iff (env : PeekEnv) (arg : PeekSiginfoArgs) (data : BitVec 64)
    (hflags : arg.flags &&& ~~~PTRACE_PEEKSIGINFO_SHARED = 0) (hnr : 0 ≤ arg.nr.toInt)
    (hcopy : ∀ i, env.copyOk i = true) (hsignal : ∀ i, env.signalPending i = false)
    (hnodup : (peekQueue env arg.flags).Nodup) :
    let queue := peekQueue env arg.flags
    let entries := window queue arg.off.toNat arg.nr.toNat
    ptracePeekSiginfo env (some arg) data = ((entries.length : ℤ), slotsFrom data entries) ↔
      OffsetFits queue.length arg.off.toNat arg.nr.toNat := by
  intro queue entries
  have hloop := peekLoop_iff hcopy hsignal hnodup arg.off arg.nr.toNat 0 data
  obtain ⟨hcount, hret⟩ := peekLoop_count hcopy hsignal queue arg.off arg.nr.toNat 0 data
  rw [Nat.add_zero, ← offsetFits_iff] at hloop
  rw [← hloop]
  unfold ptracePeekSiginfo
  dsimp only
  rw [if_neg (not_not.2 hflags), if_neg (not_lt.2 hnr), hret, hcount, Nat.zero_add]
  constructor
  · intro h
    exact congrArg Prod.snd h
  · intro h
    -- the number of entries follows from what has been copied
    have hlen : (peekLoop env queue arg.off arg.nr.toNat 0 data).2.2.length = entries.length :=
      (congrArg List.length h).trans (length_slotsFrom data entries)
    refine Prod.ext ?_ h
    dsimp only
    split <;> omega

/-- Two entries of three exist behind the first. -/
theorem peekSiginfo_window_three :
    let env : PeekEnv := { pending := [5, 6, 7], sharedPending := [] }
    ptracePeekSiginfo env (some ⟨1, 0, 5⟩) 0x1000 = (2, [(0x1000, some 6), (0x1080, some 7)]) := by
  intro env
  exact (peekSiginfo_window_iff env ⟨1, 0, 5⟩ 0x1000 (by decide) (by decide) (fun _ => rfl)
    (fun _ => rfl) (by decide)).2 (.inr (.inl (by decide)))

/-- An offset of `2^31` in an empty queue: the counter is negative from the start, and a `siginfo`
that nothing was written to goes to the user. With `2^32` the counter starts again at the first
entry. -/
theorem peekSiginfo_unfilled :
    let env : PeekEnv := { pending := [], sharedPending := [5] }
    ptracePeekSiginfo env (some ⟨0x80000000, 0, 1⟩) 0x1000 = (1, [(0x1000, none)]) ∧
      window env.pending 0x80000000 1 = [] ∧
      ptracePeekSiginfo env (some ⟨0x100000000, PTRACE_PEEKSIGINFO_SHARED, 1⟩) 0x1000 =
        (1, [(0x1000, some 5)]) ∧
      window env.sharedPending 0x100000000 1 = [] := by
  decide

end PtraceRemote
