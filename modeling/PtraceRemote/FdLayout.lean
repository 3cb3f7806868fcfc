import PtraceRemote.FdGrow

/-! The memory behind a descriptor table: the capacity that `alloc_fdtable` chooses for every value
that `sysctl_nr_open` may have, the three bitmaps that it cuts out of one allocation, and the bytes
of them that `copy_fd_bitmaps` writes. -/
namespace PtraceRemote

open Bitmap (copyClear_congr)

structure Span where
  off : ℕ
  len : ℕ

def Span.Mem (a : Span) (b : ℕ) : Prop := a.off ≤ b ∧ b < a.off+a.len

instance (a : Span) (b : ℕ) : Decidable (a.Mem b) := inferInstanceAs (Decidable (_ ∧ _))

def bitmapBytes (l1CacheBytes nr : ℕ) : ℕ := max (2*nr % 2^32/8+bitbitSize nr) l1CacheBytes

def openFdsSpan (nr : ℕ) : Span := ⟨0, nr/8⟩
def closeOnExecSpan (nr : ℕ) : Span := ⟨nr/8, nr/8⟩
def fullFdsSpan (nr : ℕ) : Span := ⟨nr/8+nr/8, bitbitSize nr⟩

def bitmapSpans (nr : ℕ) : List Span := [openFdsSpan nr, closeOnExecSpan nr, fullFdsSpan nr]

def Span.Within (w a : Span) : Prop := a.off ≤ w.off ∧ w.off+w.len ≤ a.off+a.len

def bitmapWrites (a : Span) (n : CopyBytes) : List Span := [⟨a.off, n.cpy⟩, ⟨a.off+n.cpy, n.set⟩]

def copyFdBitmapsWrites (maxFds count : ℕ) : List Span :=
  bitmapWrites (openFdsSpan maxFds) (fdBitsBytes maxFds count) ++
    bitmapWrites (closeOnExecSpan maxFds) (fdBitsBytes maxFds count) ++
    bitmapWrites (fullFdsSpan maxFds) (fullBitsBytes maxFds count)

variable {nr nrOpen m count b : ℕ} {n : CopyBytes} {a w : Span}

/-- The two writes meet, so together they are the whole bitmap. -/
theorem bitmapWrites_covered (h : n.cpy+n.set = a.len) (hb : a.Mem b) :
    ∃ w ∈ bitmapWrites a n, w.Mem b := by
  obtain ⟨hlow, hhigh⟩ := hb
  by_cases hcpy : b < a.off+n.cpy
  · exact ⟨⟨a.off, n.cpy⟩, by simp [bitmapWrites], hlow, hcpy⟩
  · refine ⟨⟨a.off+n.cpy, n.set⟩, by simp [bitmapWrites], not_lt.1 hcpy, ?_⟩
    dsimp only
    omega

theorem bitmapWrites_within (h : n.cpy+n.set = a.len) (hw : w ∈ bitmapWrites a n) : w.Within a := by
  simp only [bitmapWrites, List.mem_cons, List.not_mem_nil, or_false] at hw
  unfold Span.Within
  rcases hw with rfl | rfl <;> dsimp only <;> omega

theorem bitbitSize_mono (h : count ≤ m) : bitbitSize count ≤ bitbitSize m :=
  Nat.mul_le_mul_right 8 (bitbitNr_mono h)

theorem bitbitSize_lt (h : m < 2^31) : bitbitSize m < 2^32 := by
  unfold bitbitSize bitbitNr bitsToLongs
  omega

theorem fdBitsBytes_sum (hm : m < 2^31) (hd : 64 ∣ m) (hc : 64 ∣ count) (hle : count ≤ m) :
    (fdBitsBytes m count).cpy+(fdBitsBytes m count).set = m/8 := by
  unfold fdBitsBytes
  rw [sub32_eq hle (by omega)]
  dsimp only
  omega

theorem fullBitsBytes_sum (hm : m < 2^31) (hle : count ≤ m) :
    (fullBitsBytes m count).cpy+(fullBitsBytes m count).set = bitbitSize m := by
  have hmono := bitbitSize_mono hle
  have hlt := bitbitSize_lt hm
  unfold fullBitsBytes
  dsimp only
  rw [Nat.mod_eq_of_lt (by omega), sub32_eq hmono hlt]
  omega

/-- `copy_fd_bitmaps` for `count` descriptors writes the three bitmaps and nothing else, so that
nothing of what was in their memory is left. -/
structure BitmapsWritten (m count : ℕ) : Prop where
  covered : ∀ a ∈ bitmapSpans m, ∀ b, a.Mem b → ∃ w ∈ copyFdBitmapsWrites m count, w.Mem b
  within : ∀ w ∈ copyFdBitmapsWrites m count, ∃ a ∈ bitmapSpans m, w.Within a
  fresh : ∀ nfdt nfdt' ofdt : Fdtable, nfdt.maxFds = m → nfdt'.maxFds = m →
    let t := copyFdBitmaps nfdt ofdt count
    let t' := copyFdBitmaps nfdt' ofdt count
    (∀ i < 8*(openFdsSpan m).len, t.openFds i = t'.openFds i) ∧
    (∀ i < 8*(closeOnExecSpan m).len, t.closeOnExec i = t'.closeOnExec i) ∧
    ∀ i < 8*(fullFdsSpan m).len, t.fullFdsBits i = t'.fullFdsBits i

theorem bitmapsWritten (hm : m < 2^31) (hd : 64 ∣ m) (hc : 64 ∣ count) (hle : count ≤ m) :
    BitmapsWritten m count := by
  have hbits := fdBitsBytes_sum hm hd hc hle
  have hfull := fullBitsBytes_sum hm hle
  refine ⟨?_, ?_, ?_⟩
  · intro a ha b hb
    simp only [bitmapSpans, List.mem_cons, List.not_mem_nil, or_false] at ha
    unfold copyFdBitmapsWrites
    simp only [List.mem_append]
    rcases ha with rfl | rfl | rfl
    · obtain ⟨w, hw, hwb⟩ := bitmapWrites_covered hbits hb
      exact ⟨w, .inl (.inl hw), hwb⟩
    · obtain ⟨w, hw, hwb⟩ := bitmapWrites_covered hbits hb
      exact ⟨w, .inl (.inr hw), hwb⟩
    · obtain ⟨w, hw, hwb⟩ := bitmapWrites_covered hfull hb
      exact ⟨w, .inr hw, hwb⟩
  · intro w hw
    simp only [copyFdBitmapsWrites, List.mem_append] at hw
    rcases hw with (hw | hw) | hw
    · exact ⟨openFdsSpan m, by simp [bitmapSpans], bitmapWrites_within hbits hw⟩
    · exact ⟨closeOnExecSpan m, by simp [bitmapSpans], bitmapWrites_within hbits hw⟩
    · exact ⟨fullFdsSpan m, by simp [bitmapSpans], bitmapWrites_within hfull hw⟩
  · rintro nfdt nfdt' ofdt rfl hsame
    have hsum : 8*(fdBitsBytes nfdt.maxFds count).cpy+8*(fdBitsBytes nfdt.maxFds count).set =
        8*(nfdt.maxFds/8) := by
      rw [← mul_add, hbits]
    unfold copyFdBitmaps
    rw [hsame]
    refine ⟨fun i hi => copyClear_congr _ ?_, fun i hi => copyClear_congr _ ?_,
      fun i hi => copyClear_congr _ ?_⟩
    · exact hsum ▸ hi
    · exact hsum ▸ hi
    · rw [← mul_add, hfull]
      exact hi

/-- The bitmaps are large enough, follow one another and end inside the allocation. -/
structure BitmapsFit (l1CacheBytes m : ℕ) : Prop where
  open_fits : m ≤ 8*(openFdsSpan m).len
  cloexec_fits : m ≤ 8*(closeOnExecSpan m).len
  full_fits : m/64 ≤ 8*(fullFdsSpan m).len
  apart : (bitmapSpans m).Pairwise fun a b => a.off+a.len ≤ b.off
  inside : ∀ a ∈ bitmapSpans m, a.off+a.len ≤ bitmapBytes l1CacheBytes m

theorem bitmapsFit (l1CacheBytes : ℕ) (hm : m < 2^31) (hd : 64 ∣ m) :
    BitmapsFit l1CacheBytes m where
  open_fits := by
    change m ≤ 8*(m/8)
    omega
  cloexec_fits := by
    change m ≤ 8*(m/8)
    omega
  full_fits := by
    change m/64 ≤ 8*(((m+63)/64+63)/64*8)
    omega
  apart := by
    simp [bitmapSpans, openFdsSpan, closeOnExecSpan, fullFdsSpan]
  inside := by
    have hbytes : m/8+m/8+bitbitSize m ≤ bitmapBytes l1CacheBytes m := by
      apply le_max_of_le_left
      rw [Nat.mod_eq_of_lt (by omega)]
      omega
    intro a ha
    simp only [bitmapSpans, openFdsSpan, closeOnExecSpan, fullFdsSpan, List.mem_cons,
      List.not_mem_nil, or_false] at ha
    rcases ha with rfl | rfl | rfl <;> dsimp only <;> omega

/-- The arithmetic of `alloc_fdtable` without a wrap: the power of two, its product with the number
of pointers in 1024 bytes, the limit in whole words, the two open bitmaps together and the pointer
array. -/
structure NoWrap (nrOpen nr : ℕ) : Prop where
  size_eq : fdtableSize nrOpen nr =
    if nrOpen < roundupPowOfTwo (nr/128+1)*128 then (nrOpen-1 ||| 63)+1
    else roundupPowOfTwo (nr/128+1)*128
  product_lt : roundupPowOfTwo (nr/128+1)*128 < 2^32
  limit_lt : (nrOpen-1 ||| 63)+1 < 2^32
  double_lt : 2*fdtableSize nrOpen nr < 2^32
  array_lt : fdtableSize nrOpen nr*8 < 2^64

theorem fdtableSize_le (hmax : nrOpen ≤ sysctlNrOpenMax) (hnr : nr < nrOpen) :
    fdtableSize nrOpen nr ≤ (nrOpen+63)/64*64 := by
  have hm : sysctlNrOpenMax = 2^31-64 := by decide
  rw [fdtableSize_eq nrOpen (by omega)]
  split <;> omega

theorem noWrap (hmax : nrOpen ≤ sysctlNrOpenMax) (hnr : nr < nrOpen) : NoWrap nrOpen nr := by
  have hm : sysctlNrOpenMax = 2^31-64 := by decide
  have hp : 2^fls (nr/128) ≤ 2^24 := two_pow_fls_le (by omega)
  have hround : roundupPowOfTwo (nr/128+1) = 2^fls (nr/128) := rfl
  have hle := fdtableSize_le hmax hnr
  have hlimit : (nrOpen-1 ||| 63)+1 = (nrOpen+63)/64*64 := by
    rw [or_sixtyThree]
    omega
  refine ⟨?_, by omega, by omega, by omega, by omega⟩
  rw [fdtableSize_eq nrOpen (by omega), hround, hlimit]
  split <;> split <;> omega

/-- `alloc_fdtable` for every limit up to the largest: the capacity holds `nr`, consists of whole
words and is no more than the limit in whole words, nothing wraps, the bitmaps have their own parts
of the allocation, and `copy_fd_bitmaps` writes each of these parts completely and nothing else. -/
theorem allocFdtable_sizing (l1CacheBytes nrOpen nr : ℕ) (hmax : nrOpen ≤ sysctlNrOpenMax)
    (hnr : nr < nrOpen) :
    let m := fdtableSize nrOpen nr
    nr < m ∧ bitsPerLong ∣ m ∧ m ≤ (nrOpen+63)/64*64 ∧ NoWrap nrOpen nr ∧
      BitmapsFit l1CacheBytes m ∧
      ∀ count, count ≤ m → bitsPerLong ∣ count → BitmapsWritten m count := by
  intro m
  have hm : sysctlNrOpenMax = 2^31-64 := by decide
  have hle : m ≤ (nrOpen+63)/64*64 := fdtableSize_le hmax hnr
  have hlt : m < 2^31 := by omega
  have hd : 64 ∣ m := fdtableSize_dvd nrOpen nr
  refine ⟨lt_fdtableSize (by omega) hnr, hd, hle, noWrap hmax hnr,
    bitmapsFit l1CacheBytes hlt hd, ?_⟩
  intro count hcount hdvd
  exact bitmapsWritten hlt hd hdvd hcount

/-- The largest limit there is, and the last descriptor below it: the bitmaps fit, and a copy of 64
descriptors writes the last byte of the second one, which is not the last byte of the allocation. -/
theorem allocFdtable_sizing_max :
    let m := fdtableSize sysctlNrOpenMax (sysctlNrOpenMax-1)
    m = sysctlNrOpenMax ∧ NoWrap sysctlNrOpenMax (sysctlNrOpenMax-1) ∧ BitmapsFit 64 m ∧
      (∃ w ∈ copyFdBitmapsWrites m 64, w.Mem (2*(m/8)-1)) ∧ 2*(m/8)-1 < bitmapBytes 64 m := by
  intro m
  have hm : m = sysctlNrOpenMax := by decide
  obtain ⟨-, -, -, hwrap, hfit, hwritten⟩ :=
    allocFdtable_sizing 64 sysctlNrOpenMax (sysctlNrOpenMax-1) le_rfl (by decide)
  have hspan : closeOnExecSpan m ∈ bitmapSpans m := by simp [bitmapSpans]
  have hlast : (closeOnExecSpan m).Mem (2*(m/8)-1) := by
    rw [hm]
    decide
  refine ⟨hm, hwrap, hfit, (hwritten 64 (by decide) (by decide)).covered _ hspan _ hlast, ?_⟩
  exact hlast.2.trans_le (hfit.inside _ hspan)

end PtraceRemote
