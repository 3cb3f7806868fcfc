import PtraceRemote.FdRun
import PtraceRemote.FdSlots

/-! Growing a descriptor table over the whole range of `sysctl_nr_open`: the capacity
`alloc_fdtable` chooses, and when the `unsigned int` byte counts of `copy_fdtable` lose part of the
pointer array. -/
namespace PtraceRemote
open Bitmap

def sysctlNrOpenMax : ℕ := (2^31-1)/64*64

section Capacity
variable {n k nr nrOpen old : ℕ}

theorem lt_two_pow_fls (n : ℕ) : n < 2^fls n := by
  unfold fls
  split
  · omega
  · exact Nat.lt_log2_self

theorem two_pow_fls_le (h : n < 2^k) : 2^fls n ≤ 2^k := by
  apply Nat.pow_le_pow_right (by decide)
  unfold fls
  split
  · exact Nat.zero_le k
  · exact (Nat.log2_lt (by assumption)).mpr h

theorem or_sixtyThree (x : ℕ) : x ||| 63 = x/64*64+63 := by
  have hlow : (x ||| 63) % 2^6 = 63 := by
    rw [Nat.or_mod_two_pow, show 63 % 2^6 = 2^6-1 from rfl]
    apply Nat.eq_of_testBit_eq
    intro i
    rw [Nat.testBit_or, Nat.testBit_mod_two_pow, Nat.testBit_two_pow_sub_one]
    by_cases hi : i < 6 <;> simp [hi]
  have hhigh : (x ||| 63)/2^6 = x/2^6 := by
    rw [← Nat.shiftRight_eq_div_pow, Nat.shiftRight_or_distrib, Nat.shiftRight_eq_div_pow]
    exact Nat.or_zero _
  omega

/-- The capacity is the next power of two past `nr`, of at least 128, as long as `sysctl_nr_open`
allows that much, and `sysctl_nr_open` in whole words otherwise. -/
theorem fdtableSize_eq (nrOpen : ℕ) (hnr : nr < 2^31) :
    fdtableSize nrOpen nr =
      if 128*2^fls (nr/128) ≤ nrOpen then 128*2^fls (nr/128) else (nrOpen+63)/64*64 := by
  have hp : 2^fls (nr/128) ≤ 2^24 := two_pow_fls_le (by omega)
  have hround : roundupPowOfTwo ((nr/128+1) % 2^32) = 2^fls (nr/128) := by
    rw [Nat.mod_eq_of_lt (by omega)]
    rfl
  unfold fdtableSize
  dsimp only
  rw [hround, Nat.mod_eq_of_lt (show 2^fls (nr/128) < 2^32 by omega),
    Nat.mod_eq_of_lt (show 2^fls (nr/128)*128 < 2^32 by omega), Nat.mul_comm _ 128]
  by_cases hle : 128*2^fls (nr/128) ≤ nrOpen
  · rw [if_neg (by omega), if_pos hle]
  · -- a limit of zero wraps twice, and the capacity is zero again
    rw [if_pos (by omega), if_neg hle, or_sixtyThree]
    unfold sub32
    omega

theorem lt_fdtableSize (hnr : nr < 2^31) (h : nr < nrOpen) : nr < fdtableSize nrOpen nr := by
  have hp := lt_two_pow_fls (nr/128)
  rw [fdtableSize_eq nrOpen hnr]
  split <;> omega

/-- The byte counts of a growth are exact below `2^29` descriptors, and past it for a table that
`sysctl_nr_open` keeps close to the old size. -/
theorem growthExact_iff (hold : 64 ∣ old) (hpos : 0 < old) (hle : old ≤ nr) (h : nr < nrOpen)
    (hmax : nrOpen ≤ sysctlNrOpenMax) :
    GrowthExact old (fdtableSize nrOpen nr) ↔
      old < 2^29 ∧ (nr < 2^29 ∨ nrOpen+64 ≤ old+2^29) := by
  have hm : sysctlNrOpenMax = 2^31-64 := by decide
  have hlt := lt_two_pow_fls (nr/128)
  rw [fdtableSize_eq nrOpen (by omega)]
  unfold GrowthExact
  by_cases hnr : nr < 2^29
  · have hp : 2^fls (nr/128) ≤ 2^22 := two_pow_fls_le (by omega)
    split <;> omega
  · -- a power of two above `2^29` is at least `2^30`
    have hp : 2^23 ≤ 2^fls (nr/128) := by
      apply Nat.pow_le_pow_right (by decide)
      by_contra hf
      have := Nat.pow_le_pow_right (show 0 < 2 by decide) (show fls (nr/128) ≤ 22 by omega)
      omega
    split <;> omega

end Capacity

/-- What a growth may do to the table `files` on behalf of `nr`: `r` is the result of
`expand_files`. -/
structure Lossless (files : FilesStruct) (nr : ℕ) (r : ℤ × FilesStruct) : Prop where
  holds : r.1 = 1 → nr < r.2.fdt.maxFds
  kept : r.1 = 1 → ∀ fd, fd < files.fdt.maxFds →
    r.2.fdt.fd fd = files.fdt.fd fd ∧ r.2.fdt.openFds fd = files.fdt.openFds fd ∧
      r.2.fdt.closeOnExec fd = files.fdt.closeOnExec fd
  fresh : r.1 = 1 → ∀ fd, files.fdt.maxFds ≤ fd → fd < r.2.fdt.maxFds →
    r.2.fdt.fd fd = none ∧ r.2.fdt.openFds fd = false ∧ r.2.fdt.closeOnExec fd = false
  summary : r.1 = 1 → ∀ w, w < r.2.fdt.maxFds/64 →
    (r.2.fdt.fullFdsBits w = true ↔ wordFull r.2.fdt.openFds w)
  failed : r.1 < 0 → r.2 = files

variable {files : FilesStruct} {nr nrOpen : ℕ} {nfdt ofdt : Fdtable}

theorem lossless_same {e : ℤ} (he : e ≠ 1) : Lossless files nr (e, files) := by
  constructor
  · exact fun h => absurd h he
  · exact fun h => absurd h he
  · exact fun h => absurd h he
  · exact fun h => absurd h he
  · exact fun _ => rfl

/-- A growth with exact byte counts loses nothing. -/
theorem lossless_grow (h : FdtableOk files.fdt) (hn : 64 ∣ nfdt.maxFds) (hnr : nr < nfdt.maxFds)
    (hle : files.fdt.maxFds ≤ nfdt.maxFds) (he : GrowthExact files.fdt.maxFds nfdt.maxFds) :
    Lossless files nr (1, { files with fdt := copyFdtable nfdt files.fdt }) := by
  have hlt : nfdt.maxFds < 2^32 := by have := he.1; have := he.2; omega
  have hfd := copyFdtable_fd hle he
  obtain ⟨hopen, hcloexec, -⟩ := @copyFdBitmaps_bits nfdt files.fdt _ h.max_dvd hn hle hlt
  change (copyFdtable nfdt files.fdt).openFds = _ at hopen
  change (copyFdtable nfdt files.fdt).closeOnExec = _ at hcloexec
  constructor
  · exact fun _ => hnr
  · intro _ fd hfd'
    dsimp only
    rw [hfd, hopen, hcloexec]
    exact ⟨copyClear_copied hfd', copyClear_copied hfd', copyClear_copied hfd'⟩
  · intro _ fd hge hfd'
    have hend : fd < files.fdt.maxFds+(nfdt.maxFds-files.fdt.maxFds) :=
      lt_of_lt_of_le hfd' (Nat.add_sub_of_le hle).ge
    dsimp only
    rw [hfd, hopen, hcloexec]
    exact ⟨copyClear_cleared hge hend, copyClear_cleared hge hend, copyClear_cleared hge hend⟩
  · exact fun _ => (fdtableOk_copyFdtable h hn hle he).full_iff
  · exact fun hr => absurd (show (1:ℤ) < 0 from hr) (by decide)

/-- Where a byte count wraps, the last slot of the new array is neither copied nor cleared. -/
theorem copyFdtable_lastSlot (hle : ofdt.maxFds ≤ nfdt.maxFds) (hlt : nfdt.maxFds < 2^32)
    (he : ¬ GrowthExact ofdt.maxFds nfdt.maxFds) :
    (copyFdtable nfdt ofdt).fd (nfdt.maxFds-1) = nfdt.fd (nfdt.maxFds-1) := by
  change copyClear nfdt.fd ofdt.fd none (ofdt.maxFds*8 % 2^32/8)
    (sub32 nfdt.maxFds ofdt.maxFds*8 % 2^32/8) _ = _
  apply copyClear_kept
  rw [sub32_eq hle hlt]
  unfold GrowthExact at he
  omega

/-- Byte counts that wrap to 0: no slot is copied or cleared. -/
theorem copyFdtable_wrapped (hcpy : ofdt.maxFds*8 % 2^32 = 0)
    (hset : sub32 nfdt.maxFds ofdt.maxFds*8 % 2^32 = 0) (k : ℕ) :
    (copyFdtable nfdt ofdt).fd k = nfdt.fd k := by
  change copyClear nfdt.fd ofdt.fd none (ofdt.maxFds*8 % 2^32/8)
    (sub32 nfdt.maxFds ofdt.maxFds*8 % 2^32/8) k = _
  rw [hcpy, hset]
  exact copyClear_kept (Nat.zero_le k)

/-- Growing loses nothing, whatever the fresh memory held, exactly if no growth is due or its byte
counts fit: the old table is below `2^29` descriptors, and so is the requested one, or
`sysctl_nr_open` keeps the new table less than `2^29` descriptors larger than the old one. -/
theorem expandFiles_lossless_iff (nrOpen : ℕ) (files : FilesStruct) (nr : ℕ)
    (h : FdtableOk files.fdt) (hmax : nrOpen ≤ sysctlNrOpenMax) :
    (∀ mem, Lossless files nr (expandFiles nrOpen mem files nr)) ↔
      (files.fdt.maxFds ≤ nr → nr < nrOpen →
        files.fdt.maxFds < 2^29 ∧ (nr < 2^29 ∨ nrOpen+64 ≤ files.fdt.maxFds+2^29)) := by
  have hm : sysctlNrOpenMax = 2^31-64 := by decide
  constructor
  · intro hall hle hnr
    rw [← growthExact_iff h.max_dvd h.max_pos hle hnr hmax]
    by_contra he
    -- memory full of stale pointers: the last slot of the new table shows one
    let m : RawMem := ⟨fun _ => some 0, fun _ => false, fun _ => false, fun _ => false⟩
    have hsize := lt_fdtableSize (show nr < 2^31 by omega) hnr
    have hr : expandFiles nrOpen (some m) files nr =
        (1, { files with fdt := copyFdtable (m.table (fdtableSize nrOpen nr)) files.fdt }) := by
      unfold expandFiles
      rw [if_neg (by omega), if_neg (by omega)]
      exact if_neg (Nat.not_le.mpr hsize)
    have hfresh := (hall (some m)).fresh
    rw [hr] at hfresh
    have hlast := (hfresh rfl (fdtableSize nrOpen nr-1) (by omega)
      (Nat.sub_lt (by omega) (by decide))).1
    have hstale := @copyFdtable_lastSlot (m.table (fdtableSize nrOpen nr)) files.fdt
      (hle.trans hsize.le) (fdtableSize_lt nrOpen nr) he
    exact nomatch (show (none : Option FileId) = some 0 from hlast.symm.trans hstale)
  · intro hcond mem
    rcases expandFiles_cases nrOpen mem files nr with
      ⟨-, hr⟩ | ⟨-, e, he, hr⟩ | ⟨hle, hsize, m, -, hr⟩
    · rw [hr]
      exact lossless_same (by decide)
    · rw [hr]
      exact lossless_same (by omega)
    -- the table grows only below the limit, otherwise the result is -EMFILE
    · have hnr : nr < nrOpen := by
        by_contra hge
        unfold expandFiles at hr
        rw [if_neg (by omega), if_pos (by omega)] at hr
        exact absurd (show -EMFILE = 1 from congrArg Prod.fst hr) (by decide)
      have he := (growthExact_iff h.max_dvd h.max_pos hle hnr hmax).mpr (hcond hle hnr)
      rw [hr]
      exact lossless_grow h (fdtableSize_dvd _ _) hsize (hle.trans hsize.le) he

/-- The first table grows to 128 descriptors, into memory full of ones. -/
theorem expandFiles_lossless_initFiles :
    Lossless initFiles 64
      (expandFiles 1024 (some ⟨fun _ => some 1, fun _ => true, fun _ => true, fun _ => true⟩)
        initFiles 64) :=
  (expandFiles_lossless_iff 1024 initFiles 64 filesOk_initFiles.fdt (by decide)).mpr
    (fun _ _ => by decide) _

def hugeFiles : FilesStruct :=
  { fdt := { maxFds := 2^29, fd := fun i => if i = 0 then some 7 else none
             closeOnExec := fun _ => false, openFds := fun i => i == 0, fullFdsBits :=
             fun _ => false }
    nextFd := 1 }

theorem filesOk_hugeFiles : FilesOk hugeFiles := by
  refine ⟨⟨by decide, by decide, fun i _ hs => ?_,
    fun w _ => ⟨fun hf => absurd hf Bool.false_ne_true, fun hf => ?_⟩,
    fun _ _ _ => rfl⟩, by decide, fun i hi => ?_⟩
  · by_contra hi
    apply hs
    exact if_neg (by simpa [hugeFiles] using hi)
  · exact absurd (hf 1 (by decide)) (by simp [hugeFiles])
  · have hi : i < 1 := hi
    obtain rfl : i = 0 := by omega
    rfl

/-- Asked for descriptor `2^29`, the table grows to `2^30` descriptors: both byte counts are `2^32`,
nothing is copied, and the open descriptor 0 loses its file. -/
theorem expandFiles_loses_file :
    FdtableOk hugeFiles.fdt ∧ 2^30 ≤ sysctlNrOpenMax ∧
      let r :=
        expandFiles (2^30) (some ⟨fun _ => none, fun _ => false, fun _ => false, fun _ => false⟩)
        hugeFiles (2^29)
      r.1 = 1 ∧ hugeFiles.fdt.fd 0 = some 7 ∧ r.2.fdt.fd 0 = none ∧ r.2.fdt.openFds 0 = true ∧
        ¬ Lossless hugeFiles (2^29) r := by
  refine ⟨filesOk_hugeFiles.fdt, by decide, ?_⟩
  intro r
  have hlost : r.1 = 1 ∧ hugeFiles.fdt.fd 0 = some 7 ∧ r.2.fdt.fd 0 = none ∧
      r.2.fdt.openFds 0 = true := by decide +kernel
  refine ⟨hlost.1, hlost.2.1, hlost.2.2.1, hlost.2.2.2, fun hl => ?_⟩
  have hkept := (hl.kept hlost.1 0 (by decide)).1
  rw [hlost.2.1, hlost.2.2.1] at hkept
  exact nomatch hkept

end PtraceRemote
