import PtraceRemote.FdTable

/-! The descriptor-table invariant and its preservation by every operation on one table. -/
namespace PtraceRemote
open Bitmap

/-- What holds of a table between two critical sections: the slots, the open bitmap and its word
summary agree, and the summary is clear past the last word. -/
structure FdtableOk (fdt : Fdtable) : Prop where
  max_pos : 0 < fdt.maxFds
  max_dvd : 64 ∣ fdt.maxFds
  slot_open : ∀ i, i < fdt.maxFds → fdt.fd i ≠ none → fdt.openFds i = true
  full_iff : ∀ w, w < fdt.maxFds/64 → (fdt.fullFdsBits w = true ↔ wordFull fdt.openFds w)
  full_tail : ∀ w, fdt.maxFds/64 ≤ w → w < 64*bitbitNr fdt.maxFds → fdt.fullFdsBits w = false

structure FilesOk (files : FilesStruct) : Prop where
  fdt : FdtableOk files.fdt
  next_le : files.nextFd ≤ files.fdt.maxFds
  next_open : ∀ i, i < files.nextFd → files.fdt.openFds i = true

section Fields
variable (fd flags : ℕ) (fdt : Fdtable)

@[simp] theorem setOpenFd_maxFds : (setOpenFd fd fdt).maxFds = fdt.maxFds := by
  unfold setOpenFd; dsimp only; split <;> rfl

@[simp] theorem setOpenFd_fd : (setOpenFd fd fdt).fd = fdt.fd := by
  unfold setOpenFd; dsimp only; split <;> rfl

@[simp] theorem setOpenFd_openFds :
    (setOpenFd fd fdt).openFds = Function.update fdt.openFds fd true := by
  unfold setOpenFd; dsimp only; split <;> rfl

@[simp] theorem setOpenFd_closeOnExec : (setOpenFd fd fdt).closeOnExec = fdt.closeOnExec := by
  unfold setOpenFd; dsimp only; split <;> rfl

@[simp] theorem markCloexec_maxFds : (markCloexec flags fd fdt).maxFds = fdt.maxFds := by
  unfold markCloexec setCloseOnExec clearCloseOnExec; split <;> [rfl; (split <;> rfl)]

@[simp] theorem markCloexec_fd : (markCloexec flags fd fdt).fd = fdt.fd := by
  unfold markCloexec setCloseOnExec clearCloseOnExec; split <;> [rfl; (split <;> rfl)]

@[simp] theorem markCloexec_openFds : (markCloexec flags fd fdt).openFds = fdt.openFds := by
  unfold markCloexec setCloseOnExec clearCloseOnExec; split <;> [rfl; (split <;> rfl)]

@[simp] theorem markCloexec_fullFdsBits :
    (markCloexec flags fd fdt).fullFdsBits = fdt.fullFdsBits := by
  unfold markCloexec setCloseOnExec clearCloseOnExec; split <;> [rfl; (split <;> rfl)]

end Fields

/-- The invariant only reads the slots, the open bits and the summary. -/
theorem FdtableOk.congr {fdt fdt' : Fdtable} (h : FdtableOk fdt) (hm : fdt'.maxFds = fdt.maxFds)
    (hf : fdt'.fd = fdt.fd) (ho : fdt'.openFds = fdt.openFds)
    (hb : fdt'.fullFdsBits = fdt.fullFdsBits) : FdtableOk fdt' := by
  constructor
  · rw [hm]; exact h.max_pos
  · rw [hm]; exact h.max_dvd
  · rw [hm, hf, ho]; exact h.slot_open
  · rw [hm, hb, ho]; exact h.full_iff
  · rw [hm, hb]; exact h.full_tail

theorem fdtableOk_markCloexec {fdt : Fdtable} (h : FdtableOk fdt) (flags fd : ℕ) :
    FdtableOk (markCloexec flags fd fdt) := by
  apply h.congr <;> simp

/-- Setting an open bit keeps the summary exact. The slot of that descriptor may already hold a file
whose open bit is only set now. -/
theorem fdtableOk_setOpenFd {fdt : Fdtable} {fd : ℕ} (hpos : 0 < fdt.maxFds)
    (hdvd : 64 ∣ fdt.maxFds) (hlt : fd < fdt.maxFds)
    (hslot : ∀ i, i < fdt.maxFds → i ≠ fd → fdt.fd i ≠ none → fdt.openFds i = true)
    (hfull : ∀ w, w < fdt.maxFds/64 → (fdt.fullFdsBits w = true ↔ wordFull fdt.openFds w))
    (htail : ∀ w, fdt.maxFds/64 ≤ w → w < 64*bitbitNr fdt.maxFds → fdt.fullFdsBits w = false) :
    FdtableOk (setOpenFd fd fdt) := by
  have hword : fd/64 < fdt.maxFds/64 := by omega
  constructor
  · simpa using hpos
  · simpa using hdvd
  · intro i hi hs
    simp only [setOpenFd_maxFds, setOpenFd_fd, setOpenFd_openFds] at hi hs ⊢
    by_cases he : i = fd
    · rw [he, Function.update_self]
    · rw [Function.update_of_ne he]; exact hslot i hi he hs
  · intro w hw
    simp only [setOpenFd_maxFds, setOpenFd_openFds] at hw ⊢
    by_cases he : w = fd/64
    · subst he
      unfold setOpenFd
      dsimp only
      split
      · rename_i hf; simpa using hf
      · rename_i hf
        -- the word has another clear bit, so it was not full before either
        have hn : ¬ wordFull fdt.openFds (fd/64) := fun h => hf fun j hj => by
          by_cases hj' : 64*(fd/64)+j = fd
          · rw [hj', Function.update_self]
          · rw [Function.update_of_ne hj']; exact h j hj
        exact iff_of_false (fun h => hn ((hfull _ hw).mp h)) hf
    · rw [wordFull_update_other true (Ne.symm he), ← hfull w hw]
      unfold setOpenFd
      dsimp only
      split
      · simp only [Function.update_of_ne he]
      · rfl
  · intro w hw hw'
    simp only [setOpenFd_maxFds] at hw hw'
    unfold setOpenFd
    dsimp only
    split
    · simp only [Function.update_of_ne (show w ≠ fd/64 by omega)]; exact htail w hw hw'
    · exact htail w hw hw'

/-- Clearing an open bit clears its summary bit, whatever the slot holds. -/
theorem summary_clearOpenFd {fdt : Fdtable} (fd : ℕ)
    (hfull : ∀ w, w < fdt.maxFds/64 → (fdt.fullFdsBits w = true ↔ wordFull fdt.openFds w))
    (htail : ∀ w, fdt.maxFds/64 ≤ w → w < 64*bitbitNr fdt.maxFds → fdt.fullFdsBits w = false) :
    (∀ w, w < fdt.maxFds/64 → ((clearOpenFd fd fdt).fullFdsBits w = true ↔
      wordFull (clearOpenFd fd fdt).openFds w)) ∧
    (∀ w, fdt.maxFds/64 ≤ w → w < 64*bitbitNr fdt.maxFds →
      (clearOpenFd fd fdt).fullFdsBits w = false) := by
  refine ⟨fun w hw => ?_, fun w hw hw' => ?_⟩
  · by_cases hww : w = fd/64
    · subst hww
      simp only [clearOpenFd, Function.update_self]
      exact iff_of_false (by decide) (not_wordFull_of_clear (Function.update_self ..))
    · simp only [clearOpenFd, Function.update_of_ne hww]
      rw [wordFull_update_other false (Ne.symm hww)]
      exact hfull w hw
  · by_cases hww : w = fd/64
    · simp only [clearOpenFd, hww, Function.update_self]
    · simp only [clearOpenFd, Function.update_of_ne hww]
      exact htail w hw hw'

/-- Clearing the open bit of an empty slot keeps the invariant. -/
theorem fdtableOk_clearOpenFd {fdt : Fdtable} {fd : ℕ} (h : FdtableOk fdt) (he : fdt.fd fd = none) :
    FdtableOk (clearOpenFd fd fdt) := by
  obtain ⟨hfull, htail⟩ := summary_clearOpenFd fd h.full_iff h.full_tail
  refine ⟨h.max_pos, h.max_dvd, fun i hi hs => ?_, hfull, htail⟩
  have hne : i ≠ fd := fun hh => hs (hh ▸ he)
  simp only [clearOpenFd, Function.update_of_ne hne]
  exact h.slot_open i hi hs

/-- Emptying a slot keeps the invariant. -/
theorem fdtableOk_dropSlot {fdt : Fdtable} (h : FdtableOk fdt) (fd : ℕ) :
    FdtableOk { fdt with fd := Function.update fdt.fd fd none } := by
  refine ⟨h.max_pos, h.max_dvd, fun i hi hs => ?_, h.full_iff, h.full_tail⟩
  have hne : i ≠ fd := fun hh => hs (by rw [hh]; exact Function.update_self ..)
  exact h.slot_open i hi (by simpa only [Function.update_of_ne hne] using hs)

theorem sub32_eq {a b : ℕ} (hb : b ≤ a) (ha : a < 2^32) : sub32 a b = a-b := by
  unfold sub32; omega

theorem bitbitNr_mono {a b : ℕ} (h : a ≤ b) : bitbitNr a ≤ bitbitNr b := by
  unfold bitbitNr bitsToLongs; omega

/-- The capacity is an `unsigned int`. -/
theorem fdtableSize_lt (nrOpen nr : ℕ) : fdtableSize nrOpen nr < 2^32 := by
  unfold fdtableSize
  dsimp only
  split
  · exact Nat.mod_lt _ (by decide)
  · exact Nat.mod_lt _ (by decide)

theorem fdtableSize_dvd (nrOpen nr : ℕ) : 64 ∣ fdtableSize nrOpen nr := by
  unfold fdtableSize
  dsimp only
  split
  · have hor (x : ℕ) : (x ||| 63) % 64 = 63 := by
      rw [show (64:ℕ) = 2^6 from rfl, Nat.or_mod_two_pow]
      apply Nat.eq_of_testBit_eq
      intro i
      rw [Nat.testBit_or, show (63:ℕ) % 2^6 = 2^6-1 from rfl, Nat.testBit_two_pow_sub_one]
      by_cases hi : i < 6
      · simp [hi]
      · simp only [hi, decide_false, Bool.or_false]
        exact Nat.testBit_lt_two_pow (lt_of_lt_of_le (Nat.mod_lt _ (by decide))
          (Nat.pow_le_pow_right (by decide) (Nat.not_lt.mp hi)))
    have := hor (sub32 nrOpen 1)
    omega
  · omega

/-- What `copy_fd_bitmaps` leaves in a table of at least `count` descriptors. -/
theorem copyFdBitmaps_bits {nfdt ofdt : Fdtable} {count : ℕ} (hd : 64 ∣ count)
    (hn : 64 ∣ nfdt.maxFds) (hle : count ≤ nfdt.maxFds) (hlt : nfdt.maxFds < 2^32) :
    (copyFdBitmaps nfdt ofdt count).openFds =
      copyClear nfdt.openFds ofdt.openFds false count (nfdt.maxFds-count) ∧
    (copyFdBitmaps nfdt ofdt count).closeOnExec =
      copyClear nfdt.closeOnExec ofdt.closeOnExec false count (nfdt.maxFds-count) ∧
    (copyFdBitmaps nfdt ofdt count).fullFdsBits =
      copyClear nfdt.fullFdsBits ofdt.fullFdsBits false (64*bitbitNr count)
        (64*bitbitNr nfdt.maxFds-64*bitbitNr count) := by
  have hb := bitbitNr_mono hle
  have hs : bitbitNr nfdt.maxFds < 2^26 := by unfold bitbitNr bitsToLongs; omega
  unfold copyFdBitmaps fdBitsBytes fullBitsBytes
  dsimp only
  rw [sub32_eq hle hlt, show 8*(count/8) = count by omega,
    show 8*((nfdt.maxFds-count)/8) = nfdt.maxFds-count by omega,
    show bitbitSize count % 2^32 = bitbitNr count*8 by unfold bitbitSize; omega,
    show sub32 (bitbitSize nfdt.maxFds) (bitbitNr count*8) =
      (bitbitNr nfdt.maxFds-bitbitNr count)*8 by unfold bitbitSize sub32; omega]
  refine ⟨rfl, rfl, ?_⟩
  congr 1 <;> omega

def GrowthExact (old new : ℕ) : Prop := old < 2^29 ∧ new-old < 2^29

instance (old new : ℕ) : Decidable (GrowthExact old new) := inferInstanceAs (Decidable (_ ∧ _))

theorem GrowthExact.lt {old new : ℕ} (h : GrowthExact old new) : new < 2^32 := by
  obtain ⟨h1, h2⟩ := h
  omega

@[simp] theorem copyFdtable_maxFds (nfdt ofdt : Fdtable) :
    (copyFdtable nfdt ofdt).maxFds = nfdt.maxFds := rfl

theorem copyFdtable_fd {nfdt ofdt : Fdtable} (hle : ofdt.maxFds ≤ nfdt.maxFds)
    (he : GrowthExact ofdt.maxFds nfdt.maxFds) :
    (copyFdtable nfdt ofdt).fd =
      copyClear nfdt.fd ofdt.fd none ofdt.maxFds (nfdt.maxFds-ofdt.maxFds) := by
  obtain ⟨h1, h2⟩ := he
  change copyClear nfdt.fd ofdt.fd none (ofdt.maxFds*8 % 2^32/8)
    (sub32 nfdt.maxFds ofdt.maxFds*8 % 2^32/8) = _
  rw [sub32_eq hle (by omega)]
  congr 1 <;> omega

section Growth
variable {nfdt ofdt : Fdtable}

/-- The bits a growth adds are clear. -/
theorem copyFdtable_openFds (h : FdtableOk ofdt) (hn : 64 ∣ nfdt.maxFds)
    (hle : ofdt.maxFds ≤ nfdt.maxFds) (hlt : nfdt.maxFds < 2^32) {i : ℕ} (hi : i < nfdt.maxFds) :
    (copyFdtable nfdt ofdt).openFds i = if i < ofdt.maxFds then ofdt.openFds i else false := by
  have hopen := (@copyFdBitmaps_bits nfdt ofdt _ h.max_dvd hn hle hlt).1
  change (copyFdtable nfdt ofdt).openFds = _ at hopen
  rw [hopen]
  split
  · rename_i h1; exact copyClear_copied h1
  · rename_i h1; exact copyClear_cleared (by omega) (by omega)

/-- The words a growth adds are not full. -/
theorem copyFdtable_fullFdsBits (h : FdtableOk ofdt) (hn : 64 ∣ nfdt.maxFds)
    (hle : ofdt.maxFds ≤ nfdt.maxFds) (hlt : nfdt.maxFds < 2^32) {w : ℕ}
    (hw : w < 64*bitbitNr nfdt.maxFds) :
    (copyFdtable nfdt ofdt).fullFdsBits w = if w < ofdt.maxFds/64 then ofdt.fullFdsBits w
      else false := by
  have hfull := (@copyFdBitmaps_bits nfdt ofdt _ h.max_dvd hn hle hlt).2.2
  change (copyFdtable nfdt ofdt).fullFdsBits = _ at hfull
  have hb := bitbitNr_mono hle
  have hlong : ofdt.maxFds/64 ≤ 64*bitbitNr ofdt.maxFds := by unfold bitbitNr bitsToLongs; omega
  rw [hfull]
  by_cases hcopied : w < 64*bitbitNr ofdt.maxFds
  · rw [copyClear_copied hcopied]
    split
    · rfl
    · rename_i htail; exact h.full_tail w (by omega) hcopied
  · rw [copyClear_cleared (by omega) (by omega), if_neg (by omega)]

/-- The summary of the grown table is right, also where the slots are not copied exactly. -/
theorem copyFdtable_full_iff (h : FdtableOk ofdt) (hn : 64 ∣ nfdt.maxFds)
    (hle : ofdt.maxFds ≤ nfdt.maxFds) (hlt : nfdt.maxFds < 2^32) {w : ℕ} (hw : w < nfdt.maxFds/64) :
    (copyFdtable nfdt ofdt).fullFdsBits w = true ↔ wordFull (copyFdtable nfdt ofdt).openFds w := by
  have hbit {i : ℕ} (hi : i < nfdt.maxFds) := copyFdtable_openFds h hn hle hlt hi
  have hd := h.max_dvd
  rw [copyFdtable_fullFdsBits h hn hle hlt (by unfold bitbitNr bitsToLongs; omega)]
  by_cases hwo : w < ofdt.maxFds/64
  · rw [if_pos hwo, h.full_iff w hwo]
    apply wordFull_congr
    intro j hj
    rw [hbit (by omega), if_pos (by omega)]
  · rw [if_neg hwo]
    refine iff_of_false (by decide) fun hf => ?_
    have hset := hf 0 (by decide)
    rw [hbit (by omega), if_neg (by omega)] at hset
    exact absurd hset (by decide)

/-- Growing a table keeps the invariant, as long as the byte counts are exact. -/
theorem fdtableOk_copyFdtable (h : FdtableOk ofdt) (hn : 64 ∣ nfdt.maxFds)
    (hle : ofdt.maxFds ≤ nfdt.maxFds) (he : GrowthExact ofdt.maxFds nfdt.maxFds) :
    FdtableOk (copyFdtable nfdt ofdt) := by
  have hlt := he.lt
  have hfd := copyFdtable_fd hle he
  constructor
  · exact lt_of_lt_of_le h.max_pos hle
  · exact hn
  · intro i hi hs
    rw [copyFdtable_maxFds] at hi
    rw [hfd] at hs
    rw [copyFdtable_openFds h hn hle hlt hi]
    by_cases hio : i < ofdt.maxFds
    · rw [copyClear_copied hio] at hs
      rw [if_pos hio]
      exact h.slot_open i hio hs
    · rw [copyClear_cleared (by omega) (by omega)] at hs
      exact absurd rfl hs
  · intro w hw
    exact copyFdtable_full_iff h hn hle hlt hw
  · intro w hw hw'
    rw [copyFdtable_maxFds] at hw hw'
    rw [copyFdtable_fullFdsBits h hn hle hlt hw', if_neg (by omega)]

end Growth

/-- What one `expand_files` can do. -/
theorem expandFiles_cases (nrOpen : ℕ) (mem : Option RawMem) (files : FilesStruct) (nr : ℕ) :
    (nr < files.fdt.maxFds ∧ expandFiles nrOpen mem files nr = (0, files)) ∨
    (files.fdt.maxFds ≤ nr ∧ ∃ e, 0 < e ∧ expandFiles nrOpen mem files nr = (-e, files)) ∨
    (files.fdt.maxFds ≤ nr ∧ nr < fdtableSize nrOpen nr ∧ ∃ m, mem = some m ∧
      expandFiles nrOpen mem files nr =
        (1, { files with fdt := copyFdtable (m.table (fdtableSize nrOpen nr)) files.fdt })) := by
  unfold expandFiles
  by_cases h1 : nr < files.fdt.maxFds
  · exact Or.inl ⟨h1, if_pos h1⟩
  · rw [if_neg h1]
    by_cases h2 : nr ≥ nrOpen
    · exact Or.inr (Or.inl ⟨by omega, EMFILE, by decide, if_pos h2⟩)
    · rw [if_neg h2]
      unfold expandFdtable allocFdtable
      cases mem with
      | none => exact Or.inr (Or.inl ⟨by omega, ENOMEM, by decide, rfl⟩)
      | some m =>
        dsimp only [Option.map]
        split
        · exact Or.inr (Or.inl ⟨by omega, EMFILE, by decide, rfl⟩)
        · rename_i h3
          exact Or.inr (Or.inr ⟨by omega, Nat.not_le.mp h3, m, rfl, rfl⟩)

theorem filesOk_grow {files : FilesStruct} (h : FilesOk files) {nfdt : Fdtable}
    (hn : 64 ∣ nfdt.maxFds) (hle : files.fdt.maxFds ≤ nfdt.maxFds)
    (he : GrowthExact files.fdt.maxFds nfdt.maxFds) :
    FilesOk { files with fdt := copyFdtable nfdt files.fdt } := by
  refine ⟨fdtableOk_copyFdtable h.fdt hn hle he, h.next_le.trans hle, fun i hi => ?_⟩
  have hlt : nfdt.maxFds < 2^32 := by have := he.1; have := he.2; omega
  have hopen := (@copyFdBitmaps_bits nfdt files.fdt _ h.fdt.max_dvd hn hle hlt).1
  change (copyFdtable nfdt files.fdt).openFds = _ at hopen
  change (copyFdtable nfdt files.fdt).openFds i = true
  rw [hopen, copyClear_copied (lt_of_lt_of_le hi h.next_le)]
  exact h.next_open i hi

theorem le_expandFiles_maxFds (nrOpen : ℕ) (mem : Option RawMem) (files : FilesStruct) (nr : ℕ) :
    files.fdt.maxFds ≤ (expandFiles nrOpen mem files nr).2.fdt.maxFds := by
  rcases expandFiles_cases nrOpen mem files nr with ⟨-, h⟩ | ⟨-, e, -, h⟩ | ⟨h1, h2, m, -, h⟩ <;>
    rw [h]
  exact h1.trans h2.le

theorem filesOk_expandFiles {files : FilesStruct} (h : FilesOk files) (nrOpen : ℕ)
    (mem : Option RawMem) (nr : ℕ)
    (he : GrowthExact files.fdt.maxFds (expandFiles nrOpen mem files nr).2.fdt.maxFds) :
    FilesOk (expandFiles nrOpen mem files nr).2 := by
  rcases expandFiles_cases nrOpen mem files nr with ⟨-, hr⟩ | ⟨-, e, -, hr⟩ | ⟨h1, h2, m, -, hr⟩ <;>
    rw [hr] at he ⊢
  · exact h
  · exact h
  · exact filesOk_grow h (fdtableSize_dvd _ _) (h1.trans h2.le) he

/-- The two-level search agrees with the linear one: the result is the least clear bit at or past
`start`, or `maxFds` when there is none. -/
theorem findNextFd_spec {fdt : Fdtable} (hd : 64 ∣ fdt.maxFds)
    (hfull : ∀ w, w < fdt.maxFds/64 → (fdt.fullFdsBits w = true ↔ wordFull fdt.openFds w))
    {start : ℕ} (hs : start < fdt.maxFds) :
    start ≤ findNextFd fdt start ∧ findNextFd fdt start ≤ fdt.maxFds ∧
    (∀ i, start ≤ i → i < findNextFd fdt start → fdt.openFds i = true) ∧
    (findNextFd fdt start < fdt.maxFds → fdt.openFds (findNextFd fdt start) = false) := by
  have hword : start/64 ≤ fdt.maxFds/64 := by omega
  let bit := findNextZeroBit fdt.fullFdsBits (fdt.maxFds/64) (start/64)
  have hbit1 : start/64 ≤ bit := le_findNextZeroBit _ _ _ hword
  have hbit2 : bit ≤ fdt.maxFds/64 := findNextZeroBit_le _ _ _
  have hskip (i : ℕ) (h1 : start ≤ i) (h2 : i < bit*64) : fdt.openFds i = true := by
    have hf := findNextZeroBit_set_below fdt.fullFdsBits (fdt.maxFds/64) (start/64) (i/64)
      (by omega) (show i/64 < bit by omega) hword
    exact wordFull_bit ((hfull _ (by omega)).mp hf)
  let from' := if bit*64 > start then bit*64 else start
  have hfrom : start ≤ from' ∧ from' ≤ fdt.maxFds ∧ (∀ i, start ≤ i → i < from' → i < bit*64) := by
    dsimp only [from']
    split <;> refine ⟨by omega, by omega, fun i h1 h2 => by omega⟩
  have hr : findNextFd fdt start = findNextZeroBit fdt.openFds fdt.maxFds from' := by
    unfold findNextFd
    dsimp only
    rw [if_neg (show ¬ bit*64 > fdt.maxFds by omega)]
  rw [hr]
  refine ⟨hfrom.1.trans (le_findNextZeroBit _ _ _ hfrom.2.1), findNextZeroBit_le _ _ _,
    fun i h1 h2 => ?_, findNextZeroBit_clear _ _ _⟩
  by_cases hi : i < from'
  · exact hskip i h1 (hfrom.2.2 i h1 hi)
  · exact findNextZeroBit_set_below _ _ _ i (by omega) h2 hfrom.2.1

/-- The search by words and then by bits is the scan of all bits: it ends at the least descriptor
from `start` on whose open bit is clear, or at `max_fds`. -/
theorem findNextFd_linear (fdt : Fdtable) (start : ℕ) (hd : 64 ∣ fdt.maxFds)
    (hfull : ∀ w, w < fdt.maxFds/64 → (fdt.fullFdsBits w = true ↔ wordFull fdt.openFds w))
    (hs : start < fdt.maxFds) :
    let clear := { fd | start ≤ fd ∧ fd < fdt.maxFds ∧ fdt.openFds fd = false }
    findNextFd fdt start = findNextZeroBit fdt.openFds fdt.maxFds start ∧
      (clear.Nonempty → IsLeast clear (findNextFd fdt start)) ∧
      (¬clear.Nonempty → findNextFd fdt start = fdt.maxFds) := by
  intro clear
  obtain ⟨hge, hle, hset, hclear⟩ := findNextFd_spec hd hfull hs
  have hlower : ∀ fd ∈ clear, findNextFd fdt start ≤ fd := by
    rintro fd ⟨hfd, -, hbit⟩
    by_contra hlt
    rw [hset fd hfd (not_le.1 hlt)] at hbit
    exact absurd hbit (by decide)
  refine ⟨(findNextZeroBit_unique _ _ _ hge hle hset hclear).symm, ?_, ?_⟩
  · rintro ⟨fd, hfd⟩
    have hlt : findNextFd fdt start < fdt.maxFds := (hlower fd hfd).trans_lt hfd.2.1
    exact ⟨⟨hge, hlt, hclear hlt⟩, hlower⟩
  · intro hnone
    by_contra hne
    have hlt : findNextFd fdt start < fdt.maxFds := lt_of_le_of_ne hle hne
    exact hnone ⟨_, hge, hlt, hclear hlt⟩

/-- The first word of the two is full, and so is the first bit of the second. -/
theorem findNextFd_linear_fullWord :
    let fdt : Fdtable :=
      ⟨128, fun _ => none, fun _ => false, fun i => decide (i < 65), fun w => decide (w = 0)⟩
    findNextFd fdt 3 = 65 ∧ findNextFd fdt 3 = findNextZeroBit fdt.openFds fdt.maxFds 3 := by
  intro fdt
  have hfull :
      ∀ w, w < fdt.maxFds/64 → (fdt.fullFdsBits w = true ↔ wordFull fdt.openFds w) := by decide
  exact ⟨by decide, (findNextFd_linear fdt 3 (by decide) hfull (by decide)).1⟩

/-- The candidate is the least clear bit at or past `max start nextFd`, or the first descriptor the
table has no room for. -/
theorem candidateFd_bits {files : FilesStruct} (hd : 64 ∣ files.fdt.maxFds)
    (hfull : ∀ w, w < files.fdt.maxFds/64 →
      (files.fdt.fullFdsBits w = true ↔ wordFull files.fdt.openFds w))
    (start : ℕ) :
    max start files.nextFd ≤ candidateFd files start ∧
    candidateFd files start ≤ max (max start files.nextFd) files.fdt.maxFds ∧
    (∀ i, max start files.nextFd ≤ i → i < candidateFd files start → files.fdt.openFds i = true) ∧
    (candidateFd files start < files.fdt.maxFds →
      files.fdt.openFds (candidateFd files start) = false) := by
  have hmax : (if start < files.nextFd then files.nextFd else start) = max start files.nextFd := by
    split <;> omega
  unfold candidateFd
  dsimp only
  rw [hmax]
  split
  · rename_i hlt
    obtain ⟨h1, h2, h3, h4⟩ := findNextFd_spec hd hfull hlt
    exact ⟨h1, h2.trans (le_max_right _ _), h3, h4⟩
  · rename_i hge
    exact ⟨le_rfl, le_max_left _ _, fun i h1 h2 => absurd h2 (by omega), fun hl => absurd hl hge⟩

theorem candidateFd_spec {files : FilesStruct} (h : FilesOk files) (start : ℕ) :
    max start files.nextFd ≤ candidateFd files start ∧
    candidateFd files start ≤ max (max start files.nextFd) files.fdt.maxFds ∧
    (∀ i, max start files.nextFd ≤ i → i < candidateFd files start → files.fdt.openFds i = true) ∧
    (candidateFd files start < files.fdt.maxFds →
      files.fdt.openFds (candidateFd files start) = false) :=
  candidateFd_bits h.fdt.max_dvd h.fdt.full_iff start

/-- `takeFd` on a clear candidate: its slot is empty already, so only the bits change. -/
theorem takeFd_eq {files : FilesStruct} {start flags fd : ℕ} (hn : files.fdt.fd fd = none) :
    takeFd files start flags fd =
      ⟨markCloexec flags fd (setOpenFd fd files.fdt),
        if start ≤ files.nextFd then fd+1 else files.nextFd⟩ := by
  simp [takeFd, hn]

theorem FilesOk.slot_none {files : FilesStruct} (h : FilesOk files) {fd : ℕ}
    (hlt : fd < files.fdt.maxFds) (hc : files.fdt.openFds fd = false) : files.fdt.fd fd = none := by
  by_contra hs
  rw [h.fdt.slot_open fd hlt hs] at hc
  exact absurd hc (by decide)

theorem filesOk_takeFd {files : FilesStruct} (h : FilesOk files) (start flags : ℕ)
    (hlt : candidateFd files start < files.fdt.maxFds) :
    FilesOk (takeFd files start flags (candidateFd files start)) := by
  obtain ⟨hge, -, hbusy, hclear⟩ := candidateFd_spec h start
  replace hclear := hclear hlt
  rw [takeFd_eq (h.slot_none hlt hclear)]
  refine ⟨fdtableOk_markCloexec (fdtableOk_setOpenFd h.fdt.max_pos h.fdt.max_dvd hlt
    (fun i hi _ => h.fdt.slot_open i hi) h.fdt.full_iff h.fdt.full_tail) _ _, ?_, ?_⟩
  · simp only [markCloexec_maxFds, setOpenFd_maxFds]
    have := h.next_le
    split <;> omega
  · intro i hi
    simp only [markCloexec_openFds, setOpenFd_openFds]
    by_cases he : i = candidateFd files start
    · rw [he, Function.update_self]
    · rw [Function.update_of_ne he]
      dsimp only at hi
      split at hi
      · by_cases hin : i < files.nextFd
        · exact h.next_open i hin
        · exact hbusy i (by omega) (by omega)
      · exact h.next_open i hi

/-- After `__alloc_fd` the descriptor is reserved: marked open, with an empty slot. -/
theorem takeFd_reserved (files : FilesStruct) (start flags fd : ℕ) :
    (takeFd files start flags fd).fdt.openFds fd = true ∧
    (takeFd files start flags fd).fdt.fd fd = none := by
  unfold takeFd
  dsimp only
  split
  · simp
  · rename_i h
    simpa using h

@[simp] theorem takeFd_maxFds (files : FilesStruct) (start flags fd : ℕ) :
    (takeFd files start flags fd).fdt.maxFds = files.fdt.maxFds := by
  unfold takeFd; dsimp only; split <;> simp

/-- Tables below `2^29` descriptors only grow exactly. -/
theorem growthExact_of_lt {old new : ℕ} (h : new < 2^29) (hle : old ≤ new) : GrowthExact old new :=
  ⟨by omega, by omega⟩

/-- Growing a table for `nr` copies it exactly, if it has to grow and can. -/
def GrowsExactly (nrOpen : ℕ) (files : FilesStruct) (nr : ℕ) : Prop :=
  files.fdt.maxFds ≤ nr → nr < fdtableSize nrOpen nr →
    GrowthExact files.fdt.maxFds (fdtableSize nrOpen nr)

instance (nrOpen : ℕ) (files : FilesStruct) (nr : ℕ) : Decidable (GrowsExactly nrOpen files nr) :=
  inferInstanceAs (Decidable (_ → _ → _))

/-- The allocator asks again for the descriptor it grew the table for. -/
theorem candidateFd_grow {files : FilesStruct} (h : FilesOk files) {nfdt : Fdtable} (start : ℕ)
    (hn : 64 ∣ nfdt.maxFds) (hge : files.fdt.maxFds ≤ candidateFd files start)
    (hlt : candidateFd files start < nfdt.maxFds) (hmax : nfdt.maxFds < 2^32) :
    candidateFd { files with fdt := copyFdtable nfdt files.fdt } start =
      candidateFd files start := by
  have hle : files.fdt.maxFds ≤ nfdt.maxFds := hge.trans hlt.le
  obtain ⟨h1, h2, h3, -⟩ := candidateFd_spec h start
  obtain ⟨g1, -, g3, g4⟩ := @candidateFd_bits { files with fdt := copyFdtable nfdt files.fdt } hn
    (fun _ hw => copyFdtable_full_iff h.fdt hn hle hmax hw) start
  have hbit {i : ℕ} (hi : i < nfdt.maxFds) := copyFdtable_openFds h.fdt hn hle hmax hi
  dsimp only at g1 g3 g4
  generalize candidateFd { files with fdt := copyFdtable nfdt files.fdt } start = r at g1 g3 g4
  rcases Nat.lt_trichotomy r (candidateFd files start) with hr | hr | hr
  · -- below the old candidate every bit is set, in the grown table too
    have hr1 := g4 (hr.trans hlt)
    rw [hbit (hr.trans hlt), if_pos (by omega), h3 r g1 hr] at hr1
    exact absurd hr1 (by decide)
  · exact hr
  · have hc := g3 _ h1 hr
    rw [hbit hlt, if_neg (by omega)] at hc
    exact absurd hc (by decide)

/-- What `__alloc_fd` can do, if the table grows exactly: fail and leave the table alone, or take
the candidate in the table or in its grown copy. -/
theorem allocFd_cases {files : FilesStruct} (h : FilesOk files) (nrOpen start endFd flags : ℕ)
    (mems : List (Option RawMem)) (hx : GrowsExactly nrOpen files (candidateFd files start)) :
    (∃ e, 0 < e ∧ allocFd nrOpen start endFd flags mems files = (-e, files)) ∨
    (∃ files' : FilesStruct, FilesOk files' ∧
      (files' = files ∨ files.fdt.maxFds ≤ candidateFd files start ∧
        ∃ m : RawMem, files' = { files with
          fdt := copyFdtable (m.table (fdtableSize nrOpen (candidateFd files start))) files.fdt }) ∧
      candidateFd files' start = candidateFd files start ∧
      candidateFd files start < files'.fdt.maxFds ∧ candidateFd files start < endFd ∧
      allocFd nrOpen start endFd flags mems files =
        ((candidateFd files start : ℤ), takeFd files' start flags (candidateFd files start))) := by
  unfold allocFd
  dsimp only
  by_cases h1 : candidateFd files start ≥ endFd
  · rw [if_pos h1]
    exact Or.inl ⟨EMFILE, by decide, rfl⟩
  rw [if_neg h1]
  by_cases h2 : candidateFd files start < files.fdt.maxFds
  · rw [if_pos h2]
    exact Or.inr ⟨files, h, Or.inl rfl, rfl, h2, by omega, rfl⟩
  rw [if_neg h2]
  cases mems with
  | nil =>
    dsimp only
    split_ifs
    · exact Or.inl ⟨EMFILE, by decide, rfl⟩
    · exact Or.inl ⟨ENOMEM, by decide, rfl⟩
  | cons mem mems =>
    dsimp only
    rcases expandFiles_cases nrOpen mem files (candidateFd files start) with
      ⟨hl, -⟩ | ⟨-, e, he, hr⟩ | ⟨hge, hlt, m, -, hr⟩
    · exact absurd hl h2
    · rw [hr, if_pos (by dsimp only; omega)]
      exact Or.inl ⟨e, he, rfl⟩
    · have hdvd : 64 ∣ (m.table (fdtableSize nrOpen (candidateFd files start))).maxFds :=
        fdtableSize_dvd _ _
      have hcand := candidateFd_grow h start hdvd hge hlt (fdtableSize_lt _ _)
      rw [hr, if_neg (show ¬(1 : ℤ) < 0 by decide)]
      unfold allocFd
      dsimp only
      have hroom : candidateFd files start <
          (m.table (fdtableSize nrOpen (candidateFd files start))).maxFds := hlt
      rw [hcand, if_neg h1, copyFdtable_maxFds, if_pos hroom]
      exact Or.inr ⟨_, filesOk_grow h hdvd (hge.trans hlt.le) (hx hge hlt), Or.inr ⟨hge, m, rfl⟩,
        hcand, hlt, by omega, rfl⟩

theorem filesOk_allocFd {files : FilesStruct} (h : FilesOk files) (nrOpen start endFd flags : ℕ)
    (mems : List (Option RawMem)) (hx : GrowsExactly nrOpen files (candidateFd files start)) :
    FilesOk (allocFd nrOpen start endFd flags mems files).2 := by
  rcases allocFd_cases h nrOpen start endFd flags mems hx with
    ⟨e, -, hr⟩ | ⟨files', hok, -, hcand, hlt, -, hr⟩ <;> rw [hr]
  · exact h
  · rw [← hcand] at hlt ⊢
    exact filesOk_takeFd hok start flags hlt

theorem le_allocFd_maxFds (nrOpen start endFd flags : ℕ) (mems : List (Option RawMem))
    (files : FilesStruct) :
    files.fdt.maxFds ≤ (allocFd nrOpen start endFd flags mems files).2.fdt.maxFds := by
  induction mems generalizing files with
  | nil =>
    unfold allocFd
    dsimp only
    split_ifs <;> simp
  | cons mem mems ih =>
    unfold allocFd
    dsimp only
    have hx := le_expandFiles_maxFds nrOpen mem files (candidateFd files start)
    split_ifs
    · exact le_rfl
    · exact (takeFd_maxFds _ _ _ _).ge
    · exact hx
    · exact hx.trans (ih _)

/-- A call that ends below `2^29` descriptors grew exactly, or did not grow. -/
theorem growsExactly_of_allocFd_lt {nrOpen start endFd flags : ℕ} {mems : List (Option RawMem)}
    {files : FilesStruct}
    (hlt : (allocFd nrOpen start endFd flags mems files).2.fdt.maxFds < 2^29) :
    GrowsExactly nrOpen files (candidateFd files start) ∨
    ∃ e, 0 < e ∧ allocFd nrOpen start endFd flags mems files = (-e, files) := by
  by_cases h1 : candidateFd files start ≥ endFd
  · exact Or.inr ⟨EMFILE, by decide, by unfold allocFd; exact if_pos h1⟩
  by_cases h2 : candidateFd files start < files.fdt.maxFds
  · exact Or.inl fun hge => absurd h2 (by omega)
  unfold allocFd at hlt ⊢
  dsimp only at hlt ⊢
  rw [if_neg h1, if_neg h2] at hlt ⊢
  cases mems with
  | nil =>
    refine Or.inr ?_
    dsimp only
    split_ifs
    · exact ⟨EMFILE, by decide, rfl⟩
    · exact ⟨ENOMEM, by decide, rfl⟩
  | cons mem mems =>
    dsimp only at hlt ⊢
    rcases expandFiles_cases nrOpen mem files (candidateFd files start) with
      ⟨hl, -⟩ | ⟨-, e, he, hr⟩ | ⟨hge, hsize, m, -, hr⟩
    · exact absurd hl h2
    · rw [hr, if_pos (by dsimp only; omega)]
      exact Or.inr ⟨e, he, rfl⟩
    · rw [hr, if_neg (show ¬(1 : ℤ) < 0 by decide)] at hlt
      have hle := le_allocFd_maxFds nrOpen start endFd flags mems
        { files with
          fdt := copyFdtable (m.table (fdtableSize nrOpen (candidateFd files start))) files.fdt }
      exact Or.inl fun _ _ => growthExact_of_lt (lt_of_le_of_lt hle hlt) (hge.trans hsize.le)

theorem filesOk_putUnusedFd {files : FilesStruct} (h : FilesOk files) {fd : ℕ}
    (he : files.fdt.fd fd = none) : FilesOk (putUnusedFd files fd) := by
  refine ⟨fdtableOk_clearOpenFd h.fdt he, ?_, fun i hi => ?_⟩
  · have := h.next_le
    simp only [putUnusedFd, clearOpenFd]
    split <;> omega
  · simp only [putUnusedFd, clearOpenFd] at hi ⊢
    have hne : i ≠ fd := by split at hi <;> omega
    rw [Function.update_of_ne hne]
    exact h.next_open i (by split at hi <;> omega)

/-- Dropping a file from its slot and giving the descriptor back, as `__close_fd` and
`do_close_on_exec` do; what happens to the `close_on_exec` bits does not matter. -/
theorem filesOk_release {files : FilesStruct} (h : FilesOk files) (fd : ℕ) {fdt : Fdtable}
    (hm : fdt.maxFds = files.fdt.maxFds) (hf : fdt.fd = Function.update files.fdt.fd fd none)
    (ho : fdt.openFds = files.fdt.openFds) (hb : fdt.fullFdsBits = files.fdt.fullFdsBits) :
    FilesOk (putUnusedFd { files with fdt := fdt } fd) := by
  refine filesOk_putUnusedFd ⟨(fdtableOk_dropSlot h.fdt fd).congr hm hf ho hb, ?_, ?_⟩ ?_
  · exact h.next_le.trans hm.ge
  · dsimp only; rw [ho]; exact h.next_open
  · dsimp only; rw [hf]; exact Function.update_self ..

theorem filesOk_closeFd {files : FilesStruct} (h : FilesOk files) (fd : ℕ) :
    FilesOk (closeFd files fd).2 := by
  unfold closeFd
  split_ifs
  · exact h
  · split
    · exact h
    · dsimp only
      apply filesOk_release h fd <;> unfold clearCloseOnExec <;> split <;> rfl

theorem filesOk_fdInstall {files files' : FilesStruct} (h : FilesOk files) {fd : ℕ} {file : FileId}
    (ho : files.fdt.openFds fd = true) (hr : fdInstall files fd file = some files') :
    FilesOk files' := by
  unfold fdInstall at hr
  split_ifs at hr with hs
  cases hr
  refine ⟨⟨h.fdt.max_pos, h.fdt.max_dvd, fun i hi hsi => ?_, h.fdt.full_iff, h.fdt.full_tail⟩,
    h.next_le, h.next_open⟩
  by_cases he : i = fd
  · exact he ▸ ho
  · exact h.fdt.slot_open i hi (by simpa only [Function.update_of_ne he] using hsi)

theorem filesOk_doDup2 {files : FilesStruct} (h : FilesOk files) (file : FileId) {fd : ℕ}
    (hlt : fd < files.fdt.maxFds) (flags : ℕ) : FilesOk (doDup2 files file fd flags).2.1 := by
  unfold doDup2
  dsimp only
  split
  · exact h
  · have hset : FdtableOk
        (setOpenFd fd { files.fdt with fd := Function.update files.fdt.fd fd (some file) }) := by
      refine fdtableOk_setOpenFd h.fdt.max_pos h.fdt.max_dvd hlt ?_ h.fdt.full_iff h.fdt.full_tail
      intro i hi hne hs
      exact h.fdt.slot_open i hi (by simpa only [Function.update_of_ne hne] using hs)
    refine ⟨fdtableOk_markCloexec hset _ _, ?_, fun i hi => ?_⟩
    · simpa using h.next_le
    · simp only [markCloexec_openFds, setOpenFd_openFds]
      by_cases he : i = fd
      · rw [he, Function.update_self]
      · rw [Function.update_of_ne he]; exact h.next_open i hi

theorem filesOk_cloexecBit {acc : FilesStruct × List FileId} (h : FilesOk acc.1) (set : ℕ → Bool)
    (fd : ℕ) : FilesOk (cloexecBit set acc fd).1 := by
  unfold cloexecBit
  split
  · split
    · exact h
    · exact filesOk_release h fd rfl rfl rfl rfl
  · exact h

theorem filesOk_cloexecWord {acc : FilesStruct × List FileId} (h : FilesOk acc.1) (i : ℕ) :
    FilesOk (cloexecWord acc i).1 := by
  unfold cloexecWord
  dsimp only
  split
  · exact h
  · apply List.foldlRecOn (motive := fun a : FilesStruct × List FileId => FilesOk a.1)
    · exact ⟨h.fdt.congr rfl rfl rfl rfl, h.next_le, h.next_open⟩
    · exact fun acc hacc fd _ => filesOk_cloexecBit hacc _ fd

theorem filesOk_doCloseOnExec {files : FilesStruct} (h : FilesOk files) :
    FilesOk (doCloseOnExec files).1 :=
  List.foldlRecOn (motive := fun a : FilesStruct × List FileId => FilesOk a.1) _ _ h
    fun _ hacc i _ => filesOk_cloexecWord hacc i

end PtraceRemote
