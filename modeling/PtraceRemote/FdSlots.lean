import PtraceRemote.FdTableInv

/-! The slots of a table as a whole: what its descriptors refer to, how often each file occurs, and
how the operations of `fs/file.c` change both. -/
namespace PtraceRemote
open Bitmap

variable {files files' : FilesStruct} {fd : ℕ} {file f : FileId}

/-- Growing a table moves every file along. -/
theorem fcheckFiles_grow (nfdt : Fdtable) (hle : files.fdt.maxFds ≤ nfdt.maxFds)
    (he : GrowthExact files.fdt.maxFds nfdt.maxFds) (k : ℕ) :
    fcheckFiles { files with fdt := copyFdtable nfdt files.fdt } k = fcheckFiles files k := by
  unfold fcheckFiles
  rw [copyFdtable_maxFds, copyFdtable_fd hle he]
  by_cases hk : k < files.fdt.maxFds
  · rw [if_pos (hk.trans_le hle), if_pos hk, copyClear_copied hk]
  · rw [if_neg hk]
    split
    · rw [copyClear_cleared (by omega) (by omega)]
    · rfl

theorem fcheckFiles_takeFd {start flags : ℕ} (hn : files.fdt.fd fd = none) (k : ℕ) :
    fcheckFiles (takeFd files start flags fd) k = fcheckFiles files k := by
  rw [takeFd_eq hn]
  simp [fcheckFiles]

/-- What `__alloc_fd` does to the slots: it fails, or reserves an empty one in a table whose
descriptors refer to the same files. -/
theorem allocFd_slot (h : FilesOk files) (nrOpen endFd flags : ℕ) (mems : List (Option RawMem))
    (hx : GrowsExactly nrOpen files (candidateFd files 0)) :
    (∃ e, 0 < e ∧ allocFd nrOpen 0 endFd flags mems files = (-e, files)) ∨ ∃ files' : FilesStruct,
      allocFd nrOpen 0 endFd flags mems files = ((candidateFd files 0 : ℤ), files') ∧
      candidateFd files 0 < endFd ∧ candidateFd files 0 < files'.fdt.maxFds ∧
      files'.fdt.fd (candidateFd files 0) = none ∧ files'.fdt.openFds (candidateFd files 0) = true ∧
      FilesOk files' ∧ ∀ k, fcheckFiles files' k = fcheckFiles files k := by
  rcases allocFd_cases h nrOpen 0 endFd flags mems hx with
    hneg | ⟨files', hok, hgrow, hcand, hlt, hend, hr⟩
  · exact .inl hneg
  · have hcand' : candidateFd files' 0 < files'.fdt.maxFds := by rwa [hcand]
    have hnone := hok.slot_none hcand' ((candidateFd_spec hok 0).2.2.2 hcand')
    rw [hcand] at hnone
    obtain ⟨hopen, hfd⟩ := takeFd_reserved files' 0 flags (candidateFd files 0)
    have htake := filesOk_takeFd hok 0 flags hcand'
    rw [hcand] at htake
    have hmax : (takeFd files' 0 flags (candidateFd files 0)).fdt.maxFds = files'.fdt.maxFds := by
      rw [takeFd_eq hnone]
      simp
    refine .inr ⟨_, hr, hend, by rwa [hmax], hfd, hopen, htake, fun k => ?_⟩
    rw [fcheckFiles_takeFd hnone]
    rcases hgrow with rfl | ⟨hge, m, rfl⟩
    · rfl
    · have hsize : candidateFd files 0 < fdtableSize nrOpen (candidateFd files 0) := hlt
      exact fcheckFiles_grow (m.table _) (hge.trans hsize.le) (hx hge hsize) k

@[simp] theorem clearCloseOnExec_maxFds (fdt : Fdtable) :
    (clearCloseOnExec fd fdt).maxFds = fdt.maxFds := by
  unfold clearCloseOnExec
  split <;> rfl

@[simp] theorem clearCloseOnExec_fd (fdt : Fdtable) : (clearCloseOnExec fd fdt).fd = fdt.fd := by
  unfold clearCloseOnExec
  split <;> rfl

/-- A table in which one slot has changed. -/
theorem fcheckFiles_update (files files' : FilesStruct) {v : Option FileId}
    (hlt : fd < files.fdt.maxFds) (hm : files'.fdt.maxFds = files.fdt.maxFds)
    (hf : files'.fdt.fd = Function.update files.fdt.fd fd v) (k : ℕ) :
    fcheckFiles files' k = if k = fd then v else fcheckFiles files k := by
  unfold fcheckFiles
  rw [hm, hf]
  by_cases hk : k = fd
  · rw [if_pos hk, hk, if_pos hlt, Function.update_self]
  · rw [if_neg hk, Function.update_of_ne hk]

def slotCount (files : FilesStruct) (f : FileId) : ℕ :=
  ((Finset.range files.fdt.maxFds).filter fun k => files.fdt.fd k = some f).card

/-- How often `f` is among the values of `g` below `n`. -/
theorem count_filterMap_range (g : ℕ → Option FileId) (f : FileId) (n : ℕ) :
    ((List.range n).filterMap g).count f =
      ((Finset.range n).filter fun k => g k = some f).card := by
  induction n with
  | zero => rfl
  | succ n ih =>
    rw [List.range_succ, List.filterMap_append, List.count_append, ih, Finset.range_add_one,
      Finset.filter_insert]
    by_cases hf : g n = some f
    · rw [if_pos hf, Finset.card_insert_of_notMem (by simp)]
      simp [hf]
    · rw [if_neg hf]
      cases hg : g n with
      | none => simp [hg]
      | some f' =>
        have hne : f' ≠ f := fun heq => hf (heq ▸ hg)
        simp [hg, hne]

def holds (slot : Option FileId) (f : FileId) : ℤ := if slot = some f then 1 else 0

@[simp] theorem holds_none : holds none f = 0 := rfl

theorem holds_nonneg (o : Option FileId) : 0 ≤ holds o f := by
  unfold holds
  split <;> decide

theorem mem_slots {k : ℕ} :
    k ∈ (Finset.range files.fdt.maxFds).filter (fun k => files.fdt.fd k = some f) ↔
    fcheckFiles files k = some f := by
  rw [Finset.mem_filter, Finset.mem_range, fcheckFiles]
  split <;> simp_all

/-- The count depends on what the descriptors refer to, not on the size of the table. -/
theorem slotCount_congr (h : ∀ k, fcheckFiles files' k = fcheckFiles files k) :
    slotCount files' f = slotCount files f := by
  unfold slotCount
  congr 1
  ext k
  rw [mem_slots, mem_slots, h]

theorem slotCount_pos {k : ℕ} (h : fcheckFiles files k = some f) : 1 ≤ slotCount files f :=
  Finset.card_pos.2 ⟨k, mem_slots.2 h⟩

theorem slotCount_update {v : Option FileId}
    (h : ∀ k, fcheckFiles files' k = if k = fd then v else fcheckFiles files k) :
    (slotCount files' f : ℤ) = slotCount files f + holds v f - holds (fcheckFiles files fd) f := by
  have herase : ∀ g : FilesStruct, (slotCount g f : ℤ) = holds (fcheckFiles g fd) f +
      (((Finset.range g.fdt.maxFds).filter fun k => g.fdt.fd k = some f).erase fd).card := by
    intro g
    unfold slotCount holds
    split
    next hg =>
      rw [← Finset.card_erase_add_one (mem_slots.2 hg)]
      push_cast
      ring
    next hg =>
      rw [Finset.erase_eq_of_notMem (fun hmem => hg (mem_slots.1 hmem)), zero_add]
  have hsame :
      ((Finset.range files'.fdt.maxFds).filter fun k => files'.fdt.fd k = some f).erase fd =
        ((Finset.range files.fdt.maxFds).filter fun k => files.fdt.fd k = some f).erase fd := by
    ext k
    rw [Finset.mem_erase, Finset.mem_erase, mem_slots, mem_slots]
    refine and_congr_right fun hk => ?_
    rw [h, if_neg hk]
  rw [herase files', herase files, hsame, h, if_pos rfl]
  ring

/-- A growing table keeps what its descriptors refer to. -/
theorem fcheckFiles_expand {nrOpen nr : ℕ} {mem : Option RawMem} (hx : GrowsExactly nrOpen files nr)
    (k : ℕ) :
    fcheckFiles (expandFiles nrOpen mem files nr).2 k = fcheckFiles files k := by
  rcases expandFiles_cases nrOpen mem files nr with ⟨-, hr⟩ | ⟨-, e, -, hr⟩ | ⟨hge, hlt, m, -, hr⟩
  · rw [hr]
  · rw [hr]
  · rw [hr]
    exact fcheckFiles_grow (m.table (fdtableSize nrOpen nr)) (hge.trans hlt.le) (hx hge hlt) k

theorem filesOk_growsExactly {nrOpen nr : ℕ} {mem : Option RawMem} (h : FilesOk files)
    (hx : GrowsExactly nrOpen files nr) : FilesOk (expandFiles nrOpen mem files nr).2 := by
  rcases expandFiles_cases nrOpen mem files nr with ⟨-, hr⟩ | ⟨-, e, -, hr⟩ | ⟨hge, hlt, m, -, hr⟩
  · rwa [hr]
  · rwa [hr]
  · rw [hr]
    have hdvd : 64 ∣ (m.table (fdtableSize nrOpen nr)).maxFds := fdtableSize_dvd _ _
    exact filesOk_grow h hdvd (hge.trans hlt.le) (hx hge hlt)

/-- A table that has been asked to hold `nr` holds it, unless an error is returned. -/
theorem lt_maxFds_of_expandFiles {nrOpen nr : ℕ} {mem : Option RawMem}
    (h : 0 ≤ (expandFiles nrOpen mem files nr).1) :
    nr < (expandFiles nrOpen mem files nr).2.fdt.maxFds := by
  rcases expandFiles_cases nrOpen mem files nr with ⟨hlt, hr⟩ | ⟨-, e, he, hr⟩ | ⟨-, hlt, m, -, hr⟩
  · rwa [hr]
  · rw [hr] at h
    dsimp only at h
    omega
  · rw [hr]
    exact hlt

/-- What `__close_fd` takes out. -/
theorem closeFd_cases (files : FilesStruct) (fd : ℕ) :
    (fcheckFiles files fd = none ∧ closeFd files fd = (none, files)) ∨ ∃ file,
      fcheckFiles files fd = some file ∧ (closeFd files fd).1 = some file ∧
      ∀ k, fcheckFiles (closeFd files fd).2 k = if k = fd then none else fcheckFiles files k := by
  unfold closeFd
  by_cases hlt : fd < files.fdt.maxFds
  · rw [if_neg (not_le.2 hlt)]
    have hcheck : fcheckFiles files fd = files.fdt.fd fd := if_pos hlt
    cases hfd : files.fdt.fd fd with
    | none => exact .inl ⟨hcheck.trans hfd, rfl⟩
    | some file =>
      refine .inr ⟨file, hcheck.trans hfd, rfl, fun k => ?_⟩
      exact fcheckFiles_update files _ hlt (by simp [putUnusedFd, clearOpenFd])
        (by simp [putUnusedFd, clearOpenFd]) k
  · rw [if_pos (not_lt.1 hlt)]
    exact .inl ⟨if_neg hlt, rfl⟩

/-- What `do_dup2` can do to a slot of the table. -/
theorem doDup2_cases (file : FileId) (flags : ℕ) (hlt : fd < files.fdt.maxFds) :
    doDup2 files file fd flags = (-EBUSY, files, none) ∨ ∃ files', doDup2 files file fd flags =
        ((fd : ℤ), files', fcheckFiles files fd) ∧
      ∀ k, fcheckFiles files' k = if k = fd then some file else fcheckFiles files k := by
  have hcheck : fcheckFiles files fd = files.fdt.fd fd := if_pos hlt
  unfold doDup2
  dsimp only
  split
  · exact .inl rfl
  · rw [hcheck]
    refine .inr ⟨_, rfl, fun k => ?_⟩
    exact fcheckFiles_update files _ hlt (by simp) (by simp) k

def oneFile (file : FileId) : FilesStruct :=
  { fdt :=
      { maxFds := 64
        fd := fun i => if i = 0 then some file else none
        closeOnExec := fun _ => false
        openFds := fun i => i == 0
        fullFdsBits := fun _ => false }
    nextFd := 1 }

theorem filesOk_oneFile (file : FileId) : FilesOk (oneFile file) := by
  have hmax : (oneFile file).fdt.maxFds = 64 := rfl
  have hbit : ∀ i, (oneFile file).fdt.openFds i = (i == 0) := fun _ => rfl
  refine ⟨⟨by omega, by omega, fun i _ hi => ?_, fun w hw => ?_, fun w _ _ => rfl⟩, ?_,
    fun i hi => ?_⟩
  · by_contra hne
    have hzero : i ≠ 0 := fun h0 => hne (by rw [h0]; rfl)
    exact hi (if_neg hzero)
  · refine iff_of_false (fun hfull => Bool.noConfusion (hfull : false = true)) fun hfull => ?_
    have hone := hfull 1 (by decide)
    rw [hbit, beq_iff_eq] at hone
    omega
  · exact (show 1 ≤ 64 by decide)
  · have hi : i < 1 := hi
    rw [hbit, beq_iff_eq]
    omega

theorem slotCount_eq_zero (h : ∀ k, fcheckFiles files k ≠ some f) : slotCount files f = 0 := by
  apply Finset.card_eq_zero.2
  apply Finset.eq_empty_of_forall_notMem
  intro k hk
  exact h k (mem_slots.1 hk)

/-- Only descriptor 0 refers to a file. -/
theorem slotCount_single (h : ∀ k, fcheckFiles files k = if k = 0 then some file else none)
    (f : FileId) :
    (slotCount files f : ℤ) = holds (some file) f := by
  unfold holds
  split
  next heq =>
    obtain rfl := Option.some.inj heq
    have hset :
        ((Finset.range files.fdt.maxFds).filter fun k => files.fdt.fd k = some file) = {0} := by
      ext k
      rw [mem_slots, h, Finset.mem_singleton]
      simp
    rw [slotCount, hset]
    rfl
  next hne =>
    rw [slotCount_eq_zero, Nat.cast_zero]
    intro k hk
    rw [h] at hk
    split at hk
    · exact hne hk
    · exact absurd hk (by simp)

theorem slotCount_oneFile (file f : FileId) :
    (slotCount (oneFile file) f : ℤ) = holds (some file) f := by
  apply slotCount_single
  intro k
  show (if k < 64 then if k = 0 then some file else none else none) = _
  split <;> split <;> first | rfl | omega

end PtraceRemote
