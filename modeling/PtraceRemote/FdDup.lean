import PtraceRemote.FdGrow
import PtraceRemote.FdRoundTrip

/-! `PTRACE_DUP_TO_REMOTE` and `PTRACE_DUP2_TO_REMOTE` against what they are for: a table is its
entries, descriptor by descriptor, and a request changes one of them. -/
namespace PtraceRemote
open Bitmap

structure FdEntry where
  file : Option FileId
  isOpen : Bool
  cloexec : Bool
deriving DecidableEq

def fdEntry (files : FilesStruct) (fd : ℕ) : FdEntry :=
  if fd < files.fdt.maxFds then ⟨files.fdt.fd fd, files.fdt.openFds fd, files.fdt.closeOnExec fd⟩
  else ⟨none, false, false⟩

def IsLeastFree (files : FilesStruct) (fd : ℕ) : Prop :=
  (fdEntry files fd).isOpen = false ∧ ∀ k, k < fd → (fdEntry files k).isOpen = true

structure FilePlaced (s : FdSys) (i : FilesId) (fd : ℕ) (file : FileId) (cloexec : Bool)
    (s' : FdSys) : Prop where
  entry : ∀ k, fdEntry (s'.files i) k =
    if k = fd then ⟨some file, true, cloexec⟩ else fdEntry (s.files i) k
  others : ∀ j, j ≠ i → s'.files j = s.files j
  counts :
    ∀ g, s'.fCount g = s.fCount g + holds (some file) g - holds (fdEntry (s.files i) fd).file g

structure SameEntries (s s' : FdSys) : Prop where
  entry : ∀ i k, fdEntry (s'.files i) k = fdEntry (s.files i) k
  counts : s'.fCount = s.fCount

variable {files files' : FilesStruct} {nr nrOpen fd : ℕ} {file : FileId} {s s' : FdSys}
  {cur child : FilesId} {flags : BitVec 32}

theorem fdEntry_of_lt (h : fd < files.fdt.maxFds) :
    fdEntry files fd = ⟨files.fdt.fd fd, files.fdt.openFds fd, files.fdt.closeOnExec fd⟩ := if_pos h

theorem fdEntry_file (files : FilesStruct) (fd : ℕ) :
    (fdEntry files fd).file = fcheckFiles files fd := by
  unfold fdEntry fcheckFiles
  split <;> rfl

theorem fdEntry_file_none (h : FilesOk files) (hfree : (fdEntry files fd).isOpen = false) :
    (fdEntry files fd).file = none := by
  by_cases hlt : fd < files.fdt.maxFds
  · rw [fdEntry_of_lt hlt] at hfree ⊢
    exact h.slot_none hlt hfree
  · unfold fdEntry
    rw [if_neg hlt]

/-- A growth with exact byte counts shows the same entries. -/
theorem fdEntry_grow (h : FdtableOk files.fdt) (nfdt : Fdtable) (hn : 64 ∣ nfdt.maxFds)
    (hle : files.fdt.maxFds ≤ nfdt.maxFds) (he : GrowthExact files.fdt.maxFds nfdt.maxFds) (k : ℕ) :
    fdEntry { files with fdt := copyFdtable nfdt files.fdt } k = fdEntry files k := by
  have hpos := lt_of_lt_of_le h.max_pos hle
  have hl := lossless_grow h hn hpos hle he
  unfold fdEntry
  by_cases hold : k < files.fdt.maxFds
  · obtain ⟨hf, ho, hc⟩ := hl.kept rfl k hold
    dsimp only at hf ho hc ⊢
    rw [if_pos hold, copyFdtable_maxFds, if_pos (lt_of_lt_of_le hold hle), hf, ho, hc]
  · rw [if_neg hold]
    split
    next hnew =>
      obtain ⟨hf, ho, hc⟩ := hl.fresh rfl k (Nat.not_lt.mp hold) hnew
      dsimp only at hf ho hc ⊢
      rw [hf, ho, hc]
    next => rfl

theorem fdEntry_grown (h : FdtableOk files.fdt) (hx : GrowsExactly nrOpen files nr)
    (hgrown : files' = files ∨ files.fdt.maxFds ≤ nr ∧ ∃ m : RawMem, files' = { files with
      fdt := copyFdtable (m.table (fdtableSize nrOpen nr)) files.fdt })
    (hroom : nr < files'.fdt.maxFds) (k : ℕ) : fdEntry files' k = fdEntry files k := by
  rcases hgrown with rfl | ⟨hge, m, rfl⟩
  · rfl
  · exact fdEntry_grow h (m.table _) (fdtableSize_dvd _ _) (hge.trans hroom.le) (hx hge hroom) k

/-- A table that ends below `2^29` descriptors shows the same entries after it has grown. -/
theorem expandFiles_entry {mem : Option RawMem} (h : FilesOk files)
    (hlt : (expandFiles nrOpen mem files nr).2.fdt.maxFds < 2^29) :
    FilesOk (expandFiles nrOpen mem files nr).2 ∧
      ∀ k, fdEntry (expandFiles nrOpen mem files nr).2 k = fdEntry files k := by
  have hle := le_expandFiles_maxFds nrOpen mem files nr
  have he := growthExact_of_lt hlt hle
  refine ⟨filesOk_expandFiles h nrOpen mem nr he, fun k => ?_⟩
  rcases expandFiles_cases nrOpen mem files nr with
    ⟨-, hr⟩ | ⟨-, e, -, hr⟩ | ⟨-, hsize, m, -, hr⟩ <;> rw [hr] at hle he ⊢
  exact fdEntry_grow h.fdt (m.table _) (fdtableSize_dvd _ _) hle he k

/-- The bit `__set_close_on_exec` or `__clear_close_on_exec` leaves. -/
theorem markCloexec_closeOnExec (flags fd : ℕ) (fdt : Fdtable) :
    (markCloexec flags fd fdt).closeOnExec =
      Function.update fdt.closeOnExec fd (decide (flags &&& oCloexec ≠ 0)) := by
  unfold markCloexec
  by_cases hf : flags &&& oCloexec ≠ 0
  · rw [if_pos hf, decide_eq_true hf]
    rfl
  · rw [if_neg hf, decide_eq_false hf]
    unfold clearCloseOnExec
    split
    next => rfl
    next hc => exact (Function.update_eq_self_iff.mpr (by simpa using hc)).symm

/-- A table in which one descriptor has been given a slot and its two bits. -/
theorem fdEntry_update (files' : FilesStruct) {slot : Option FileId} {o c : Bool}
    (hlt : fd < files.fdt.maxFds) (hm : files'.fdt.maxFds = files.fdt.maxFds)
    (hf : files'.fdt.fd = Function.update files.fdt.fd fd slot)
    (ho : files'.fdt.openFds = Function.update files.fdt.openFds fd o)
    (hc : files'.fdt.closeOnExec = Function.update files.fdt.closeOnExec fd c) (k : ℕ) :
    fdEntry files' k = if k = fd then ⟨slot, o, c⟩ else fdEntry files k := by
  unfold fdEntry
  rw [hm, hf, ho, hc]
  by_cases hk : k = fd
  · subst hk
    simp only [hlt, if_true, Function.update_self]
  · simp only [hk, if_false, Function.update_of_ne hk]

section LeastFree

theorem isLeastFree_candidateFd (h : FilesOk files) : IsLeastFree files (candidateFd files 0) := by
  obtain ⟨-, hle, hbusy, hclear⟩ := candidateFd_spec h 0
  rw [Nat.zero_max] at hle hbusy
  have hmax : candidateFd files 0 ≤ files.fdt.maxFds := hle.trans (max_le h.next_le le_rfl)
  constructor
  · by_cases hlt : candidateFd files 0 < files.fdt.maxFds
    · rw [fdEntry_of_lt hlt]
      exact hclear hlt
    · unfold fdEntry
      rw [if_neg hlt]
  · intro k hk
    rw [fdEntry_of_lt (lt_of_lt_of_le hk hmax)]
    by_cases hn : k < files.nextFd
    · exact h.next_open k hn
    · exact hbusy k (Nat.not_lt.mp hn) hk

theorem IsLeastFree.unique {f g : ℕ} (hf : IsLeastFree files f) (hg : IsLeastFree files g) :
    f = g := by
  rcases Nat.lt_trichotomy f g with hlt | heq | hlt
  · exact absurd (hf.1.symm.trans (hg.2 f hlt)) (by decide)
  · exact heq
  · exact absurd (hg.1.symm.trans (hf.2 g hlt)) (by decide)

/-- The hint, the summary and the bitmap lead to the least free descriptor. -/
theorem IsLeastFree.candidateFd_eq (h : FilesOk files) (hf : IsLeastFree files fd) :
    candidateFd files 0 = fd := (isLeastFree_candidateFd h).unique hf

theorem IsLeastFree.le_maxFds (hf : IsLeastFree files fd) : fd ≤ files.fdt.maxFds := by
  by_contra hlt
  have hopen := hf.2 files.fdt.maxFds (Nat.not_le.mp hlt)
  unfold fdEntry at hopen
  rw [if_neg (Nat.lt_irrefl _)] at hopen
  exact absurd hopen (by decide)

end LeastFree

section DupToRemote

def CanReserve (nrOpen : ℕ) (mems : List (Option RawMem)) (files : FilesStruct) (fd : ℕ) : Prop :=
  fd < files.fdt.maxFds ∨ fd < nrOpen ∧ ∃ m rest, mems = some m :: rest

/-- A table below `2^29` descriptors grows exactly for its least free one. -/
theorem growsExactly_of_lt (h : FilesOk files) (hlt : files.fdt.maxFds < 2^29)
    (hnr : nr ≤ files.fdt.maxFds) :
    GrowsExactly nrOpen files nr := by
  intro hge hsize
  have hpos := h.fdt.max_pos
  have hp : 2^fls (nr/128) ≤ 2^22 := two_pow_fls_le (by omega)
  refine ⟨hlt, ?_⟩
  rw [fdtableSize_eq nrOpen (by omega)]
  split <;> omega

/-- `__alloc_fd` without room: nothing is reserved. -/
theorem allocFd_noRoom (flags endFd : ℕ) {mems : List (Option RawMem)}
    (hno : ¬ (candidateFd files 0 < endFd ∧ CanReserve nrOpen mems files (candidateFd files 0))) :
    ∃ e, 0 < e ∧ allocFd nrOpen 0 endFd flags mems files = (-e, files) := by
  unfold allocFd
  dsimp only
  by_cases hend : candidateFd files 0 ≥ endFd
  · rw [if_pos hend]
    exact ⟨EMFILE, by decide, rfl⟩
  have hno' : ¬ CanReserve nrOpen mems files (candidateFd files 0) := fun hc => hno ⟨by omega, hc⟩
  rw [if_neg hend, if_neg (fun hlt => hno' (.inl hlt))]
  cases mems with
  | nil =>
    dsimp only
    split
    · exact ⟨EMFILE, by decide, rfl⟩
    · exact ⟨ENOMEM, by decide, rfl⟩
  | cons mem mems =>
    dsimp only
    rcases expandFiles_cases nrOpen mem files (candidateFd files 0) with
      ⟨hlt, -⟩ | ⟨-, e, he, hr⟩ | ⟨hge, -, m, rfl, hr⟩
    · exact absurd (.inl hlt) hno'
    · rw [hr, if_pos (by dsimp only; omega)]
      exact ⟨e, he, rfl⟩
    · -- the table cannot have grown: the descriptor is past `sysctl_nr_open`
      have hopen : candidateFd files 0 ≥ nrOpen := by
        by_contra hlt
        exact hno' (.inr ⟨by omega, m, mems, rfl⟩)
      unfold expandFiles at hr
      rw [if_neg (by omega), if_pos hopen] at hr
      exact absurd (show -EMFILE = 1 from congrArg Prod.fst hr) (by decide)

/-- `__alloc_fd` with room reserves the least free descriptor. -/
theorem allocFd_room (h : FilesOk files) (hlt : files.fdt.maxFds < 2^29) (flags endFd : ℕ)
    {mems : List (Option RawMem)} (hend : candidateFd files 0 < endFd)
    (hcan : CanReserve nrOpen mems files (candidateFd files 0)) :
    ∃ files', allocFd nrOpen 0 endFd flags mems files = ((candidateFd files 0 : ℤ), files') ∧
      candidateFd files 0 < files'.fdt.maxFds ∧
      ∀ k, fdEntry files' k = if k = candidateFd files 0 then
        ⟨none, true, decide (flags &&& oCloexec ≠ 0)⟩ else fdEntry files k := by
  have hmax := (isLeastFree_candidateFd h).le_maxFds
  have hx : GrowsExactly nrOpen files (candidateFd files 0) := growsExactly_of_lt h hlt hmax
  rcases allocFd_cases h nrOpen 0 endFd flags mems hx with
    ⟨e, he, hr⟩ | ⟨grown, hok, hgrown, hcand, hroom, -, hr⟩
  · -- a failure contradicts the room there is
    exfalso
    unfold allocFd at hr
    dsimp only at hr
    rw [if_neg (Nat.not_le.mpr hend)] at hr
    rcases hcan with hin | ⟨hopen, m, rest, rfl⟩
    · rw [if_pos hin] at hr
      have := congrArg Prod.fst hr
      dsimp only at this
      omega
    · have hsize := lt_fdtableSize (show candidateFd files 0 < 2^31 by omega) hopen
      by_cases hin : candidateFd files 0 < files.fdt.maxFds
      · rw [if_pos hin] at hr
        have := congrArg Prod.fst hr
        dsimp only at this
        omega
      have hexp : expandFiles nrOpen (some m) files (candidateFd files 0) = (1, { files with
          fdt := copyFdtable (m.table (fdtableSize nrOpen (candidateFd files 0))) files.fdt }) := by
        unfold expandFiles
        rw [if_neg hin, if_neg (by omega)]
        exact if_neg (Nat.not_le.mpr hsize)
      rw [if_neg hin] at hr
      dsimp only at hr
      rw [hexp, if_neg (show ¬ (1:ℤ) < 0 by decide)] at hr
      have hle := le_allocFd_maxFds nrOpen 0 endFd flags rest { files with
        fdt := copyFdtable (m.table (fdtableSize nrOpen (candidateFd files 0))) files.fdt }
      rw [hr] at hle
      exact absurd (show fdtableSize nrOpen (candidateFd files 0) ≤ files.fdt.maxFds from hle)
        (by omega)
  · have hsame := fdEntry_grown h.fdt hx hgrown hroom
    have hbit : (fdEntry grown (candidateFd files 0)).isOpen = false := by
      rw [hsame]
      exact (isLeastFree_candidateFd h).1
    rw [fdEntry_of_lt hroom] at hbit
    have hnone := hok.slot_none hroom hbit
    refine ⟨_, hr, by rwa [takeFd_maxFds], fun k => ?_⟩
    rw [takeFd_eq hnone, ← hsame k]
    apply fdEntry_update _ hroom
    · simp
    · simp [← hnone]
    · simp
    · rw [markCloexec_closeOnExec, setOpenFd_closeOnExec]

theorem FdSys.fput_getFile (s : FdSys) (f : FileId) : (s.getFile f).fput f = s := by
  unfold FdSys.getFile FdSys.fput
  dsimp only
  rw [Function.update_self, Function.update_idem, add_sub_cancel_right, Function.update_eq_self]

theorem FdSys.setFiles_eq_self (s : FdSys) (i : FilesId) : s.setFiles i (s.files i) = s := by
  unfold FdSys.setFiles
  rw [Function.update_eq_self]

theorem FdSys.setFiles_other (s : FdSys) {i j : FilesId} (h : j ≠ i) (f : FilesStruct) :
    (s.setFiles i f).files j = s.files j := Function.update_of_ne h _ _

theorem FdSys.getFile_fCount (s : FdSys) (f g : FileId) :
    (s.getFile f).fCount g = s.fCount g + holds (some f) g := by
  unfold FdSys.getFile holds
  by_cases hg : g = f
  · subst hg
    simp
  · simp [hg, Ne.symm hg]

theorem FdSys.fput_fCount (s : FdSys) (f g : FileId) :
    (s.fput f).fCount g = s.fCount g - holds (some f) g := by
  unfold FdSys.fput holds
  by_cases hg : g = f
  · subst hg
    simp
  · simp [hg, Ne.symm hg]

/-- A loop that takes or drops one reference for each file of a list. -/
theorem FdSys.foldl_fCount {step : FdSys → FileId → FdSys} {c : ℤ}
    (hstep : ∀ s g f, (step s g).fCount f = s.fCount f+c*holds (some g) f) (s : FdSys)
    (l : List FileId) (f : FileId) :
    (l.foldl step s).fCount f = s.fCount f+c*l.count f := by
  induction l generalizing s with
  | nil => simp
  | cons g l ih =>
    rw [List.foldl_cons, ih, hstep, List.count_cons]
    unfold holds
    by_cases hg : g = f
    · simp only [hg, if_true, beq_self_eq_true]
      push_cast
      ring
    · have hne : ¬some g = some f := fun heq => hg (Option.some.inj heq)
      simp [hg, hne]

/-- Without room the reference is dropped again. -/
theorem allocInstall_noRoom (env : FdEnv) {mems : List (Option RawMem)}
    (hno : ¬ (candidateFd (s.files child) 0 < env.rlimNofile % 2^32 ∧
      CanReserve env.nrOpen mems (s.files child) (candidateFd (s.files child) 0))) :
    (allocInstall env mems child file flags (s.getFile file)).1 < 0 ∧
      (allocInstall env mems child file flags (s.getFile file)).2 = s := by
  obtain ⟨e, he, hr⟩ := allocFd_noRoom flags.toNat (env.rlimNofile % 2^32) hno
  unfold allocInstall
  dsimp only
  rw [FdSys.getFile_files, hr, if_neg (by dsimp only; omega)]
  refine ⟨by dsimp only; omega, ?_⟩
  have hset : (s.getFile file).setFiles child (s.files child) = s.getFile file :=
    FdSys.setFiles_eq_self (s.getFile file) child
  dsimp only
  rw [hset, FdSys.fput_getFile]

/-- With room the file becomes the least free descriptor. -/
theorem allocInstall_room (h : FilesOk (s.files child)) (hlt : (s.files child).fdt.maxFds < 2^29)
    (env : FdEnv) (file : FileId) (flags : BitVec 32) {mems : List (Option RawMem)}
    (hend : candidateFd (s.files child) 0 < env.rlimNofile % 2^32)
    (hcan : CanReserve env.nrOpen mems (s.files child) (candidateFd (s.files child) 0)) :
    (allocInstall env mems child file flags (s.getFile file)).1 = candidateFd (s.files child) 0 ∧
      FilePlaced s child (candidateFd (s.files child) 0) file
        (decide (flags.toNat &&& oCloexec ≠ 0))
        (allocInstall env mems child file flags (s.getFile file)).2 := by
  obtain ⟨files', hr, hroom, hentry⟩ :=
    allocFd_room h hlt flags.toNat (env.rlimNofile % 2^32) hend hcan
  have hfree := fdEntry_file_none h (isLeastFree_candidateFd h).1
  generalize candidateFd (s.files child) 0 = fd at hr hroom hentry hfree ⊢
  have hslot := hentry fd
  rw [if_pos rfl, fdEntry_of_lt hroom] at hslot
  have hnone : files'.fdt.fd fd = none := congrArg FdEntry.file hslot
  have hopen : files'.fdt.openFds fd = true := congrArg FdEntry.isOpen hslot
  have hcloexec := congrArg FdEntry.cloexec hslot
  have hinst : fdInstall files' fd file = some { files' with
      fdt := { files'.fdt with fd := Function.update files'.fdt.fd fd (some file) } } :=
    if_neg (by rw [hnone]; exact fun hne => hne rfl)
  unfold allocInstall
  dsimp only
  rw [FdSys.getFile_files, hr, if_pos (Int.natCast_nonneg fd)]
  refine ⟨rfl, ?_⟩
  unfold FdSys.fdInstall
  dsimp only
  rw [FdSys.setFiles_self, Int.toNat_natCast, hinst]
  constructor
  · intro k
    have hinstalled := fdEntry_update { files' with
        fdt := { files'.fdt with fd := Function.update files'.fdt.fd fd (some file) } }
          hroom rfl rfl
      (Function.update_eq_self_iff.mpr hopen.symm).symm
        (Function.update_eq_self_iff.mpr hcloexec.symm).symm k
    dsimp only
    rw [FdSys.setFiles_self, hinstalled, hentry]
    split <;> rfl
  · intro j hj
    dsimp only
    rw [FdSys.setFiles_other _ hj, FdSys.setFiles_other _ hj, FdSys.getFile_files]
  · intro g
    rw [hfree, holds_none, sub_zero]
    exact FdSys.getFile_fCount s file g

/-- The two flag words the requests take. -/
def CloexecFlags (flags : BitVec 32) : Prop := flags = 0 ∨ flags = BitVec.ofNat 32 oCloexec

theorem CloexecFlags.good (h : CloexecFlags flags) : ¬ badFlags flags = true := by
  rcases h with rfl | rfl <;> decide

theorem CloexecFlags.bit (h : CloexecFlags flags) :
    decide (flags.toNat &&& oCloexec ≠ 0) = decide (flags = BitVec.ofNat 32 oCloexec) := by
  rcases h with rfl | rfl <;> decide

/-- `PTRACE_DUP_TO_REMOTE` as `dup` on the table `child`. The limit is the `unsigned` end of the
search. -/
def DupsLowest (env : FdEnv) (mems : List (Option RawMem)) (cur child : FilesId)
    (localFd flags : BitVec 32) (s : FdSys) : Prop :=
  let r := ptraceDupToRemote env mems cur child (some ⟨localFd, flags⟩) s
  ∀ f, IsLeastFree (s.files child) f →
    (∀ file, s.slot cur localFd.toNat = some file → f < env.rlimNofile % 2^32 →
      CanReserve env.nrOpen mems (s.files child) f →
      r.1 = f ∧ FilePlaced s child f file (decide (flags = BitVec.ofNat 32 oCloexec)) r.2) ∧
    (s.slot cur localFd.toNat = none ∨ ¬ f < env.rlimNofile % 2^32 ∨
      ¬ CanReserve env.nrOpen mems (s.files child) f → r.1 < 0 ∧ r.2 = s)

theorem dupsLowest_of_small (env : FdEnv) (mems : List (Option RawMem)) (cur child : FilesId)
    (localFd flags : BitVec 32) (h : FilesOk (s.files child))
    (hlt : (s.files child).fdt.maxFds < 2^29) (hflags : CloexecFlags flags) :
    DupsLowest env mems cur child localFd flags s := by
  unfold DupsLowest
  intro r f hf
  have hcand := hf.candidateFd_eq h
  have hr : r = ptraceDupToRemote env mems cur child (some ⟨localFd, flags⟩) s := rfl
  clear_value r
  unfold ptraceDupToRemote at hr
  dsimp only at hr
  rw [if_neg hflags.good] at hr
  constructor
  · intro file hslot hend hcan
    rw [fgetFiles_slot env.fMode 0 hslot, Nat.and_zero, if_pos rfl] at hr
    rw [← hcand] at hend hcan
    have hroom := allocInstall_room h hlt env file flags hend hcan
    rw [hr, ← hcand, ← hflags.bit]
    exact hroom
  · intro hno
    rcases hslot : s.slot cur localFd.toNat with _ | file
    · have hget : fgetFiles env.fMode (s.files cur) localFd.toNat 0 = none := by
        unfold fgetFiles
        rw [show fcheckFiles (s.files cur) localFd.toNat = none from hslot]
        rfl
      rw [hget] at hr
      rw [hr]
      exact ⟨show -EBADF < 0 by decide, rfl⟩
    · rw [fgetFiles_slot env.fMode 0 hslot, Nat.and_zero, if_pos rfl] at hr
      have hnoRoom : ¬ (candidateFd (s.files child) 0 < env.rlimNofile % 2^32 ∧
          CanReserve env.nrOpen mems (s.files child) (candidateFd (s.files child) 0)) := by
        rw [hcand]
        rintro ⟨hend, hcan⟩
        rcases hno with hnone | hno | hno
        · exact nomatch hslot.symm.trans hnone
        · exact hno hend
        · exact hno hcan
      rw [hr]
      exact allocInstall_noRoom env hnoRoom

/-- `PTRACE_DUP_TO_REMOTE` behaves as `dup` on the table of the tracee: the file becomes its least
free descriptor, or nothing changes at all. -/
theorem dupToRemote_lowest (env : FdEnv) (mems : List (Option RawMem)) (cur child : FilesId)
    (localFd flags : BitVec 32) (s : FdSys) (hne : cur ≠ child) (h : FilesOk (s.files child))
    (hlt : (s.files child).fdt.maxFds < 2^29) (hflags : CloexecFlags flags) :
    DupsLowest env mems cur child localFd flags s ∧
      (ptraceDupToRemote env mems cur child (some ⟨localFd, flags⟩) s).2.files cur =
        s.files cur := by
  have hdup := dupsLowest_of_small env mems cur child localFd flags h hlt hflags
  refine ⟨hdup, ?_⟩
  obtain ⟨hok, hfail⟩ := hdup _ (isLeastFree_candidateFd h)
  by_cases hroom : candidateFd (s.files child) 0 < env.rlimNofile % 2^32 ∧
      CanReserve env.nrOpen mems (s.files child) (candidateFd (s.files child) 0)
  · rcases hslot : s.slot cur localFd.toNat with _ | file
    · rw [(hfail (.inl hslot)).2]
    · exact (hok file hslot hroom.1 hroom.2).2.others cur hne
  · rw [(hfail (.inr (not_and_or.mp hroom))).2]

/-- Descriptor 0 of the tracer becomes descriptor 1 of the tracee. -/
theorem dupToRemote_lowest_twoTables :
    (ptraceDupToRemote (smallEnv 0) [] 0 1 (some ⟨0, 0⟩) twoTables).1 = 1 ∧
      FilePlaced twoTables 1 1 7 false
        (ptraceDupToRemote (smallEnv 0) [] 0 1 (some ⟨0, 0⟩) twoTables).2 := by
  have hleast : IsLeastFree (twoTables.files 1) 1 := ⟨by decide, by decide⟩
  have hdup := (dupToRemote_lowest (smallEnv 0) [] 0 1 0 0 twoTables (by decide) (filesOk_oneFile 8)
    (by decide) (.inl rfl)).1 1 hleast
  exact hdup.1 7 rfl (by decide) (.inl (by decide))

end DupToRemote

section Dup2ToRemote

def CanHold (nrOpen : ℕ) (mem : Option RawMem) (files : FilesStruct) (fd : ℕ) : Prop :=
  fd < files.fdt.maxFds ∨ fd < nrOpen ∧ fd < fdtableSize nrOpen fd ∧ mem ≠ none

/-- `expand_files` fails exactly if the table cannot hold the descriptor, and then leaves it
alone. -/
theorem expandFiles_canHold (nrOpen : ℕ) (mem : Option RawMem) (files : FilesStruct) (fd : ℕ) :
    (CanHold nrOpen mem files fd ∧ 0 ≤ (expandFiles nrOpen mem files fd).1 ∧
      fd < (expandFiles nrOpen mem files fd).2.fdt.maxFds) ∨
    (¬ CanHold nrOpen mem files fd ∧ (expandFiles nrOpen mem files fd).1 < 0 ∧
      (expandFiles nrOpen mem files fd).2 = files) := by
  by_cases hin : fd < files.fdt.maxFds
  · have hr : expandFiles nrOpen mem files fd = (0, files) := if_pos hin
    rw [hr]
    exact .inl ⟨.inl hin, le_rfl, hin⟩
  by_cases hopen : fd < nrOpen
  · have hr : expandFiles nrOpen mem files fd = expandFdtable nrOpen mem files fd := by
      unfold expandFiles
      rw [if_neg hin, if_neg (Nat.not_le.mpr hopen)]
    rw [hr]
    cases mem with
    | none =>
      refine .inr ⟨?_, show -ENOMEM < 0 by decide, rfl⟩
      rintro (hlt | ⟨-, -, hm⟩)
      · exact hin hlt
      · exact hm rfl
    | some m =>
      by_cases hsize : fd < fdtableSize nrOpen fd
      · have hgrow : expandFdtable nrOpen (some m) files fd =
            (1, { files with fdt := copyFdtable (m.table (fdtableSize nrOpen fd)) files.fdt }) :=
          if_neg (Nat.not_le.mpr hsize)
        rw [hgrow]
        exact .inl ⟨.inr ⟨hopen, hsize, fun hm => nomatch hm⟩, show (0:ℤ) ≤ 1 by decide, hsize⟩
      · have hfail : expandFdtable nrOpen (some m) files fd = (-EMFILE, files) :=
          if_pos (Nat.not_lt.mp hsize)
        rw [hfail]
        refine .inr ⟨?_, show -EMFILE < 0 by decide, rfl⟩
        rintro (hlt | ⟨-, hs, -⟩)
        · exact hin hlt
        · exact hsize hs
  · have hr : expandFiles nrOpen mem files fd = (-EMFILE, files) := by
      unfold expandFiles
      rw [if_neg hin, if_pos (Nat.not_lt.mp hopen)]
    rw [hr]
    refine .inr ⟨?_, show -EMFILE < 0 by decide, rfl⟩
    rintro (hlt | ⟨hlt, -⟩)
    · exact hin hlt
    · exact hopen hlt

def Reserved (files : FilesStruct) (fd : ℕ) : Prop :=
  (fdEntry files fd).file = none ∧ (fdEntry files fd).isOpen = true

/-- `do_dup2` on a descriptor of the table. -/
theorem FdSys.doDup2_placed (s : FdSys) (i : FilesId) (file : FileId) (flags : ℕ)
    (hlt : fd < (s.files i).fdt.maxFds) :
    (Reserved (s.files i) fd ∧ s.doDup2 i file fd flags = (-EBUSY, s)) ∨
    (¬ Reserved (s.files i) fd ∧ (s.doDup2 i file fd flags).1 = fd ∧
      FilePlaced s i fd file (decide (flags &&& oCloexec ≠ 0)) (s.doDup2 i file fd flags).2) := by
  have hentry := fdEntry_of_lt hlt
  unfold Reserved
  rw [hentry]
  by_cases hres : (s.files i).fdt.fd fd = none ∧ (s.files i).fdt.openFds fd = true
  · refine .inl ⟨hres, ?_⟩
    unfold FdSys.doDup2 PtraceRemote.doDup2
    dsimp only
    rw [if_pos hres, if_pos (show -EBUSY < 0 by decide)]
  · refine .inr ⟨hres, ?_⟩
    let fdt := markCloexec flags fd (setOpenFd fd
      { (s.files i).fdt with fd := Function.update (s.files i).fdt.fd fd (some file) })
    let done := (s.getFile file).setFiles i { s.files i with fdt := fdt }
    have hr :
        s.doDup2 i file fd flags = ((fd : ℤ), ((s.files i).fdt.fd fd).elim done done.fput) := by
      unfold FdSys.doDup2 PtraceRemote.doDup2
      dsimp only
      rewrite [if_neg hres, if_neg (show ¬ (fd : ℤ) < 0 by omega)]
      cases (s.files i).fdt.fd fd <;> rfl
    have hfiles : (s.doDup2 i file fd flags).2.files = done.files := by
      rw [hr]
      cases (s.files i).fdt.fd fd <;> rfl
    refine ⟨by rw [hr], fun k => ?_, fun j hj => ?_, fun g => ?_⟩
    · rw [hfiles, FdSys.setFiles_self]
      apply fdEntry_update _ hlt
      · simp [fdt]
      · simp [fdt]
      · simp [fdt]
      · simp only [fdt, markCloexec_closeOnExec, setOpenFd_closeOnExec]
    · rw [hfiles]
      exact FdSys.setFiles_other _ hj _
    · -- `get_file` first, and `filp_close` of the replaced file, which may be the same one
      rw [hr, hentry]
      rcases (s.files i).fdt.fd fd with _ | f
      · rw [holds_none, sub_zero]
        exact FdSys.getFile_fCount s file g
      · rw [Option.elim_some, FdSys.fput_fCount, ← FdSys.getFile_fCount]
        rfl

/-- Replacing a table by one with the same entries. -/
theorem SameEntries.setFiles (s : FdSys) {i : FilesId}
    (h : ∀ k, fdEntry files k = fdEntry (s.files i) k) :
    SameEntries s (s.setFiles i files) := by
  refine ⟨fun j k => ?_, rfl⟩
  by_cases hj : j = i
  · subst hj
    rw [FdSys.setFiles_self]
    exact h k
  · rw [FdSys.setFiles_other _ hj]

theorem FilePlaced.of_setFiles {i : FilesId} {c : Bool}
    (h : FilePlaced (s.setFiles i files) i fd file c s')
    (hsame : ∀ k, fdEntry files k = fdEntry (s.files i) k) : FilePlaced s i fd file c s' := by
  refine ⟨fun k => ?_, fun j hj => ?_, fun g => ?_⟩
  · rw [h.entry, FdSys.setFiles_self, hsame]
  · rw [h.others j hj, FdSys.setFiles_other _ hj]
  · rw [h.counts, FdSys.setFiles_self, hsame]
    rfl

def Dup2Fails (env : FdEnv) (mem : Option RawMem) (cur child : FilesId)
    (localFd remoteFd : BitVec 32) (s : FdSys) : Prop :=
  s.slot cur localFd.toNat = none ∨ ¬ CanHold env.nrOpen mem (s.files child) remoteFd.toNat ∨
    Reserved (s.files child) remoteFd.toNat

/-- `PTRACE_DUP2_TO_REMOTE` replaces one entry of the table `child`, or none. -/
def Dup2Exact (env : FdEnv) (mem : Option RawMem) (cur child : FilesId)
    (localFd remoteFd flags : BitVec 32) (s : FdSys) : Prop :=
  let r := ptraceDup2ToRemote env mem cur child (some ⟨localFd, remoteFd, flags⟩) s
  (Dup2Fails env mem cur child localFd remoteFd s → r.1 < 0 ∧ SameEntries s r.2) ∧
    (¬ Dup2Fails env mem cur child localFd remoteFd s → ∃ file,
      s.slot cur localFd.toNat = some file ∧ r.1 = remoteFd.toNat ∧
      FilePlaced s child remoteFd.toNat file (decide (flags = BitVec.ofNat 32 oCloexec)) r.2)

/-- No path of the common tail changes the capacity after `expand_files`. -/
theorem expandDup2_maxFds (env : FdEnv) (mem : Option RawMem) (cur i : FilesId) (oldfd newfd : ℕ)
    (flags : BitVec 32) (s : FdSys) :
    ((expandDup2 env mem cur i oldfd newfd flags s).2.files i).fdt.maxFds =
      (expandFiles env.nrOpen mem (s.files i) newfd).2.fdt.maxFds := by
  unfold expandDup2
  dsimp only
  split
  · rw [FdSys.setFiles_self]
  · split
    · split <;> rw [FdSys.setFiles_self]
    · rw [doDup2_maxFds, FdSys.setFiles_self]

theorem filesOk_expandDup2 (h : FilesOk (s.files child)) (env : FdEnv) (mem : Option RawMem)
    (cur : FilesId) (oldfd newfd : ℕ) (flags : BitVec 32)
    (hlt : ((expandDup2 env mem cur child oldfd newfd flags s).2.files child).fdt.maxFds < 2^29) :
    FilesOk ((expandDup2 env mem cur child oldfd newfd flags s).2.files child) := by
  rw [expandDup2_maxFds] at hlt
  obtain ⟨hok, -⟩ := expandFiles_entry h hlt
  rcases expandFiles_canHold env.nrOpen mem (s.files child) newfd with
    ⟨-, hpos, hroom⟩ | ⟨-, hneg, hsame⟩
  · unfold expandDup2
    dsimp only
    split
    · rwa [FdSys.setFiles_self]
    · rw [if_neg (Int.not_lt.mpr hpos)]
      unfold FdSys.doDup2
      dsimp only
      rw [FdSys.setFiles_self]
      have hdone := filesOk_doDup2 hok ‹_› hroom flags.toNat
      split
      · rwa [FdSys.setFiles_self]
      · split
        · rwa [FdSys.setFiles_self]
        · rwa [FdSys.fput_files, FdSys.setFiles_self]
  · unfold expandDup2
    dsimp only
    split
    · rwa [FdSys.setFiles_self]
    · rw [if_pos hneg]
      split <;> rwa [FdSys.setFiles_self]

/-- The tail of `do_dup2_to_remote`, the table of the tracee growing below `2^29` descriptors. -/
theorem dup2Exact_of_small (env : FdEnv) (mem : Option RawMem) (localFd remoteFd : BitVec 32)
    (hne : cur ≠ child) (h : FilesOk (s.files child)) (hflags : CloexecFlags flags)
    (hlim : remoteFd.toNat < env.rlimNofile)
    (hlt : ((ptraceDup2ToRemote env mem cur child (some ⟨localFd, remoteFd, flags⟩) s).2.files
      child).fdt.maxFds < 2^29) :
    Dup2Exact env mem cur child localFd remoteFd flags s := by
  have hr : ptraceDup2ToRemote env mem cur child (some ⟨localFd, remoteFd, flags⟩) s =
      expandDup2 env mem cur child localFd.toNat remoteFd.toNat flags s := by
    unfold ptraceDup2ToRemote doDup2ToRemote
    dsimp only
    rw [if_neg hflags.good, if_neg (Nat.not_le.mpr hlim)]
  rw [hr, expandDup2_maxFds] at hlt
  obtain ⟨-, hsame⟩ := expandFiles_entry h hlt
  have hkeep := SameEntries.setFiles s hsame
  unfold Dup2Exact Dup2Fails
  dsimp only
  rw [hr]
  generalize remoteFd.toNat = fd at *
  have hcanHold := expandFiles_canHold env.nrOpen mem (s.files child) fd
  unfold expandDup2
  generalize expandFiles env.nrOpen mem (s.files child) fd = r at *
  dsimp only
  have hcur : fcheckFiles ((s.setFiles child r.2).files cur) localFd.toNat =
      s.slot cur localFd.toNat := by
    rw [FdSys.setFiles_other _ hne]
    rfl
  rw [hcur]
  rcases hslot : s.slot cur localFd.toNat with _ | file
  · exact ⟨fun _ => ⟨show -EBADF < 0 by decide, hkeep⟩, fun hno => absurd (.inl rfl) hno⟩
  dsimp only
  rcases hcanHold with ⟨hcan, hpos, hroom⟩ | ⟨hcan, hneg, -⟩
  · rw [if_neg (Int.not_lt.mpr hpos)]
    have hroom' : fd < ((s.setFiles child r.2).files child).fdt.maxFds := by
      rwa [FdSys.setFiles_self]
    have hres : Reserved ((s.setFiles child r.2).files child) fd ↔ Reserved (s.files child) fd := by
      unfold Reserved
      rw [FdSys.setFiles_self, hsame]
    rcases (s.setFiles child r.2).doDup2_placed child file flags.toNat hroom' with
      ⟨hbusy, hfail⟩ | ⟨hfree, hret, hplaced⟩
    · rw [hfail]
      exact ⟨fun _ => ⟨show -EBUSY < 0 by decide, hkeep⟩,
        fun hno => absurd (.inr (.inr (hres.mp hbusy))) hno⟩
    · refine ⟨fun hfail => ?_, fun _ => ⟨file, rfl, hret, ?_⟩⟩
      · rcases hfail with hnone | hno | hbusy
        · exact nomatch hnone
        · exact absurd hcan hno
        · exact absurd (hres.mpr hbusy) hfree
      · rw [← hflags.bit]
        exact hplaced.of_setFiles hsame
  · rw [if_pos hneg]
    refine ⟨fun _ => ?_, fun hno => absurd (.inr (.inl hcan)) hno⟩
    split
    · exact ⟨show -EBADF < 0 by decide, hkeep⟩
    · exact ⟨hneg, hkeep⟩

def Dup2Run (child : FilesId) : FdSys → FdSys → Prop :=
  Relation.ReflTransGen fun s s' => ∃ env mem cur data,
    s' = (ptraceDup2ToRemote env mem cur child data s).2 ∧ (s'.files child).fdt.maxFds < 2^29

theorem filesOk_dup2ToRemote (h : FilesOk (s.files child)) (env : FdEnv) (mem : Option RawMem)
    (cur : FilesId) (data : Option Dup2ToRemoteArgs)
    (hlt : ((ptraceDup2ToRemote env mem cur child data s).2.files child).fdt.maxFds < 2^29) :
    FilesOk ((ptraceDup2ToRemote env mem cur child data s).2.files child) := by
  rcases ptraceDup2ToRemote_cases env mem cur child s data with ⟨e, -, hr⟩ | ⟨args, -, hr⟩
  · rw [hr]
    exact h
  · rw [hr] at hlt ⊢
    exact filesOk_expandDup2 h env mem cur _ _ _ hlt

/-- A run keeps the table usable, the hint for the next descriptor included. -/
theorem Dup2Run.filesOk (hrun : Dup2Run child s s') (h : FilesOk (s.files child))
    (hlt : (s.files child).fdt.maxFds < 2^29) :
    FilesOk (s'.files child) ∧ (s'.files child).fdt.maxFds < 2^29 := by
  induction hrun with
  | refl => exact ⟨h, hlt⟩
  | tail _ hstep ih =>
    obtain ⟨env, mem, cur, data, rfl, hlt'⟩ := hstep
    exact ⟨filesOk_dup2ToRemote ih.1 env mem cur data hlt', hlt'⟩

/-- After any number of `PTRACE_DUP2_TO_REMOTE` requests the next one replaces exactly one entry,
and the next `PTRACE_DUP_TO_REMOTE` finds the least free descriptor. -/
theorem dup2ToRemote_exact (child : FilesId) (s s' : FdSys) (hrun : Dup2Run child s s')
    (h : FilesOk (s.files child)) (hlt : (s.files child).fdt.maxFds < 2^29) :
    (∀ (env : FdEnv) (mem : Option RawMem) (cur : FilesId) (localFd remoteFd flags : BitVec 32),
      cur ≠ child → CloexecFlags flags → remoteFd.toNat < env.rlimNofile →
      ((ptraceDup2ToRemote env mem cur child (some ⟨localFd, remoteFd, flags⟩) s').2.files
        child).fdt.maxFds < 2^29 →
      Dup2Exact env mem cur child localFd remoteFd flags s') ∧
    (∀ (env : FdEnv) (mems : List (Option RawMem)) (cur : FilesId) (localFd flags : BitVec 32),
      CloexecFlags flags → DupsLowest env mems cur child localFd flags s') := by
  obtain ⟨hok, hsmall⟩ := hrun.filesOk h hlt
  constructor
  · intro env mem cur localFd remoteFd flags hne hflags hlim hgrown
    exact dup2Exact_of_small env mem localFd remoteFd hne hok hflags hlim hgrown
  · intro env mems cur localFd flags hflags
    exact dupsLowest_of_small env mems cur child localFd flags hok hsmall hflags

/-- Descriptor 0 of the tracer replaces descriptor 0 of the tracee, and then goes to its descriptor
1. -/
theorem dup2ToRemote_exact_twoTables :
    let s := (ptraceDup2ToRemote (smallEnv 0) none 0 1 (some ⟨0, 0, 0⟩) twoTables).2
    Dup2Exact (smallEnv 0) none 0 1 0 0 0 twoTables ∧ DupsLowest (smallEnv 0) [] 0 1 0 0 s := by
  intro s
  have hrun : Dup2Run 1 twoTables s :=
    Relation.ReflTransGen.single ⟨smallEnv 0, none, 0, some ⟨0, 0, 0⟩, rfl, by decide⟩
  have hok : FilesOk (twoTables.files 1) := filesOk_oneFile 8
  refine ⟨?_, (dup2ToRemote_exact 1 twoTables s hrun hok (by decide)).2 _ _ _ _ _ (.inl rfl)⟩
  exact (dup2ToRemote_exact 1 twoTables twoTables .refl hok (by decide)).1 _ _ _ _ _ _ (by decide)
    (.inl rfl) (by decide) (by decide)

end Dup2ToRemote

end PtraceRemote
