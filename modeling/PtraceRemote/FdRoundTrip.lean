import PtraceRemote.FdRun
import PtraceRemote.FdSlots

/-! A descriptor that goes to the tracee and back: `PTRACE_DUP_TO_REMOTE`, `PTRACE_DUP_FROM_REMOTE`
and the two closes that undo them. The two halves meet at `Installed`. -/
namespace PtraceRemote
open Bitmap

def FdSys.slot (s : FdSys) (i : FilesId) (fd : ℕ) : Option FileId := fcheckFiles (s.files i) fd

structure Installed (s : FdSys) (i : FilesId) (fd : ℕ) (file : FileId) (s' : FdSys) : Prop where
  free : s.slot i fd = none
  slot : ∀ j k, s'.slot j k = if j = i ∧ k = fd then some file else s.slot j k
  fCount : s'.fCount = s.fCount
  ok : FdSysOk s'

/-- A table with a free descriptor below the limit: in the table as it is, or in the one it can grow
to. -/
def HasRoom (env : FdEnv) (mems : List (Option RawMem)) (files : FilesStruct) : Prop :=
  (∃ fd, fd < files.fdt.maxFds ∧ fd < env.rlimNofile % 2^32 ∧ files.fdt.openFds fd = false) ∨
    (files.fdt.maxFds < env.rlimNofile % 2^32 ∧ files.fdt.maxFds < env.nrOpen ∧
      files.fdt.maxFds < fdtableSize env.nrOpen files.fdt.maxFds ∧ ∃ m rest, mems = some m :: rest)

variable {s s' : FdSys} {i : FilesId} {fd : ℕ} {file : FileId} {files : FilesStruct}

theorem slot_setFiles (s : FdSys) (i j : FilesId) (f : FilesStruct) (k : ℕ) :
    (s.setFiles i f).slot j k = if j = i then fcheckFiles f k else s.slot j k := by
  unfold FdSys.slot
  by_cases hj : j = i
  · rw [if_pos hj, hj, FdSys.setFiles_self]
  · rw [if_neg hj]
    exact congrArg (fcheckFiles · k) (Function.update_of_ne hj _ _)

/-- Reserving a descriptor and installing the file in it. -/
theorem allocInstall_spec (h : FdSysOk s) (env : FdEnv) (mems : List (Option RawMem)) (i : FilesId)
    (file : FileId) (flags : BitVec 32)
    (hx : GrowsExactly env.nrOpen (s.files i) (candidateFd (s.files i) 0)) :
    let r := allocInstall env mems i file flags s
    r.1 < 0 ∨ r.1 = (candidateFd (s.files i) 0 : ℤ) ∧ candidateFd (s.files i) 0 < 2^32 ∧
      Installed s i (candidateFd (s.files i) 0) file r.2 := by
  dsimp only
  unfold allocInstall
  dsimp only
  rcases allocFd_slot (h i) env.nrOpen (env.rlimNofile % 2^32) flags.toNat mems hx with
    ⟨e, he, hr⟩ | ⟨files', hr, hend, hlt, hnone, hopen, hok, hslot⟩
  · have hneg : -e < 0 := by omega
    rw [hr, if_neg (not_le.2 hneg)]
    exact .inl hneg
  · rw [hr]
    dsimp only
    rw [if_pos (Int.natCast_nonneg _), Int.toNat_natCast]
    set fd := candidateFd (s.files i) 0
    have hinst : PtraceRemote.fdInstall files' fd file =
        some { files' with
               fdt := { files'.fdt with fd := Function.update files'.fdt.fd fd (some file) } } :=
      if_neg (not_not.2 hnone)
    have hsys : (s.setFiles i files').fdInstall i fd file = (s.setFiles i files').setFiles i
        { files' with
          fdt := { files'.fdt with fd := Function.update files'.fdt.fd fd (some file) } } := by
      rw [FdSys.fdInstall, FdSys.setFiles_self, hinst]
    rw [hsys]
    refine .inr ⟨rfl, hend.trans (Nat.mod_lt _ (by norm_num)), ?_, fun j k => ?_, rfl, ?_⟩
    · have hs := hslot fd
      rw [fcheckFiles, if_pos hlt, hnone] at hs
      exact hs.symm
    · rw [slot_setFiles, slot_setFiles]
      by_cases hj : j = i
      · subst hj
        have hupd := fcheckFiles_update files' { files' with
          fdt := { files'.fdt with fd := Function.update files'.fdt.fd fd (some file) } }
            hlt rfl rfl k
        rw [if_pos rfl, hupd]
        simp only [true_and]
        split
        · rfl
        · exact hslot k
      · simp only [hj, if_false, false_and]
    · exact (h.setFiles i hok).setFiles i (filesOk_fdInstall hok hopen hinst)

/-- Where there is room, the first free descriptor is below the limit. -/
theorem candidateFd_of_room {env : FdEnv} {mems : List (Option RawMem)} (h : FilesOk files)
    (hroom : HasRoom env mems files) : candidateFd files 0 < env.rlimNofile % 2^32 ∧
      (candidateFd files 0 < files.fdt.maxFds ∨ candidateFd files 0 = files.fdt.maxFds ∧
        files.fdt.maxFds < env.nrOpen ∧ files.fdt.maxFds < fdtableSize env.nrOpen files.fdt.maxFds ∧
        ∃ m rest, mems = some m :: rest) := by
  obtain ⟨-, hle, hbusy, -⟩ := candidateFd_spec h 0
  rw [Nat.zero_max] at hle hbusy
  have hnext := h.next_le
  rcases hroom with ⟨fd, hfd, hlim, hfree⟩ | ⟨hlim, hopen, hsize, hmem⟩
  · -- a descriptor below the candidate is busy
    have hcand : candidateFd files 0 ≤ fd := by
      by_contra hlt
      have hbit : files.fdt.openFds fd = true := by
        by_cases hn : fd < files.nextFd
        · exact h.next_open fd hn
        · exact hbusy fd (not_lt.1 hn) (not_le.1 hlt)
      rw [hbit] at hfree
      exact absurd hfree (by decide)
    exact ⟨by omega, .inl (by omega)⟩
  · refine ⟨by omega, ?_⟩
    rcases Nat.lt_or_ge (candidateFd files 0) files.fdt.maxFds with hlt | hge
    · exact .inl hlt
    · exact .inr ⟨by omega, hopen, hsize, hmem⟩

theorem allocFd_of_room {env : FdEnv} {mems : List (Option RawMem)} (flags : ℕ) (h : FilesOk files)
    (hroom : HasRoom env mems files) :
    0 ≤ (allocFd env.nrOpen 0 (env.rlimNofile % 2^32) flags mems files).1 := by
  obtain ⟨hlim, hcases⟩ := candidateFd_of_room h hroom
  unfold allocFd
  dsimp only
  rw [if_neg (not_le.2 hlim)]
  rcases hcases with hlt | ⟨heq, hopen, hsize, m, rest, rfl⟩
  · rw [if_pos hlt]
    exact Int.natCast_nonneg _
  · have hge := heq.ge
    rw [← heq] at hopen hsize
    have hexpand : expandFiles env.nrOpen (some m) files (candidateFd files 0) =
        (1, { files with
          fdt :=
            copyFdtable (m.table (fdtableSize env.nrOpen (candidateFd files 0))) files.fdt }) := by
      unfold expandFiles expandFdtable
      rw [if_neg (not_lt.2 hge), if_neg (not_le.2 hopen)]
      exact if_neg (not_le.2 hsize)
    have hdvd : 64 ∣ (m.table (fdtableSize env.nrOpen (candidateFd files 0))).maxFds :=
      fdtableSize_dvd _ _
    have hlt : candidateFd files 0 <
        (m.table (fdtableSize env.nrOpen (candidateFd files 0))).maxFds := hsize
    have hcand := candidateFd_grow h 0 hdvd hge hlt (fdtableSize_lt _ _)
    rw [if_neg (not_lt.2 hge)]
    dsimp only
    rw [hexpand, if_neg (show ¬(1 : ℤ) < 0 by decide)]
    -- the second round finds the same descriptor in the grown table
    unfold allocFd
    dsimp only
    rw [hcand, if_neg (not_le.2 hlim), copyFdtable_maxFds, if_pos hlt]
    exact Int.natCast_nonneg _

theorem allocInstall_of_room (h : FdSysOk s) (env : FdEnv) (mems : List (Option RawMem))
    (i : FilesId) (file : FileId) (flags : BitVec 32) (hroom : HasRoom env mems (s.files i)) :
    0 ≤ (allocInstall env mems i file flags s).1 := by
  have hpos := allocFd_of_room flags.toNat (h i) hroom
  unfold allocInstall
  dsimp only
  rw [if_pos hpos]
  exact hpos

/-- Closing a descriptor empties its slot and drops one reference. -/
theorem closeFd_slot (env : FdEnv) (hs : s.slot i fd = some file) :
    (∀ j k, (s.closeFd env i fd).2.slot j k = if j = i ∧ k = fd then none else s.slot j k) ∧
      (s.closeFd env i fd).2.fCount = Function.update s.fCount file (s.fCount file-1) := by
  rcases closeFd_cases (s.files i) fd with ⟨hnone, -⟩ | ⟨file', hfile, hclosed, hslot⟩
  · exact absurd (hs.symm.trans hnone) (by simp)
  · obtain rfl : file' = file := Option.some.inj (hfile.symm.trans hs)
    have hsys : (s.closeFd env i fd).2 =
        (s.setFiles i (PtraceRemote.closeFd (s.files i) fd).2).fput file' := by
      unfold FdSys.closeFd
      rw [← Prod.mk.eta (p := PtraceRemote.closeFd (s.files i) fd), hclosed]
    rw [hsys]
    refine ⟨fun j k => ?_, rfl⟩
    have hfput : ∀ t : FdSys, (t.fput file').slot j k = t.slot j k := fun _ => rfl
    rw [hfput, slot_setFiles, hslot]
    by_cases hj : j = i
    · subst hj
      simp only [if_true, true_and]
      rfl
    · simp only [hj, if_false, false_and]

/-- `__fget_files` on a descriptor in use. -/
theorem fgetFiles_slot (fMode : FileId → ℕ) (mask : ℕ) (hs : s.slot i fd = some file) :
    fgetFiles fMode (s.files i) fd mask = if fMode file &&& mask = 0 then some file else none := by
  have hs' : fcheckFiles (s.files i) fd = some file := hs
  rw [fgetFiles, hs', Option.filter_some]
  simp

/-- A request that duplicates the file of a descriptor in use. -/
theorem dupToRemote_spec (env : FdEnv) (mems : List (Option RawMem)) (cur child : FilesId)
    (localFd flags : BitVec 32) (h : FdSysOk s) (hs : s.slot cur localFd.toNat = some file)
    (hx : GrowsExactly env.nrOpen (s.files child) (candidateFd (s.files child) 0)) :
    let r := ptraceDupToRemote env mems cur child (some ⟨localFd, flags⟩) s
    r.1 < 0 ∨ ∃ fd : ℕ, r.1 = fd ∧ fd < 2^32 ∧ Installed (s.getFile file) child fd file r.2 := by
  dsimp only
  unfold ptraceDupToRemote
  dsimp only
  split
  next => exact .inl (show -EINVAL < 0 by decide)
  next =>
    rw [fgetFiles_slot env.fMode 0 hs, Nat.and_zero, if_pos rfl]
    have hok : FdSysOk (s.getFile file) := h.of_files rfl
    rcases allocInstall_spec hok env mems child file flags hx with hneg | ⟨hr, hlt, hinst⟩
    · exact .inl hneg
    · exact .inr ⟨_, hr, hlt, hinst⟩

theorem dupFromRemote_spec (env : FdEnv) (mems : List (Option RawMem)) (cur child : FilesId)
    (remoteFd flags : BitVec 32) (h : FdSysOk s) (hflags : badFlags flags = false)
    (hs : s.slot child remoteFd.toNat = some file)
    (hx : GrowsExactly env.nrOpen (s.files cur) (candidateFd (s.files cur) 0))
    (hroom : HasRoom env mems (s.files cur)) :
    let r := ptraceDupFromRemote env mems cur child (some ⟨remoteFd, flags⟩) s
    if env.fMode file &&& fmodePath = 0 then
      ∃ fd : ℕ, r.1 = fd ∧ Installed (s.getFile file) cur fd file r.2
    else r.1 < 0 := by
  dsimp only
  unfold ptraceDupFromRemote
  dsimp only
  have hgood : ¬badFlags flags = true := by rw [hflags]; decide
  rw [if_neg hgood, fgetFiles_slot env.fMode fmodePath hs]
  by_cases hmode : env.fMode file &&& fmodePath = 0
  · rw [if_pos hmode, if_pos hmode]
    have hok : FdSysOk (s.getFile file) := h.of_files rfl
    have hpos := allocInstall_of_room hok env mems cur file flags hroom
    rcases allocInstall_spec hok env mems cur file flags hx with hneg | ⟨hr, -, hinst⟩
    · exact absurd hpos (not_le.2 hneg)
    · exact ⟨_, hr, hinst⟩
  · rw [if_neg hmode, if_neg hmode]
    exact (show -EBADF < 0 by decide)

/-- The file comes back, and closing both descriptors leaves every slot and every reference count as
it was. -/
def RoundTrip (env : FdEnv) (mems mems' : List (Option RawMem)) (cur child : FilesId)
    (localFd flags flags' : BitVec 32) (file : FileId) (s : FdSys) : Prop :=
  let dup := ptraceDupToRemote env mems cur child (some ⟨localFd, flags⟩) s
  let remoteFd := BitVec.ofInt 32 dup.1
  let back := ptraceDupFromRemote env mems' cur child (some ⟨remoteFd, flags'⟩) dup.2
  let closed := ptraceRemoteClose env child (some ⟨remoteFd⟩) back.2
  let done := closed.2.closeFd env cur back.1.toNat
  0 ≤ back.1 ∧ back.2.slot cur back.1.toNat = some file ∧ (∀ i fd, done.2.slot i fd = s.slot i fd) ∧
    done.2.fCount = s.fCount

/-- Undoing two installations of one file. -/
theorem Installed.undo {t u : FdSys} {cur child : FilesId} {r l : ℕ} (env : FdEnv)
    (h : Installed (s.getFile file) child r file t) (h' : Installed (t.getFile file) cur l file u) :
    let done := ((u.closeFd env child r).2.closeFd env cur l).2
    (∀ i fd, done.slot i fd = s.slot i fd) ∧ done.fCount = s.fCount := by
  have hfree : s.slot child r = none := h.free
  have hfree' : t.slot cur l = none := h'.free
  have hslot : ∀ j k, t.slot j k = if j = child ∧ k = r then some file else s.slot j k := h.slot
  have hslot' : ∀ j k, u.slot j k = if j = cur ∧ k = l then some file else t.slot j k := h'.slot
  -- the two descriptors differ
  have hne : ¬(child = cur ∧ r = l) := by
    rintro ⟨rfl, rfl⟩
    rw [hslot, if_pos ⟨rfl, rfl⟩] at hfree'
    exact absurd hfree' (by simp)
  have hr : u.slot child r = some file := by rw [hslot', if_neg hne, hslot, if_pos ⟨rfl, rfl⟩]
  obtain ⟨hc, hcount⟩ := closeFd_slot env hr
  have hl : (u.closeFd env child r).2.slot cur l = some file := by
    rw [hc, if_neg (fun he => hne ⟨he.1.symm, he.2.symm⟩), hslot', if_pos ⟨rfl, rfl⟩]
  obtain ⟨hd, hdcount⟩ := closeFd_slot env hl
  refine ⟨fun i fd => ?_, ?_⟩
  · rw [hd]
    split
    next he =>
      obtain ⟨rfl, rfl⟩ := he
      rw [hslot, if_neg (fun he => hne ⟨he.1.symm, he.2.symm⟩)] at hfree'
      exact hfree'.symm
    next hout =>
      rw [hc]
      split
      next he => rw [he.1, he.2, hfree]
      next hout' => rw [hslot', if_neg hout, hslot, if_neg hout']
  · have hget : ∀ t : FdSys, (t.getFile file).fCount = Function.update t.fCount file
      (t.fCount file+1) := fun _ => rfl
    rw [hdcount, hcount, h'.fCount, hget, h.fCount, hget]
    simp only [Function.update_self, Function.update_idem]
    rw [add_sub_cancel_right, add_sub_cancel_right, Function.update_eq_self]

/-- `PTRACE_DUP_TO_REMOTE` takes any file, `PTRACE_DUP_FROM_REMOTE` refuses those opened with
`O_PATH`: the round trip works for exactly the others. -/
theorem dup_round_trip (env : FdEnv) (mems mems' : List (Option RawMem)) (cur child : FilesId)
    (localFd flags flags' : BitVec 32) (file : FileId) (s : FdSys) (h : FdSysOk s)
    (hs : s.slot cur localFd.toNat = some file)
    (hx : GrowsExactly env.nrOpen (s.files child) (candidateFd (s.files child) 0))
    (hdup : 0 ≤ (ptraceDupToRemote env mems cur child (some ⟨localFd, flags⟩) s).1)
    (hflags : badFlags flags' = false)
    (hroom : HasRoom env mems'
      ((ptraceDupToRemote env mems cur child (some ⟨localFd, flags⟩) s).2.files cur))
    (hx' :
      GrowsExactly env.nrOpen
        ((ptraceDupToRemote env mems cur child (some ⟨localFd, flags⟩) s).2.files cur) (candidateFd
          ((ptraceDupToRemote env mems cur child (some ⟨localFd, flags⟩) s).2.files cur) 0)) :
    RoundTrip env mems mems' cur child localFd flags flags' file s ↔
      env.fMode file &&& fmodePath = 0 := by
  have hspec := dupToRemote_spec env mems cur child localFd flags h hs hx
  unfold RoundTrip
  dsimp only at hspec ⊢
  generalize ptraceDupToRemote env mems cur child (some ⟨localFd, flags⟩) s =
    dup at hspec hdup hroom hx' ⊢
  rcases hspec with hneg | ⟨r, hr, hlt, hinst⟩
  · exact absurd hdup (not_le.2 hneg)
  · have hfd : (BitVec.ofInt 32 dup.1).toNat = r := by
      rw [hr, BitVec.ofInt_natCast, BitVec.toNat_ofNat, Nat.mod_eq_of_lt hlt]
    have hslot : dup.2.slot child (BitVec.ofInt 32 dup.1).toNat = some file := by
      rw [hfd, hinst.slot, if_pos ⟨rfl, rfl⟩]
    have hback := dupFromRemote_spec env mems' cur child (BitVec.ofInt 32 dup.1) flags' hinst.ok
      hflags hslot hx' hroom
    dsimp only at hback
    have hclose : ∀ u : FdSys, ptraceRemoteClose env child (some ⟨BitVec.ofInt 32 dup.1⟩) u =
        u.closeFd env child r :=
      fun u => by rw [← hfd]; rfl
    generalize ptraceDupFromRemote env mems' cur child (some ⟨BitVec.ofInt 32 dup.1, flags'⟩) dup.2
      = back at hback ⊢
    rw [hclose]
    -- `fget` on the way back does not see a file opened with `O_PATH`
    by_cases hmode : env.fMode file &&& fmodePath = 0
    · rw [if_pos hmode] at hback
      obtain ⟨l, hl, hinst'⟩ := hback
      rw [hl, Int.toNat_natCast]
      have hundo := Installed.undo env hinst hinst'
      have hmine : back.2.slot cur l = some file := by rw [hinst'.slot, if_pos ⟨rfl, rfl⟩]
      exact iff_of_true ⟨Int.natCast_nonneg l, hmine, hundo⟩ hmode
    · rw [if_neg hmode] at hback
      exact iff_of_false (fun hall => absurd hall.1 (not_le.2 hback)) hmode

def twoTables : FdSys :=
  { files := fun i => if i = 0 then oneFile 7 else oneFile 8, fCount := fun _ => 1, bug := false }

def smallEnv (mode : ℕ) : FdEnv :=
  { nrOpen := 1024, rlimNofile := 1024, fMode := fun _ => mode, flush := fun _ => 0 }

theorem fdSysOk_twoTables : FdSysOk twoTables := by
  intro i
  show FilesOk (if i = 0 then oneFile 7 else oneFile 8)
  split <;> exact filesOk_oneFile _

/-- Descriptor 0 of the tracer travels to the table 1 and back. -/
theorem dup_round_trip_twoTables : RoundTrip (smallEnv 0) [] [] 0 1 0 0 0 7 twoTables :=
  (dup_round_trip (smallEnv 0) [] [] 0 1 0 0 0 7 twoTables fdSysOk_twoTables (by decide)
    (by decide) (by decide)
    (by decide) (.inl ⟨1, by decide, by decide, by decide⟩) (by decide)).2 (by decide)

/-- A file opened with `O_PATH` goes to the tracee, and cannot be fetched back. -/
theorem dup_round_trip_path :
    let dup := ptraceDupToRemote (smallEnv fmodePath) [] 0 1 (some ⟨0, 0⟩) twoTables
    FdSysOk twoTables ∧ twoTables.slot 0 0 = some 7 ∧ 0 ≤ dup.1 ∧
      HasRoom (smallEnv fmodePath) [] (dup.2.files 0) ∧
      ¬RoundTrip (smallEnv fmodePath) [] [] 0 1 0 0 0 7 twoTables :=
  ⟨fdSysOk_twoTables, by decide, by decide, .inl ⟨1, by decide, by decide, by decide⟩,
    fun h => absurd h.1 (by decide)⟩

end PtraceRemote
