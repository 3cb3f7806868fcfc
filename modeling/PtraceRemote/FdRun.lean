import PtraceRemote.FdTableFork
import PtraceRemote.FdRemote

/-! Runs of descriptor operations, local and remote, over all tables of the system. -/
namespace PtraceRemote
open Bitmap

namespace FdSys
variable (s : FdSys) (i j : FilesId)

@[simp] theorem setFiles_self (f : FilesStruct) : (s.setFiles i f).files i = f :=
  Function.update_self ..

@[simp] theorem setFiles_fCount (f : FilesStruct) : (s.setFiles i f).fCount = s.fCount := rfl

@[simp] theorem setFiles_bug (f : FilesStruct) : (s.setFiles i f).bug = s.bug := rfl

@[simp] theorem getFile_files (f : FileId) : (s.getFile f).files = s.files := rfl

@[simp] theorem getFile_bug (f : FileId) : (s.getFile f).bug = s.bug := rfl

@[simp] theorem fput_files (f : FileId) : (s.fput f).files = s.files := rfl

@[simp] theorem fput_bug (f : FileId) : (s.fput f).bug = s.bug := rfl

theorem foldl_getFile_files (l : List FileId) : (l.foldl getFile s).files = s.files := by
  induction l generalizing s with
  | nil => rfl
  | cons f l ih => rw [List.foldl_cons, ih, getFile_files]

theorem foldl_fput_files (l : List FileId) : (l.foldl fput s).files = s.files := by
  induction l generalizing s with
  | nil => rfl
  | cons f l ih => rw [List.foldl_cons, ih, fput_files]

end FdSys

/-- Every table of the system satisfies the descriptor-table invariant. -/
def FdSysOk (s : FdSys) : Prop := ∀ i, FilesOk (s.files i)

theorem FdSysOk.setFiles {s : FdSys} (h : FdSysOk s) (i : FilesId) {f : FilesStruct}
    (hf : FilesOk f) : FdSysOk (s.setFiles i f) := by
  intro k
  by_cases hk : k = i
  · rw [hk, FdSys.setFiles_self]; exact hf
  · simp only [FdSys.setFiles, Function.update_of_ne hk]; exact h k

theorem FdSysOk.of_files {s t : FdSys} (h : FdSysOk s) (ht : t.files = s.files) : FdSysOk t := by
  intro k; rw [ht]; exact h k

def FdSmall (s : FdSys) : Prop := ∀ i, (s.files i).fdt.maxFds < 2^29

theorem fdSysOk_closeFd {s : FdSys} (h : FdSysOk s) (env : FdEnv) (i : FilesId) (fd : ℕ) :
    FdSysOk (s.closeFd env i fd).2 := by
  have hc := filesOk_closeFd (h i) fd
  unfold FdSys.closeFd
  split
  · exact h
  · rename_i heq
    rw [heq] at hc
    exact (h.setFiles i hc).of_files rfl

theorem fdSysOk_doDup2 {s : FdSys} (h : FdSysOk s) (i : FilesId) (file : FileId) {fd : ℕ}
    (hlt : fd < (s.files i).fdt.maxFds) (flags : ℕ) : FdSysOk (s.doDup2 i file fd flags).2 := by
  have hd := filesOk_doDup2 (h i) file hlt flags
  unfold FdSys.doDup2
  dsimp only
  split
  · exact h
  · have hs : FdSysOk ((s.getFile file).setFiles i (doDup2 (s.files i) file fd flags).2.1) :=
      FdSysOk.setFiles (h.of_files rfl) i hd
    split
    · exact hs
    · exact hs.of_files rfl

/-- `do_dup2` leaves every capacity alone. -/
theorem doDup2_maxFds (s : FdSys) (i : FilesId) (file : FileId) (fd flags : ℕ) (k : FilesId) :
    ((s.doDup2 i file fd flags).2.files k).fdt.maxFds = (s.files k).fdt.maxFds := by
  have hd : (doDup2 (s.files i) file fd flags).2.1.fdt.maxFds = (s.files i).fdt.maxFds := by
    unfold doDup2; dsimp only; split <;> simp
  unfold FdSys.doDup2
  dsimp only
  split
  · rfl
  · by_cases hk : k = i
    · subst hk
      split <;> simpa using hd
    · split <;> simp [FdSys.setFiles, Function.update_of_ne hk]

/-- Growing a table that then holds `fd` is followed by `do_dup2` on the slot `fd`. -/
theorem fdSysOk_expand_doDup2 {s : FdSys} (h : FdSysOk s) (nrOpen : ℕ) (mem : Option RawMem)
    (i : FilesId) (file : FileId) (fd flags : ℕ)
    (hlt : FdSmall (s.setFiles i (expandFiles nrOpen mem (s.files i) fd).2)) :
    FdSysOk (s.setFiles i (expandFiles nrOpen mem (s.files i) fd).2) ∧
    (0 ≤ (expandFiles nrOpen mem (s.files i) fd).1 →
      FdSysOk
        ((s.setFiles i (expandFiles nrOpen mem (s.files i) fd).2).doDup2 i file fd flags).2) := by
  have hmono := le_expandFiles_maxFds nrOpen mem (s.files i) fd
  have hi := hlt i
  rw [FdSys.setFiles_self] at hi
  have hok := h.setFiles i (filesOk_expandFiles (h i) nrOpen mem fd (growthExact_of_lt hi hmono))
  refine ⟨hok, fun hret => fdSysOk_doDup2 hok i file ?_ flags⟩
  rw [FdSys.setFiles_self]
  rcases expandFiles_cases nrOpen mem (s.files i) fd with
    ⟨h1, hr⟩ | ⟨-, e, he, hr⟩ | ⟨-, h2, m, -, hr⟩
  · rw [hr]; exact h1
  · rw [hr] at hret; dsimp only at hret; omega
  · rw [hr]; exact h2

theorem fdSysOk_expandDup2 {s : FdSys} (h : FdSysOk s) (env : FdEnv) (mem : Option RawMem)
    (cur i : FilesId) (oldfd newfd : ℕ) (flags : BitVec 32)
    (hlt : FdSmall (expandDup2 env mem cur i oldfd newfd flags s).2) :
    FdSysOk (expandDup2 env mem cur i oldfd newfd flags s).2 := by
  unfold expandDup2 at hlt ⊢
  dsimp only at hlt ⊢
  split at hlt
  · exact (fdSysOk_expand_doDup2 h env.nrOpen mem i 0 newfd 0 hlt).1
  · rename_i file _
    split_ifs at hlt ⊢ with h1 h2
    · exact (fdSysOk_expand_doDup2 h env.nrOpen mem i file newfd flags.toNat hlt).1
    · exact (fdSysOk_expand_doDup2 h env.nrOpen mem i file newfd flags.toNat hlt).1
    · refine (fdSysOk_expand_doDup2 h env.nrOpen mem i file newfd flags.toNat fun k => ?_).2
        (not_lt.mp h1)
      rw [← doDup2_maxFds _ i file newfd flags.toNat k]
      exact hlt k

theorem fdSysOk_replaceFd {s : FdSys} (h : FdSysOk s) (env : FdEnv) (mem : Option RawMem)
    (cur : FilesId) (fd : ℕ) (file : Option FileId) (flags : BitVec 32)
    (hlt : FdSmall (replaceFd env mem cur fd file flags s).2) :
    FdSysOk (replaceFd env mem cur fd file flags s).2 := by
  cases file with
  | none => exact fdSysOk_closeFd h env cur fd
  | some file =>
    unfold replaceFd at hlt ⊢
    dsimp only at hlt ⊢
    split_ifs at hlt ⊢ with h1 h2
    · exact h
    · exact (fdSysOk_expand_doDup2 h env.nrOpen mem cur file fd flags.toNat hlt).1
    · refine (fdSysOk_expand_doDup2 h env.nrOpen mem cur file fd flags.toNat fun k => ?_).2
        (not_lt.mp h2)
      rw [← doDup2_maxFds _ cur file fd flags.toNat k]
      exact hlt k

/-- `__fd_install` into a reserved slot succeeds and keeps the invariant. -/
theorem fdSysOk_fdInstall {s : FdSys} (h : FdSysOk s) {i : FilesId} {fd : ℕ} (file : FileId)
    (ho : (s.files i).fdt.openFds fd = true) (hn : (s.files i).fdt.fd fd = none) :
    FdSysOk (s.fdInstall i fd file) ∧ (s.fdInstall i fd file).bug = s.bug := by
  unfold FdSys.fdInstall
  cases hr : fdInstall (s.files i) fd file with
  | none => exact absurd hr (by simp [fdInstall, hn])
  | some files => exact ⟨h.setFiles i (filesOk_fdInstall (h i) ho hr), rfl⟩

/-- Reserving a descriptor and installing the file in it keeps the invariant, and the `BUG_ON` of
`__fd_install` stays silent. -/
theorem fdSysOk_allocInstall {s : FdSys} (h : FdSysOk s) (env : FdEnv) (mems : List (Option RawMem))
    (i : FilesId) (file : FileId) (flags : BitVec 32)
    (hx : GrowsExactly env.nrOpen (s.files i) (candidateFd (s.files i) 0)) :
    FdSysOk (allocInstall env mems i file flags s).2 ∧
    (allocInstall env mems i file flags s).2.bug = s.bug := by
  have hok := filesOk_allocFd (h i) env.nrOpen 0 (env.rlimNofile % 2^32) flags.toNat mems hx
  unfold allocInstall
  dsimp only
  rcases allocFd_cases (h i) env.nrOpen 0 (env.rlimNofile % 2^32) flags.toNat mems hx with
    ⟨e, he, hr⟩ | ⟨files', -, -, -, -, -, hr⟩ <;> rw [hr] at hok ⊢
  · rw [if_neg (by dsimp only; omega)]
    exact ⟨(h.setFiles i hok).of_files rfl, rfl⟩
  · rw [if_pos (Int.natCast_nonneg _)]
    obtain ⟨hopen, hnone⟩ := takeFd_reserved files' 0 flags.toNat (candidateFd (s.files i) 0)
    refine fdSysOk_fdInstall (h.setFiles i hok) file ?_ ?_ <;>
      rw [FdSys.setFiles_self, Int.toNat_natCast]
    · exact hopen
    · exact hnone

theorem allocInstall_fail {s : FdSys} {env : FdEnv} {mems : List (Option RawMem)} {i : FilesId}
    {file : FileId} {flags : BitVec 32} {e : ℤ} (he : 0 < e)
    (hr : allocFd env.nrOpen 0 (env.rlimNofile % 2^32) flags.toNat mems (s.files i) =
      (-e, s.files i)) :
    (allocInstall env mems i file flags s).2.files = s.files := by
  unfold allocInstall
  dsimp only
  rw [hr, if_neg (by dsimp only; omega)]
  exact Function.update_eq_self i s.files

theorem fdSysOk_allocInstall_of_small {s : FdSys} (h : FdSysOk s) (env : FdEnv)
    (mems : List (Option RawMem)) (i : FilesId) (file : FileId) (flags : BitVec 32)
    (hlt : FdSmall (allocInstall env mems i file flags s).2) :
    FdSysOk (allocInstall env mems i file flags s).2 := by
  have hmax : ((allocInstall env mems i file flags s).2.files i).fdt.maxFds =
      (allocFd env.nrOpen 0 (env.rlimNofile % 2^32) flags.toNat mems (s.files i)).2.fdt.maxFds := by
    unfold allocInstall
    dsimp only
    split_ifs
    · unfold FdSys.fdInstall
      split
      · simp
      · rename_i hf
        simp only [FdSys.setFiles_self, fdInstall] at hf ⊢
        split_ifs at hf
        cases hf
        rfl
    · simp
  rcases growsExactly_of_allocFd_lt (hmax ▸ hlt i) with hx | ⟨e, he, hr⟩
  · exact (fdSysOk_allocInstall h env mems i file flags hx).1
  · exact h.of_files (allocInstall_fail he hr)

theorem fdSysOk_dupFd {s : FdSys} (h : FdSysOk s) (env : FdEnv) (newf mem : Option RawMem)
    (i j : FilesId) : FdSysOk (s.dupFd env newf mem i j).2 := by
  unfold FdSys.dupFd
  split
  · exact h
  · rename_i files gets hr
    exact (h.setFiles j (filesOk_dupFd (h i) env.nrOpen newf mem hr)).of_files
      (FdSys.foldl_getFile_files _ _)

theorem fdSysOk_doCloseOnExec {s : FdSys} (h : FdSysOk s) (i : FilesId) :
    FdSysOk (s.doCloseOnExec i) :=
  (h.setFiles i (filesOk_doCloseOnExec (h i))).of_files (FdSys.foldl_fput_files _ _)

/-! What the requests come down to: an error, or the part behind their checks. -/

section Requests
variable (env : FdEnv) (mem : Option RawMem) (mems : List (Option RawMem)) (cur child : FilesId)
  (s : FdSys)

theorem ptraceDupToRemote_cases (data : Option DupToRemoteArgs) :
    (∃ e, e < 0 ∧ ptraceDupToRemote env mems cur child data s = (e, s)) ∨ ∃ args file,
      data = some args ∧
      ptraceDupToRemote env mems cur child data s =
        allocInstall env mems child file args.flags (s.getFile file) := by
  cases data with
  | none => exact .inl ⟨-EFAULT, by decide, rfl⟩
  | some args =>
    unfold ptraceDupToRemote
    dsimp only
    split
    · exact .inl ⟨-EINVAL, by decide, rfl⟩
    · cases fgetFiles env.fMode (s.files cur) args.localFd.toNat 0 with
      | none => exact .inl ⟨-EBADF, by decide, rfl⟩
      | some file => exact .inr ⟨args, file, rfl, rfl⟩

theorem ptraceDup2ToRemote_cases (data : Option Dup2ToRemoteArgs) :
    (∃ e, e < 0 ∧ ptraceDup2ToRemote env mem cur child data s = (e, s)) ∨ ∃ args, data = some args ∧
      ptraceDup2ToRemote env mem cur child data s =
        expandDup2 env mem cur child args.localFd.toNat args.remoteFd.toNat args.flags s := by
  cases data with
  | none => exact .inl ⟨-EFAULT, by decide, rfl⟩
  | some args =>
    unfold ptraceDup2ToRemote doDup2ToRemote
    dsimp only
    split
    · exact .inl ⟨-EINVAL, by decide, rfl⟩
    split
    · exact .inl ⟨-EBADF, by decide, rfl⟩
    · exact .inr ⟨args, rfl, rfl⟩

theorem ptraceDupFromRemote_cases (data : Option DupFromRemoteArgs) :
    (∃ e, e < 0 ∧ ptraceDupFromRemote env mems cur child data s = (e, s)) ∨ ∃ args file,
      data = some args ∧
      ptraceDupFromRemote env mems cur child data s =
        allocInstall env mems cur file args.flags (s.getFile file) := by
  cases data with
  | none => exact .inl ⟨-EFAULT, by decide, rfl⟩
  | some args =>
    unfold ptraceDupFromRemote
    dsimp only
    split
    · exact .inl ⟨-EINVAL, by decide, rfl⟩
    · cases fgetFiles env.fMode (s.files child) args.remoteFd.toNat fmodePath with
      | none => exact .inl ⟨-EBADF, by decide, rfl⟩
      | some file => exact .inr ⟨args, file, rfl, rfl⟩

end Requests

inductive FdOp (s : FdSys) : FdSys → Prop
  | allocFd (env : FdEnv) (i : FilesId) (start endFd flags : ℕ) (mems : List (Option RawMem)) :
    FdOp s (s.setFiles i (PtraceRemote.allocFd env.nrOpen start endFd flags mems (s.files i)).2)
  | fdInstall (i : FilesId) (fd : ℕ) (file : FileId) (hopen : (s.files i).fdt.openFds fd = true)
    (hnone : (s.files i).fdt.fd fd = none) : FdOp s (s.fdInstall i fd file)
  | putUnusedFd (i : FilesId) (fd : ℕ) (hopen : (s.files i).fdt.openFds fd = true)
    (hnone : (s.files i).fdt.fd fd = none) :
    FdOp s (s.setFiles i (PtraceRemote.putUnusedFd (s.files i) fd))
  | closeFd (env : FdEnv) (i : FilesId) (fd : ℕ) : FdOp s (s.closeFd env i fd).2
  | expandFiles (env : FdEnv) (i : FilesId) (nr : ℕ) (mem : Option RawMem) :
    FdOp s (s.setFiles i (PtraceRemote.expandFiles env.nrOpen mem (s.files i) nr).2)
  | dup3 (env : FdEnv) (mem : Option RawMem) (cur : FilesId) (oldfd newfd : ℕ) (flags : BitVec 32) :
    FdOp s (PtraceRemote.dup3 env mem cur oldfd newfd flags s).2
  | replaceFd (env : FdEnv) (mem : Option RawMem) (cur : FilesId) (fd : ℕ) (file : Option FileId)
    (flags : BitVec 32) : FdOp s (PtraceRemote.replaceFd env mem cur fd file flags s).2
  | doCloseOnExec (i : FilesId) : FdOp s (s.doCloseOnExec i)
  | dupFd (env : FdEnv) (newf mem : Option RawMem) (i j : FilesId) :
    FdOp s (s.dupFd env newf mem i j).2
  | dupToRemote (env : FdEnv) (mems : List (Option RawMem)) (cur child : FilesId)
    (data : Option DupToRemoteArgs) : FdOp s (ptraceDupToRemote env mems cur child data s).2
  | dup2ToRemote (env : FdEnv) (mem : Option RawMem) (cur child : FilesId)
    (data : Option Dup2ToRemoteArgs) : FdOp s (ptraceDup2ToRemote env mem cur child data s).2
  | dupFromRemote (env : FdEnv) (mems : List (Option RawMem)) (cur child : FilesId)
    (data : Option DupFromRemoteArgs) : FdOp s (ptraceDupFromRemote env mems cur child data s).2
  | remoteClose (env : FdEnv) (child : FilesId) (data : Option RemoteCloseArgs) :
    FdOp s (ptraceRemoteClose env child data s).2

theorem fdSysOk_fdOp {s s' : FdSys} (h : FdSysOk s) (hs : FdOp s s') (hlt : FdSmall s') :
    FdSysOk s' := by
  cases hs with
  | allocFd env i start endFd flags mems =>
    have hi := hlt i
    rw [FdSys.setFiles_self] at hi
    rcases growsExactly_of_allocFd_lt hi with hx | ⟨e, -, hr⟩
    · exact h.setFiles i (filesOk_allocFd (h i) _ _ _ _ _ hx)
    · rw [hr]; exact h.setFiles i (h i)
  | fdInstall i fd file hopen hnone => exact (fdSysOk_fdInstall h file hopen hnone).1
  | putUnusedFd i fd hopen hnone => exact h.setFiles i (filesOk_putUnusedFd (h i) hnone)
  | closeFd env i fd => exact fdSysOk_closeFd h env i fd
  | expandFiles env i nr mem => exact (fdSysOk_expand_doDup2 h env.nrOpen mem i 0 nr 0 hlt).1
  | dup3 env mem cur oldfd newfd flags =>
    unfold PtraceRemote.dup3 at hlt ⊢
    split_ifs at hlt ⊢
    · exact h
    · exact h
    · exact h
    · exact fdSysOk_expandDup2 h env mem cur cur oldfd newfd flags hlt
  | replaceFd env mem cur fd file flags => exact fdSysOk_replaceFd h env mem cur fd file flags hlt
  | doCloseOnExec i => exact fdSysOk_doCloseOnExec h i
  | dupFd env newf mem i j => exact fdSysOk_dupFd h env newf mem i j
  | dupToRemote env mems cur child data =>
    rcases ptraceDupToRemote_cases env mems cur child s data with ⟨e, -, hr⟩ | ⟨args, file, -, hr⟩
    · rw [hr]
      exact h
    · rw [hr] at hlt ⊢
      exact @fdSysOk_allocInstall_of_small (s.getFile file) (h.of_files rfl) env mems child _ _ hlt
  | dup2ToRemote env mem cur child data =>
    rcases ptraceDup2ToRemote_cases env mem cur child s data with ⟨e, -, hr⟩ | ⟨args, -, hr⟩
    · rw [hr]
      exact h
    · rw [hr] at hlt ⊢
      exact fdSysOk_expandDup2 h env mem cur child _ _ _ hlt
  | dupFromRemote env mems cur child data =>
    rcases ptraceDupFromRemote_cases env mems cur child s data with ⟨e, -, hr⟩ | ⟨args, file, -, hr⟩
    · rw [hr]
      exact h
    · rw [hr] at hlt ⊢
      exact @fdSysOk_allocInstall_of_small (s.getFile file) (h.of_files rfl) env mems cur _ _ hlt
  | remoteClose env child data =>
    unfold ptraceRemoteClose
    split
    · exact h
    · exact fdSysOk_closeFd h env child _

def initFiles : FilesStruct :=
  ⟨⟨nrOpenDefault, fun _ => none, fun _ => false, fun _ => false, fun _ => false⟩, 0⟩

theorem filesOk_initFiles : FilesOk initFiles := by
  refine ⟨⟨by decide, by decide, fun i _ hs => absurd rfl hs, fun w _ => ?_, fun w _ _ => rfl⟩,
    Nat.zero_le _, fun i hi => absurd hi (Nat.not_lt_zero i)⟩
  exact iff_of_false Bool.false_ne_true fun hf => Bool.false_ne_true (hf 0 (by decide))

def FdRun : FdSys → FdSys → Prop := Relation.ReflTransGen fun s s' => FdOp s s' ∧ FdSmall s'

/-- The descriptor tables stay consistent along every run of local and remote operations: slots,
open bits, summary bits and the `next_fd` hint. -/
theorem fdRun_filesOk {s s' : FdSys} (hr : FdRun s s') (h : ∀ i, FilesOk (s.files i)) :
    ∀ i, FilesOk (s'.files i) := by
  induction hr with
  | refl => exact h
  | tail _ hs ih => exact fdSysOk_fdOp ih hs.1 hs.2

theorem fdSmall_of_first {s : FdSys} (h : (s.files 0).fdt.maxFds < 2^29)
    (hrest : ∀ i, s.files (i+1) = initFiles) :
    FdSmall s := by
  intro i
  cases i with
  | zero => exact h
  | succ i =>
    rw [hrest i]
    decide

/-- A descriptor is reserved in the first task's table, a file is put there, and the tracer closes
it. -/
theorem fdRun_filesOk_alloc :
    let env : FdEnv := ⟨1024, 1024, fun _ => 0, fun _ => 0⟩
    let s₀ : FdSys := ⟨fun _ => initFiles, fun _ => 1, false⟩
    let s₁ := s₀.setFiles 0 (allocFd 1024 0 1024 0 [] initFiles).2
    let s₂ := s₁.fdInstall 0 0 7
    let r := ptraceRemoteClose env 0 (some ⟨0⟩) s₂
    ((s₂.files 0).fdt.fd 0 = some 7 ∧ (s₂.files 0).nextFd = 1) ∧ r.1 = 0 ∧
      (r.2.files 0).fdt.fd 0 = none ∧
      (r.2.files 0).nextFd = 0 ∧ FdRun s₀ r.2 ∧ ∀ i, FilesOk (r.2.files i) := by
  intro env s₀ s₁ s₂ r
  have hsmall₁ : FdSmall s₁ := fdSmall_of_first (by decide) fun _ => rfl
  have hsmall₂ : FdSmall s₂ := fdSmall_of_first (by decide) fun _ => rfl
  have hsmall₃ : FdSmall r.2 := fdSmall_of_first (by decide) fun _ => rfl
  have hrun : FdRun s₀ r.2 :=
    ((Relation.ReflTransGen.single ⟨.allocFd env 0 0 1024 0 [], hsmall₁⟩).tail
      ⟨.fdInstall 0 0 7 (by decide) (by decide), hsmall₂⟩).tail ⟨.remoteClose env 0 _, hsmall₃⟩
  exact ⟨by decide, by decide, by decide, by decide, hrun, fdRun_filesOk hrun fun _ =>
    filesOk_initFiles⟩

end PtraceRemote
