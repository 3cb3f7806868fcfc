import PtraceRemote.Posix
import PtraceRemote.Runs
import PtraceRemote.FdFork
import PtraceRemote.FdExec
import PtraceRemote.FileRefs

/-! The descriptor calls against POSIX: the tables, with their bitmaps, hints and capacities, show
the descriptors that POSIX has, and every call of a task or of its tracer does what POSIX says, on
the tables of the two. -/
namespace PtraceRemote

open Posix (Desc Lowest Step)

/-! `dup`, `dup2` and `F_DUPFD` of fs/file.c. -/

def dup (env : FdEnv) (mems : List (Option RawMem)) (cur : FilesId) (fildes : ℕ) (s : FdSys) :
    ℤ × FdSys :=
  match fgetFiles env.fMode (s.files cur) fildes 0 with
  | none => (-EBADF, s)
  | some file => allocInstall env mems cur file 0 (s.getFile file)

def dup2 (env : FdEnv) (mem : Option RawMem) (cur : FilesId) (oldfd newfd : ℕ) (s : FdSys) :
    ℤ × FdSys :=
  if newfd = oldfd then
    match fcheckFiles (s.files cur) oldfd with
    | none => (-EBADF, s)
    | some _ => (oldfd, s)
  else dup3 env mem cur oldfd newfd 0 s

def fDupfd (env : FdEnv) (mems : List (Option RawMem)) (cur : FilesId) (start : ℕ) (file : FileId)
    (flags : ℕ) (s : FdSys) : ℤ × FdSys :=
  if start ≥ env.rlimNofile then (-EINVAL, s)
  else
    let r := allocFd env.nrOpen start (env.rlimNofile % 2^32) flags mems (s.files cur)
    let s := s.setFiles cur r.2
    if r.1 ≥ 0 then (r.1, (s.getFile file).fdInstall cur r.1.toNat file) else (r.1, s)

variable {files files' : FilesStruct} {s s' : FdSys} {env : FdEnv} {mem : Option RawMem}
  {mems : List (Option RawMem)} {i cur child : FilesId} {fd start : ℕ} {file : FileId}

/-! What a table shows. -/

def FdEntry.desc (e : FdEntry) : Option (Desc FileId) := e.file.map fun f => ⟨f, e.cloexec⟩

def FdSys.tables (s : FdSys) : Posix.Tables FilesId FileId :=
  fun i fd => (fdEntry (s.files i) fd).desc

def NoneReserved (files : FilesStruct) : Prop :=
  ∀ fd, (fdEntry files fd).isOpen = (fdEntry files fd).file.isSome

/-- What holds between two calls. -/
structure TablesOk (s : FdSys) : Prop where
  ok : FdSysOk s
  settled : ∀ i, NoneReserved (s.files i)

theorem desc_eq_none {e : FdEntry} : e.desc = none ↔ e.file = none := by
  simp [FdEntry.desc]

theorem tables_eq_none : s.tables i fd = none ↔ s.slot i fd = none := by
  rw [FdSys.tables, desc_eq_none, fdEntry_file]
  rfl

theorem tables_of_slot (h : s.slot i fd = some file) : ∃ c, s.tables i fd = some ⟨file, c⟩ := by
  refine ⟨(fdEntry (s.files i) fd).cloexec, ?_⟩
  rw [FdSys.tables, FdEntry.desc, fdEntry_file]
  have hfile : fcheckFiles (s.files i) fd = some file := h
  rw [hfile]
  rfl

theorem tables_congr (h : ∀ j k, fdEntry (s'.files j) k = fdEntry (s.files j) k) :
    s'.tables = s.tables := by
  funext j k
  rw [FdSys.tables, h, FdSys.tables]

/-- The search ends at the lowest free descriptor. -/
theorem lowest_candidateFd (h : TablesOk s) (i : FilesId) (start : ℕ) :
    Lowest (s.tables i) start (candidateFd (s.files i) start) := by
  obtain ⟨hge, hle, hset, hclear⟩ := candidateFd_spec (h.ok i) start
  refine ⟨(le_max_left _ _).trans hge, ?_, fun k hk hlt => ?_⟩
  · rw [tables_eq_none]
    unfold FdSys.slot fcheckFiles
    split
    next hroom => exact (h.ok i).slot_none hroom (hclear hroom)
    next => rfl
  · have hnext := (h.ok i).next_le
    have hroom : k < (s.files i).fdt.maxFds := by omega
    have hopen : (s.files i).fdt.openFds k = true := by
      by_cases hhint : k < (s.files i).nextFd
      · exact (h.ok i).next_open k hhint
      · exact hset k (max_le hk (not_lt.1 hhint)) hlt
    have hsome := h.settled i k
    rw [fdEntry_of_lt hroom, hopen] at hsome
    intro hnone
    rw [tables_eq_none, FdSys.slot, fcheckFiles, if_pos hroom] at hnone
    simp [hnone] at hsome

/-! Tables that grow. -/

structure FdEnv.Sane (env : FdEnv) : Prop where
  nrOpen : env.nrOpen ≤ sysctlNrOpenMax
  rlim : env.rlimNofile < 2^32

/-- `expand_files` within the limits. -/
theorem expandFiles_sane (nrOpen : ℕ) (mem : Option RawMem) (files : FilesStruct) (fd : ℕ)
    (hopen : nrOpen ≤ sysctlNrOpenMax) :
    (fd < files.fdt.maxFds ∧ expandFiles nrOpen mem files fd = (0, files)) ∨
      (nrOpen ≤ fd ∧ expandFiles nrOpen mem files fd = (-EMFILE, files)) ∨
      expandFiles nrOpen mem files fd = (-ENOMEM, files) ∨
      (files.fdt.maxFds ≤ fd ∧ fd < fdtableSize nrOpen fd ∧ ∃ m : RawMem,
        expandFiles nrOpen mem files fd =
        (1, { files with fdt := copyFdtable (m.table (fdtableSize nrOpen fd)) files.fdt })) := by
  unfold expandFiles
  split
  next hin => exact .inl ⟨hin, rfl⟩
  next hout =>
    split
    next htop => exact .inr (.inl ⟨htop, rfl⟩)
    next htop =>
      have hmax : sysctlNrOpenMax = 2^31-64 := by decide
      have hsize : fd < fdtableSize nrOpen fd := lt_fdtableSize (by omega) (by omega)
      cases mem with
      | none => exact .inr (.inr (.inl rfl))
      | some m =>
        refine .inr (.inr (.inr ⟨not_lt.1 hout, hsize, m, ?_⟩))
        exact if_neg (not_le.2 hsize)

/-- The entries of the table stay, and only the system-wide limit or the memory can refuse. -/
theorem expandFiles_result (h : FilesOk files) (nrOpen : ℕ) (mem : Option RawMem) (fd : ℕ)
    (hopen : nrOpen ≤ sysctlNrOpenMax) (hx : GrowsExactly nrOpen files fd) :
    let r := expandFiles nrOpen mem files fd
    (∀ k, fdEntry r.2 k = fdEntry files k) ∧
      ((0 ≤ r.1 ∧ fd < r.2.fdt.maxFds) ∨ (r.1 = -EMFILE ∧ nrOpen ≤ fd) ∨ r.1 = -ENOMEM) := by
  intro r
  rcases expandFiles_sane nrOpen mem files fd hopen with
    ⟨hin, hr⟩ | ⟨htop, hr⟩ | hr | ⟨hge, hsize, m, hr⟩
  · exact ⟨fun k => by rw [show r = _ from hr],
      .inl (by rw [show r = _ from hr]; exact ⟨le_rfl, hin⟩)⟩
  · exact ⟨fun k => by rw [show r = _ from hr], .inr (.inl ⟨by rw [show r = _ from hr], htop⟩)⟩
  · exact ⟨fun k => by rw [show r = _ from hr], .inr (.inr (by rw [show r = _ from hr]))⟩
  · refine ⟨fun k => ?_, .inl ?_⟩
    · rw [show r = _ from hr]
      exact fdEntry_grow h.fdt (m.table _) (fdtableSize_dvd _ _) (hge.trans hsize.le)
        (hx hge hsize) k
    · rw [show r = _ from hr]
      exact ⟨show (0 : ℤ) ≤ 1 by decide, hsize⟩

/-- Taking a free descriptor. -/
theorem fdEntry_takeFd (h : FilesOk files) (start flags : ℕ) (hlt : fd < files.fdt.maxFds)
    (hfree : (fdEntry files fd).isOpen = false) (k : ℕ) : fdEntry (takeFd files start flags fd) k =
      if k = fd then ⟨none, true, decide (flags &&& oCloexec ≠ 0)⟩ else fdEntry files k := by
  rw [fdEntry_of_lt hlt] at hfree
  have hnone := h.slot_none hlt hfree
  rw [takeFd_eq hnone]
  apply fdEntry_update _ hlt
  · simp
  · simp [← hnone]
  · simp
  · rw [markCloexec_closeOnExec, setOpenFd_closeOnExec]

/-- Why `__alloc_fd` fails. -/
theorem allocFd_error {nrOpen endFd flags : ℕ} {e : ℤ} (hopen : nrOpen ≤ sysctlNrOpenMax)
    (he : 0 < e) (hr : allocFd nrOpen start endFd flags mems files = (-e, files)) :
    (e = EMFILE ∧ (endFd ≤ candidateFd files start ∨ nrOpen ≤ candidateFd files start)) ∨
      e = ENOMEM := by
  have herr {e' : ℤ} {t : FilesStruct} (hpair : (-e', t) = (-e, files)) : e = e' :=
    neg_injective (congrArg Prod.fst hpair).symm
  unfold allocFd at hr
  dsimp only at hr
  split at hr
  next hend => exact .inl ⟨herr hr, .inl hend⟩
  next =>
    split at hr
    next =>
      have hneg : (candidateFd files start : ℤ) = -e := congrArg Prod.fst hr
      omega
    next hout =>
      cases mems with
      | nil =>
        dsimp only at hr
        split at hr
        next htop => exact .inl ⟨herr hr, .inr htop⟩
        next => exact .inr (herr hr)
      | cons mem rest =>
        dsimp only at hr
        rcases expandFiles_sane nrOpen mem files (candidateFd files start) hopen with
          ⟨hin, -⟩ | ⟨htop, hexp⟩ | hexp | ⟨-, hsize, m, hexp⟩
        · exact absurd hin hout
        · rw [hexp, if_pos (show (-EMFILE : ℤ) < 0 by decide)] at hr
          exact .inl ⟨herr hr, .inr htop⟩
        · rw [hexp, if_pos (show (-ENOMEM : ℤ) < 0 by decide)] at hr
          exact .inr (herr hr)
        · -- the table that has grown does not become smaller again
          rw [hexp, if_neg (show ¬(1 : ℤ) < 0 by decide)] at hr
          have hle := le_allocFd_maxFds nrOpen start endFd flags rest
            { files with fdt := copyFdtable
                           (m.table (fdtableSize nrOpen (candidateFd files start))) files.fdt }
          rw [hr] at hle
          have hmax : fdtableSize nrOpen (candidateFd files start) ≤ files.fdt.maxFds := hle
          omega

/-- `__alloc_fd` within the limits. -/
theorem allocFd_result (h : FilesOk files) (nrOpen start endFd flags : ℕ)
    (mems : List (Option RawMem)) (hopen : nrOpen ≤ sysctlNrOpenMax)
    (hx : GrowsExactly nrOpen files (candidateFd files start)) :
    let n := candidateFd files start
    let r := allocFd nrOpen start endFd flags mems files
    (r = (-EMFILE, files) ∧ (endFd ≤ n ∨ nrOpen ≤ n)) ∨ r = (-ENOMEM, files) ∨
      (r.1 = n ∧ n < endFd ∧ n < r.2.fdt.maxFds ∧
        ∀ k, fdEntry r.2 k = if k = n then ⟨none, true, decide (flags &&& oCloexec ≠ 0)⟩
          else fdEntry files k) := by
  intro n r
  obtain ⟨-, -, -, hclear⟩ := candidateFd_spec h start
  rcases allocFd_cases h nrOpen start endFd flags mems hx with
    ⟨e, he, hr⟩ | ⟨grown, hok, hgrown, hcand, hroom, hend, hr⟩
  · have hr' : r = (-e, files) := hr
    rcases allocFd_error hopen he hr with ⟨rfl, hlim⟩ | rfl
    · exact .inl ⟨hr', hlim⟩
    · exact .inr (.inl hr')
  · have hsame := fdEntry_grown h.fdt hx hgrown hroom
    have hfree : (fdEntry grown n).isOpen = false := by
      rw [hsame]
      unfold fdEntry
      split
      next hin => exact hclear hin
      next => rfl
    have hr' : r = ((n : ℤ), takeFd grown start flags n) := hr
    rw [hr']
    refine .inr (.inr ⟨rfl, hend, by rwa [takeFd_maxFds], fun k => ?_⟩)
    rw [fdEntry_takeFd hok start flags hroom hfree, hsame]

/-! Calls. -/

def errnoCode : Posix.Errno → ℤ
  | .badf => EBADF
  | .mfile => EMFILE
  | .nomem => ENOMEM

def resultCode : Posix.Result → ℤ
  | .fd n => n
  | .done v => v
  | .error e => -errnoCode e

def SetsEntry (s : FdSys) (i : FilesId) (fd : ℕ) (e : FdEntry) (s' : FdSys) : Prop :=
  ∀ j k, fdEntry (s'.files j) k = if j = i ∧ k = fd then e else fdEntry (s.files j) k

theorem SetsEntry.tables {e : FdEntry} (h : SetsEntry s i fd e s') :
    s'.tables = Posix.put s.tables i fd e.desc := by
  funext j k
  rw [FdSys.tables, h]
  by_cases hj : j = i
  · subst hj
    by_cases hk : k = fd
    · subst hk
      simp [Posix.put]
    · simp [Posix.put, hk, FdSys.tables]
  · simp [Posix.put, hj, FdSys.tables]

theorem SetsEntry.settled {e : FdEntry} (h : SetsEntry s i fd e s') (he : e.isOpen = e.file.isSome)
    (hs : ∀ i, NoneReserved (s.files i)) (j : FilesId) : NoneReserved (s'.files j) := by
  intro k
  rw [h]
  split
  · exact he
  · exact hs j k

theorem FilePlaced.setsEntry {c : Bool} (h : FilePlaced s i fd file c s') :
    SetsEntry s i fd ⟨some file, true, c⟩ s' := by
  intro j k
  by_cases hj : j = i
  · subst hj
    rw [h.entry]
    simp
  · rw [h.others j hj]
    simp [hj]

/-- `__fd_install` into a descriptor that has just been reserved. -/
theorem setsEntry_install {t : FdSys} {c : Bool} (file : FileId)
    (ht : t.files = (s.setFiles i files).files) (hlt : fd < files.fdt.maxFds)
    (hentry : ∀ k, fdEntry files k = if k = fd then ⟨none, true, c⟩ else fdEntry (s.files i) k) :
    SetsEntry s i fd ⟨some file, true, c⟩ (t.fdInstall i fd file) := by
  have hself : t.files i = files := by rw [ht, FdSys.setFiles_self]
  have hthis : fdEntry files fd = ⟨none, true, c⟩ := by rw [hentry, if_pos rfl]
  rw [fdEntry_of_lt hlt] at hthis
  obtain ⟨hnone, hopen, hmark⟩ := FdEntry.mk.inj hthis
  have hfiles : (t.fdInstall i fd file).files = (t.setFiles i
      { files with
        fdt := { files.fdt with fd := Function.update files.fdt.fd fd (some file) } }).files := by
    unfold FdSys.fdInstall PtraceRemote.fdInstall
    rw [hself, if_neg (not_not.2 hnone)]
  intro j k
  rw [hfiles]
  by_cases hj : j = i
  · subst hj
    rw [FdSys.setFiles_self]
    have hupdate : fdEntry
      { files with fdt := { files.fdt with fd := Function.update files.fdt.fd fd (some file) } }
        k = if k = fd then ⟨some file, true, c⟩ else fdEntry files k := by
      refine fdEntry_update
        { files with fdt := { files.fdt with fd := Function.update files.fdt.fd fd (some file) } }
        hlt rfl rfl ?_ ?_ k
      · rw [← hopen, Function.update_eq_self]
      · rw [← hmark, Function.update_eq_self]
    rw [hupdate, hentry]
    by_cases hk : k = fd <;> simp [hk]
  · rw [FdSys.setFiles_other t hj, ht, FdSys.setFiles_other s hj]
    simp [hj]

structure Refined (env : FdEnv) (s : FdSys) (call : Posix.Call FilesId) (r : ℤ × FdSys) : Prop where
  step : ∃ res, r.1 = resultCode res ∧ Step env.rlimNofile env.nrOpen s.tables call res r.2.tables
  settled : ∀ i, NoneReserved (r.2.files i)

/-- A call that fails without an effect on the entries. -/
theorem Refined.fails {call : Posix.Call FilesId} {e : Posix.Errno} {r : ℤ × FdSys} (h : TablesOk s)
    (hr : r.1 = -errnoCode e) (hsame : ∀ j k, fdEntry (r.2.files j) k = fdEntry (s.files j) k)
    (hstep : Step env.rlimNofile env.nrOpen s.tables call (.error e) s.tables) :
    Refined env s call r := by
  refine ⟨⟨.error e, hr, ?_⟩, fun i fd => ?_⟩
  · rw [tables_congr hsame]
    exact hstep
  · rw [hsame]
    exact h.settled i fd

/-- A descriptor is reserved and the file of the descriptor `fd` of `src` installed in it. -/
theorem refined_dup {src dst : FilesId} {flags : ℕ} {t : FdSys} {r : ℤ × FdSys} (h : TablesOk s)
    (henv : env.Sane) (hx : GrowsExactly env.nrOpen (s.files dst) (candidateFd (s.files dst) start))
    (hd : s.slot src fd = some file)
    (hok : ∀ a, allocFd env.nrOpen start (env.rlimNofile % 2^32) flags mems (s.files dst) = a →
      (0 ≤ a.1 → t.files = (s.setFiles dst a.2).files ∧ r = (a.1, t.fdInstall dst a.1.toNat file)) ∧
        (a.1 < 0 → r.1 = a.1 ∧ (a.2 = s.files dst → r.2.files = s.files))) :
    Refined env s (.dup src dst fd start (decide (flags &&& oCloexec ≠ 0))) r := by
  have hlow := lowest_candidateFd h dst start
  obtain ⟨c, hdesc⟩ := tables_of_slot hd
  have hlim : env.rlimNofile % 2^32 = env.rlimNofile := Nat.mod_eq_of_lt henv.rlim
  rw [hlim] at hok
  obtain ⟨hyes, hno⟩ := hok _ rfl
  rcases allocFd_result (h.ok dst) env.nrOpen start env.rlimNofile flags mems henv.nrOpen hx with
    ⟨ha, hfull⟩ | ha | ⟨hret, hend, hroom, hentry⟩
  · rw [ha] at hno
    obtain ⟨hr, hfiles⟩ := hno (show (-EMFILE : ℤ) < 0 by decide)
    exact .fails (e := .mfile) h hr (fun j k => by rw [hfiles rfl]) (.dup_mfile hlow hfull)
  · rw [ha] at hno
    obtain ⟨hr, hfiles⟩ := hno (show (-ENOMEM : ℤ) < 0 by decide)
    exact .fails (e := .nomem) h hr (fun j k => by rw [hfiles rfl]) .dup_nomem
  · obtain ⟨hfiles, hr⟩ := hyes (by rw [hret]; exact Int.natCast_nonneg _)
    rw [hret, Int.toNat_natCast] at hr
    have hsets := setsEntry_install file hfiles hroom hentry
    rw [hr]
    refine ⟨⟨.fd _, rfl, ?_⟩, hsets.settled rfl h.settled⟩
    rw [hsets.tables]
    exact .dup hdesc hlow hend

theorem refined_allocInstall {src dst : FilesId} (flags : BitVec 32) (h : TablesOk s)
    (henv : env.Sane) (hx : GrowsExactly env.nrOpen (s.files dst) (candidateFd (s.files dst) 0))
    (hd : s.slot src fd = some file) :
    Refined env s (.dup src dst fd 0 (decide (flags.toNat &&& oCloexec ≠ 0)))
      (allocInstall env mems dst file flags (s.getFile file)) := by
  apply refined_dup h henv hx hd
    (t := (s.getFile file).setFiles dst
      (allocFd env.nrOpen 0 (env.rlimNofile % 2^32) flags.toNat mems (s.files dst)).2)
  rintro a rfl
  refine ⟨fun hge => ⟨rfl, ?_⟩, fun hlt => ?_⟩
  · unfold allocInstall
    exact if_pos hge
  · have hr : allocInstall env mems dst file flags (s.getFile file) =
        ((allocFd env.nrOpen 0 (env.rlimNofile % 2^32) flags.toNat mems (s.files dst)).1,
          ((s.getFile file).setFiles dst
            (allocFd env.nrOpen 0 (env.rlimNofile % 2^32) flags.toNat mems (s.files dst)).2).fput
              file) := by
      unfold allocInstall
      exact if_neg (not_le.2 hlt)
    rw [hr]
    refine ⟨rfl, fun hsame => ?_⟩
    rw [hsame]
    exact Function.update_eq_self dst s.files

theorem refined_fDupfd (flags : ℕ) (h : TablesOk s) (henv : env.Sane)
    (hstart : start < env.rlimNofile)
    (hx : GrowsExactly env.nrOpen (s.files cur) (candidateFd (s.files cur) start))
    (hd : s.slot cur fd = some file) :
    Refined env s (.dup cur cur fd start (decide (flags &&& oCloexec ≠ 0)))
      (fDupfd env mems cur start file flags s) := by
  apply refined_dup h henv hx hd
    (t := (s.setFiles cur
      (allocFd env.nrOpen start (env.rlimNofile % 2^32) flags mems (s.files cur)).2).getFile file)
  rintro a rfl
  unfold fDupfd
  rw [if_neg (not_le.2 hstart)]
  refine ⟨fun hge => ⟨rfl, if_pos hge⟩, fun hlt => ?_⟩
  dsimp only
  rw [if_neg (not_le.2 hlt)]
  refine ⟨rfl, fun hsame => ?_⟩
  rw [hsame]
  exact Function.update_eq_self cur s.files

/-- The common tail of `dup3` and `do_dup2_to_remote`. -/
theorem refined_expandDup2 {oldfd newfd : ℕ} (flags : BitVec 32) (h : TablesOk s) (henv : env.Sane)
    (hlim : newfd < env.rlimNofile) (hx : GrowsExactly env.nrOpen (s.files i) newfd) :
    Refined env s (.dup2 cur i oldfd newfd (decide (flags.toNat &&& oCloexec ≠ 0)))
      (expandDup2 env mem cur i oldfd newfd flags s) := by
  obtain ⟨hentry, hresult⟩ := expandFiles_result (h.ok i) env.nrOpen mem newfd henv.nrOpen hx
  unfold expandDup2
  dsimp only
  set g := expandFiles env.nrOpen mem (s.files i) newfd
  -- growing changes no entry, so the descriptor is found where it was
  have hsame (j : FilesId) (k : ℕ) : fdEntry ((s.setFiles i g.2).files j) k =
      fdEntry (s.files j) k := by
    by_cases hj : j = i
    · subst hj
      rw [FdSys.setFiles_self, hentry]
    · rw [FdSys.setFiles_other s hj]
  have hslot : fcheckFiles ((s.setFiles i g.2).files cur) oldfd = s.slot cur oldfd := by
    rw [← fdEntry_file, hsame, fdEntry_file]
    rfl
  rw [hslot]
  cases hd : s.slot cur oldfd with
  | none => exact .fails (e := .badf) h rfl hsame (.dup2_badf (.inl (tables_eq_none.2 hd)))
  | some file =>
    dsimp only
    rcases hresult with ⟨hge, hroom⟩ | ⟨hmfile, htop⟩ | hnomem
    · rw [if_neg (not_lt.2 hge)]
      obtain ⟨c, hdesc⟩ := tables_of_slot hd
      have hroom' : newfd < ((s.setFiles i g.2).files i).fdt.maxFds := by
        rw [FdSys.setFiles_self]
        exact hroom
      rcases (s.setFiles i g.2).doDup2_placed i file flags.toNat hroom' with
        ⟨⟨hnone, hopen⟩, -⟩ | ⟨-, hret, hplaced⟩
      · have hset := h.settled i newfd
        rw [hsame] at hnone hopen
        rw [hopen, hnone] at hset
        exact absurd hset (by decide)
      · have hsets :
            SetsEntry s i newfd ⟨some file, true, decide (flags.toNat &&& oCloexec ≠ 0)⟩ _ :=
          (hplaced.of_setFiles fun k => hentry k).setsEntry
        refine ⟨⟨.fd newfd, hret, ?_⟩, hsets.settled rfl h.settled⟩
        rw [hsets.tables]
        exact .dup2 hdesc hlim
    · rw [if_pos (by rw [hmfile]; decide), if_pos hmfile]
      exact .fails (e := .badf) h rfl hsame (.dup2_badf (.inr (.inr htop)))
    · rw [if_pos (by rw [hnomem]; decide), if_neg (by rw [hnomem]; decide)]
      exact .fails (e := .nomem) h hnomem hsame .dup2_nomem

theorem clearCloseOnExec_bits (fd : ℕ) (fdt : Fdtable) :
    (clearCloseOnExec fd fdt).openFds = fdt.openFds ∧
    (clearCloseOnExec fd fdt).closeOnExec = Function.update fdt.closeOnExec fd false := by
  unfold clearCloseOnExec
  split
  next => exact ⟨rfl, rfl⟩
  next hno => exact ⟨rfl, by rw [← Bool.eq_false_of_not_eq_true hno, Function.update_eq_self]⟩

/-- `__close_fd` takes the descriptor out, its mark included. -/
theorem setsEntry_closeFd (env : FdEnv) (hd : s.slot i fd = some file) :
    (s.closeFd env i fd).1 = env.flush file ∧
      SetsEntry s i fd ⟨none, false, false⟩ (s.closeFd env i fd).2 := by
  have hcheck : fcheckFiles (s.files i) fd = some file := hd
  unfold fcheckFiles at hcheck
  split at hcheck
  next hlt =>
    set fdt := (s.files i).fdt with hfdt
    let closed : FilesStruct := putUnusedFd
      { s.files i with
        fdt := clearCloseOnExec fd { fdt with fd := Function.update fdt.fd fd none } } fd
    have hr : s.closeFd env i fd = (env.flush file, (s.setFiles i closed).fput file) := by
      unfold FdSys.closeFd PtraceRemote.closeFd
      rw [if_neg (not_le.2 hlt), hcheck]
    rw [hr]
    refine ⟨rfl, fun j k => ?_⟩
    by_cases hj : j = i
    · subst hj
      have hself : ((s.setFiles j closed).fput file).files j = closed :=
        FdSys.setFiles_self s j closed
      obtain ⟨hopen, hmark⟩ :=
        clearCloseOnExec_bits fd { fdt with fd := Function.update fdt.fd fd none }
      have hbit : closed.fdt.openFds = Function.update fdt.openFds fd false := by
        show Function.update (clearCloseOnExec fd _).openFds fd false = _
        rw [hopen]
      rw [hself,
        fdEntry_update closed hlt (clearCloseOnExec_maxFds _) (clearCloseOnExec_fd _) hbit hmark]
      simp
    · have hother : ((s.setFiles i closed).fput file).files j = s.files j :=
        FdSys.setFiles_other s hj closed
      rw [hother, if_neg fun hjk => hj hjk.1]
  next => exact absurd hcheck (by simp)

theorem refined_closeFd (h : TablesOk s) : Refined env s (.close i fd) (s.closeFd env i fd) := by
  cases hd : s.slot i fd with
  | none =>
    rcases closeFd_cases (s.files i) fd with ⟨-, hr⟩ | ⟨file, hfile, -⟩
    · have hfail : s.closeFd env i fd = (-EBADF, s) := by
        unfold FdSys.closeFd
        rw [hr]
      rw [hfail]
      exact .fails (e := .badf) h rfl (fun _ _ => rfl) (.close_badf (tables_eq_none.2 hd))
    · exact absurd (hd.symm.trans hfile) (by simp)
  | some file =>
    obtain ⟨hret, hsets⟩ := setsEntry_closeFd env hd
    refine ⟨⟨.done (env.flush file), hret, ?_⟩, hsets.settled rfl h.settled⟩
    rw [hsets.tables]
    refine .close fun hnone => ?_
    rw [tables_eq_none, hd] at hnone
    exact absurd hnone (by simp)

/-- The marked descriptors are gone. -/
theorem desc_exec {e : FdEntry} : e.exec.desc = e.desc.filter fun d => !d.cloexec := by
  obtain ⟨file, isOpen, cloexec⟩ := e
  cases file <;> cases cloexec <;> rfl

theorem fdEntry_sys_doCloseOnExec (h : FdSysOk s) (i j : FilesId) (k : ℕ) :
    fdEntry ((s.doCloseOnExec i).files j) k =
      if j = i then (fdEntry (s.files i) k).exec else fdEntry (s.files j) k := by
  have hfiles : (s.doCloseOnExec i).files = (s.setFiles i (doCloseOnExec (s.files i)).1).files :=
    FdSys.foldl_fput_files _ _
  rw [hfiles]
  split
  next hj =>
    rw [hj, FdSys.setFiles_self]
    exact fdEntry_doCloseOnExec (h i).fdt.max_dvd k
  next hj => rw [FdSys.setFiles_other s hj]

theorem refined_exec (h : TablesOk s) : Refined env s (.exec i) (0, s.doCloseOnExec i) := by
  have hentry := fdEntry_sys_doCloseOnExec h.ok i
  refine ⟨⟨.done 0, rfl, ?_⟩, fun j fd => ?_⟩
  · have htables : (s.doCloseOnExec i).tables =
        Function.update s.tables i fun fd => (s.tables i fd).filter fun d => !d.cloexec := by
      funext j k
      rw [FdSys.tables, hentry]
      by_cases hj : j = i
      · subst hj
        rw [if_pos rfl, Function.update_self, desc_exec]
        rfl
      · rw [if_neg hj, Function.update_of_ne hj]
        rfl
    rw [htables]
    exact .exec
  · rw [hentry]
    split
    · have hset := h.settled i fd
      unfold FdEntry.exec
      split
      · rfl
      · exact hset
    · exact h.settled j fd

/-- `dup_fd` makes a table with the same descriptors. -/
theorem refined_dupFd {newf : Option RawMem} {j : FilesId} (h : TablesOk s) :
    Refined env s (.fork i j) (s.dupFd env newf mem i j) := by
  rcases dupFd_cases env.nrOpen newf mem (s.files i) with ⟨-, he⟩ | ⟨-, he⟩ | ⟨t, hd, hle, hlt, hok⟩
  · have hr : s.dupFd env newf mem i j = (-ENOMEM, s) := by
      unfold FdSys.dupFd
      rw [he]
    rw [hr]
    exact .fails (e := .nomem) h rfl (fun _ _ => rfl) (.fork_fails (by decide))
  · have hr : s.dupFd env newf mem i j = (-EMFILE, s) := by
      unfold FdSys.dupFd
      rw [he]
    rw [hr]
    exact .fails (e := .mfile) h rfl (fun _ _ => rfl) (.fork_fails (by decide))
  · have hr : s.dupFd env newf mem i j =
        (0, (dupFill (s.files i) t).2.foldl FdSys.getFile
          (s.setFiles j (dupFill (s.files i) t).1)) := by
      unfold FdSys.dupFd
      rw [hok]
    have hfiles :
        (s.dupFd env newf mem i j).2.files = (s.setFiles j (dupFill (s.files i) t).1).files := by
      rw [hr]
      exact FdSys.foldl_getFile_files _ _
    have hforked := dupFill_entry (h.ok i) hd hle hlt
    have hdesc (k : ℕ) : (fdEntry (dupFill (s.files i) t).1 k).desc =
        (fdEntry (s.files i) k).desc := by
      unfold FdEntry.desc
      rw [(hforked k).file]
      cases hfile : (fdEntry (s.files i) k).file with
      | none => rfl
      | some f => rw [(hforked k).cloexec (by rw [hfile]; simp)]
    refine ⟨⟨.done 0, congrArg Prod.fst hr, ?_⟩, fun p k => ?_⟩
    · have htables :
          (s.dupFd env newf mem i j).2.tables = Function.update s.tables j (s.tables i) := by
        funext p k
        rw [FdSys.tables, hfiles]
        by_cases hp : p = j
        · subst hp
          rw [FdSys.setFiles_self, Function.update_self]
          exact hdesc k
        · rw [FdSys.setFiles_other s hp, Function.update_of_ne hp]
          rfl
      rw [htables]
      exact .fork
    · rw [hfiles]
      by_cases hp : p = j
      · subst hp
        rw [FdSys.setFiles_self, (hforked k).isOpen, (hforked k).file]
      · rw [FdSys.setFiles_other s hp]
        exact h.settled p k

/-! All calls, one after the other. -/

/-- A descriptor call of a task, or a request that it makes as a tracer. `fork` stands for `dup_fd`
into the table `j`, `exec` for `do_close_on_exec`. -/
inductive FdCall where
  | dup (fildes : ℕ)
  | dup2 (oldfd newfd : ℕ)
  | dup3 (oldfd newfd : ℕ) (flags : BitVec 32)
  | dupfd (fd start flags : ℕ)
  | close (fd : ℕ)
  | fork (j : FilesId) (newf : Option RawMem)
  | exec
  | dupToRemote (child : FilesId) (data : Option DupToRemoteArgs)
  | dup2ToRemote (child : FilesId) (data : Option Dup2ToRemoteArgs)
  | dupFromRemote (child : FilesId) (data : Option DupFromRemoteArgs)
  | remoteClose (child : FilesId) (data : Option RemoteCloseArgs)

structure FdCallStep where
  env : FdEnv
  mems : List (Option RawMem) := []
  cur : FilesId
  call : FdCall

def FdCallStep.exec (s : FdSys) (st : FdCallStep) : ℤ × FdSys :=
  let mem := st.mems.headD none
  match st.call with
  | .dup fildes => PtraceRemote.dup st.env st.mems st.cur fildes s
  | .dup2 oldfd newfd => PtraceRemote.dup2 st.env mem st.cur oldfd newfd s
  | .dup3 oldfd newfd flags => PtraceRemote.dup3 st.env mem st.cur oldfd newfd flags s
  | .dupfd fd start flags =>
    match fcheckFiles (s.files st.cur) fd with
    | none => (-EBADF, s)
    | some file => fDupfd st.env st.mems st.cur start file flags s
  | .close fd => s.closeFd st.env st.cur fd
  | .fork j newf => s.dupFd st.env newf mem st.cur j
  | .exec => (0, s.doCloseOnExec st.cur)
  | .dupToRemote child data => ptraceDupToRemote st.env st.mems st.cur child data s
  | .dup2ToRemote child data => ptraceDup2ToRemote st.env mem st.cur child data s
  | .dupFromRemote child data => ptraceDupFromRemote st.env st.mems st.cur child data s
  | .remoteClose child data => ptraceRemoteClose st.env child data s

def cloexecOf (flags : ℕ) : Bool := decide (flags &&& oCloexec ≠ 0)

def FdCallStep.posix (st : FdCallStep) : Option (Posix.Call FilesId) :=
  match st.call with
  | .dup fildes => some (.dup st.cur st.cur fildes 0 false)
  | .dup2 oldfd newfd =>
    if newfd = oldfd then some (.dup2Same st.cur oldfd)
      else some (.dup2 st.cur st.cur oldfd newfd false)
  | .dup3 oldfd newfd flags =>
    if badFlags flags ∨ oldfd = newfd then none
    else some (.dup2 st.cur st.cur oldfd newfd (cloexecOf flags.toNat))
  | .dupfd fd start flags =>
    if st.env.rlimNofile ≤ start then none else some (.dup st.cur st.cur fd start (cloexecOf flags))
  | .close fd => some (.close st.cur fd)
  | .fork j _ => some (.fork st.cur j)
  | .exec => some (.exec st.cur)
  | .dupToRemote child data => data.bind fun args => if badFlags args.flags then none
      else some (.dup st.cur child args.localFd.toNat 0 (cloexecOf args.flags.toNat))
  | .dup2ToRemote child data => data.bind fun args => if badFlags args.flags then none
      else some
      (.dup2 st.cur child args.localFd.toNat args.remoteFd.toNat (cloexecOf args.flags.toNat))
  | .dupFromRemote child data => data.bind fun args => if badFlags args.flags then none
      else some (.dup child st.cur args.remoteFd.toNat 0 (cloexecOf args.flags.toNat))
  | .remoteClose child data => data.map fun args => .close child args.remoteFd.toNat

/-- What is asked of a call: limits that the system allows, and tables that are copied exactly when
they grow. The file that `PTRACE_DUP_FROM_REMOTE` is asked for is not an `O_PATH` one, which it
would refuse. -/
structure FdCallStep.Valid (s : FdSys) (st : FdCallStep) : Prop where
  sane : st.env.Sane
  grows : ∀ src dst fd start c, st.posix = some (.dup src dst fd start c) →
    GrowsExactly st.env.nrOpen (s.files dst) (candidateFd (s.files dst) start)
  grows2 : ∀ src dst old new c, st.posix = some (.dup2 src dst old new c) →
    GrowsExactly st.env.nrOpen (s.files dst) new
  noPath : ∀ child args, st.call = .dupFromRemote child (some args) → ∀ f,
    s.slot child args.remoteFd.toNat = some f → st.env.fMode f &&& fmodePath = 0

/-- The call did what POSIX says, or nothing, if its arguments were refused. -/
def FdCallStep.Refines (s : FdSys) (st : FdCallStep) : Prop :=
  match st.posix with
  | some call => ∃ res, (st.exec s).1 = resultCode res ∧
      Step st.env.rlimNofile st.env.nrOpen s.tables call res (st.exec s).2.tables
  | none => (st.exec s).1 < 0 ∧ (st.exec s).2.tables = s.tables

theorem fdSysOk_fDupfd (flags : ℕ) (h : FdSysOk s)
    (hx : GrowsExactly env.nrOpen (s.files cur) (candidateFd (s.files cur) start)) :
    FdSysOk (fDupfd env mems cur start file flags s).2 := by
  have hok := filesOk_allocFd (h cur) env.nrOpen start (env.rlimNofile % 2^32) flags mems hx
  unfold fDupfd
  split
  next => exact h
  next =>
    dsimp only
    split
    next hge =>
      rcases allocFd_cases (h cur) env.nrOpen start (env.rlimNofile % 2^32) flags mems hx with
        ⟨e, he, hr⟩ | ⟨files', -, -, -, -, -, hr⟩
      · rw [hr] at hge
        exact absurd hge (show ¬(-e : ℤ) ≥ 0 by omega)
      · rw [hr] at hok ⊢
        obtain ⟨hopen, hnone⟩ :=
          takeFd_reserved files' start flags (candidateFd (s.files cur) start)
        have hset : FdSysOk
          ((s.setFiles cur (takeFd files' start flags (candidateFd (s.files cur) start))).getFile
            file) := (h.setFiles cur hok).of_files rfl
        have hself :
            ((s.setFiles cur (takeFd files' start flags (candidateFd (s.files cur) start))).getFile
              file).files cur = takeFd files' start flags (candidateFd (s.files cur) start) :=
              FdSys.setFiles_self ..
        refine (fdSysOk_fdInstall hset file ?_ ?_).1 <;> rw [hself, Int.toNat_natCast]
        · exact hopen
        · exact hnone
    next => exact h.setFiles cur hok

/-- A call whose arguments are accepted. -/
theorem Refined.call {st : FdCallStep} {call : Posix.Call FilesId} (hp : st.posix = some call)
    (hr : Refined st.env s call (st.exec s)) (hok : FdSysOk (st.exec s).2) :
    st.Refines s ∧ TablesOk (st.exec s).2 := by
  refine ⟨?_, hok, hr.settled⟩
  unfold FdCallStep.Refines
  rw [hp]
  exact hr.step

/-- A call whose arguments are refused. -/
theorem FdCallStep.refines_refused {st : FdCallStep} {e : ℤ} (hp : st.posix = none)
    (he : st.exec s = (-e, s)) (hpos : 0 < e) (h : TablesOk s) :
    st.Refines s ∧ TablesOk (st.exec s).2 := by
  unfold FdCallStep.Refines
  rw [hp, he]
  exact ⟨⟨neg_lt_zero.2 hpos, rfl⟩, h⟩

theorem fgetFiles_zero (fMode : FileId → ℕ) (files : FilesStruct) (fd : ℕ) :
    fgetFiles fMode files fd 0 = fcheckFiles files fd := by
  unfold fgetFiles
  cases fcheckFiles files fd <;> simp

def dupFound (env : FdEnv) (mems : List (Option RawMem)) (dst : FilesId) (flags : BitVec 32)
    (found : Option FileId) (s : FdSys) : ℤ × FdSys :=
  match found with
  | none => (-EBADF, s)
  | some file => allocInstall env mems dst file flags (s.getFile file)

theorem refined_dupFound {src dst : FilesId} {found : Option FileId} (mems : List (Option RawMem))
    (flags : BitVec 32) (h : TablesOk s) (henv : env.Sane)
    (hx : GrowsExactly env.nrOpen (s.files dst) (candidateFd (s.files dst) 0))
    (hfound : found = s.slot src fd) :
    Refined env s (.dup src dst fd 0 (cloexecOf flags.toNat))
      (dupFound env mems dst flags found s) ∧ FdSysOk (dupFound env mems dst flags found s).2 := by
  cases found with
  | none =>
    exact ⟨.fails (e := .badf) h rfl (fun _ _ => rfl) (.dup_badf (tables_eq_none.2 hfound.symm)),
      h.ok⟩
  | some file =>
    have hok : FdSysOk (s.getFile file) := h.ok.of_files rfl
    exact ⟨refined_allocInstall flags h henv hx hfound.symm,
      (fdSysOk_allocInstall hok env mems dst file flags hx).1⟩

/-- The check of the limit, and then the common tail. -/
theorem refined_dup2 (mem : Option RawMem) (cur : FilesId) (oldfd : ℕ) {newfd : ℕ}
    (flags : BitVec 32) (h : TablesOk s) (henv : env.Sane)
    (hx : GrowsExactly env.nrOpen (s.files i) newfd) :
    let r :=
      if newfd ≥ env.rlimNofile then (-EBADF, s) else expandDup2 env mem cur i oldfd newfd flags s
    Refined env s (.dup2 cur i oldfd newfd (cloexecOf flags.toNat)) r ∧ FdSysOk r.2 := by
  dsimp only
  split
  next hlim =>
    exact ⟨.fails (e := .badf) h rfl (fun _ _ => rfl) (.dup2_badf (.inr (.inl hlim))), h.ok⟩
  next hlim => exact ⟨refined_expandDup2 flags h henv (not_le.1 hlim) hx,
      (expandDup2_kept h.ok env mem cur (Finset.mem_singleton_self i) oldfd flags hx).ok⟩

theorem dup3_eq {oldfd newfd : ℕ} {flags : BitVec 32} (hflags : badFlags flags = false)
    (hne : oldfd ≠ newfd) :
    dup3 env mem cur oldfd newfd flags s =
      if newfd ≥ env.rlimNofile then (-EBADF, s)
        else expandDup2 env mem cur cur oldfd newfd flags s := by
  unfold dup3
  rw [if_neg (by rw [hflags]; decide), if_neg hne]

theorem dup2_same : dup2 env mem cur fd fd s = if s.slot cur fd = none then (-EBADF, s)
    else ((fd : ℤ), s) := by
  unfold dup2 FdSys.slot
  rw [if_pos rfl]
  cases fcheckFiles (s.files cur) fd <;> rfl

section Calls
variable (h : TablesOk s)
include h

theorem refines_dup2 {oldfd newfd : ℕ}
    (hv : FdCallStep.Valid s ⟨env, mems, cur, .dup2 oldfd newfd⟩) :
    FdCallStep.Refines s ⟨env, mems, cur, .dup2 oldfd newfd⟩ ∧
      TablesOk (FdCallStep.exec s ⟨env, mems, cur, .dup2 oldfd newfd⟩).2 := by
  by_cases heq : newfd = oldfd
  · subst heq
    have hp : FdCallStep.posix ⟨env, mems, cur, .dup2 newfd newfd⟩ = some (.dup2Same cur newfd) :=
      if_pos rfl
    have he : FdCallStep.exec s ⟨env, mems, cur, .dup2 newfd newfd⟩ = _ := dup2_same
    by_cases hd : s.slot cur newfd = none
    · rw [if_pos hd] at he
      refine Refined.call hp ?_ (by rw [he]; exact h.ok)
      rw [he]
      exact .fails (e := .badf) h rfl (fun _ _ => rfl) (.dup2Same_badf (tables_eq_none.2 hd))
    · rw [if_neg hd] at he
      refine Refined.call hp ?_ (by rw [he]; exact h.ok)
      rw [he]
      exact ⟨⟨.fd newfd, rfl, .dup2Same fun hnone => hd (tables_eq_none.1 hnone)⟩, h.settled⟩
  · have hp : FdCallStep.posix ⟨env, mems, cur, .dup2 oldfd newfd⟩ =
        some (.dup2 cur cur oldfd newfd false) :=
      if_neg heq
    have he : FdCallStep.exec s ⟨env, mems, cur, .dup2 oldfd newfd⟩ =
        dup3 env (mems.headD none) cur oldfd newfd 0 s := if_neg heq
    rw [dup3_eq rfl (Ne.symm heq)] at he
    obtain ⟨hr, hok⟩ := refined_dup2 (mems.headD none) cur oldfd 0 h hv.sane
      (hv.grows2 _ _ _ _ _ hp)
    exact Refined.call hp (by rw [he]; exact hr) (by rw [he]; exact hok)

theorem refines_dup3 {oldfd newfd : ℕ} {flags : BitVec 32}
    (hv : FdCallStep.Valid s ⟨env, mems, cur, .dup3 oldfd newfd flags⟩) :
    FdCallStep.Refines s ⟨env, mems, cur, .dup3 oldfd newfd flags⟩ ∧
      TablesOk (FdCallStep.exec s ⟨env, mems, cur, .dup3 oldfd newfd flags⟩).2 := by
  by_cases hbad : badFlags flags = true ∨ oldfd = newfd
  · have hp : FdCallStep.posix ⟨env, mems, cur, .dup3 oldfd newfd flags⟩ = none := if_pos hbad
    refine FdCallStep.refines_refused (e := EINVAL) hp ?_ (by decide) h
    show dup3 env _ cur oldfd newfd flags s = _
    unfold dup3
    split
    next => rfl
    next hgood => rw [if_pos (hbad.resolve_left hgood)]
  · have hp : FdCallStep.posix ⟨env, mems, cur, .dup3 oldfd newfd flags⟩ =
        some (.dup2 cur cur oldfd newfd (cloexecOf flags.toNat)) := if_neg hbad
    obtain ⟨hgood, hne⟩ := not_or.1 hbad
    have he : FdCallStep.exec s ⟨env, mems, cur, .dup3 oldfd newfd flags⟩ = _ :=
      dup3_eq (Bool.eq_false_of_not_eq_true hgood) hne
    obtain ⟨hr, hok⟩ := refined_dup2 (mems.headD none) cur oldfd flags h hv.sane
      (hv.grows2 _ _ _ _ _ hp)
    exact Refined.call hp (by rw [he]; exact hr) (by rw [he]; exact hok)

theorem refines_dupfd {flags : ℕ}
    (hv : FdCallStep.Valid s ⟨env, mems, cur, .dupfd fd start flags⟩) :
    FdCallStep.Refines s ⟨env, mems, cur, .dupfd fd start flags⟩ ∧
      TablesOk (FdCallStep.exec s ⟨env, mems, cur, .dupfd fd start flags⟩).2 := by
  cases hd : fcheckFiles (s.files cur) fd with
  | none =>
    have he : FdCallStep.exec s ⟨env, mems, cur, .dupfd fd start flags⟩ = (-EBADF, s) := by
      unfold FdCallStep.exec
      dsimp only
      rw [hd]
    by_cases hlim : env.rlimNofile ≤ start
    · exact FdCallStep.refines_refused (if_pos hlim) he (by decide) h
    · refine Refined.call (if_neg hlim) ?_ (by rw [he]; exact h.ok)
      rw [he]
      exact .fails (e := .badf) h rfl (fun _ _ => rfl) (.dup_badf (tables_eq_none.2 hd))
  | some file =>
    have he : FdCallStep.exec s ⟨env, mems, cur, .dupfd fd start flags⟩ =
        fDupfd env mems cur start file flags s := by
      unfold FdCallStep.exec
      dsimp only
      rw [hd]
    by_cases hlim : env.rlimNofile ≤ start
    · exact FdCallStep.refines_refused (e := EINVAL) (if_pos hlim) (he.trans (if_pos hlim))
        (by decide) h
    · have hp : FdCallStep.posix ⟨env, mems, cur, .dupfd fd start flags⟩ =
          some (.dup cur cur fd start (cloexecOf flags)) := if_neg hlim
      have hx := hv.grows _ _ _ _ _ hp
      exact Refined.call hp (by rw [he]; exact refined_fDupfd flags h hv.sane (not_le.1 hlim) hx hd)
        (by rw [he]; exact fdSysOk_fDupfd flags h.ok hx)

theorem refines_dupToRemote {data : Option DupToRemoteArgs}
    (hv : FdCallStep.Valid s ⟨env, mems, cur, .dupToRemote child data⟩) :
    FdCallStep.Refines s ⟨env, mems, cur, .dupToRemote child data⟩ ∧
      TablesOk (FdCallStep.exec s ⟨env, mems, cur, .dupToRemote child data⟩).2 := by
  cases data with
  | none => exact FdCallStep.refines_refused (e := EFAULT) rfl rfl (by decide) h
  | some args =>
    by_cases hbad : badFlags args.flags = true
    · exact FdCallStep.refines_refused (e := EINVAL) (if_pos hbad) (if_pos hbad) (by decide) h
    · have hp : FdCallStep.posix ⟨env, mems, cur, .dupToRemote child (some args)⟩ =
          some (.dup cur child args.localFd.toNat 0 (cloexecOf args.flags.toNat)) := if_neg hbad
      have he : FdCallStep.exec s ⟨env, mems, cur, .dupToRemote child (some args)⟩ =
          dupFound env mems child args.flags
          (fgetFiles env.fMode (s.files cur) args.localFd.toNat 0) s := if_neg hbad
      obtain ⟨hr, hok⟩ := refined_dupFound mems args.flags h hv.sane (hv.grows _ _ _ _ _ hp)
        (fgetFiles_zero env.fMode (s.files cur) args.localFd.toNat)
      exact Refined.call hp (by rw [he]; exact hr) (by rw [he]; exact hok)

theorem refines_dup2ToRemote {data : Option Dup2ToRemoteArgs}
    (hv : FdCallStep.Valid s ⟨env, mems, cur, .dup2ToRemote child data⟩) :
    FdCallStep.Refines s ⟨env, mems, cur, .dup2ToRemote child data⟩ ∧
      TablesOk (FdCallStep.exec s ⟨env, mems, cur, .dup2ToRemote child data⟩).2 := by
  cases data with
  | none => exact FdCallStep.refines_refused (e := EFAULT) rfl rfl (by decide) h
  | some args =>
    by_cases hbad : badFlags args.flags = true
    · exact FdCallStep.refines_refused (e := EINVAL) (if_pos hbad) (if_pos hbad) (by decide) h
    · have hp : FdCallStep.posix ⟨env, mems, cur, .dup2ToRemote child (some args)⟩ =
        some (.dup2 cur child
          args.localFd.toNat args.remoteFd.toNat (cloexecOf args.flags.toNat)) := if_neg hbad
      have he : FdCallStep.exec s ⟨env, mems, cur, .dup2ToRemote child (some args)⟩ =
          if args.remoteFd.toNat ≥ env.rlimNofile then (-EBADF, s)
          else expandDup2 env (mems.headD none) cur child args.localFd.toNat args.remoteFd.toNat
              args.flags s :=
        if_neg hbad
      obtain ⟨hr, hok⟩ := refined_dup2 (mems.headD none) cur args.localFd.toNat args.flags h hv.sane
        (hv.grows2 _ _ _ _ _ hp)
      exact Refined.call hp (by rw [he]; exact hr) (by rw [he]; exact hok)

theorem refines_dupFromRemote {data : Option DupFromRemoteArgs}
    (hv : FdCallStep.Valid s ⟨env, mems, cur, .dupFromRemote child data⟩) :
    FdCallStep.Refines s ⟨env, mems, cur, .dupFromRemote child data⟩ ∧
      TablesOk (FdCallStep.exec s ⟨env, mems, cur, .dupFromRemote child data⟩).2 := by
  cases data with
  | none => exact FdCallStep.refines_refused (e := EFAULT) rfl rfl (by decide) h
  | some args =>
    by_cases hbad : badFlags args.flags = true
    · exact FdCallStep.refines_refused (e := EINVAL) (if_pos hbad) (if_pos hbad) (by decide) h
    · have hp : FdCallStep.posix ⟨env, mems, cur, .dupFromRemote child (some args)⟩ =
          some (.dup child cur args.remoteFd.toNat 0 (cloexecOf args.flags.toNat)) := if_neg hbad
      have he : FdCallStep.exec s ⟨env, mems, cur, .dupFromRemote child (some args)⟩ =
          dupFound env mems cur args.flags
          (fgetFiles env.fMode (s.files child) args.remoteFd.toNat fmodePath) s :=
        if_neg hbad
      -- the mask hides nothing
      have hfound : fgetFiles env.fMode (s.files child) args.remoteFd.toNat fmodePath =
          s.slot child args.remoteFd.toNat := by
        have hmode := hv.noPath child args rfl
        unfold fgetFiles
        unfold FdSys.slot at hmode ⊢
        cases hd : fcheckFiles (s.files child) args.remoteFd.toNat with
        | none => rfl
        | some f => exact Option.filter_some_pos (by simp [hmode f hd])
      obtain ⟨hr, hok⟩ := refined_dupFound mems args.flags h hv.sane (hv.grows _ _ _ _ _ hp) hfound
      exact Refined.call hp (by rw [he]; exact hr) (by rw [he]; exact hok)

end Calls

/-- One call. -/
theorem FdCallStep.refines_step (st : FdCallStep) (h : TablesOk s) (hv : st.Valid s) :
    st.Refines s ∧ TablesOk (st.exec s).2 := by
  obtain ⟨env, mems, cur, call⟩ := st
  cases call with
  | dup fildes =>
    obtain ⟨hr, hok⟩ := refined_dupFound mems 0 h hv.sane (hv.grows _ _ _ _ _ rfl)
      (fgetFiles_zero env.fMode (s.files cur) fildes)
    exact Refined.call rfl hr hok
  | dup2 oldfd newfd => exact refines_dup2 h hv
  | dup3 oldfd newfd flags => exact refines_dup3 h hv
  | dupfd fd start flags => exact refines_dupfd h hv
  | close fd => exact Refined.call rfl (refined_closeFd h) (fdSysOk_closeFd h.ok env cur fd)
  | fork j newf => exact Refined.call rfl (refined_dupFd h) (fdSysOk_dupFd h.ok env newf _ cur j)
  | exec => exact Refined.call rfl (refined_exec h) (fdSysOk_doCloseOnExec h.ok cur)
  | dupToRemote child data => exact refines_dupToRemote h hv
  | dup2ToRemote child data => exact refines_dup2ToRemote h hv
  | dupFromRemote child data => exact refines_dupFromRemote h hv
  | remoteClose child data =>
    cases data with
    | none => exact FdCallStep.refines_refused (e := EFAULT) rfl rfl (by decide) h
    | some args => exact Refined.call rfl (refined_closeFd h) (fdSysOk_closeFd h.ok env child _)

open Runs (run Every)

def FdCallStep.after (s : FdSys) (st : FdCallStep) : FdSys := (st.exec s).2

/-- A run of descriptor calls and requests, by any tasks and on any tables, is one that POSIX
allows, as long as tables grow only to sizes that `copy_fdtable` copies and `PTRACE_DUP_FROM_REMOTE`
is not asked for an `O_PATH` file: what the tables show changes as POSIX says, and the results are
those it gives. A request of a tracer is then the call that it stands for, with the tables of the
two tasks. -/
theorem fdCalls_refine_posix (s : FdSys) (steps : List FdCallStep) (h : TablesOk s)
    (hv : Every FdCallStep.after FdCallStep.Valid s steps) :
    Every FdCallStep.after FdCallStep.Refines s steps ∧ TablesOk (run FdCallStep.after s steps) :=
  hv.under h fun _ st h hv => st.refines_step h hv

theorem tablesOk_twoTables : TablesOk twoTables := by
  refine ⟨fdSysOk_twoTables, fun i fd => ?_⟩
  have hone (file : FileId) :
      (fdEntry (oneFile file) fd).isOpen = (fdEntry (oneFile file) fd).file.isSome := by
    unfold fdEntry oneFile
    dsimp only
    split
    · by_cases hz : fd = 0 <;> simp [hz]
    · rfl
  show (fdEntry (if i = 0 then oneFile 7 else oneFile 8) fd).isOpen =
    (fdEntry (if i = 0 then oneFile 7 else oneFile 8) fd).file.isSome
  split <;> exact hone _

/-- The tracer gives its file 7 to the tracee as descriptor 1, the tracee makes it its descriptor 0
as well, and takes descriptor 1 out again. -/
theorem fdCalls_refine_posix_twoTables :
    let step (cur : FilesId) (call : FdCall) : FdCallStep := { env := smallEnv 0, cur, call }
    let steps := [step 0 (.dupToRemote 1 (some ⟨0, 0⟩)), step 1 (.dup2 1 0), step 1 (.close 1)]
    Every FdCallStep.after FdCallStep.Refines twoTables steps ∧
      (run FdCallStep.after twoTables steps).tables 1 0 = some ⟨7, false⟩ ∧
      (run FdCallStep.after twoTables steps).tables 1 1 = none := by
  intro step steps
  have hsane : (smallEnv 0).Sane := ⟨by decide, by decide⟩
  refine ⟨(fdCalls_refine_posix twoTables steps tablesOk_twoTables ⟨?_, ?_, ?_, trivial⟩).1,
    by decide +kernel, by decide +kernel⟩
  · refine ⟨hsane, fun _ _ _ _ _ hp => ?_, fun _ _ _ _ _ hp => (by cases hp),
      fun _ _ hc => by cases hc⟩
    cases hp
    decide
  · refine ⟨hsane, fun _ _ _ _ _ hp => (by cases hp), fun _ _ _ _ _ hp => ?_,
      fun _ _ hc => by cases hc⟩
    cases hp
    decide +kernel
  · exact ⟨hsane, fun _ _ _ _ _ hp => (by cases hp),
      fun _ _ _ _ _ hp => (by cases hp), fun _ _ hc => by cases hc⟩

end PtraceRemote
