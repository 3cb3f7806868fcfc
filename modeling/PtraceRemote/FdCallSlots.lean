import PtraceRemote.FdCallRefs

/-! What descriptor calls and requests do to the slots of the tables: which files they put there,
and which they leave. -/
namespace PtraceRemote

variable {s s' : FdSys} {i j cur child : FilesId} {f file : FileId} {k : ℕ} {env : FdEnv}
  {mem : Option RawMem} {mems : List (Option RawMem)}

def AddsFile (s : FdSys) (i : FilesId) (file : FileId) (s' : FdSys) : Prop :=
  (∀ j k, s'.slot j k = s.slot j k) ∨
    ∃ n, s.slot i n = none ∧ ∀ j k, s'.slot j k = if j = i ∧ k = n then some file else s.slot j k

theorem AddsFile.keeps (h : AddsFile s i file s') (hk : s.slot j k = some f) :
    s'.slot j k = some f := by
  rcases h with hsame | ⟨n, hfree, hput⟩
  · rw [hsame, hk]
  · rw [hput, if_neg _, hk]
    rintro ⟨rfl, rfl⟩
    exact absurd (hfree.symm.trans hk) (by simp)

theorem AddsFile.gains (h : AddsFile s i file s') (hk : s'.slot j k = some f) :
    s.slot j k = some f ∨ f = file := by
  rcases h with hsame | ⟨n, -, hput⟩
  · exact .inl ((hsame j k).symm.trans hk)
  · rw [hput] at hk
    split at hk
    next => exact .inr (Option.some.inj hk).symm
    next => exact .inl hk

theorem addsFile_allocInstall (h : FdSysOk s) (env : FdEnv) (mems : List (Option RawMem))
    (i : FilesId) (file : FileId) (flags : BitVec 32)
    (hx : GrowsExactly env.nrOpen (s.files i) (candidateFd (s.files i) 0)) :
    AddsFile s i file (allocInstall env mems i file flags (s.getFile file)).2 := by
  rcases allocInstall_cases h env mems i file flags hx with hr | hinst
  · rw [hr]
    exact .inl fun _ _ => rfl
  · exact .inr ⟨_, hinst.free, hinst.slot⟩

/-- A file that `expand_files` and `do_dup2` put into a table was one of the caller's. -/
theorem expandDup2_gains {oldfd newfd : ℕ} {flags : BitVec 32}
    (hx : GrowsExactly env.nrOpen (s.files i) newfd)
    (hk : (expandDup2 env mem cur i oldfd newfd flags s).2.slot j k = some f) :
    s.slot j k = some f ∨ s.slot cur oldfd = some f := by
  set t := s.setFiles i (expandFiles env.nrOpen mem (s.files i) newfd).2
  have hgrow (j : FilesId) (k : ℕ) : t.slot j k = s.slot j k := by
    unfold t
    rw [slot_setFiles]
    split
    next hj => rw [hj, fcheckFiles_expand hx]; rfl
    next => rfl
  rw [← hgrow j k, ← hgrow cur oldfd]
  have hsource : fcheckFiles (t.files cur) oldfd = t.slot cur oldfd := rfl
  unfold expandDup2 at hk
  dsimp only at hk
  cases hfile : fcheckFiles (t.files cur) oldfd with
  | none =>
    rw [hfile] at hk
    exact .inl hk
  | some file =>
    rw [hfile] at hk
    dsimp only at hk
    split at hk
    · split at hk <;> exact .inl hk
    next hpos =>
      have hlt : newfd < (t.files i).fdt.maxFds := by
        rw [FdSys.setFiles_self]
        exact lt_maxFds_of_expandFiles (not_lt.1 hpos)
      rcases t.doDup2_placed i file flags.toNat hlt with ⟨-, hr⟩ | ⟨-, -, hplaced⟩
      · rw [hr] at hk
        exact .inl hk
      · rw [hplaced.slot] at hk
        split at hk
        next => exact .inr (hsource.symm.trans (hfile.trans hk))
        next => exact .inl hk

theorem fgetFiles_some {fMode : FileId → ℕ} {files : FilesStruct} {fd mask : ℕ}
    (h : fgetFiles fMode files fd mask = some file) : fcheckFiles files fd = some file :=
  (Option.filter_eq_some_iff.1 h).1

theorem closeFd_gains {fd : ℕ} (hk : (s.closeFd env i fd).2.slot j k = some f) :
    s.slot j k = some f := by
  cases hslot : s.slot i fd with
  | none =>
    rcases closeFd_cases (s.files i) fd with ⟨-, hr⟩ | ⟨file, hfile, -⟩
    · unfold FdSys.closeFd at hk
      rwa [hr] at hk
    · exact absurd (hslot.symm.trans hfile) (by simp)
  | some file =>
    rw [(closeFd_slot env hslot).1] at hk
    split at hk
    next => cases hk
    next => exact hk

theorem addsFile_fDupfd (h : FdSysOk s) (mems : List (Option RawMem)) (start : ℕ) (file : FileId)
    (flags : ℕ) (hopen : env.nrOpen ≤ sysctlNrOpenMax)
    (hx : GrowsExactly env.nrOpen (s.files cur) (candidateFd (s.files cur) start)) :
    AddsFile s cur file (fDupfd env mems cur start file flags s).2 := by
  rcases fDupfd_cases h mems start file flags hopen hx with hsame | ⟨-, -, -, c, hset⟩
  · rw [hsame]
    exact .inl fun _ _ => rfl
  · exact .inr ⟨_, slot_candidateFd h cur start, hset.slot⟩

/-- `dup` and the requests that take the lowest descriptor. -/
theorem addsFile_dupFound (h : FdSysOk s) (env : FdEnv) (mems : List (Option RawMem)) (i : FilesId)
    (flags : BitVec 32) (found : Option FileId)
    (hx : GrowsExactly env.nrOpen (s.files i) (candidateFd (s.files i) 0)) :
    (dupFound env mems i flags found s).2 = s ∨
      ∃ file, found = some file ∧ AddsFile s i file (dupFound env mems i flags found s).2 := by
  cases found with
  | none => exact .inl rfl
  | some file => exact .inr ⟨file, rfl, addsFile_allocInstall h env mems i file flags hx⟩

theorem ptraceDupToRemote_eq (env : FdEnv) (mems : List (Option RawMem)) (cur child : FilesId)
    (s : FdSys) (data : Option DupToRemoteArgs) :
    (ptraceDupToRemote env mems cur child data s).2 = s ∨
      ∃ args : DupToRemoteArgs, ptraceDupToRemote env mems cur child data s =
        dupFound env mems child args.flags
          (fgetFiles env.fMode (s.files cur) args.localFd.toNat 0) s := by
  cases data with
  | none => exact .inl rfl
  | some args =>
    unfold ptraceDupToRemote
    dsimp only
    split
    · exact .inl rfl
    · exact .inr ⟨args, rfl⟩

theorem ptraceDupFromRemote_eq (env : FdEnv) (mems : List (Option RawMem)) (cur child : FilesId)
    (s : FdSys) (data : Option DupFromRemoteArgs) :
    (ptraceDupFromRemote env mems cur child data s).2 = s ∨
      ∃ args : DupFromRemoteArgs, ptraceDupFromRemote env mems cur child data s =
        dupFound env mems cur args.flags
          (fgetFiles env.fMode (s.files child) args.remoteFd.toNat fmodePath) s := by
  cases data with
  | none => exact .inl rfl
  | some args =>
    unfold ptraceDupFromRemote
    dsimp only
    split
    · exact .inl rfl
    · exact .inr ⟨args, rfl⟩

def FdSys.Has (s : FdSys) (i : FilesId) (f : FileId) : Prop := ∃ fd, s.slot i fd = some f

theorem dupFound_gains {src : FilesId} {fd mask : ℕ} {fMode : FileId → ℕ} {flags : BitVec 32}
    (h : FdSysOk s) (hx : GrowsExactly env.nrOpen (s.files i) (candidateFd (s.files i) 0))
    (hk :
      (dupFound env mems i flags (fgetFiles fMode (s.files src) fd mask) s).2.slot j k = some f) :
    s.slot j k = some f ∨ s.Has src f := by
  rcases addsFile_dupFound h env mems i flags (fgetFiles fMode (s.files src) fd mask) hx with
    hsame | ⟨file, hfile, hadds⟩
  · rw [hsame] at hk
    exact .inl hk
  · rcases hadds.gains hk with hold | rfl
    · exact .inl hold
    · exact .inr ⟨fd, fgetFiles_some hfile⟩

theorem dup3_gains {oldfd newfd : ℕ} {flags : BitVec 32}
    (hx : GrowsExactly env.nrOpen (s.files cur) newfd)
    (hk : (dup3 env mem cur oldfd newfd flags s).2.slot j k = some f) :
    s.slot j k = some f ∨ s.Has cur f := by
  unfold dup3 at hk
  split at hk
  · exact .inl hk
  split at hk
  · exact .inl hk
  split at hk
  · exact .inl hk
  · exact (expandDup2_gains hx hk).imp_right fun hcur => ⟨oldfd, hcur⟩

/-- `dup_fd` fails, or makes the table `i` a copy. -/
theorem dupFd_slot (h : FdSysOk s) (env : FdEnv) (newf mem : Option RawMem) (cur i : FilesId) :
    (s.dupFd env newf mem cur i).2 = s ∨
      ∀ j k, (s.dupFd env newf mem cur i).2.slot j k = if j = i then s.slot cur k
        else s.slot j k := by
  unfold FdSys.dupFd
  rcases dupFd_cases env.nrOpen newf mem (s.files cur) with
    ⟨-, he⟩ | ⟨-, he⟩ | ⟨t, hd, hle, hlt, he⟩
  · rw [he]
    exact .inl rfl
  · rw [he]
    exact .inl rfl
  · rw [he]
    refine .inr fun j k => ?_
    have hcopy : fcheckFiles (dupFill (s.files cur) t).1 k = s.slot cur k := by
      rw [← fdEntry_file, (dupFill_entry (h cur) hd hle hlt k).file, fdEntry_file]
      rfl
    unfold FdSys.slot at hcopy ⊢
    dsimp only
    rw [FdSys.foldl_getFile_files, ← hcopy]
    split
    next hj => rw [hj, FdSys.setFiles_self]
    next hj => rw [s.setFiles_other hj]

theorem doCloseOnExec_gains (h : FdSysOk s) (hk : (s.doCloseOnExec i).slot j k = some f) :
    s.slot j k = some f := by
  unfold FdSys.slot at hk ⊢
  rw [← fdEntry_file] at hk ⊢
  rw [fdEntry_sys_doCloseOnExec h] at hk
  split at hk
  next hj =>
    unfold FdEntry.exec at hk
    rw [hj]
    split at hk
    next => cases hk
    next => exact hk
  next => exact hk

/-- A file gets into a slot by a call only if the caller has it, or the tracee that the call
names. -/
theorem FdCallStep.gains (st : FdCallStep) (h : FdSysOk s) (hopen : st.env.nrOpen ≤ sysctlNrOpenMax)
    (hx : st.GrowsExactly s) (hk : (st.exec s).2.slot j k = some f) :
    s.slot j k = some f ∨ s.Has st.cur f ∨ ∃ p, st.call.peer = some p ∧ s.Has p f := by
  obtain ⟨env, mems, cur, call⟩ := st
  cases call with
  | dup fildes => exact (dupFound_gains h hx hk).imp_right .inl
  | dup2 oldfd newfd =>
    unfold FdCallStep.exec dup2 at hk
    dsimp only at hk
    split at hk
    · split at hk <;> exact .inl hk
    · exact (dup3_gains hx hk).imp_right .inl
  | dup3 oldfd newfd flags => exact (dup3_gains hx hk).imp_right .inl
  | dupfd fd start flags =>
    unfold FdCallStep.exec at hk
    dsimp only at hk
    split at hk
    · exact .inl hk
    next file hfile =>
      rcases (addsFile_fDupfd h mems start file flags hopen hx).gains hk with hold | rfl
      · exact .inl hold
      · exact .inr (.inl ⟨fd, hfile⟩)
  | close fd => exact .inl (closeFd_gains hk)
  | fork i newf =>
    have hk' : (s.dupFd env newf (mems.headD none) cur i).2.slot j k = some f := hk
    rcases dupFd_slot h env newf (mems.headD none) cur i with hr | hcopy
    · rw [hr] at hk'
      exact .inl hk'
    · rw [hcopy] at hk'
      split at hk'
      · exact .inr (.inl ⟨k, hk'⟩)
      · exact .inl hk'
  | exec => exact .inl (doCloseOnExec_gains h hk)
  | dupToRemote child data =>
    have hk' : (ptraceDupToRemote env mems cur child data s).2.slot j k = some f := hk
    rcases ptraceDupToRemote_eq env mems cur child s data with hr | ⟨args, hr⟩ <;> rw [hr] at hk'
    · exact .inl hk'
    · exact (dupFound_gains h hx hk').imp_right .inl
  | dup2ToRemote child data =>
    have hk' : (ptraceDup2ToRemote env (mems.headD none) cur child data s).2.slot j k = some f := hk
    rcases ptraceDup2ToRemote_cases env (mems.headD none) cur child s data with
      ⟨e, -, hr⟩ | ⟨args, hdata, hr⟩ <;> rw [hr] at hk'
    · exact .inl hk'
    · exact (expandDup2_gains (hx args hdata) hk').imp_right fun hcur => .inl ⟨_, hcur⟩
  | dupFromRemote child data =>
    have hk' : (ptraceDupFromRemote env mems cur child data s).2.slot j k = some f := hk
    rcases ptraceDupFromRemote_eq env mems cur child s data with hr | ⟨args, hr⟩ <;> rw [hr] at hk'
    · exact .inl hk'
    · exact (dupFound_gains h hx hk').imp_right fun hchild => .inr ⟨child, rfl, hchild⟩
  | remoteClose child data =>
    cases data with
    | none => exact .inl hk
    | some args => exact .inl (closeFd_gains hk)

def FdCall.Closes : FdCall → Prop
  | .dup2 _ _ => True
  | .dup3 _ _ _ => True
  | .close _ => True
  | .exec => True
  | _ => False

/-- The other calls leave every file of the caller where it is, if the caller is not the tracee. -/
theorem FdCallStep.keeps (st : FdCallStep) (h : FdSysOk s) (hopen : st.env.nrOpen ≤ sysctlNrOpenMax)
    (hx : st.GrowsExactly s) (hcloses : ¬st.call.Closes) (hpeer : st.call.peer ≠ some st.cur)
    (hfork : ∀ newf, st.call ≠ .fork st.cur newf) (hk : s.slot st.cur k = some f) :
    (st.exec s).2.slot st.cur k = some f := by
  obtain ⟨env, mems, cur, call⟩ := st
  have hframe {t : FdSys} (ht : t.files cur = s.files cur) : t.slot cur k = some f := by
    unfold FdSys.slot
    rw [ht]
    exact hk
  have hfound {flags : BitVec 32} {found : Option FileId}
      (hx : PtraceRemote.GrowsExactly env.nrOpen (s.files cur) (candidateFd (s.files cur) 0)) :
      (dupFound env mems cur flags found s).2.slot cur k = some f := by
    rcases addsFile_dupFound h env mems cur flags found hx with hr | ⟨file, -, hadds⟩
    · rw [hr]
      exact hk
    · exact hadds.keeps hk
  cases call with
  | dup fildes => exact hfound hx
  | dup2 oldfd newfd => exact absurd trivial hcloses
  | dup3 oldfd newfd flags => exact absurd trivial hcloses
  | dupfd fd start flags =>
    unfold FdCallStep.exec
    dsimp only
    split
    · exact hk
    next file _ => exact (addsFile_fDupfd h mems start file flags hopen hx).keeps hk
  | close fd => exact absurd trivial hcloses
  | fork i newf =>
    have hi : cur ≠ i := fun hci => hfork newf (by rw [hci])
    show (s.dupFd env newf (mems.headD none) cur i).2.slot cur k = some f
    rcases dupFd_slot h env newf (mems.headD none) cur i with hr | hcopy
    · rw [hr]
      exact hk
    · rw [hcopy, if_neg hi]
      exact hk
  | exec => exact absurd trivial hcloses
  | dupToRemote child data =>
    have hne : cur ≠ child := fun hcc => hpeer (by rw [hcc]; rfl)
    apply hframe
    show (ptraceDupToRemote env mems cur child data s).2.files cur = s.files cur
    rcases ptraceDupToRemote_cases env mems cur child s data with
      ⟨e, -, hr⟩ | ⟨args, file, -, hr⟩ <;> rw [hr]
    exact allocInstall_others _ env mems file args.flags hne
  | dup2ToRemote child data =>
    have hne : cur ≠ child := fun hcc => hpeer (by rw [hcc]; rfl)
    apply hframe
    show (ptraceDup2ToRemote env (mems.headD none) cur child data s).2.files cur = s.files cur
    rcases ptraceDup2ToRemote_cases env (mems.headD none) cur child s data with
      ⟨e, -, hr⟩ | ⟨args, -, hr⟩ <;> rw [hr]
    exact expandDup2_others s env _ cur _ _ args.flags hne
  | dupFromRemote child data =>
    show (ptraceDupFromRemote env mems cur child data s).2.slot cur k = some f
    rcases ptraceDupFromRemote_eq env mems cur child s data with hr | ⟨args, hr⟩ <;> rw [hr]
    · exact hk
    · exact hfound hx
  | remoteClose child data =>
    have hne : cur ≠ child := fun hcc => hpeer (by rw [hcc]; rfl)
    cases data with
    | none => exact hk
    | some args => exact hframe (closeFd_others s env _ hne)

end PtraceRemote
