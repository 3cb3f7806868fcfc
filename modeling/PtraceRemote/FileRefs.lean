import PtraceRemote.FdDup
import PtraceRemote.MmRequestView
import PtraceRemote.MmRun

/-! The references to files over runs of requests: each is held by a descriptor of the two tasks, by
an area of the tracee, or from outside, and no request loses or adds one while the tables that grow
are copied exactly. -/
namespace PtraceRemote

open AugTree (Balance)

/-! Requests on descriptors. -/

def FdSys.slotsIn (s : FdSys) (T : Finset FilesId) (f : FileId) : ℤ :=
  ∑ i ∈ T, (slotCount (s.files i) f : ℤ)

structure SlotsKept (T : Finset FilesId) (s s' : FdSys) : Prop where
  ok : FdSysOk s'
  balance : ∀ f, s'.fCount f - s'.slotsIn T f = s.fCount f - s.slotsIn T f

section Descriptors

variable {s s' s'' : FdSys} {T : Finset FilesId} {i cur child : FilesId} {fd : ℕ} {file f : FileId}

theorem SlotsKept.refl (h : FdSysOk s) : SlotsKept T s s := ⟨h, fun _ => rfl⟩

theorem SlotsKept.trans (h : SlotsKept T s s') (h' : SlotsKept T s' s'') : SlotsKept T s s'' :=
  ⟨h'.ok, fun f => (h'.balance f).trans (h.balance f)⟩

theorem slotsIn_congr (h : ∀ j k, s'.slot j k = s.slot j k) : s'.slotsIn T f = s.slotsIn T f := by
  apply Finset.sum_congr rfl
  intro j _
  rw [slotCount_congr (h j)]

/-- One slot of one of the tables has changed. -/
theorem slotsIn_update {v : Option FileId} (hi : i ∈ T)
    (h : ∀ j k, s'.slot j k = if j = i ∧ k = fd then v else s.slot j k) :
    s'.slotsIn T f = s.slotsIn T f + holds v f - holds (s.slot i fd) f := by
  have hone : (slotCount (s'.files i) f : ℤ) =
      slotCount (s.files i) f + holds v f - holds (s.slot i fd) f := by
    apply slotCount_update
    intro k
    have hk := h i k
    simp only [true_and] at hk
    exact hk
  have hrest : ∑ j ∈ T.erase i, (slotCount (s'.files j) f : ℤ) = ∑ j ∈ T.erase i,
      (slotCount (s.files j) f : ℤ) := by
    apply Finset.sum_congr rfl
    intro j hj
    have hne : j ≠ i := Finset.ne_of_mem_erase hj
    rw [slotCount_congr fun k => (h j k).trans (if_neg fun hjk => hne hjk.1)]
  calc s'.slotsIn T f = slotCount (s'.files i) f + ∑ j ∈ T.erase i,
      (slotCount (s'.files j) f : ℤ) :=
        (Finset.add_sum_erase T _ hi).symm
    _ = slotCount (s.files i) f + ∑ j ∈ T.erase i, (slotCount (s.files j) f : ℤ) + holds v f -
          holds (s.slot i fd) f := by
        rw [hone, hrest]
        ring
    _ = s.slotsIn T f + holds v f - holds (s.slot i fd) f := by
        rw [Finset.add_sum_erase T (fun j => (slotCount (s.files j) f : ℤ)) hi]
        rfl

/-- The reference that was taken for the request is in the new slot, or has been dropped. -/
theorem allocInstall_cases (h : FdSysOk s) (env : FdEnv) (mems : List (Option RawMem)) (i : FilesId)
    (file : FileId) (flags : BitVec 32)
    (hx : GrowsExactly env.nrOpen (s.files i) (candidateFd (s.files i) 0)) :
    (allocInstall env mems i file flags (s.getFile file)).2 = s ∨
      Installed (s.getFile file) i (candidateFd (s.files i) 0) file
        (allocInstall env mems i file flags (s.getFile file)).2 := by
  have hok : FdSysOk (s.getFile file) := h.of_files rfl
  rcases allocFd_slot (h i) env.nrOpen (env.rlimNofile % 2^32) flags.toNat mems hx with
    ⟨e, he, hr⟩ | ⟨files', hr, -⟩
  · left
    have hneg : ¬(-e : ℤ) ≥ 0 := by omega
    have hr' :
        allocFd env.nrOpen 0 (env.rlimNofile % 2^32) flags.toNat mems ((s.getFile file).files i) =
          (-e, (s.getFile file).files i) := hr
    unfold allocInstall
    dsimp only
    rw [hr', if_neg hneg, FdSys.setFiles_eq_self, FdSys.fput_getFile]
  · right
    rcases allocInstall_spec hok env mems i file flags hx with hneg | ⟨-, -, hinst⟩
    · have hr' :
          allocFd env.nrOpen 0 (env.rlimNofile % 2^32) flags.toNat mems ((s.getFile file).files i) =
            ((candidateFd (s.files i) 0 : ℤ), files') := hr
      unfold allocInstall at hneg
      dsimp only at hneg
      rw [hr', if_pos (Int.natCast_nonneg _)] at hneg
      exact absurd hneg (not_lt.2 (Int.natCast_nonneg _))
    · exact hinst

theorem allocInstall_kept (h : FdSysOk s) (env : FdEnv) (mems : List (Option RawMem)) (hi : i ∈ T)
    (file : FileId) (flags : BitVec 32)
    (hx : GrowsExactly env.nrOpen (s.files i) (candidateFd (s.files i) 0)) :
    SlotsKept T s (allocInstall env mems i file flags (s.getFile file)).2 := by
  rcases allocInstall_cases h env mems i file flags hx with hr | hinst
  · rw [hr]
    exact SlotsKept.refl h
  · refine ⟨hinst.ok, fun f => ?_⟩
    have hslots := slotsIn_update (f := f) hi hinst.slot
    have hget : (s.getFile file).slotsIn T f = s.slotsIn T f := rfl
    rw [hinst.free, holds_none, hget] at hslots
    rw [hslots, hinst.fCount, FdSys.getFile_fCount]
    ring

/-- `filp_close` drops the reference that the slot held. -/
theorem closeFd_kept (h : FdSysOk s) (env : FdEnv) (hi : i ∈ T) (fd : ℕ) :
    SlotsKept T s (s.closeFd env i fd).2 := by
  refine ⟨fdSysOk_closeFd h env i fd, fun f => ?_⟩
  cases hslot : s.slot i fd with
  | none =>
    rcases closeFd_cases (s.files i) fd with ⟨-, hr⟩ | ⟨file, hfile, -⟩
    · unfold FdSys.closeFd
      rw [hr]
    · exact absurd (hslot.symm.trans hfile) (by simp)
  | some file =>
    obtain ⟨hslots, hcount⟩ := closeFd_slot env hslot
    have hfput : (s.closeFd env i fd).2.fCount f = s.fCount f - holds (some file) f := by
      rw [hcount]
      exact FdSys.fput_fCount s file f
    rw [hfput, slotsIn_update hi hslots, hslot, holds_none]
    ring

theorem FilePlaced.slot {c : Bool} (h : FilePlaced s i fd file c s') (j : FilesId) (k : ℕ) :
    s'.slot j k = if j = i ∧ k = fd then some file else s.slot j k := by
  unfold FdSys.slot
  by_cases hj : j = i
  · subst hj
    rw [← fdEntry_file, h.entry, ← fdEntry_file]
    simp only [true_and]
    split <;> rfl
  · rw [h.others j hj, if_neg fun hjk => hj hjk.1]

/-- `do_dup2` takes a reference for the slot and drops that of the file it replaces. -/
theorem doDup2_kept (h : FdSysOk s) (hi : i ∈ T) (file : FileId) (flags : ℕ)
    (hlt : fd < (s.files i).fdt.maxFds) :
    SlotsKept T s (s.doDup2 i file fd flags).2 := by
  refine ⟨fdSysOk_doDup2 h i file hlt flags, fun f => ?_⟩
  rcases s.doDup2_placed i file flags hlt with ⟨-, hr⟩ | ⟨-, -, hplaced⟩
  · rw [hr]
  · rw [slotsIn_update hi hplaced.slot, hplaced.counts, fdEntry_file]
    unfold FdSys.slot
    ring

theorem expandDup2_kept (h : FdSysOk s) (env : FdEnv) (mem : Option RawMem) (cur : FilesId)
    (hi : i ∈ T) (oldfd : ℕ) {newfd : ℕ} (flags : BitVec 32)
    (hx : GrowsExactly env.nrOpen (s.files i) newfd) :
    SlotsKept T s (expandDup2 env mem cur i oldfd newfd flags s).2 := by
  have hgrow : SlotsKept T s (s.setFiles i (expandFiles env.nrOpen mem (s.files i) newfd).2) := by
    refine ⟨h.setFiles i (filesOk_growsExactly (h i) hx), fun f => ?_⟩
    have hslots : ∀ j k, (s.setFiles i (expandFiles env.nrOpen mem (s.files i) newfd).2).slot j k =
        s.slot j k := by
      intro j k
      rw [slot_setFiles]
      split
      next hj => rw [hj, fcheckFiles_expand hx]; rfl
      next => rfl
    rw [slotsIn_congr hslots]
    rfl
  unfold expandDup2
  dsimp only
  cases fcheckFiles ((s.setFiles i (expandFiles env.nrOpen mem (s.files i) newfd).2).files cur)
      oldfd with
  | none => exact hgrow
  | some file =>
    dsimp only
    split
    · split <;> exact hgrow
    next hpos =>
      apply hgrow.trans (doDup2_kept hgrow.ok hi file flags.toNat _)
      rw [FdSys.setFiles_self]
      exact lt_maxFds_of_expandFiles (not_lt.1 hpos)

theorem ptraceDupToRemote_kept (h : FdSysOk s) (env : FdEnv) (mems : List (Option RawMem))
    (cur : FilesId) (hi : child ∈ T) (data : Option DupToRemoteArgs)
    (hx : GrowsExactly env.nrOpen (s.files child) (candidateFd (s.files child) 0)) :
    SlotsKept T s (ptraceDupToRemote env mems cur child data s).2 := by
  rcases ptraceDupToRemote_cases env mems cur child s data with ⟨e, -, hr⟩ | ⟨args, file, -, hr⟩
  · rw [hr]
    exact SlotsKept.refl h
  · rw [hr]
    exact allocInstall_kept h env mems hi file args.flags hx

theorem ptraceDup2ToRemote_kept (h : FdSysOk s) (env : FdEnv) (mem : Option RawMem) (cur : FilesId)
    (hi : child ∈ T) (data : Option Dup2ToRemoteArgs)
    (hx : ∀ args, data = some args → GrowsExactly env.nrOpen (s.files child) args.remoteFd.toNat) :
    SlotsKept T s (ptraceDup2ToRemote env mem cur child data s).2 := by
  rcases ptraceDup2ToRemote_cases env mem cur child s data with ⟨e, -, hr⟩ | ⟨args, hdata, hr⟩
  · rw [hr]
    exact SlotsKept.refl h
  · rw [hr]
    exact expandDup2_kept h env mem cur hi args.localFd.toNat args.flags (hx args hdata)

theorem ptraceDupFromRemote_kept (h : FdSysOk s) (env : FdEnv) (mems : List (Option RawMem))
    (hi : cur ∈ T) (child : FilesId) (data : Option DupFromRemoteArgs)
    (hx : GrowsExactly env.nrOpen (s.files cur) (candidateFd (s.files cur) 0)) :
    SlotsKept T s (ptraceDupFromRemote env mems cur child data s).2 := by
  rcases ptraceDupFromRemote_cases env mems cur child s data with ⟨e, -, hr⟩ | ⟨args, file, -, hr⟩
  · rw [hr]
    exact SlotsKept.refl h
  · rw [hr]
    exact allocInstall_kept h env mems hi file args.flags hx

theorem ptraceRemoteClose_kept (h : FdSysOk s) (env : FdEnv) (hi : child ∈ T)
    (data : Option RemoteCloseArgs) :
    SlotsKept T s (ptraceRemoteClose env child data s).2 := by
  cases data with
  | none => exact SlotsKept.refl h
  | some args => exact closeFd_kept h env hi args.remoteFd.toNat

end Descriptors

/-! Requests on memory. -/

def Mm.areasOf (mm : Mm) (f : FileId) : ℕ :=
  mm.mmRb.inorder.countP fun x => (mm.vma x).vmFile = some f

theorem refs_eq_countP (f : FileId) (core : VmaId → Vma) (L : List VmaId) :
    refs f core L = (L.countP fun x => (core x).vmFile = some f : ℕ) := by
  induction L with
  | nil => rfl
  | cons x L ih =>
    rw [refs_cons, ih, List.countP_cons]
    by_cases hx : (core x).vmFile = some f
    · simp only [hx, if_true, decide_true]
      push_cast
      ring
    · simp only [hx, if_false, decide_false, Bool.false_eq_true]
      push_cast
      ring

theorem Wf.areasOf {mm : Mm} {L : List VmaId} (h : Wf mm L) (f : FileId) :
    (mm.areasOf f : ℤ) = refs f mm.core L := by
  rw [refs_eq_countP, Mm.areasOf, h.rep.inorder]
  rfl

/-- The entry of the books for the references to `f`. -/
theorem Kept.areasOf {G : Prop} {s s' : MmSys} {L L' : List VmaId} {c : ℤ} (hk : Kept G s L s' L' c)
    (h : Wf s.mm L) (f : FileId) : s'.fCount f - s'.mm.areasOf f = s.fCount f - s.mm.areasOf f := by
  obtain ⟨k, hbooks, hzero, -⟩ := hk.kept
  have hrefs (t : MmSys) (M : List VmaId) :
      (ledger t M).2.2.2.2.2.2 f = t.fCount f - 0 - refs f t.mm.core M := rfl
  have hsum : (ledger s' L').2.2.2.2.2.2 f = (ledger s L).2.2.2.2.2.2 f + k.2.2.2.2.2.2 f + 0 := by
    rw [hbooks]
    rfl
  have hk0 : k.2.2.2.2.2.2 f = 0 := by
    rw [hzero]
    rfl
  rw [hrefs, hrefs, hk0] at hsum
  rw [hk.wf.areasOf, h.areasOf]
  linarith

/-! Both kinds of requests, on one set of counts. -/

/-- The tables of the tasks, with the counts of all files, and the address space of the tracee. -/
structure RemoteSys where
  fd : FdSys
  mm : Mm
  committed : ℤ := 0

def RemoteSys.mmSys (s : RemoteSys) (outcomes : List (Fin 4096)) : MmSys :=
  { mm := s.mm, fCount := s.fd.fCount, committed := s.committed, outcomes := outcomes }

def RemoteSys.setMm (s : RemoteSys) (t : MmSys) : RemoteSys :=
  { fd := { s.fd with fCount := t.fCount }, mm := t.mm, committed := t.committed }

inductive FileRequest where
  | dupToRemote (data : Option DupToRemoteArgs)
  | dup2ToRemote (data : Option Dup2ToRemoteArgs)
  | dupFromRemote (data : Option DupFromRemoteArgs)
  | remoteClose (data : Option RemoteCloseArgs)
  | remoteMmap (user : UserPtr) (fd : BitVec 32) (addr len : ℕ) (prot flags : Bits) (offset : ℕ)
  | remoteMunmap (user : UserPtr) (addr len : ℕ)
  | remoteMremap (user : UserPtr) (addr oldLen newLen : ℕ) (flags : Bits) (newAddr : ℕ)
  | remoteMprotect (user : UserPtr) (addr len : ℕ) (prot : Bits)

/-- A request, what it reads of the tracer, and how the allocations and the other calls that may
fail end. -/
structure RemoteStep where
  fenv : FdEnv
  menv : MmEnv
  mems : List (Option RawMem) := []
  outcomes : List (Fin 4096) := []
  request : FileRequest

def RemoteStep.exec (rb : Balance VmaId) (cur child : FilesId) (st : RemoteStep) (s : RemoteSys) :
    ℤ × RemoteSys :=
  let onFd (r : ℤ × FdSys) : ℤ × RemoteSys := (r.1, { s with fd := r.2 })
  let onMm (r : ℤ × MmSys) : ℤ × RemoteSys := (r.1, s.setMm r.2)
  let mm := s.mmSys st.outcomes
  match st.request with
  | .dupToRemote data => onFd (ptraceDupToRemote st.fenv st.mems cur child data s.fd)
  | .dup2ToRemote data => onFd (ptraceDup2ToRemote st.fenv (st.mems.headD none) cur child data s.fd)
  | .dupFromRemote data => onFd (ptraceDupFromRemote st.fenv st.mems cur child data s.fd)
  | .remoteClose data => onFd (ptraceRemoteClose st.fenv child data s.fd)
  | .remoteMmap user fd addr len prot flags offset =>
    let file := fgetFiles st.fenv.fMode (s.fd.files cur) fd.toNat fmodePath
    onMm (ptraceRemoteMmap rb st.menv mm user file addr len prot flags offset)
  | .remoteMunmap user addr len => onMm (ptraceRemoteMunmap rb st.menv mm user addr len)
  | .remoteMremap user addr oldLen newLen flags newAddr =>
    onMm (ptraceRemoteMremap rb st.menv mm user addr oldLen newLen flags newAddr)
  | .remoteMprotect user addr len prot =>
    onMm (ptraceRemoteMprotect rb st.menv mm user addr len prot)

def remoteRun (rb : Balance VmaId) (cur child : FilesId) (s : RemoteSys) (steps : List RemoteStep) :
    RemoteSys :=
  steps.foldl (fun s st => (st.exec rb cur child s).2) s

/-- A table that the request makes grow is copied exactly. -/
def RemoteStep.GrowsExactly (cur child : FilesId) (s : RemoteSys) (st : RemoteStep) : Prop :=
  let grows (i : FilesId) (nr : ℕ) := PtraceRemote.GrowsExactly st.fenv.nrOpen (s.fd.files i) nr
  match st.request with
  | .dupToRemote _ => grows child (candidateFd (s.fd.files child) 0)
  | .dup2ToRemote data => ∀ args, data = some args → grows child args.remoteFd.toNat
  | .dupFromRemote _ => grows cur (candidateFd (s.fd.files cur) 0)
  | _ => True

def GrowExactly (rb : Balance VmaId) (cur child : FilesId) : RemoteSys → List RemoteStep → Prop
  | _, [] => True
  | s, st :: steps =>
    st.GrowsExactly cur child s ∧ GrowExactly rb cur child (st.exec rb cur child s).2 steps

def RemoteSys.outside (cur child : FilesId) (s : RemoteSys) (f : FileId) : ℤ :=
  s.fd.fCount f - s.fd.slotsIn {cur, child} f - s.mm.areasOf f

section Run

variable {rb : Balance VmaId} {cur child : FilesId} {s s' : RemoteSys} {steps : List RemoteStep}

structure RefsKept (cur child : FilesId) (s s' : RemoteSys) : Prop where
  fd : FdSysOk s'.fd
  mm : ∃ L, Wf s'.mm L
  outside : ∀ f, s'.outside cur child f = s.outside cur child f

theorem refsKept_fd {t : FdSys} (hmm : ∃ L, Wf s.mm L) (h : SlotsKept {cur, child} s.fd t) :
    RefsKept cur child s { s with fd := t } := by
  refine ⟨h.ok, hmm, fun f => ?_⟩
  unfold RemoteSys.outside
  rw [h.balance]

theorem refsKept_mm {L : List VmaId} (call : MmCall) (env : MmEnv) (outcomes : List (Fin 4096))
    (hfd : FdSysOk s.fd) (hmm : Wf s.mm L) :
    RefsKept cur child s (s.setMm (call.exec rb env (s.mmSys outcomes)).2) := by
  obtain ⟨L', c, hk, -⟩ := exec_kept (s := s.mmSys outcomes) rb env call hmm
  refine ⟨hfd.of_files rfl, ⟨L', hk.wf⟩, fun f => ?_⟩
  have hareas := hk.areasOf hmm f
  -- the tables are the same ones, so the slots are
  have hslots : (s.setMm (call.exec rb env (s.mmSys outcomes)).2).fd.slotsIn {cur, child} f =
      s.fd.slotsIn {cur, child} f := rfl
  unfold RemoteSys.outside
  rw [hslots, sub_right_comm, sub_right_comm (s.fd.fCount f)]
  exact congrArg (· - s.fd.slotsIn {cur, child} f) hareas

theorem exec_refsKept (rb : Balance VmaId) (st : RemoteStep) (hfd : FdSysOk s.fd)
    (hmm : ∃ L, Wf s.mm L) (hx : st.GrowsExactly cur child s) :
    RefsKept cur child s (st.exec rb cur child s).2 := by
  have hcur : cur ∈ ({cur, child} : Finset FilesId) := by simp
  have hchild : child ∈ ({cur, child} : Finset FilesId) := by simp
  obtain ⟨fenv, menv, mems, outcomes, request⟩ := st
  obtain ⟨L, hwf⟩ := hmm
  cases request with
  | dupToRemote data =>
    exact refsKept_fd ⟨L, hwf⟩ (ptraceDupToRemote_kept hfd fenv mems cur hchild data hx)
  | dup2ToRemote data =>
    exact refsKept_fd ⟨L, hwf⟩
      (ptraceDup2ToRemote_kept hfd fenv (mems.headD none) cur hchild data hx)
  | dupFromRemote data =>
    exact refsKept_fd ⟨L, hwf⟩ (ptraceDupFromRemote_kept hfd fenv mems hcur child data hx)
  | remoteClose data => exact refsKept_fd ⟨L, hwf⟩ (ptraceRemoteClose_kept hfd fenv hchild data)
  | remoteMmap user fd addr len prot flags offset =>
    exact refsKept_mm (.remoteMmap user (fgetFiles fenv.fMode (s.fd.files cur) fd.toNat fmodePath)
      addr len prot flags offset) menv outcomes hfd hwf
  | remoteMunmap user addr len =>
    exact refsKept_mm (.remoteMunmap user addr len) menv outcomes hfd hwf
  | remoteMremap user addr oldLen newLen flags newAddr =>
    exact refsKept_mm (.remoteMremap user addr oldLen newLen flags newAddr) menv outcomes hfd hwf
  | remoteMprotect user addr len prot =>
    exact refsKept_mm (.remoteMprotect user addr len prot) menv outcomes hfd hwf

theorem run_refsKept (rb : Balance VmaId) (steps : List RemoteStep) (hfd : FdSysOk s.fd)
    (hmm : ∃ L, Wf s.mm L) (hx : GrowExactly rb cur child s steps) :
    RefsKept cur child s (remoteRun rb cur child s steps) := by
  induction steps generalizing s with
  | nil => exact ⟨hfd, hmm, fun _ => rfl⟩
  | cons st steps ih =>
    have hstep := exec_refsKept rb st hfd hmm hx.1
    have hrest := ih hstep.fd hstep.mm hx.2
    exact ⟨hrest.fd, hrest.mm, fun f => (hrest.outside f).trans (hstep.outside f)⟩

theorem GrowExactly.take (h : GrowExactly rb cur child s steps) (n : ℕ) :
    GrowExactly rb cur child s (steps.take n) := by
  induction steps generalizing s n with
  | nil => rwa [List.take_nil]
  | cons st steps ih =>
    cases n with
    | zero => exact trivial
    | succ n => exact ⟨h.1, ih h.2 n⟩

end Run

/-- After every request of a run, the count of every file is the number of slots and areas that hold
it, and of the holders outside, which stays what it was. -/
theorem file_refs_conserved (rb : Balance VmaId) (cur child : FilesId) (s : RemoteSys)
    (L : List VmaId) (steps : List RemoteStep) (hfd : FdSysOk s.fd) (hmm : Wf s.mm L)
    (hx : GrowExactly rb cur child s steps) (n : ℕ) (f : FileId) :
    let s' := remoteRun rb cur child s (steps.take n)
    s'.fd.fCount f = s'.fd.slotsIn {cur, child} f + s'.mm.areasOf f + s.outside cur child f := by
  intro s'
  have hkept : s'.outside cur child f = s.outside cur child f :=
    (run_refsKept rb (steps.take n) hfd ⟨L, hmm⟩ (hx.take n)).outside f
  rw [← hkept, RemoteSys.outside]
  ring

def twoTasks : RemoteSys := { fd := twoTables, mm := emptyMm }

/-- The file 7 goes to the tracee as descriptor 1, is mapped there, and is closed again: of three
references two are left. -/
theorem file_refs_conserved_twoTasks :
    let step (request : FileRequest) : RemoteStep :=
      { fenv := smallEnv 0, menv := MmEnv.unlimited 10, request }
    let steps := [step (.dupToRemote (some ⟨0, 0⟩)), step (.remoteMmap {} 0 0x20000 0x1000 PROT_READ
      (MAP_FIXED ||| MAP_PRIVATE) 0), step (.remoteClose (some ⟨1⟩))]
    let after (n : ℕ) := remoteRun Balance.plain 0 1 twoTasks (steps.take n)
    ((after 2).fd.fCount 7 = 3 ∧ (after 3).fd.fCount 7 = 2 ∧ (after 3).mm.areasOf 7 = 1) ∧
      ∀ n, (after n).fd.fCount 7 = (after n).fd.slotsIn {0, 1} 7 + (after n).mm.areasOf 7 + 0 := by
  intro step steps after
  have hout : twoTasks.outside 0 1 7 = 0 := by decide +kernel
  refine ⟨by decide +kernel, fun n => ?_⟩
  rw [← hout]
  apply file_refs_conserved Balance.plain 0 1 twoTasks [] steps fdSysOk_twoTables wf_emptyMm
  refine ⟨?_, trivial, trivial, trivial⟩
  show GrowsExactly 1024 (oneFile 8) (candidateFd (oneFile 8) 0)
  decide

def hugeTask : RemoteSys :=
  { fd :=
      { files := fun i => if i = 0 then oneFile 8 else hugeFiles
        fCount := fun _ => 1
        bug := false }
    mm := emptyMm }

def zeroMem : RawMem := ⟨fun _ => none, fun _ => false, fun _ => false, fun _ => false⟩

def grownFiles : FilesStruct :=
  { hugeFiles with fdt := copyFdtable (zeroMem.table (2^30)) hugeFiles.fdt }

theorem expandFiles_hugeFiles : expandFiles (2^30) (some zeroMem) hugeFiles (2^29) =
    (1, grownFiles) := by
  have hsize : fdtableSize (2^30) (2^29) = 2^30 := by decide +kernel
  unfold expandFiles expandFdtable allocFdtable
  rw [if_neg (by decide), if_neg (by decide), hsize]
  exact if_neg (by decide)

theorem fcheckFiles_grownFiles (k : ℕ) : fcheckFiles grownFiles k = none := by
  have hslot : grownFiles.fdt.fd k = none :=
    copyFdtable_wrapped (by decide +kernel) (by decide +kernel) k
  unfold fcheckFiles
  rw [hslot, ite_self]

theorem slotCount_hugeFiles (f : FileId) : (slotCount hugeFiles f : ℤ) = holds (some 7) f := by
  apply slotCount_single
  intro k
  show (if k < 2^29 then if k = 0 then some 7 else none else none) = _
  split <;> split <;> first | rfl | omega

/-- `PTRACE_DUP2_TO_REMOTE` to the descriptor `2^29` makes the table grow: the reference that
descriptor 0 of the tracee held to the file 7 belongs to nobody. -/
theorem file_refs_lost :
    let st : RemoteStep :=
      { fenv := { smallEnv 0 with nrOpen := 2^30, rlimNofile := 2^30 }
        menv := MmEnv.unlimited 10
        mems := [some zeroMem]
        request := .dup2ToRemote (some ⟨0, 2^29, 0⟩) }
    let r := st.exec Balance.plain 0 1 hugeTask
    FdSysOk hugeTask.fd ∧ Wf hugeTask.mm [] ∧ r.1 = 2^29 ∧
      hugeTask.outside 0 1 7 = 0 ∧ r.2.outside 0 1 7 = 1 := by
  intro st r
  have hok : FdSysOk hugeTask.fd := by
    intro i
    show FilesOk (if i = 0 then oneFile 8 else hugeFiles)
    split
    · exact filesOk_oneFile 8
    · exact filesOk_hugeFiles
  refine ⟨hok, wf_emptyMm, by decide +kernel, ?_, ?_⟩
  · have hslots : hugeTask.fd.slotsIn {0, 1} 7 = 1 := by
      rw [FdSys.slotsIn, Finset.sum_pair (by decide)]
      show (slotCount (oneFile 8) 7 : ℤ) + slotCount hugeFiles 7 = 1
      rw [slotCount_oneFile, slotCount_hugeFiles]
      rfl
    rw [RemoteSys.outside, hslots]
    rfl
  · let t : FdSys := hugeTask.fd.setFiles 1 grownFiles
    have hfd : r.2.fd = (t.doDup2 1 8 (2^29) 0).2 := by
      have hexpand : expandFiles (2^30) (some zeroMem) (hugeTask.fd.files 1) (2^29) =
          (1, grownFiles) :=
        expandFiles_hugeFiles
      have hfile : fcheckFiles (t.files 0) 0 = some 8 := rfl
      have hnr : (2^29 : BitVec 32).toNat = 2^29 := by decide
      change (doDup2ToRemote st.fenv (some zeroMem) 0 1 0 (2^29 : BitVec 32).toNat 0
        hugeTask.fd).2 = _
      unfold doDup2ToRemote expandDup2
      dsimp only [st]
      rw [if_neg (by decide), if_neg (by decide +kernel), hnr, hexpand]
      dsimp only
      rw [hfile]
      rfl
    have hcount : r.2.fd.fCount 7 = 1 := by decide +kernel
    have hgrown : t.slotsIn {0, 1} 7 = 0 := by
      rw [FdSys.slotsIn, Finset.sum_pair (by decide)]
      show (slotCount (oneFile 8) 7 : ℤ) + slotCount grownFiles 7 = 0
      rw [slotCount_oneFile, slotCount_eq_zero fun k hk =>
        absurd ((fcheckFiles_grownFiles k).symm.trans hk) (by simp)]
      rfl
    have hslots : r.2.fd.slotsIn {0, 1} 7 = 0 := by
      rcases t.doDup2_placed 1 8 0 (show 2^29 < (t.files 1).fdt.maxFds by decide) with
        ⟨-, hr⟩ | ⟨-, -, hplaced⟩
      · rw [hfd, hr, hgrown]
      · have hfree : t.slot 1 (2^29) = none := fcheckFiles_grownFiles (2^29)
        rw [hfd, slotsIn_update (by simp) hplaced.slot, hgrown, hfree]
        rfl
    rw [RemoteSys.outside, hcount, hslots]
    rfl

end PtraceRemote
