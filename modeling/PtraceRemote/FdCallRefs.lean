import PtraceRemote.FdPosix

/-! The references to files that descriptor calls take and drop: `close_files` and the calls of
`fs/file.c` between the tables of several tasks. -/
namespace PtraceRemote

def closeBit (set : ℕ → Bool) (acc : Fdtable × List FileId) (i : ℕ) : Fdtable × List FileId :=
  if set i then
    let fdt := { acc.1 with fd := Function.update acc.1.fd i none }
    match acc.1.fd i with
    | none => (fdt, acc.2)
    | some file => (fdt, acc.2 ++ [file])
  else acc

def closeWord (acc : Fdtable × List FileId) (j : ℕ) : Fdtable × List FileId :=
  ((List.range 64).map (64*j+·)).foldl (closeBit acc.1.openFds) acc

def closeFiles (fdt : Fdtable) : Fdtable × List FileId :=
  (List.range (bitsToLongs fdt.maxFds)).foldl closeWord (fdt, [])

def FdSys.closeFiles (s : FdSys) (i : FilesId) : FdSys :=
  let r := PtraceRemote.closeFiles (s.files i).fdt
  r.2.foldl fput (s.setFiles i { s.files i with fdt := r.1 })

/-! `close_files`. -/

section Close

variable {fdt : Fdtable} {m i : ℕ} {files : FilesStruct} {f : FileId}

def closedBelow (fdt : Fdtable) (m : ℕ) : Fdtable × List FileId :=
  ({ fdt with fd := fun k => if k < m ∧ fdt.openFds k = true then none else fdt.fd k },
    (List.range m).filterMap fun k => if fdt.openFds k then fdt.fd k else none)

theorem closeBit_closedBelow (fdt : Fdtable) (m : ℕ) :
    closeBit fdt.openFds (closedBelow fdt m) m = closedBelow fdt (m+1) := by
  have hkeep : (closedBelow fdt m).1.fd m = fdt.fd m := if_neg fun h => lt_irrefl m h.1
  have hfiles : (closedBelow fdt (m+1)).2 =
      (closedBelow fdt m).2 ++ (if fdt.openFds m then fdt.fd m else none).toList := by
    unfold closedBelow
    dsimp only
    rw [List.range_succ, List.filterMap_append]
    cases hc : (if fdt.openFds m then fdt.fd m else none) with
    | none => simp [hc]
    | some f => simp [hc]
  unfold closeBit
  by_cases ho : fdt.openFds m = true
  · -- the slot is emptied, and the file in it handed on
    have hslots : (closedBelow fdt (m+1)).1 =
        { (closedBelow fdt m).1 with fd := Function.update (closedBelow fdt m).1.fd m none } := by
      unfold closedBelow
      dsimp only
      congr 1
      funext k
      rcases eq_or_ne k m with rfl | hk
      · rw [Function.update_self, if_pos ⟨Nat.lt_succ_self k, ho⟩]
      · have hlt : k < m+1 ↔ k < m := by omega
        rw [Function.update_of_ne hk]
        simp only [hlt]
    rw [if_pos ho] at hfiles ⊢
    dsimp only
    rw [hkeep, ← hslots]
    apply Prod.ext
    · cases fdt.fd m <;> rfl
    · cases hfd : fdt.fd m with
      | none => simp [hfiles, hfd]
      | some f => simp [hfiles, hfd]
  · have hslots : (closedBelow fdt (m+1)).1 = (closedBelow fdt m).1 := by
      unfold closedBelow
      dsimp only
      congr 1
      funext k
      rcases eq_or_ne k m with rfl | hk
      · rw [if_neg fun h => ho h.2, if_neg fun h => ho h.2]
      · have hlt : k < m+1 ↔ k < m := by omega
        simp only [hlt]
    rw [if_neg ho] at hfiles ⊢
    apply Prod.ext hslots.symm
    simp [hfiles]

theorem closeBits_closedBelow (fdt : Fdtable) (m n : ℕ) :
    ((List.range n).map (m+·)).foldl (closeBit fdt.openFds) (closedBelow fdt m) =
      closedBelow fdt (m+n) := by
  induction n with
  | zero => rfl
  | succ n ih =>
    rw [List.range_succ, List.map_append, List.foldl_append, ih]
    exact closeBit_closedBelow fdt (m+n)

/-- The loop over the words does what a loop over the bits would do. -/
theorem closeWords_closedBelow (fdt : Fdtable) (n : ℕ) :
    (List.range n).foldl closeWord (fdt, []) = closedBelow fdt (64*n) := by
  induction n with
  | zero =>
    apply Prod.ext
    · simp [closedBelow]
    · rfl
  | succ n ih =>
    rw [List.range_succ, List.foldl_append, ih, List.foldl_cons, List.foldl_nil, closeWord]
    have hbits : (closedBelow fdt (64*n)).1.openFds = fdt.openFds := rfl
    rw [hbits, closeBits_closedBelow, mul_add, mul_one]

theorem closeFiles_eq (h : FdtableOk fdt) : closeFiles fdt = closedBelow fdt fdt.maxFds := by
  obtain ⟨n, hn⟩ := h.max_dvd
  have hwords : 64*bitsToLongs fdt.maxFds = fdt.maxFds := by
    unfold bitsToLongs
    omega
  rw [closeFiles, closeWords_closedBelow, hwords]

/-- Every slot is empty. -/
theorem closeFiles_slot (h : FdtableOk fdt) {k : ℕ} (hk : k < fdt.maxFds) :
    (closeFiles fdt).1.fd k = none := by
  rw [closeFiles_eq h]
  show (if k < fdt.maxFds ∧ fdt.openFds k = true then none else fdt.fd k) = none
  split
  next => rfl
  next hn =>
    by_contra hfd
    exact hn ⟨hk, h.slot_open k hk hfd⟩

theorem fcheckFiles_closeFiles (h : FilesOk files) (k : ℕ) :
    fcheckFiles { files with fdt := (closeFiles files.fdt).1 } k = none := by
  have hmax : (closeFiles files.fdt).1.maxFds = files.fdt.maxFds := by
    rw [closeFiles_eq h.fdt]
    rfl
  unfold fcheckFiles
  dsimp only
  rw [hmax]
  split
  next hk => exact closeFiles_slot h.fdt hk
  next => rfl

/-- Every slot gives back one reference. -/
theorem count_closeFiles (h : FilesOk files) :
    (closeFiles files.fdt).2.count f = slotCount files f := by
  have hlist : (closeFiles files.fdt).2 = (List.range files.fdt.maxFds).filterMap files.fdt.fd := by
    rw [closeFiles_eq h.fdt]
    apply List.filterMap_congr
    intro k hk
    have hlt : k < files.fdt.maxFds := List.mem_range.1 hk
    split
    next => rfl
    next ho =>
      by_contra hfd
      exact ho (h.fdt.slot_open k hlt (Ne.symm hfd))
  rw [hlist, count_filterMap_range]
  rfl

theorem filesOk_closeFiles (h : FilesOk files) :
    FilesOk { files with fdt := (closeFiles files.fdt).1 } := by
  have heq := closeFiles_eq h.fdt
  have hbits : (closeFiles files.fdt).1.openFds = files.fdt.openFds := by rw [heq]; rfl
  have hmax : (closeFiles files.fdt).1.maxFds = files.fdt.maxFds := by rw [heq]; rfl
  have hfull : (closeFiles files.fdt).1.fullFdsBits = files.fdt.fullFdsBits := by rw [heq]; rfl
  refine ⟨⟨?_, ?_, ?_, ?_, ?_⟩, ?_, ?_⟩ <;> simp only [hbits, hmax, hfull]
  · exact h.fdt.max_pos
  · exact h.fdt.max_dvd
  · intro k hk hfd
    exact absurd (closeFiles_slot h.fdt hk) hfd
  · exact h.fdt.full_iff
  · exact h.fdt.full_tail
  · exact h.next_le
  · exact h.next_open

end Close

/-! What the calls keep. -/

section Calls

variable {s s' : FdSys} {T : Finset FilesId} {i j cur : FilesId} {f file : FileId} {env : FdEnv}
  {mems : List (Option RawMem)}

/-- One of the tables has been replaced. -/
theorem slotsIn_table (hi : i ∈ T) (h : ∀ j, j ≠ i → s'.files j = s.files j) :
    s'.slotsIn T f = s.slotsIn T f + slotCount (s'.files i) f - slotCount (s.files i) f := by
  have hrest : ∑ j ∈ T.erase i, (slotCount (s'.files j) f : ℤ) = ∑ j ∈ T.erase i,
      (slotCount (s.files j) f : ℤ) := by
    apply Finset.sum_congr rfl
    intro j hj
    rw [h j (Finset.ne_of_mem_erase hj)]
  have hsplit (t : FdSys) : t.slotsIn T f = slotCount (t.files i) f + ∑ j ∈ T.erase i,
      (slotCount (t.files j) f : ℤ) :=
    (Finset.add_sum_erase T (fun j => (slotCount (t.files j) f : ℤ)) hi).symm
  rw [hsplit s', hsplit s, hrest]
  ring

structure CallKept (T : Finset FilesId) (s s' : FdSys) : Prop extends SlotsKept T s s' where
  bug : s'.bug = s.bug

theorem CallKept.refl (h : FdSysOk s) : CallKept T s s := ⟨.refl h, rfl⟩

theorem FdSys.foldl_fput_bug (s : FdSys) (l : List FileId) : (l.foldl fput s).bug = s.bug := by
  induction l generalizing s with
  | nil => rfl
  | cons f l ih => exact ih (s.fput f)

theorem FdSys.foldl_getFile_bug (s : FdSys) (l : List FileId) :
    (l.foldl getFile s).bug = s.bug := by
  induction l generalizing s with
  | nil => rfl
  | cons f l ih => exact ih (s.getFile f)

/-- The files in `l` leave the table `i` and lose a reference each. -/
theorem foldl_fput_kept (h : FdSysOk s) (hi : i ∈ T) {files : FilesStruct} {l : List FileId}
    (hok : FilesOk files)
    (hl : ∀ f, (slotCount files f : ℤ) = slotCount (s.files i) f - l.count f) :
    CallKept T s (l.foldl FdSys.fput (s.setFiles i files)) := by
  have hfiles := FdSys.foldl_fput_files (s.setFiles i files) l
  refine ⟨⟨(h.setFiles i hok).of_files hfiles, fun f => ?_⟩, FdSys.foldl_fput_bug _ l⟩
  have hslots : (l.foldl FdSys.fput (s.setFiles i files)).slotsIn T f =
      s.slotsIn T f + slotCount files f - slotCount (s.files i) f := by
    have htable := slotsIn_table (f := f) hi fun j hj => s.setFiles_other hj files
    rw [FdSys.setFiles_self] at htable
    rw [← htable]
    unfold FdSys.slotsIn
    rw [hfiles]
  rw [hslots, hl f, FdSys.foldl_fput_fCount, FdSys.setFiles_fCount]
  ring

theorem closeFiles_kept (h : FdSysOk s) (hi : i ∈ T) : CallKept T s (s.closeFiles i) := by
  apply foldl_fput_kept h hi (filesOk_closeFiles (h i))
  intro f
  have hzero : slotCount { s.files i with fdt := (closeFiles (s.files i).fdt).1 } f = 0 := by
    apply slotCount_eq_zero
    intro k
    rw [fcheckFiles_closeFiles (h i)]
    simp
  rw [hzero, count_closeFiles (h i)]
  simp

theorem slot_closeFiles (h : FdSysOk s) (i : FilesId) (fd : ℕ) :
    (s.closeFiles i).slot i fd = none := by
  unfold FdSys.slot FdSys.closeFiles
  dsimp only
  rw [FdSys.foldl_fput_files, FdSys.setFiles_self]
  exact fcheckFiles_closeFiles (h i) fd

theorem closeFiles_others (s : FdSys) (hj : j ≠ i) : (s.closeFiles i).files j = s.files j := by
  unfold FdSys.closeFiles
  dsimp only
  rw [FdSys.foldl_fput_files]
  exact s.setFiles_other hj _

/-- `do_close_on_exec` drops the references of the marked descriptors. -/
theorem doCloseOnExec_kept (h : FdSysOk s) (hi : i ∈ T) : CallKept T s (s.doCloseOnExec i) := by
  have hloop := execLoop_doCloseOnExec (h i).fdt.max_dvd
  apply foldl_fput_kept h hi
  · have hok := fdSysOk_doCloseOnExec h i i
    unfold FdSys.doCloseOnExec at hok
    dsimp only at hok
    rwa [FdSys.foldl_fput_files, FdSys.setFiles_self] at hok
  · intro f
    -- what is left of the slots with `f` are those without a mark
    have hleft : slotCount (doCloseOnExec (s.files i)).1 f =
        ((Finset.range (s.files i).fdt.maxFds).filter fun k =>
          (s.files i).fdt.fd k = some f ∧ ¬(s.files i).fdt.closeOnExec k = true).card := by
      unfold slotCount
      rw [hloop.max_eq]
      congr 1
      apply Finset.filter_congr
      intro k hk
      have hlt : k < (s.files i).fdt.maxFds := Finset.mem_range.1 hk
      rw [hloop.slot]
      by_cases hmark : (s.files i).fdt.closeOnExec k = true <;> simp [hlt, hmark]
    have hsplit := Finset.card_filter_add_card_filter_not
      (s := (Finset.range (s.files i).fdt.maxFds).filter fun k => (s.files i).fdt.fd k = some f)
      fun k => (s.files i).fdt.closeOnExec k = true
    rw [Finset.filter_filter, Finset.filter_filter] at hsplit
    have hmarked :
        markedCount (s.files i).fdt f = ((Finset.range (s.files i).fdt.maxFds).filter fun k =>
        (s.files i).fdt.fd k = some f ∧ (s.files i).fdt.closeOnExec k = true).card := by
      unfold markedCount
      simp only [and_comm]
    rw [hloop.closed, count_markedFiles, hleft, hmarked]
    unfold slotCount
    omega

/-- `dup_fd` takes the references for the table that it fills, if that was empty. -/
theorem dupFd_kept (h : FdSysOk s) (env : FdEnv) (newf mem : Option RawMem) (i : FilesId)
    (hj : j ∈ T) (hempty : ∀ k, s.slot j k = none) : CallKept T s (s.dupFd env newf mem i j).2 := by
  have hok := fdSysOk_dupFd h env newf mem i j
  unfold FdSys.dupFd at hok ⊢
  rcases dupFd_cases env.nrOpen newf mem (s.files i) with ⟨-, he⟩ | ⟨-, he⟩ | ⟨t, hd, hle, hlt, he⟩
  · rw [he]
    exact .refl h
  · rw [he]
    exact .refl h
  · rw [he] at hok ⊢
    refine ⟨⟨hok, fun f => ?_⟩, FdSys.foldl_getFile_bug _ _⟩
    have hcopy : slotCount (dupFill (s.files i) t).1 f = slotCount (s.files i) f := by
      apply slotCount_congr
      intro k
      rw [← fdEntry_file, (dupFill_entry (h i) hd hle hlt k).file, fdEntry_file]
    have hold : slotCount (s.files j) f = 0 := by
      apply slotCount_eq_zero
      intro k hk
      exact absurd ((hempty k).symm.trans hk) (by simp)
    have hslots :=
      slotsIn_table (f := f) hj fun k hk => s.setFiles_other hk (dupFill (s.files i) t).1
    rw [FdSys.setFiles_self, hcopy, hold] at hslots
    have hfill :
        ((dupFill (s.files i) t).2.foldl FdSys.getFile
          (s.setFiles j (dupFill (s.files i) t).1)).slotsIn T f =
          (s.setFiles j (dupFill (s.files i) t).1).slotsIn T f := by
      unfold FdSys.slotsIn
      rw [FdSys.foldl_getFile_files]
    dsimp only
    rw [hfill, hslots, FdSys.foldl_getFile_fCount, count_dupFill (h i), FdSys.setFiles_fCount]
    push_cast
    ring

theorem SetsEntry.slot {e : FdEntry} {fd : ℕ} (h : SetsEntry s i fd e s') (j : FilesId) (k : ℕ) :
    s'.slot j k = if j = i ∧ k = fd then e.file else s.slot j k := by
  unfold FdSys.slot
  rw [← fdEntry_file, h j k, ← fdEntry_file]
  split <;> rfl

theorem fdInstall_fCount (s : FdSys) (i : FilesId) (fd : ℕ) (file : FileId) :
    (s.fdInstall i fd file).fCount = s.fCount := by
  unfold FdSys.fdInstall
  cases fdInstall (s.files i) fd file <;> rfl

/-- The descriptor that is looked for has no file. -/
theorem slot_candidateFd (h : FdSysOk s) (i : FilesId) (start : ℕ) :
    s.slot i (candidateFd (s.files i) start) = none := by
  obtain ⟨-, -, -, hclear⟩ := candidateFd_spec (h i) start
  show (if _ < _ then _ else _) = none
  split
  next hlt =>
    by_contra hfd
    have hopen := (h i).fdt.slot_open _ hlt hfd
    rw [hclear hlt] at hopen
    exact Bool.false_ne_true hopen
  next => rfl

/-- `f_dupfd` fails, or installs the file with a reference of its own. -/
theorem fDupfd_cases (h : FdSysOk s) (mems : List (Option RawMem)) (start : ℕ) (file : FileId)
    (flags : ℕ) (hopen : env.nrOpen ≤ sysctlNrOpenMax)
    (hx : GrowsExactly env.nrOpen (s.files cur) (candidateFd (s.files cur) start)) :
    let s' := (fDupfd env mems cur start file flags s).2
    s' = s ∨ FdSysOk s' ∧ s'.bug = s.bug ∧ s'.fCount = (s.getFile file).fCount ∧
      ∃ c, SetsEntry s cur (candidateFd (s.files cur) start) ⟨some file, true, c⟩ s' := by
  have hok := filesOk_allocFd (h cur) env.nrOpen start (env.rlimNofile % 2^32) flags mems hx
  have hresult :=
    allocFd_result (h cur) env.nrOpen start (env.rlimNofile % 2^32) flags mems hopen hx
  unfold fDupfd
  split
  next => exact .inl rfl
  next =>
    dsimp only at hresult ⊢
    generalize allocFd env.nrOpen start (env.rlimNofile % 2^32) flags mems (s.files cur) =
      r at hok hresult ⊢
    rcases hresult with ⟨rfl, -⟩ | rfl | ⟨hr, -, hlt, hentry⟩
    · rw [if_neg (show ¬(-EMFILE : ℤ) ≥ 0 by decide), FdSys.setFiles_eq_self]
      exact .inl rfl
    · rw [if_neg (show ¬(-ENOMEM : ℤ) ≥ 0 by decide), FdSys.setFiles_eq_self]
      exact .inl rfl
    · rw [hr, if_pos (Int.natCast_nonneg _), Int.toNat_natCast]
      set n := candidateFd (s.files cur) start
      set t := (s.setFiles cur r.2).getFile file
      have hself : t.files cur = r.2 := FdSys.setFiles_self ..
      have hreserved : r.2.fdt.openFds n = true ∧ r.2.fdt.fd n = none := by
        have hn := hentry n
        rw [if_pos rfl, fdEntry, if_pos hlt] at hn
        exact ⟨congrArg FdEntry.isOpen hn, congrArg FdEntry.file hn⟩
      obtain ⟨hinst, hbug⟩ := fdSysOk_fdInstall (s := t) ((h.setFiles cur hok).of_files rfl) file
        (by rw [hself]; exact hreserved.1) (by rw [hself]; exact hreserved.2)
      exact .inr
        ⟨hinst, hbug, fdInstall_fCount t cur n file, _, setsEntry_install file rfl hlt hentry⟩

theorem fDupfd_kept (h : FdSysOk s) (hcur : cur ∈ T) (start : ℕ) (file : FileId) (flags : ℕ)
    (hopen : env.nrOpen ≤ sysctlNrOpenMax)
    (hx : GrowsExactly env.nrOpen (s.files cur) (candidateFd (s.files cur) start)) :
    CallKept T s (fDupfd env mems cur start file flags s).2 := by
  rcases fDupfd_cases h mems start file flags hopen hx with hsame | ⟨hok, hbug, hcount, c, hset⟩
  · rw [hsame]
    exact .refl h
  · refine ⟨⟨hok, fun f => ?_⟩, hbug⟩
    rw [slotsIn_update hcur hset.slot, slot_candidateFd h, hcount, FdSys.getFile_fCount, holds_none]
    ring

theorem allocInstall_callKept (h : FdSysOk s) (env : FdEnv) (mems : List (Option RawMem))
    (hi : i ∈ T) (file : FileId) (flags : BitVec 32)
    (hx : GrowsExactly env.nrOpen (s.files i) (candidateFd (s.files i) 0)) :
    CallKept T s (allocInstall env mems i file flags (s.getFile file)).2 := by
  refine ⟨allocInstall_kept h env mems hi file flags hx, ?_⟩
  exact (fdSysOk_allocInstall (s := s.getFile file) (h.of_files rfl) env mems i file flags hx).2

theorem closeFd_bug (env : FdEnv) (s : FdSys) (i : FilesId) (fd : ℕ) :
    (s.closeFd env i fd).2.bug = s.bug := by
  unfold FdSys.closeFd
  split <;> rfl

theorem doDup2_bug (s : FdSys) (i : FilesId) (file : FileId) (fd flags : ℕ) :
    (s.doDup2 i file fd flags).2.bug = s.bug := by
  unfold FdSys.doDup2
  dsimp only
  split
  · rfl
  · split <;> rfl

theorem expandDup2_callKept (h : FdSysOk s) (env : FdEnv) (mem : Option RawMem) (cur : FilesId)
    (hi : i ∈ T) (oldfd : ℕ) {newfd : ℕ} (flags : BitVec 32)
    (hx : GrowsExactly env.nrOpen (s.files i) newfd) :
    CallKept T s (expandDup2 env mem cur i oldfd newfd flags s).2 := by
  refine ⟨expandDup2_kept h env mem cur hi oldfd flags hx, ?_⟩
  unfold expandDup2
  dsimp only
  split
  · rfl
  · split
    · split <;> rfl
    · exact doDup2_bug ..

theorem dup3_callKept (h : FdSysOk s) (env : FdEnv) (mem : Option RawMem) (hcur : cur ∈ T)
    (oldfd : ℕ) {newfd : ℕ} (flags : BitVec 32) (hx : GrowsExactly env.nrOpen (s.files cur) newfd) :
    CallKept T s (dup3 env mem cur oldfd newfd flags s).2 := by
  unfold dup3
  split
  · exact .refl h
  split
  · exact .refl h
  split
  · exact .refl h
  · exact expandDup2_callKept h env mem cur hcur oldfd flags hx

def FdCall.peer : FdCall → Option FilesId
  | .dupToRemote child _ => some child
  | .dup2ToRemote child _ => some child
  | .dupFromRemote child _ => some child
  | .remoteClose child _ => some child
  | _ => none

/-- A table that the call makes grow is copied exactly. -/
def FdCallStep.GrowsExactly (s : FdSys) (st : FdCallStep) : Prop :=
  let grows (i : FilesId) (nr : ℕ) := PtraceRemote.GrowsExactly st.env.nrOpen (s.files i) nr
  match st.call with
  | .dup _ => grows st.cur (candidateFd (s.files st.cur) 0)
  | .dup2 _ newfd => grows st.cur newfd
  | .dup3 _ newfd _ => grows st.cur newfd
  | .dupfd _ start _ => grows st.cur (candidateFd (s.files st.cur) start)
  | .dupToRemote child _ => grows child (candidateFd (s.files child) 0)
  | .dup2ToRemote child data => ∀ args, data = some args → grows child args.remoteFd.toNat
  | .dupFromRemote _ _ => grows st.cur (candidateFd (s.files st.cur) 0)
  | _ => True

/-- Every call but `dup_fd` keeps the references between tables that it may touch. -/
theorem FdCallStep.kept (st : FdCallStep) (h : FdSysOk s) (hcur : st.cur ∈ T)
    (hpeer : ∀ j, st.call.peer = some j → j ∈ T)
    (hfork : ∀ j newf, st.call = .fork j newf → j ∈ T ∧ ∀ k, s.slot j k = none)
    (hopen : st.env.nrOpen ≤ sysctlNrOpenMax) (hx : st.GrowsExactly s) :
    CallKept T s (st.exec s).2 := by
  obtain ⟨env, mems, cur, call⟩ := st
  cases call with
  | dup fildes =>
    unfold FdCallStep.exec dup
    dsimp only
    split
    · exact .refl h
    · exact allocInstall_callKept h env mems hcur _ 0 hx
  | dup2 oldfd newfd =>
    unfold FdCallStep.exec dup2
    dsimp only
    split
    · split <;> exact .refl h
    · exact dup3_callKept h env _ hcur oldfd 0 hx
  | dup3 oldfd newfd flags => exact dup3_callKept h env _ hcur oldfd flags hx
  | dupfd fd start flags =>
    unfold FdCallStep.exec
    dsimp only
    split
    · exact .refl h
    · exact fDupfd_kept h hcur start _ flags hopen hx
  | close fd => exact ⟨closeFd_kept h env hcur fd, closeFd_bug env s cur fd⟩
  | fork j newf =>
    obtain ⟨hj, hempty⟩ := hfork j newf rfl
    exact dupFd_kept h env newf _ cur hj hempty
  | exec => exact doCloseOnExec_kept h hcur
  | dupToRemote child data =>
    have hchild : child ∈ T := hpeer child rfl
    rcases ptraceDupToRemote_cases env mems cur child s data with ⟨e, -, hr⟩ | ⟨args, file, -, hr⟩
    · show CallKept T s (ptraceDupToRemote env mems cur child data s).2
      rw [hr]
      exact .refl h
    · show CallKept T s (ptraceDupToRemote env mems cur child data s).2
      rw [hr]
      exact allocInstall_callKept h env mems hchild file args.flags hx
  | dup2ToRemote child data =>
    have hchild : child ∈ T := hpeer child rfl
    rcases ptraceDup2ToRemote_cases env (mems.headD none) cur child s data with
      ⟨e, -, hr⟩ | ⟨args, hdata, hr⟩
    · show CallKept T s (ptraceDup2ToRemote env (mems.headD none) cur child data s).2
      rw [hr]
      exact .refl h
    · show CallKept T s (ptraceDup2ToRemote env (mems.headD none) cur child data s).2
      rw [hr]
      exact expandDup2_callKept h env _ cur hchild args.localFd.toNat args.flags (hx args hdata)
  | dupFromRemote child data =>
    rcases ptraceDupFromRemote_cases env mems cur child s data with ⟨e, -, hr⟩ | ⟨args, file, -, hr⟩
    · show CallKept T s (ptraceDupFromRemote env mems cur child data s).2
      rw [hr]
      exact .refl h
    · show CallKept T s (ptraceDupFromRemote env mems cur child data s).2
      rw [hr]
      exact allocInstall_callKept h env mems hcur file args.flags hx
  | remoteClose child data =>
    cases data with
    | none => exact .refl h
    | some args => exact ⟨closeFd_kept h env (hpeer child rfl) _, closeFd_bug env s child _⟩

/-! The tables that a call does not name. -/

theorem fdInstall_others (s : FdSys) (fd : ℕ) (file : FileId) (hj : j ≠ i) :
    (s.fdInstall i fd file).files j = s.files j := by
  unfold FdSys.fdInstall
  split
  · rfl
  · exact s.setFiles_other hj _

theorem allocInstall_others (s : FdSys) (env : FdEnv) (mems : List (Option RawMem)) (file : FileId)
    (flags : BitVec 32) (hj : j ≠ i) :
    (allocInstall env mems i file flags s).2.files j = s.files j := by
  unfold allocInstall
  dsimp only
  split
  · exact (fdInstall_others _ _ file hj).trans (s.setFiles_other hj _)
  · exact s.setFiles_other hj _

theorem closeFd_others (s : FdSys) (env : FdEnv) (fd : ℕ) (hj : j ≠ i) :
    (s.closeFd env i fd).2.files j = s.files j := by
  unfold FdSys.closeFd
  split
  · rfl
  · exact s.setFiles_other hj _

theorem doDup2_others (s : FdSys) (file : FileId) (fd flags : ℕ) (hj : j ≠ i) :
    (s.doDup2 i file fd flags).2.files j = s.files j := by
  unfold FdSys.doDup2
  dsimp only
  split
  · rfl
  · split <;> exact s.setFiles_other hj _

theorem expandDup2_others (s : FdSys) (env : FdEnv) (mem : Option RawMem) (cur : FilesId)
    (oldfd newfd : ℕ) (flags : BitVec 32) (hj : j ≠ i) :
    (expandDup2 env mem cur i oldfd newfd flags s).2.files j = s.files j := by
  have hset (files : FilesStruct) : (s.setFiles i files).files j = s.files j :=
    s.setFiles_other hj files
  unfold expandDup2
  dsimp only
  split
  · exact hset _
  · split
    · split <;> exact hset _
    · exact (doDup2_others _ _ newfd flags.toNat hj).trans (hset _)

theorem dup3_others (s : FdSys) (env : FdEnv) (mem : Option RawMem) (oldfd newfd : ℕ)
    (flags : BitVec 32) (hj : j ≠ cur) :
    (dup3 env mem cur oldfd newfd flags s).2.files j = s.files j := by
  unfold dup3
  split
  · rfl
  split
  · rfl
  split
  · rfl
  · exact expandDup2_others s env mem cur oldfd newfd flags hj

theorem FdCallStep.others (st : FdCallStep) (s : FdSys) (hcur : j ≠ st.cur)
    (hpeer : st.call.peer ≠ some j) (hfork : ∀ newf, st.call ≠ .fork j newf) :
    (st.exec s).2.files j = s.files j := by
  obtain ⟨env, mems, cur, call⟩ := st
  cases call with
  | dup fildes =>
    unfold FdCallStep.exec dup
    dsimp only
    split
    · rfl
    · exact allocInstall_others _ env mems _ 0 hcur
  | dup2 oldfd newfd =>
    unfold FdCallStep.exec dup2
    dsimp only
    split
    · split <;> rfl
    · exact dup3_others s env _ oldfd newfd 0 hcur
  | dup3 oldfd newfd flags => exact dup3_others s env _ oldfd newfd flags hcur
  | dupfd fd start flags =>
    unfold FdCallStep.exec fDupfd
    dsimp only
    split
    · rfl
    · split
      · rfl
      · split
        · exact (fdInstall_others _ _ _ hcur).trans (s.setFiles_other hcur _)
        · exact s.setFiles_other hcur _
  | close fd => exact closeFd_others s env fd hcur
  | fork k newf =>
    have hk : j ≠ k := fun hjk => hfork newf (by rw [hjk])
    unfold FdCallStep.exec FdSys.dupFd
    dsimp only
    split
    · rfl
    · rw [FdSys.foldl_getFile_files]
      exact s.setFiles_other hk _
  | exec =>
    show (s.doCloseOnExec cur).files j = s.files j
    unfold FdSys.doCloseOnExec
    dsimp only
    rw [FdSys.foldl_fput_files]
    exact s.setFiles_other hcur _
  | dupToRemote child data =>
    have hj : j ≠ child := fun hjc => hpeer (by rw [hjc]; rfl)
    show (ptraceDupToRemote env mems cur child data s).2.files j = s.files j
    rcases ptraceDupToRemote_cases env mems cur child s data with
      ⟨e, -, hr⟩ | ⟨args, file, -, hr⟩ <;> rw [hr]
    exact allocInstall_others _ env mems file args.flags hj
  | dup2ToRemote child data =>
    have hj : j ≠ child := fun hjc => hpeer (by rw [hjc]; rfl)
    show (ptraceDup2ToRemote env (mems.headD none) cur child data s).2.files j = s.files j
    rcases ptraceDup2ToRemote_cases env (mems.headD none) cur child s data with
      ⟨e, -, hr⟩ | ⟨args, -, hr⟩ <;> rw [hr]
    exact expandDup2_others s env _ cur _ _ args.flags hj
  | dupFromRemote child data =>
    show (ptraceDupFromRemote env mems cur child data s).2.files j = s.files j
    rcases ptraceDupFromRemote_cases env mems cur child s data with
      ⟨e, -, hr⟩ | ⟨args, file, -, hr⟩ <;> rw [hr]
    exact allocInstall_others _ env mems file args.flags hcur
  | remoteClose child data =>
    have hj : j ≠ child := fun hjc => hpeer (by rw [hjc]; rfl)
    cases data with
    | none => rfl
    | some args => exact closeFd_others s env _ hj

end Calls

end PtraceRemote
