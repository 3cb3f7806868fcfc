import PtraceRemote.FdDup

/-! `do_close_on_exec`, word by word and bit by bit: which descriptors it closes, and what becomes
of one that a request of the tracer has made. -/
namespace PtraceRemote
open Bitmap

def cloexecLoop : ℕ → ℕ → FilesStruct × List FileId → Option (FilesStruct × List FileId)
  | 0, _, _ => none
  | fuel+1, i, acc =>
    if acc.1.fdt.maxFds ≤ 64*i then some acc else cloexecLoop fuel (i+1) (cloexecWord acc i)

def FdEntry.exec (e : FdEntry) : FdEntry :=
  if e.cloexec = true ∧ e.file ≠ none then ⟨none, false, false⟩ else { e with cloexec := false }

def markedFiles (fdt : Fdtable) (m : ℕ) : List FileId :=
  (List.range m).filterMap fun k => if fdt.closeOnExec k then fdt.fd k else none

def markedCount (fdt : Fdtable) (f : FileId) : ℕ :=
  ((Finset.range fdt.maxFds).filter fun k => fdt.closeOnExec k = true ∧ fdt.fd k = some f).card

structure ExecLoop (old : Fdtable) (m n : ℕ) (acc : FilesStruct × List FileId) : Prop where
  max_eq : acc.1.fdt.maxFds = old.maxFds
  slot : ∀ k, acc.1.fdt.fd k = if k < m ∧ old.closeOnExec k = true then none else old.fd k
  bit : ∀ k, acc.1.fdt.openFds k =
    if k < m ∧ old.closeOnExec k = true ∧ old.fd k ≠ none then false else old.openFds k
  mark : ∀ k, acc.1.fdt.closeOnExec k = if k < n then false else old.closeOnExec k
  closed : acc.2 = markedFiles old m

variable {old : Fdtable} {m n i fd : ℕ} {acc : FilesStruct × List FileId} {set : ℕ → Bool}
  {files : FilesStruct} {f : FileId}

theorem markedFiles_succ (fdt : Fdtable) (m : ℕ) :
    markedFiles fdt (m+1) =
      markedFiles fdt m ++ (if fdt.closeOnExec m then fdt.fd m else none).toList := by
  rw [markedFiles, List.range_succ, List.filterMap_append, List.filterMap_cons]
  cases (if fdt.closeOnExec m then fdt.fd m else none) <;> rfl

theorem cloexecBit_unmarked (h : set fd = false) : cloexecBit set acc fd = acc := by
  unfold cloexecBit
  rw [if_neg (by simp [h])]

/-- One bit of the snapshot, which agrees with the old table there. -/
theorem ExecLoop.bit_step (h : ExecLoop old m n acc) (hset : set m = old.closeOnExec m) :
    ExecLoop old (m+1) n (cloexecBit set acc m) := by
  have hlt : ∀ k, k < m+1 ↔ k < m ∨ k = m := fun k => by omega
  have hslot : acc.1.fdt.fd m = old.fd m :=
    (h.slot m).trans (if_neg fun hc => absurd hc.1 (lt_irrefl m))
  cases hm : old.closeOnExec m with
  | false =>
    rw [cloexecBit_unmarked (hset.trans hm)]
    refine ⟨h.max_eq, fun k => ?_, fun k => ?_, h.mark, ?_⟩
    · rw [h.slot k]
      by_cases hk : k = m
      · simp [hk, hm]
      · simp [hlt, hk]
    · rw [h.bit k]
      by_cases hk : k = m
      · simp [hk, hm]
      · simp [hlt, hk]
    · rw [h.closed, markedFiles_succ, hm]
      exact (List.append_nil _).symm
  | true =>
    unfold cloexecBit
    rw [if_pos (hset.trans hm), hslot]
    cases hf : old.fd m with
    | none =>
      -- marked, but never installed: the slot stays empty and the descriptor reserved
      refine ⟨h.max_eq, fun k => ?_, fun k => ?_, h.mark, ?_⟩
      · rw [h.slot k]
        by_cases hk : k = m
        · simp [hk, hm, hf]
        · simp [hlt, hk]
      · rw [h.bit k]
        by_cases hk : k = m
        · simp [hk, hf]
        · simp [hlt, hk]
      · rw [h.closed, markedFiles_succ, hm, if_pos rfl, hf]
        exact (List.append_nil _).symm
    | some f =>
      refine ⟨h.max_eq, fun k => ?_, fun k => ?_, h.mark, ?_⟩
      · change Function.update acc.1.fdt.fd m none k = _
        by_cases hk : k = m
        · simp [hk, hm]
        · rw [Function.update_of_ne hk, h.slot k]
          simp [hlt, hk]
      · change Function.update acc.1.fdt.openFds m false k = _
        by_cases hk : k = m
        · simp [hk, hm, hf]
        · rw [Function.update_of_ne hk, h.bit k]
          simp [hlt, hk]
      · change acc.2 ++ [f] = _
        rw [h.closed, markedFiles_succ, hm, if_pos rfl, hf]
        rfl

/-- The bits of a word, from the first. -/
theorem ExecLoop.bits (h : ExecLoop old (64*i) n acc)
    (hset : ∀ k, 64*i ≤ k → set k = old.closeOnExec k) (j : ℕ) :
    ExecLoop old (64*i+j) n (((List.range j).map (64*i+·)).foldl (cloexecBit set) acc) := by
  induction j with
  | zero => exact h
  | succ j ih =>
    rw [List.range_succ, List.map_append, List.foldl_append]
    exact ih.bit_step (hset _ (Nat.le_add_right _ _))

theorem foldl_cloexecBit_unmarked {l : List ℕ} (h : ∀ k ∈ l, set k = false) :
    l.foldl (cloexecBit set) acc = acc := by
  induction l with
  | nil => rfl
  | cons k l ih =>
    rw [List.foldl_cons, cloexecBit_unmarked (h k List.mem_cons_self)]
    exact ih fun k' hk' => h k' (List.mem_cons_of_mem k hk')

/-- One word. A word without marks is passed over, which changes nothing. -/
theorem ExecLoop.word_step (h : ExecLoop old (64*i) (64*i) acc) :
    ExecLoop old (64*(i+1)) (64*(i+1)) (cloexecWord acc i) := by
  have hset : ∀ k, 64*i ≤ k → acc.1.fdt.closeOnExec k = old.closeOnExec k := by
    intro k hk
    rw [h.mark k, if_neg (by omega)]
  unfold cloexecWord
  dsimp only
  by_cases hzero : wordZero acc.1.fdt.closeOnExec i
  · rw [if_pos hzero]
    have hclear : ∀ k, 64*i ≤ k → k < 64*(i+1) → acc.1.fdt.closeOnExec k = false := by
      intro k hk hk'
      have hbit := hzero (k-64*i) (by omega)
      rwa [show 64*i+(k-64*i) = k by omega] at hbit
    have hmark : ExecLoop old (64*i) (64*(i+1)) acc := by
      refine ⟨h.max_eq, h.slot, h.bit, fun k => ?_, h.closed⟩
      by_cases hk : k < 64*(i+1)
      · rw [if_pos hk]
        by_cases hlow : k < 64*i
        · rw [h.mark k, if_pos hlow]
        · exact hclear k (not_lt.1 hlow) hk
      · rw [if_neg hk]
        exact hset k (by omega)
    have hbits := hmark.bits hset 64
    rwa [foldl_cloexecBit_unmarked] at hbits
    intro k hk
    obtain ⟨j, hj, rfl⟩ := List.mem_map.1 hk
    have hj := List.mem_range.1 hj
    exact hclear (64*i+j) (by omega) (by omega)
  · rw [if_neg hzero]
    have hcleared : ExecLoop old (64*i) (64*(i+1)) ({ acc.1 with
        fdt := { acc.1.fdt with closeOnExec := fun k => if k/64 = i then false
                                  else acc.1.fdt.closeOnExec k } },
        acc.2) := by
      refine ⟨h.max_eq, h.slot, h.bit, fun k => ?_, h.closed⟩
      dsimp only
      by_cases hk : k/64 = i
      · rw [if_pos hk, if_pos (by omega)]
      · rw [if_neg hk, h.mark k]
        by_cases hlow : k < 64*i
        · rw [if_pos hlow, if_pos (by omega)]
        · rw [if_neg hlow, if_neg (by omega)]
    exact hcleared.bits hset 64

theorem execLoop_foldl (files : FilesStruct) (n : ℕ) :
    ExecLoop files.fdt (64*n) (64*n) ((List.range n).foldl cloexecWord (files, [])) := by
  induction n with
  | zero => exact ⟨rfl, fun k => by simp, fun k => by simp, fun k => by simp, rfl⟩
  | succ n ih =>
    rw [List.range_succ, List.foldl_append]
    exact ih.word_step

theorem execLoop_doCloseOnExec (hd : 64 ∣ files.fdt.maxFds) :
    ExecLoop files.fdt files.fdt.maxFds files.fdt.maxFds (doCloseOnExec files) := by
  have h := execLoop_foldl files (files.fdt.maxFds/64)
  rwa [Nat.mul_div_cancel' hd] at h

/-- The loop ends behind the last word: no word changes the size of the table. -/
theorem cloexecLoop_ends (hd : 64 ∣ files.fdt.maxFds) {fuel : ℕ} (hi : i ≤ files.fdt.maxFds/64)
    (hfuel : files.fdt.maxFds/64 < i+fuel) :
    cloexecLoop fuel i ((List.range i).foldl cloexecWord (files, [])) =
      some (doCloseOnExec files) := by
  induction fuel generalizing i with
  | zero => omega
  | succ fuel ih =>
    have hmax := (execLoop_foldl files i).max_eq
    unfold cloexecLoop
    rw [hmax]
    by_cases hend : files.fdt.maxFds ≤ 64*i
    · rw [if_pos hend, show i = files.fdt.maxFds/64 by omega]
      rfl
    · rw [if_neg hend]
      have hnext := ih (i := i+1) (by omega) (by omega)
      rwa [List.range_succ, List.foldl_append] at hnext

/-- Every entry after the loop. -/
theorem fdEntry_doCloseOnExec (hd : 64 ∣ files.fdt.maxFds) (k : ℕ) :
    fdEntry (doCloseOnExec files).1 k = (fdEntry files k).exec := by
  obtain ⟨hmax, hslot, hbit, hmark, -⟩ := execLoop_doCloseOnExec hd
  unfold fdEntry FdEntry.exec
  rw [hmax]
  by_cases hk : k < files.fdt.maxFds
  · rw [if_pos hk, if_pos hk, hslot, hbit, hmark, if_pos hk]
    by_cases hc : files.fdt.closeOnExec k = true
    · by_cases hf : files.fdt.fd k = none
      · simp [hk, hc, hf]
      · simp [hk, hc, hf]
    · simp [hc]
  · rw [if_neg hk, if_neg hk]
    simp

/-! The references. -/

theorem FdSys.foldl_fput_fCount (s : FdSys) (l : List FileId) (f : FileId) :
    (l.foldl fput s).fCount f = s.fCount f-l.count f := by
  have hfold := foldl_fCount (c := -1) (fun s g f => by rw [fput_fCount]; ring) s l f
  rw [hfold]
  ring

theorem count_markedFiles (fdt : Fdtable) (f : FileId) :
    (markedFiles fdt fdt.maxFds).count f = markedCount fdt f := by
  rw [markedFiles, count_filterMap_range, markedCount]
  congr 1
  apply Finset.filter_congr
  intro k _
  by_cases hc : fdt.closeOnExec k = true
  · simp [hc]
  · simp [hc]

/-! The descriptors that the tracer makes. -/

/-- A request that has made `fd` a descriptor of the table `i`. -/
inductive Creates (i : FilesId) (fd : ℕ) (flags : BitVec 32) (s : FdSys) : FdSys → Prop
  | dupToRemote (env : FdEnv) (mems : List (Option RawMem)) (cur : FilesId) (localFd : BitVec 32)
    (h : (ptraceDupToRemote env mems cur i (some ⟨localFd, flags⟩) s).1 = fd) :
    Creates i fd flags s (ptraceDupToRemote env mems cur i (some ⟨localFd, flags⟩) s).2
  | dup2ToRemote (env : FdEnv) (mem : Option RawMem) (cur : FilesId) (localFd remoteFd : BitVec 32)
    (h : (ptraceDup2ToRemote env mem cur i (some ⟨localFd, remoteFd, flags⟩) s).1 = fd) :
    Creates i fd flags s (ptraceDup2ToRemote env mem cur i (some ⟨localFd, remoteFd, flags⟩) s).2
  | dupFromRemote (env : FdEnv) (mems : List (Option RawMem)) (child : FilesId)
      (remoteFd : BitVec 32)
    (h : (ptraceDupFromRemote env mems i child (some ⟨remoteFd, flags⟩) s).1 = fd) :
    Creates i fd flags s (ptraceDupFromRemote env mems i child (some ⟨remoteFd, flags⟩) s).2

/-- `__alloc_fd` that succeeds has taken a descriptor of the table as it is then. -/
theorem allocFd_taken {nrOpen start endFd flags : ℕ} {mems : List (Option RawMem)}
    {files : FilesStruct} (h : 0 ≤ (allocFd nrOpen start endFd flags mems files).1) :
    ∃ (files' : FilesStruct) (fd : ℕ), fd < files'.fdt.maxFds ∧
      allocFd nrOpen start endFd flags mems files = ((fd : ℤ), takeFd files' start flags fd) := by
  induction mems generalizing files with
  | nil =>
    unfold allocFd at h ⊢
    dsimp only at h ⊢
    split_ifs at h ⊢ with hend hmax hopen
    · exact absurd h (not_le.2 (show -EMFILE < 0 by decide))
    · exact ⟨files, _, hmax, rfl⟩
    · exact absurd h (not_le.2 (show -EMFILE < 0 by decide))
    · exact absurd h (not_le.2 (show -ENOMEM < 0 by decide))
  | cons mem mems ih =>
    unfold allocFd at h ⊢
    dsimp only at h ⊢
    split_ifs at h ⊢ with hend hmax hneg
    · exact absurd h (not_le.2 (show -EMFILE < 0 by decide))
    · exact ⟨files, _, hmax, rfl⟩
    · exact absurd h (not_le.2 hneg)
    · exact ih h

/-- The mark of a descriptor is that of its flags, whatever mark the number had before. -/
theorem takeFd_closeOnExec (files : FilesStruct) (start flags fd : ℕ) :
    (takeFd files start flags fd).fdt.closeOnExec fd = decide (flags &&& oCloexec ≠ 0) := by
  have hmark : (markCloexec flags fd (setOpenFd fd files.fdt)).closeOnExec fd =
      decide (flags &&& oCloexec ≠ 0) := by
    rw [markCloexec_closeOnExec, Function.update_self]
  unfold takeFd
  dsimp only
  split
  · exact hmark
  · exact hmark

theorem allocInstall_mark {s : FdSys} {env : FdEnv} {mems : List (Option RawMem)} {i : FilesId}
    {file : FileId} {flags : BitVec 32} (h : (allocInstall env mems i file flags s).1 = fd) :
    (fdEntry ((allocInstall env mems i file flags s).2.files i) fd).cloexec =
      decide (flags.toNat &&& oCloexec ≠ 0) := by
  have hpos :
      0 ≤ (allocFd env.nrOpen 0 (env.rlimNofile % 2^32) flags.toNat mems (s.files i)).1 := by
    unfold allocInstall at h
    dsimp only at h
    split at h
    · assumption
    · rename_i hneg
      exact absurd (h ▸ Int.natCast_nonneg fd) hneg
  obtain ⟨files', fd', hlt, hr⟩ := allocFd_taken hpos
  unfold allocInstall at h ⊢
  dsimp only at h ⊢
  rw [hr] at h ⊢
  rw [if_pos (Int.natCast_nonneg fd')] at h ⊢
  obtain rfl : fd' = fd := Nat.cast_inj.1 h
  have hnone := (takeFd_reserved files' 0 flags.toNat fd').2
  have hmax := takeFd_maxFds files' 0 flags.toNat fd'
  have hinstall : PtraceRemote.fdInstall (takeFd files' 0 flags.toNat fd') fd' file = some
      { takeFd files' 0 flags.toNat fd' with fdt := { (takeFd files' 0 flags.toNat fd').fdt with
        fd := Function.update (takeFd files' 0 flags.toNat fd').fdt.fd fd' (some file) } } := by
    unfold PtraceRemote.fdInstall
    rw [if_neg (not_not.2 hnone)]
  unfold FdSys.fdInstall
  rw [FdSys.setFiles_self, Int.toNat_natCast, hinstall]
  dsimp only
  rw [FdSys.setFiles_self, fdEntry_of_lt (by dsimp only; rwa [hmax])]
  exact takeFd_closeOnExec files' 0 flags.toNat fd'

theorem errno_ne {e : ℤ} (he : e < 0) : e ≠ (fd : ℤ) := by
  omega

theorem expandDup2_mark {s : FdSys} {env : FdEnv} {mem : Option RawMem} {cur i : FilesId}
    {oldfd newfd : ℕ} {flags : BitVec 32}
    (h : (expandDup2 env mem cur i oldfd newfd flags s).1 = fd) :
    (fdEntry ((expandDup2 env mem cur i oldfd newfd flags s).2.files i) fd).cloexec =
      decide (flags.toNat &&& oCloexec ≠ 0) := by
  unfold expandDup2 at h ⊢
  dsimp only at h ⊢
  cases hf : fcheckFiles ((s.setFiles i (expandFiles env.nrOpen mem (s.files i) newfd).2).files cur)
      oldfd with
  | none =>
    rw [hf] at h
    exact absurd h (errno_ne (show -EBADF < 0 by decide))
  | some file =>
    rw [hf] at h
    dsimp only at h ⊢
    by_cases hneg : (expandFiles env.nrOpen mem (s.files i) newfd).1 < 0
    · rw [if_pos hneg] at h
      split at h
      · exact absurd h (errno_ne (show -EBADF < 0 by decide))
      · exact absurd h (errno_ne hneg)
    · rw [if_neg hneg] at h ⊢
      have hlt := lt_maxFds_of_expandFiles (not_lt.1 hneg)
      rw [← FdSys.setFiles_self s i (expandFiles env.nrOpen mem (s.files i) newfd).2] at hlt
      rcases FdSys.doDup2_placed _ i file flags.toNat hlt with ⟨-, hbusy⟩ | ⟨-, hret, hplaced⟩
      · rw [hbusy] at h
        exact absurd h (errno_ne (show -EBUSY < 0 by decide))
      · obtain rfl : newfd = fd := Nat.cast_inj.1 (hret.symm.trans h)
        rw [hplaced.entry, if_pos rfl]

/-- A descriptor that a request has made is marked if its flags say so. -/
theorem Creates.mark {i : FilesId} {flags : BitVec 32} {s s' : FdSys}
    (h : Creates i fd flags s s') :
    (fdEntry (s'.files i) fd).cloexec = decide (flags.toNat &&& oCloexec ≠ 0) := by
  cases h with
  | dupToRemote env mems cur localFd h =>
    rcases ptraceDupToRemote_cases env mems cur i s (some ⟨localFd, flags⟩) with
      ⟨e, he, hr⟩ | ⟨_, file, ⟨⟩, hr⟩
    · rw [hr] at h
      exact absurd h (errno_ne he)
    · rw [hr] at h ⊢
      exact allocInstall_mark h
  | dup2ToRemote env mem cur localFd remoteFd h =>
    rcases ptraceDup2ToRemote_cases env mem cur i s (some ⟨localFd, remoteFd, flags⟩) with
      ⟨e, he, hr⟩ | ⟨_, ⟨⟩, hr⟩
    · rw [hr] at h
      exact absurd h (errno_ne he)
    · rw [hr] at h ⊢
      exact expandDup2_mark h
  | dupFromRemote env mems child remoteFd h =>
    rcases ptraceDupFromRemote_cases env mems i child s (some ⟨remoteFd, flags⟩) with
      ⟨e, he, hr⟩ | ⟨_, file, ⟨⟩, hr⟩
    · rw [hr] at h
      exact absurd h (errno_ne he)
    · rw [hr] at h ⊢
      exact allocInstall_mark h

/-- `do_close_on_exec` ends, closes the marked descriptors and no others, drops one reference for
each, clears all marks and keeps the table consistent. A descriptor that a request has made is open
afterwards exactly if it was made without `O_CLOEXEC`, as long as it was open and its mark the same
until then. -/
theorem doCloseOnExec_exact (s : FdSys) (i : FilesId) (h : FilesOk (s.files i)) :
    let s' := s.doCloseOnExec i
    (∀ fuel, (s.files i).fdt.maxFds/64 < fuel →
      cloexecLoop fuel 0 (s.files i, []) = some (doCloseOnExec (s.files i))) ∧
    s'.files i = (doCloseOnExec (s.files i)).1 ∧ (s'.files i).fdt.maxFds = (s.files i).fdt.maxFds ∧
    (∀ fd, fdEntry (s'.files i) fd = (fdEntry (s.files i) fd).exec) ∧
    (∀ f, s'.fCount f = s.fCount f-markedCount (s.files i).fdt f) ∧
    FilesOk (s'.files i) ∧ (∀ j, j ≠ i → s'.files j = s.files j) ∧
    ∀ (s₀ s₁ : FdSys) (fd : ℕ) (flags : BitVec 32), Creates i fd flags s₀ s₁ →
      (fdEntry (s.files i) fd).file ≠ none →
      (fdEntry (s.files i) fd).cloexec = (fdEntry (s₁.files i) fd).cloexec →
      ((fdEntry (s'.files i) fd).file = (fdEntry (s.files i) fd).file ↔
        flags.toNat &&& oCloexec = 0) := by
  intro s'
  have hd := h.fdt.max_dvd
  have hfiles : s'.files = (s.setFiles i (doCloseOnExec (s.files i)).1).files :=
    FdSys.foldl_fput_files _ _
  have hself : s'.files i = (doCloseOnExec (s.files i)).1 := by rw [hfiles, FdSys.setFiles_self]
  have hentry : ∀ fd, fdEntry (s'.files i) fd = (fdEntry (s.files i) fd).exec := by
    intro fd
    rw [hself]
    exact fdEntry_doCloseOnExec hd fd
  refine ⟨fun fuel hfuel => ?_, hself, ?_, hentry, fun f => ?_, ?_, fun j hj => ?_, ?_⟩
  · exact cloexecLoop_ends hd (Nat.zero_le _) (by omega)
  · rw [hself]
    exact (execLoop_doCloseOnExec hd).max_eq
  · calc s'.fCount f = s.fCount f-((doCloseOnExec (s.files i)).2.count f : ℤ) :=
      FdSys.foldl_fput_fCount _ _ f
      _ = s.fCount f-markedCount (s.files i).fdt f := by
        rw [(execLoop_doCloseOnExec hd).closed, count_markedFiles]
  · rw [hself]
    exact filesOk_doCloseOnExec h
  · rw [hfiles, FdSys.setFiles_other s hj]
  -- the mark is the one that the creating call has set
  · intro s₀ s₁ fd flags hc hopen hmark
    rw [hc.mark] at hmark
    rw [hentry]
    unfold FdEntry.exec
    by_cases hflag : flags.toNat &&& oCloexec = 0
    · rw [if_neg (by simp [hmark, hflag])]
      exact iff_of_true rfl hflag
    · rw [if_pos ⟨by simp [hmark, hflag], hopen⟩]
      exact iff_of_false (fun heq => hopen heq.symm) hflag

/-- The file 7 of the tracer becomes descriptor 1 of the tracee, marked, and is gone after
`exec`. -/
theorem doCloseOnExec_exact_marked :
    let r := ptraceDupToRemote (smallEnv 0) [] 0 1 (some ⟨0, BitVec.ofNat 32 oCloexec⟩) twoTables
    r.1 = 1 ∧ r.2.fCount 7 = 2 ∧ (r.2.doCloseOnExec 1).fCount 7 = 1 ∧
      fdEntry ((r.2.doCloseOnExec 1).files 1) 0 = ⟨some 8, true, false⟩ ∧
      fdEntry ((r.2.doCloseOnExec 1).files 1) 1 = ⟨none, false, false⟩ := by
  intro r
  have hok : FilesOk (r.2.files 1) := (fdSysOk_allocInstall (s := twoTables.getFile 7)
    (fdSysOk_twoTables.of_files rfl) (smallEnv 0) [] 1 7 (BitVec.ofNat 32 oCloexec) (by decide)).1 1
  obtain ⟨-, -, -, hentry, hcount, -⟩ := doCloseOnExec_exact r.2 1 hok
  refine ⟨by decide, by decide, ?_, ?_, ?_⟩
  · rw [hcount]
    decide
  · rw [hentry]
    decide
  · rw [hentry]
    decide

end PtraceRemote
