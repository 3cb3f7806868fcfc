import PtraceRemote.FdGrow
import PtraceRemote.FdDup

/-! `dup_fd`: the table that a forked task gets, descriptor by descriptor. -/
namespace PtraceRemote
open Bitmap

variable {old start : Fdtable} {oldf : FilesStruct} {nfdt : Fdtable} {fd n : ℕ} {f : FileId}
  {s : FdSys}

/-- The copy loop leaves the marks alone and takes a reference for every file it copies. -/
theorem foldl_dupSlot_gets (old start : Fdtable) (n : ℕ) :
    ((List.range n).foldl (dupSlot old) (start, [])).1.closeOnExec = start.closeOnExec ∧
      ((List.range n).foldl (dupSlot old) (start, [])).2 = (List.range n).filterMap old.fd := by
  induction n with
  | zero => exact ⟨rfl, rfl⟩
  | succ n ih =>
    rw [List.range_succ, List.foldl_append, List.foldl_cons, List.foldl_nil, List.filterMap_append]
    generalize (List.range n).foldl (dupSlot old) (start, []) = cur at ih ⊢
    unfold dupSlot
    cases hf : old.fd n with
    | none =>
      refine ⟨ih.1, ?_⟩
      rw [List.filterMap_cons_none hf, List.filterMap_nil, List.append_nil]
      exact ih.2
    | some f =>
      refine ⟨ih.1, ?_⟩
      rw [List.filterMap_cons_some hf, List.filterMap_nil, ih.2]

/-- Behind the copied part there is nothing to copy. -/
theorem slot_none_of_countOpenFiles_le (h : FilesOk oldf) (hfd : countOpenFiles oldf.fdt ≤ fd)
    (hlt : fd < oldf.fdt.maxFds) : oldf.fdt.fd fd = none := by
  have hmax := h.fdt.max_dvd
  obtain ⟨hd, -, hzero⟩ := countOpenFiles_spec h.fdt
  by_contra hne
  have hopen := h.fdt.slot_open fd hlt hne
  have hclear := hzero (fd/64) (by omega) (by omega) (fd % 64) (Nat.mod_lt _ (by decide))
  rw [Nat.div_add_mod] at hclear
  rw [hclear] at hopen
  exact absurd hopen (by decide)

/-- The descriptor `fd` of a fork. -/
structure ForkedEntry (old new : FdEntry) : Prop where
  file : new.file = old.file
  isOpen : new.isOpen = old.file.isSome
  cloexec : old.file ≠ none → new.cloexec = old.cloexec

/-- What the new table shows. -/
theorem dupFill_entry (h : FilesOk oldf) (hn : 64 ∣ nfdt.maxFds)
    (hle : countOpenFiles oldf.fdt ≤ nfdt.maxFds) (hlt : nfdt.maxFds < 2^32) (fd : ℕ) :
    ForkedEntry (fdEntry oldf fd) (fdEntry (dupFill oldf nfdt).1 fd) := by
  obtain ⟨hd, hmax, -⟩ := countOpenFiles_spec h.fdt
  obtain ⟨hfull, htail⟩ := copyFdBitmaps_summary h.fdt hn hle hlt
  obtain ⟨hopen, hcloexec, -⟩ := @copyFdBitmaps_bits nfdt oldf.fdt _ hd hn hle hlt
  have hloop := @dupLoop_foldl oldf.fdt _ (countOpenFiles oldf.fdt) [] hfull htail
  have hmarks :=
    (foldl_dupSlot_gets oldf.fdt (copyFdBitmaps nfdt oldf.fdt (countOpenFiles oldf.fdt))
    (countOpenFiles oldf.fdt)).1
  -- the table behind the loop, with the rest of its slots cleared
  have hslot : (dupFill oldf nfdt).1.fdt.fd fd = if fd < countOpenFiles oldf.fdt then oldf.fdt.fd fd
      else if fd < nfdt.maxFds then none else (dupFill oldf nfdt).1.fdt.fd fd := by
    split
    next hfd =>
      refine (copyClear_copied hfd).trans ?_
      rw [hloop.slot fd, if_pos hfd]
    next hfd =>
      split
      next hfd' => exact copyClear_cleared (not_lt.1 hfd) (by change fd < _+(nfdt.maxFds-_); omega)
      next => rfl
  have hbit : (dupFill oldf nfdt).1.fdt.openFds fd = if fd < countOpenFiles oldf.fdt ∧
    oldf.fdt.fd fd = none then false
      else (copyFdBitmaps nfdt oldf.fdt (countOpenFiles oldf.fdt)).openFds fd := hloop.bit fd
  have hmark : (dupFill oldf nfdt).1.fdt.closeOnExec fd =
      (copyFdBitmaps nfdt oldf.fdt (countOpenFiles oldf.fdt)).closeOnExec fd := congrFun hmarks fd
  rw [hopen] at hbit
  rw [hcloexec] at hmark
  by_cases hfd : fd < countOpenFiles oldf.fdt
  · rw [if_pos hfd] at hslot
    rw [copyClear_copied hfd] at hbit hmark
    rw [fdEntry_of_lt (show fd < oldf.fdt.maxFds by omega),
      fdEntry_of_lt (by rw [dupFill_maxFds]; omega), hslot, hbit, hmark]
    refine ⟨rfl, ?_, fun _ => rfl⟩
    cases hf : oldf.fdt.fd fd with
    | none => simp [hfd]
    | some file =>
      rw [if_neg (by simp)]
      exact h.fdt.slot_open fd (by omega) (by simp [hf])
  · have hnone : (fdEntry oldf fd).file = none := by
      unfold fdEntry
      split
      next hlt' => exact slot_none_of_countOpenFiles_le h (not_lt.1 hfd) hlt'
      next => rfl
    unfold fdEntry at hnone ⊢
    rw [dupFill_maxFds]
    by_cases hnew : fd < nfdt.maxFds
    · rw [if_neg hfd, if_pos hnew] at hslot
      rw [if_neg fun hc => hfd hc.1, copyClear_cleared (by omega) (by omega)] at hbit
      rw [if_pos hnew, hslot, hbit]
      exact ⟨hnone.symm, by rw [hnone]; rfl, fun hne => absurd hnone hne⟩
    · rw [if_neg hnew]
      exact ⟨hnone.symm, by rw [hnone]; rfl, fun hne => absurd hnone hne⟩

/-- The files that get a reference are those of the slots. -/
theorem count_dupFill (h : FilesOk oldf) (f : FileId) :
    (dupFill oldf nfdt).2.count f = slotCount oldf f := by
  obtain ⟨-, hmax, -⟩ := countOpenFiles_spec h.fdt
  have hgets :
      (dupFill oldf nfdt).2 = (List.range (countOpenFiles oldf.fdt)).filterMap oldf.fdt.fd :=
    (foldl_dupSlot_gets oldf.fdt _ _).2
  rw [hgets, count_filterMap_range, slotCount]
  congr 1
  ext k
  rw [Finset.mem_filter, Finset.mem_filter, Finset.mem_range, Finset.mem_range]
  constructor
  · rintro ⟨hk, hf⟩
    exact ⟨by omega, hf⟩
  · rintro ⟨hk, hf⟩
    refine ⟨?_, hf⟩
    by_contra hge
    rw [slot_none_of_countOpenFiles_le h (not_lt.1 hge) hk] at hf
    exact absurd hf (by simp)

theorem FdSys.foldl_getFile_fCount (s : FdSys) (l : List FileId) (f : FileId) :
    (l.foldl getFile s).fCount f = s.fCount f+l.count f := by
  have hfold := foldl_fCount (c := 1) (fun s g f => by rw [getFile_fCount]; ring) s l f
  rw [hfold]
  ring

/-- `dup_fd` into the fresh table `j` copies the installed descriptors and nothing else, from
whatever memory the new table is made: every slot, the open bit of those with a file and their mark.
It fails only without memory, or if the copied part is larger than `sysctl_nr_open`. -/
theorem dupFd_exact (env : FdEnv) (newf mem : Option RawMem) (s : FdSys) (i j : FilesId)
    (h : FilesOk (s.files i)) (hmax : env.nrOpen ≤ sysctlNrOpenMax) :
    let r := s.dupFd env newf mem i j
    (r.1 = 0 ∧ (∀ fd, ForkedEntry (fdEntry (s.files i) fd) (fdEntry (r.2.files j) fd)) ∧
      FilesOk (r.2.files j) ∧
      (∀ f, r.2.fCount f = s.fCount f+slotCount (s.files i) f) ∧ ∀ k, k ≠ j →
        r.2.files k = s.files k) ∨
    (r.2 = s ∧
      (r.1 = -ENOMEM ∧ (newf = none ∨ nrOpenDefault < countOpenFiles (s.files i).fdt ∧ mem = none) ∨
      r.1 = -EMFILE ∧ env.nrOpen < countOpenFiles (s.files i).fdt)) := by
  intro r
  have hpos := countOpenFiles_pos (s.files i).fdt
  rcases dupFd_cases env.nrOpen newf mem (s.files i) with
    ⟨hmem, he⟩ | ⟨hsize, he⟩ | ⟨t, hd, hle, hlt, hok⟩
  · have hr : r = (-ENOMEM, s) := by
      show s.dupFd env newf mem i j = _
      unfold FdSys.dupFd
      rw [he]
    rw [hr]
    exact .inr ⟨rfl, .inl ⟨rfl, hmem⟩⟩
  · have hr : r = (-EMFILE, s) := by
      show s.dupFd env newf mem i j = _
      unfold FdSys.dupFd
      rw [he]
    rw [hr]
    refine .inr ⟨rfl, .inr ⟨rfl, ?_⟩⟩
    -- within the limit, the capacity would have been enough
    by_contra hlim
    have hm : sysctlNrOpenMax = 2^31-64 := by decide
    have hfits :=
      @lt_fdtableSize (countOpenFiles (s.files i).fdt-1) env.nrOpen (by omega) (by omega)
    omega
  · have hr : r = (0, (dupFill (s.files i) t).2.foldl FdSys.getFile
        (s.setFiles j (dupFill (s.files i) t).1)) := by
      show s.dupFd env newf mem i j = _
      unfold FdSys.dupFd
      rw [hok]
    have hfiles : r.2.files = (s.setFiles j (dupFill (s.files i) t).1).files := by
      rw [hr]
      exact FdSys.foldl_getFile_files _ _
    have hself : r.2.files j = (dupFill (s.files i) t).1 := by rw [hfiles, FdSys.setFiles_self]
    refine .inl ⟨by rw [hr], fun fd => ?_, ?_, fun f => ?_, fun k hk => ?_⟩
    · rw [hself]
      exact dupFill_entry h hd hle hlt fd
    · rw [hself]
      exact filesOk_dupFill h (by omega) hd hle hlt
    · calc r.2.fCount f = s.fCount f+(dupFill (s.files i) t).2.count f := by
            rw [hr]
            exact FdSys.foldl_getFile_fCount _ _ f
        _ = s.fCount f+slotCount (s.files i) f := by rw [count_dupFill h]
    · rw [hfiles, FdSys.setFiles_other s hk]

/-- The table 1 with its file 8 is forked into memory full of ones. -/
theorem dupFd_exact_twoTables :
    let r := twoTables.dupFd (smallEnv 0)
      (some ⟨fun _ => some 3, fun _ => true, fun _ => true, fun _ => true⟩) none 1 5
    r.1 = 0 ∧ fdEntry (r.2.files 5) 0 = ⟨some 8, true, false⟩ ∧
      ForkedEntry (fdEntry (oneFile 8) 1) (fdEntry (r.2.files 5) 1) ∧ r.2.fCount 8 = 2 := by
  intro r
  have hzero : r.1 = 0 := by decide
  rcases dupFd_exact (smallEnv 0)
    (some ⟨fun _ => some 3, fun _ => true, fun _ => true, fun _ => true⟩) none
    twoTables 1 5 (filesOk_oneFile 8) (by decide) with
      ⟨-, hentry, -, hcount, -⟩ | ⟨-, ⟨hmem, -⟩ | ⟨hlim, -⟩⟩
  · refine ⟨hzero, by decide, hentry 1, ?_⟩
    rw [hcount]
    decide
  · exact absurd (hzero.symm.trans hmem) (by decide)
  · exact absurd (hzero.symm.trans hlim) (by decide)

end PtraceRemote
