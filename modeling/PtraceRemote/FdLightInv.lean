import PtraceRemote.FdLight

/-! A file that is looked up stays alive until it is put back, and its position has one user at a
time. -/
namespace PtraceRemote

open Runs (run Every)

section Light

variable {U : Finset TaskId} {T : Finset FilesId} {fMode : FileId → ℕ} {s : LightSys}
  {i j : FilesId} {task : TaskId} {f : FileId} {b : Borrow}

def LightSys.counted (s : LightSys) (f : FileId) : ℕ :=
  s.borrows.countP fun b => b.fd.fput ∧ b.fd.file = f
def LightSys.locked (s : LightSys) (f : FileId) : ℕ :=
  s.borrows.countP fun b => b.fd.posUnlock ∧ b.fd.file = f
def LightSys.posUsers (s : LightSys) (f : FileId) : ℕ :=
  s.borrows.countP fun b => b.pos ∧ b.fd.file = f

def AtomicPos (fMode : FileId → ℕ) (f : FileId) : Prop := fMode f &&& fmodeAtomicPos ≠ 0

/-- What is borrowed without a reference is in a table that the task has for itself, and a position
that is used without the lock belongs to a file with one reference and no other user. -/
structure LightOk (U : Finset TaskId) (T : Finset FilesId) (fMode : FileId → ℕ) (s : LightSys) :
    Prop where
  life : LifeOk U T s.sys
  light : ∀ b ∈ s.borrows, b.fd.fput = false → ∃ i, s.sys.Alone b.task i ∧ s.sys.fd.Has i b.fd.file
  counted : ∀ f, (s.counted f : ℤ) ≤ s.sys.outside T f
  locks : ∀ f, s.locked f = if s.posLock f then 1 else 0
  pos : ∀ b ∈ s.borrows, b.fd.posUnlock = true → b.pos = true
  unlocked : ∀ b ∈ s.borrows, b.pos = true → AtomicPos fMode b.fd.file → b.fd.posUnlock = false →
    b.fd.fput = false ∧ s.sys.fd.fCount b.fd.file = 1 ∧ s.posUsers b.fd.file = 1

theorem LifeOk.mem_of_has {s : FilesSys} (h : LifeOk U T s) (hi : s.fd.Has i f) : i ∈ T := by
  obtain ⟨fd, hfd⟩ := hi
  apply h.tables i
  intro hzero
  exact absurd ((h.closed i hzero fd).symm.trans hfd) (by simp)

theorem slotCount_pos_of_has {s : FdSys} (hi : s.Has i f) : (1 : ℤ) ≤ slotCount (s.files i) f := by
  obtain ⟨fd, hfd⟩ := hi
  have hpos : 1 ≤ slotCount (s.files i) f := slotCount_pos hfd
  exact_mod_cast hpos

theorem one_le_slotsIn {s : FilesSys} (h : LifeOk U T s) (hi : s.fd.Has i f) :
    1 ≤ s.fd.slotsIn T f := by
  calc (1 : ℤ) ≤ slotCount (s.fd.files i) f := slotCount_pos_of_has hi
    _ ≤ ∑ k ∈ T, (slotCount (s.fd.files k) f : ℤ) :=
      Finset.single_le_sum (f := fun k => (slotCount (s.fd.files k) f : ℤ))
        (fun k _ => by positivity) (h.mem_of_has hi)

theorem LightOk.outside_nonneg (h : LightOk U T fMode s) (f : FileId) : 0 ≤ s.sys.outside T f :=
  le_trans (Int.natCast_nonneg _) (h.counted f)

/-- A file with one reference is in one table. -/
theorem LightOk.only_table (h : LightOk U T fMode s) (hone : s.sys.fd.fCount f = 1)
    (hi : s.sys.fd.Has i f) (hj : s.sys.fd.Has j f) : i = j := by
  by_contra hne
  have hsum : (slotCount (s.sys.fd.files i) f : ℤ) + slotCount (s.sys.fd.files j) f ≤
      s.sys.fd.slotsIn T f := by
    rw [← Finset.sum_pair (f := fun k => (slotCount (s.sys.fd.files k) f : ℤ)) hne]
    apply Finset.sum_le_sum_of_subset_of_nonneg
    · intro k hk
      rcases Finset.mem_insert.1 hk with rfl | hk
      · exact h.life.mem_of_has hi
      · rw [Finset.mem_singleton.1 hk]
        exact h.life.mem_of_has hj
    · intro k _ _
      positivity
  have hout := h.outside_nonneg f
  have h1 := slotCount_pos_of_has hi
  have h2 := slotCount_pos_of_has hj
  unfold FilesSys.outside at hout
  omega

/-- Then it has no lookup with a reference, and none that uses the position but of a task that has
the table. -/
theorem LightOk.no_user (h : LightOk U T fMode s) (hone : s.sys.fd.fCount f = 1)
    (hi : s.sys.fd.Has i f) (htask : s.sys.taskFiles task = some i) (hb : b ∈ s.borrows)
    (hf : b.fd.file = f) :
    b.fd.fput = false ∧ b.task = task := by
  have hlight : b.fd.fput = false := by
    by_contra hput
    have hpos : 0 < s.counted f := List.countP_pos_iff.2 ⟨b, hb, by simp [hf, hput]⟩
    have hout := h.counted f
    have hslots := one_le_slotsIn h.life hi
    unfold FilesSys.outside at hout
    omega
  obtain ⟨k, halone, hhas⟩ := h.light b hb hlight
  rw [hf] at hhas
  have hik : i = k := h.only_table hone hi hhas
  exact ⟨hlight, (halone.2 task (hik ▸ htask)).symm⟩

theorem slotsIn_congr_file {s s' : FdSys} (h : ∀ j k, s'.slot j k = some f ↔ s.slot j k = some f) :
    s'.slotsIn T f = s.slotsIn T f := by
  apply Finset.sum_congr rfl
  intro j _
  have hset : slotCount (s'.files j) f = slotCount (s.files j) f := by
    apply congrArg Finset.card
    ext k
    rw [mem_slots, mem_slots]
    exact h j k
  rw [hset]

/-- Events of the tables. -/
theorem LightOk.life_step (h : LightOk U T fMode s) {ev : LifeEvent} (hv : ev.Valid U T s.sys)
    (ha : s.Allows ev) :
    LightOk U T fMode { s with sys := s.sys.after ev } := by
  obtain ⟨hlife, hout⟩ := h.life.step ev hv
  have hkept (b : Borrow) (hb : b ∈ s.borrows) (i : FilesId) (halone : s.sys.Alone b.task i) :=
    alone_kept h.life hv ha ⟨b, hb, rfl⟩ halone
  refine ⟨hlife, ?_, ?_, h.locks, h.pos, ?_⟩
  · intro b hb hput
    obtain ⟨i, halone, fd, hfd⟩ := h.light b hb hput
    obtain ⟨halone', hslots⟩ := hkept b hb i halone
    exact ⟨i, halone', fd, hslots fd _ hfd⟩
  · intro f
    show (s.counted f : ℤ) ≤ (s.sys.after ev).outside T f
    rw [hout]
    exact h.counted f
  · intro b hb hpos hatomic hunlock
    obtain ⟨hput, hone, husers⟩ := h.unlocked b hb hpos hatomic hunlock
    refine ⟨hput, ?_, husers⟩
    obtain ⟨i, halone, hhas⟩ := h.light b hb hput
    -- no event gives the file to another table, so its references are the same
    have hslots : (s.sys.after ev).fd.slotsIn T b.fd.file = s.sys.fd.slotsIn T b.fd.file := by
      apply slotsIn_congr_file
      intro j k
      constructor
      · intro hk
        rcases life_gains h.life hv hk with hold | ⟨st, rfl, hcur | ⟨p, hp, hpeer⟩⟩
        · exact hold
        · obtain ⟨caller, hcaller, hidle, -⟩ := ha.1
          have hi : i = st.cur := h.only_table hone hhas hcur
          rw [halone.2 caller (hi ▸ hcaller)] at hidle
          exact absurd ⟨b, hb, rfl, hpos⟩ hidle
        · obtain ⟨tracee, htracee, hidle⟩ := ha.2 p hp
          have hi : i = p := h.only_table hone hhas hpeer
          rw [halone.2 tracee (hi ▸ htracee)] at hidle
          exact absurd ⟨b, hb, rfl⟩ hidle
      · intro hk
        obtain rfl : i = j := h.only_table hone hhas ⟨k, hk⟩
        exact (hkept b hb i halone).2 k _ hk
    have hbalance := congrFun hout b.fd.file
    unfold FilesSys.outside at hbalance
    show (s.sys.after ev).fd.fCount b.fd.file = 1
    omega

/-- What `__fget_light` can do. -/
theorem fgetLight_cases (fMode : FileId → ℕ) {s : FilesSys} (htask : s.taskFiles task = some i)
    (fd mask : ℕ) :
    fgetLight fMode s task fd mask = (none, s) ∨ ∃ file, s.fd.slot i fd = some file ∧
      (s.count i = 1 ∧ fgetLight fMode s task fd mask = (some ⟨file, false, false⟩, s) ∨
        fgetLight fMode s task fd mask =
          (some ⟨file, true, false⟩, { s with fd := s.fd.getFile file })) := by
  unfold fgetLight
  rw [htask]
  dsimp only
  split
  next hone =>
    cases hfile : fcheckFiles (s.fd.files i) fd with
    | none => exact .inl rfl
    | some file =>
      dsimp only
      split
      · exact .inl rfl
      · exact .inr ⟨file, hfile, .inl ⟨hone, rfl⟩⟩
  next =>
    cases hfile : fgetFiles fMode (s.fd.files i) fd mask with
    | none => exact .inl rfl
    | some file => exact .inr ⟨file, fgetFiles_some hfile, .inr rfl⟩

/-- A table with the count 1 has no other task. -/
theorem LifeOk.alone {s : FilesSys} (h : LifeOk U T s) (htask : s.taskFiles task = some i)
    (hone : s.count i = 1) :
    s.Alone task i := by
  refine ⟨htask, fun other hother => ?_⟩
  rw [h.count] at hone
  exact Holders.own_unique hone (h.tasks other i hother) (h.tasks task i htask) hother htask

theorem LifeOk.of_fCount {s s' : FilesSys} (h : LifeOk U T s) (hfiles : s'.fd.files = s.fd.files)
    (hbug : s'.fd.bug = s.fd.bug) (hcount : s'.count = s.count)
    (htasks : s'.taskFiles = s.taskFiles) (hheld : s'.held = s.held) : LifeOk U T s' := by
  have hslot (i : FilesId) (fd : ℕ) : s'.fd.slot i fd = s.fd.slot i fd := by
    unfold FdSys.slot
    rw [hfiles]
  refine ⟨h.ok.of_files hfiles, hbug.trans h.bug, ?_, ?_, ?_, ?_⟩
  · rw [htasks]
    exact h.tasks
  · rw [hcount]
    exact h.tables
  · intro i
    unfold FilesSys.refs
    rw [hcount, htasks, hheld]
    exact h.count i
  · intro i hi fd
    rw [hslot]
    exact h.closed i (hcount ▸ hi) fd

structure Recounted (sys : FilesSys) (d : FileId → ℤ) (sys' : FilesSys) : Prop where
  files : sys'.fd.files = sys.fd.files
  bug : sys'.fd.bug = sys.fd.bug
  count : sys'.count = sys.count
  taskFiles : sys'.taskFiles = sys.taskFiles
  held : sys'.held = sys.held
  fCount : ∀ f, sys'.fd.fCount f = sys.fd.fCount f + d f

section Recount

variable {sys sys' : FilesSys} {d : FileId → ℤ}

theorem Recounted.life (h : Recounted sys d sys') (hl : LifeOk U T sys) : LifeOk U T sys' :=
  hl.of_fCount h.files h.bug h.count h.taskFiles h.held

theorem Recounted.outside (h : Recounted sys d sys') (f : FileId) :
    sys'.outside T f = sys.outside T f + d f := by
  have hslots : sys'.fd.slotsIn T f = sys.fd.slotsIn T f := by
    unfold FdSys.slotsIn
    rw [h.files]
  unfold FilesSys.outside
  rw [hslots, h.fCount]
  ring

theorem Recounted.alone (h : Recounted sys d sys') (ha : sys.Alone task i) : sys'.Alone task i := by
  unfold FilesSys.Alone
  rw [h.taskFiles]
  exact ha

theorem Recounted.has (h : Recounted sys d sys') (hi : sys.fd.Has i f) : sys'.fd.Has i f := by
  obtain ⟨fd, hfd⟩ := hi
  refine ⟨fd, ?_⟩
  unfold FdSys.slot
  rw [h.files]
  exact hfd

end Recount

/-- One lookup is added. -/
theorem LightOk.borrow {sys : FilesSys} {fd : ℕ} (h : LightOk U T fMode s)
    (htask : s.sys.taskFiles b.task = some i) (hidle : ¬s.UsesPos b.task)
    (hslot : s.sys.fd.slot i fd = some b.fd.file)
    (hsys : Recounted s.sys (fun f => if b.fd.fput ∧ b.fd.file = f then 1 else 0) sys)
    (hlight : b.fd.fput = false → s.sys.count i = 1)
    (hlock : b.fd.posUnlock = true → b.pos = true ∧ s.posLock b.fd.file = false)
    (hpos : b.pos = true → AtomicPos fMode b.fd.file → b.fd.posUnlock = false →
      sys.fd.fCount b.fd.file ≤ 1) :
    LightOk U T fMode ⟨sys, b :: s.borrows,
      if b.fd.posUnlock then Function.update s.posLock b.fd.file true else s.posLock⟩ := by
  have hhas : s.sys.fd.Has i b.fd.file := ⟨fd, hslot⟩
  have hcount (f : FileId) := hsys.fCount f
  have hposUsers (f : FileId) : (⟨sys, b :: s.borrows, s.posLock⟩ : LightSys).posUsers f =
      s.posUsers f + if b.pos ∧ b.fd.file = f then 1 else 0 := by
    unfold LightSys.posUsers
    rw [List.countP_cons]
    simp
  refine ⟨hsys.life h.life, ?_, ?_, ?_, ?_, ?_⟩
  · intro b' hb' hput
    rcases List.mem_cons.1 hb' with rfl | hb'
    · exact ⟨i, hsys.alone (h.life.alone htask (hlight hput)), hsys.has hhas⟩
    · obtain ⟨j, halone, hj⟩ := h.light b' hb' hput
      exact ⟨j, hsys.alone halone, hsys.has hj⟩
  · intro f
    have hold := h.counted f
    rw [hsys.outside]
    unfold LightSys.counted at hold ⊢
    rw [List.countP_cons]
    simp only [decide_eq_true_eq]
    split <;> push_cast <;> omega
  · intro f
    have hold := h.locks f
    unfold LightSys.locked at hold ⊢
    rw [List.countP_cons]
    simp only [decide_eq_true_eq]
    rw [hold]
    by_cases hu : b.fd.posUnlock = true
    · rcases eq_or_ne b.fd.file f with rfl | hne
      · simp [hu, (hlock hu).2]
      · simp [hu, hne, Function.update_of_ne hne.symm]
    · simp [hu]
  · intro b' hb' hu
    rcases List.mem_cons.1 hb' with rfl | hb'
    · exact (hlock hu).1
    · exact h.pos b' hb' hu
  · intro b' hb' hbpos hatomic hu
    rcases List.mem_cons.1 hb' with rfl | hb'
    · -- the new one: the count says that nobody else has the file
      have hle := hpos hbpos hatomic hu
      have hslots := one_le_slotsIn h.life hhas
      have hout := h.outside_nonneg b'.fd.file
      have hnew := hcount b'.fd.file
      unfold FilesSys.outside at hout
      have hput : b'.fd.fput = false := by
        by_contra hp
        rw [if_pos ⟨by simpa using hp, rfl⟩] at hnew
        omega
      have hone : s.sys.fd.fCount b'.fd.file = 1 := by
        rw [if_neg (by simp [hput])] at hnew
        omega
      have hnone : s.posUsers b'.fd.file = 0 := by
        apply List.countP_eq_zero.2
        intro b'' hb''
        simp only [decide_eq_true_eq]
        rintro ⟨hp, hf⟩
        exact hidle ⟨b'', hb'', (h.no_user hone hhas htask hb'' hf).2, hp⟩
      refine ⟨hput, ?_, ?_⟩
      · show sys.fd.fCount b'.fd.file = 1
        rw [hnew, hone, if_neg (by simp [hput]), add_zero]
      · refine (hposUsers b'.fd.file).trans ?_
        rw [hnone, if_pos ⟨hbpos, rfl⟩]
    · obtain ⟨hput, hone, husers⟩ := h.unlocked b' hb' hbpos hatomic hu
      have hne : b.fd.file ≠ b'.fd.file := by
        intro hf
        rw [hf] at hhas
        exact hidle ⟨b', hb', (h.no_user hone hhas htask hb' rfl).2, hbpos⟩
      refine ⟨hput, ?_, ?_⟩
      · show sys.fd.fCount b'.fd.file = 1
        rw [hcount, hone, if_neg fun hf => hne hf.2, add_zero]
      · refine (hposUsers b'.fd.file).trans ?_
        rw [husers, if_neg fun hf => hne hf.2]

/-- One lookup ends. -/
theorem LightOk.fdput (h : LightOk U T fMode s) (hb : b ∈ s.borrows) :
    LightOk U T fMode (s.fdput b) := by
  have hsys : Recounted s.sys (fun f => -if b.fd.fput ∧ b.fd.file = f then 1 else 0)
      (s.fdput b).sys := by
    unfold LightSys.fdput
    by_cases hput : b.fd.fput = true
    · rw [if_pos hput]
      refine ⟨rfl, rfl, rfl, rfl, rfl, fun f => ?_⟩
      dsimp only
      rw [FdSys.fput_fCount]
      unfold holds
      simp only [hput, true_and, Option.some.injEq]
      ring
    · rw [if_neg hput]
      refine ⟨rfl, rfl, rfl, rfl, rfl, fun f => ?_⟩
      simp [hput]
  have herase (p : Borrow → Bool) : s.borrows.countP p = (s.borrows.erase b).countP p + if p b then
      1 else 0 := by
    rw [(List.perm_cons_erase hb).countP_eq, List.countP_cons]
  have hmem {b' : Borrow} (hb' : b' ∈ (s.fdput b).borrows) : b' ∈ s.borrows :=
    List.mem_of_mem_erase hb'
  refine ⟨hsys.life h.life, ?_, ?_, ?_, fun b' hb' => h.pos b' (hmem hb'), ?_⟩
  · intro b' hb' hput
    obtain ⟨j, halone, hj⟩ := h.light b' (hmem hb') hput
    exact ⟨j, hsys.alone halone, hsys.has hj⟩
  · intro f
    have hold := h.counted f
    rw [hsys.outside]
    unfold LightSys.counted at hold ⊢
    rw [herase] at hold
    simp only [decide_eq_true_eq] at hold
    show (((s.borrows.erase b).countP _ : ℕ) : ℤ) ≤ _
    by_cases hf : b.fd.fput = true ∧ b.fd.file = f
    · rw [if_pos hf] at hold ⊢
      push_cast at hold
      omega
    · rw [if_neg hf] at hold ⊢
      push_cast at hold
      omega
  · intro f
    have hold := h.locks f
    unfold LightSys.locked at hold ⊢
    rw [herase] at hold
    simp only [decide_eq_true_eq] at hold
    show (s.borrows.erase b).countP _ = if (s.fdput b).posLock f then 1 else 0
    unfold LightSys.fdput
    dsimp only
    by_cases hu : b.fd.posUnlock = true
    · rcases eq_or_ne b.fd.file f with rfl | hne
      · rw [if_pos ⟨hu, rfl⟩] at hold
        have hzero :
            (s.borrows.erase b).countP (fun c => c.fd.posUnlock ∧ c.fd.file = b.fd.file) = 0 := by
          split at hold <;> omega
        rw [hzero]
        simp [hu]
      · rw [if_neg fun hf => hne hf.2, add_zero] at hold
        rw [hold]
        simp [hu, Function.update_of_ne hne.symm]
    · rw [if_neg fun hf => hu hf.1, add_zero] at hold
      rw [hold]
      simp [hu]
  · intro b' hb' hbpos hatomic hu
    obtain ⟨hput, hone, husers⟩ := h.unlocked b' (hmem hb') hbpos hatomic hu
    obtain ⟨i, halone, hhas⟩ := h.light b' (hmem hb') hput
    refine ⟨hput, ?_, ?_⟩
    · have hnot : ¬(b.fd.fput = true ∧ b.fd.file = b'.fd.file) := by
        rintro ⟨hp, hf⟩
        have hfalse := (h.no_user hone hhas halone.1 hb hf).1
        exact absurd (hp.symm.trans hfalse) (by simp)
      rw [hsys.fCount, hone, if_neg hnot]
      rfl
    · -- the other one is still there
      have hstill : 0 < (s.borrows.erase b).countP fun c => c.pos ∧ c.fd.file = b'.fd.file :=
        List.countP_pos_iff.2 ⟨b', hb', by simp [hbpos]⟩
      have hsum := herase fun c => c.pos ∧ c.fd.file = b'.fd.file
      unfold LightSys.posUsers at husers ⊢
      show (s.borrows.erase b).countP _ = 1
      omega

theorem recounted_refl (s : FilesSys) (file : FileId) :
    Recounted s (fun f => if false = true ∧ file = f then 1 else 0) s := by
  refine ⟨rfl, rfl, rfl, rfl, rfl, fun f => ?_⟩
  simp

theorem recounted_getFile (s : FilesSys) (file : FileId) :
    Recounted s (fun f => if true = true ∧ file = f then 1 else 0)
      { s with fd := s.fd.getFile file } := by
  refine ⟨rfl, rfl, rfl, rfl, rfl, fun f => ?_⟩
  dsimp only
  rw [FdSys.getFile_fCount]
  unfold holds
  simp

theorem LightOk.fdget (h : LightOk U T fMode s) (fd mask : ℕ) (htask : s.sys.taskFiles task ≠ none)
    (hidle : ¬s.UsesPos task) : LightOk U T fMode (s.fdget fMode task fd mask) := by
  obtain ⟨i, hi⟩ := Option.ne_none_iff_exists'.1 htask
  unfold LightSys.fdget
  rcases fgetLight_cases fMode hi fd mask with hr | ⟨file, hslot, ⟨hone, hr⟩ | hr⟩ <;> rw [hr]
  · exact h
  · exact h.borrow (b := ⟨task, ⟨file, false, false⟩, false⟩) hi hidle hslot
      (recounted_refl s.sys file) (fun _ => hone) (by simp) (by simp)
  · exact h.borrow (b := ⟨task, ⟨file, true, false⟩, false⟩) hi hidle hslot
      (recounted_getFile s.sys file) (by simp) (by simp) (by simp)

theorem LightOk.fdgetPos (h : LightOk U T fMode s) (fd : ℕ) (htask : s.sys.taskFiles task ≠ none)
    (hidle : ¬s.UsesPos task)
    (hwait : ∀ v sys, fgetLight fMode s.sys task fd fmodePath = (some v, sys) →
      LightSys.LocksPos fMode sys v.file → s.posLock v.file = false) :
    LightOk U T fMode (s.fdgetPos fMode task fd) := by
  obtain ⟨i, hi⟩ := Option.ne_none_iff_exists'.1 htask
  have hunlocked {sys : FilesSys} {file : FileId} (hn : ¬LightSys.LocksPos fMode sys file)
      (hatomic : AtomicPos fMode file) : sys.fd.fCount file ≤ 1 :=
      not_lt.1 fun hgt => hn ⟨hatomic, hgt⟩
  unfold LightSys.fdgetPos
  rcases fgetLight_cases fMode hi fd fmodePath with hr | ⟨file, hslot, ⟨hone, hr⟩ | hr⟩
  · rw [hr]
    exact h
  · have hfree := hwait _ _ hr
    rw [hr]
    dsimp only
    split
    next hl =>
      exact h.borrow (b := ⟨task, ⟨file, false, true⟩, true⟩) hi hidle hslot
        (recounted_refl s.sys file) (fun _ => hone) (fun _ => ⟨rfl, hfree hl⟩) (by simp)
    next hn =>
      exact h.borrow (b := ⟨task, ⟨file, false, false⟩, true⟩) hi hidle hslot
        (recounted_refl s.sys file)
        (fun _ => hone) (by simp) (fun _ hatomic _ => hunlocked hn hatomic)
  · have hfree := hwait _ _ hr
    rw [hr]
    dsimp only
    split
    next hl =>
      exact h.borrow (b := ⟨task, ⟨file, true, true⟩, true⟩) hi hidle hslot
        (recounted_getFile s.sys file) (by simp) (fun _ => ⟨rfl, hfree hl⟩) (by simp)
    next hn =>
      exact h.borrow (b := ⟨task, ⟨file, true, false⟩, true⟩) hi hidle hslot
        (recounted_getFile s.sys file) (by simp) (by simp) (fun _ hatomic _ => hunlocked hn hatomic)

theorem LightOk.step (h : LightOk U T fMode s) (ev : LightEvent) (hv : ev.Valid U T fMode s) :
    LightOk U T fMode (s.after fMode ev) := by
  cases ev with
  | fdget task fd mask => exact h.fdget fd mask hv.1 hv.2
  | fdgetPos task fd => exact h.fdgetPos fd hv.1 hv.2.1 hv.2.2
  | fdput b => exact h.fdput hv
  | life ev => exact h.life_step hv.1 hv.2

theorem LightOk.run (h : LightOk U T fMode s) {events : List LightEvent}
    (hv : Every (LightSys.after fMode) (LightEvent.Valid U T fMode) s events) :
    LightOk U T fMode (run (LightSys.after fMode) s events) :=
  (hv.under (Q := fun _ _ => True) h fun _ ev h hv => ⟨trivial, h.step ev hv⟩).2

theorem LightOk.alive (h : LightOk U T fMode s) (hb : b ∈ s.borrows) :
    0 < s.sys.fd.fCount b.fd.file := by
  have hout := h.outside_nonneg b.fd.file
  have hslots : 0 ≤ s.sys.fd.slotsIn T b.fd.file := Finset.sum_nonneg fun i _ => by positivity
  by_cases hput : b.fd.fput = true
  · have hcounted := h.counted b.fd.file
    have hpos : 0 < s.counted b.fd.file := List.countP_pos_iff.2 ⟨b, hb, by simp [hput]⟩
    unfold FilesSys.outside at hcounted
    omega
  · obtain ⟨i, -, hhas⟩ := h.light b hb (by simpa using hput)
    have hone := one_le_slotsIn h.life hhas
    unfold FilesSys.outside at hout
    omega

theorem LightOk.exclusive (h : LightOk U T fMode s) (hf : AtomicPos fMode f) :
    s.posUsers f ≤ 1 := by
  by_cases hall : ∀ b ∈ s.borrows, b.pos = true → b.fd.file = f → b.fd.posUnlock = true
  · calc s.posUsers f ≤ s.locked f := by
          apply List.countP_mono_left
          intro b hb
          simp only [decide_eq_true_eq]
          rintro ⟨hpos, hfile⟩
          exact ⟨hall b hb hpos hfile, hfile⟩
      _ ≤ 1 := by
          rw [h.locks]
          split <;> omega
  · push Not at hall
    obtain ⟨b, hb, hpos, rfl, hunlock⟩ := hall
    exact (h.unlocked b hb hpos hf (by simpa using hunlock)).2.2.le

end Light

def idleUsers : LightSys := ⟨twoUsers, [], fun _ => false⟩

theorem outside_twoUsers (f : FileId) : 0 ≤ twoUsers.outside {0, 1, 2} f := by
  have hsum : twoUsers.fd.slotsIn {0, 1, 2} f = holds (some 7) f + (holds (some 8) f + 0) := by
    unfold FdSys.slotsIn
    rw [Finset.sum_insert (by decide), Finset.sum_pair (by decide)]
    have hinit : slotCount initFiles f = 0 := by
      apply slotCount_eq_zero
      intro k hk
      exact absurd ((ite_self none).symm.trans hk) (by simp)
    show (slotCount (oneFile 7) f : ℤ) + (slotCount (oneFile 8) f + slotCount initFiles f) = _
    rw [slotCount_oneFile, slotCount_oneFile, hinit]
    rfl
  unfold FilesSys.outside
  rw [hsum]
  show (0 : ℤ) ≤ 1 - _
  unfold holds
  split
  next h7 =>
    cases h7
    decide
  next => split <;> decide

theorem lightOk_idleUsers (fMode : FileId → ℕ) : LightOk {0, 1, 2} {0, 1, 2} fMode idleUsers :=
  ⟨lifeOk_twoUsers, by simp [idleUsers], outside_twoUsers, fun _ => rfl, by simp [idleUsers],
    by simp [idleUsers]⟩

def lookups : List LightEvent :=
  [.fdgetPos 1 0, .life (.call { env := smallEnv 0, cur := 0, call := .dup 0 }),
    .fdput ⟨1, ⟨8, false, false⟩, true⟩,
    .life (.call { env := smallEnv 0, cur := 0, call := .dupToRemote 1 (some ⟨0, 0⟩) }),
      .fdgetPos 1 1]

theorem valid_lookups : Every (LightSys.after fun _ => fmodeAtomicPos)
    (LightEvent.Valid {0, 1, 2} {0, 1, 2} fun _ => fmodeAtomicPos) idleUsers lookups := by
  have hnobody {p : Borrow → Prop} : ¬∃ b ∈ ([] : List Borrow), p b := by simp
  refine ⟨⟨by decide, hnobody, fun _ _ _ _ => rfl⟩, ⟨?_, ?_⟩, ?_, ⟨?_, ?_⟩,
    ⟨by decide, hnobody, fun _ _ _ _ => rfl⟩, trivial⟩
  · refine ⟨by decide, ?_, .inl ⟨0, rfl⟩, fun j hj => (by cases hj), fun j newf h => by cases h⟩
    show GrowsExactly 1024 (oneFile 7) (candidateFd (oneFile 7) 0)
    decide
  · refine ⟨⟨0, rfl, ?_, fun _ h => h⟩, fun j hj => by cases hj⟩
    show ¬∃ b ∈ [(⟨1, ⟨8, false, false⟩, true⟩ : Borrow)], b.task = 0 ∧ b.pos = true
    decide
  · show _ ∈ [(⟨1, ⟨8, false, false⟩, true⟩ : Borrow)]
    exact List.mem_singleton.2 rfl
  · refine ⟨by decide, ?_, .inl ⟨0, rfl⟩, fun j hj => ?_, fun j newf h => by cases h⟩
    · show GrowsExactly 1024 (oneFile 8) (candidateFd (oneFile 8) 0)
      decide
    · cases hj
      exact .inl ⟨1, rfl⟩
  · refine ⟨⟨0, rfl, hnobody, fun _ h => h⟩, fun j hj => ?_⟩
    cases hj
    exact ⟨1, rfl, hnobody⟩

/-- Whatever the tasks do with their descriptors, and the tracers with those of stopped tracees, a
file that a task has looked up is not freed before the task puts it back, also where the lookup took
no reference. This is under the rules at `__fget_light`, for tables that grow only to sizes that
`copy_fdtable` copies. `LightEvent.Valid` adds a rule that the source does not have: no descriptor
call and no other lookup between `fdget_pos` and `fdput_pos`. -/
theorem fdget_alive (U : Finset TaskId) (T : Finset FilesId) (fMode : FileId → ℕ) (s : LightSys)
    (events : List LightEvent) (h : LightOk U T fMode s)
    (hv : Every (LightSys.after fMode) (LightEvent.Valid U T fMode) s events) :
    let t := run (LightSys.after fMode) s events
    ∀ b ∈ t.borrows, 0 < t.sys.fd.fCount b.fd.file :=
  fun _ hb => (h.run hv).alive hb

/-- The file 7 is alive while the tracee reads from it. -/
theorem fdget_alive_lookups :
    let t := run (LightSys.after fun _ => fmodeAtomicPos) idleUsers lookups
    ⟨1, ⟨7, false, true⟩, true⟩ ∈ t.borrows ∧ 0 < t.sys.fd.fCount 7 := by
  intro t
  have hmem : ⟨1, ⟨7, false, true⟩, true⟩ ∈ t.borrows := by decide +kernel
  exact ⟨hmem, fdget_alive {0, 1, 2} {0, 1, 2} _ idleUsers lookups (lightOk_idleUsers _)
    valid_lookups _ hmem⟩

-- were the tracee stopped in a lookup, `PTRACE_REMOTE_CLOSE` would free the file under it
example :
    let close : LifeEvent :=
      .call { env := smallEnv 0, cur := 0, call := .remoteClose 1 (some ⟨0⟩) }
    let t := run (LightSys.after fun _ => 0) idleUsers [.fdget 1 0 0, .life close]
    t.borrows = [⟨1, ⟨8, false, false⟩, false⟩] ∧ t.sys.fd.fCount 8 = 0 := by
  decide +kernel

/-- Under the same rules nobody shares the position of such a file, also where `__fdget_pos` took no
lock. Without the added one, two nested `fdget_pos` of one task are two users. -/
theorem fdgetPos_exclusive (U : Finset TaskId) (T : Finset FilesId) (fMode : FileId → ℕ)
    (s : LightSys) (events : List LightEvent) (h : LightOk U T fMode s)
    (hv : Every (LightSys.after fMode) (LightEvent.Valid U T fMode) s events) (f : FileId)
    (hf : AtomicPos fMode f) :
    (run (LightSys.after fMode) s events).posUsers f ≤ 1 :=
  (h.run hv).exclusive hf

/-- The tracee is the only one that uses the position of the file 7. -/
theorem fdgetPos_exclusive_lookups :
    let t := run (LightSys.after fun _ => fmodeAtomicPos) idleUsers lookups
    0 < t.posUsers 7 ∧ t.posUsers 7 ≤ 1 := by
  intro t
  refine ⟨by decide +kernel, ?_⟩
  exact fdgetPos_exclusive {0, 1, 2} {0, 1, 2} _ idleUsers lookups (lightOk_idleUsers _)
    valid_lookups 7 (show fmodeAtomicPos &&& fmodeAtomicPos ≠ 0 by decide)

end PtraceRemote
