import PtraceRemote.MmCharge

/-! The books under `mremap`: the copy of an area, its move, and the routes by which a mapping grows
or moves. -/
namespace PtraceRemote

open AugTree (Balance)

variable {mm : Mm} {s s' s'' : MmSys} {rb : Balance VmaId} {conf : MmConf} {env : MmEnv}
  {L L' L'' A B P : List VmaId} {x y n : VmaId} {core core' : VmaId → Vma} {start end_ len addr : ℕ}
  {v : Vma}

/-! The copy of an area. -/

structure Copied (s : MmSys) (L : List VmaId) (s' : MmSys) (L' : List VmaId) (x new x' : VmaId)
    (addr len : ℕ) (pgoff : BitVec 64) : Prop where
  wf : Wf s'.mm L'
  adds : pages s'.mm.core L' =
    pages s.mm.core L + blockPages addr (addr+len) (s.mm.core x).vmFile pgoff (s.mm.core x).vmFlags
  books : ledger s' L' =
    ledger s L - charge
    (blockPages addr (addr+len) (s.mm.core x).vmFile pgoff (s.mm.core x).vmFlags)
  fixed : s'.mm.fixed = s.mm.fixed
  count : s'.mm.mapCount ≤ s.mm.mapCount+1
  free : Free s.mm.core L addr (addr+len)
  new_mem : new ∈ L'
  new_covers : (s'.mm.core new).vmStart ≤ addr ∧ addr+len ≤ (s'.mm.core new).vmEnd
  new_flags : cleanFlags (s'.mm.core new).vmFlags = cleanFlags (s.mm.core x).vmFlags
  src_mem : x' ∈ L'
  src_covers : (s'.mm.core x').vmStart ≤ (s.mm.core x).vmStart ∧
    (s.mm.core x).vmEnd ≤ (s'.mm.core x').vmEnd
  src_flags : cleanFlags (s'.mm.core x').vmFlags = cleanFlags (s.mm.core x).vmFlags

/-- After a merge the source lies in the merged area, or is as it was. -/
theorem FreeMerge.source {q : MergeReq} {k : ℤ} (h : FreeMerge core q A B y L' core' k)
    (hx : x ∈ A ++ B) (ho : Ordered core (A ++ B)) (hr : RangeOk q.addr q.end_) :
    ((core' y).vmStart ≤ (core x).vmStart ∧ (core x).vmEnd ≤ (core' y).vmEnd) ∨
      x ∈ L' ∧ core' x = core x := by
  have hlt := hr.lt
  cases h with
  | after hA hj =>
    by_cases hxy : x = y
    · subst hxy
      have := hj.at_addr
      rw [Function.update_self]
      exact .inl ⟨le_rfl, by dsimp only; omega⟩
    · exact .inr ⟨hx, Function.update_of_ne hxy ..⟩
  | @both A' B' p n hA hB hj hj' =>
    have hn := ho.area n (by simp [hB])
    have hp := ho.area y (by simp [hA])
    have := hj.at_addr
    have := hj'.at_end
    have := hn.lt
    have := hp.lt
    by_cases hxy : x = y
    · subst hxy
      rw [Function.update_self]
      exact .inl ⟨le_rfl, by dsimp only; omega⟩
    · by_cases hxn : x = n
      · subst hxn
        rw [Function.update_self]
        exact .inl ⟨by dsimp only; omega, le_rfl⟩
      · refine .inr ⟨?_, Function.update_of_ne hxy ..⟩
        rw [hB] at hx
        simp only [List.mem_append, List.mem_cons] at hx ⊢
        tauto
  | before hB hj =>
    by_cases hxy : x = y
    · subst hxy
      have := hj.at_end
      rw [Function.update_self]
      exact .inl ⟨by dsimp only; omega, le_rfl⟩
    · exact .inr ⟨hx, Function.update_of_ne hxy ..⟩

theorem FreeMerge.length_le {q : MergeReq} {k : ℤ} (h : FreeMerge core q A B y L' core' k) :
    L'.length ≤ (A ++ B).length := by
  cases h with
  | after hA hj => exact le_rfl
  | both hA hB hj hj' => simp [hB]
  | before hB hj => exact le_rfl

/-- Two areas of one address space that meet are one. -/
theorem Wf.eq_of_meet (h : Wf mm L) (hx : x ∈ L) (hy : y ∈ L)
    (h₁ : (mm.core y).vmStart ≤ (mm.core x).vmStart)
    (h₂ : (mm.core x).vmStart < (mm.core y).vmEnd) : x = y := by
  obtain ⟨A, B, rfl⟩ := List.append_of_mem hx
  have hxo := (h.ordered.area x (by simp)).lt
  rcases List.mem_append.1 hy with hy | hy
  · have := h.below y hy
    omega
  · rcases List.mem_cons.1 hy with rfl | hy
    · rfl
    · have := h.above y hy
      omega

/-- A new area for the copy. -/
theorem copyNew_spec (rb : Balance VmaId) {s₁ : MmSys} {k : VmaLinks} (pgoff : BitVec 64)
    (h : Wf s.mm (A ++ B)) (hx : x ∈ A ++ B) (hq : Quiet s s₁) (hk : LinksAt s.mm A B k)
    (hr : RangeOk addr (addr+len)) (hA : ∀ a ∈ A, (s.mm.core a).vmEnd ≤ addr)
    (hB : ∀ b ∈ B, addr+len ≤ (s.mm.core b).vmStart) :
    let r := copyNew rb s₁ x addr len pgoff k
    (r.1 = none ∧ Same s r.2 (A ++ B)) ∨
      ∃ n, r.1 = some n ∧ Copied s (A ++ B) r.2 (A ++ n :: B) x n x addr len pgoff := by
  dsimp only
  unfold copyNew
  dsimp only
  have hq₁ := hq.trans (outcome_quiet s₁)
  split
  next => exact .inl ⟨rfl, hq₁.same h⟩
  next =>
  have hspare := spare_alloc hq₁ h
    { s₁.mm.vma x with vmStart := addr, vmEnd := addr+len, vmPgoff := pgoff, anonChain := 0 }
  set s₂ := allocVma s₁.outcome.2
    { s₁.mm.vma x with vmStart := addr, vmEnd := addr+len, vmPgoff := pgoff, anonChain := 0 }
  set n := s₁.outcome.2.mm.nextId
  have hspare₃ := hspare.quiet (outcome_quiet s₂)
  split
  next => exact .inl ⟨rfl, hspare₃.same⟩
  next =>
  have hspare₄ := hspare₃.quiet (anonVmaClone_quiet s₂.outcome.2 n x)
  split
  next => exact .inl ⟨rfl, hspare₄.same⟩
  next =>
  set s₄ := (anonVmaClone s₂.outcome.2 n x).2
  have hcore : (s₁.mm.vma x).core = s.mm.core x := congrFun hq.core x
  have harea :
      ({ s₁.mm.vma x with vmStart := addr, vmEnd := addr+len, vmPgoff := pgoff, anonChain := 0 } :
      Vma).core = { s.mm.core x with vmStart := addr, vmEnd := addr+len, vmPgoff := pgoff } := by
    rw [← hcore]
    rfl
  have hfile : (s₁.mm.vma x).vmFile = (s.mm.core x).vmFile := (congrArg Vma.vmFile hcore :)
  rw [harea] at hspare₄
  have hplaced := hspare₄.link rb hk hr hA hB
  obtain ⟨-, hlcore, -⟩ := hspare₄.linked rb hk hr hA hB
  dsimp only at hplaced
  rw [hfile]
  have hmm : (s₄.getFile (s.mm.core x).vmFile).mm = s₄.mm := getFile_mm _ _
  have hcore' :
      ((s₄.getFile (s.mm.core x).vmFile).setMm
        (vmaLink rb (s₄.getFile (s.mm.core x).vmFile).mm n k)).mm.core = s₄.mm.core := by
    rw [hmm]
    exact hlcore
  have hsrc : s₄.mm.core x = s.mm.core x := hspare₄.same.core x hx
  refine .inr ⟨n, rfl,
    ⟨hplaced.wf, hplaced.adds, hplaced.books, hplaced.fixed, ?_, ?_, by simp, ?_, ?_, ?_, ?_, ?_⟩⟩
  · rw [hplaced.wf.rep.count, h.rep.count]
    simp only [List.length_append, List.length_cons, Nat.cast_add, Nat.cast_one]
    omega
  · intro y hy
    rcases List.mem_append.1 hy with hy | hy
    · exact .inl (hA y hy)
    · exact .inr (hB y hy)
  · rw [hcore', hspare₄.area]
    exact ⟨le_rfl, le_rfl⟩
  · rw [hcore', hspare₄.area]
  · simp only [List.mem_append, List.mem_cons] at hx ⊢
    tauto
  · rw [hcore', hsrc]
    exact ⟨le_rfl, le_rfl⟩
  · rw [hcore', hsrc]

theorem copyVma_spec (rb : Balance VmaId) (pgoff : BitVec 64) (h : Wf s.mm L) (hx : x ∈ L)
    (hr : RangeOk addr (addr+len)) :
    let r := copyVma rb s x addr len pgoff
    (r.1 = none ∧ Same s r.2 L) ∨ ∃ new x' L', r.1 = some (new, x') ∧
      Copied s L r.2 L' x new x' addr len (copyPgoff (s.mm.vma x) addr pgoff) := by
  dsimp only
  unfold copyVma
  dsimp only
  generalize copyPgoff (s.mm.vma x) addr pgoff = pgoff
  cases hk : findVmaLinks s.mm addr (addr+len) with
  | none => exact .inl ⟨rfl, Same.refl h⟩
  | some k =>
    obtain ⟨A, B, rfl, hlinks, hA, hB⟩ := findVmaLinks_some h.rep (ordered_core.1 h.ordered) hk
    have hB : ∀ b ∈ B, addr+len ≤ (s.mm.core b).vmStart := fun b hb => (hB b hb).2
    have hfree : Free s.mm.core (A ++ B) addr (addr+len) := by
      intro y hy
      rcases List.mem_append.1 hy with hy | hy
      · exact .inl (hA y hy)
      · exact .inr (hB y hy)
    dsimp only
    set q : MergeReq :=
      ⟨addr, addr+len, (s.mm.vma x).vmFlags, (s.mm.vma x).anonVma, (s.mm.vma x).vmFile, pgoff,
      (s.mm.vma x).policy, (s.mm.vma x).uffdCtx⟩ with hq
    have hrq : RangeOk q.addr q.end_ := hr
    rcases vmaMerge_free rb h hlinks.prev hrq hA hB with
      ⟨hnone, hquiet⟩ | ⟨y, L', core', c, hy, hmerge, hadj⟩
    · rw [hnone]
      dsimp only
      rcases copyNew_spec rb pgoff h hx hquiet hlinks hr hA hB with ⟨hn, hsame⟩ | ⟨n, hn, hcopied⟩
      · rw [hn]
        exact .inl ⟨rfl, hsame⟩
      · rw [hn]
        exact .inr ⟨n, x, _, rfl, hcopied⟩
    · rw [hy]
      dsimp only
      obtain ⟨hadds, hbooks⟩ := hmerge.adds hadj h hrq
      obtain ⟨hmem, hflags⟩ := hmerge.merged
      have hcovers := hmerge.covers h.ordered
      have hsource := hmerge.source hx h.ordered hrq
      rw [← hadj.core] at hcovers hsource hflags
      set s₁ := (vmaMerge rb s k.prev q).2
      have hcount : s₁.mm.mapCount ≤ s.mm.mapCount+1 := by
        have := hmerge.length_le
        rw [hadj.wf.rep.count, h.rep.count]
        omega
      have hxo := (h.ordered.area x hx).lt
      -- the source is found in the merged area exactly if it lies there
      have hsrc : ∀ x', x' = (if (s₁.mm.vma y).vmStart ≤ (s.mm.vma x).vmStart ∧
          (s.mm.vma x).vmStart < (s₁.mm.vma y).vmEnd then y else x) → x' ∈ L' ∧
          ((s₁.mm.core x').vmStart ≤ (s.mm.core x).vmStart ∧
            (s.mm.core x).vmEnd ≤ (s₁.mm.core x').vmEnd) ∧
          cleanFlags (s₁.mm.core x').vmFlags = cleanFlags (s.mm.core x).vmFlags := by
        intro x' hx'
        split at hx'
        next hin =>
          subst hx'
          refine ⟨hmem, ?_, hflags⟩
          rcases hsource with hcov | ⟨hxL, hsame⟩
          · exact hcov
          · have hxy : x = x' :=
              hadj.wf.eq_of_meet hxL hmem (by rw [hsame]; exact hin.1) (by rw [hsame]; exact hin.2)
            rw [← hxy, hsame]
            exact ⟨le_rfl, le_rfl⟩
        next hout =>
          subst hx'
          rcases hsource with hcov | ⟨hxL, hsame⟩
          · exact absurd ⟨hcov.1, lt_of_lt_of_le hxo hcov.2⟩ hout
          · rw [hsame]
            exact ⟨hxL, ⟨le_rfl, le_rfl⟩, rfl⟩
      obtain ⟨hsmem, hscov, hsfl⟩ := hsrc _ rfl
      exact .inr ⟨y, _, L', rfl,
        ⟨hadj.wf, hadds, hbooks, fixed_of_rest hadj.rest, hcount, hfree, hmem, hcovers, hflags,
        hsmem, hscov, hsfl⟩⟩

theorem acctVec_sub_ite (p : Prop) [Decidable p] (a b : ℤ) :
    acctVec (if p then a-b else 0) =
      acctVec (if p then a else 0) - acctVec (if p then b else 0) := by
  split
  · rw [sub_eq_add_neg, acctVec_add, acctVec_neg, sub_eq_add_neg]
  · rw [sub_self, acctVec_zero]

theorem Same.acts (h : Same s s' L) : Acts s L s' L (pages s.mm.core L) 0 :=
  ⟨h.wf, h.pages_eq, by rw [h.ledger_eq, add_zero], fixed_of_rest h.rest⟩

section Move

variable {new x' : VmaId} {pgoff : BitVec 64}

theorem Copied.acts (h : Copied s L s' L' x new x' addr len pgoff) : Acts s L s' L'
    (pages s.mm.core L + blockPages addr (addr+len) (s.mm.core x).vmFile pgoff
      (s.mm.core x).vmFlags)
    (-charge (blockPages addr (addr+len) (s.mm.core x).vmFile pgoff (s.mm.core x).vmFlags)) :=
  ⟨h.wf, h.adds, by rw [h.books, sub_eq_add_neg], h.fixed⟩

/-- When nothing was locked before, the copy is not locked either. -/
theorem Copied.guard (h : Copied s L s' L' x new x' addr len pgoff) (hw : Wf s.mm L) (hx : x ∈ L)
    (hl : LockExact s L) : LockGuard s' (pages s'.mm.core L') := by
  intro hz
  have hbooks := congrArg lockPart h.books
  have hsub :
      lockPart (ledger s L - charge
        (blockPages addr (addr+len) (s.mm.core x).vmFile pgoff (s.mm.core x).vmFlags)) =
        lockPart (ledger s L) - BitVec.ofNat 64 (pagesOf (·.has VM_LOCKED)
          (blockPages addr (addr+len) (s.mm.core x).vmFile pgoff (s.mm.core x).vmFlags)) := rfl
  rw [hsub, show lockPart (ledger s L) = 0 from hl, lockPart_ledger, hz, h.adds, pagesOf_add,
    BitVec.ofNat_add] at hbooks
  have hzero : BitVec.ofNat 64 (pagesOf (·.has VM_LOCKED) (pages s.mm.core L)) = 0 := by
    have := congrArg (· + BitVec.ofNat 64 (pagesOf (·.has VM_LOCKED)
      (blockPages addr (addr+len) (s.mm.core x).vmFile pgoff (s.mm.core x).vmFlags))) hbooks
    simpa [sub_eq_add_neg, add_assoc, add_comm, add_left_comm] using this
  have hlt := pagesOf_lt (P := (·.has VM_LOCKED)) has_locked_clean hw.ordered
  have hnone : pagesOf (·.has VM_LOCKED) (pages s.mm.core L) = 0 := by
    have := congrArg BitVec.toNat hzero
    rw [BitVec.toNat_ofNat, Nat.mod_eq_of_lt hlt] at this
    exact this
  have hxl := none_locked hw.ordered hnone x hx
  rw [h.adds, pagesOf_add, hnone, pagesOf_block (has_locked_clean _), hxl]
  simp

/-- A copy, and then the unmapping of `[a, a+l)` in the area `y`. -/
theorem Copied.done (rb : Balance VmaId) (conf : MmConf) {s'' : MmSys} {a l : ℕ}
    (h : Copied s L s' L' x new x' addr len pgoff) (hw : Wf s.mm L) (hx : x ∈ L) (hq : Quiet s' s'')
    (hy : y ∈ L') (hs : (s'.mm.core y).vmStart ≤ a) (he : a+l ≤ (s'.mm.core y).vmEnd)
    (hd : 4096 ∣ l) (hfl : cleanFlags (s'.mm.core y).vmFlags = cleanFlags (s.mm.core x).vmFlags) :
    let z := (doMunmap rb conf (moveCounted s'' y len (s.mm.core x).vmFlags) a l).1
    ∃ L'' P, Does (LockExact s L) s L (moveDone rb conf s'' y a l len (s.mm.core x).vmFlags) L'' P
        (if (s.mm.core x).vmFlags.has VM_ACCOUNT then ((l/4096 : ℕ) : ℤ)-(len/4096 : ℕ) else 0) ∧
      (z = 0 ∧ P = outside a (a+l) (pages s'.mm.core L') ∨
        z ≠ 0 ∧ P = pages (stuckCore s'.mm.core y (s.mm.core x).vmFlags) L' ∧
          ¬CanUnmap conf s'' (s'.mm.core y) a l) := by
  intro z
  obtain ⟨A, B, rfl⟩ := List.append_of_mem hy
  have hsame := hq.same h.wf
  have hs₂ : (s''.mm.core y).vmStart ≤ a := by rw [hq.core]; exact hs
  have he₂ : a+l ≤ (s''.mm.core y).vmEnd := by rw [hq.core]; exact he
  have hfl₂ : cleanFlags (s''.mm.core y).vmFlags = cleanFlags (s.mm.core x).vmFlags := by
    rw [hq.core]; exact hfl
  obtain ⟨L'', P, d, hacts, hguard, hP⟩ := moveDone_spec rb conf len (hq.wf h.wf) hs₂ he₂ hd hfl₂
  rw [hq.core] at hP hguard
  have hall := (h.acts.trans hsame.acts).trans hacts
  refine ⟨L'', P, ?_, hP⟩
  refine Acts.does (d := d) ?_ fun hl => hguard ?_
  · convert hall using 1
    rw [charge_block, Nat.add_sub_cancel_left, acctVec_sub_ite]
    abel
  · have hlock : s''.mm.lockedVm = s'.mm.lockedVm := (congrArg Mm.lockedVm hsame.rest :)
    rw [LockGuard, hlock]
    exact h.guard hw hx hl

theorem moveTables_spec (s : MmSys) (x : VmaId) :
    ((moveTables s x).1 = 0 ∨ IsErr (moveTables s x).1) ∧ Quiet s (moveTables s x).2 := by
  unfold moveTables
  dsimp only
  have hq := outcome_quiet s
  split
  · exact ⟨.inr isErr_nomem, hq⟩
  · split
    · refine ⟨?_, hq.trans (outcome_quiet _)⟩
      by_cases hz : s.outcome.2.outcome.1 = 0
      · exact .inl hz
      · exact .inr (outcome_isErr hz)
    · exact ⟨.inl rfl, hq⟩

/-- Outside of a range, a block that does not meet it counts in full. -/
theorem outside_block {start end_ : ℕ} {file : Option FileId} {flags : VmFlags}
    (hr : RangeOk addr (addr+len)) (hs : 4096 ∣ start) (he : 4096 ∣ end_)
    (h : addr+len ≤ start ∨ end_ ≤ addr) :
    outside start end_ (blockPages addr (addr+len) file pgoff flags) =
      blockPages addr (addr+len) file pgoff flags :=
  outside_weight_self
    (v := { vmStart := addr, vmEnd := addr+len, vmFile := file, vmPgoff := pgoff,
            vmFlags := flags })
    hr hs he h

theorem outside_block_nil {file : Option FileId} {flags : VmFlags} (hr : RangeOk addr (addr+len)) :
    outside addr (addr+len) (blockPages addr (addr+len) file pgoff flags) = 0 :=
  outside_weight_nil
    (v := { vmStart := addr, vmEnd := addr+len, vmFile := file, vmPgoff := pgoff,
            vmFlags := flags })
    hr hr.start_dvd hr.end_dvd ⟨le_rfl, le_rfl⟩

structure Settled (s : MmSys) (v : Vma) (addr len : ℕ) : Prop where
  calm : Calm s.outcome.2
  range : RangeOk addr (addr+len)
  task : addr+len ≤ TASK_SIZE
  ordinary : v.vmFlags.has VM_HUGETLB = false

/-- If `move_vma` makes the copy and cannot move the page tables, then it can unmap the copy. -/
def UndoesCopy (rb : Balance VmaId) (env : MmEnv) (s : MmSys) (x : VmaId)
    (oldAddr newLen newAddr : ℕ) : Prop :=
  let v := s.mm.vma x
  let copy := copyVma rb s.outcome.2 x newAddr newLen (v.pgoffAt oldAddr)
  s.mm.mapCount < env.conf.maxMapCount-3 → s.outcome.1 = 0 → ∀ c ∈ copy.1,
    let tables := moveTables copy.2 c.2
    tables.1 ≠ 0 →
      (doMunmap rb env.conf (moveCounted tables.2 c.1 newLen v.vmFlags) newAddr newLen).1 = 0

instance {oldAddr newLen newAddr : ℕ} : Decidable (UndoesCopy rb env s x oldAddr newLen newAddr) :=
  inferInstanceAs (Decidable (_ → _ → ∀ c ∈ _, _ → _))

/-- An operation that fails leaves the pages `P` of the state `s`, or what `undone` excludes. -/
def Undone (undone : Prop) (s : MmSys) (L : List VmaId) (P : Pages) : Prop :=
  (undone → P = pages s.mm.core L) ∧ (¬undone → Gains (pages s.mm.core L) P)

theorem undone_pages {undone : Prop} (hu : undone) : Undone undone s L (pages s.mm.core L) :=
  ⟨fun _ => rfl, fun hn => absurd hu hn⟩

theorem Undone.congr {undone undone' : Prop} {P : Pages} (h : Undone undone s L P)
    (hu : undone ↔ undone') :
    Undone undone' s L P :=
  ⟨fun h' => h.1 (hu.2 h'), fun h' => h.2 (mt hu.1 h')⟩

theorem Undone.of_mm {undone : Prop} {P : Pages} (h : Undone undone s' L P) (hmm : s'.mm = s.mm) :
    Undone undone s L P := by
  unfold Undone at h ⊢
  rwa [hmm] at h

/-- A page in a range that was free. -/
theorem gains_of_free {core : VmaId → Vma} {start end_ p : ℕ} {i : PageInfo} {P : Pages}
    (ho : Ordered core L) (hfree : Free core L start end_) (hp : (p, i) ∈ P) (hs : start ≤ 4096*p)
    (he : 4096*p < end_) :
    Gains (pages core L) P := by
  refine ⟨(p, i), hp, ?_⟩
  rintro ⟨q, j⟩ hq rfl
  obtain ⟨y, hy, hyq⟩ := mem_pages hq
  obtain ⟨⟨hys, hye⟩, -⟩ := (mem_weight_iff (ho.area y hy)).1 hyq
  rcases hfree y hy with hle | hle
  · omega
  · omega

/-- What is stuck still shows every page of the area. -/
theorem mem_pages_stuck {p : ℕ} (vmFlags : VmFlags) (h : Wf s.mm L) (hy : y ∈ L)
    (hs : (s.mm.core y).vmStart ≤ 4096*p) (he : 4096*p < (s.mm.core y).vmEnd) :
    ∃ i, (p, i) ∈ pages (stuckCore s.mm.core y vmFlags) L := by
  unfold stuckCore
  split
  · refine ⟨((s.mm.core y).uncharged.pageAt p).clean, mem_pages_of hy ?_⟩
    rw [Function.update_self]
    exact (mem_weight_iff (v := (s.mm.core y).uncharged) (h.ordered.area y hy)).2 ⟨⟨hs, he⟩, rfl⟩
  · exact ⟨_, mem_pages_of hy ((mem_weight_iff (h.ordered.area y hy)).2 ⟨⟨hs, he⟩, rfl⟩)⟩

def FailsUndone (undone : Prop) (s : MmSys) (L : List VmaId) (r : ℤ × Bool × MmSys) : Prop :=
  IsErr r.1 ∧ ∃ L' P, Does (LockExact s L) s L r.2.2 L' P 0 ∧ Undone undone s L P

theorem Same.failsUndone {undone : Prop} {e : ℤ} {b : Bool} (h : Same s s' L) (he : IsErr e)
    (hu : undone) :
    FailsUndone undone s L (e, b, s') :=
  ⟨he, L, _, h.does, undone_pages hu⟩

def MoveResult (undone : Prop) (s : MmSys) (L : List VmaId) (x : VmaId)
    (oldAddr oldLen newLen newAddr : ℕ) (r : ℤ × Bool × MmSys) : Prop :=
  let v := s.mm.core x
  FailsUndone undone s L r ∨
  r.1 = newAddr ∧ Free s.mm.core L newAddr (newAddr+newLen) ∧ ∃ L' P,
    Does (LockExact s L) s L r.2.2 L' P
      (if v.vmFlags.has VM_ACCOUNT then ((oldLen/4096 : ℕ) : ℤ)-(newLen/4096 : ℕ) else 0) ∧
    (P = outside oldAddr (oldAddr+oldLen) (pages s.mm.core L) + blockPages newAddr
      (newAddr+newLen) v.vmFile
        (copyPgoff (s.mm.vma x) newAddr (v.pgoffAt oldAddr)) v.vmFlags ∨
        ¬Settled s v oldAddr oldLen)

theorem moveVma_spec (rb : Balance VmaId) (env : MmEnv) {oldAddr oldLen newLen newAddr : ℕ}
    (h : Wf s.mm L) (hx : x ∈ L) (hs : (s.mm.core x).vmStart ≤ oldAddr)
    (he : oldAddr+oldLen ≤ (s.mm.core x).vmEnd) (hd : 4096 ∣ oldLen)
    (hr : RangeOk newAddr (newAddr+newLen)) :
    MoveResult (UndoesCopy rb env s x oldAddr newLen newAddr) s L x oldAddr oldLen newLen newAddr
      (moveVma rb env s x oldAddr oldLen newLen newAddr) := by
  have hnewd : 4096 ∣ newLen := (Nat.dvd_add_right hr.start_dvd).1 hr.end_dvd
  have hxo := h.ordered.area x hx
  unfold moveVma
  dsimp only
  split
  next hmany =>
    exact .inl ((Same.refl h).failsUndone isErr_nomem fun hroom => absurd hroom (not_lt.2 hmany))
  next hroom =>
  have hq := outcome_quiet s
  have hmm : s.outcome.2.mm = s.mm := outcome_mm s
  split
  next hk => exact .inl ((hq.same h).failsUndone (outcome_isErr hk) fun _ hz => absurd hz hk)
  next hk =>
  set s₁ := s.outcome.2 with hs₁
  have hw₁ : Wf s₁.mm L := by rw [hmm]; exact h
  have hsame₁ : Same s s₁ L := hq.same h
  rcases copyVma_spec rb ((s.mm.vma x).pgoffAt oldAddr) hw₁ hx hr with
    ⟨hnone, hsame⟩ | ⟨new, x', L', hsome, hcopied⟩
  · rw [hnone]
    refine .inl ((hsame₁.trans hsame).failsUndone isErr_nomem fun _ _ c hc => ?_)
    rw [hnone] at hc
    exact absurd hc (Option.not_mem_none c)
  · rw [hsome]
    dsimp only
    set s₂ := (copyVma rb s₁ x newAddr newLen ((s.mm.vma x).pgoffAt oldAddr)).2
    obtain ⟨htables, hq₃⟩ := moveTables_spec s₂ x'
    set r₃ := moveTables s₂ x'
    have hcore₁ : s₁.mm.core x = s.mm.core x := by rw [hmm]
    have hcount : r₃.2.mm.mapCount < env.conf.maxMapCount := by
      obtain ⟨vma', hv⟩ := hq₃.mm
      have hc := hcopied.count
      rw [hmm] at hc
      rw [hv]
      show s₂.mm.mapCount < _
      omega
    have hfree : Free s.mm.core L newAddr (newAddr+newLen) := by
      have := hcopied.free
      rwa [hmm] at this
    -- with the copy in place, `[a, a+l)` can be unmapped from `y` whenever the calls succeed
    have hcan : ∀ (y : VmaId) (a l : ℕ),
      cleanFlags (s₂.mm.core y).vmFlags = cleanFlags (s₁.mm.core x).vmFlags →
        Calm r₃.2 → RangeOk a (a+l) → a+l ≤ TASK_SIZE →
        (s.mm.core x).vmFlags.has VM_HUGETLB = false →
        CanUnmap env.conf r₃.2 (s₂.mm.core y) a l := fun y a l hfl hcalm hrange htask hord =>
      ⟨hcalm, hrange, htask, by rw [has_of_clean hfl (by decide), hcore₁]; exact hord, hcount⟩
    split
    next hne =>
      obtain ⟨L'', P, hdoes, hP⟩ :=
        hcopied.done rb env.conf hw₁ hx hq₃ hcopied.new_mem hcopied.new_covers.1
        hcopied.new_covers.2 hnewd hcopied.new_flags
      rw [hcore₁, sub_self, ite_self] at hdoes
      refine .inl ⟨htables.resolve_left hne, L'', P, hsame₁.then_does hdoes, ?_⟩
      rw [hcore₁] at hP
      rcases hP with ⟨hz, hP⟩ | ⟨hnz, hP, -⟩
      · rw [hP, hcopied.adds, outside_add, outside_block_nil hr, add_zero,
          outside_of_free hw₁.ordered hcopied.free hr.start_dvd hr.end_dvd, hmm]
        refine undone_pages fun _ _ c hc _ => ?_
        obtain rfl := Option.some_inj.1 (hsome.symm.trans hc)
        exact hz
      · refine ⟨fun hundo => absurd (hundo (not_le.1 hroom) (not_not.1 hk) _ hsome hne) hnz,
          fun _ => ?_⟩
        have hpage : 4096*(newAddr/4096) = newAddr := Nat.mul_div_cancel' hr.start_dvd
        have hlt := hr.lt
        obtain ⟨i, hi⟩ := mem_pages_stuck (s.mm.core x).vmFlags hcopied.wf hcopied.new_mem
          (hcopied.new_covers.1.trans hpage.ge) (hpage.trans_lt (hlt.trans_le hcopied.new_covers.2))
        rw [hP]
        exact gains_of_free h.ordered hfree hi hpage.ge (hpage.trans_lt hlt)
    next =>
      have hsx : (s₂.mm.core x').vmStart ≤ oldAddr :=
        hcopied.src_covers.1.trans (by rw [hcore₁]; exact hs)
      have hex : oldAddr+oldLen ≤ (s₂.mm.core x').vmEnd :=
        le_trans (by rw [hcore₁]; exact he) hcopied.src_covers.2
      obtain ⟨L'', P, hdoes, hP⟩ :=
        hcopied.done rb env.conf hw₁ hx hq₃ hcopied.src_mem hsx hex hd hcopied.src_flags
      rw [hcore₁] at hdoes
      refine .inr ⟨rfl, hfree, L'', P, hsame₁.then_does hdoes, ?_⟩
      rcases hP with ⟨-, hP⟩ | ⟨-, -, hstuck⟩
      · by_cases hset : Settled s (s.mm.core x) oldAddr oldLen
        · refine .inl ?_
          have hdisj : newAddr+newLen ≤ oldAddr ∨ oldAddr+oldLen ≤ newAddr := by
            rcases hfree x hx with hle | hle
            · exact .inr (he.trans hle)
            · exact .inl (hle.trans hs)
          rw [hP, hcopied.adds, outside_add,
            outside_block hr hset.range.start_dvd hset.range.end_dvd hdisj, hmm]
          rfl
        · exact .inr hset
      · refine .inr fun hset =>
          hstuck (hcan x' oldAddr oldLen hcopied.src_flags ?_ hset.range hset.task hset.ordinary)
        exact (hset.calm.uses uses_copyVma).uses uses_moveTables

end Move

end PtraceRemote
