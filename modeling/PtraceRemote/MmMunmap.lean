import PtraceRemote.MmDetach

/-! `do_munmap`: exactly the pages of the range go, the books stay balanced, and a failure changes
nothing. -/
namespace PtraceRemote

open AugTree (Balance)

variable {mm : Mm} {s s' s'' : MmSys} {rb : Balance VmaId} {L L' L'' A M B : List VmaId}
  {x n : VmaId} {start end_ addr : ℕ} {core : VmaId → Vma}

def Mm.fixed (mm : Mm) : Mm := mm.rest.shape

def lockPart (l : Ledger) : BitVec 64 := l.2.2.2.2.1

/-- `locked_vm` is the number of pages in `VM_LOCKED` areas. -/
def LockExact (s : MmSys) (L : List VmaId) : Prop := lockPart (ledger s L) = 0

def LockGuard (s : MmSys) (m : Pages) : Prop := s.mm.lockedVm = 0 → pagesOf (·.has VM_LOCKED) m = 0

structure Does (G : Prop) (s : MmSys) (L : List VmaId) (s' : MmSys) (L' : List VmaId) (P : Pages)
    (c : ℤ) : Prop where
  wf : Wf s'.mm L'
  pages : pages s'.mm.core L' = P
  kept : ∃ d, ledger s' L' = ledger s L + lockVec d + acctVec c ∧ (G → d = 0)
  fixed : s'.mm.fixed = s.mm.fixed

theorem lockVec_zero : lockVec 0 = 0 := rfl

theorem acctVec_zero : acctVec 0 = 0 := rfl

theorem lockVec_add (a b : BitVec 64) : lockVec (a+b) = lockVec a + lockVec b := by
  simp [lockVec]

theorem acctVec_add (a b : ℤ) : acctVec (a+b) = acctVec a + acctVec b := by
  simp [acctVec]

theorem Does.of_eq {G : Prop} {P : Pages} {c : ℤ} (hw : Wf s'.mm L')
    (hp : PtraceRemote.pages s'.mm.core L' = P) (hl : ledger s' L' = ledger s L + acctVec c)
    (hf : s'.mm.fixed = s.mm.fixed) : Does G s L s' L' P c :=
  ⟨hw, hp, ⟨0, by rw [hl, lockVec_zero, add_zero], fun _ => rfl⟩, hf⟩

theorem Does.mono {G G' : Prop} {P : Pages} {c : ℤ} (h : Does G s L s' L' P c) (hG : G' → G) :
    Does G' s L s' L' P c :=
  ⟨h.wf, h.pages, h.kept.imp fun _ hd => ⟨hd.1, fun hg => hd.2 (hG hg)⟩, h.fixed⟩

theorem Does.trans {G G' : Prop} {P Q : Pages} {c c' : ℤ} (h : Does G s L s' L' P c)
    (h' : Does G' s' L' s'' L'' Q c') (hG : G → G') : Does G s L s'' L'' Q (c+c') := by
  obtain ⟨d, he, hd⟩ := h.kept
  obtain ⟨d', he', hd'⟩ := h'.kept
  refine ⟨h'.wf, h'.pages, ⟨d+d', ?_, fun hg => ?_⟩, h'.fixed.trans h.fixed⟩
  · rw [he', he, lockVec_add, acctVec_add]
    abel
  · rw [hd hg, hd' (hG hg), add_zero]

/-- The lock entry of the books stays right. -/
theorem Does.lockExact {G : Prop} {P : Pages} {c : ℤ} (h : Does G s L s' L' P c) (hg : G)
    (hl : LockExact s L) : LockExact s' L' := by
  obtain ⟨d, he, hd⟩ := h.kept
  rw [LockExact, he, hd hg, lockVec_zero, add_zero]
  exact (add_zero _).trans hl

/-- Operations that come one after the other, each of them right if the lock entry is. -/
theorem Does.seq {P Q : Pages} {c c' : ℤ} (h : Does (LockExact s L) s L s' L' P c)
    (h' : Does (LockExact s' L') s' L' s'' L'' Q c') : Does (LockExact s L) s L s'' L'' Q (c+c') :=
  h.trans h' fun hl => h.lockExact hl hl

theorem lockPart_ledger (s : MmSys) (L : List VmaId) : lockPart (ledger s L) =
    s.mm.lockedVm - BitVec.ofNat 64 (pagesOf (·.has VM_LOCKED) (pages s.mm.core L)) :=
  sub_zero _

theorem lockedVm_of_does {c : ℤ} (h : Does True s L s' L' (pages s.mm.core L) c) :
    s'.mm.lockedVm = s.mm.lockedVm := by
  obtain ⟨d, he, hd⟩ := h.kept
  rw [hd trivial, lockVec_zero, add_zero] at he
  have hpart : lockPart (ledger s' L') = lockPart (ledger s L) := by
    rw [he]
    exact add_zero _
  rw [lockPart_ledger, lockPart_ledger, h.pages] at hpart
  exact sub_left_injective hpart

theorem fixed_of_rest (h : s'.mm.rest = s.mm.rest) : s'.mm.fixed = s.mm.fixed := by
  rw [Mm.fixed, h, Mm.fixed]

theorem Same.does {G : Prop} (h : Same s s' L) : Does G s L s' L (pages s.mm.core L) 0 :=
  .of_eq h.wf h.pages_eq (by rw [h.ledger_eq, acctVec_zero, add_zero]) (fixed_of_rest h.rest)

theorem SplitAt.does {G : Prop} {newBelow : Bool} (h : SplitAt s s' A x B addr newBelow n)
    (hx : AreaOk (s.mm.core x)) (hs : (s.mm.core x).vmStart < addr)
    (he : addr < (s.mm.core x).vmEnd) (hd : 4096 ∣ addr) :
    Does G s (A ++ x :: B) s' (A ++ (halves x n newBelow ++ B)) (pages s.mm.core (A ++ x :: B)) 0 :=
  .of_eq h.wf (h.pages_eq hx hs he hd) (by rw [h.ledger_eq hx hs he hd, acctVec_zero, add_zero])
    (fixed_of_rest h.rest)

def lockedPages (core : VmaId → Vma) (M : List VmaId) : BitVec 64 :=
  (M.map fun y => if (core y).vmFlags.has VM_LOCKED then BitVec.ofNat 64 (core y).pages else 0).sum

/-- Only `locked_vm` changes, and as it should when the loop is entered or has nothing to do. -/
theorem munlockAreas_eq (mm : Mm) (M : List VmaId) :
    ∃ v, munlockAreas mm M = { mm with lockedVm := v } ∧
      ((mm.lockedVm = 0 → ∀ y ∈ M, (mm.core y).vmFlags.has VM_LOCKED = false) →
        v = mm.lockedVm-lockedPages mm.core M) := by
  have hfold : ∀ (M : List VmaId) (mm : Mm), M.foldl (fun mm y =>
      if (mm.vma y).vmFlags.has VM_LOCKED then
        { mm with lockedVm := mm.lockedVm-BitVec.ofNat 64 (mm.vma y).pages }
      else mm) mm = { mm with lockedVm := mm.lockedVm-lockedPages mm.core M } := by
    intro M
    induction M with
    | nil => intro mm; simp [lockedPages]
    | cons y ys ih =>
      intro mm
      rw [List.foldl_cons, ih, lockedPages, lockedPages, List.map_cons, List.sum_cons]
      by_cases hy : (mm.vma y).vmFlags.has VM_LOCKED = true
      · simp only [hy, if_true, show (mm.core y).vmFlags = (mm.vma y).vmFlags from rfl, sub_sub]
        rfl
      · simp only [hy, show (mm.core y).vmFlags = (mm.vma y).vmFlags from rfl]
        simp
  unfold munlockAreas
  by_cases h0 : mm.lockedVm = 0
  · refine ⟨mm.lockedVm, if_neg (not_not.2 h0), fun hnone => ?_⟩
    have hsum : lockedPages mm.core M = 0 := by
      refine List.sum_eq_zero fun z hz => ?_
      obtain ⟨y, hy, rfl⟩ := List.mem_map.1 hz
      rw [hnone h0 y hy]; rfl
    rw [hsum, sub_zero]
  · exact ⟨_, (if_pos h0).trans (hfold M mm), fun _ => rfl⟩

theorem areasFrom_eq (h : Wf mm (A ++ B)) : mm.areasFrom (mm.nextOf A.getLast?) = B := by
  rw [nextOf_eq h.rep rfl]
  refine Linked.walk_eq (Linked.seg_append.1 h.rep.seg).2 ?_
  rw [h.rep.count, List.length_append]
  omega

/-- What the areas account for is the sum of what each of them does. -/
theorem charge_pages (core : VmaId → Vma) (M : List VmaId) : charge (pages core M) =
    (M.map fun y => statVec (core y).vmFlags (BitVec.ofNat 64 (core y).pages)).sum +
      lockVec (lockedPages core M) + acctVec (nrAccounted core M) := by
  induction M with
  | nil => rfl
  | cons y ys ih =>
    have hl : lockedPages core (y :: ys) =
        (if (core y).vmFlags.has VM_LOCKED then BitVec.ofNat 64 (core y).pages else 0) +
          lockedPages core ys := List.sum_cons
    have ha : nrAccounted core (y :: ys) =
        (if (core y).vmFlags.has VM_ACCOUNT then (core y).pages else 0) + nrAccounted core ys :=
      List.sum_cons
    rw [pages, total_cons, charge_add, charge_weight, ← pages, ih, List.map_cons,
      List.sum_cons, hl, ha, lockVec_add, Nat.cast_add, acctVec_add, Nat.cast_ite, Nat.cast_zero]
    abel

theorem takeWhile_dropWhile_append {P : VmaId → Bool} (hM : ∀ m ∈ M, P m = true)
    (hB : ∀ b ∈ B, P b = false) :
    (M ++ B).takeWhile P = M ∧ (M ++ B).dropWhile P = B := by
  rw [List.takeWhile_append_of_pos hM, List.dropWhile_append_of_pos hM]
  cases B with
  | nil => simp
  | cons b bs =>
    have := hB b (by simp)
    simp [this]

/-- The areas `M` go. -/
theorem unmapAreas_spec (rb : Balance VmaId) (h : Wf s.mm (A ++ (M ++ B)))
    (hM : ∀ m ∈ M, (s.mm.core m).vmStart < end_) (hB : ∀ b ∈ B, end_ ≤ (s.mm.core b).vmStart) :
    let s' := unmapAreas rb s A.getLast? end_
    Wf s'.mm (A ++ B) ∧ s'.mm.core = s.mm.core ∧ s'.mm.fixed = s.mm.fixed ∧
      ∃ d,
        counters s' = counters s - charge (pages s.mm.core M) - references s.mm.core M + lockVec d ∧
        ((s.mm.lockedVm = 0 → ∀ y ∈ M, (s.mm.core y).vmFlags.has VM_LOCKED = false) → d = 0) := by
  have htake : ((M ++ B).takeWhile fun y => decide ((s.mm.vma y).vmStart < end_)) = M ∧
      ((M ++ B).dropWhile fun y => decide ((s.mm.vma y).vmStart < end_)) = B :=
    takeWhile_dropWhile_append (fun m hm => decide_eq_true (hM m hm)) fun b hb =>
      decide_eq_false (not_lt.2 (hB b hb))
  obtain ⟨v, hv, hlock⟩ := munlockAreas_eq s.mm M
  have hw₁ : Wf { s.mm with lockedVm := v } (A ++ (M ++ B)) := h.of_shape rfl
  obtain ⟨hwf, hcore, hrest⟩ := Wf.detach rb hw₁
  set mm₂ := detachVmas rb { s.mm with lockedVm := v } M A.getLast? B.head? with hmm₂
  have hdef : unmapAreas rb s A.getLast? end_ = removeVmaList (s.setMm mm₂) M := by
    unfold unmapAreas
    dsimp only
    rw [areasFrom_eq h, htake.1, htake.2, hv]
  obtain ⟨hshape, hcount⟩ := foldl_removeVma (s.setMm mm₂) M
  have hc₂ : (s.setMm mm₂).mm.core = s.mm.core := hcore
  dsimp only
  rw [hdef]
  refine ⟨hwf.of_shape hshape, (core_of_shape hshape).trans hcore, ?_,
    v-s.mm.lockedVm+lockedPages s.mm.core M, ?_, ?_⟩
  · have h₁ : (removeVmaList (s.setMm mm₂) M).mm.shape = mm₂.shape := hshape
    have h₂ : mm₂.rest.shape = s.mm.rest.shape := (congrArg Mm.shape hrest :)
    exact (congrArg Mm.rest h₁ : _).trans h₂
  · have h₁ : counters (removeVmaList (s.setMm mm₂) M) =
        counters (M.foldl removeVma (s.setMm mm₂)) - acctVec (nrAccounted s.mm.core M) := by
      have : nrAccounted mm₂.vma M = nrAccounted s.mm.core M := (congrArg (nrAccounted · M) hc₂ :)
      simp [removeVmaList, vmUnacctMemory, counters, acctVec, MmSys.setMm, this]
    have h₂ : counters (s.setMm mm₂) = counters s + lockVec (v-s.mm.lockedVm) := by
      have h₃ : counters (s.setMm mm₂) = counters (s.setMm { s.mm with lockedVm := v }) :=
        counters_eq hrest rfl rfl
      rw [h₃]
      simp [counters, lockVec, MmSys.setMm]
    rw [h₁, hcount, hc₂, h₂, charge_pages, lockVec_add]
    abel
  · intro hl
    rw [hlock hl]
    abel

structure CutAt (core : VmaId → Vma) (A M B : List VmaId) (start end_ : ℕ) : Prop where
  below : ∀ a ∈ A, (core a).vmEnd ≤ start
  inside : ∀ m ∈ M, start ≤ (core m).vmStart ∧ (core m).vmEnd ≤ end_
  above : ∀ b ∈ B, end_ ≤ (core b).vmStart

theorem findVma_suffix {R : List VmaId} {y : VmaId} (h : Wf mm (A ++ R))
    (hA : ∀ a ∈ A, (mm.core a).vmEnd ≤ addr) (hy : findVma mm addr = some y) :
    ∃ R₁ R₂, R = R₁ ++ y :: R₂ ∧ (∀ z ∈ R₁, (mm.core z).vmEnd ≤ addr) ∧
      addr < (mm.core y).vmEnd := by
  obtain ⟨A', B', hL, hA', hlt⟩ := findVma_some h.rep (ordered_core.1 h.ordered) hy
  rcases List.append_eq_append_iff.1 hL with ⟨C, rfl, hR⟩ | ⟨C, rfl, hC⟩
  · exact ⟨C, B', hR, fun z hz => hA' z (by simp [hz]), hlt⟩
  · cases C with
    | nil => exact ⟨[], B', by simpa using hC.symm, by simp, hlt⟩
    | cons c cs =>
      obtain ⟨rfl, -⟩ : y = c ∧ B' = cs ++ R := by simpa using hC
      exact absurd (hA y (by simp)) (not_le.2 hlt)

/-- Cutting at the end of the range; the areas that reach beyond it stay. -/
theorem splitLast_spec (rb : Balance VmaId) {R : List VmaId} (h : Wf s.mm (A ++ R))
    (hA : ∀ a ∈ A, (s.mm.core a).vmEnd ≤ start) (hR : ∀ z ∈ R, start ≤ (s.mm.core z).vmStart)
    (hlt : start < end_) (hd : 4096 ∣ end_) :
    let r := splitLast rb s end_
    (r.1 ≠ 0 ∧ Same s r.2 (A ++ R)) ∨ r.1 = 0 ∧ ∃ M B, CutAt r.2.mm.core A M B start end_ ∧
      Does True s (A ++ R) r.2 (A ++ (M ++ B)) (pages s.mm.core (A ++ R)) 0 ∧
      ∃ R₁ R₂, R = R₁ ++ R₂ ∧ B.length = R₂.length ∧ ∀ z ∈ R₂, end_ < (s.mm.core z).vmEnd := by
  have hA' : ∀ a ∈ A, (s.mm.core a).vmEnd ≤ end_ := fun a ha => (hA a ha).trans hlt.le
  dsimp only
  unfold splitLast
  cases hf : findVma s.mm end_ with
  | none =>
    have hall := findVma_none h.rep (ordered_core.1 h.ordered) hf
    refine .inr ⟨rfl, R, [], ⟨hA, fun m hm => ⟨hR m hm, hall m (by simp [hm])⟩, by simp⟩, ?_,
      R, [], (List.append_nil R).symm, rfl, by simp⟩
    rw [List.append_nil]
    exact (Same.refl h).does
  | some y =>
    obtain ⟨R₁, R₂, rfl, hR₁, hy⟩ := findVma_suffix h hA' hf
    rw [← List.append_assoc] at h
    have hyo := h.ordered.area y (by simp)
    obtain ⟨-, hyR, hbefore⟩ := ordered_append.1 h.ordered
    obtain ⟨-, -, hafter⟩ := ordered_cons.1 hyR
    have hbeyond : ∀ z ∈ y :: R₂, end_ < (s.mm.core z).vmEnd := by
      intro z hz
      rcases List.mem_cons.1 hz with rfl | hz'
      · exact hy
      · exact (hy.trans_le (hafter z hz')).trans (h.ordered.area z (by simp [hz'])).lt
    dsimp only
    split
    next hs =>
      have hs : (s.mm.core y).vmStart < end_ := hs
      rcases splitVmaNoLimit_spec rb true h hs hy hd with ⟨he, hsame⟩ | ⟨he, n, hsplit⟩
      · exact .inl ⟨he, by rwa [List.append_assoc] at hsame⟩
      · refine .inr ⟨he, R₁ ++ [n], y :: R₂, ⟨?_, ?_, ?_⟩, ?_, R₁, y :: R₂, rfl, rfl, hbeyond⟩
        · intro a ha
          rw [hsplit.other a (by simp [ha])]
          exact hA a ha
        · intro m hm
          rcases List.mem_append.1 hm with hm | hm
          · rw [hsplit.other m (by simp [hm])]
            exact ⟨hR m (by simp [hm]), hR₁ m hm⟩
          · obtain rfl : m = n := by simpa using hm
            rw [hsplit.new]
            exact ⟨hR y (by simp), le_rfl⟩
        · intro b hb
          rcases List.mem_cons.1 hb with rfl | hb
          · rw [hsplit.kept]; exact le_rfl
          · rw [hsplit.other b (by simp [hb])]
            exact hy.le.trans (hafter b hb)
        · have hdoes := hsplit.does (G := True) hyo hs hy hd
          simpa [halves, List.append_assoc] using hdoes
    next hs =>
      have hs : end_ ≤ (s.mm.core y).vmStart := not_lt.1 hs
      refine .inr ⟨rfl, R₁, y :: R₂, ⟨hA, fun m hm => ⟨hR m (by simp [hm]), hR₁ m hm⟩, ?_⟩, ?_,
        R₁, y :: R₂, rfl, rfl, hbeyond⟩
      · intro b hb
        rcases List.mem_cons.1 hb with rfl | hb
        · exact hs
        · exact hy.le.trans (hafter b hb)
      · rw [List.append_assoc] at h
        exact (Same.refl h).does

/-- The number of pages of a kind is the sum of `vma_pages` over the areas of that kind. -/
theorem pagesOf_pages {P : VmFlags → Bool} (hP : ∀ flags, P (cleanFlags flags) = P flags)
    (core : VmaId → Vma) (L : List VmaId) : pagesOf P (pages core L) =
      (L.map fun y => if P (core y).vmFlags then (core y).pages else 0).sum := by
  induction L with
  | nil => rfl
  | cons y ys ih =>
    rw [pages, total_cons, pagesOf_add, ← pages, ih, List.map_cons, List.sum_cons]
    congr 1
    exact pagesOf_block (hP _)

/-- There are less pages than addresses. -/
theorem pagesOf_lt {P : VmFlags → Bool} (hP : ∀ flags, P (cleanFlags flags) = P flags)
    (h : Ordered core L) : pagesOf P (pages core L) < 2^64 := by
  have hle : ∀ L a, Ordered core L → (∀ y ∈ L, a ≤ (core y).vmStart) → a < 2^64 →
      pagesOf P (pages core L)+a < 2^64 := by
    intro L
    induction L with
    | nil => intro a _ _ ha; simpa [pagesOf, pages, total_nil] using ha
    | cons y ys ih =>
      intro a ho hge ha
      obtain ⟨hy, hys, hlt⟩ := ordered_cons.1 ho
      have hrec := ih (core y).vmEnd hys hlt hy.end_lt
      have hstart := hge y (by simp)
      have hyl := hy.lt
      rw [pagesOf_pages hP] at hrec ⊢
      rw [List.map_cons, List.sum_cons]
      have hone : (if P (core y).vmFlags then (core y).pages else 0) ≤
          (core y).vmEnd-(core y).vmStart := by
        split
        · exact Nat.div_le_self _ _
        · exact Nat.zero_le _
      omega
  exact hle L 0 h (fun _ _ => Nat.zero_le _) (by norm_num)

theorem has_locked_clean (flags : VmFlags) :
    (cleanFlags flags).has VM_LOCKED = flags.has VM_LOCKED :=
  has_cleanFlags (by decide)

/-- Where the lock entry is right, `locked_vm` is 0 only if nothing is locked. -/
theorem LockExact.guard (hl : LockExact s L) (h : Ordered s.mm.core L) :
    LockGuard s (pages s.mm.core L) := by
  intro h0
  have hlt := pagesOf_lt (P := (·.has VM_LOCKED)) has_locked_clean h
  rw [LockExact, lockPart_ledger, h0, sub_eq_zero] at hl
  have hnat := congrArg BitVec.toNat hl
  rw [BitVec.toNat_ofNat, Nat.mod_eq_of_lt hlt] at hnat
  exact hnat.symm

/-- Without a locked page no area is locked. -/
theorem none_locked (h : Ordered core L) (h0 : pagesOf (·.has VM_LOCKED) (pages core L) = 0) :
    ∀ y ∈ L, (core y).vmFlags.has VM_LOCKED = false := by
  intro y hy
  rw [pagesOf_pages has_locked_clean] at h0
  have hsum := List.sum_eq_zero_iff.1 h0 _ (List.mem_map_of_mem hy)
  by_contra hlocked
  rw [Bool.not_eq_false] at hlocked
  rw [hlocked, if_pos rfl, Vma.pages] at hsum
  obtain ⟨hylt, hd, hd', -⟩ := h.area y hy
  omega

def outside (start end_ : ℕ) (m : Pages) : Pages :=
  m.filter fun e => e.1 < start/4096 ∨ end_/4096 ≤ e.1

theorem outside_add (m m' : Pages) :
    outside start end_ (m+m') = outside start end_ m + outside start end_ m' :=
  Multiset.filter_add ..

theorem mem_weight {v : Vma} {e : ℕ × PageInfo} (he : e ∈ v.weight single) :
    v.vmStart/4096 ≤ e.1 ∧ e.1 < v.vmStart/4096+v.pages := by
  rw [Vma.weight, blockSum] at he
  obtain ⟨k, hk, hmem⟩ := Multiset.mem_sum.1 he
  obtain rfl := Multiset.mem_singleton.1 hmem
  have := Finset.mem_range.1 hk
  exact ⟨Nat.le_add_right _ _, Nat.add_lt_add_left this _⟩

theorem mem_pages {e : ℕ × PageInfo} (he : e ∈ pages core L) :
    ∃ y ∈ L, e ∈ (core y).weight single := by
  induction L with
  | nil => simp [pages, total_nil] at he
  | cons y ys ih =>
    rw [pages, total_cons, Multiset.mem_add] at he
    rcases he with he | he
    · exact ⟨y, by simp, he⟩
    · obtain ⟨z, hz, hmem⟩ := ih he
      exact ⟨z, by simp [hz], hmem⟩

theorem mem_pages_of {e : ℕ × PageInfo} {y : VmaId} (hy : y ∈ L) (he : e ∈ (core y).weight single) :
    e ∈ pages core L := by
  obtain ⟨A, B, rfl⟩ := List.append_of_mem hy
  rw [pages, total_append, total_cons, Multiset.mem_add, Multiset.mem_add]
  exact .inr (.inl he)

theorem CutAt.outside_eq (h : CutAt core A M B start end_) (ho : Ordered core (A ++ (M ++ B)))
    (hs : 4096 ∣ start) (he : 4096 ∣ end_) :
    outside start end_ (pages core (A ++ (M ++ B))) = pages core (A ++ B) := by
  have hA : outside start end_ (pages core A) = pages core A := by
    refine Multiset.filter_eq_self.2 fun e hmem => ?_
    obtain ⟨y, hy, hey⟩ := mem_pages hmem
    have hlt := (mem_weight hey).2
    have hb := h.below y hy
    obtain ⟨hyl, hd, hd', -⟩ := ho.area y (by simp [hy])
    unfold Vma.pages at hlt
    omega
  have hB : outside start end_ (pages core B) = pages core B := by
    refine Multiset.filter_eq_self.2 fun e hmem => ?_
    obtain ⟨y, hy, hey⟩ := mem_pages hmem
    have hge := (mem_weight hey).1
    have ha := h.above y hy
    omega
  have hM : outside start end_ (pages core M) = 0 := by
    refine Multiset.filter_eq_nil.2 fun e hmem => ?_
    obtain ⟨y, hy, hey⟩ := mem_pages hmem
    have hm := mem_weight hey
    have hi := h.inside y hy
    obtain ⟨hyl, hd, hd', -⟩ := ho.area y (by simp [hy])
    unfold Vma.pages at hm
    omega
  have happ : ∀ A B : List VmaId, pages core (A ++ B) = pages core A + pages core B :=
    fun _ _ => total_append
  rw [happ, happ, happ, outside_add, outside_add, hA, hM, hB, zero_add]

/-- Unmapping what a cut has isolated. -/
theorem CutAt.does (rb : Balance VmaId) (h : CutAt s.mm.core A M B start end_)
    (hw : Wf s.mm (A ++ (M ++ B))) (hs : 4096 ∣ start) (he : 4096 ∣ end_) :
    Does (LockGuard s (pages s.mm.core (A ++ (M ++ B)))) s (A ++ (M ++ B))
      (unmapAreas rb s A.getLast? end_)
      (A ++ B) (outside start end_ (pages s.mm.core (A ++ (M ++ B)))) 0 := by
  have hM : ∀ m ∈ M, (s.mm.core m).vmStart < end_ := fun m hm =>
    (hw.ordered.area m (by simp [hm])).lt.trans_le (h.inside m hm).2
  obtain ⟨hwf, hcore, hfixed, d, hd, hlock⟩ := unmapAreas_spec rb hw hM h.above
  refine ⟨hwf, ?_, ⟨d, ?_, fun hl => hlock fun h0 y hy => ?_⟩, hfixed⟩
  · rw [h.outside_eq hw.ordered hs he, hcore]
  · have happ :
        ∀ A B : List VmaId, pages s.mm.core (A ++ B) = pages s.mm.core A + pages s.mm.core B :=
      fun _ _ => total_append
    rw [ledger, hd, hcore, ledger, happ, happ, happ, charge_add, charge_add, charge_add,
      references_append, references_append, references_append, acctVec_zero]
    abel
  · exact none_locked hw.ordered (hl h0) y (by simp [hy])

def unmapLast (rb : Balance VmaId) (s : MmSys) (prev : Option VmaId) (end_ : ℕ) : ℤ × MmSys :=
  let last := splitLast rb s end_
  if last.1 ≠ 0 then last else (0, unmapAreas rb last.2 prev end_)

def unmapFirst (rb : Balance VmaId) (s : MmSys) (x : VmaId) (start end_ : ℕ) : ℤ × MmSys :=
  let first := splitVmaNoLimit rb s x start false
  if first.1 ≠ 0 then first else unmapLast rb first.2 (some x) end_

/-- Cut at the end of the range and unmap, when nothing straddles its start. -/
theorem splitLast_unmap (rb : Balance VmaId) {R : List VmaId} (h : Wf s.mm (A ++ R))
    (hA : ∀ a ∈ A, (s.mm.core a).vmEnd ≤ start) (hR : ∀ z ∈ R, start ≤ (s.mm.core z).vmStart)
    (hr : RangeOk start end_) :
    let r := unmapLast rb s A.getLast? end_
    (r.1 ≠ 0 ∧ Same s r.2 (A ++ R)) ∨ r.1 = 0 ∧ ∃ L',
      Does (LockGuard s (pages s.mm.core (A ++ R))) s (A ++ R) r.2
      L' (outside start end_ (pages s.mm.core (A ++ R))) 0 := by
  dsimp only [unmapLast]
  rcases splitLast_spec rb h hA hR hr.lt hr.end_dvd with ⟨he, hsame⟩ | ⟨he, M, B, hcut, hdoes, -⟩
  · rw [if_pos he]
    exact .inl ⟨he, hsame⟩
  · rw [if_neg (not_not.2 he)]
    have hunmap := hcut.does rb hdoes.wf hr.start_dvd hr.end_dvd
    rw [hdoes.pages] at hunmap
    refine .inr ⟨rfl, A ++ B, (hdoes.mono fun _ => trivial).trans hunmap fun hg => ?_⟩
    rwa [LockGuard, lockedVm_of_does hdoes]

theorem does_outside_of_hole {G : Prop} (h : Wf s.mm (A ++ B))
    (hA : ∀ a ∈ A, (s.mm.core a).vmEnd ≤ start) (hB : ∀ b ∈ B, end_ ≤ (s.mm.core b).vmStart)
    (hs : 4096 ∣ start) (he : 4096 ∣ end_) :
    Does G s (A ++ B) s (A ++ B) (outside start end_ (pages s.mm.core (A ++ B))) 0 := by
  have hcut : CutAt s.mm.core A [] B start end_ := ⟨hA, by simp, hB⟩
  have heq := hcut.outside_eq h.ordered hs he
  rw [List.nil_append] at heq
  rw [heq]
  exact (Same.refl h).does

/-- What the argument checks of `do_munmap` let through. -/
theorem rangeOk_of_checks {len : ℕ}
    (hoff : ¬(offsetInPage start ≠ 0 ∨ TASK_SIZE < start ∨ TASK_SIZE-start < len))
    (hlen : pageAlign len ≠ 0) : RangeOk start (start+pageAlign len) := by
  have hd := pageAlign_dvd len
  simp only [not_or, not_not, offsetInPage, TASK_SIZE] at hoff
  obtain ⟨h₁, h₂, h₃⟩ := hoff
  have hle : pageAlign len < len+4096 := by
    have := pageMask_le (wadd len 4095)
    rw [wadd_eq (by omega)] at this
    rw [pageAlign, wadd_eq (by omega)]
    omega
  refine ⟨by omega, Nat.dvd_of_mod_eq_zero h₁,
    (Nat.dvd_add_right (Nat.dvd_of_mod_eq_zero h₁)).2 hd, by omega⟩

/-- After the cut at the start of a range, `x` and what came before it lie below the range. -/
theorem SplitAt.below (h : SplitAt s s' A x B start false n)
    (hA : ∀ a ∈ A, (s.mm.core a).vmEnd ≤ start) :
    ∀ a ∈ A ++ [x], (s'.mm.core a).vmEnd ≤ start := by
  intro a ha
  rcases List.mem_append.1 ha with ha | ha
  · rw [h.other a (by simp [ha])]
    exact hA a ha
  · rw [List.mem_singleton.1 ha, h.kept]
    exact le_rfl

theorem SplitAt.above (h : SplitAt s s' A x B start false n)
    (hB : ∀ b ∈ B, (s.mm.core x).vmEnd ≤ (s.mm.core b).vmStart) (hx : start < (s.mm.core x).vmEnd) :
    ∀ z ∈ n :: B, start ≤ (s'.mm.core z).vmStart := by
  intro z hz
  rcases List.mem_cons.1 hz with rfl | hz
  · rw [h.new]
    exact le_rfl
  · rw [h.other z (by simp [hz])]
    exact hx.le.trans (hB z hz)

/-- The same when the area `x` straddles the start of the range. -/
theorem splitFirst_unmap (rb : Balance VmaId) (h : Wf s.mm (A ++ x :: B)) (hr : RangeOk start end_)
    (hA : ∀ a ∈ A, (s.mm.core a).vmEnd ≤ start) (hs : (s.mm.core x).vmStart < start)
    (hx : start < (s.mm.core x).vmEnd) :
    let r := unmapFirst rb s x start end_
    (r.1 ≠ 0 ∧ ∃ L', Does True s (A ++ x :: B) r.2 L' (pages s.mm.core (A ++ x :: B)) 0) ∨
      r.1 = 0 ∧ ∃ L', Does (LockGuard s (pages s.mm.core (A ++ x :: B))) s (A ++ x :: B) r.2 L'
        (outside start end_ (pages s.mm.core (A ++ x :: B))) 0 := by
  dsimp only [unmapFirst]
  obtain ⟨hxo, -, hafter⟩ := ordered_cons.1 (ordered_append.1 h.ordered).2.1
  rcases splitVmaNoLimit_spec rb false h hs hx hr.start_dvd with ⟨he, hsame⟩ | ⟨he, n, hsplit⟩
  · rw [if_pos he]
    exact .inl ⟨he, _, hsame.does⟩
  · rw [if_neg (not_not.2 he)]
    have hd₁ := hsplit.does (G := True) hxo hs hx hr.start_dvd
    set s₁ := (splitVmaNoLimit rb s x start false).2
    have hhalf : A ++ (halves x n false ++ B) = (A ++ [x]) ++ n :: B := by simp [halves]
    rw [hhalf] at hd₁
    have hlast := splitLast_unmap rb hd₁.wf (hsplit.below hA) (hsplit.above hafter hx) hr
    rw [List.getLast?_concat, hd₁.pages] at hlast
    rcases hlast with ⟨he', hsame⟩ | ⟨he', L', hdoes⟩
    · have hsd := hsame.does (G := True)
      rw [hd₁.pages] at hsd
      exact .inl ⟨he', _, hd₁.trans hsd id⟩
    · refine .inr ⟨he', L', (hd₁.mono fun _ => trivial).trans hdoes fun hg => ?_⟩
      rwa [LockGuard, lockedVm_of_does hd₁]

inductive Munmaps (rb : Balance VmaId) (conf : MmConf) (s : MmSys) (L : List VmaId)
    (start end_ : ℕ) :
    ℤ × MmSys → Prop
  | refused {e : ℤ} (he : e < 0) : Munmaps rb conf s L start end_ (e, s)
  | nothing {A B : List VmaId} (hr : RangeOk start end_) (hL : L = A ++ B)
      (hA : ∀ a ∈ A, (s.mm.core a).vmEnd ≤ start)
      (hB : ∀ b ∈ B, end_ ≤ (s.mm.core b).vmStart) : Munmaps rb conf s L start end_ (0, s)
  | first {A B : List VmaId} {x : VmaId} (hr : RangeOk start end_) (hL : L = A ++ x :: B)
      (hA : ∀ a ∈ A, (s.mm.core a).vmEnd ≤ start) (hs : (s.mm.core x).vmStart < start)
      (hx : start < (s.mm.core x).vmEnd)
        (hmax : end_ < (s.mm.core x).vmEnd → s.mm.mapCount < conf.maxMapCount) :
      Munmaps rb conf s L start end_ (unmapFirst rb s x start end_)
  | last {A R : List VmaId} (hr : RangeOk start end_) (hL : L = A ++ R)
      (hA : ∀ a ∈ A, (s.mm.core a).vmEnd ≤ start) (hR : ∀ z ∈ R, start ≤ (s.mm.core z).vmStart) :
      Munmaps rb conf s L start end_ (unmapLast rb s A.getLast? end_)

theorem doMunmap_cases (rb : Balance VmaId) (conf : MmConf) (start len : ℕ) (h : Wf s.mm L) :
    Munmaps rb conf s L start (start+pageAlign len) (doMunmap rb conf s start len) := by
  unfold doMunmap
  split
  next => exact .refused (by decide)
  next hoff =>
    dsimp only
    split
    next => exact .refused (by decide)
    next hlen =>
      have hr := rangeOk_of_checks hoff hlen
      set end_ := start+pageAlign len
      cases hf : findVma s.mm start with
      | none =>
        have hall := findVma_none h.rep (ordered_core.1 h.ordered) hf
        exact .nothing hr (List.append_nil L).symm hall (by simp)
      | some x =>
        obtain ⟨A, B, rfl, hA, hx⟩ := findVma_some h.rep (ordered_core.1 h.ordered) hf
        have hafter := (ordered_cons.1 (ordered_append.1 h.ordered).2.1).2.2
        dsimp only
        split
        next hend =>
          refine .nothing hr rfl hA fun b hb => ?_
          rcases List.mem_cons.1 hb with rfl | hb
          · exact hend
          · exact (hend.trans (h.ordered.area x (by simp)).lt.le).trans (hafter b hb)
        next =>
          split
          next hstart =>
            split
            next => exact .refused (by decide)
            next hmax =>
              exact .first hr rfl hA hstart hx fun hlt => not_le.1 fun hle => hmax ⟨hlt, hle⟩
          next hstart =>
            rw [h.rep.prev_eq]
            refine .last hr rfl hA fun z hz => ?_
            rcases List.mem_cons.1 hz with rfl | hz
            · exact not_lt.1 hstart
            · exact hx.le.trans (hafter z hz)

theorem doMunmap_spec (rb : Balance VmaId) (conf : MmConf) (start len : ℕ) (h : Wf s.mm L) :
    let r := doMunmap rb conf s start len
    (r.1 ≠ 0 ∧ ∃ L', Does True s L r.2 L' (pages s.mm.core L) 0) ∨ r.1 = 0 ∧ ∃ L',
      Does (LockGuard s (pages s.mm.core L)) s L r.2 L'
        (outside start (start+pageAlign len) (pages s.mm.core L)) 0 := by
  dsimp only
  have hcases := doMunmap_cases rb conf start len h
  generalize doMunmap rb conf s start len = r at hcases ⊢
  cases hcases with
  | refused he => exact .inl ⟨he.ne, L, (Same.refl h).does⟩
  | nothing hr hL hA hB =>
    subst hL
    exact .inr ⟨rfl, _, does_outside_of_hole h hA hB hr.start_dvd hr.end_dvd⟩
  | first hr hL hA hs hx hmax =>
    subst hL
    exact splitFirst_unmap rb h hr hA hs hx
  | last hr hL hA hR =>
    subst hL
    rcases splitLast_unmap rb h hA hR hr with ⟨he, hsame⟩ | ⟨he, L', hdoes⟩
    · exact .inl ⟨he, _, hsame.does⟩
    · exact .inr ⟨he, L', hdoes⟩

theorem outcome_nonpos (s : MmSys) : s.outcome.1 ≤ 0 := by
  unfold MmSys.outcome
  split
  · exact le_rfl
  · simp

theorem splitVmaNoLimit_nonpos {newBelow : Bool} :
    (splitVmaNoLimit rb s x addr newBelow).1 ≤ 0 := by
  have hinv : -EINVAL ≤ 0 := by decide
  have hnomem : -ENOMEM ≤ 0 := by decide
  unfold splitVmaNoLimit
  dsimp only
  split
  next => exact hinv
  split
  next => exact hnomem
  split
  next => exact outcome_nonpos _
  split
  next =>
    unfold anonVmaClone
    dsimp only
    split
    · exact le_rfl
    · exact hnomem
  have hzero : ∀ s n, (splitAdjust rb s x n addr newBelow).1 = 0 := fun s n => by
    unfold splitAdjust
    dsimp only
    split <;> rw [vmaAdjust_insert]
  split
  next => exact le_rfl
  next => rw [hzero]

theorem splitLast_nonpos : (splitLast rb s end_).1 ≤ 0 := by
  unfold splitLast
  split
  · split
    · exact splitVmaNoLimit_nonpos
    · exact le_rfl
  · exact le_rfl

/-- A failed `do_munmap` returns a negative error number. -/
theorem doMunmap_nonpos {conf : MmConf} {len : ℕ} : (doMunmap rb conf s start len).1 ≤ 0 := by
  have hinv : -EINVAL ≤ 0 := by decide
  have hnomem : -ENOMEM ≤ 0 := by decide
  unfold doMunmap
  dsimp only
  split
  next => exact hinv
  split
  next => exact hinv
  split
  next => exact le_rfl
  split
  next => exact le_rfl
  split
  next =>
    split
    next => exact hnomem
    split
    next => exact splitVmaNoLimit_nonpos
    split
    next => exact splitLast_nonpos
    next => exact le_rfl
  next =>
    split
    next => exact splitLast_nonpos
    next => exact le_rfl

/-- `do_munmap` where the lock entry of the books is right. -/
theorem doMunmap_does (rb : Balance VmaId) (conf : MmConf) (start len : ℕ) (h : Wf s.mm L) :
    let r := doMunmap rb conf s start len
    (r.1 < 0 ∧ ∃ L', Does (LockExact s L) s L r.2 L' (pages s.mm.core L) 0) ∨ r.1 = 0 ∧ ∃ L',
      Does (LockExact s L) s L r.2 L'
        (outside start (start+pageAlign len) (pages s.mm.core L)) 0 := by
  rcases doMunmap_spec rb conf start len h with ⟨hne, L', hdoes⟩ | ⟨hz, L', hdoes⟩
  · exact .inl ⟨lt_of_le_of_ne doMunmap_nonpos hne, L', hdoes.mono fun _ => trivial⟩
  · exact .inr ⟨hz, L', hdoes.mono fun hl => hl.guard h.ordered⟩

theorem doMunmap_nothing (rb : Balance VmaId) (conf : MmConf) (s : MmSys) (start : ℕ) :
    doMunmap rb conf s start 0 = (-EINVAL, s) := by
  unfold doMunmap
  split
  · rfl
  · rfl

theorem CutAt.unlocked (rb : Balance VmaId) (hcut : CutAt s.mm.core A M B start end_)
    (h : Wf s.mm (A ++ (M ++ B))) (h0 : s.mm.lockedVm = 0) :
    (unmapAreas rb s A.getLast? end_).mm.lockedVm = 0 := by
  have hM : ∀ m ∈ M, (s.mm.core m).vmStart < end_ := fun m hm =>
    (h.ordered.area m (by simp [hm])).lt.trans_le (hcut.inside m hm).2
  have htake : ((M ++ B).takeWhile fun y => decide ((s.mm.vma y).vmStart < end_)) = M ∧
      ((M ++ B).dropWhile fun y => decide ((s.mm.vma y).vmStart < end_)) = B :=
    takeWhile_dropWhile_append (fun m hm => decide_eq_true (hM m hm)) fun b hb =>
      decide_eq_false (not_lt.2 (hcut.above b hb))
  have hskip : munlockAreas s.mm M = s.mm := if_neg (not_not.2 h0)
  unfold unmapAreas
  dsimp only
  rw [areasFrom_eq h, htake.1, htake.2, hskip]
  calc (removeVmaList (s.setMm (detachVmas rb s.mm M A.getLast? B.head?)) M).mm.lockedVm
      = (detachVmas rb s.mm M A.getLast? B.head?).lockedVm := foldl_removeVma_lockedVm _ M
    _ = s.mm.lockedVm := (congrArg Mm.lockedVm (Wf.detach rb h).2.2 :)
    _ = 0 := h0

theorem unmapLast_unlocked (rb : Balance VmaId) {R : List VmaId} (h : Wf s.mm (A ++ R))
    (hA : ∀ a ∈ A, (s.mm.core a).vmEnd ≤ start) (hR : ∀ z ∈ R, start ≤ (s.mm.core z).vmStart)
    (hr : RangeOk start end_) (h0 : s.mm.lockedVm = 0)
    (hz : (unmapLast rb s A.getLast? end_).1 = 0) :
    (unmapLast rb s A.getLast? end_).2.mm.lockedVm = 0 := by
  unfold unmapLast at hz ⊢
  dsimp only at hz ⊢
  rcases splitLast_spec rb h hA hR hr.lt hr.end_dvd with ⟨he, -⟩ | ⟨he, M, B, hcut, hdoes, -⟩
  · rw [if_pos he] at hz
    exact absurd hz he
  · rw [if_neg (not_not.2 he)]
    exact hcut.unlocked rb hdoes.wf ((lockedVm_of_does hdoes).trans h0)

/-- `do_munmap` does not look for locked areas if none is counted. -/
theorem doMunmap_unlocked (rb : Balance VmaId) (conf : MmConf) {len : ℕ} (h : Wf s.mm L)
    (h0 : s.mm.lockedVm = 0) (hz : (doMunmap rb conf s start len).1 = 0) :
    (doMunmap rb conf s start len).2.mm.lockedVm = 0 := by
  have hcases := doMunmap_cases rb conf start len h
  generalize doMunmap rb conf s start len = r at hcases hz ⊢
  cases hcases with
  | refused he => exact absurd hz he.ne
  | nothing => exact h0
  | last hr hL hA hR =>
    subst hL
    exact unmapLast_unlocked rb h hA hR hr h0 hz
  | @first A B x hr hL hA hs hx hmax =>
    subst hL
    obtain ⟨hxo, -, hafter⟩ := ordered_cons.1 (ordered_append.1 h.ordered).2.1
    unfold unmapFirst at hz ⊢
    dsimp only at hz ⊢
    rcases splitVmaNoLimit_spec rb false h hs hx hr.start_dvd with ⟨he, -⟩ | ⟨he, n, hsplit⟩
    · rw [if_pos he] at hz
      exact absurd hz he
    · rw [if_neg (not_not.2 he)] at hz ⊢
      have hdoes := hsplit.does (G := True) hxo hs hx hr.start_dvd
      -- `x` and what came before it lie below the range now
      have hhalf : A ++ (halves x n false ++ B) = (A ++ [x]) ++ n :: B := by simp [halves]
      rw [hhalf] at hdoes
      have hlast : (A ++ [x]).getLast? = some x := List.getLast?_concat
      rw [← hlast] at hz ⊢
      exact unmapLast_unlocked rb hdoes.wf (hsplit.below hA) (hsplit.above hafter hx) hr
        ((lockedVm_of_does hdoes).trans h0) hz

end PtraceRemote
