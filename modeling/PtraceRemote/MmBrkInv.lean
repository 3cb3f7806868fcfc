import PtraceRemote.MmMapInv

/-! `brk`: the heap grows as an accounted mapping, the books stay balanced. -/
namespace PtraceRemote

open AugTree (Balance)

variable {mm : Mm} {s s' : MmSys} {rb : Balance VmaId} {env : MmEnv} {L L' A B : List VmaId}
  {x : VmaId} {q : MergeReq} {start end_ addr len : ℕ} {G : Prop}


theorem brkFlags_spec (env : MmEnv) (mm : Mm) :
    (brkFlags env mm).has VM_ACCOUNT = true ∧ isSpecial (brkFlags env mm) = false ∧
      isDataMapping (brkFlags env mm) = true := by
  have hdef : ∀ m, VM_DEF_MASK &&& m = 0#64 → mm.defFlags &&& m = 0 := fun m hm => by
    have hw : Within mm.defFlags VM_DEF_MASK := within_defFlags mm (show _ &&& _ = _ by decide)
    rw [← hw, BitVec.and_assoc, hm, BitVec.and_zero]; rfl
  have hand : ∀ m, VM_DEF_MASK &&& m = 0#64 →
      brkFlags env mm &&& m = (VM_DATA_DEFAULT_FLAGS env.dataExec ||| VM_ACCOUNT) &&& m :=
          fun m hm => by
    rw [brkFlags, BitVec.and_comm, BitVec.and_or_distrib_left,
      BitVec.and_comm m mm.defFlags, hdef m hm]
    exact BitVec.or_zero.trans (BitVec.and_comm ..)
  refine ⟨?_, ?_, ?_⟩
  · rw [VmFlags.has, hand _ (by decide)]
    cases env.dataExec <;> decide
  · rw [isSpecial, VmFlags.has, VmFlags.has, hand _ (by decide), hand _ (by decide)]
    cases env.dataExec <;> decide
  · rw [isDataMapping, hand _ (by decide)]
    cases env.dataExec <;> decide

/-- `do_brk` counts the new pages as data, which is what their flags say. -/
theorem brkDone_eq {flags : VmFlags} (hd : isDataMapping flags = true)
    (hs : isSpecial flags = false) (hx : (s.mm.vma x).vmFlags.has VM_HUGETLB = false) (len : ℕ) :
    brkDone s x flags len = mapDone s x flags len := by
  have hstack : isStackMapping flags = false := by
    by_contra hc
    rw [(mapping_classes flags).2 (by simpa using hc)] at hd
    exact absurd hd (by simp)
  have hexec : isExecMapping flags = false := by
    by_contra hc
    rw [((mapping_classes flags).1 (by simpa using hc)).2] at hd
    exact absurd hd (by simp)
  obtain ⟨hsp, -⟩ := Bool.or_eq_false_iff.1 hs
  unfold brkDone mapDone accountNew vmStatAccount isVmHugetlbPage
  simp only [hd, hstack, hexec, hsp, hx, Bool.or_false, Bool.not_false, Bool.and_true,
    Bool.and_false, if_true, Bool.false_eq_true, if_false]

/-- The end of `do_brk`: the charge is used, or given back. -/
theorem brkRegion_spec (rb : Balance VmaId) {k : VmaLinks} (h : Wf s.mm (A ++ B))
    (hk : LinksAt s.mm A B k) (hr : RangeOk q.addr q.end_)
    (hA : ∀ a ∈ A, (s.mm.core a).vmEnd ≤ q.addr) (hB : ∀ b ∈ B, q.end_ ≤ (s.mm.core b).vmStart)
    (hf : q.vmFlags = brkFlags env mm) :
    ∃ L' P, Does G s (A ++ B) (brkRegion rb s k q).2 L' P (-((q.end_-q.addr)/4096 : ℕ)) := by
  obtain ⟨hacct, hspecial, hdata⟩ := brkFlags_spec env mm
  rw [← hf] at hacct hspecial hdata
  have hhuge := (Bool.or_eq_false_iff.1 hspecial).2
  unfold brkRegion
  dsimp only
  rcases placed_merge rb h hk.prev hr hA hB hhuge with ⟨hnone, hquiet⟩ | ⟨v, A', B', hv, hplaced⟩
  · rw [hnone]
    dsimp only
    set s₁ := (vmaMerge rb s k.prev q).2
    have hq := hquiet.trans (outcome_quiet s₁)
    split
    next =>
      have hdoes := ((hq.same h).does (G := G)).unacct ((q.end_-q.addr)/4096 : ℕ)
      rw [zero_sub] at hdoes
      exact ⟨_, _, hdoes⟩
    next =>
      have hspare : Spare s (allocVma s₁.outcome.2 q.area) (A ++ B) s₁.outcome.2.mm.nextId q.area :=
        spare_alloc hq h q.area
      set t := allocVma s₁.outcome.2 q.area
      set n := s₁.outcome.2.mm.nextId
      have hflags : (t.mm.vma n).vmFlags = q.vmFlags := congrArg Vma.vmFlags hspare.area
      have hdoes := linkNew_spec (G := G) rb hspare hk hr hA hB
      have heq : brkDone (t.setMm (vmaLink rb t.mm n k)) n q.vmFlags (q.end_-q.addr) =
          linkNew rb t n k (q.end_-q.addr) := by
        rw [linkNew, hflags]
        refine brkDone_eq hdata hspecial ?_ _
        show (t.mm.vma n).vmFlags.has VM_HUGETLB = false
        rw [hflags, hhuge]
      rw [heq]
      rw [show (q.area.vmFlags.has VM_ACCOUNT) = true from hacct] at hdoes
      exact ⟨_, _, hdoes⟩
  · rw [hv]
    dsimp only
    have hdoes := hplaced.done (G := G)
    rw [hacct] at hdoes
    have hx : ((vmaMerge rb s k.prev q).2.mm.vma v).vmFlags.has VM_HUGETLB = false := by
      rw [← hhuge]
      exact has_of_clean hplaced.shows (by decide)
    rw [brkDone_eq hdata hspecial hx]
    exact ⟨_, _, hdoes⟩

theorem brkCharge_spec (rb : Balance VmaId) {k : VmaLinks} (h : Wf s.mm (A ++ B))
    (hk : LinksAt s.mm A B k) (hr : RangeOk q.addr q.end_)
    (hA : ∀ a ∈ A, (s.mm.core a).vmEnd ≤ q.addr) (hB : ∀ b ∈ B, q.end_ ≤ (s.mm.core b).vmStart)
    (hf : q.vmFlags = brkFlags env mm) :
    ∃ L' P, Does G s (A ++ B) (brkCharge rb env s k q).2 L' P 0 := by
  unfold brkCharge
  split
  next => exact ⟨_, _, (Same.refl h).does⟩
  split
  next => exact ⟨_, _, (Same.refl h).does⟩
  next =>
    obtain ⟨hmm, hres⟩ := vmEnoughMemory_spec (G := G) h ((q.end_-q.addr)/4096 : ℕ)
    dsimp only at hmm hres ⊢
    set t := vmEnoughMemory s ((q.end_-q.addr)/4096 : ℕ)
    rcases hres with ⟨hne, hsame⟩ | ⟨heq, hdoes⟩
    · rw [if_pos hne]
      exact ⟨_, _, hsame.does⟩
    · rw [if_neg (not_not.2 heq)]
      obtain ⟨L', P, hd⟩ := brkRegion_spec (G := G) (s := t.2) rb (by rwa [hmm]) (by rwa [hmm]) hr
        (by rwa [hmm]) (by rwa [hmm]) hf
      have htrans := hdoes.trans hd id
      rw [add_neg_cancel] at htrans
      exact ⟨L', P, htrans⟩

/-- The part of `do_brk` from the label `munmap_back` on. -/
theorem brkClear_spec (rb : Balance VmaId) (env : MmEnv) (h : Wf s.mm L)
    (hr : RangeOk q.addr (q.addr+len)) (hq : q.end_ = q.addr+len)
    (hf : q.vmFlags = brkFlags env mm) :
    let clear := clearOldMaps rb env.conf q.addr len 2 s
    ∃ L' P, Does (LockExact s L) s L
      (match clear.1 with
        | none => (-ENOMEM, clear.2)
        | some k => brkCharge rb env clear.2 k q).2 L' P 0 := by
  have hspec := clearOldMaps_spec rb env.conf h hr
  dsimp only at hspec ⊢
  generalize clearOldMaps rb env.conf q.addr len 2 s = clear at hspec ⊢
  rcases hspec with ⟨hnone, L', hdoes⟩ | ⟨k, A, B, hsome, hk, hA, hB, hdoes⟩
  · rw [hnone]
    exact ⟨L', _, hdoes⟩
  · rw [hsome]
    rw [← hq] at hr hB
    obtain ⟨L', P, hd⟩ :=
      brkCharge_spec (G := LockExact clear.2 (A ++ B)) rb hdoes.wf hk hr hA hB hf
    have hseq := hdoes.seq hd
    rw [zero_add] at hseq
    exact ⟨L', P, hseq⟩

/-- A range that the fixed placement has accepted. -/
theorem brk_rangeOk {a : ℤ} (ha : a = addr) (hd : 4096 ∣ len) (hlen : len ≠ 0)
    (hle : a+len ≤ TASK_SIZE) (hoff : a % 4096 = 0) : RangeOk addr (addr+len) := by
  subst ha
  have ht : TASK_SIZE < 2^64 := by decide
  exact ⟨by omega, by omega, by omega, by omega⟩

/-- `do_brk` gives up before it touches anything, or the range it maps lies in the task's address
space. -/
theorem doBrk_cases (rb : Balance VmaId) (env : MmEnv) (s : MmSys) (addr request : ℕ) :
    let r := doBrk rb env s addr request
    let len := pageAlign request
    Quiet s r.2 ∨ ∃ t, Quiet s t ∧ t.mm = s.mm ∧ RangeOk addr (addr+len) ∧ addr+len ≤ TASK_SIZE ∧
      r = match (clearOldMaps rb env.conf addr len 2 t).1 with
        | none => (-ENOMEM, (clearOldMaps rb env.conf addr len 2 t).2)
        | some k => brkCharge rb env (clearOldMaps rb env.conf addr len 2 t).2 k
            ⟨addr, addr+len, brkFlags env s.mm, none, none, BitVec.ofNat 64 (addr/4096), 0, 0⟩ := by
  unfold doBrk
  dsimp only
  split
  next => exact .inl (Quiet.refl s)
  split
  next => exact .inl (Quiet.refl s)
  next hlen =>
    obtain ⟨hquiet, hmm, hres⟩ :=
      unmappedAreaOf_spec env s (env.cur s.mm).topdown none addr (pageAlign request) 0 MAP_FIXED
    rw [getUnmappedArea]
    have hgetArea :
        getArea env s.mm (env.cur s.mm).topdown none addr (pageAlign request) 0 MAP_FIXED =
          archArea env s.mm (env.cur s.mm).topdown addr (pageAlign request) MAP_FIXED := by
      unfold getArea
      exact if_neg (by decide)
    rw [hgetArea] at hres
    generalize unmappedAreaOf env s (env.cur s.mm).topdown none addr (pageAlign request) 0
      MAP_FIXED = area at hquiet hmm hres ⊢
    split
    next => exact .inl hquiet
    next hoff =>
      split
      next => exact .inl hquiet
      next =>
        rcases hres with herr | ⟨heq, hpos, hle, hok⟩
        · exact absurd (not_not.1 hoff) herr.offset
        · have haddr : area.1 = addr := heq.trans (archArea_fixed (heq ▸ hpos))
          have hr := brk_rangeOk haddr (pageAlign_dvd request) hlen hle hok
          rw [haddr] at hle
          exact .inr ⟨area.2, hquiet, hmm, hr, by exact_mod_cast hle, rfl⟩

theorem doBrk_spec (rb : Balance VmaId) (env : MmEnv) (addr request : ℕ) (h : Wf s.mm L) :
    ∃ L' P, Does (LockExact s L) s L (doBrk rb env s addr request).2 L' P 0 := by
  rcases doBrk_cases rb env s addr request with hquiet | ⟨t, hquiet, -, hr, -, heq⟩
  · exact ⟨L, _, (hquiet.same h).does⟩
  · have hsame := hquiet.same h
    obtain ⟨L', P, hdoes⟩ := brkClear_spec
      (q := ⟨addr, addr+pageAlign request, brkFlags env s.mm, none, none,
        BitVec.ofNat 64 (addr/4096), 0, 0⟩)
      rb env hsame.wf hr rfl rfl
    rw [heq]
    exact ⟨L', P, hsame.then_does hdoes⟩

/-- What `brk` does to the areas: nothing, one `do_munmap` or one `do_brk`. -/
theorem moveBrk_cases (rb : Balance VmaId) (env : MmEnv) (s : MmSys) (brk : ℕ) :
    let newbrk := pageAlign brk
    let oldbrk := pageAlign s.mm.brk
    (moveBrk rb env s brk).2 = s ∨
      (brk ≤ s.mm.brk ∧
        (moveBrk rb env s brk).2 = (doMunmap rb env.conf s newbrk (wsub oldbrk newbrk)).2) ∨
      findVmaIntersection s.mm oldbrk (wadd newbrk 4096) = none ∧
        (moveBrk rb env s brk).2 = (doBrk rb env s oldbrk (wsub newbrk oldbrk)).2 := by
  -- closed by `rfl` these equations would unfold the calls, and with them 2^64
  have hsnd : ∀ {α : Type} (a : α) (t : MmSys), (a, t).2 = t := fun _ _ => rfl
  unfold moveBrk
  dsimp only
  split
  next => exact .inl (hsnd _ _)
  split
  next hle => exact .inr (.inl ⟨hle, hsnd _ _⟩)
  split
  next => exact .inl (hsnd _ _)
  next hfree => exact .inr (.inr ⟨not_not.1 hfree, hsnd _ _⟩)

theorem moveBrk_spec (rb : Balance VmaId) (env : MmEnv) (brk : ℕ) (h : Wf s.mm L) :
    ∃ L' P, Does (LockExact s L) s L (moveBrk rb env s brk).2 L' P 0 := by
  rcases moveBrk_cases rb env s brk with heq | ⟨-, heq⟩ | ⟨-, heq⟩
  · rw [heq]
    exact ⟨L, _, (Same.refl h).does⟩
  · rw [heq]
    rcases doMunmap_spec rb env.conf _ _ h with ⟨-, L', hdoes⟩ | ⟨-, L', hdoes⟩
    · exact ⟨L', _, hdoes.mono fun _ => trivial⟩
    · exact ⟨L', _, hdoes.mono fun hl => hl.guard h.ordered⟩
  · rw [heq]
    exact doBrk_spec rb env _ _ h

end PtraceRemote
