import PtraceRemote.MmWf

/-! `__vma_adjust` keeps an address space well formed: one lemma for each way in which it moves a
boundary or removes an area that has been swallowed. -/
namespace PtraceRemote

open AugTree (Balance)

variable {mm : Mm} {rb : Balance VmaId} {L A B : List VmaId} {x n : VmaId} {core : VmaId → Vma}
  {start end_ : ℕ} {pgoff : BitVec 64}

@[simp] theorem fput_mm (s : MmSys) (f : Option FileId) : (s.fput f).mm = s.mm := by
  cases f <;> rfl

@[simp] theorem fput_committed (s : MmSys) (f : Option FileId) :
    (s.fput f).committed = s.committed := by
  cases f <;> rfl

def dropRefs (fCount : FileId → ℤ) (file : Option FileId) (k : ℤ) : FileId → ℤ :=
  fun f => if file = some f then fCount f-k else fCount f

theorem fput_fCount (s : MmSys) (file : Option FileId) :
    (s.fput file).fCount = dropRefs s.fCount file 1 := by
  funext f
  cases file with
  | none => rfl
  | some g =>
    by_cases h : f = g
    · subst h; simp [MmSys.fput, dropRefs]
    · simp [MmSys.fput, dropRefs, h, Ne.symm h]

theorem dropRefs_dropRefs (fCount : FileId → ℤ) (file : Option FileId) (j k : ℤ) :
    dropRefs (dropRefs fCount file j) file k = dropRefs fCount file (j+k) := by
  funext f
  simp only [dropRefs]
  split
  · ring
  · rfl

theorem dropRefs_zero (fCount : FileId → ℤ) (file : Option FileId) :
    dropRefs fCount file 0 = fCount := by
  funext f
  simp [dropRefs]

variable {s s' : MmSys} {L' : List VmaId} {core' : VmaId → Vma} {file : Option FileId}

structure Adjusted (s s' : MmSys) (L' : List VmaId) (core' : VmaId → Vma) (file : Option FileId)
    (k : ℤ) : Prop where
  wf : Wf s'.mm L'
  core : s'.mm.core = core'
  rest : s'.mm.rest = s.mm.rest
  fCount : s'.fCount = dropRefs s.fCount file k
  committed : s'.committed = s.committed

theorem Adjusted.of_quiet {s₀ : MmSys} {k : ℤ} (hq : Quiet s₀ s)
    (h : Adjusted s s' L' core' file k) :
    Adjusted s₀ s' L' core' file k :=
  ⟨h.wf, h.core, h.rest.trans hq.rest, by rw [h.fCount, hq.fCount], h.committed.trans hq.committed⟩

/-- One pass: `x` takes over the end of `n`, which goes away. -/
theorem rep_adjustRemove (h : Rep s.mm (A ++ x :: n :: B) {y | y = n})
    (hs : start = (s.mm.vma x).vmStart) :
    Rep (adjustRemove rb s x n start end_ pgoff (some x) file).mm (A ++ x :: B)
      {y | B.head? = some y} := by
  have h₁ : Rep (s.mm.setBounds x start end_ pgoff) ((A ++ [x]) ++ n :: B) (insert n ∅) := by
    rw [List.append_assoc]
    exact h.setBounds (fun y hy => .inl hy) (.inl hs)
      (.inr fun y hy => .inl (by simpa using hy.symm))
  have h₂ := @Rep.unlink _ rb _ _ _ _ h₁ (some x) (.inr (by simp))
  rw [Set.empty_union, List.append_assoc] at h₂
  rw [adjustRemove, fput_mm]
  exact h₂

theorem adjustRemove_core {prev : Option VmaId} :
    (adjustRemove rb s x n start end_ pgoff prev file).mm.core =
      Function.update s.mm.core x
        { s.mm.core x with vmStart := start, vmEnd := end_, vmPgoff := pgoff } := by
  rw [adjustRemove, fput_mm]
  exact core_setBounds

theorem adjustRemove_frame {prev : Option VmaId} :
    let s' := adjustRemove rb s x n start end_ pgoff prev file
    s'.mm.rest = s.mm.rest ∧ s'.mm.highestVmEnd = s.mm.highestVmEnd ∧
      s'.fCount = dropRefs s.fCount file 1 ∧ s'.committed = s.committed := by
  simp only [adjustRemove, fput_mm, fput_fCount, fput_committed]
  exact ⟨rfl, rfl, rfl, rfl⟩

/-- The order of the areas after `x` has swallowed the areas `M`. -/
theorem Ordered.swallow {M : List VmaId} (h : Ordered core (A ++ x :: (M ++ B)))
    (hx : x ∉ A ∧ x ∉ M ++ B) (hr : RangeOk start end_) (hs : (core x).vmStart ≤ start)
    (he : ∀ b ∈ B, end_ ≤ (core b).vmStart) :
    Ordered
      (Function.update core x { core x with vmStart := start, vmEnd := end_, vmPgoff := pgoff })
      (A ++ x :: B) := by
  have hsub : (A ++ x :: B).Sublist (A ++ x :: (M ++ B)) :=
    (List.Sublist.refl A).append ((List.sublist_append_right M B).cons_cons x)
  refine (h.sublist hsub).update ⟨hx.1, fun hb => hx.2 (by simp [hb])⟩ hr (fun a ha => ?_) he
  exact ((ordered_append.1 h).2.2 a ha x (by simp)).trans hs

theorem adjustMode_some {expand : Option VmaId} (hn : s.mm.vmNext x = some n) :
    adjustMode s.mm x end_ none expand =
      if (s.mm.core n).vmEnd ≤ end_ then
        if expand = some n then .removeSelf n
        else if (s.mm.core n).vmEnd < end_ then .removeTwo n else .removeNext n
      else if (s.mm.core n).vmStart < end_ then
        .shift n (((end_-(s.mm.core n).vmStart)/4096 : ℕ) : ℤ)
      else if end_ < (s.mm.core x).vmEnd then .shift n (-(((s.mm.core x).vmEnd-end_)/4096 : ℕ) : ℤ)
      else .keep := by
  unfold adjustMode
  rw [hn]; rfl

/-- Bounds that grow into free space, or shrink at the start: cases 2 and 3 of `vma_merge`. -/
theorem vmaAdjust_keep (rb : Balance VmaId) (pgoff : BitVec 64) (expand : Option VmaId)
    (file : Option FileId) (h : Wf s.mm (A ++ x :: B)) (hr : RangeOk start end_)
    (hA : ∀ a ∈ A, (s.mm.core a).vmEnd ≤ start) (hB : ∀ b ∈ B, end_ ≤ (s.mm.core b).vmStart)
    (he : (s.mm.core x).vmEnd ≤ end_) :
    (vmaAdjust rb s x start end_ pgoff none expand).1 = 0 ∧
      Adjusted s (vmaAdjust rb s x start end_ pgoff none expand).2 (A ++ x :: B)
        (Function.update s.mm.core x
          { s.mm.core x with vmStart := start, vmEnd := end_, vmPgoff := pgoff }) file 0 := by
  have hmode : adjustMode s.mm x end_ none expand = .keep := by
    cases B with
    | nil =>
      unfold adjustMode
      rw [h.rep.next_eq]; rfl
    | cons b bs =>
      have h₁ := hB b (by simp)
      have h₂ := (h.ordered.area b (by simp)).lt
      rw [adjustMode_some h.rep.next_eq, if_neg (by omega), if_neg (by omega), if_neg (by omega)]
  obtain ⟨hwf, hcore, hrest⟩ := Wf.keep rb pgoff h hr hA hB
  unfold vmaAdjust
  rw [hmode]
  exact ⟨rfl, hwf, hcore, hrest, (dropRefs_zero _ _).symm, rfl⟩

theorem topEnd_swallow {M : List VmaId} {e : ℕ} (hx : x ∉ B) (hM : M ++ B ≠ [])
    (he : B = [] → e = topEnd core M) :
    topEnd (Function.update core x { core x with vmStart := start, vmEnd := e, vmPgoff := pgoff })
      (A ++ x :: B) = topEnd core (A ++ x :: (M ++ B)) := by
  rw [topEnd_append_cons hM]
  rcases List.eq_nil_or_concat' B with rfl | ⟨B', b, rfl⟩
  · rw [topEnd, List.getLast?_concat, List.append_nil, ← he rfl]
    simp
  · have hb : b ≠ x := fun he => hx (by simp [he])
    rw [topEnd_append_cons (by simp), topEnd, topEnd, ← List.append_assoc, List.getLast?_concat,
      List.getLast?_concat]
    simp [hb]

/-- `x` takes over the range of its successor `n`, whose gap may be stale. -/
theorem adjusted_swallow (rb : Balance VmaId) (pgoff : BitVec 64) (file : Option FileId)
    (hrep : Rep s.mm (A ++ x :: n :: B) {y | y = n}) (hord : Ordered s.mm.core (A ++ x :: n :: B))
    (hhigh : s.mm.highestVmEnd = topEnd s.mm.core (A ++ x :: n :: B))
    (hs : start = (s.mm.core x).vmStart) :
    Adjusted s (adjustSwallow rb s x n start pgoff file) (A ++ x :: B)
      (Function.update s.mm.core x
        { s.mm.core x with vmStart := start, vmEnd := (s.mm.core n).vmEnd, vmPgoff := pgoff })
          file 1 := by
  set s₁ := adjustRemove rb s x n start (s.mm.core n).vmEnd pgoff (some x) file with hs₁
  have hrep₁ : Rep s₁.mm (A ++ x :: B) {y | B.head? = some y} := rep_adjustRemove hrep hs
  have hcore : s₁.mm.core = Function.update s.mm.core x _ := adjustRemove_core
  obtain ⟨h₁, h₂, h₃, h₄⟩ : s₁.mm.rest = s.mm.rest ∧ s₁.mm.highestVmEnd = s.mm.highestVmEnd ∧
      s₁.fCount = dropRefs s.fCount file 1 ∧ s₁.committed = s.committed := adjustRemove_frame
  have hfix : Rep (gapUpdateNext s₁.mm (s₁.mm.vmNext x)) (A ++ x :: B) ∅ := by
    rw [hrep₁.next_eq]
    have := @Rep.gapUpdateNext s₁.mm (A ++ [x]) B (by rwa [List.append_assoc])
    rwa [List.append_assoc] at this
  obtain ⟨hx, hnB, -⟩ := ordered_cons.1 (ordered_append.1 hord).2.1
  obtain ⟨hn, -, hnb⟩ := ordered_cons.1 hnB
  have hxn := (ordered_append.1 hord).2.1.sorted
  have hle : (s.mm.core x).vmEnd ≤ (s.mm.core n).vmStart := (List.pairwise_cons.1 hxn).1 n (by simp)
  have hr : RangeOk start (s.mm.core n).vmEnd :=
    ⟨by have := hx.lt; have := hn.lt; omega, hs ▸ hx.start_dvd, hn.end_dvd, hn.end_lt⟩
  refine ⟨⟨hfix, ?_, ?_⟩, hcore, h₁, h₃, h₄⟩
  · show Ordered s₁.mm.core _
    rw [hcore]
    exact Ordered.swallow (M := [n]) hord hrep.notMem hr hs.ge hnb
  · show s₁.mm.highestVmEnd = topEnd s₁.mm.core _
    rw [h₂, hhigh, hcore]
    exact (topEnd_swallow (M := [n]) (fun hb => hrep.notMem.2 (by simp [hb])) (by simp)
      fun _ => rfl).symm

/-- `x` swallows its successor: cases 1 and 7 of `vma_merge`. -/
theorem vmaAdjust_removeNext (rb : Balance VmaId) (pgoff : BitVec 64)
    (h : Wf s.mm (A ++ x :: n :: B)) :
    let r := vmaAdjust rb s x (s.mm.core x).vmStart (s.mm.core n).vmEnd pgoff none (some x)
    (r.1 ≠ 0 ∧ Quiet s r.2) ∨ r.1 = 0 ∧ Adjusted s r.2 (A ++ x :: B)
      (Function.update s.mm.core x
        { s.mm.core x with vmEnd := (s.mm.core n).vmEnd, vmPgoff := pgoff })
      (s.mm.core x).vmFile 1 := by
  have hxn : x ≠ n := fun he => h.rep.notMem.2 (by simp [he])
  have hmode : adjustMode s.mm x (s.mm.core n).vmEnd none (some x) = .removeNext n := by
    rw [adjustMode_some h.rep.next_eq, if_pos le_rfl, if_neg (by simpa using hxn),
      if_neg (lt_irrefl _)]
  dsimp only
  unfold vmaAdjust
  rw [hmode]
  dsimp only
  have hq := importAnon_quiet s (some n) x
  split
  next he => exact .inl ⟨he, hq⟩
  next he =>
    have hw := hq.wf h
    have := adjusted_swallow rb pgoff (s.mm.core x).vmFile
      (hw.rep.mono (Set.empty_subset _)) hw.ordered hw.highest rfl
    rw [hq.core] at this
    exact .inr ⟨rfl, this.of_quiet hq⟩

/-- `x` swallows its two successors: case 6 of `vma_merge`. -/
theorem vmaAdjust_removeTwo (rb : Balance VmaId) (pgoff : BitVec 64) {m : VmaId}
    (h : Wf s.mm (A ++ x :: n :: m :: B)) :
    let r := vmaAdjust rb s x (s.mm.core x).vmStart (s.mm.core m).vmEnd pgoff none (some x)
    (r.1 ≠ 0 ∧ Quiet s r.2) ∨ r.1 = 0 ∧ Adjusted s r.2 (A ++ x :: B)
      (Function.update s.mm.core x
        { s.mm.core x with vmEnd := (s.mm.core m).vmEnd, vmPgoff := pgoff })
      (s.mm.core x).vmFile 2 := by
  have hxn : x ≠ n := fun he => h.rep.notMem.2 (by simp [he])
  have hxm : m ≠ x := fun he => h.rep.notMem.2 (by simp [he])
  have hlt : (s.mm.core n).vmEnd < (s.mm.core m).vmEnd := by
    have hnm :=
      (ordered_cons.1 (ordered_cons.1 (ordered_append.1 h.ordered).2.1).2.1).2.2 m (by simp)
    have := (h.ordered.area m (by simp)).lt
    omega
  have hmode : adjustMode s.mm x (s.mm.core m).vmEnd none (some x) = .removeTwo n := by
    rw [adjustMode_some h.rep.next_eq, if_pos hlt.le, if_neg (by simpa using hxn), if_pos hlt]
  dsimp only
  unfold vmaAdjust
  rw [hmode]
  dsimp only
  set e := if (s.mm.vma n).anonVma = none then s.mm.vmNext n else some n
  have hq := importAnon_quiet s e x
  set r := importAnon s e x
  split
  next he => exact .inl ⟨he, hq⟩
  next he =>
    refine .inr ?_
    have hw := hq.wf h
    -- the first pass leaves the gap of the second victim stale
    set s₁ := adjustRemove rb r.2 x n (s.mm.core x).vmStart (r.2.mm.core n).vmEnd pgoff (some x)
      (s.mm.core x).vmFile with hs₁
    have hstart : (s.mm.core x).vmStart = (r.2.mm.core x).vmStart := by rw [hq.core]
    have hrep₁ : Rep s₁.mm (A ++ x :: m :: B) {y | y = m} :=
      (rep_adjustRemove (hw.rep.mono (Set.empty_subset _)) hstart).mono fun y hy => by
        simpa using hy.symm
    have hcore : s₁.mm.core = Function.update r.2.mm.core x _ := adjustRemove_core
    obtain ⟨h₁, h₂, h₃, h₄⟩ : s₁.mm.rest = r.2.mm.rest ∧ s₁.mm.highestVmEnd = r.2.mm.highestVmEnd ∧
        s₁.fCount = dropRefs r.2.fCount (s.mm.core x).vmFile 1 ∧ s₁.committed = r.2.committed :=
      adjustRemove_frame
    obtain ⟨hx, hnB, hxall⟩ := ordered_cons.1 (ordered_append.1 hw.ordered).2.1
    obtain ⟨hn, -, hnb⟩ := ordered_cons.1 hnB
    have hr : RangeOk (s.mm.core x).vmStart (r.2.mm.core n).vmEnd := by
      have h₁ := hx.lt
      have h₂ := hn.lt
      have h₃ := hxall n (by simp)
      exact ⟨by rw [hstart]; omega, hstart ▸ hx.start_dvd, hn.end_dvd, hn.end_lt⟩
    have hord₁ : Ordered s₁.mm.core (A ++ x :: m :: B) := by
      rw [hcore]
      exact Ordered.swallow (M := [n]) hw.ordered hw.rep.notMem hr hstart.ge hnb
    have hhigh₁ : s₁.mm.highestVmEnd = topEnd s₁.mm.core (A ++ x :: m :: B) := by
      rw [h₂, hw.highest, hcore]
      exact (topEnd_swallow (M := [n])
        (fun hb => hw.rep.notMem.2 (List.mem_cons_of_mem _ hb)) (by simp) nofun).symm
    have hsw := adjusted_swallow rb pgoff (s.mm.core x).vmFile hrep₁ hord₁ hhigh₁
      (show (s.mm.core x).vmStart = _ by rw [hcore, Function.update_self])
    have hagain : adjustAgain rb s₁ x (s.mm.core x).vmStart pgoff (s.mm.core x).vmFile =
        adjustSwallow rb s₁ x m (s.mm.core x).vmStart pgoff (s.mm.core x).vmFile := by
      unfold adjustAgain
      rw [hrep₁.next_eq]; rfl
    rw [← hagain] at hsw
    refine ⟨rfl, Adjusted.of_quiet hq ⟨hsw.wf, ?_, hsw.rest.trans h₁, ?_, hsw.committed.trans h₄⟩⟩
    · refine hsw.core.trans ?_
      rw [hcore, Function.update_idem, Function.update_self, Function.update_of_ne hxm, hq.core]
    · refine hsw.fCount.trans ?_
      rw [h₃, dropRefs_dropRefs]; rfl

/-- `x` is swallowed by its successor `n`, which starts earlier from then on: case 8. -/
theorem vmaAdjust_removeSelf (rb : Balance VmaId) (pgoff : BitVec 64)
    (h : Wf s.mm (A ++ x :: n :: B)) (hs : start = (s.mm.core x).vmStart) :
    let r := vmaAdjust rb s x start (s.mm.core n).vmEnd pgoff none (some n)
    (r.1 ≠ 0 ∧ Quiet s r.2) ∨ r.1 = 0 ∧ Adjusted s r.2 (A ++ n :: B)
      (Function.update s.mm.core n { s.mm.core n with vmStart := start, vmPgoff := pgoff })
      (s.mm.core x).vmFile 1 := by
  have hmode : adjustMode s.mm x (s.mm.core n).vmEnd none (some n) = .removeSelf n := by
    rw [adjustMode_some h.rep.next_eq, if_pos le_rfl, if_pos rfl]
  dsimp only
  unfold vmaAdjust
  rw [hmode]
  dsimp only
  have hq := importAnon_quiet s (some x) n
  set r := importAnon s (some x) n
  split
  next he => exact .inl ⟨he, hq⟩
  next he =>
    refine .inr ⟨rfl, Adjusted.of_quiet hq ?_⟩
    have hw := hq.wf h
    have hend : (s.mm.core n).vmEnd = (r.2.mm.core n).vmEnd := by rw [hq.core]
    rw [hend]
    set s₁ :=
      adjustRemove rb r.2 n x start (r.2.mm.core n).vmEnd pgoff none (s.mm.core x).vmFile with hs₁
    have hnot : n ∉ A ∧ n ∉ B := by
      have : Rep r.2.mm ((A ++ [x]) ++ n :: B) ∅ := by rw [List.append_assoc]; exact hw.rep
      exact ⟨fun hA => this.notMem.1 (by simp [hA]), this.notMem.2⟩
    have hrep₁ : Rep s₁.mm (A ++ n :: B) (insert n ∅) := by
      have h₀ : Rep r.2.mm ((A ++ [x]) ++ n :: B) ∅ := by rw [List.append_assoc]; exact hw.rep
      have h₁ : Rep (r.2.mm.setBounds n start (r.2.mm.core n).vmEnd pgoff) ((A ++ [x]) ++ n :: B)
          (insert x {n}) := h₀.setBounds (Set.empty_subset _) (.inr (by simp)) (.inl rfl)
      rw [List.append_assoc] at h₁
      have h₂ := @Rep.unlink _ rb _ _ _ _ h₁ none (.inl rfl)
      rw [hs₁, adjustRemove, fput_mm]
      exact h₂.mono fun y hy => hy.elim .inl fun hy => .inl (by simpa using hy.symm)
    have hcore : s₁.mm.core = Function.update r.2.mm.core n _ := adjustRemove_core
    obtain ⟨h₁, h₂, h₃, h₄⟩ : s₁.mm.rest = r.2.mm.rest ∧ s₁.mm.highestVmEnd = r.2.mm.highestVmEnd ∧
        s₁.fCount = dropRefs r.2.fCount (s.mm.core x).vmFile 1 ∧ s₁.committed = r.2.committed :=
      adjustRemove_frame
    obtain ⟨hx, hnB, hxall⟩ := ordered_cons.1 (ordered_append.1 hw.ordered).2.1
    obtain ⟨hn, -, hnb⟩ := ordered_cons.1 hnB
    have hstart : start = (r.2.mm.core x).vmStart := by rw [hs, hq.core]
    have hr : RangeOk start (r.2.mm.core n).vmEnd := by
      have h₁ := hx.lt
      have h₂ := hn.lt
      have h₃ := hxall n (by simp)
      exact ⟨by omega, hstart ▸ hx.start_dvd, hn.end_dvd, hn.end_lt⟩
    refine ⟨⟨hrep₁.gapUpdate (by simp), ?_, ?_⟩, ?_, h₁, h₃, h₄⟩
    · show Ordered s₁.mm.core _
      rw [hcore]
      refine Ordered.update (hw.ordered.sublist ?_) hnot hr (fun a ha => ?_) hnb
      · exact (List.Sublist.refl A).append (List.sublist_cons_self x (n :: B))
      · rw [hstart]
        exact (ordered_append.1 hw.ordered).2.2 a ha x (by simp)
    · show s₁.mm.highestVmEnd = topEnd s₁.mm.core _
      rw [h₂, hw.highest, hcore, topEnd_append_cons (by simp), topEnd_append (by simp)]
      refine (topEnd_congr fun y _ => ?_).symm
      by_cases hy : y = n
      · rw [hy, Function.update_self]
      · rw [Function.update_of_ne hy]
    · show s₁.mm.core = _
      rw [hcore, hq.core]

theorem wsub_self (a : ℕ) : wsub a a = 0 := by
  unfold wsub
  rw [Nat.add_sub_cancel_left, Nat.mod_self]

def shifted (core : VmaId → Vma) (x n : VmaId) (end_ : ℕ) : VmaId → Vma :=
  Function.update (Function.update core x { core x with vmEnd := end_ }) n
    { core n with
      vmStart := end_
      vmPgoff := (core n).vmPgoff+BitVec.ofInt 64 (((end_ : ℤ)-(core n).vmStart)/4096) }

/-- The boundary between `x` and its successor moves: cases 4 and 5 of `vma_merge`. -/
theorem adjusted_shift (file : Option FileId) (pages : ℤ) (h : Wf s.mm (A ++ x :: n :: B))
    (hadj : (s.mm.core x).vmEnd = (s.mm.core n).vmStart) (hx : RangeOk (s.mm.core x).vmStart end_)
    (hn : RangeOk end_ (s.mm.core n).vmEnd) (hp : pages*4096 = (end_ : ℤ)-(s.mm.core n).vmStart) :
    Adjusted s
      (s.setMm (adjustShift s.mm x n (s.mm.core x).vmStart end_ (s.mm.core x).vmPgoff pages))
      (A ++ x :: n :: B) (shifted s.mm.core x n end_) file 0 := by
  have hxn : n ≠ x := fun he => h.rep.notMem.2 (by simp [he])
  have hpages : pages = ((end_ : ℤ)-(s.mm.core n).vmStart)/4096 := by omega
  have hstart : (((s.mm.core n).vmStart : ℤ)+pages*4096).toNat = end_ := by omega
  have hmm : adjustShift s.mm x n (s.mm.core x).vmStart end_ (s.mm.core x).vmPgoff pages =
      (s.mm.setBounds x (s.mm.core x).vmStart end_ (s.mm.core x).vmPgoff).modVma n fun v =>
        { v with vmStart := ((v.vmStart : ℤ)+pages*4096).toNat,
                 vmPgoff := v.vmPgoff+BitVec.ofInt 64 pages } := by
    unfold adjustShift
    exact if_neg (not_not.2 rfl)
  rw [hmm]
  set mm₁ :=
    (s.mm.setBounds x (s.mm.core x).vmStart end_ (s.mm.core x).vmPgoff).modVma n _ with hmm₁
  have hcore : mm₁.core = shifted s.mm.core x n end_ := by
    rw [hmm₁, core_modVma, core_setBounds, shifted]
    have hvn : (s.mm.setBounds x (s.mm.core x).vmStart end_ (s.mm.core x).vmPgoff).vma n =
        s.mm.vma n :=
      Function.update_of_ne hxn _ _
    rw [hvn]
    congr 1
    show ({ s.mm.vma n with
      vmStart := (((s.mm.core n).vmStart : ℤ)+pages*4096).toNat
      vmPgoff := (s.mm.vma n).vmPgoff+BitVec.ofInt 64 pages } : Vma).core = _
    rw [hstart, hpages]
    rfl
  have hcx : (shifted s.mm.core x n end_) x = { s.mm.core x with vmEnd := end_ } := by
    rw [shifted, Function.update_of_ne hxn.symm, Function.update_self]
  have hcn : ((shifted s.mm.core x n end_) n).vmStart = end_ ∧
      ((shifted s.mm.core x n end_) n).vmEnd = (s.mm.core n).vmEnd := by
    rw [shifted, Function.update_self]; exact ⟨rfl, rfl⟩
  have hco : ∀ y, y ≠ x → y ≠ n → shifted s.mm.core x n end_ y = s.mm.core y := fun y hyx hyn => by
    rw [shifted, Function.update_of_ne hyn, Function.update_of_ne hyx]
  have hnA : n ∉ A ∧ n ∉ B := by
    have : Rep s.mm ((A ++ [x]) ++ n :: B) ∅ := by rw [List.append_assoc]; exact h.rep
    exact ⟨fun hA => this.notMem.1 (by simp [hA]), this.notMem.2⟩
  have hxA : x ∉ A ∧ x ∉ B := ⟨h.rep.notMem.1, fun hB => h.rep.notMem.2 (by simp [hB])⟩
  have hs' : ∀ y, y ≠ n → (shifted s.mm.core x n end_ y).vmStart = (s.mm.core y).vmStart := by
    intro y hy
    by_cases hyx : y = x
    · rw [hyx, hcx]
    · rw [hco y hyx hy]
  have he' : ∀ y, y ≠ x → (shifted s.mm.core x n end_ y).vmEnd = (s.mm.core y).vmEnd := by
    intro y hy
    by_cases hyn : y = n
    · rw [hyn, hcn.2]
    · rw [hco y hy hyn]
  refine ⟨⟨?_, ?_, ?_⟩, hcore, rfl, (dropRefs_zero _ _).symm, rfl⟩
  · -- the gap of `n` is empty before and after, all other gaps keep both their ends
    refine h.rep.reshape mm₁.vma fun y hy hyS => ⟨hyS, ?_⟩
    have hv : ∀ z, (mm₁.vma z).vmStart = (shifted s.mm.core x n end_ z).vmStart ∧
        (mm₁.vma z).vmEnd = (shifted s.mm.core x n end_ z).vmEnd := fun z => by
      rw [← hcore]; exact ⟨rfl, rfl⟩
    by_cases hyn : y = n
    · have hprev : s.mm.vmPrev n = some x := by
        have : Rep s.mm ((A ++ [x]) ++ n :: B) ∅ := by rw [List.append_assoc]; exact h.rep
        rw [this.prev_eq, List.getLast?_concat]
      unfold Mm.ownGap
      dsimp only
      rw [hyn, hprev]
      show wsub (mm₁.vma n).vmStart (mm₁.vma x).vmEnd =
        wsub (s.mm.core n).vmStart (s.mm.core x).vmEnd
      rw [(hv n).1, (hv x).2, hcn.1, hcx, hadj, wsub_self, wsub_self]
    · unfold Mm.ownGap
      dsimp only
      cases hp : s.mm.vmPrev y with
      | none => exact (hv y).1.trans (hs' y hyn)
      | some p =>
        have hpx : p ≠ x := fun he => hyn (by
          have := h.rep.seg.head_of_prev h.rep.nodup hy (he ▸ hp)
          simpa using this.symm)
        exact congrArg₂ wsub ((hv y).1.trans (hs' y hyn)) ((hv p).2.trans (he' p hpx))
  · show Ordered mm₁.core _
    obtain ⟨hA, hxB, hAx⟩ := ordered_append.1 h.ordered
    obtain ⟨-, hnB, -⟩ := ordered_cons.1 hxB
    obtain ⟨-, hB, hnb⟩ := ordered_cons.1 hnB
    have hcA : ∀ a ∈ A, shifted s.mm.core x n end_ a = s.mm.core a := fun a ha =>
      hco a (fun he => hxA.1 (he ▸ ha)) fun he => hnA.1 (he ▸ ha)
    have hcB : ∀ b ∈ B, shifted s.mm.core x n end_ b = s.mm.core b := fun b hb =>
      hco b (fun he => hxA.2 (he ▸ hb)) fun he => hnA.2 (he ▸ hb)
    have hnb' : ∀ b ∈ B, (s.mm.core n).vmEnd ≤ (shifted s.mm.core x n end_ b).vmStart :=
      fun b hb => by rw [hcB b hb]; exact hnb b hb
    rw [hcore]
    refine ordered_append.2 ⟨hA.congr hcA, ordered_cons.2 ⟨by rw [hcx]; exact hx, ordered_cons.2
      ⟨?_, hB.congr hcB, fun b hb => hcn.2 ▸ hnb' b hb⟩, fun b hb => ?_⟩, fun a ha b hb => ?_⟩
    · show RangeOk _ _
      rw [hcn.1, hcn.2]; exact hn
    · rw [hcx]
      rcases List.mem_cons.1 hb with rfl | hb
      · exact hcn.1.ge
      · exact hn.lt.le.trans (hnb' b hb)
    · rw [hcA a ha]
      have hax := hAx a ha x (by simp)
      have hxlt := hx.lt
      rcases List.mem_cons.1 hb with rfl | hb
      · rwa [hcx]
      rcases List.mem_cons.1 hb with rfl | hb
      · rw [hcn.1]; omega
      · rw [hcB b hb]; exact hAx a ha b (by simp [hb])
  · show s.mm.highestVmEnd = topEnd mm₁.core _
    rw [hcore, h.highest, topEnd_append_cons (by simp), topEnd_append_cons (by simp)]
    exact (topEnd_congr fun y hy => he' y fun hyx => h.rep.notMem.2 (hyx ▸ hy)).symm

/-- The boundary moves down into `x` or up into `n`. -/
theorem vmaAdjust_shift (rb : Balance VmaId) (expand : Option VmaId) (file : Option FileId)
    (h : Wf s.mm (A ++ x :: n :: B)) (hadj : (s.mm.core x).vmEnd = (s.mm.core n).vmStart)
    (hx : RangeOk (s.mm.core x).vmStart end_) (hn : RangeOk end_ (s.mm.core n).vmEnd)
    (hne : end_ ≠ (s.mm.core x).vmEnd) :
    let r := vmaAdjust rb s x (s.mm.core x).vmStart end_ (s.mm.core x).vmPgoff none expand
    (r.1 ≠ 0 ∧ Quiet s r.2) ∨
      r.1 = 0 ∧ Adjusted s r.2 (A ++ x :: n :: B) (shifted s.mm.core x n end_) file 0 := by
  have hdn := (h.ordered.area n (by simp)).start_dvd
  obtain ⟨pages, hmode, hp⟩ : ∃ pages, adjustMode s.mm x end_ none expand = .shift n pages ∧
      pages*4096 = (end_ : ℤ)-(s.mm.core n).vmStart := by
    have hlt := hn.lt
    have hde := hn.start_dvd
    rw [adjustMode_some h.rep.next_eq, if_neg (by omega)]
    by_cases hup : (s.mm.core n).vmStart < end_
    · exact ⟨_, if_pos hup, by omega⟩
    · refine ⟨_, (if_neg hup).trans (if_pos (by omega)), ?_⟩
      rw [hadj]
      omega
  dsimp only
  unfold vmaAdjust
  rw [hmode]
  dsimp only
  set r := if 0 < pages then importAnon s (some n) x else importAnon s (some x) n with hr
  have hq : Quiet s r.2 := by
    rw [hr]; split <;> exact importAnon_quiet _ _ _
  split
  next he => exact .inl ⟨he, hq⟩
  next he =>
    have hc := hq.core
    have := adjusted_shift file pages (hq.wf h) (by rwa [hc]) (by rwa [hc]) (by rwa [hc])
      (by rwa [hc])
    rw [hc] at this
    exact .inr ⟨rfl, this.of_quiet hq⟩

end PtraceRemote
