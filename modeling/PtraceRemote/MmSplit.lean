import PtraceRemote.MmLedger

/-! Splitting an area leaves the pages and the books as they are, whether it succeeds or fails. -/
namespace PtraceRemote

open AugTree (Balance)

variable {s s' s'' : MmSys} {rb : Balance VmaId} {L A B : List VmaId} {x n : VmaId} {addr : ℕ}

structure Same (s s' : MmSys) (L : List VmaId) : Prop where
  wf : Wf s'.mm L
  core : ∀ y ∈ L, s'.mm.core y = s.mm.core y
  rest : s'.mm.rest = s.mm.rest
  fCount : s'.fCount = s.fCount
  committed : s'.committed = s.committed

theorem Same.refl (h : Wf s.mm L) : Same s s L := ⟨h, fun _ _ => rfl, rfl, rfl, rfl⟩

theorem Same.trans (h : Same s s' L) (h' : Same s' s'' L) : Same s s'' L :=
  ⟨h'.wf, fun y hy => (h'.core y hy).trans (h.core y hy), h'.rest.trans h.rest,
    h'.fCount.trans h.fCount, h'.committed.trans h.committed⟩

theorem Quiet.same (hq : Quiet s s') (h : Wf s.mm L) : Same s s' L :=
  ⟨hq.wf h, fun y _ => congrFun hq.core y, hq.rest, hq.fCount, hq.committed⟩

/-- A fresh area that is not linked yet does not show. -/
theorem same_allocVma (h : Wf s.mm L) (v : Vma) : Same s (allocVma s v) L := by
  have hne : ∀ y ∈ L, y ≠ s.mm.nextId := fun y hy => (h.rep.fresh y hy).ne
  have hvma : ∀ y ∈ L, (allocVma s v).mm.vma y = s.mm.vma y := fun y hy =>
    Function.update_of_ne (hne y hy) _ _
  have hcore : ∀ y ∈ L, (allocVma s v).mm.core y = s.mm.core y := fun y hy =>
    congrArg Vma.core (hvma y hy)
  refine ⟨⟨?_, h.ordered.congr hcore, h.highest.trans (topEnd_congr fun y hy => ?_).symm⟩, hcore,
    rfl, rfl, rfl⟩
  · have hrep : Rep { s.mm with vma := (allocVma s v).mm.vma } L ∅ := by
      refine h.rep.reshape _ fun y hy hyS => ⟨hyS, ?_⟩
      obtain ⟨L₁, L₂, rfl⟩ := List.append_of_mem hy
      unfold Mm.ownGap
      dsimp only
      cases hp : s.mm.vmPrev y with
      | none => exact congrArg Vma.vmStart (hvma y hy)
      | some p =>
        have hpm : p ∈ L₁ := List.mem_of_getLast? (h.rep.prev_eq.symm.trans hp)
        exact congrArg₂ wsub (congrArg Vma.vmStart (hvma y hy))
          (congrArg Vma.vmEnd (hvma p (by simp [hpm])))
    exact ⟨hrep.head, hrep.seg, hrep.nodup, hrep.inorder, hrep.gaps, hrep.count,
      fun y hy => (hrep.fresh y hy).trans (Nat.lt_succ_self _)⟩
  · rw [hcore y hy]

def Vma.lower (v : Vma) (addr : ℕ) : Vma := { v with vmEnd := addr }

def Vma.upper (v : Vma) (addr : ℕ) : Vma :=
  { v with vmStart := addr, vmPgoff := v.vmPgoff+BitVec.ofNat 64 ((addr-v.vmStart)/4096) }

theorem weight_lower_upper {M : Type*} [AddCommMonoid M] {φ : ℕ → PageInfo → M} {v : Vma}
    (hv : AreaOk v) (hs : v.vmStart ≤ addr) (he : addr ≤ v.vmEnd) (hd : 4096 ∣ addr) :
    (v.lower addr).weight φ + (v.upper addr).weight φ = v.weight φ :=
  (blockSum_split hs he hv.start_dvd hd hv.end_dvd).symm

def halves (x n : VmaId) (newBelow : Bool) : List VmaId := if newBelow then [n, x] else [x, n]

structure SplitAt (s s' : MmSys) (A : List VmaId) (x : VmaId) (B : List VmaId) (addr : ℕ)
    (newBelow : Bool) (n : VmaId) : Prop where
  wf : Wf s'.mm (A ++ (halves x n newBelow ++ B))
  fresh : n ∉ A ++ x :: B
  kept : s'.mm.core x = if newBelow then (s.mm.core x).upper addr else (s.mm.core x).lower addr
  new : s'.mm.core n = if newBelow then (s.mm.core x).lower addr else (s.mm.core x).upper addr
  other : ∀ y ∈ A ++ B, s'.mm.core y = s.mm.core y
  rest : s'.mm.rest = s.mm.rest
  fCount : s'.fCount = dropRefs s.fCount (s.mm.core x).vmFile (-1)
  committed : s'.committed = s.committed
  anon : ∀ y ∈ A ++ x :: B, (s'.mm.vma y).anonVma = (s.mm.vma y).anonVma
  anon_new : (s'.mm.vma n).anonVma = (s.mm.vma x).anonVma

theorem getFile_mm (s : MmSys) (f : Option FileId) : (s.getFile f).mm = s.mm := by
  cases f <;> rfl

theorem getFile_committed (s : MmSys) (f : Option FileId) :
    (s.getFile f).committed = s.committed := by
  cases f <;> rfl

theorem getFile_fCount (s : MmSys) (file : Option FileId) :
    (s.getFile file).fCount = dropRefs s.fCount file (-1) := by
  funext f
  cases file with
  | none => rfl
  | some g =>
    by_cases h : f = g
    · subst h; simp [MmSys.getFile, dropRefs]
    · simp [MmSys.getFile, dropRefs, h, Ne.symm h]

/-- Giving `x` the lower half and linking the upper one behind it. -/
theorem insert_above (h : Wf s.mm (A ++ x :: B)) (hn : n ∉ A ++ x :: B) (hf : n < s.mm.nextId)
    (hs : (s.mm.core x).vmStart < addr) (he : addr < (s.mm.core x).vmEnd) (hd : 4096 ∣ addr)
    (hnew : s.mm.core n = (s.mm.core x).upper addr) :
    let mm' := adjustKeep rb s.mm x (s.mm.core x).vmStart addr (s.mm.core x).vmPgoff (some n)
    Wf mm' (A ++ x :: n :: B) ∧ mm'.core = Function.update s.mm.core x ((s.mm.core x).lower addr) ∧
      mm'.rest = s.mm.rest := by
  have hx := h.ordered.area x (by simp)
  obtain ⟨-, hxB, hAx⟩ := ordered_append.1 h.ordered
  obtain ⟨-, -, hxb⟩ := ordered_cons.1 hxB
  set mm₀ := s.mm.setBounds x (s.mm.core x).vmStart addr (s.mm.core x).vmPgoff with hmm₀
  have hcore : mm₀.core = Function.update s.mm.core x ((s.mm.core x).lower addr) := core_setBounds
  have hnx : n ≠ x := fun hnx => hn (by simp [hnx])
  have hcn : mm₀.core n = (s.mm.core x).upper addr := by rw [hcore, Function.update_of_ne hnx, hnew]
  have hco : ∀ y, y ≠ x → mm₀.core y = s.mm.core y := fun y hy => by
    rw [hcore, Function.update_of_ne hy]
  have hrep : Rep mm₀ ((A ++ [x]) ++ B) {y | B.head? = some y} := by
    rw [List.append_assoc]
    exact h.rep.setBounds (Set.empty_subset _) (.inl rfl) (.inr fun y hy => hy)
  have hord : Ordered mm₀.core ((A ++ [x]) ++ B) := by
    rw [List.append_assoc, hcore]
    refine h.ordered.update h.rep.notMem ⟨hs, hx.start_dvd, hd, he.trans hx.end_lt⟩ (fun a ha => ?_)
      fun b hb => ?_
    · exact hAx a ha x (by simp)
    · exact he.le.trans (hxb b hb)
  have hhigh : B ≠ [] → mm₀.highestVmEnd = topEnd mm₀.core B := fun hB => by
    rw [show mm₀.highestVmEnd = s.mm.highestVmEnd from rfl, h.highest, topEnd_append_cons hB]
    exact (topEnd_congr fun y hy => by rw [hco y fun he => h.rep.notMem.2 (he ▸ hy)]).symm
  have hA' : ∀ a ∈ A ++ [x], (mm₀.core a).vmEnd ≤ (mm₀.core n).vmStart := by
    rw [hcn]
    intro a ha
    rcases List.mem_append.1 ha with ha | ha
    · rw [hco a fun he => h.rep.notMem.1 (he ▸ ha)]
      exact (hAx a ha x (by simp)).trans hs.le
    · obtain rfl : a = x := by simpa using ha
      rw [hcore, Function.update_self]
      exact le_rfl
  have hB' : ∀ b ∈ B, (mm₀.core n).vmEnd ≤ (mm₀.core b).vmStart := fun b hb => by
    rw [hcn, hco b fun he => h.rep.notMem.2 (he ▸ hb)]
    exact hxb b hb
  have hres := wf_insertVmStruct rb hrep hord hhigh (by simpa using hn) hf
    (by rw [hcn]; exact ⟨he, hd, hx.end_dvd, hx.end_lt⟩) hA' hB'
  rw [List.append_assoc] at hres
  exact ⟨hres.1, hres.2.1.trans hcore, hres.2.2⟩

/-- Giving `x` the upper half and linking the lower one in front of it. -/
theorem insert_below {pgoff : BitVec 64} (h : Wf s.mm (A ++ x :: B)) (hn : n ∉ A ++ x :: B)
    (hf : n < s.mm.nextId) (hs : (s.mm.core x).vmStart < addr) (he : addr < (s.mm.core x).vmEnd)
    (hd : 4096 ∣ addr) (hnew : s.mm.core n = (s.mm.core x).lower addr)
    (hpg : pgoff = ((s.mm.core x).upper addr).vmPgoff) :
    let mm' := adjustKeep rb s.mm x addr (s.mm.core x).vmEnd pgoff (some n)
    Wf mm' (A ++ n :: x :: B) ∧ mm'.core = Function.update s.mm.core x ((s.mm.core x).upper addr) ∧
      mm'.rest = s.mm.rest := by
  have hx := h.ordered.area x (by simp)
  obtain ⟨-, hxB, hAx⟩ := ordered_append.1 h.ordered
  obtain ⟨-, -, hxb⟩ := ordered_cons.1 hxB
  set mm₀ := s.mm.setBounds x addr (s.mm.core x).vmEnd pgoff with hmm₀
  have hcore : mm₀.core = Function.update s.mm.core x ((s.mm.core x).upper addr) := by
    rw [hmm₀, core_setBounds, hpg]; rfl
  have hnx : n ≠ x := fun hnx => hn (by simp [hnx])
  have hcn : mm₀.core n = (s.mm.core x).lower addr := by rw [hcore, Function.update_of_ne hnx, hnew]
  have hcx : mm₀.core x = (s.mm.core x).upper addr := by rw [hcore, Function.update_self]
  have hco : ∀ y, y ≠ x → mm₀.core y = s.mm.core y := fun y hy => by
    rw [hcore, Function.update_of_ne hy]
  have hrep : Rep mm₀ (A ++ x :: B) {y | (x :: B).head? = some y} :=
    h.rep.setBounds (Set.empty_subset _) (.inr rfl) (.inl rfl)
  have hord : Ordered mm₀.core (A ++ x :: B) := by
    rw [hcore]
    exact h.ordered.update h.rep.notMem ⟨he, hd, hx.end_dvd, hx.end_lt⟩
      (fun a ha => (hAx a ha x (by simp)).trans hs.le) hxb
  have hhigh : x :: B ≠ [] → mm₀.highestVmEnd = topEnd mm₀.core (x :: B) := fun _ => by
    rw [show mm₀.highestVmEnd = s.mm.highestVmEnd from rfl, h.highest, topEnd_append (by simp)]
    refine (topEnd_congr fun y hy => ?_).symm
    by_cases hyx : y = x
    · rw [hyx, hcx]; rfl
    · rw [hco y hyx]
  have hA' : ∀ a ∈ A, (mm₀.core a).vmEnd ≤ (mm₀.core n).vmStart := fun a ha => by
    rw [hcn, hco a fun he => h.rep.notMem.1 (he ▸ ha)]
    exact hAx a ha x (by simp)
  have hB' : ∀ b ∈ x :: B, (mm₀.core n).vmEnd ≤ (mm₀.core b).vmStart := by
    rw [hcn]
    intro b hb
    rcases List.mem_cons.1 hb with rfl | hb
    · rw [hcx]; exact le_rfl
    · rw [hco b fun he => h.rep.notMem.2 (he ▸ hb)]
      exact he.le.trans (hxb b hb)
  have hres := wf_insertVmStruct rb hrep hord hhigh hn hf
    (by rw [hcn]; exact ⟨hs, hx.start_dvd, hd, he.trans hx.end_lt⟩) hA' hB'
  exact ⟨hres.1, hres.2.1.trans hcore, hres.2.2⟩

theorem splitHalf_core (v : Vma) (newBelow : Bool) : (splitHalf v addr newBelow).core =
    if newBelow then v.core.lower addr else v.core.upper addr := by
  unfold splitHalf
  cases newBelow <;> rfl

theorem vmaAdjust_insert {start end_ : ℕ} {pgoff : BitVec 64} :
    vmaAdjust rb s x start end_ pgoff (some n) none =
      (0, s.setMm (adjustKeep rb s.mm x start end_ pgoff (some n))) := by
  have hmode : adjustMode s.mm x end_ (some n) none = .keep := by
    unfold adjustMode
    cases s.mm.vmNext x <;> rfl
  unfold vmaAdjust
  rw [hmode]

/-- The adjustment of a split cannot fail, since `insert` rules out all that needs memory. -/
theorem splitAdjust_spec (rb : Balance VmaId) (newBelow : Bool) (h : Wf s.mm (A ++ x :: B))
    (hn : n ∉ A ++ x :: B) (hf : n < s.mm.nextId) (hs : (s.mm.core x).vmStart < addr)
    (he : addr < (s.mm.core x).vmEnd) (hd : 4096 ∣ addr)
    (hnew : s.mm.core n = if newBelow then (s.mm.core x).lower addr else (s.mm.core x).upper addr) :
    ∃ mm', splitAdjust rb s x n addr newBelow = (0, s.setMm mm') ∧
      Wf mm' (A ++ (halves x n newBelow ++ B)) ∧
      mm'.core = Function.update s.mm.core x
        (if newBelow then (s.mm.core x).upper addr else (s.mm.core x).lower addr) ∧
      mm'.rest = s.mm.rest := by
  cases newBelow with
  | false => exact ⟨_, vmaAdjust_insert, insert_above h hn hf hs he hd hnew⟩
  | true =>
    refine ⟨_, vmaAdjust_insert, insert_below h hn hf hs he hd hnew ?_⟩
    show (s.mm.core x).vmPgoff+BitVec.ofNat 64 ((addr-(s.mm.core n).vmStart)/4096) = _
    rw [hnew]; rfl

theorem anonVma_modVma {mm : Mm} {y : VmaId} {f : Vma → Vma}
    (h : y ≠ x ∨ (f (mm.vma x)).anonVma = (mm.vma x).anonVma) :
    ((mm.modVma x f).vma y).anonVma = (mm.vma y).anonVma := by
  show (Function.update mm.vma x (f (mm.vma x)) y).anonVma = _
  by_cases hy : y = x
  · subst hy
    rw [Function.update_self]
    exact h.resolve_left (not_not.2 rfl)
  · rw [Function.update_of_ne hy]

/-- Linking and adjusting for a split do not touch `anon_vma`. -/
theorem anonVma_splitAdjust (rb : Balance VmaId) (s : MmSys) (x n : VmaId) (addr : ℕ)
    (newBelow : Bool) (y : VmaId) :
    ((splitAdjust rb s x n addr newBelow).2.mm.vma y).anonVma = (s.mm.vma y).anonVma := by
  have hkeep :
      ∀ start end_ pgoff, ((adjustKeep rb s.mm x start end_ pgoff (some n)).vma y).anonVma =
        (s.mm.vma y).anonVma := by
    intro start end_ pgoff
    have hvma : (adjustKeep rb s.mm x start end_ pgoff (some n)).vma =
        (s.mm.setBounds x start end_ pgoff).vma := by
      unfold adjustKeep insertVmStruct
      dsimp only
      split <;> rfl
    rw [hvma]
    exact anonVma_modVma (.inr rfl)
  unfold splitAdjust
  dsimp only
  split <;> rw [vmaAdjust_insert] <;> exact hkeep _ _ _

theorem vma_outcome (s : MmSys) : s.outcome.2.mm.vma = s.mm.vma := by
  unfold MmSys.outcome
  split <;> rfl

/-- A clone that succeeds leaves every `anon_vma`, one that fails all but the new one. -/
theorem anonVma_clone {dst y : VmaId} (src : VmaId) (h : y ≠ dst ∨ (anonVmaClone s dst src).1 = 0) :
    ((anonVmaClone s dst src).2.mm.vma y).anonVma = (s.mm.vma y).anonVma := by
  have hnomem : -ENOMEM ≠ 0 := by decide
  have hout : (s.outcome.2.mm.vma y).anonVma = (s.mm.vma y).anonVma := by rw [vma_outcome]
  unfold anonVmaClone at h ⊢
  dsimp only at h ⊢
  by_cases hz : s.outcome.1 = 0
  · rw [if_pos hz]
    have hmod := @anonVma_modVma dst s.outcome.2.mm y
      (fun v => { v with anonChain := (s.outcome.2.mm.vma src).anonChain }) (.inr rfl)
    exact hmod.trans hout
  · rw [if_neg hz] at h ⊢
    have hmod :=
      @anonVma_modVma dst s.outcome.2.mm y (fun v => { v with anonVma := none, anonChain := 0 })
      (.inl (h.resolve_right hnomem))
    exact hmod.trans hout

/-- Whether a split fails or not, the old areas keep their `anon_vma`. -/
theorem anonVma_splitVmaNoLimit {y : VmaId} (newBelow : Bool) (hy : y < s.mm.nextId) :
    ((splitVmaNoLimit rb s x addr newBelow).2.mm.vma y).anonVma = (s.mm.vma y).anonVma := by
  have hid : s.outcome.2.mm.nextId = s.mm.nextId := by
    unfold MmSys.outcome
    split <;> rfl
  have hne : y ≠ s.outcome.2.mm.nextId := by
    rw [hid]
    exact hy.ne
  have h₁ : (s.outcome.2.mm.vma y).anonVma = (s.mm.vma y).anonVma := by rw [vma_outcome]
  unfold splitVmaNoLimit
  dsimp only
  split
  next => rfl
  split
  next => exact h₁
  set s₂ := allocVma s.outcome.2 (splitHalf (s.mm.vma x) addr newBelow)
  have h₂ : (s₂.mm.vma y).anonVma = (s.mm.vma y).anonVma :=
    (congrArg Vma.anonVma (Function.update_of_ne hne ..)).trans h₁
  have h₃ : (s₂.outcome.2.mm.vma y).anonVma = (s.mm.vma y).anonVma := by rw [vma_outcome, h₂]
  split
  next => exact h₃
  have h₄ := (anonVma_clone x (.inl hne)).trans h₃
  split
  next => exact h₄
  set s₅ := (anonVmaClone s₂.outcome.2 s.outcome.2.mm.nextId x).2.getFile (s.mm.vma x).vmFile
  have h₅ : (s₅.mm.vma y).anonVma = (s.mm.vma y).anonVma := by rw [getFile_mm, h₄]
  have h₆ := (anonVma_splitAdjust rb s₅ x s.outcome.2.mm.nextId addr newBelow y).trans h₅
  split
  · exact h₆
  · rw [fput_mm]
    exact h₆

/-- `__split_vma`, with every call in it allowed to fail. -/
theorem splitVmaNoLimit_spec (rb : Balance VmaId) (newBelow : Bool) (h : Wf s.mm (A ++ x :: B))
    (hs : (s.mm.core x).vmStart < addr) (he : addr < (s.mm.core x).vmEnd) (hd : 4096 ∣ addr) :
    let r := splitVmaNoLimit rb s x addr newBelow
    (r.1 ≠ 0 ∧ Same s r.2 (A ++ x :: B)) ∨
      r.1 = 0 ∧ ∃ n, SplitAt s r.2 A x B addr newBelow n := by
  dsimp only
  unfold splitVmaNoLimit
  dsimp only
  split
  next => exact .inl ⟨show -EINVAL ≠ 0 by decide, Same.refl h⟩
  next =>
  have h₁ : Same s s.outcome.2 (A ++ x :: B) := (outcome_quiet s).same h
  split
  next => exact .inl ⟨show -ENOMEM ≠ 0 by decide, h₁⟩
  next =>
  set s₁ := s.outcome.2 with hs₁
  set s₂ := allocVma s₁ (splitHalf (s.mm.vma x) addr newBelow) with hs₂
  have h₂ : Same s s₂ (A ++ x :: B) := h₁.trans (same_allocVma h₁.wf _)
  have h₃ : Same s s₂.outcome.2 (A ++ x :: B) := h₂.trans ((outcome_quiet s₂).same h₂.wf)
  split
  next hp => exact .inl ⟨hp, h₃⟩
  next =>
  set n := s₁.mm.nextId with hn
  have hq₄ := anonVmaClone_quiet s₂.outcome.2 n x
  have h₄ : Same s (anonVmaClone s₂.outcome.2 n x).2 (A ++ x :: B) := h₃.trans (hq₄.same h₃.wf)
  split
  next hc => exact .inl ⟨hc, h₄⟩
  next hclone =>
  set s₄ := (anonVmaClone s₂.outcome.2 n x).2 with hs₄
  set s₅ := s₄.getFile (s.mm.vma x).vmFile with hs₅
  have hmm₅ : s₅.mm = s₄.mm := getFile_mm _ _
  have hx₄ : s₄.mm.core x = s.mm.core x := h₄.core x (by simp)
  have hnL : n ∉ A ++ x :: B := fun hnL => (h₁.wf.rep.fresh n hnL).ne rfl
  have hnew : s₄.mm.core n =
      if newBelow then (s.mm.core x).lower addr else (s.mm.core x).upper addr := by
    rw [hq₄.core, (outcome_quiet s₂).core]
    show (Function.update s₁.mm.vma n _ n).core = _
    rw [Function.update_self, splitHalf_core]
    rfl
  have hfr : n < s₄.mm.nextId := by
    obtain ⟨v, hv⟩ := hq₄.mm
    obtain ⟨v', hv'⟩ := (outcome_quiet s₂).mm
    rw [hs₄, hv]
    show n < s₂.outcome.2.mm.nextId
    rw [hv']
    exact Nat.lt_succ_self _
  obtain ⟨mm', hadj, hwf, hcore, hrest⟩ := splitAdjust_spec rb newBelow (s := s₅)
    (by rw [hmm₅]; exact h₄.wf) hnL (by rw [hmm₅]; exact hfr) (by rw [hmm₅, hx₄]; exact hs)
    (by rw [hmm₅, hx₄]; exact he) hd (by rw [hmm₅, hx₄]; exact hnew)
  rw [hadj]
  have hanon : ∀ y, (mm'.vma y).anonVma = (s₄.mm.vma y).anonVma := fun y => by
    have := anonVma_splitAdjust rb s₅ x n addr newBelow y
    rw [hadj, hmm₅] at this
    exact this
  refine .inr ⟨rfl, n, hwf, hnL, ?_, ?_, ?_, ?_, ?_, ?_, ?_, ?_⟩
  · show mm'.core x = _
    rw [hcore, Function.update_self, hmm₅, hx₄]
  · show mm'.core n = _
    rw [hcore, Function.update_of_ne fun he => hnL (by simp [he]), hmm₅, hnew]
  · intro y hy
    show mm'.core y = _
    have hyx : y ≠ x := fun he => by
      rcases List.mem_append.1 hy with hy | hy
      exacts [h.rep.notMem.1 (he ▸ hy), h.rep.notMem.2 (he ▸ hy)]
    rw [hcore, Function.update_of_ne hyx, hmm₅]
    exact h₄.core y (by simp only [List.mem_append, List.mem_cons] at hy ⊢; tauto)
  · show mm'.rest = _
    rw [hrest, hmm₅, h₄.rest]
  · show s₅.fCount = _
    rw [hs₅, getFile_fCount, h₄.fCount]; rfl
  · show s₅.committed = _
    rw [hs₅, getFile_committed, h₄.committed]
  · intro y hy
    have hyn : y ≠ n := fun he => hnL (he ▸ hy)
    have hy₂ : (s₂.mm.vma y).anonVma = (s₁.mm.vma y).anonVma :=
      congrArg Vma.anonVma (Function.update_of_ne hyn ..)
    exact (hanon y).trans
      ((anonVma_clone x (.inl hyn)).trans (by rw [vma_outcome, hy₂, hs₁, vma_outcome]))
  · have hn₂ : (s₂.mm.vma n).anonVma = (splitHalf (s.mm.vma x) addr newBelow).anonVma :=
      congrArg Vma.anonVma (Function.update_self ..)
    have hhalf : (splitHalf (s.mm.vma x) addr newBelow).anonVma = (s.mm.vma x).anonVma := by
      unfold splitHalf
      split <;> rfl
    exact (hanon n).trans
      ((anonVma_clone x (.inr (not_not.1 hclone))).trans (by rw [vma_outcome, hn₂, hhalf]))

/-- The counters that linking and adjusting leave alone. -/
theorem counters_eq (hrest : s'.mm.rest = s.mm.rest) (hf : s'.fCount = s.fCount)
    (hc : s'.committed = s.committed) : counters s' = counters s := by
  have h₁ : s'.mm.totalVm = s.mm.totalVm := (congrArg Mm.totalVm hrest :)
  have h₂ : s'.mm.execVm = s.mm.execVm := (congrArg Mm.execVm hrest :)
  have h₃ : s'.mm.stackVm = s.mm.stackVm := (congrArg Mm.stackVm hrest :)
  have h₄ : s'.mm.dataVm = s.mm.dataVm := (congrArg Mm.dataVm hrest :)
  have h₅ : s'.mm.lockedVm = s.mm.lockedVm := (congrArg Mm.lockedVm hrest :)
  rw [counters, h₁, h₂, h₃, h₄, h₅, hf, hc, counters]

def refVec (file : Option FileId) (k : ℤ) : Ledger := (0, 0, 0, 0, 0, 0, fun f => held file f k)

theorem counters_dropRefs {file : Option FileId} {k : ℤ} (hrest : s'.mm.rest = s.mm.rest)
    (hf : s'.fCount = dropRefs s.fCount file k) (hc : s'.committed = s.committed) :
    counters s' = counters s - refVec file k := by
  have heq : counters s' = counters { s with fCount := dropRefs s.fCount file k } :=
    counters_eq hrest hf hc
  rw [heq]
  have hfun : dropRefs s.fCount file k = s.fCount - fun f => held file f k := by
    funext f; exact dropRefs_eq _ _
  simp [counters, refVec, hfun]

theorem Same.pages_eq (h : Same s s' L) : pages s'.mm.core L = pages s.mm.core L :=
  total_congr h.core

theorem Same.ledger_eq (h : Same s s' L) : ledger s' L = ledger s L := by
  have hr : references s'.mm.core L = references s.mm.core L := by
    unfold references
    congr 6
    funext f
    exact refs_congr fun y hy => by rw [h.core y hy]
  rw [ledger, ledger, h.pages_eq, hr, counters_eq h.rest h.fCount h.committed]

theorem SplitAt.pages_eq {newBelow : Bool} (h : SplitAt s s' A x B addr newBelow n)
    (hx : AreaOk (s.mm.core x)) (hs : (s.mm.core x).vmStart < addr)
    (he : addr < (s.mm.core x).vmEnd) (hd : 4096 ∣ addr) :
    pages s'.mm.core (A ++ (halves x n newBelow ++ B)) = pages s.mm.core (A ++ x :: B) := by
  have hA : total single s'.mm.core A = total single s.mm.core A :=
    total_congr fun y hy => h.other y (by simp [hy])
  have hB : total single s'.mm.core B = total single s.mm.core B :=
    total_congr fun y hy => h.other y (by simp [hy])
  have hw : _ = (s.mm.core x).weight single := weight_lower_upper hx hs.le he.le hd
  unfold pages
  rw [total_append, total_append, total_append, total_cons, hA, hB, ← hw]
  cases newBelow with
  | false =>
    show _ + (total single s'.mm.core [x, n] + _) = _
    rw [total_cons, total_cons, h.kept, h.new, total_nil, add_zero]
    rfl
  | true =>
    show _ + (total single s'.mm.core [n, x] + _) = _
    rw [total_cons, total_cons, h.kept, h.new, total_nil, add_zero]
    rfl

theorem references_append (core : VmaId → Vma) :
    references core (A ++ B) = references core A + references core B := by
  simp only [references, refs_append, Prod.mk_add_mk, add_zero]
  rfl

theorem references_cons (core : VmaId → Vma) :
    references core (x :: B) = refVec (core x).vmFile 1 + references core B := by
  simp only [references, refs_cons, refVec, held, Prod.mk_add_mk, add_zero]
  rfl

theorem references_congr {core core' : VmaId → Vma}
    (h : ∀ y ∈ L, (core' y).vmFile = (core y).vmFile) :
    references core' L = references core L := by
  simp only [references, refs_congr h]

theorem refVec_neg (file : Option FileId) (k : ℤ) : refVec file (-k) = -refVec file k := by
  simp only [refVec, Prod.neg_mk, neg_zero, held]
  congr 6
  funext f
  show _ = -(if file = some f then k else 0)
  split <;> simp

theorem SplitAt.ledger_eq {newBelow : Bool} (h : SplitAt s s' A x B addr newBelow n)
    (hx : AreaOk (s.mm.core x)) (hs : (s.mm.core x).vmStart < addr)
    (he : addr < (s.mm.core x).vmEnd) (hd : 4096 ∣ addr) :
    ledger s' (A ++ (halves x n newBelow ++ B)) = ledger s (A ++ x :: B) := by
  have hA : references s'.mm.core A = references s.mm.core A :=
    references_congr fun y hy => by rw [h.other y (by simp [hy])]
  have hB : references s'.mm.core B = references s.mm.core B :=
    references_congr fun y hy => by rw [h.other y (by simp [hy])]
  have hh : references s'.mm.core (halves x n newBelow) =
      refVec (s.mm.core x).vmFile 1 + refVec (s.mm.core x).vmFile 1 := by
    cases newBelow with
    | false =>
      show references s'.mm.core [x, n] = _
      rw [references_cons, references_cons, h.kept, h.new,
        show references s'.mm.core [] = 0 from rfl, add_zero]
      rfl
    | true =>
      show references s'.mm.core [n, x] = _
      rw [references_cons, references_cons, h.kept, h.new,
        show references s'.mm.core [] = 0 from rfl, add_zero]
      rfl
  rw [ledger, ledger, h.pages_eq hx hs he hd,
    counters_dropRefs h.rest h.fCount h.committed, refVec_neg,
    references_append, references_append, references_append, references_cons, hA, hB, hh]
  abel

end PtraceRemote
