import PtraceRemote.MmRun
import PtraceRemote.MmMovable

/-! The limit on the number of areas: how far each operation can raise `map_count`, and over which
runs it stays within one of `sysctl_max_map_count`. -/
namespace PtraceRemote

open AugTree (Balance)

variable {s s' : MmSys} {rb : Balance VmaId} {conf : MmConf} {env : MmEnv} {L L' A B : List VmaId}
  {x y n : VmaId} {start end_ len addr : ℕ} {pgoff : BitVec 64} {max : ℤ}

/-! What the functions below `do_munmap` can add, in any state. -/

theorem Quiet.mapCount (h : Quiet s s') : s'.mm.mapCount = s.mm.mapCount := by
  obtain ⟨v, hv⟩ := h.mm
  rw [hv]

theorem mapCount_of_shape {mm mm' : Mm} (h : mm'.shape = mm.shape) : mm'.mapCount = mm.mapCount :=
  (congrArg Mm.mapCount h :)

theorem mapCount_vmStatAccount (mm : Mm) (flags : VmFlags) (k : BitVec 64) :
    (vmStatAccount mm flags k).mapCount = mm.mapCount :=
  mapCount_of_shape (shape_vmStatAccount _ _)

theorem mapCount_adjustRemove {gone : VmaId} {prev : Option VmaId} {file : Option FileId} :
    (adjustRemove rb s x gone start end_ pgoff prev file).mm.mapCount = s.mm.mapCount-1 := by
  rw [adjustRemove, fput_mm]
  rfl

theorem mapCount_adjustSwallow {file : Option FileId} :
    (adjustSwallow rb s x n start pgoff file).mm.mapCount = s.mm.mapCount-1 :=
  mapCount_adjustRemove

theorem mapCount_adjustAgain {file : Option FileId} :
    (adjustAgain rb s x start pgoff file).mm.mapCount ≤ s.mm.mapCount := by
  unfold adjustAgain
  split
  · exact le_rfl
  · rw [mapCount_adjustSwallow]
    omega

theorem mapCount_orElse {k : ℤ} {r : ℤ × MmSys} (h : r.2.mm.mapCount ≤ k)
    (h' : s'.mm.mapCount ≤ k) : (if r.1 ≠ 0 then r else (0, s')).2.mm.mapCount ≤ k := by
  split
  · exact h
  · exact h'

/-- Without an area to insert, `__vma_adjust` can only take areas away. -/
theorem mapCount_vmaAdjust {expand : Option VmaId} :
    (vmaAdjust rb s x start end_ pgoff none expand).2.mm.mapCount ≤ s.mm.mapCount := by
  have himport : ∀ e i, (importAnon s e i).2.mm.mapCount = s.mm.mapCount :=
    fun e i => (importAnon_quiet s e i).mapCount
  have hless : s.mm.mapCount-1 ≤ s.mm.mapCount := by omega
  unfold vmaAdjust
  dsimp only
  cases adjustMode s.mm x end_ none expand with
  | keep =>
    dsimp only [adjustKeep]
    split
    · split <;> split <;> exact le_rfl
    · split <;> exact le_rfl
  | shift next pages =>
    have hr : (if 0 < pages then importAnon s (some next) x
        else importAnon s (some x) next).2.mm.mapCount = s.mm.mapCount := by
      split
      · exact himport _ _
      · exact himport _ _
    have hshift : ∀ mm, (adjustShift mm x next start end_ pgoff pages).mapCount = mm.mapCount := by
      intro mm
      dsimp only [adjustShift]
      split <;> rfl
    exact mapCount_orElse hr.le ((hshift _).le.trans hr.le)
  | removeNext next =>
    refine mapCount_orElse (himport _ _).le ?_
    rw [mapCount_adjustSwallow, himport]
    exact hless
  | removeTwo next =>
    refine mapCount_orElse (himport _ _).le (mapCount_adjustAgain.trans ?_)
    rw [mapCount_adjustRemove, himport]
    exact hless
  | removeSelf next =>
    refine mapCount_orElse (himport _ _).le (mapCount_adjustRemove.le.trans ?_)
    rw [himport]
    exact hless

theorem mapCount_vmaMerge {prev : Option VmaId} {q : MergeReq} :
    (vmaMerge rb s prev q).2.mm.mapCount ≤ s.mm.mapCount := by
  have hres : ∀ (z : VmaId) (r : ℤ × MmSys), r.2.mm.mapCount ≤ s.mm.mapCount →
      (mergeResult z r).2.mm.mapCount ≤ s.mm.mapCount := by
    intro z r hr
    unfold mergeResult
    split
    · exact hr
    · exact hr
  unfold vmaMerge
  dsimp only
  split
  · exact le_rfl
  split
  · split
    · exact hres _ _ mapCount_vmaAdjust
    · exact hres _ _ mapCount_vmaAdjust
  · split
    · split
      · exact hres _ _ mapCount_vmaAdjust
      · exact hres _ _ mapCount_vmaAdjust
    · exact le_rfl

theorem mapCount_splitAdjust (rb : Balance VmaId) (s : MmSys) (x n : VmaId) (addr : ℕ)
    (newBelow : Bool) :
    (splitAdjust rb s x n addr newBelow).2.mm.mapCount ≤ s.mm.mapCount+1 := by
  have hkeep : ∀ start end_ pgoff,
      (adjustKeep rb s.mm x start end_ pgoff (some n)).mapCount ≤ s.mm.mapCount+1 := by
    intro start end_ pgoff
    dsimp only [adjustKeep, insertVmStruct]
    split
    · exact le_rfl
    · exact Int.le_add_one le_rfl
  unfold splitAdjust
  dsimp only
  split
  · rw [vmaAdjust_insert]
    exact hkeep _ _ _
  · rw [vmaAdjust_insert]
    exact hkeep _ _ _

theorem mapCount_splitVmaNoLimit (rb : Balance VmaId) (s : MmSys) (x : VmaId) (addr : ℕ)
    (newBelow : Bool) :
    (splitVmaNoLimit rb s x addr newBelow).2.mm.mapCount ≤ s.mm.mapCount+1 := by
  have hout : ∀ t : MmSys, t.outcome.2.mm.mapCount = t.mm.mapCount :=
    fun t => (outcome_quiet t).mapCount
  unfold splitVmaNoLimit
  dsimp only
  split
  next => exact Int.le_add_one le_rfl
  split
  next => exact Int.le_add_one (hout s).le
  set s₂ := allocVma s.outcome.2 (splitHalf (s.mm.vma x) addr newBelow)
  have h₂ : s₂.outcome.2.mm.mapCount = s.mm.mapCount := (hout s₂).trans (hout s)
  split
  next => exact Int.le_add_one h₂.le
  set clone := anonVmaClone s₂.outcome.2 s.outcome.2.mm.nextId x
  have h₃ : clone.2.mm.mapCount = s.mm.mapCount := (anonVmaClone_quiet _ _ _).mapCount.trans h₂
  split
  next => exact Int.le_add_one h₃.le
  have hadj := mapCount_splitAdjust rb (clone.2.getFile (s.mm.vma x).vmFile) x s.outcome.2.mm.nextId
    addr newBelow
  rw [getFile_mm, h₃] at hadj
  split
  · exact hadj
  · rw [fput_mm]
    exact hadj

/-- `split_vma` keeps to the limit. -/
theorem mapCount_splitVma {newBelow : Bool} (hle : s.mm.mapCount ≤ max)
    (hconf : conf.maxMapCount ≤ max) :
    (splitVma rb conf s x addr newBelow).2.mm.mapCount ≤ max := by
  unfold splitVma
  split
  next => exact hle
  next hlt =>
    refine (mapCount_splitVmaNoLimit _ _ _ _ _).trans ?_
    omega

theorem mapCount_splitLast (rb : Balance VmaId) (s : MmSys) (end_ : ℕ) :
    (splitLast rb s end_).2.mm.mapCount ≤ s.mm.mapCount+1 := by
  unfold splitLast
  split
  · split
    · exact mapCount_splitVmaNoLimit _ _ _ _ _
    · exact Int.le_add_one le_rfl
  · exact Int.le_add_one le_rfl

theorem mapCount_unmapAreas (rb : Balance VmaId) (s : MmSys) (prev : Option VmaId) (end_ : ℕ) :
    (unmapAreas rb s prev end_).mm.mapCount ≤ s.mm.mapCount := by
  have herase :
      ∀ (M : List VmaId) (mm : Mm), (M.foldl (eraseStep rb) mm).mapCount ≤ mm.mapCount := by
    intro M
    induction M with
    | nil => exact fun mm => le_rfl
    | cons y M ih =>
      intro mm
      have hstep : (eraseStep rb mm y).mapCount = mm.mapCount-1 := rfl
      have := ih (eraseStep rb mm y)
      rw [List.foldl_cons]
      omega
  have hunlock : ∀ M, (munlockAreas s.mm M).mapCount = s.mm.mapCount := by
    intro M
    obtain ⟨v, hv, -⟩ := munlockAreas_eq s.mm M
    rw [hv]
  unfold unmapAreas removeVmaList
  dsimp only
  generalize List.takeWhile _ _ = M
  rw [show ∀ (t : MmSys) k, (vmUnacctMemory t k).mm = t.mm from fun _ _ => rfl,
    mapCount_of_shape (foldl_removeVma _ M).1]
  exact (herase M _).trans (hunlock M).le

theorem mapCount_doMunmap : (doMunmap rb conf s start len).2.mm.mapCount ≤ s.mm.mapCount+2 := by
  have hlast : ∀ (t : MmSys) prev, t.mm.mapCount ≤ s.mm.mapCount+1 →
      (unmapLast rb t prev (start+pageAlign len)).2.mm.mapCount ≤ s.mm.mapCount+2 := by
    intro t prev ht
    have hsplit := mapCount_splitLast rb t (start+pageAlign len)
    unfold unmapLast
    dsimp only
    split
    · omega
    · have hunmap :=
        mapCount_unmapAreas rb (splitLast rb t (start+pageAlign len)).2 prev (start+pageAlign len)
      exact hunmap.trans (by omega)
  have hself : s.mm.mapCount ≤ s.mm.mapCount+2 := by omega
  unfold doMunmap
  split
  next => exact hself
  dsimp only
  split
  next => exact hself
  split
  next => exact hself
  split
  next => exact hself
  split
  next =>
    split
    next => exact hself
    split
    next => exact (mapCount_splitVmaNoLimit _ _ _ _ _).trans (by omega)
    next => exact hlast _ _ (mapCount_splitVmaNoLimit _ _ _ _ _)
  next => exact hlast _ _ (Int.le_add_one le_rfl)

/-! What `do_munmap` can add to a well-formed address space. -/

def Vma.straddles (v : Vma) (addr : ℕ) : Prop := v.vmStart < addr ∧ addr < v.vmEnd

def CutsBoth (s : MmSys) (k start end_ : ℕ) (hole : Prop) : Prop :=
  ∀ x ∈ s.mm.mmRb.inorder, ∀ y ∈ s.mm.mmRb.inorder, (x ≠ y ∨ hole) → (s.mm.vma x).straddles start →
    (s.mm.vma y).straddles end_ → CanCut s k (s.mm.vma x) start → CanCut s (k+1) (s.mm.vma y) end_

def UnmapSafe (conf : MmConf) (s : MmSys) (k start len : ℕ) (hole : Prop) : Prop :=
  conf.maxMapCount < s.mm.mapCount → RangeOk start (start+pageAlign len) →
    CutsBoth s k start (start+pageAlign len) hole

theorem canCut_congr {v w : Vma} {k : ℕ} (hf : v.vmFlags = w.vmFlags)
    (hh : v.hugeSize = w.hugeSize) :
    CanCut s k v addr ↔ CanCut s k w addr := by
  unfold CanCut isVmHugetlbPage
  rw [hf, hh]

/-- After `j` splits. -/
theorem canCut_drop {v : Vma} {k j : ℕ} (ho : s'.outcomes = s.outcomes.drop (3*j)) :
    CanCut s' k v addr ↔ CanCut s (j+k) v addr := by
  have hsucc : ∀ i i', 3*j+i = i' → (s'.Succeeds i ↔ s.Succeeds i') := by
    rintro i _ rfl
    rw [MmSys.Succeeds, MmSys.Succeeds, ho, List.getElem?_drop]
  unfold CanCut
  rw [hsucc (3*k) (3*(j+k)) (by omega), hsucc (3*k+1) (3*(j+k)+1) (by omega),
    hsucc (3*k+2) (3*(j+k)+2) (by omega)]

theorem Same.mapCount (h : Same s s' L) (hw : Wf s.mm L) : s'.mm.mapCount = s.mm.mapCount := by
  rw [h.wf.rep.count, hw.rep.count]

theorem splitLast_fails (h : (splitLast rb s end_).1 ≠ 0) :
    ∃ y, findVma s.mm end_ = some y ∧ (s.mm.vma y).vmStart < end_ ∧
      ¬CanCut s 0 (s.mm.vma y) end_ := by
  unfold splitLast at h
  split at h
  next y hf =>
    split at h
    next hs =>
      rcases splitVmaNoLimit_cuts rb s y end_ true with ⟨hz, -⟩ | ⟨-, hnot⟩
      · exact absurd hz h
      · exact ⟨y, hf, hs, hnot⟩
    next => exact absurd rfl h
  next => exact absurd rfl h

/-- Cutting at the end and unmapping: the areas that are left. -/
theorem unmapLast_count (rb : Balance VmaId) {R : List VmaId} (h : Wf s.mm (A ++ R))
    (hA : ∀ a ∈ A, (s.mm.core a).vmEnd ≤ start) (hR : ∀ z ∈ R, start ≤ (s.mm.core z).vmStart)
    (hr : RangeOk start end_) :
    let r := unmapLast rb s A.getLast? end_
    (r.1 ≠ 0 ∧ r.2.mm.mapCount = s.mm.mapCount ∧
      ∃ y ∈ R, (s.mm.vma y).straddles end_ ∧ ¬CanCut s 0 (s.mm.vma y) end_) ∨
    r.1 = 0 ∧ ∃ R₁ R₂, R = R₁ ++ R₂ ∧ r.2.mm.mapCount = A.length+R₂.length ∧ ∀ z ∈ R₂,
      end_ < (s.mm.core z).vmEnd := by
  dsimp only [unmapLast]
  rcases splitLast_spec rb h hA hR hr.lt hr.end_dvd with
    ⟨he, hsame⟩ | ⟨he, M, B, hcut, hdoes, R₁, R₂, hsplit, hlen, hend⟩
  · rw [if_pos he]
    obtain ⟨y, hf, hs, hnot⟩ := splitLast_fails he
    obtain ⟨R₁, R₂, rfl, -, hy⟩ := findVma_suffix h (fun a ha => (hA a ha).trans hr.lt.le) hf
    exact .inl ⟨he, hsame.mapCount h, y, by simp, ⟨hs, hy⟩, hnot⟩
  · rw [if_neg (not_not.2 he)]
    have hM : ∀ m ∈ M, ((splitLast rb s end_).2.mm.core m).vmStart < end_ := fun m hm =>
      (hdoes.wf.ordered.area m (by simp [hm])).lt.trans_le (hcut.inside m hm).2
    obtain ⟨hwf, -⟩ := unmapAreas_spec rb hdoes.wf hM hcut.above
    refine .inr ⟨rfl, R₁, R₂, hsplit, ?_, hend⟩
    rw [hwf.rep.count, List.length_append, hlen]
    push_cast
    rfl

/-- The count grows by one if a hole is cut into an area, or if the second of two cuts fails. -/
theorem unmapFirst_count (rb : Balance VmaId) (h : Wf s.mm (A ++ x :: B)) (hr : RangeOk start end_)
    (hA : ∀ a ∈ A, (s.mm.core a).vmEnd ≤ start) (hs : (s.mm.core x).vmStart < start)
    (hx : start < (s.mm.core x).vmEnd) :
    let r := unmapFirst rb s x start end_
    r.2.mm.mapCount ≤ s.mm.mapCount ∨ r.2.mm.mapCount ≤ s.mm.mapCount+1 ∧
      (end_ < (s.mm.core x).vmEnd ∨ r.1 ≠ 0 ∧ CanCut s 0 (s.mm.vma x) start ∧
        ∃ y ∈ B, (s.mm.vma y).straddles end_ ∧ ¬CanCut s 1 (s.mm.vma y) end_) := by
  dsimp only [unmapFirst]
  obtain ⟨hxo, -, hafter⟩ := ordered_cons.1 (ordered_append.1 h.ordered).2.1
  have hcuts := splitVmaNoLimit_cuts rb s x start false
  rcases splitVmaNoLimit_spec rb false h hs hx hr.start_dvd with ⟨he, hsame⟩ | ⟨he, n, hsplit⟩
  · rw [if_pos he]
    exact .inl (hsame.mapCount h).le
  · rw [if_neg (not_not.2 he)]
    obtain ⟨-, hcan, hout⟩ := hcuts.resolve_right fun hne => hne.1 he
    set s₁ := (splitVmaNoLimit rb s x start false).2
    have hhalf : A ++ (halves x n false ++ B) = (A ++ [x]) ++ n :: B := by simp [halves]
    have hwf := hsplit.wf
    rw [hhalf] at hwf
    have hcount : s₁.mm.mapCount = s.mm.mapCount+1 := by
      rw [hwf.rep.count, h.rep.count]
      simp only [List.length_append, List.length_cons, List.length_nil]
      push_cast
      ring
    have hn : (s₁.mm.core n).vmEnd = (s.mm.core x).vmEnd := (congrArg Vma.vmEnd hsplit.new :)
    have hlast := unmapLast_count rb hwf (hsplit.below hA) (hsplit.above hafter hx) hr
    rw [List.getLast?_concat] at hlast
    rcases hlast with ⟨hne, hsame, y, hy, hstr, hnot⟩ | ⟨-, R₁, R₂, hR, hsame, hend⟩
    · refine .inr ⟨hsame.trans hcount |>.le, ?_⟩
      rcases List.mem_cons.1 hy with rfl | hy
      · exact .inl (hstr.2.trans_le hn.le)
      · have hcore := hsplit.other y (by simp [hy])
        have hfield : ∀ {α : Type} (f : Vma → α), f (s₁.mm.core y) = f (s.mm.core y) :=
          fun f => congrArg f hcore
        refine .inr ⟨hne, hcan, y, hy, ⟨?_, ?_⟩, ?_⟩
        · exact (hfield Vma.vmStart).ge.trans_lt hstr.1
        · exact hstr.2.trans_le (hfield Vma.vmEnd).le
        · exact fun hc => hnot ((canCut_congr (hfield Vma.vmFlags) (hfield Vma.hugeSize)).2
            ((canCut_drop (j := 1) hout).2 hc))
    · -- the upper part of `x` has gone, unless the range ends inside it
      rw [hsame, h.rep.count]
      have hlen := congrArg List.length hR
      simp only [List.length_append, List.length_cons, List.length_nil] at hlen ⊢
      by_cases hin : end_ < (s.mm.core x).vmEnd
      · exact .inr ⟨by push_cast; omega, .inl hin⟩
      · left
        cases R₁ with
        | nil =>
          have := hend n (by rw [← List.nil_append R₂, ← hR]; simp)
          omega
        | cons z R₁ =>
          rw [List.length_cons] at hlen
          push_cast
          omega

/-- `do_munmap` adds at most one area, and none above the limit unless it fails at its second
cut. -/
theorem doMunmap_count (rb : Balance VmaId) (conf : MmConf) (start len : ℕ) (h : Wf s.mm L) :
    let r := doMunmap rb conf s start len
    r.2.mm.mapCount ≤ s.mm.mapCount ∨ r.2.mm.mapCount ≤ s.mm.mapCount+1 ∧
      (s.mm.mapCount < conf.maxMapCount ∨
      r.1 ≠ 0 ∧ RangeOk start (start+pageAlign len) ∧
        ¬CutsBoth s 0 start (start+pageAlign len) False) := by
  dsimp only
  have hcases := doMunmap_cases rb conf start len h
  generalize doMunmap rb conf s start len = r at hcases ⊢
  cases hcases with
  | refused => exact .inl le_rfl
  | nothing => exact .inl le_rfl
  | @first A B x hr hL hA hs hx hmax =>
    subst hL
    rcases unmapFirst_count rb h hr hA hs hx with hle | ⟨hle, hin | ⟨hne, hcan, y, hy, hstr, hnot⟩⟩
    · exact .inl hle
    · exact .inr ⟨hle, .inl (hmax hin)⟩
    · refine .inr ⟨hle, .inr ⟨hne, hr, fun hboth => hnot ?_⟩⟩
      have hxy : x ≠ y := by
        rintro rfl
        exact h.rep.notMem.2 hy
      exact hboth x (by rw [h.rep.inorder]; simp) y (by rw [h.rep.inorder]; simp [hy]) (.inl hxy)
        ⟨hs, hx⟩ hstr hcan
  | @last A R hr hL hA hR =>
    subst hL
    left
    rcases unmapLast_count rb h hA hR hr with ⟨-, hsame, -⟩ | ⟨-, R₁, R₂, rfl, hsame, -⟩
    · exact hsame.le
    · rw [hsame, h.rep.count]
      simp only [List.length_append]
      push_cast
      omega

theorem doMunmap_within (rb : Balance VmaId) (h : Wf s.mm L)
    (hle : s.mm.mapCount ≤ conf.maxMapCount+1) (hsafe : UnmapSafe conf s 0 start len False) :
    (doMunmap rb conf s start len).2.mm.mapCount ≤ conf.maxMapCount+1 := by
  have hcount := doMunmap_count rb conf start len h
  dsimp only at hcount
  rcases hcount with hless | ⟨hone, hlt | ⟨-, hr, hnot⟩⟩
  · exact hless.trans hle
  · omega
  · have : ¬conf.maxMapCount < s.mm.mapCount := fun hgt => hnot (hsafe hgt hr)
    omega

/-- A `do_munmap` that succeeds adds no area at the limit. -/
theorem doMunmap_within_of_zero (h : Wf s.mm L) (hz : (doMunmap rb conf s start len).1 = 0) :
    (doMunmap rb conf s start len).2.mm.mapCount ≤ s.mm.mapCount ∨
      (doMunmap rb conf s start len).2.mm.mapCount ≤ conf.maxMapCount := by
  have hcount := doMunmap_count rb conf start len h
  dsimp only at hcount
  rcases hcount with hless | ⟨hone, hlt | ⟨hne, -⟩⟩
  · exact .inl hless
  · exact .inr (by omega)
  · exact absurd hz hne

theorem outcomes_unmapAreas (rb : Balance VmaId) (s : MmSys) (prev : Option VmaId) (end_ : ℕ) :
    (unmapAreas rb s prev end_).outcomes = s.outcomes := by
  unfold unmapAreas
  exact outcomes_removeVmaList _ _

theorem outcomes_unmapLast {prev : Option VmaId} (hz : (unmapLast rb s prev end_).1 = 0) :
    ∃ k, (unmapLast rb s prev end_).2.outcomes = s.outcomes.drop (3*k) := by
  have hlast : (splitLast rb s end_).1 = 0 → ∃ k,
      (splitLast rb s end_).2.outcomes = s.outcomes.drop (3*k) := by
    unfold splitLast
    split
    next y hf =>
      split
      next =>
        intro hz
        obtain ⟨-, -, hout⟩ :=
          (splitVmaNoLimit_cuts rb s y end_ true).resolve_right fun hne => hne.1 hz
        exact ⟨1, hout⟩
      next => exact fun _ => ⟨0, rfl⟩
    next => exact fun _ => ⟨0, rfl⟩
  unfold unmapLast at hz ⊢
  dsimp only at hz ⊢
  split
  next hne =>
    rw [if_pos hne] at hz
    exact absurd hz hne
  next he =>
    rw [outcomes_unmapAreas]
    exact hlast (not_not.1 he)

/-- A `do_munmap` that succeeds has used three outcomes for each area it cut. -/
theorem outcomes_doMunmap (h : Wf s.mm L) (hz : (doMunmap rb conf s start len).1 = 0) :
    ∃ k, (doMunmap rb conf s start len).2.outcomes = s.outcomes.drop (3*k) := by
  have hcases := doMunmap_cases rb conf start len h
  generalize doMunmap rb conf s start len = r at hcases hz ⊢
  cases hcases with
  | refused he => exact absurd hz he.ne
  | nothing => exact ⟨0, rfl⟩
  | @first A B x hr hL hA hs hx hmax =>
    unfold unmapFirst at hz ⊢
    dsimp only at hz ⊢
    split
    next hne =>
      rw [if_pos hne] at hz
      exact absurd hz hne
    next he =>
      rw [if_neg he] at hz
      obtain ⟨-, -, hout⟩ :=
        (splitVmaNoLimit_cuts rb s x start false).resolve_right fun hne => hne.1 (not_not.1 he)
      obtain ⟨k, hk⟩ := outcomes_unmapLast hz
      refine ⟨k+1, ?_⟩
      rw [hk, hout, List.drop_drop]
      congr 1
      omega
  | last => exact outcomes_unmapLast hz

/-- A part that an unmapping left of an area, below or above the range. -/
theorem CutFrom.side {v w : Vma} {a b : ℕ} (h : CutFrom {a, b} v w) (hv : v.vmStart < v.vmEnd)
    (hab : a < b) (hfree : v.vmEnd ≤ a ∨ b ≤ v.vmStart) :
    (v.vmStart = w.vmStart ∧ v.vmEnd ≤ a) ∨ v.vmEnd = w.vmEnd ∧ b ≤ v.vmStart := by
  have hs := h.start_cut
  have he := h.end_cut
  simp only [Set.mem_insert_iff, Set.mem_singleton_iff] at hs he
  omega

/-- Another range can be unmapped safely after a first one, if both can before. -/
theorem UnmapSafe.after {new newLen : ℕ} {hole : Prop} (h : Wf s.mm L)
    (hz : (doMunmap rb conf s new newLen).1 = 0)
    (hhole : start ≤ new → new+pageAlign newLen ≤ start+pageAlign len → hole)
    (hsafe : ∀ k, UnmapSafe conf s k start len hole) :
    UnmapSafe conf (doMunmap rb conf s new newLen).2 0 start len False := by
  have hcount := doMunmap_within_of_zero h hz
  obtain ⟨k, hout⟩ := outcomes_doMunmap h hz
  have hrn := doMunmap_rangeOk hz
  have hfrag := doMunmap_fragments rb conf new newLen h
  obtain ⟨-, L', hd⟩ := (doMunmap_spec rb conf new newLen h).resolve_left fun hne => hne.1 hz
  set t := (doMunmap rb conf s new newLen).2
  have hfree := free_of_outside hd.wf.ordered hrn hd.pages
  have hside : ∀ z ∈ t.mm.mmRb.inorder, ∃ w ∈ s.mm.mmRb.inorder, PartOf (t.mm.vma z) (s.mm.vma w) ∧
      (((t.mm.core z).vmStart = (s.mm.core w).vmStart ∧ (t.mm.core z).vmEnd ≤ new) ∨
        (t.mm.core z).vmEnd = (s.mm.core w).vmEnd ∧
        new+pageAlign newLen ≤ (t.mm.core z).vmStart) := by
    intro z hz'
    obtain ⟨w, hw, hcut⟩ := hfrag z hz'
    have hzL : z ∈ L' := by rwa [hd.wf.rep.inorder] at hz'
    exact ⟨w, hw, hcut.toPartOf, hcut.side (hd.wf.ordered.area z hzL).lt hrn.lt (hfree z hzL)⟩
  intro hgt hr x hx y hy hxy hxs hye hcan
  have hxy : x ≠ y := hxy.resolve_right not_false
  obtain ⟨v, hv, hvx, hvside⟩ := hside x hx
  obtain ⟨w, hw, hwy, hwside⟩ := hside y hy
  rw [hd.wf.rep.inorder] at hx hy
  -- two parts of one area lie on both sides of the range that has been unmapped
  have hvw : v ≠ w ∨ hole := by
    by_contra hnot
    obtain ⟨hvw, hnohole⟩ := not_or.1 hnot
    obtain rfl := not_not.1 hvw
    have hxlt := (hd.wf.ordered.area x hx).lt
    have hylt := (hd.wf.ordered.area y hy).lt
    have hmeet := fun h₁ h₂ => hxy (hd.wf.eq_of_meet hx hy h₁ h₂)
    have hmeet' := fun h₁ h₂ => hxy (hd.wf.eq_of_meet hy hx h₁ h₂).symm
    obtain ⟨hxs₁, hxs₂⟩ : (t.mm.core x).vmStart < start ∧ start < (t.mm.core x).vmEnd := hxs
    obtain ⟨hye₁, hye₂⟩ : (t.mm.core y).vmStart < start+pageAlign len ∧
      start+pageAlign len < (t.mm.core y).vmEnd := hye
    have := hr.lt
    have := hrn.lt
    have hno := fun h₁ h₂ => hnohole (hhole h₁ h₂)
    rcases hvside with ⟨hv₁, hv₂⟩ | ⟨hv₁, hv₂⟩
    · rcases hwside with ⟨hw₁, hw₂⟩ | ⟨hw₁, hw₂⟩
      · exact hmeet (by omega) (by omega)
      · exact hno (by omega) (by omega)
    · rcases hwside with ⟨hw₁, hw₂⟩ | ⟨hw₁, hw₂⟩
      · omega
      · by_cases hle : (t.mm.core y).vmStart ≤ (t.mm.core x).vmStart
        · exact hmeet hle (by omega)
        · exact hmeet' (by omega) (by omega)
  have hgt' : conf.maxMapCount < s.mm.mapCount := by omega
  have hres := hsafe k hgt' hr v hv w hw hvw ⟨hvx.start.trans_lt hxs.1, hxs.2.trans_le hvx.end_⟩
    ⟨hwy.start.trans_lt hye.1, hye.2.trans_le hwy.end_⟩ ?_
  · exact (canCut_drop hout).2 ((canCut_congr hwy.flags hwy.huge).2 hres)
  · exact (canCut_congr hvx.flags hvx.huge).1 ((canCut_drop hout).1 hcan)

/-! The other operations. -/

theorem vmEnoughMemory_mm (s : MmSys) (k : ℤ) : (vmEnoughMemory s k).2.mm = s.mm := by
  unfold vmEnoughMemory
  dsimp only
  split
  · exact outcome_mm _
  · exact outcome_mm _

theorem mapCount_mapDone (s : MmSys) (x : VmaId) (vmFlags : VmFlags) (len : ℕ) :
    (mapDone s x vmFlags len).mm.mapCount = s.mm.mapCount :=
  mapCount_vmStatAccount _ _ _

theorem mapCount_linkNew (rb : Balance VmaId) (s : MmSys) (x : VmaId) (k : VmaLinks) (len : ℕ) :
    (linkNew rb s x k len).mm.mapCount = s.mm.mapCount+1 := by
  unfold linkNew
  rw [mapCount_mapDone]
  rfl

theorem mapCount_mapFileChecks (s : MmSys) (vmFlags : VmFlags) :
    (mapFileChecks s vmFlags).2.mm.mapCount = s.mm.mapCount := by
  have hdeny : (if vmFlags.has VM_DENYWRITE then s.outcome else (0, s)).2.mm.mapCount =
      s.mm.mapCount := by
    split
    · exact (outcome_quiet s).mapCount
    · rfl
  unfold mapFileChecks
  dsimp only
  generalize (if vmFlags.has VM_DENYWRITE then s.outcome else (0, s)) = deny at hdeny ⊢
  split
  · exact hdeny
  split
  · exact (outcome_quiet _).mapCount.trans hdeny
  · exact hdeny

theorem mapCount_mapFile {f : FileId} {k : VmaLinks} {q : MergeReq} {charged : ℤ} :
    (mapFile rb env s x f k q charged).2.mm.mapCount ≤ s.mm.mapCount+1 := by
  have hchecks := mapCount_mapFileChecks s q.vmFlags
  unfold mapFile
  dsimp only
  split
  next => exact Int.le_add_one hchecks.le
  split
  next =>
    rw [fput_mm, getFile_mm]
    exact Int.le_add_one hchecks.le
  next =>
    rw [mapCount_linkNew, getFile_mm]
    exact Int.add_le_add_right hchecks.le 1

theorem mapCount_mapAnon {k : VmaLinks} {q : MergeReq} {charged : ℤ} :
    (mapAnon rb env s x k q charged).2.mm.mapCount ≤ s.mm.mapCount+1 := by
  have hsetup := (outcome_quiet s).mapCount
  unfold mapAnon
  dsimp only
  split
  next =>
    split
    next => exact Int.le_add_one hsetup.le
    next =>
      rw [mapCount_linkNew, getFile_mm]
      exact Int.add_le_add_right hsetup.le 1
  next => exact (mapCount_linkNew _ _ _ _ _).le

theorem mapCount_mapRegion {k : VmaLinks} {q : MergeReq} {charged : ℤ} :
    (mapRegion rb env s k q charged).2.mm.mapCount ≤ s.mm.mapCount+1 := by
  have hmerge : (vmaMerge rb s k.prev q).2.mm.mapCount ≤ s.mm.mapCount := mapCount_vmaMerge
  have halloc := (outcome_quiet (vmaMerge rb s k.prev q).2).mapCount.le.trans hmerge
  unfold mapRegion
  dsimp only
  split
  next => exact (mapCount_mapDone _ _ _ _).le.trans (Int.le_add_one hmerge)
  next =>
    split
    next => exact Int.le_add_one halloc
    next =>
      split
      next => exact mapCount_mapFile.trans (Int.add_le_add_right halloc 1)
      next => exact mapCount_mapAnon.trans (Int.add_le_add_right halloc 1)

theorem mapCount_chargeRegion {k : VmaLinks} {q : MergeReq} :
    (chargeRegion rb env s k q).2.mm.mapCount ≤ s.mm.mapCount+1 := by
  unfold chargeRegion
  dsimp only
  split
  next =>
    have hcharge : (vmEnoughMemory s ((q.end_-q.addr)/4096 : ℕ)).2.mm = s.mm :=
      vmEnoughMemory_mm s _
    split
    next =>
      rw [hcharge]
      exact Int.le_add_one le_rfl
    next =>
      rw [← hcharge]
      exact mapCount_mapRegion
  next => exact mapCount_mapRegion

/-- Below the limit the loop that clears old maps adds one area at most, and none if it succeeds. -/
theorem clearOldMaps_count (rb : Balance VmaId) (conf : MmConf) (addr len fuel : ℕ) (h : Wf s.mm L)
    (hle : s.mm.mapCount ≤ conf.maxMapCount) :
    let r := clearOldMaps rb conf addr len fuel s
    r.2.mm.mapCount ≤ conf.maxMapCount+1 ∧ (r.1 ≠ none → r.2.mm.mapCount ≤ conf.maxMapCount) := by
  dsimp only
  induction fuel generalizing s L with
  | zero => exact ⟨Int.le_add_one hle, fun hne => absurd rfl hne⟩
  | succ fuel ih =>
    unfold clearOldMaps
    split
    next => exact ⟨Int.le_add_one hle, fun _ => hle⟩
    next =>
      dsimp only
      split
      next =>
        refine ⟨doMunmap_within rb h (Int.le_add_one hle) fun hgt => ?_, fun hne => absurd rfl hne⟩
        exact absurd hle (not_le.2 hgt)
      next hz =>
        have hz := not_not.1 hz
        obtain ⟨-, L', hd⟩ := (doMunmap_spec rb conf addr len h).resolve_left fun hne => hne.1 hz
        refine ih hd.wf ?_
        -- an unmap that splits an area has passed the limit test, so the count is within it
        rcases doMunmap_within_of_zero h hz with hless | hmax
        · exact hless.trans hle
        · exact hmax

theorem mmapTaskRegion_count {file : Option FileId} {vmFlags : VmFlags} (h : Wf s.mm L)
    (hle : s.mm.mapCount ≤ env.conf.maxMapCount) :
    (mmapTaskRegion rb env s file addr len vmFlags pgoff).2.mm.mapCount ≤
      env.conf.maxMapCount+1 := by
  obtain ⟨hfail, hok⟩ := clearOldMaps_count rb env.conf addr len 2 h hle
  unfold mmapTaskRegion
  dsimp only
  split
  next => exact Int.le_add_one hle
  next =>
    split
    next => exact hfail
    next k hk =>
      refine mapCount_chargeRegion.trans (Int.add_le_add_right (hok ?_) 1)
      rw [hk]
      exact Option.some_ne_none k

theorem doTaskMmap_count {file : Option FileId} {prot flags : Bits} (h : Wf s.mm L)
    (hle : s.mm.mapCount ≤ env.conf.maxMapCount+1) :
    (doTaskMmap rb env s file addr len prot flags pgoff).2.mm.mapCount ≤
      env.conf.maxMapCount+1 := by
  unfold doTaskMmap
  dsimp only
  split
  next => exact hle
  split
  next => exact hle
  split
  next => exact hle
  split
  next => exact hle
  next hmax =>
    obtain ⟨-, hmm, -⟩ := unmappedAreaOf_spec env s s.mm.topdown file (mapHint env flags addr)
      (pageAlign len) pgoff flags
    rw [getTaskUnmappedArea]
    generalize unmappedAreaOf env s s.mm.topdown file (mapHint env flags addr) (pageAlign len) pgoff
      flags = area at hmm ⊢
    rw [← hmm] at h hmax hle
    split
    next => exact hle
    unfold mapAt
    dsimp only
    split
    next => exact hle
    split
    next => exact hle
    split
    next => exact hle
    next => exact mmapTaskRegion_count h (not_lt.1 hmax)

theorem vmMmapPgoff_count {file : Option FileId} {prot flags : Bits} (h : Wf s.mm L)
    (hle : s.mm.mapCount ≤ env.conf.maxMapCount+1) :
    (vmMmapPgoff rb env s file addr len prot flags pgoff).2.mm.mapCount ≤
      env.conf.maxMapCount+1 := by
  have h₁ := outcome_quiet s
  have h₂ := h₁.trans (outcome_quiet s.outcome.2)
  unfold vmMmapPgoff
  dsimp only
  split
  next => exact h₁.mapCount.le.trans hle
  split
  next => exact h₂.mapCount.le.trans hle
  next => exact doTaskMmap_count (h₂.wf h) (h₂.mapCount.le.trans hle)

theorem withMmapFile_count {k : ℤ} {file : Option FileId} {flags : Bits}
    {map : MmSys → Option FileId → ℕ → Bits → ℤ × MmSys} (hle : s.mm.mapCount ≤ k)
    (hmap : ∀ t file' len' flags', t.mm = s.mm → (map t file' len' flags').2.mm.mapCount ≤ k) :
    (withMmapFile env s file len flags map).2.mm.mapCount ≤ k := by
  unfold withMmapFile
  dsimp only
  split
  next =>
    split
    next => exact hle
    next f =>
      dsimp only
      rw [fput_mm]
      split
      next =>
        rw [getFile_mm]
        exact hle
      next => exact hmap _ _ _ _ (getFile_mm s _)
  split
  next =>
    split
    next => exact hle
    next =>
      split
      next => exact (outcome_quiet s).mapCount.le.trans hle
      next =>
        dsimp only
        rw [fput_mm]
        exact hmap _ _ _ _ ((getFile_mm _ _).trans (outcome_mm s))
  next => exact hmap _ _ _ _ rfl

theorem doMmapRemote_count {file : Option FileId} {prot flags : Bits} {offset : ℕ} (h : Wf s.mm L)
    (hle : s.mm.mapCount ≤ env.conf.maxMapCount+1) :
    (doMmapRemote rb env s file addr len prot flags offset).2.mm.mapCount ≤
      env.conf.maxMapCount+1 := by
  refine withMmapFile_count hle fun t file' len' flags' hmm => ?_
  rw [← hmm] at h hle
  unfold vmMmapRemote
  split
  next => exact hle
  split
  next => exact hle
  next => exact vmMmapPgoff_count h hle

theorem mmapPgoff_count {file : Option FileId} {prot flags : Bits} (h : Wf s.mm L)
    (hle : s.mm.mapCount ≤ env.conf.maxMapCount+1) :
    (mmapPgoff rb env s file addr len prot flags pgoff).2.mm.mapCount ≤ env.conf.maxMapCount+1 := by
  refine withMmapFile_count hle fun t file' len' flags' hmm => ?_
  rw [← hmm] at h hle
  exact vmMmapPgoff_count h hle

theorem mapCount_protDone (s : MmSys) (x : VmaId) (oldflags newflags : VmFlags)
    (nrpages : BitVec 64) :
    (protDone s x oldflags newflags nrpages).mm.mapCount = s.mm.mapCount := by
  show (vmStatAccount (vmStatAccount _ _ _) _ _).mapCount = _
  rw [mapCount_vmStatAccount, mapCount_vmStatAccount]
  rfl

section Mprotect

variable (hconf : conf.maxMapCount ≤ max)
include hconf

theorem mapCount_protSplit (hle : s.mm.mapCount ≤ max) :
    (protSplit rb conf s x start end_).2.mm.mapCount ≤ max := by
  have hfirst : (if start ≠ (s.mm.vma x).vmStart then splitVma rb conf s x start true
    else (0, s)).2.mm.mapCount ≤
      max := by
    split
    · exact mapCount_splitVma hle hconf
    · exact hle
  unfold protSplit
  dsimp only
  generalize (if start ≠ (s.mm.vma x).vmStart then splitVma rb conf s x start true else (0, s)) =
    first at hfirst ⊢
  split
  · exact hfirst
  split
  · exact mapCount_splitVma hfirst hconf
  · exact hfirst

theorem mapCount_protApply {prev : Option VmaId} {newflags : VmFlags} {charged : ℤ}
    (hle : s.mm.mapCount ≤ max) :
    (protApply rb conf s x prev start end_ newflags charged).2.2.mm.mapCount ≤ max := by
  unfold protApply
  dsimp only
  split
  next => exact (mapCount_protDone _ _ _ _ _).le.trans (mapCount_vmaMerge.trans hle)
  next =>
    split
    next => exact mapCount_protSplit hconf (mapCount_vmaMerge.trans hle)
    next =>
      exact (mapCount_protDone _ _ _ _ _).le.trans
        (mapCount_protSplit hconf (mapCount_vmaMerge.trans hle))

end Mprotect

theorem mapCount_mprotectFixup (rb : Balance VmaId) (x : VmaId) (prev : Option VmaId)
    (start end_ : ℕ) (newflags : VmFlags) (hconf : env.conf.maxMapCount ≤ max)
    (hle : s.mm.mapCount ≤ max) :
    (mprotectFixup rb env s x prev start end_ newflags).2.2.mm.mapCount ≤ max := by
  unfold mprotectFixup
  dsimp only
  split
  next => exact hle
  split
  next => exact hle
  split
  next =>
    have hcharge : (vmEnoughMemory s ((end_-start)/4096 : ℕ)).2.mm = s.mm := vmEnoughMemory_mm s _
    rw [← hcharge] at hle
    split
    next => exact hle
    next => exact mapCount_protApply hconf hle
  next => exact mapCount_protApply hconf hle

theorem mapCount_mprotectLoop {reqprot : Bits} (hconf : env.conf.maxMapCount ≤ max) (fuel : ℕ)
    {prev : Option VmaId} (hle : s.mm.mapCount ≤ max) :
    (mprotectLoop rb env reqprot end_ fuel s x prev start).2.mm.mapCount ≤ max := by
  induction fuel generalizing s x prev start with
  | zero => exact hle
  | succ fuel ih =>
    have hsec := (outcome_quiet s).mapCount.le.trans hle
    unfold mprotectLoop
    dsimp only
    split
    next => exact hle
    split
    next => exact hsec
    -- behind the fixup the round only decides whether to go on
    have hfixup := mapCount_mprotectFixup rb x prev start (min (s.mm.vma x).vmEnd end_)
      (protFlags env (s.mm.vma x) reqprot) hconf hsec
    generalize mprotectFixup rb env s.outcome.2 x prev start (min (s.mm.vma x).vmEnd end_)
      (protFlags env (s.mm.vma x) reqprot) = fixup at hfixup ⊢
    split
    next => exact hfixup
    split
    next => exact hfixup
    split
    next => exact hfixup
    split
    next => exact hfixup
    split
    next => exact hfixup
    next => exact ih hfixup

theorem mapCount_doMprotectPkeyTask {prot : Bits} {pkeyOk : Bool}
    (hconf : env.conf.maxMapCount ≤ max) (hle : s.mm.mapCount ≤ max) :
    (doMprotectPkeyTask rb env s start len prot pkeyOk).2.mm.mapCount ≤ max := by
  have hlock := (outcome_quiet s).mapCount.le.trans hle
  unfold doMprotectPkeyTask
  dsimp only
  split
  next => exact hle
  split
  next => exact hle
  split
  next => exact hle
  split
  next => exact hle
  split
  next => exact hle
  split
  next => exact hlock
  split
  next => exact hlock
  unfold mprotectRange
  split
  next => exact hlock
  dsimp only
  split
  next =>
    split
    next => exact hlock
    split
    next => exact hlock
    next => exact mapCount_mprotectLoop hconf _ hlock
  split
  next => exact hlock
  split
  next => exact hlock
  next => exact mapCount_mprotectLoop hconf _ hlock

theorem mapCount_copyNew (rb : Balance VmaId) (s : MmSys) (x : VmaId) (addr len : ℕ)
    (pgoff : BitVec 64) (k : VmaLinks) :
    (copyNew rb s x addr len pgoff k).2.mm.mapCount ≤ s.mm.mapCount+1 := by
  have h₁ := (outcome_quiet s).mapCount
  unfold copyNew
  dsimp only
  split
  next => exact Int.le_add_one h₁.le
  set s₂ := allocVma s.outcome.2
    { s.mm.vma x with vmStart := addr, vmEnd := addr+len, vmPgoff := pgoff, anonChain := 0 }
  have h₂ : s₂.outcome.2.mm.mapCount = s.mm.mapCount := (outcome_quiet s₂).mapCount.trans h₁
  split
  next => exact Int.le_add_one h₂.le
  have h₃ := (anonVmaClone_quiet s₂.outcome.2 s.outcome.2.mm.nextId x).mapCount.trans h₂
  split
  next => exact Int.le_add_one h₃.le
  next =>
    show ((anonVmaClone _ _ _).2.getFile _).mm.mapCount+1 ≤ _
    rw [getFile_mm, h₃]

theorem mapCount_copyVma (rb : Balance VmaId) (s : MmSys) (x : VmaId) (addr len : ℕ)
    (pgoff : BitVec 64) :
    (copyVma rb s x addr len pgoff).2.mm.mapCount ≤ s.mm.mapCount+1 := by
  unfold copyVma
  dsimp only
  split
  next => exact Int.le_add_one le_rfl
  split
  next => exact Int.le_add_one mapCount_vmaMerge
  next => exact (mapCount_copyNew _ _ _ _ _ _ _).trans (Int.add_le_add_right mapCount_vmaMerge 1)

theorem mapCount_restorePieces (mm : Mm) (x : VmaId) (split : Bool) :
    (restorePieces mm x split).mapCount = mm.mapCount := by
  unfold restorePieces
  dsimp only
  split
  · split <;> rfl
  · rfl

theorem mapCount_unmapCharged (rb : Balance VmaId) (conf : MmConf) (s : MmSys) (x : VmaId)
    (addr len excess : ℕ) (split : Bool) :
    (unmapCharged rb conf s x addr len excess split).mm.mapCount ≤ s.mm.mapCount+2 := by
  unfold unmapCharged
  dsimp only
  split
  next => exact mapCount_doMunmap
  split
  next => exact (mapCount_restorePieces _ _ _).le.trans mapCount_doMunmap
  next => exact mapCount_doMunmap

theorem mapCount_moveDone (rb : Balance VmaId) (conf : MmConf) (s : MmSys) (x : VmaId)
    (addr len newLen : ℕ) (vmFlags : VmFlags) :
    (moveDone rb conf s x addr len newLen vmFlags).mm.mapCount ≤ s.mm.mapCount+2 := by
  have hunmap : ∀ mm excess split, mm.mapCount = s.mm.mapCount →
      (unmapCharged rb conf
        (s.setMm (vmStatAccount mm (mm.vma x).vmFlags (BitVec.ofNat 64 (newLen/4096)))) x addr len
        excess split).mm.mapCount ≤ s.mm.mapCount+2 := by
    intro mm excess split hmm
    refine (mapCount_unmapCharged _ _ _ _ _ _ _ _).trans (Int.add_le_add_right ?_ 2)
    exact ((mapCount_vmStatAccount _ _ _).trans hmm).le
  have hmid := hunmap (concealAcct s.mm x)
  have hmid' := hunmap s.mm 0 false rfl
  unfold moveDone
  dsimp only
  split
  · split
    · exact hmid _ _ rfl
    · exact hmid'
  · split
    · exact hmid _ _ rfl
    · exact hmid'

theorem moveTables_mm (s : MmSys) (x : VmaId) : (moveTables s x).2.mm = s.mm := by
  unfold moveTables
  dsimp only
  split
  next => exact outcome_mm s
  split
  next => exact (outcome_mm _).trans (outcome_mm s)
  next => exact outcome_mm s

/-- `move_vma` leaves room for the three areas it may add. -/
theorem mapCount_moveVma (rb : Balance VmaId) (env : MmEnv) (x : VmaId)
    (oldAddr oldLen newLen newAddr : ℕ) (hconf : env.conf.maxMapCount ≤ max)
    (hle : s.mm.mapCount ≤ max) :
    (moveVma rb env s x oldAddr oldLen newLen newAddr).2.2.mm.mapCount ≤ max := by
  have hksm := (outcome_quiet s).mapCount
  unfold moveVma
  dsimp only
  split
  next => exact hle
  next hroom =>
    split
    next => exact hksm.le.trans hle
    have hcopy := mapCount_copyVma rb s.outcome.2 x newAddr newLen ((s.mm.vma x).pgoffAt oldAddr)
    generalize copyVma rb s.outcome.2 x newAddr newLen ((s.mm.vma x).pgoffAt oldAddr) =
      copy at hcopy ⊢
    split
    next => exact hcopy.trans (by omega)
    next new y hsome =>
      have htables := congrArg Mm.mapCount (moveTables_mm copy.2 y)
      split
      next => exact (mapCount_moveDone _ _ _ _ _ _ _ _).trans (by omega)
      next => exact (mapCount_moveDone _ _ _ _ _ _ _ _).trans (by omega)

theorem vmaToResizeTask_mm (env : MmEnv) (s : MmSys) (addr oldLen newLen : ℕ) :
    (vmaToResizeTask env s addr oldLen newLen).2.mm = s.mm := by
  rcases vmaToResizeTask_state env s addr oldLen newLen with h | ⟨k, h⟩
  · rw [h]
  · rw [h]
    exact vmEnoughMemory_mm s k

theorem mapCount_moveTo (rb : Balance VmaId) (env : MmEnv) (addr oldLen newAddr newLen : ℕ)
    (hconf : env.conf.maxMapCount ≤ max) (hle : s.mm.mapCount ≤ max) :
    (moveTo rb env s addr oldLen newAddr newLen).2.2.mm.mapCount ≤ max := by
  have hmm := vmaToResizeTask_mm env s addr oldLen newLen
  unfold moveTo moveWith
  dsimp only
  generalize vmaToResizeTask env s addr oldLen newLen = resize at hmm ⊢
  rw [← hmm] at hle
  split
  next => exact hle
  next x charged hok =>
    have harea := (unmappedAreaOf_spec env resize.2 (env.cur resize.2.mm).topdown
      (resize.2.mm.vma x).vmFile newAddr
      newLen ((resize.2.mm.vma x).pgoffAt addr) (MAP_FIXED ||| moveFlags (resize.2.mm.vma x))).2.1
    rw [getUnmappedArea]
    generalize unmappedAreaOf env resize.2 (env.cur resize.2.mm).topdown
      (resize.2.mm.vma x).vmFile newAddr
      newLen ((resize.2.mm.vma x).pgoffAt addr) (MAP_FIXED ||| moveFlags (resize.2.mm.vma x)) =
        area at harea ⊢
    rw [← harea] at hle
    split
    next => exact hle
    split
    next => exact mapCount_moveVma rb env x addr oldLen newLen newAddr hconf hle
    next => exact mapCount_moveVma rb env x addr oldLen newLen newAddr hconf hle

theorem mapCount_growInPlace (rb : Balance VmaId) (s : MmSys) (x : VmaId) (addr oldLen newLen : ℕ) :
    (growInPlace rb s x addr oldLen newLen).2.2.mm.mapCount ≤ s.mm.mapCount := by
  unfold growInPlace
  dsimp only
  split
  next => exact mapCount_vmaAdjust
  split
  next => exact (mapCount_vmStatAccount _ _ _).le.trans mapCount_vmaAdjust
  next => exact (mapCount_vmStatAccount _ _ _).le.trans mapCount_vmaAdjust

theorem mapCount_growArea (rb : Balance VmaId) (env : MmEnv) (x : VmaId) (addr oldLen newLen : ℕ)
    (flags : Bits) (hconf : env.conf.maxMapCount ≤ max) (hle : s.mm.mapCount ≤ max) :
    (growArea rb env s x addr oldLen newLen flags).2.2.mm.mapCount ≤ max := by
  have hexpand : (if oldLen = (s.mm.vma x).vmEnd-addr then vmaExpandable env s x (newLen-oldLen)
      else (false, s)).2.mm = s.mm := by
    split
    · exact vmaExpandable_mm
    · rfl
  unfold growArea
  dsimp only
  generalize (if oldLen = (s.mm.vma x).vmEnd-addr then vmaExpandable env s x (newLen-oldLen)
      else (false, s)) = expand at hexpand ⊢
  rw [← hexpand] at hle
  split
  next => exact (mapCount_growInPlace _ _ _ _ _ _).trans hle
  unfold growByMove
  dsimp only
  split
  next =>
    have harea :=
      (unmappedAreaOf_spec env expand.2 expand.2.mm.topdown (expand.2.mm.vma x).vmFile 0 newLen
      ((expand.2.mm.vma x).pgoffAt addr) (moveFlags (expand.2.mm.vma x))).2.1
    rw [getTaskUnmappedArea]
    generalize unmappedAreaOf env expand.2 expand.2.mm.topdown (expand.2.mm.vma x).vmFile 0 newLen
      ((expand.2.mm.vma x).pgoffAt addr) (moveFlags (expand.2.mm.vma x)) = area at harea ⊢
    rw [← harea] at hle
    split
    next => exact hle
    next => exact mapCount_moveVma rb env x addr oldLen newLen _ hconf hle
  next => exact hle

theorem mapCount_mremapGrow (rb : Balance VmaId) (env : MmEnv) (addr oldLen newLen : ℕ)
    (flags : Bits) (hconf : env.conf.maxMapCount ≤ max) (hle : s.mm.mapCount ≤ max) :
    (mremapGrow rb env s addr oldLen newLen flags).2.2.mm.mapCount ≤ max := by
  have hmm := vmaToResizeTask_mm env s addr oldLen newLen
  unfold mremapGrow growWith
  dsimp only
  generalize vmaToResizeTask env s addr oldLen newLen = resize at hmm ⊢
  rw [← hmm] at hle
  split
  next => exact hle
  next x charged hok =>
    have hgrow := mapCount_growArea rb env x addr oldLen newLen flags hconf hle
    split
    next => exact hgrow
    next => exact hgrow

end PtraceRemote
