import PtraceRemote.MmSplit

/-! Taking a run of areas out of an address space: `detach_vmas_to_be_unmapped`, then the accounting
of `remove_vma_list`. -/
namespace PtraceRemote

open AugTree (Balance)
open Linked (Seg)

variable {mm : Mm} {s : MmSys} {rb : Balance VmaId} {L A M B : List VmaId} {S : Set VmaId}
  {x : VmaId}

abbrev eraseStep (rb : Balance VmaId) (mm : Mm) (y : VmaId) : Mm :=
  { vmaRbErase rb mm y with mapCount := mm.mapCount-1 }

/-- The loop changes the tree and the count only; the gap of the first area may be stale. -/
theorem eraseAll_spec (rb : Balance VmaId) (hord : mm.mmRb.inorder = A ++ (M ++ B))
    (hnd : (A ++ (M ++ B)).Nodup) (hok : mm.mmRb.Ok mm.ownGap mm.rbSubtreeGap S)
    (hS : ∀ y ∈ S, M.head? = some y) :
    ∃ t g, M.foldl (eraseStep rb) mm =
        { mm with mmRb := t, rbSubtreeGap := g, mapCount := mm.mapCount-M.length } ∧
      t.inorder = A ++ B ∧ t.Ok mm.ownGap g ∅ := by
  induction M generalizing mm S with
  | nil =>
    refine ⟨mm.mmRb, mm.rbSubtreeGap, ?_, hord, hok.mono fun y hy => by simpa using hS y hy⟩
    simp
  | cons y ys ih =>
    have hyA : y ∉ A := fun hy => (List.nodup_append.1 hnd).2.2 y hy y (by simp) rfl
    have hnd' : (A ++ (ys ++ B)).Nodup := by
      refine hnd.sublist ((List.Sublist.refl A).append ?_)
      exact List.sublist_cons_self y (ys ++ B)
    have htree : mm.mmRb.inorder.Nodup := hord ▸ hnd
    have hord' : (eraseStep rb mm y).mmRb.inorder = A ++ (ys ++ B) := by
      show (rb.erase _ _ _ _).1.inorder = _
      rw [rb.inorder_erase _ _ _ _ htree, hord, List.erase_append_right _ hyA, List.cons_append,
        List.erase_cons_head]
    have hok' :
        (eraseStep rb mm y).mmRb.Ok (eraseStep rb mm y).ownGap (eraseStep rb mm y).rbSubtreeGap ∅ :=
      rb.ok_erase _ _ _ _ ∅ htree (hok.mono fun z hz => .inl (by simpa using (hS z hz).symm))
    -- erasing the first area repairs its stale gap, so the rest starts from a clean tree
    obtain ⟨t, g, hfold, ht, hg⟩ := ih hord' hnd' hok' (by simp)
    refine ⟨t, g, ?_, ht, hg⟩
    rw [List.foldl_cons, hfold]
    congr 1
    show mm.mapCount-1-(ys.length : ℤ) = mm.mapCount-((y :: ys).length : ℤ)
    push_cast [List.length_cons]
    ring

def highestAfter (mm : Mm) (rest prev : Option VmaId) : ℕ :=
  match rest, prev with
  | some _, _ => mm.highestVmEnd
  | none, some p => (mm.vma p).vmEnd
  | none, none => 0

/-- Detaching the areas `M` closes the list and the gaps over them. -/
theorem Wf.detach (rb : Balance VmaId) (h : Wf mm (A ++ (M ++ B))) :
    Wf (detachVmas rb mm M A.getLast? B.head?) (A ++ B) ∧
      (detachVmas rb mm M A.getLast? B.head?).core = mm.core ∧
      (detachVmas rb mm M A.getLast? B.head?).rest = mm.rest := by
  have hnd := h.rep.nodup
  have hAM : ∀ y ∈ A, y ∉ M ++ B := fun y hA hM => (List.nodup_append.1 hnd).2.2 y hA y hM rfl
  -- the first area loses its predecessor before the tree is touched
  set mm₁ := { mm with vmPrev := setLink mm.vmPrev M.head? none } with hmm₁
  have hown₁ : ∀ y, M.head? ≠ some y → mm₁.ownGap y = mm.ownGap y := fun y hy => by
    have : mm₁.vmPrev y = mm.vmPrev y := setLink_of_ne hy
    unfold Mm.ownGap
    rw [this]
  have hok₁ : mm₁.mmRb.Ok mm₁.ownGap mm₁.rbSubtreeGap {y | M.head? = some y} :=
    h.rep.gaps.congr (fun _ _ => rfl) fun y _ hyS => ⟨Set.notMem_empty y, hown₁ y hyS⟩
  obtain ⟨t, g, hfold, hord, hok⟩ := eraseAll_spec rb
    (show mm₁.mmRb.inorder = A ++ (M ++ B) from h.rep.inorder) hnd hok₁ fun y hy => hy
  -- then the neighbours of the hole are linked and the gap after it is repaired
  set mm₂ : Mm := { mm with
    mmRb := t, rbSubtreeGap := g, mapCount := mm.mapCount-M.length
    mmap := headAfter mm.mmap A.getLast? B.head?
    vmNext := setLink mm.vmNext A.getLast? B.head?
    vmPrev := setLink (setLink mm.vmPrev M.head? none) B.head? A.getLast? } with hmm₂
  have hown₂ : ∀ y ∈ A ++ B, B.head? ≠ some y → mm₂.ownGap y = mm₁.ownGap y := fun y _ hy => by
    have : mm₂.vmPrev y = mm₁.vmPrev y := setLink_of_ne hy
    unfold Mm.ownGap
    rw [this]
  have hseg : Seg (setLink mm₂.vmNext M.getLast? none) mm₂.vmPrev none (A ++ B) none := by
    refine h.rep.seg.cut hnd (fun y hy hl => ?_) (fun y hy => ?_) (fun y hy hb => ?_) fun y hy => ?_
    · rw [setLink_of_ne fun he => hy (List.mem_of_getLast? he)]
      exact setLink_of_ne hl
    · have hyA := List.mem_of_getLast? hy
      rw [setLink_of_ne fun he => hAM y hyA (by simp [List.mem_of_getLast? he])]
      show setLink mm.vmNext A.getLast? B.head? y = _
      rw [hy]; exact setLink_some
    · show setLink (setLink mm.vmPrev M.head? none) B.head? A.getLast? y = _
      rw [setLink_of_ne hb, setLink_of_ne fun he => hy (List.mem_of_head? he)]
    · show setLink (setLink mm.vmPrev M.head? none) B.head? A.getLast? y = _
      rw [hy]; exact setLink_some
  have hnd₂ : (A ++ B).Nodup := by
    refine hnd.sublist ((List.Sublist.refl A).append ?_)
    exact List.sublist_append_right M B
  have hok₂ : t.Ok mm₂.ownGap g {y | B.head? = some y} :=
    hok.congr (fun _ _ => rfl) fun y hy hyS => ⟨Set.notMem_empty y, hown₂ y (hord ▸ hy) hyS⟩
  have hok₃ : t.Ok mm₂.ownGap (gapUpdateNext mm₂ B.head?).rbSubtreeGap ∅ := by
    cases B with
    | nil => exact hok₂.mono fun y hy => by simp at hy
    | cons b bs =>
      refine AugTree.Ok.repair (hok₂.mono fun y hy => ?_) (hord ▸ hnd₂) (by rw [hord]; simp)
      exact Set.mem_insert_iff.2 (.inl (by simpa using hy.symm))
  have hdef : detachVmas rb mm M A.getLast? B.head? =
      { gapUpdateNext mm₂ B.head? with
        highestVmEnd := highestAfter mm B.head? A.getLast?
        vmNext := setLink mm₂.vmNext M.getLast? none } := by
    unfold detachVmas
    dsimp only
    rw [show List.foldl (fun mm y => { vmaRbErase rb mm y with mapCount := mm.mapCount-1 }) _ M =
      M.foldl (eraseStep rb) mm₁ from rfl, hfold]
    rfl
  rw [hdef]
  refine ⟨⟨⟨?_, hseg, hnd₂, hord, hok₃, ?_, fun y hy => h.rep.fresh y ?_⟩, ?_, ?_⟩, rfl, rfl⟩
  · show headAfter mm.mmap A.getLast? B.head? = _
    rw [h.rep.head]
    exact headAfter_eq
  · show mm.mapCount-(M.length : ℤ) = _
    rw [h.rep.count]
    simp only [List.length_append]
    push_cast
    ring
  · simp only [List.mem_append] at hy ⊢
    tauto
  · exact h.ordered.sublist ((List.Sublist.refl A).append (List.sublist_append_right M B))
  · show highestAfter mm B.head? A.getLast? = topEnd mm.core (A ++ B)
    cases B with
    | nil =>
      rw [List.append_nil, topEnd, List.head?_nil]
      cases A.getLast? <;> rfl
    | cons b bs =>
      show mm.highestVmEnd = _
      rw [h.highest, ← List.append_assoc, topEnd_append (by simp), topEnd_append (by simp)]

def Mm.shape (mm : Mm) : Mm :=
  { mm with totalVm := 0, execVm := 0, stackVm := 0, dataVm := 0, lockedVm := 0 }

theorem wf_shape : Wf mm.shape L ↔ Wf mm L :=
  ⟨fun h =>
    ⟨⟨h.rep.head, h.rep.seg, h.rep.nodup, h.rep.inorder, h.rep.gaps, h.rep.count, h.rep.fresh⟩,
    h.ordered, h.highest⟩,
   fun h =>
     ⟨⟨h.rep.head, h.rep.seg, h.rep.nodup, h.rep.inorder, h.rep.gaps, h.rep.count, h.rep.fresh⟩,
    h.ordered, h.highest⟩⟩

theorem Wf.of_shape {mm' : Mm} (h : Wf mm L) (hs : mm'.shape = mm.shape) : Wf mm' L :=
  wf_shape.1 (hs ▸ wf_shape.2 h)

theorem core_of_shape {mm' : Mm} (hs : mm'.shape = mm.shape) : mm'.core = mm.core :=
  (congrArg Mm.core hs :)

@[simp] theorem shape_vmStatAccount (flags : VmFlags) (n : BitVec 64) :
    (vmStatAccount mm flags n).shape = mm.shape := by
  unfold vmStatAccount
  dsimp only
  split
  · rfl
  split
  · rfl
  split <;> rfl

theorem lockedVm_vmStatAccount (mm : Mm) (flags : VmFlags) (k : BitVec 64) :
    (vmStatAccount mm flags k).lockedVm = mm.lockedVm := by
  unfold vmStatAccount
  dsimp only
  repeat' split
  all_goals rfl

def lockVec (n : BitVec 64) : Ledger := (0, 0, 0, 0, n, 0, 0)

def acctVec (n : ℤ) : Ledger := (0, 0, 0, 0, 0, n, 0)

theorem charge_block {start end_ : ℕ} {file : Option FileId} {pgoff : BitVec 64} {flags : VmFlags} :
    charge (blockPages start end_ file pgoff flags) =
      statVec flags (BitVec.ofNat 64 ((end_-start)/4096)) +
        lockVec (if flags.has VM_LOCKED then BitVec.ofNat 64 ((end_-start)/4096) else 0) +
        acctVec (if flags.has VM_ACCOUNT then ((end_-start)/4096 : ℕ) else 0) := by
  have hl : (cleanFlags flags).has VM_LOCKED = flags.has VM_LOCKED := has_cleanFlags (by decide)
  have ha : (cleanFlags flags).has VM_ACCOUNT = flags.has VM_ACCOUNT := has_cleanFlags (by decide)
  have hif : ∀ (c : Bool) (n : ℕ), BitVec.ofNat 64 (if c then n else 0) =
      if c then BitVec.ofNat 64 n else 0 := fun c n => by cases c <;> rfl
  unfold charge
  rw [pagesOf_block rfl, pagesOf_block (isExecMapping_clean _),
    pagesOf_block (isStackMapping_clean _),
    pagesOf_block (isDataMapping_clean _), pagesOf_block (P := (·.has VM_LOCKED)) hl,
    pagesOf_block (P := (·.has VM_ACCOUNT)) ha]
  simp [statVec, lockVec, acctVec, hif]

theorem charge_weight (v : Vma) : charge (v.weight single) =
    statVec v.vmFlags (BitVec.ofNat 64 v.pages) +
      lockVec (if v.vmFlags.has VM_LOCKED then BitVec.ofNat 64 v.pages else 0) +
      acctVec (if v.vmFlags.has VM_ACCOUNT then v.pages else 0) :=
  charge_block

theorem statVec_neg (flags : VmFlags) (n : BitVec 64) : statVec flags (-n) = -statVec flags n := by
  have hif : ∀ c : Bool, (if c then -n else 0) = -(if c then n else 0) :=
    fun c => by cases c <;> simp
  simp only [statVec, hif, Prod.neg_mk, neg_zero]

theorem counters_fput (s : MmSys) (file : Option FileId) :
    counters (s.fput file) = counters s - refVec file 1 :=
  counters_dropRefs (by rw [fput_mm]) (fput_fCount _ _) (fput_committed _ _)

theorem counters_removeVma (s : MmSys) (x : VmaId) : counters (removeVma s x) = counters s -
    statVec (s.mm.core x).vmFlags (BitVec.ofNat 64 (s.mm.core x).pages) - refVec
      (s.mm.core x).vmFile 1 := by
  unfold removeVma
  dsimp only
  rw [counters_fput, counters_vmStatAccount, statVec_neg, ← sub_eq_add_neg]
  rfl

theorem removeVma_shape (s : MmSys) (x : VmaId) : (removeVma s x).mm.shape = s.mm.shape := by
  unfold removeVma
  rw [fput_mm]
  exact shape_vmStatAccount _ _

theorem foldl_removeVma (s : MmSys) (M : List VmaId) : (M.foldl removeVma s).mm.shape = s.mm.shape ∧
    counters (M.foldl removeVma s) = counters s -
      (M.map fun y => statVec (s.mm.core y).vmFlags (BitVec.ofNat 64 (s.mm.core y).pages)).sum -
      references s.mm.core M := by
  induction M generalizing s with
  | nil => exact ⟨rfl, by simp [show references s.mm.core [] = 0 from rfl]⟩
  | cons y ys ih =>
    obtain ⟨hs, hc⟩ := ih (removeVma s y)
    have hcore := core_of_shape (removeVma_shape s y)
    refine ⟨hs.trans (removeVma_shape s y), ?_⟩
    rw [List.foldl_cons, hc, hcore, counters_removeVma, references_cons, List.map_cons,
      List.sum_cons]
    abel

theorem foldl_removeVma_lockedVm (s : MmSys) (M : List VmaId) :
    (M.foldl removeVma s).mm.lockedVm = s.mm.lockedVm := by
  induction M generalizing s with
  | nil => rfl
  | cons y ys ih =>
    rw [List.foldl_cons, ih, removeVma, fput_mm]
    exact lockedVm_vmStatAccount _ _ _

end PtraceRemote
