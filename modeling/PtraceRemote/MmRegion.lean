import PtraceRemote.MmMap
import PtraceRemote.MmMunmap

/-! `mmap_task_region` and `do_brk`: what they add to the address space, and what a failure
leaves. -/
namespace PtraceRemote

open AugTree (Balance)

variable {mm : Mm} {s s' s'' : MmSys} {rb : Balance VmaId} {L L' A B : List VmaId} {x n : VmaId}
  {core : VmaId → Vma} {q : MergeReq} {flags : VmFlags} {G : Prop}

/-- Areas may change as long as they keep their bounds. -/
theorem Wf.relabel (h : Wf mm L) {vma' : VmaId → Vma}
    (hb : ∀ y, (vma' y).vmStart = (mm.vma y).vmStart ∧ (vma' y).vmEnd = (mm.vma y).vmEnd) :
    Wf { mm with vma := vma' } L := by
  refine ⟨h.rep.reshape _ fun y _ hy => ⟨hy, ?_⟩, ⟨?_, fun y hy => ?_⟩, ?_⟩
  · unfold Mm.ownGap
    dsimp only
    cases mm.vmPrev y with
    | none => exact (hb y).1
    | some p => exact congrArg₂ wsub (hb y).1 (hb p).2
  · refine h.ordered.sorted.imp fun {a b} hab => ?_
    show (vma' a).vmEnd ≤ (vma' b).vmStart
    rw [(hb a).2, (hb b).1]
    exact hab
  · show RangeOk (vma' y).vmStart (vma' y).vmEnd
    rw [(hb y).1, (hb y).2]
    exact h.ordered.area y hy
  · exact h.highest.trans (topEnd_congr fun y _ => (hb y).2).symm

theorem Wf.modVma (h : Wf mm L) {f : Vma → Vma}
    (hf : (f (mm.vma x)).vmStart = (mm.vma x).vmStart ∧ (f (mm.vma x)).vmEnd = (mm.vma x).vmEnd) :
    Wf (mm.modVma x f) L := by
  refine h.relabel fun y => ?_
  by_cases hy : y = x
  · subst hy; rw [Function.update_self]; exact hf
  · rw [Function.update_of_ne hy]; exact ⟨rfl, rfl⟩

/-- The books after one area has changed its flags and the counters by `e`. -/
theorem ledger_update {w : Vma} {e : Ledger} (hx : x ∉ A ∧ x ∉ B)
    (hcore : s'.mm.core = Function.update s.mm.core x w) (hw : w.vmFile = (s.mm.core x).vmFile)
    (hc : counters s' = counters s + e) : ledger s' (A ++ x :: B) =
      ledger s (A ++ x :: B) + e + charge ((s.mm.core x).weight single) - charge
        (w.weight single) := by
  have hr : references (Function.update s.mm.core x w) (A ++ x :: B) =
      references s.mm.core (A ++ x :: B) :=
    references_congr fun y _ => by
      by_cases hy : y = x
      · subst hy; rw [Function.update_self, hw]
      · rw [Function.update_of_ne hy]
  rw [ledger, ledger, hcore, hr, hc, pages, total_update hx, pages, total_append, total_cons,
    charge_add, charge_add, charge_add, charge_add]
  abel

theorem pages_update {w : Vma} (hx : x ∉ A ∧ x ∉ B) :
    pages (Function.update core x w) (A ++ x :: B) + (core x).weight single =
      pages core (A ++ x :: B) + w.weight single := by
  rw [pages, total_update hx, pages, total_append, total_cons]
  abel

def isSpecial (flags : VmFlags) : Bool := flags.has VM_SPECIAL || flags.has VM_HUGETLB

def doneFlags (flags : VmFlags) : VmFlags :=
  if flags.has VM_LOCKED && isSpecial flags then flags &&& VM_LOCKED_CLEAR_MASK else flags

structure Placed (s : MmSys) (L : List VmaId) (s' : MmSys) (A : List VmaId) (x : VmaId)
    (B : List VmaId) (start end_ : ℕ) (file : Option FileId) (pgoff : BitVec 64) (flags : VmFlags) :
    Prop where
  wf : Wf s'.mm (A ++ x :: B)
  shows : cleanFlags (s'.mm.core x).vmFlags = cleanFlags flags
  adds : pages s'.mm.core (A ++ x :: B) = pages s.mm.core L + blockPages start end_ file pgoff flags
  books : ledger s' (A ++ x :: B) = ledger s L - charge (blockPages start end_ file pgoff flags)
  alone : isSpecial flags = true → s'.mm.core x =
    { s'.mm.core x with
      vmStart := start, vmEnd := end_, vmFile := file, vmPgoff := pgoff, vmFlags := flags }
  fixed : s'.mm.fixed = s.mm.fixed

theorem has_of_clean {a b m : VmFlags} (h : cleanFlags a = cleanFlags b)
    (hm : ~~~VM_SOFTDIRTY &&& m = m) :
    a.has m = b.has m := by
  rw [← has_cleanFlags hm, h, has_cleanFlags hm]

theorem and_and_of_sub {a m k : VmFlags} (h : m &&& k = k) : a &&& m &&& k = a &&& k := by
  rw [BitVec.and_assoc, h]

def VM_CLASS : VmFlags := VM_EXEC ||| VM_WRITE ||| VM_SHARED ||| VM_STACK

theorem statVec_congr {a b : VmFlags} (h : a &&& VM_CLASS = b &&& VM_CLASS) (k : BitVec 64) :
    statVec a k = statVec b k := by
  have hand : ∀ m, VM_CLASS &&& m = m → a &&& m = b &&& m := fun m hm => by
    rw [← and_and_of_sub hm, h, and_and_of_sub hm]
  have h₁ :
      isExecMapping a = isExecMapping b := by rw [isExecMapping, hand _ (by decide), isExecMapping]
  have h₂ : isStackMapping a = isStackMapping b := by
    rw [isStackMapping, hand _ (by decide), isStackMapping]
  have h₃ :
      isDataMapping a = isDataMapping b := by rw [isDataMapping, hand _ (by decide), isDataMapping]
  rw [statVec, h₁, h₂, h₃, statVec]

/-- Taking the lock bits away does not change what a page counts as otherwise. -/
theorem charge_unlocked {start end_ : ℕ} {file : Option FileId} {pgoff : BitVec 64} :
    charge (blockPages start end_ file pgoff (flags &&& VM_LOCKED_CLEAR_MASK)) =
      statVec flags (BitVec.ofNat 64 ((end_-start)/4096)) +
        acctVec (if flags.has VM_ACCOUNT then ((end_-start)/4096 : ℕ) else 0) := by
  have hlocked : (flags &&& VM_LOCKED_CLEAR_MASK).has VM_LOCKED = false := by
    rw [VmFlags.has, BitVec.and_assoc, show VM_LOCKED_CLEAR_MASK &&& VM_LOCKED = 0#64 by decide,
      BitVec.and_zero]
    rfl
  have hacct : (flags &&& VM_LOCKED_CLEAR_MASK).has VM_ACCOUNT = flags.has VM_ACCOUNT := by
    rw [VmFlags.has, and_and_of_sub (by decide), VmFlags.has]
  rw [charge_block, hlocked, hacct, statVec_congr (and_and_of_sub (by decide)), if_neg (by simp),
    lockVec_zero, add_zero]

theorem shape_accountNew (mm : Mm) (vmFlags : VmFlags) (k : BitVec 64) (lock : Bool) :
    (accountNew mm vmFlags k lock).shape = mm.shape :=
  shape_vmStatAccount vmFlags k

theorem counters_accountNew (s : MmSys) (vmFlags : VmFlags) (k : BitVec 64) (lock : Bool) :
    counters (s.setMm (accountNew s.mm vmFlags k lock)) =
      counters s + (statVec vmFlags k + lockVec (if lock then k else 0)) := by
  rw [← add_assoc, ← counters_vmStatAccount]
  cases lock <;> simp [counters, accountNew, lockVec, MmSys.setMm]

theorem core_markNew (mm : Mm) (x : VmaId) (unlock : Bool) : (markNew mm x unlock).core =
    Function.update mm.core x { mm.core x with vmFlags :=
      (if unlock then (mm.core x).vmFlags &&& VM_LOCKED_CLEAR_MASK else (mm.core x).vmFlags) |||
        VM_SOFTDIRTY } :=
  core_modVma _

theorem acctVec_neg (a : ℤ) : acctVec (-a) = -acctVec a := by
  simp [acctVec]

/-- A block of pages, counted and locked in memory unless it must not be. -/
theorem charge_done {start end_ : ℕ} {file : Option FileId} {pgoff : BitVec 64} :
    charge (blockPages start end_ file pgoff (doneFlags flags)) =
      statVec flags (BitVec.ofNat 64 ((end_-start)/4096)) +
        lockVec (if flags.has VM_LOCKED && !isSpecial flags then
          BitVec.ofNat 64 ((end_-start)/4096) else 0) +
        acctVec (if flags.has VM_ACCOUNT then ((end_-start)/4096 : ℕ) else 0) := by
  unfold doneFlags
  cases hl : flags.has VM_LOCKED <;> cases hs : isSpecial flags
  · simp [charge_block, hl]
  · simp [charge_block, hl]
  · simp [charge_block, hl]
  · simp only [Bool.and_true, if_true, charge_unlocked, Bool.not_true, Bool.and_false,
      Bool.false_eq_true, if_false, lockVec_zero, add_zero]

/-- The end of a mapping: the books are even again, up to the pages charged before. -/
theorem Placed.done {start end_ : ℕ} {file : Option FileId} {pgoff : BitVec 64}
    (h : Placed s L s' A x B start end_ file pgoff flags) :
    Does G s L (mapDone s' x flags (end_-start)) (A ++ x :: B)
      (pages s.mm.core L + blockPages start end_ file pgoff (doneFlags flags))
      (-(if flags.has VM_ACCOUNT then ((end_-start)/4096 : ℕ) else 0 : ℤ)) := by
  have hhuge : isVmHugetlbPage (s'.mm.vma x) = flags.has VM_HUGETLB :=
    has_of_clean h.shows (by decide)
  have hspecial : (flags.has VM_SPECIAL || isVmHugetlbPage (s'.mm.vma x)) = isSpecial flags := by
    rw [hhuge, isSpecial]
  unfold mapDone
  dsimp only
  rw [hspecial]
  set k := BitVec.ofNat 64 ((end_-start)/4096) with hk
  set mm₁ := accountNew s'.mm flags k (flags.has VM_LOCKED && !isSpecial flags)
  set u := flags.has VM_LOCKED && isSpecial flags with hu
  have hshape : mm₁.shape = s'.mm.shape := shape_accountNew ..
  have hcore₁ : mm₁.core = s'.mm.core := core_of_shape hshape
  set v := s'.mm.core x with hv
  have hcore : (markNew mm₁ x u).core = Function.update s'.mm.core x { v with vmFlags :=
      (if u then v.vmFlags &&& VM_LOCKED_CLEAR_MASK else v.vmFlags) ||| VM_SOFTDIRTY } := by
    rw [core_markNew, hcore₁]
  set w : Vma := { v with vmFlags :=
      (if u then v.vmFlags &&& VM_LOCKED_CLEAR_MASK else v.vmFlags) ||| VM_SOFTDIRTY } with hw
  -- the pages of `x` change only where it is alone
  have hweight : w.weight single + blockPages start end_ file pgoff flags =
      v.weight single + blockPages start end_ file pgoff (doneFlags flags) := by
    have hwc : w.weight single = blockPages v.vmStart v.vmEnd v.vmFile v.vmPgoff
        (if u then v.vmFlags &&& VM_LOCKED_CLEAR_MASK else v.vmFlags) :=
        blockSum_congr (cleanFlags_softdirty _)
    cases hu' : u with
    | false =>
      rw [hwc, hu', if_neg (by simp), doneFlags, ← hu, hu', if_neg (by simp)]
      rfl
    | true =>
      have halone := h.alone (by rw [hu', eq_comm, Bool.and_eq_true] at hu; exact hu.2)
      have hvw : v.weight single = blockPages start end_ file pgoff flags := by rw [hv, halone]; rfl
      have hww :
          w.weight single = blockPages start end_ file pgoff (flags &&& VM_LOCKED_CLEAR_MASK) := by
        rw [hwc, hu', if_pos rfl, hv, halone]
      rw [hww, hvw, doneFlags, ← hu, hu', if_pos rfl, add_comm]
  have hx := h.wf.rep.notMem
  have hwf : Wf (markNew mm₁ x u) (A ++ x :: B) := (h.wf.of_shape hshape).modVma ⟨rfl, rfl⟩
  refine .of_eq hwf ?_ ?_ ?_
  · have hpages : pages (markNew mm₁ x u).core (A ++ x :: B) + v.weight single =
        pages s'.mm.core (A ++ x :: B) + w.weight single := by rw [hcore]; exact pages_update hx
    rw [h.adds, add_assoc, add_comm (blockPages ..), hweight] at hpages
    refine add_right_cancel (b := v.weight single) (hpages.trans ?_)
    abel
  · have hcount : counters (s'.setMm (markNew mm₁ x u)) = counters s' +
        (statVec flags k + lockVec (if flags.has VM_LOCKED && !isSpecial flags then k else 0)) :=
      counters_accountNew s' flags k _
    have hch := congrArg charge hweight
    rw [charge_add, charge_add, charge_done] at hch
    rw [ledger_update (w := w) hx hcore rfl hcount, h.books, eq_sub_of_add_eq hch.symm, acctVec_neg]
    abel
  · have h₁ : mm₁.fixed = s'.mm.fixed := congrArg (fun m : Mm => m.rest) hshape
    exact h₁.trans h.fixed

/-- The merged area is one of the areas afterwards and has the requested flags. -/
theorem FreeMerge.merged {v : VmaId} {core' : VmaId → Vma} {k : ℤ}
    (h : FreeMerge core q A B v L' core' k) :
    v ∈ L' ∧ cleanFlags (core' v).vmFlags = cleanFlags q.vmFlags := by
  cases h with
  | after hA hj => exact ⟨by simp [hA], by rw [Function.update_self]; exact hj.flags⟩
  | both hA hB hj hj' => exact ⟨by simp [hA], by rw [Function.update_self]; exact hj.flags⟩
  | before hB hj => exact ⟨by simp [hB], by rw [Function.update_self]; exact hj.flags⟩

theorem FreeMerge.covers {v : VmaId} {core' : VmaId → Vma} {k : ℤ}
    (h : FreeMerge core q A B v L' core' k) (ho : Ordered core (A ++ B)) :
    (core' v).vmStart ≤ q.addr ∧ q.end_ ≤ (core' v).vmEnd := by
  cases h with
  | after hA hj =>
    have := (ho.area v (by simp [hA])).lt
    have := hj.at_addr
    rw [Function.update_self]
    exact ⟨by dsimp only; omega, le_rfl⟩
  | @both A' B' p n hA hB hj hj' =>
    have := (ho.area v (by simp [hA])).lt
    have := (ho.area n (by simp [hB])).lt
    have := hj.at_addr
    have := hj'.at_end
    rw [Function.update_self]
    exact ⟨by dsimp only; omega, by dsimp only; omega⟩
  | before hB hj =>
    have := (ho.area v (by simp [hB])).lt
    have := hj.at_end
    rw [Function.update_self]
    exact ⟨le_rfl, by dsimp only; omega⟩

theorem vmaMerge_special (h : q.vmFlags.has VM_SPECIAL = true) (prev : Option VmaId) :
    (vmaMerge rb s prev q).1 = none := by
  unfold vmaMerge
  dsimp only
  rw [if_pos h]

/-- A merge adds the pages of the request, and drops the references of the areas it swallows. -/
theorem FreeMerge.adds {v : VmaId} {core' : VmaId → Vma} {k : ℤ}
    (h : FreeMerge s.mm.core q A B v L' core' k) (hadj : Adjusted s s' L' core' q.file k)
    (hw : Wf s.mm (A ++ B)) (hr : RangeOk q.addr q.end_) :
    pages s'.mm.core L' =
      pages s.mm.core (A ++ B) + blockPages q.addr q.end_ q.file q.pgoff q.vmFlags ∧
      ledger s' L' =
        ledger s (A ++ B) - charge (blockPages q.addr q.end_ q.file q.pgoff q.vmFlags) := by
  have hpages : pages core' L' =
      pages s.mm.core (A ++ B) + blockPages q.addr q.end_ q.file q.pgoff q.vmFlags :=
    h.total hw.ordered hw.rep.nodup hr
  have hrefs : references core' L' = references s.mm.core (A ++ B) - refVec q.file k := by
    simp only [references, refVec, Prod.mk_sub_mk, sub_zero]
    congr 6
    funext f
    exact h.refs
  rw [ledger, hadj.core]
  refine ⟨hpages, ?_⟩
  rw [hpages, hrefs, charge_add, counters_dropRefs hadj.rest hadj.fCount hadj.committed, ledger]
  abel

/-- The request is met by extending a neighbour. -/
theorem placed_merge (rb : Balance VmaId) {prev : Option VmaId} (h : Wf s.mm (A ++ B))
    (hp : prev = A.getLast?) (hr : RangeOk q.addr q.end_)
    (hA : ∀ a ∈ A, (s.mm.core a).vmEnd ≤ q.addr) (hB : ∀ b ∈ B, q.end_ ≤ (s.mm.core b).vmStart)
    (hh : q.vmFlags.has VM_HUGETLB = false) :
    ((vmaMerge rb s prev q).1 = none ∧ Quiet s (vmaMerge rb s prev q).2) ∨
      ∃ v A' B', (vmaMerge rb s prev q).1 = some v ∧
        Placed s (A ++ B) (vmaMerge rb s prev q).2 A' v B'
        q.addr q.end_ q.file q.pgoff q.vmFlags := by
  rcases vmaMerge_free rb h hp hr hA hB with hnone | ⟨v, L', core', k, hv, hfree, hadj⟩
  · exact .inl hnone
  · obtain ⟨hmem, hflags⟩ := hfree.merged
    obtain ⟨hpages, hbooks⟩ := hfree.adds hadj h hr
    obtain ⟨A', B', rfl⟩ := List.append_of_mem hmem
    have hspecial : q.vmFlags.has VM_SPECIAL = false := by
      by_contra hs
      rw [Bool.not_eq_false] at hs
      rw [vmaMerge_special hs] at hv
      exact absurd hv (by simp)
    refine .inr ⟨v, A', B', hv, hadj.wf, by rw [hadj.core]; exact hflags, hpages, hbooks, ?_,
      fixed_of_rest hadj.rest⟩
    intro hs
    rw [isSpecial, hspecial, hh] at hs
    exact absurd hs (by simp)

structure Spare (s s' : MmSys) (L : List VmaId) (n : VmaId) (v : Vma) : Prop where
  same : Same s s' L
  lt : n < s'.mm.nextId
  notMem : n ∉ L
  area : s'.mm.core n = v
  tree : s'.mm.mmRb = s.mm.mmRb

theorem spare_alloc (hq : Quiet s s') (h : Wf s.mm L) (v : Vma) :
    Spare s (allocVma s' v) L s'.mm.nextId v.core := by
  have hw := hq.wf h
  refine ⟨(hq.same h).trans (same_allocVma hw v), Nat.lt_succ_self _, fun hm => ?_, ?_, ?_⟩
  · exact absurd (hw.rep.fresh _ hm) (lt_irrefl _)
  · exact congrArg Vma.core (Function.update_self ..)
  · obtain ⟨vma', hv⟩ := hq.mm
    show s'.mm.mmRb = _
    rw [hv]

theorem Spare.quiet {v : Vma} (h : Spare s s' L n v) (hq : Quiet s' s'') : Spare s s'' L n v := by
  obtain ⟨vma', hv⟩ := hq.mm
  refine ⟨h.same.trans (hq.same h.same.wf), ?_, h.notMem, (congrFun hq.core n).trans h.area, ?_⟩
  · rw [hv]; exact h.lt
  · rw [hv]; exact h.tree

/-- Filling in a spare area. -/
theorem Spare.modify {v : Vma} (h : Spare s s' L n v) {f : Vma → Vma}
    (hf : (f (s'.mm.vma n)).vmStart = (s'.mm.vma n).vmStart ∧
      (f (s'.mm.vma n)).vmEnd = (s'.mm.vma n).vmEnd) :
    Spare s (s'.setMm (s'.mm.modVma n f)) L n (f (s'.mm.vma n)).core := by
  have hcore : (s'.mm.modVma n f).core = Function.update s'.mm.core n (f (s'.mm.vma n)).core :=
    core_modVma f
  refine ⟨⟨h.same.wf.modVma hf, fun y hy => ?_, h.same.rest, h.same.fCount, h.same.committed⟩, h.lt,
    h.notMem, ?_, h.tree⟩
  · have hne : y ≠ n := fun he => h.notMem (he ▸ hy)
    exact ((congrFun hcore y).trans (Function.update_of_ne hne ..)).trans (h.same.core y hy)
  · exact (congrFun hcore n).trans (Function.update_self ..)

theorem Spare.linked (rb : Balance VmaId) {v : Vma} {k : VmaLinks} (h : Spare s s' (A ++ B) n v)
    (hk : LinksAt s.mm A B k) (hv : AreaOk v) (hA : ∀ a ∈ A, (s.mm.core a).vmEnd ≤ v.vmStart)
    (hB : ∀ b ∈ B, v.vmEnd ≤ (s.mm.core b).vmStart) :
    Wf (vmaLink rb s'.mm n k) (A ++ n :: B) ∧ (vmaLink rb s'.mm n k).core = s'.mm.core ∧
      (vmaLink rb s'.mm n k).rest = s'.mm.rest := by
  have hA' : ∀ a ∈ A, s'.mm.core a = s.mm.core a := fun a ha => h.same.core a (by simp [ha])
  have hB' : ∀ b ∈ B, s'.mm.core b = s.mm.core b := fun b hb => h.same.core b (by simp [hb])
  have hlinks : LinksAt s'.mm A B k := ⟨hk.prev, hk.parent, by rw [h.tree]; exact hk.down⟩
  have hhigh : B ≠ [] → s'.mm.highestVmEnd = topEnd s'.mm.core B := fun hne => by
    rw [h.same.wf.highest, topEnd_append hne]
  exact wf_link (h.same.wf.rep.mono (by simp)) h.same.wf.ordered hhigh h.notMem h.lt hlinks
    (by rw [h.area]; exact hv) (fun a ha => by rw [h.area, hA' a ha]; exact hA a ha)
    (fun b hb => by rw [h.area, hB' b hb]; exact hB b hb)

/-- Linking the spare area `n`, with a reference to its file. -/
theorem Spare.link (rb : Balance VmaId) {v : Vma} {k : VmaLinks} (h : Spare s s' (A ++ B) n v)
    (hk : LinksAt s.mm A B k) (hv : AreaOk v) (hA : ∀ a ∈ A, (s.mm.core a).vmEnd ≤ v.vmStart)
    (hB : ∀ b ∈ B, v.vmEnd ≤ (s.mm.core b).vmStart) :
    let s₁ := s'.getFile v.vmFile
    Placed s (A ++ B) (s₁.setMm (vmaLink rb s₁.mm n k)) A n B v.vmStart v.vmEnd v.vmFile v.vmPgoff
      v.vmFlags := by
  dsimp only
  rw [getFile_mm]
  have hA' : ∀ a ∈ A, s'.mm.core a = s.mm.core a := fun a ha => h.same.core a (by simp [ha])
  have hB' : ∀ b ∈ B, s'.mm.core b = s.mm.core b := fun b hb => h.same.core b (by simp [hb])
  obtain ⟨hwf, hcore, hrest⟩ := h.linked rb hk hv hA hB
  set s₁ := s'.getFile v.vmFile with hs₁
  have hcore' : (s₁.setMm (vmaLink rb s'.mm n k)).mm.core = s'.mm.core := hcore
  have hpages : pages s'.mm.core (A ++ n :: B) = pages s.mm.core (A ++ B) +
      blockPages v.vmStart v.vmEnd v.vmFile v.vmPgoff v.vmFlags := by
    rw [pages, total_append, total_cons, total_congr hA', total_congr hB', h.area, pages,
      total_append]
    rw [add_left_comm, add_comm]
    rfl
  refine ⟨hwf, by rw [hcore', h.area], by rw [hcore']; exact hpages, ?_,
    fun _ => by rw [hcore', h.area], ?_⟩
  · have hc : counters (s₁.setMm (vmaLink rb s'.mm n k)) = counters s + refVec v.vmFile 1 := by
      have hfc : s₁.fCount = dropRefs s.fCount v.vmFile (-1) := by
        rw [hs₁, getFile_fCount, h.same.fCount]
      have hcm : s₁.committed = s.committed := by rw [hs₁, getFile_committed, h.same.committed]
      have hd : counters (s₁.setMm (vmaLink rb s'.mm n k)) = counters s - refVec v.vmFile (-1) :=
        counters_dropRefs (hrest.trans h.same.rest) hfc hcm
      rw [hd, refVec_neg, sub_neg_eq_add]
    have hrefs : references s'.mm.core (A ++ n :: B) =
        references s.mm.core (A ++ B) + refVec v.vmFile 1 := by
      have hrA : references s'.mm.core A = references s.mm.core A :=
        references_congr fun a ha => by rw [hA' a ha]
      have hrB : references s'.mm.core B = references s.mm.core B :=
        references_congr fun b hb => by rw [hB' b hb]
      rw [references_append, references_cons, hrA, hrB, h.area, references_append]
      abel
    rw [ledger, hcore', hpages, hc, hrefs, charge_add, ledger]
    abel
  · exact fixed_of_rest (hrest.trans h.same.rest)

theorem ledger_unacct (s : MmSys) (L : List VmaId) (c : ℤ) :
    ledger (vmUnacctMemory s c) L = ledger s L - acctVec c := by
  have hcounters : counters (vmUnacctMemory s c) = counters s - acctVec c := by
    simp [vmUnacctMemory, counters, acctVec]
  rw [ledger, hcounters, ledger]
  show _ - charge (pages s.mm.core L) - references s.mm.core L = _
  abel

/-- Giving back `k` pages. -/
theorem Does.unacct {P : Pages} {c : ℤ} (h : Does G s L s' L' P c) (k : ℤ) :
    Does G s L (vmUnacctMemory s' k) L' P (c-k) := by
  obtain ⟨d, he, hd⟩ := h.kept
  refine ⟨h.wf, h.pages, ⟨d, ?_, hd⟩, h.fixed⟩
  rw [ledger_unacct, he, sub_eq_add_neg c, acctVec_add, acctVec_neg]
  abel

def MergeReq.fresh (env : MmEnv) (q : MergeReq) : Option FileId × VmFlags :=
  match q.file with
  | some f => (some f, (env.file f).mmapFlags q.vmFlags)
  | none => (if q.vmFlags.has VM_SHARED then some env.shmemFile else none, q.vmFlags)

inductive Shows (env : MmEnv) (q : MergeReq) : Option FileId → VmFlags → Prop
  | fresh : Shows env q (q.fresh env).1 (q.fresh env).2
  | joined : Shows env q q.file q.vmFlags

def MapsAs (P : Option FileId → VmFlags → Prop) (G : Prop) (s : MmSys) (L : List VmaId)
    (q : MergeReq) (r : ℤ × MmSys) (c : ℤ) : Prop :=
  (r.1 < 0 ∧ ∃ L', Does G s L r.2 L' (pages s.mm.core L) c) ∨
    r.1 = q.addr ∧ ∃ L' file flags, P file flags ∧
      Does G s L r.2 L'
      (pages s.mm.core L + blockPages q.addr q.end_ file q.pgoff (doneFlags flags)) c

def Maps (G : Prop) (env : MmEnv) (s : MmSys) (L : List VmaId) (q : MergeReq) (r : ℤ × MmSys)
    (c : ℤ) : Prop :=
  MapsAs (Shows env q) G s L q r c

def MapsFresh (G : Prop) (env : MmEnv) (s : MmSys) (L : List VmaId) (q : MergeReq) (r : ℤ × MmSys)
    (c : ℤ) : Prop :=
  MapsAs (fun file flags => q.fresh env = (file, flags)) G s L q r c

theorem MapsFresh.maps {env : MmEnv} {r : ℤ × MmSys} {c : ℤ} (h : MapsFresh G env s L q r c) :
    Maps G env s L q r c := by
  rcases h with hneg | ⟨haddr, L', file, flags, hfresh, hd⟩
  · exact .inl hneg
  · have hshows : Shows env q (q.fresh env).1 (q.fresh env).2 := .fresh
    rw [hfresh] at hshows
    exact .inr ⟨haddr, L', file, flags, hshows, hd⟩

def AcctOk (env : MmEnv) (q : MergeReq) : Prop :=
  ∀ f, q.file = some f → ((env.file f).mmapErr = 0 ∨ q.vmFlags.has VM_ACCOUNT = false) ∧
    ((env.file f).mmapFlags q.vmFlags).has VM_ACCOUNT = q.vmFlags.has VM_ACCOUNT

def MergeReq.charge (q : MergeReq) : ℤ :=
  if q.vmFlags.has VM_ACCOUNT then ((q.end_-q.addr)/4096 : ℕ) else 0

theorem mapFileChecks_spec (s : MmSys) (vmFlags : VmFlags) :
    (mapFileChecks s vmFlags).1 ≤ 0 ∧ Quiet s (mapFileChecks s vmFlags).2 := by
  unfold mapFileChecks
  dsimp only
  cases vmFlags.has VM_DENYWRITE <;> cases vmFlags.has VM_SHARED <;>
    simp only [if_true, Bool.false_eq_true, if_false]
  · exact ⟨by simp, by simpa using Quiet.refl s⟩
  · exact ⟨by simpa using outcome_nonpos s, by simpa using outcome_quiet s⟩
  · split
    · exact ⟨outcome_nonpos s, outcome_quiet s⟩
    · exact ⟨le_rfl, outcome_quiet s⟩
  · split
    · exact ⟨outcome_nonpos s, outcome_quiet s⟩
    · exact ⟨outcome_nonpos _, (outcome_quiet s).trans (outcome_quiet _)⟩

theorem linkNew_spec (rb : Balance VmaId) {v : Vma} {k : VmaLinks} (h : Spare s s' (A ++ B) n v)
    (hk : LinksAt s.mm A B k) (hv : AreaOk v) (hA : ∀ a ∈ A, (s.mm.core a).vmEnd ≤ v.vmStart)
    (hB : ∀ b ∈ B, v.vmEnd ≤ (s.mm.core b).vmStart) :
    Does G s (A ++ B) (linkNew rb (s'.getFile v.vmFile) n k (v.vmEnd-v.vmStart)) (A ++ n :: B)
      (pages s.mm.core (A ++ B) + blockPages v.vmStart v.vmEnd v.vmFile v.vmPgoff
        (doneFlags v.vmFlags))
      (-(if v.vmFlags.has VM_ACCOUNT then ((v.vmEnd-v.vmStart)/4096 : ℕ) else 0 : ℤ)) := by
  have hflags : ((s'.getFile v.vmFile).mm.vma n).vmFlags = v.vmFlags := by
    rw [getFile_mm, ← h.area]; rfl
  unfold linkNew
  rw [hflags]
  exact (h.link _ hk hv hA hB).done

/-- A new area for a file. -/
theorem mapFile_spec {env : MmEnv} {k : VmaLinks} {f : FileId} (charged : ℤ)
    (h : Spare s s' (A ++ B) n q.area) (hk : LinksAt s.mm A B k) (hr : RangeOk q.addr q.end_)
    (hA : ∀ a ∈ A, (s.mm.core a).vmEnd ≤ q.addr) (hB : ∀ b ∈ B, q.end_ ≤ (s.mm.core b).vmStart)
    (hf : q.file = some f) :
    ∃ c, MapsFresh G env s (A ++ B) q (mapFile rb env s' n f k q charged) c ∧
      (charged = q.charge → AcctOk env q → c = -q.charge) := by
  obtain ⟨hneg, hquiet⟩ := mapFileChecks_spec s' q.vmFlags
  have h₁ := h.quiet hquiet
  unfold mapFile
  dsimp only
  split
  next hc =>
    have hdoes := (h₁.same.does (G := G)).unacct charged
    rw [zero_sub] at hdoes
    exact ⟨-charged, .inl ⟨lt_of_le_of_ne hneg hc, _, hdoes⟩, fun he _ => congrArg Neg.neg he⟩
  next hc =>
    set s₁ := (mapFileChecks s' q.vmFlags).2
    split
    next herr =>
      -- `charged` has been cleared: the pages stay charged
      have hput : (s₁.getFile (some f)).fput (some f) = s₁ := by
        simp [MmSys.getFile, MmSys.fput]
      have hpos : 0 < (env.file f).mmapErr.val := Nat.pos_of_ne_zero fun h0 => herr (Fin.ext h0)
      refine ⟨0, .inl ⟨?_, A ++ B, ?_⟩, fun _ hok => ?_⟩
      · show -((env.file f).mmapErr.val : ℤ) < 0
        omega
      · rw [hput]
        exact h₁.same.does
      · have hfalse := (hok f hf).1.resolve_left herr
        rw [MergeReq.charge, hfalse]
        rfl
    next herr =>
      have harea : (s₁.mm.vma n).core = q.area := h₁.area
      have h₂ := h₁.modify (f := (env.file f).mapped f) ⟨rfl, rfl⟩
      have hcore : ((env.file f).mapped f (s₁.mm.vma n)).core = (env.file f).mapped f q.area := by
        rw [← harea]; rfl
      rw [hcore] at h₂
      have hdoes := linkNew_spec (G := G) rb h₂ hk hr hA hB
      refine ⟨_, .inr ⟨rfl, _, _, _, by rw [MergeReq.fresh, hf]; rfl, hdoes⟩, fun _ hok => ?_⟩
      have hflag := (hok f hf).2
      show -(if ((env.file f).mmapFlags q.vmFlags).has VM_ACCOUNT then _ else _ : ℤ) = _
      rw [hflag]
      rfl

theorem mapAnon_spec {env : MmEnv} {k : VmaLinks} (charged : ℤ) (h : Spare s s' (A ++ B) n q.area)
    (hk : LinksAt s.mm A B k) (hr : RangeOk q.addr q.end_)
    (hA : ∀ a ∈ A, (s.mm.core a).vmEnd ≤ q.addr) (hB : ∀ b ∈ B, q.end_ ≤ (s.mm.core b).vmStart)
    (hf : q.file = none) :
    ∃ c, MapsFresh G env s (A ++ B) q (mapAnon rb env s' n k q charged) c ∧
      (charged = q.charge → c = -q.charge) := by
  unfold mapAnon
  split
  next hshared =>
    have h₁ := h.quiet (outcome_quiet s')
    dsimp only
    split
    next hc =>
      have hdoes := (h₁.same.does (G := G)).unacct charged
      rw [zero_sub] at hdoes
      exact ⟨_, .inl ⟨lt_of_le_of_ne (outcome_nonpos s') hc, _, hdoes⟩, congrArg Neg.neg⟩
    next =>
      set s₁ := s'.outcome.2
      have harea : (s₁.mm.vma n).core = q.area := h₁.area
      have h₂ :=
        h₁.modify (f := fun v => { v with vmFile := some env.shmemFile, hasOps := true }) ⟨rfl, rfl⟩
      have hcore : ({ s₁.mm.vma n with vmFile := some env.shmemFile, hasOps := true } : Vma).core =
          { q.area with vmFile := some env.shmemFile, hasOps := true } := by rw [← harea]; rfl
      rw [hcore] at h₂
      have hdoes := linkNew_spec (G := G) rb h₂ hk hr hA hB
      exact ⟨_, .inr ⟨rfl, _, _, _, by rw [MergeReq.fresh, hf, hshared]; rfl, hdoes⟩, fun _ => rfl⟩
  next hshared =>
    have hdoes := linkNew_spec (G := G) rb h hk hr hA hB
    refine ⟨_, .inr ⟨rfl, _, _, _, ?_, hdoes⟩, fun _ => rfl⟩
    rw [MergeReq.fresh, hf, Bool.eq_false_iff.2 hshared]
    rfl

/-- Extend an old mapping or make a new one. -/
theorem mapRegion_spec (rb : Balance VmaId) (env : MmEnv) {k : VmaLinks} (h : Wf s.mm (A ++ B))
    (hk : LinksAt s.mm A B k) (hr : RangeOk q.addr q.end_)
    (hA : ∀ a ∈ A, (s.mm.core a).vmEnd ≤ q.addr) (hB : ∀ b ∈ B, q.end_ ≤ (s.mm.core b).vmStart)
    (hh : q.vmFlags.has VM_HUGETLB = false) :
    ∃ c, Maps G env s (A ++ B) q (mapRegion rb env s k q q.charge) c ∧
      (AcctOk env q → c = -q.charge) := by
  unfold mapRegion
  rcases placed_merge rb h hk.prev hr hA hB hh with ⟨hnone, hquiet⟩ | ⟨v, A', B', hv, hplaced⟩
  · dsimp only
    rw [hnone]
    dsimp only
    set s₁ := (vmaMerge rb s k.prev q).2
    have hq := hquiet.trans (outcome_quiet s₁)
    split
    next =>
      have hdoes := ((hq.same h).does (G := G)).unacct q.charge
      rw [zero_sub] at hdoes
      exact ⟨_, .inl ⟨show -ENOMEM < 0 by decide, _, hdoes⟩, fun _ => rfl⟩
    next =>
      have hspare : Spare s (allocVma s₁.outcome.2 q.area) (A ++ B) s₁.outcome.2.mm.nextId q.area :=
        spare_alloc hq h q.area
      cases hf : q.file with
      | some f =>
        obtain ⟨c, hmaps, hc⟩ := mapFile_spec q.charge hspare hk hr hA hB hf
        exact ⟨c, hmaps.maps, hc rfl⟩
      | none =>
        obtain ⟨c, hmaps, hc⟩ := mapAnon_spec q.charge hspare hk hr hA hB hf
        exact ⟨c, hmaps.maps, fun _ => hc rfl⟩
  · dsimp only
    rw [hv]
    exact ⟨_, .inr ⟨rfl, _, _, _, .joined, hplaced.done⟩, fun _ => rfl⟩

/-- The charge for `k` pages is taken, or nothing has changed. -/
theorem vmEnoughMemory_spec (h : Wf s.mm L) (k : ℤ) :
    let r := vmEnoughMemory s k
    r.2.mm = s.mm ∧
      ((r.1 ≠ 0 ∧ Same s r.2 L) ∨ r.1 = 0 ∧ Does G s L r.2 L (pages s.mm.core L) k) := by
  have hout : ∀ t : MmSys, t.outcome.2.mm = t.mm ∧ t.outcome.2.fCount = t.fCount ∧
      t.outcome.2.committed = t.committed := fun t => by
    unfold MmSys.outcome
    split <;> exact ⟨rfl, rfl, rfl⟩
  obtain ⟨hmm, hfc, hcm⟩ := hout { s with committed := s.committed+k }
  dsimp only at hmm hfc hcm
  unfold vmEnoughMemory
  dsimp only
  set t := ({ s with committed := s.committed+k } : MmSys).outcome
  split
  next =>
    refine ⟨hmm, .inr ⟨rfl, .of_eq (by rwa [hmm]) (by rw [hmm]) ?_ (by rw [hmm])⟩⟩
    have hc : counters t.2 = counters s + acctVec k := by
      simp [counters, acctVec, hmm, hfc, hcm]
    rw [ledger, hc, hmm, ledger]
    abel
  next =>
    refine ⟨hmm, .inl ⟨show -ENOMEM ≠ 0 by decide, ⟨?_, fun y _ => ?_, ?_, hfc, ?_⟩⟩⟩
    · show Wf t.2.mm L
      rwa [hmm]
    · show t.2.mm.core y = _
      rw [hmm]
    · show t.2.mm.rest = _
      rw [hmm]
    · show t.2.committed-k = _
      rw [hcm, add_sub_cancel_right]

def RegionOk (env : MmEnv) (q : MergeReq) : Prop :=
  ∀ f, q.file = some f →
    ((env.file f).mmapErr = 0 ∨ accountableMapping env q.file q.vmFlags = false) ∧
    ∀ flags, ((env.file f).mmapFlags flags).has VM_ACCOUNT = flags.has VM_ACCOUNT

theorem has_or_self {a m : VmFlags} (hm : m ≠ 0) : (a ||| m).has m = true := by
  have hand : (a ||| m) &&& m = m := by
    rw [BitVec.and_comm]
    refine BitVec.eq_of_getLsbD_eq fun i _ => ?_
    simp only [BitVec.getLsbD_and, BitVec.getLsbD_or]
    cases a.getLsbD i <;> cases m.getLsbD i <;> rfl
  rw [VmFlags.has, hand]
  simpa using hm

theorem has_or_of_disjoint {a b m : VmFlags} (hb : b &&& m = 0) : (a ||| b).has m = a.has m := by
  have hand : (a ||| b) &&& m = a &&& m := by
    rw [BitVec.and_comm, BitVec.and_or_distrib_left, BitVec.and_comm m b, hb]
    exact (BitVec.or_zero).trans (BitVec.and_comm ..)
  rw [VmFlags.has, hand, VmFlags.has]

def chargedReq (env : MmEnv) (q : MergeReq) : MergeReq :=
  if accountableMapping env q.file q.vmFlags then q.accounted else q

@[simp] theorem chargedReq_addr (env : MmEnv) (q : MergeReq) :
    (chargedReq env q).addr = q.addr := by
  unfold chargedReq; split <;> rfl

@[simp] theorem chargedReq_end (env : MmEnv) (q : MergeReq) : (chargedReq env q).end_ = q.end_ := by
  unfold chargedReq; split <;> rfl

/-- Charge, then map: the books are even afterwards. -/
theorem chargeRegion_spec (rb : Balance VmaId) (env : MmEnv) {k : VmaLinks} (h : Wf s.mm (A ++ B))
    (hk : LinksAt s.mm A B k) (hr : RangeOk q.addr q.end_)
    (hA : ∀ a ∈ A, (s.mm.core a).vmEnd ≤ q.addr) (hB : ∀ b ∈ B, q.end_ ≤ (s.mm.core b).vmStart)
    (hh : q.vmFlags.has VM_HUGETLB = false) (ha : q.vmFlags.has VM_ACCOUNT = false) :
    ∃ c, Maps G env s (A ++ B) (chargedReq env q) (chargeRegion rb env s k q) c ∧
      (RegionOk env q → c = 0) := by
  unfold chargeRegion chargedReq
  split
  next hacc =>
    obtain ⟨hmm, hres⟩ := vmEnoughMemory_spec (G := G) h ((q.end_-q.addr)/4096 : ℕ)
    dsimp only at hmm hres ⊢
    set t := vmEnoughMemory s ((q.end_-q.addr)/4096 : ℕ)
    rcases hres with ⟨hne, hsame⟩ | ⟨heq, hdoes⟩
    · rw [if_pos hne]
      exact ⟨0, .inl ⟨show -ENOMEM < 0 by decide, _, hsame.does⟩, fun _ => rfl⟩
    · rw [if_neg (not_not.2 heq)]
      have hhuge : q.accounted.vmFlags.has VM_HUGETLB = false := by
        rw [MergeReq.accounted, has_or_of_disjoint (by decide), hh]
      have hflag : q.accounted.vmFlags.has VM_ACCOUNT = true := has_or_self (by decide)
      have hcharge : q.accounted.charge = ((q.end_-q.addr)/4096 : ℕ) := by
        rw [MergeReq.charge, hflag]; rfl
      obtain ⟨c, hmaps, hc⟩ := mapRegion_spec (G := G) (q := q.accounted) rb env
        (by rwa [hmm]) (by rwa [hmm]) hr (by rwa [hmm]) (by rwa [hmm]) hhuge
      rw [hcharge] at hmaps hc
      refine ⟨((q.end_-q.addr)/4096 : ℕ)+c, ?_, fun hok => ?_⟩
      · rcases hmaps with ⟨hneg, L', hd⟩ | ⟨haddr, L', file, flags, hshows, hd⟩
        · rw [hmm] at hd
          exact .inl ⟨hneg, L', hdoes.trans hd id⟩
        · rw [hmm] at hd
          exact .inr ⟨haddr, L', file, flags, hshows, hdoes.trans hd id⟩
      · rw [hc fun f hf => ?_, add_neg_cancel]
        refine ⟨.inl ?_, (hok f hf).2 _⟩
        exact (hok f hf).1.resolve_right (by rw [hacc]; simp)
  next hacc =>
    have hcharge : q.charge = 0 := by rw [MergeReq.charge, ha]; rfl
    obtain ⟨c, hmaps, hc⟩ := mapRegion_spec (G := G) rb env h hk hr hA hB hh
    rw [hcharge] at hmaps hc
    exact ⟨c, hmaps, fun hok => by rw [hc fun f hf => ⟨.inr ha, (hok f hf).2 _⟩, neg_zero]⟩

end PtraceRemote
