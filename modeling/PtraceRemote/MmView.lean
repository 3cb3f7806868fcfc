import PtraceRemote.MmMunmap

/-! The page-level view of an address space: a function from page numbers to what they show.
Unmapping is described on this view. -/
namespace PtraceRemote

open AugTree (Balance)

abbrev PageMap := ℕ → Option PageInfo

def PageMap.unmap (m : PageMap) (start end_ : ℕ) : PageMap := fun p =>
  if start ≤ 4096*p ∧ 4096*p < end_ then none else m p

def PageInfo.clean (i : PageInfo) : PageInfo := { i with flags := cleanFlags i.flags }

theorem PageInfo.eq_of_clean {i j : PageInfo} (h : i.clean = j.clean) (hf : i.flags = j.flags) :
    i = j := by
  have hfile : i.file = j.file := (congrArg PageInfo.file h :)
  have hpgoff : i.pgoff = j.pgoff := (congrArg PageInfo.pgoff h :)
  cases i
  cases j
  simp_all

def PageMap.clean (m : PageMap) : PageMap := fun p => (m p).map PageInfo.clean

def Vma.pageAt (v : Vma) (p : ℕ) : PageInfo :=
  ⟨v.vmFile, v.vmPgoff+BitVec.ofNat 64 (p-v.vmStart/4096), v.vmFlags⟩

def Mm.view (mm : Mm) : PageMap := fun p =>
  match findVma mm (4096*p) with
  | some x => if (mm.vma x).vmStart ≤ 4096*p then some ((mm.vma x).pageAt p) else none
  | none => none

variable {mm mm' : Mm} {s s' : MmSys} {rb : Balance VmaId} {L L' A M B : List VmaId} {x y n : VmaId}
  {start end_ addr p : ℕ} {i : PageInfo}

def Vma.covers (v : Vma) (p : ℕ) : Prop := v.vmStart ≤ 4096*p ∧ 4096*p < v.vmEnd

theorem view_eq_some (h : Wf mm L) :
    mm.view p = some i ↔ ∃ x ∈ L, (mm.core x).covers p ∧ i = (mm.core x).pageAt p := by
  have ho := ordered_core.1 h.ordered
  unfold Mm.view
  constructor
  · intro hv
    cases hf : findVma mm (4096*p) with
    | none => simp [hf] at hv
    | some x =>
      obtain ⟨A, B, rfl, -, hlt⟩ := findVma_some h.rep ho hf
      simp only [hf] at hv
      split at hv
      next hs => exact ⟨x, by simp, ⟨hs, hlt⟩, (Option.some.inj hv).symm⟩
      next => simp at hv
  · rintro ⟨x, hx, ⟨hs, hlt⟩, rfl⟩
    cases hf : findVma mm (4096*p) with
    | none => exact absurd (findVma_none h.rep ho hf x hx) (not_le.2 hlt)
    | some y =>
      obtain ⟨A, B, rfl, hA, hy⟩ := findVma_some h.rep ho hf
      -- the first area that ends above the page is the one that covers it
      obtain rfl : x = y := by
        rcases List.mem_append.1 hx with hx | hx
        · exact absurd (hA x hx) (not_le.2 hlt)
        · rcases List.mem_cons.1 hx with hxy | hx
          · exact hxy
          · have hle := (ordered_cons.1 (ordered_append.1 ho).2.1).2.2 x hx
            have hs : (mm.vma x).vmStart ≤ 4096*p := hs
            omega
      have hs : (mm.vma x).vmStart ≤ 4096*p := hs
      simp only [hs, if_true]
      rfl

theorem mem_weight_iff {v : Vma} (hv : AreaOk v) :
    (p, i) ∈ v.weight single ↔ v.covers p ∧ i = (v.pageAt p).clean := by
  obtain ⟨hlt, hd, hd', -⟩ := hv
  rw [Vma.weight, blockSum, Multiset.mem_sum]
  constructor
  · rintro ⟨k, hk, hmem⟩
    have hk := Finset.mem_range.1 hk
    obtain ⟨rfl, rfl⟩ := Prod.mk.inj (Multiset.mem_singleton.1 hmem)
    refine ⟨⟨by omega, by omega⟩, ?_⟩
    rw [Vma.pageAt, PageInfo.clean, Nat.add_sub_cancel_left]
  · rintro ⟨⟨hs, he⟩, rfl⟩
    refine ⟨p-v.vmStart/4096, Finset.mem_range.2 (by omega), Multiset.mem_singleton.2 ?_⟩
    rw [Nat.add_sub_cancel' (by omega)]
    rfl

theorem mem_blockPages {file : Option FileId} {pgoff : BitVec 64} {flags : VmFlags}
    (hr : RangeOk start end_) :
    (p, i) ∈ blockPages start end_ file pgoff flags ↔ (start ≤ 4096*p ∧ 4096*p < end_) ∧
      i = ⟨file, pgoff+BitVec.ofNat 64 (p-start/4096), cleanFlags flags⟩ :=
  mem_weight_iff
    (v := { vmStart := start, vmEnd := end_, vmFlags := flags, vmPgoff := pgoff, vmFile := file })
    hr

/-- The two ways to say what an address space shows. -/
theorem view_iff (h : Wf mm L) : mm.view.clean p = some i ↔ (p, i) ∈ pages mm.core L := by
  have hmem : (p, i) ∈ pages mm.core L ↔ ∃ x ∈ L, (p, i) ∈ (mm.core x).weight single :=
    ⟨mem_pages, fun ⟨_, hx, hxi⟩ => mem_pages_of hx hxi⟩
  rw [hmem, PageMap.clean, Option.map_eq_some_iff]
  constructor
  · rintro ⟨j, hj, rfl⟩
    obtain ⟨x, hx, hcov, rfl⟩ := (view_eq_some h).1 hj
    exact ⟨x, hx, (mem_weight_iff (h.ordered.area x hx)).2 ⟨hcov, rfl⟩⟩
  · rintro ⟨x, hx, hxi⟩
    obtain ⟨hcov, rfl⟩ := (mem_weight_iff (h.ordered.area x hx)).1 hxi
    exact ⟨_, (view_eq_some h).2 ⟨x, hx, hcov, rfl⟩, rfl⟩

theorem view_of_pages (h : Wf mm L) (h' : Wf mm' L') (he : pages mm'.core L' = pages mm.core L) :
    mm'.view.clean = mm.view.clean := by
  funext p
  refine Option.ext fun i => ?_
  rw [view_iff h', view_iff h, he]

/-- `Q` has a page at an address where `P` has none. -/
def Gains (P Q : Pages) : Prop := ∃ e ∈ Q, ∀ e' ∈ P, e'.1 ≠ e.1

theorem mem_outside_iff (h : Wf mm L) (hr : RangeOk start end_) :
    (p, i) ∈ outside start end_ (pages mm.core L) ↔ mm.view.clean.unmap start end_ p = some i := by
  obtain ⟨hlt, hd, hd', -⟩ := hr
  rw [outside, Multiset.mem_filter, ← view_iff h, PageMap.unmap]
  split
  next hin =>
    refine iff_of_false (fun hmem => ?_) (by simp)
    have := hmem.2
    omega
  next hout =>
    refine and_iff_left_of_imp fun _ => ?_
    omega

theorem view_of_outside (h : Wf mm L) (h' : Wf mm' L') (hr : RangeOk start end_)
    (he : pages mm'.core L' = outside start end_ (pages mm.core L)) :
    mm'.view.clean = mm.view.clean.unmap start end_ := by
  funext p
  refine Option.ext fun i => ?_
  rw [view_iff h', he, mem_outside_iff h hr]

/-- Pages of a range have been replaced by a block over that range. -/
theorem view_replaced {R old : Pages} {file : Option FileId} {pgoff : BitVec 64} {flags : VmFlags}
    (h : Wf mm L) (h' : Wf mm' L') (hr : RangeOk start end_) (hp : pages mm.core L = R + old)
    (hp' : pages mm'.core L' = R + blockPages start end_ file pgoff flags)
    (hold : ∀ q i, (q, i) ∈ old → start ≤ 4096*q ∧ 4096*q < end_) :
    mm'.view.clean p = if start ≤ 4096*p ∧ 4096*p < end_ then
      some ⟨file, pgoff+BitVec.ofNat 64 (p-start/4096), cleanFlags flags⟩ else mm.view.clean p := by
  split
  next hin =>
    apply (view_iff h').2
    rw [hp', Multiset.mem_add]
    exact .inr ((mem_blockPages hr).2 ⟨hin, rfl⟩)
  next hout =>
    apply Option.ext
    intro i
    have hnot : (p, i) ∉ old := fun hmem => hout (hold p i hmem)
    have hnot' : (p, i) ∉ blockPages start end_ file pgoff flags :=
      fun hmem => hout ((mem_blockPages hr).1 hmem).1
    rw [view_iff h', view_iff h, hp, hp', Multiset.mem_add, Multiset.mem_add, or_iff_left hnot,
      or_iff_left hnot']

structure PartOf (v w : Vma) : Prop where
  start : w.vmStart ≤ v.vmStart
  end_ : v.vmEnd ≤ w.vmEnd
  flags : v.vmFlags = w.vmFlags
  anon : v.anonVma = w.anonVma
  ops : v.hasOps = w.hasOps
  huge : v.hugeSize = w.hugeSize

theorem PartOf.refl (v : Vma) : PartOf v v := ⟨le_rfl, le_rfl, rfl, rfl, rfl, rfl⟩

theorem PartOf.trans {u v w : Vma} (h : PartOf u v) (h' : PartOf v w) : PartOf u w :=
  ⟨h'.start.trans h.start, h.end_.trans h'.end_, h.flags.trans h'.flags, h.anon.trans h'.anon,
    h.ops.trans h'.ops, h.huge.trans h'.huge⟩

theorem partOf_of_core {u v w : Vma} (hc : u.core = v) (ha : u.anonVma = w.anonVma)
    (hs : w.vmStart ≤ v.vmStart) (he : v.vmEnd ≤ w.vmEnd) (hf : v.vmFlags = w.vmFlags)
    (ho : v.hasOps = w.hasOps) (hh : v.hugeSize = w.hugeSize) :
    PartOf u w := by
  have hs' : u.vmStart = v.vmStart := (congrArg Vma.vmStart hc :)
  have he' : u.vmEnd = v.vmEnd := (congrArg Vma.vmEnd hc :)
  have hf' : u.vmFlags = v.vmFlags := (congrArg Vma.vmFlags hc :)
  have ho' : u.hasOps = v.hasOps := (congrArg Vma.hasOps hc :)
  have hh' : u.hugeSize = v.hugeSize := (congrArg Vma.hugeSize hc :)
  exact ⟨hs.trans hs'.ge, he'.le.trans he, hf'.trans hf, ha, ho'.trans ho, hh'.trans hh⟩

structure CutFrom (C : Set ℕ) (v w : Vma) : Prop extends PartOf v w where
  start_cut : v.vmStart = w.vmStart ∨ v.vmStart ∈ C
  end_cut : v.vmEnd = w.vmEnd ∨ v.vmEnd ∈ C

theorem CutFrom.trans {C : Set ℕ} {u v w : Vma} (h : CutFrom C u v) (h' : CutFrom C v w) :
    CutFrom C u w where
  toPartOf := h.toPartOf.trans h'.toPartOf
  start_cut := h.start_cut.elim (fun he => he ▸ h'.start_cut) .inr
  end_cut := h.end_cut.elim (fun he => he ▸ h'.end_cut) .inr

def Fragments (C : Set ℕ) (mm mm' : Mm) : Prop :=
  ∀ y ∈ mm'.mmRb.inorder, ∃ x ∈ mm.mmRb.inorder, CutFrom C (mm'.vma y) (mm.vma x)

variable {C : Set ℕ}

theorem Fragments.trans {mm'' : Mm} (h : Fragments C mm mm') (h' : Fragments C mm' mm'') :
    Fragments C mm mm'' := by
  intro z hz
  obtain ⟨y, hy, hyz⟩ := h' z hz
  obtain ⟨x, hx, hxy⟩ := h y hy
  exact ⟨x, hx, hyz.trans hxy⟩

theorem fragments_refl (mm : Mm) : Fragments C mm mm :=
  fun y hy => ⟨y, hy, PartOf.refl _, .inl rfl, .inl rfl⟩

/-- An area that is as it was, up to what `core` leaves out. -/
theorem cutFrom_of_core {u v : Vma} (hc : u.core = v.core) (ha : u.anonVma = v.anonVma) :
    CutFrom C u v :=
  ⟨partOf_of_core hc ha le_rfl le_rfl rfl rfl rfl, .inl (congrArg Vma.vmStart hc :),
    .inl (congrArg Vma.vmEnd hc :)⟩

theorem cutFrom_lower {u v : Vma} (hc : u.core = v.core.lower addr) (ha : u.anonVma = v.anonVma)
    (he : addr ≤ v.vmEnd) (hC : addr ∈ C) : CutFrom C u v where
  toPartOf := partOf_of_core hc ha le_rfl he rfl rfl rfl
  start_cut := .inl (congrArg Vma.vmStart hc :)
  end_cut := .inr ((congrArg Vma.vmEnd hc :).symm ▸ hC)

theorem cutFrom_upper {u v : Vma} (hc : u.core = v.core.upper addr) (ha : u.anonVma = v.anonVma)
    (hs : v.vmStart ≤ addr) (hC : addr ∈ C) : CutFrom C u v where
  toPartOf := partOf_of_core hc ha hs le_rfl rfl rfl rfl
  start_cut := .inr ((congrArg Vma.vmStart hc :).symm ▸ hC)
  end_cut := .inl (congrArg Vma.vmEnd hc :)

/-- Fewer areas, each of them as it was. -/
theorem fragments_of_subset (h : Wf mm L) (h' : Wf mm' L') (hsub : L' ⊆ L)
    (hcore : ∀ y ∈ L', mm'.core y = mm.core y)
    (hanon : ∀ y ∈ L', (mm'.vma y).anonVma = (mm.vma y).anonVma) : Fragments C mm mm' := by
  intro y hy
  rw [h'.rep.inorder] at hy
  exact ⟨y, h.rep.inorder ▸ hsub hy, cutFrom_of_core (hcore y hy) (hanon y hy)⟩

theorem SplitAt.fragments {newBelow : Bool} (hw : Wf s.mm (A ++ x :: B))
    (h : SplitAt s s' A x B addr newBelow n) (hs : (s.mm.core x).vmStart < addr)
    (he : addr < (s.mm.core x).vmEnd) (hC : addr ∈ C) :
    Fragments C s.mm s'.mm := by
  intro y hy
  rw [h.wf.rep.inorder] at hy
  rw [hw.rep.inorder]
  have hcases : y ∈ A ++ B ∨ y = x ∨ y = n := by
    cases newBelow <;> simp [halves] at hy ⊢ <;> tauto
  rcases hcases with hy | rfl | rfl
  · have hyL : y ∈ A ++ x :: B := by simp at hy ⊢; tauto
    exact ⟨y, hyL, cutFrom_of_core (h.other y hy) (h.anon y hyL)⟩
  · refine ⟨y, by simp, ?_⟩
    cases newBelow with
    | true => exact cutFrom_upper h.kept (h.anon y (by simp)) hs.le hC
    | false => exact cutFrom_lower h.kept (h.anon y (by simp)) he.le hC
  · refine ⟨x, by simp, ?_⟩
    cases newBelow with
    | true => exact cutFrom_lower h.new h.anon_new he.le hC
    | false => exact cutFrom_upper h.new h.anon_new hs.le hC

/-- Splitting, whether it fails or not. -/
theorem splitVmaNoLimit_fragments (rb : Balance VmaId) (newBelow : Bool) (h : Wf s.mm (A ++ x :: B))
    (hs : (s.mm.core x).vmStart < addr) (he : addr < (s.mm.core x).vmEnd) (hd : 4096 ∣ addr)
    (hC : addr ∈ C) :
    Fragments C s.mm (splitVmaNoLimit rb s x addr newBelow).2.mm := by
  rcases splitVmaNoLimit_spec rb newBelow h hs he hd with ⟨-, hsame⟩ | ⟨-, n, hsplit⟩
  · exact fragments_of_subset h hsame.wf (List.Subset.refl _) hsame.core fun y hy =>
      anonVma_splitVmaNoLimit newBelow (h.rep.fresh y hy)
  · exact hsplit.fragments h hs he hC

theorem splitLast_fragments (rb : Balance VmaId) (h : Wf s.mm L) (hd : 4096 ∣ end_)
    (hC : end_ ∈ C) : Fragments C s.mm (splitLast rb s end_).2.mm := by
  unfold splitLast
  cases hf : findVma s.mm end_ with
  | none => exact fragments_refl s.mm
  | some y =>
    obtain ⟨A, B, rfl, -, hlt⟩ := findVma_some h.rep (ordered_core.1 h.ordered) hf
    dsimp only
    split
    next hs => exact splitVmaNoLimit_fragments rb true h hs hlt hd hC
    next => exact fragments_refl s.mm

/-- Unmapping takes areas out of the list and leaves them as they are. -/
theorem vma_unmapAreas (rb : Balance VmaId) (s : MmSys) (prev : Option VmaId) (end_ : ℕ) :
    (unmapAreas rb s prev end_).mm.vma = s.mm.vma := by
  have hremove : ∀ (M : List VmaId) (t : MmSys), (M.foldl removeVma t).mm.vma = t.mm.vma := by
    intro M
    induction M with
    | nil => exact fun t => rfl
    | cons y M ih =>
      intro t
      have hshape := removeVma_shape t y
      exact (ih _).trans (congrArg Mm.vma hshape :)
  have herase : ∀ (M : List VmaId) (mm : Mm), (M.foldl (eraseStep rb) mm).vma = mm.vma := by
    intro M
    induction M with
    | nil => exact fun mm => rfl
    | cons y M ih => exact fun mm => ih _
  have hunlock : ∀ (M : List VmaId), (munlockAreas s.mm M).vma = s.mm.vma := by
    intro M
    obtain ⟨v, hv, -⟩ := munlockAreas_eq s.mm M
    rw [hv]
  unfold unmapAreas
  dsimp only
  refine (hremove _ _).trans ?_
  exact (herase _ _).trans (hunlock _)

/-- Cutting at the end of the range and unmapping. -/
theorem splitLast_unmap_fragments (rb : Balance VmaId) {R : List VmaId} (h : Wf s.mm (A ++ R))
    (hA : ∀ a ∈ A, (s.mm.core a).vmEnd ≤ start) (hR : ∀ z ∈ R, start ≤ (s.mm.core z).vmStart)
    (hr : RangeOk start end_) (hC : end_ ∈ C) :
    Fragments C s.mm (unmapLast rb s A.getLast? end_).2.mm := by
  dsimp only [unmapLast]
  have hfrag := splitLast_fragments rb h hr.end_dvd hC
  rcases splitLast_spec rb h hA hR hr.lt hr.end_dvd with ⟨he, -⟩ | ⟨he, M, B, hcut, hdoes, -⟩
  · rw [if_pos he]
    exact hfrag
  · rw [if_neg (not_not.2 he)]
    have hM : ∀ m ∈ M, ((splitLast rb s end_).2.mm.core m).vmStart < end_ := fun m hm =>
      (hdoes.wf.ordered.area m (by simp [hm])).lt.trans_le (hcut.inside m hm).2
    obtain ⟨hwf, hcore, -⟩ := unmapAreas_spec rb hdoes.wf hM hcut.above
    have hsub : A ++ B ⊆ A ++ (M ++ B) := fun y hy => by
      simp only [List.mem_append] at hy ⊢
      tauto
    exact hfrag.trans
        (fragments_of_subset hdoes.wf hwf hsub (fun y _ => congrFun hcore y) fun y _ => by
      rw [vma_unmapAreas])

theorem splitFirst_unmap_fragments (rb : Balance VmaId) (h : Wf s.mm (A ++ x :: B))
    (hr : RangeOk start end_) (hA : ∀ a ∈ A, (s.mm.core a).vmEnd ≤ start)
    (hs : (s.mm.core x).vmStart < start) (hx : start < (s.mm.core x).vmEnd) (hC : start ∈ C)
    (hC' : end_ ∈ C) :
    Fragments C s.mm (unmapFirst rb s x start end_).2.mm := by
  dsimp only [unmapFirst]
  have hafter := (ordered_cons.1 (ordered_append.1 h.ordered).2.1).2.2
  have hfrag := splitVmaNoLimit_fragments rb false h hs hx hr.start_dvd hC
  rcases splitVmaNoLimit_spec rb false h hs hx hr.start_dvd with ⟨he, -⟩ | ⟨he, n, hsplit⟩
  · rw [if_pos he]
    exact hfrag
  · rw [if_neg (not_not.2 he)]
    set s₁ := (splitVmaNoLimit rb s x start false).2
    have hhalf : A ++ (halves x n false ++ B) = (A ++ [x]) ++ n :: B := by simp [halves]
    have hwf := hsplit.wf
    rw [hhalf] at hwf
    have hlast := splitLast_unmap_fragments rb hwf (hsplit.below hA) (hsplit.above hafter hx) hr hC'
    rw [List.getLast?_concat] at hlast
    exact hfrag.trans hlast

theorem doMunmap_fragments (rb : Balance VmaId) (conf : MmConf) (start len : ℕ) (h : Wf s.mm L) :
    Fragments {start, start+pageAlign len} s.mm (doMunmap rb conf s start len).2.mm := by
  have hcases := doMunmap_cases rb conf start len h
  generalize doMunmap rb conf s start len = r at hcases ⊢
  cases hcases with
  | refused => exact fragments_refl s.mm
  | nothing => exact fragments_refl s.mm
  | first hr hL hA hs hx hmax =>
    subst hL
    exact splitFirst_unmap_fragments rb h hr hA hs hx (by simp) (by simp)
  | last hr hL hA hR =>
    subst hL
    exact splitLast_unmap_fragments rb h hA hR hr (by simp)

/-- Where nothing but the soft-dirty bit can differ, parts of old areas show what these showed. -/
theorem Fragments.view_eq (h : Wf mm L) (h' : Wf mm' L') (hf : Fragments C mm mm')
    (hc : mm'.view.clean p = mm.view.clean p) : mm'.view p = mm.view p := by
  cases hv : mm'.view p with
  | none =>
    rw [PageMap.clean, hv, PageMap.clean] at hc
    exact (Option.map_eq_none_iff.1 hc.symm).symm
  | some i =>
    obtain ⟨y, hy, hcov, rfl⟩ := (view_eq_some h').1 hv
    obtain ⟨x, hx, hpart⟩ := hf y (h'.rep.inorder ▸ hy)
    have hx : mm.view p = some ((mm.core x).pageAt p) :=
      (view_eq_some h).2
        ⟨x, h.rep.inorder ▸ hx, ⟨hpart.start.trans hcov.1, hcov.2.trans_le hpart.end_⟩, rfl⟩
    rw [PageMap.clean, PageMap.clean, hv, hx, Option.map_some, Option.map_some] at hc
    rw [hx, PageInfo.eq_of_clean (Option.some.inj hc) hpart.flags]

theorem doMunmap_rangeOk {conf : MmConf} {len : ℕ} (h : (doMunmap rb conf s start len).1 = 0) :
    RangeOk start (start+pageAlign len) := by
  unfold doMunmap at h
  split at h
  next => exact absurd h (show -EINVAL ≠ 0 by decide)
  next hoff =>
    dsimp only at h
    split at h
    next => exact absurd h (show -EINVAL ≠ 0 by decide)
    next hlen => exact rangeOk_of_checks hoff hlen

/-- `do_munmap` removes its range from the view, or nothing at all. -/
theorem doMunmap_view (rb : Balance VmaId) (conf : MmConf) (s : MmSys) (L : List VmaId)
    (start len : ℕ) (h : Wf s.mm L) :
    let r := doMunmap rb conf s start len
    (∃ L', Wf r.2.mm L') ∧ (r.1 = 0 → r.2.mm.view = s.mm.view.unmap start (start+pageAlign len)) ∧
      (r.1 ≠ 0 → r.2.mm.view = s.mm.view) := by
  have hspec := doMunmap_spec rb conf start len h
  have hfrag := doMunmap_fragments rb conf start len h
  have hrange := @doMunmap_rangeOk s rb start conf len
  dsimp only at hspec ⊢
  generalize doMunmap rb conf s start len = r at hspec hfrag hrange ⊢
  rcases hspec with ⟨hne, L', hdoes⟩ | ⟨heq, L', hdoes⟩
  · refine ⟨⟨L', hdoes.wf⟩, fun heq => absurd heq hne, fun _ => ?_⟩
    -- the areas left are parts of the old ones, so the flags hidden by `clean` are as before
    funext p
    exact hfrag.view_eq h hdoes.wf (congrFun (view_of_pages h hdoes.wf hdoes.pages) p)
  · refine ⟨⟨L', hdoes.wf⟩, fun _ => ?_, fun hne => absurd heq hne⟩
    have hclean := view_of_outside h hdoes.wf (hrange heq) hdoes.pages
    funext p
    have hp := congrFun hclean p
    rw [PageMap.unmap] at hp ⊢
    split
    next hin =>
      rw [if_pos hin] at hp
      exact Option.map_eq_none_iff.1 hp
    next hout =>
      rw [if_neg hout] at hp
      exact hfrag.view_eq h hdoes.wf hp

def fourPages : Vma := { vmStart := 0x10000, vmEnd := 0x14000, vmFlags := VM_READ ||| VM_SOFTDIRTY }

def smallConf : MmConf :=
  { maxMapCount := 2, mmapMinAddr := 0, overcommitNever := false, ignoreRlimitData := false,
    taskUnmappedBase := 0 }

/-- Unmapping the second of the four pages. -/
theorem doMunmap_view_fourPages :
    let s : MmSys := { mm := Mm.ofArea fourPages }
    let r := doMunmap Balance.plain smallConf s 0x11000 1
    r.1 = 0 ∧ s.mm.view 0x11 ≠ none ∧
      r.2.mm.view = s.mm.view.unmap 0x11000 (0x11000+pageAlign 1) := by
  have hwf : Wf (Mm.ofArea fourPages) [0] :=
    wf_ofArea ⟨by decide, by decide, by decide, by decide⟩
  have hzero : (doMunmap Balance.plain smallConf { mm := Mm.ofArea fourPages } 0x11000 1).1 =
    0 := by decide +kernel
  exact ⟨hzero, by decide +kernel,
    (doMunmap_view Balance.plain smallConf { mm := Mm.ofArea fourPages } [0] 0x11000 1 hwf).2.1
    hzero⟩

end PtraceRemote
