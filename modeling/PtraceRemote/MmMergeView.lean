import PtraceRemote.MmMoveInv
import PtraceRemote.MmProtView

/-! `vma_merge` on the page-level view: whichever of its eight cases applies, the pages of the
request show what was asked for, all others what they showed before, and the count follows the
areas. -/
namespace PtraceRemote

open AugTree (Balance)

variable {mm : Mm} {s s' : MmSys} {rb : Balance VmaId} {L L' A B : List VmaId} {x v : VmaId}
  {core core' : VmaId → Vma} {q : MergeReq} {prev : Option VmaId} {k : ℤ}

/-- What the callers of `vma_merge` promise: the range is free and `prev` is the area before it, or
it lies in one area, behind the start of `prev` or at the start of the area after `prev`. -/
inductive MergeCall (core : VmaId → Vma) (q : MergeReq) : List VmaId → Option VmaId → Prop
  | free {A B : List VmaId} (hA : ∀ a ∈ A, (core a).vmEnd ≤ q.addr)
    (hB : ∀ b ∈ B, q.end_ ≤ (core b).vmStart) :
      MergeCall core q (A ++ B) A.getLast?
  | behind {A B : List VmaId} {x : VmaId} (hs : (core x).vmStart < q.addr)
      (he : q.end_ ≤ (core x).vmEnd) : MergeCall core q (A ++ x :: B) (some x)
  | front {A B : List VmaId} {x : VmaId} (hs : q.addr = (core x).vmStart)
      (he : q.end_ ≤ (core x).vmEnd) : MergeCall core q (A ++ x :: B) A.getLast?

/-- The request has been merged into the area `v`, and `k` areas are gone. -/
structure MergedInto (q : MergeReq) (mm : Mm) (L : List VmaId) (mm' : Mm) (L' : List VmaId)
    (v : VmaId) (k : ℤ) : Prop where
  wf : Wf mm' L'
  mem : v ∈ L'
  start_le : (mm'.vma v).vmStart ≤ q.addr
  le_end : q.end_ ≤ (mm'.vma v).vmEnd
  view : ∀ p, mm'.view.clean p = if q.addr ≤ 4096*p ∧ 4096*p < q.end_ then
    some ⟨q.file, q.pgoff+BitVec.ofNat 64 (p-q.addr/4096), cleanFlags q.vmFlags⟩
      else mm.view.clean p
  dropped : (L'.length : ℤ) = L.length-k ∧ mm'.mapCount = mm.mapCount-k
  few : k = 0 ∨ k = 1 ∨ k = 2

theorem FreeMerge.dropped (h : FreeMerge core q A B v L' core' k) :
    (L'.length : ℤ) = (A ++ B).length-k ∧ (k = 0 ∨ k = 1 ∨ k = 2) := by
  cases h with
  | after hA hj => exact ⟨(sub_zero _).symm, by decide⟩
  | both hA hB hja hjb =>
    refine ⟨?_, by decide⟩
    rw [hB, List.length_append, List.length_append, List.length_cons]
    push_cast
    ring
  | before hB hj => exact ⟨(sub_zero _).symm, by decide⟩

theorem InsideMerge.dropped (h : InsideMerge core q A x B v L' core' k) :
    (L'.length : ℤ) = (A ++ x :: B).length-k ∧ (k = 0 ∨ k = 1 ∨ k = 2) := by
  cases h with
  | case4 hB hs he hj => exact ⟨(sub_zero _).symm, by decide⟩
  | case5 hA hs he hj => exact ⟨(sub_zero _).symm, by decide⟩
  | case6 hA hB hs he hja hjb =>
    refine ⟨?_, by decide⟩
    rw [hB, List.length_append, List.length_append, List.length_cons, List.length_cons]
    push_cast
    ring
  | case7 hA hs he hj =>
    refine ⟨?_, by decide⟩
    rw [List.length_append, List.length_append, List.length_cons]
    push_cast
    ring
  | case8 hB hs he hj =>
    refine ⟨?_, by decide⟩
    simp only [hB, List.length_append, List.length_cons]
    push_cast
    ring

/-- The count is the number of areas before and after. -/
theorem mapCount_dropped (h : Wf s.mm L) (h' : Wf s'.mm L') (hk : (L'.length : ℤ) = L.length-k) :
    s'.mm.mapCount = s.mm.mapCount-k := by
  rw [h'.rep.count, h.rep.count, hk]

/-- A request for free space, cases 1 to 3. -/
theorem FreeMerge.mergedInto {file : Option FileId} (hm : FreeMerge s.mm.core q A B v L' core' k)
    (h : Wf s.mm (A ++ B)) (hr : RangeOk q.addr q.end_) (hadj : Adjusted s s' L' core' file k) :
    MergedInto q s.mm (A ++ B) s'.mm L' v k := by
  obtain ⟨hstart, hend⟩ := hm.covers h.ordered
  obtain ⟨hlen, hk⟩ := hm.dropped
  have hcore : s'.mm.core v = core' v := congrFun hadj.core v
  have hpages : pages s'.mm.core L' =
      pages s.mm.core (A ++ B) + blockPages q.addr q.end_ q.file q.pgoff q.vmFlags := by
    rw [hadj.core]
    exact hm.total h.ordered h.rep.nodup hr
  rw [← hcore] at hstart hend
  refine ⟨hadj.wf, hm.merged.1, hstart, hend,
    fun p => ?_, ⟨hlen, mapCount_dropped h hadj.wf hlen⟩, hk⟩
  exact view_replaced h hadj.wf hr (add_zero _).symm hpages
    (fun _ _ hmem => absurd hmem (Multiset.notMem_zero _))

/-- A request inside an area, cases 4 to 8. What the area showed in the range does not matter. -/
theorem InsideMerge.mergedInto {file : Option FileId}
    (hm : InsideMerge s.mm.core q A x B v L' core' k) (h : Wf s.mm (A ++ x :: B))
    (hr : RangeOk q.addr q.end_) (hs : (s.mm.core x).vmStart ≤ q.addr)
    (he : q.end_ ≤ (s.mm.core x).vmEnd) (hadj : Adjusted s s' L' core' file k) :
    MergedInto q s.mm (A ++ x :: B) s'.mm L' v k := by
  obtain ⟨A', B', hL', -, hstart, hend, -⟩ := hm.merged h.ordered h.rep.nodup
  obtain ⟨hlen, hk⟩ := hm.dropped
  have hcore : s'.mm.core v = core' v := congrFun hadj.core v
  rw [← hcore] at hstart hend
  refine ⟨hadj.wf, by simp [hL'], hstart, hend,
    fun p => ?_, ⟨hlen, mapCount_dropped h hadj.wf hlen⟩, hk⟩
  -- the pages of `x` in the range make way for the block
  have hx := h.ordered.area x (by simp)
  obtain ⟨R, hR⟩ := Multiset.le_iff_exists_add.1 (part_le_pages (A := A) (B := B) hx hr hs he)
  have htotal : pages s'.mm.core L' + (s.mm.core x).part single q.addr q.end_ =
      pages s.mm.core (A ++ x :: B) + blockPages q.addr q.end_ q.file q.pgoff q.vmFlags := by
    rw [hadj.core]
    exact hm.total h.ordered h.rep.nodup hr
  have hR' : pages s'.mm.core L' = R + blockPages q.addr q.end_ q.file q.pgoff q.vmFlags := by
    rw [hR, add_assoc, add_comm, add_right_inj] at htotal
    exact htotal
  exact view_replaced h hadj.wf hr (hR.trans (add_comm _ _)) hR'
    (fun q i hq => ((mem_blockPages hr).1 hq).1)

/-- `vma_merge` does nothing to the areas, or merges the request as its callers expect. -/
theorem vmaMerge_meaning (rb : Balance VmaId) (s : MmSys) (L : List VmaId) (h : Wf s.mm L)
    (prev : Option VmaId) (q : MergeReq) (hr : RangeOk q.addr q.end_)
    (hcall : MergeCall s.mm.core q L prev) :
    let r := vmaMerge rb s prev q
    (r.1 = none ∧ Wf r.2.mm L ∧ r.2.mm.core = s.mm.core) ∨
      ∃ v L' k, r.1 = some v ∧ MergedInto q s.mm L r.2.mm L' v k := by
  intro r
  -- the range is free, or lies in `x` behind its start, or begins with it
  cases hcall with
  | @free A B hA hB =>
    rcases vmaMerge_free rb h rfl hr hA hB with ⟨hnone, hquiet⟩ | ⟨v, L', core', k, hsome, hm, hadj⟩
    · exact .inl ⟨hnone, hquiet.wf h, hquiet.core⟩
    · exact .inr ⟨v, L', k, hsome, hm.mergedInto h hr hadj⟩
  | @behind A B x hs he =>
    rcases vmaMerge_behind h hr hs he with ⟨hnone, hquiet⟩ | ⟨v, L', core', k, hsome, hm, hadj⟩
    · exact .inl ⟨hnone, hquiet.wf h, hquiet.core⟩
    · exact .inr ⟨v, L', k, hsome, hm.mergedInto h hr hs.le he hadj⟩
  | @front A B x hs he =>
    rcases vmaMerge_front h hr hs he with
      ⟨hnone, hquiet⟩ | ⟨v, L', core', k, file, hsome, hm, -, hadj⟩
    · exact .inl ⟨hnone, hquiet.wf h, hquiet.core⟩
    · exact .inr ⟨v, L', k, hsome, hm.mergedInto h hr hs.ge he hadj⟩

/-- The page behind four pages is merged into their area. -/
theorem vmaMerge_meaning_fourPages :
    let s : MmSys := { mm := Mm.ofArea fourPages }
    let r := vmaMerge Balance.plain s (some 0) ⟨0x14000, 0x15000, VM_READ, none, none, 4, 0, 0⟩
    r.1 = some 0 ∧ (r.2.mm.vma 0).vmStart = 0x10000 ∧ (r.2.mm.vma 0).vmEnd = 0x15000 ∧
      r.2.mm.view.clean 0x14 = some ⟨none, 4, VM_READ⟩ ∧ ∀ p, p ≠ 0x14 →
        r.2.mm.view.clean p = s.mm.view.clean p := by
  intro s r
  have hwf : Wf s.mm [0] := wf_ofArea ⟨by decide, by decide, by decide, by decide⟩
  set q : MergeReq := ⟨0x14000, 0x15000, VM_READ, none, none, 4, 0, 0⟩
  have hcall : MergeCall s.mm.core q ([0] ++ []) ([0] : List VmaId).getLast? :=
    .free (by decide) (by decide)
  have hsome : r.1 = some 0 := by decide +kernel
  have hstart : (r.2.mm.vma 0).vmStart = 0x10000 := by decide +kernel
  have hend : (r.2.mm.vma 0).vmEnd = 0x15000 := by decide +kernel
  rcases vmaMerge_meaning Balance.plain s [0] hwf (some 0) q
      ⟨by decide, by decide, by decide, by decide⟩ hcall with
    ⟨hnone, -⟩ | ⟨v, L', k, -, hmerged⟩
  · exact absurd (hsome.symm.trans hnone) (by decide)
  · refine ⟨hsome, hstart, hend, (hmerged.view 0x14).trans (by decide),
      fun p hp => (hmerged.view p).trans (if_neg ?_)⟩
    change ¬(0x14000 ≤ 4096*p ∧ 4096*p < 0x15000)
    omega

end PtraceRemote
