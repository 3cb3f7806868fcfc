import PtraceRemote.GupPins

/-! The loop that faults pages in for `mm_populate` is a case of `__get_user_pages` with all its
flags: whatever the full loop meets in an area, there are answers of the page tables and of
`handle_mm_fault` for which the other one does the same. -/
namespace PtraceRemote.Pin

/-- The call that `populate_vma_page_range_task` makes. -/
def populating (foll : FollFlags) : Call where
  flags :=
    { touch := true
      mlock := true
      populate := foll.populate
      write := foll.write
      force := foll.force }
  nonblocking := true

def areaOf (v : Vma) (hasFault : Bool) : Area := ⟨v.vmStart, v.vmEnd, v.vmFlags, hasFault⟩

/-- A round sees the area `x` of `mm`. `follow_hugetlb_page` goes on to the end of the area, or it
gives up. -/
structure Sees (mm : Mm) (x : VmaId) (hasFault : Bool) (w : World) : Prop where
  vma : ∀ a, (mm.vma x).vmStart ≤ a → a < (mm.vma x).vmEnd →
    w.vma a = some (areaOf (mm.vma x) hasFault)
  guard : w.guard = stackGuardPageStart mm x
  huge : ∀ a, (w.huge a).2 = true ∨ ((mm.vma x).vmEnd-a)/4096 ≤ (w.huge a).1.length
  transHuge : TransHugeOk w.transHuge

def VmFault.plain : VmFault → Handled
  | .oom => .oom
  | .hwpoison => .poisoned
  | .sigbus => .sigbus
  | .done major retry _ => .done major retry

inductive Matches : Followed → Follow → Prop
  | page {p : PageId} {mask : ℕ} : Matches (.page p mask) (.page mask)
  | null {mask : ℕ} : Matches (.null mask) (.absent mask)
  | special : Matches (.error (-EEXIST) 0) .special
  | error {e : Fin 4095} {mask : ℕ} (h : -((e.val : ℤ)+1) ≠ -EEXIST) :
      Matches (.error (-((e.val : ℤ)+1)) mask) (.error e)

/-- The flags of a look of the loop that populates. -/
structure Foll.Populates (f : Foll) (foll : FollFlags) : Prop where
  populate : f.populate = foll.populate
  mlock : f.mlock = true
  get : f.get = false
  dump : f.dump = false
  split : f.split = false
  nowait : f.nowait = false
  hwpoison : f.hwpoison = false
  migration : f.migration = false

section Looks

variable {f : Foll} {foll : FollFlags} {hasFault : Bool} {w : World} {refs : Refs}

theorem noPageTable_null (hf : f.Populates foll) : noPageTable f hasFault = .null 0 := by
  rw [noPageTable, hf.dump]
  rfl

theorem followSpecial_exist (hf : f.Populates foll) :
    (followSpecial f refs).1 = .error (-EEXIST) 0 := by
  rw [followSpecial, followPfnPte, hf.dump, hf.get]
  rfl

theorem takePage_page_zero (hf : f.Populates foll) (p : PageId) (compound pgmap : Bool) :
    (takePage f w p compound pgmap refs).1 = .page p 0 := by
  rw [takePage, hf.split, hf.get]
  rfl

theorem followPagePte_matches (hf : f.Populates foll) (look : Look) :
    ∃ g, Matches (followPagePte f hasFault w look refs).1 g := by
  unfold followPagePte
  split
  · rw [noPageTable_null hf]
    exact ⟨_, .null⟩
  · exact ⟨_, .null⟩
  · rw [hf.migration]
    exact ⟨_, .null⟩
  · split
    · exact ⟨_, .null⟩
    · split
      · exact ⟨_, .null⟩
      · split
        · rw [takePage_page_zero hf]
          exact ⟨_, .page⟩
        · rw [hf.dump, if_neg Bool.false_ne_true, takePage_page_zero hf]
          exact ⟨_, .page⟩
        · rw [hf.get, if_neg Bool.false_ne_true, followSpecial_exist hf]
          exact ⟨_, .special⟩
        · rw [followSpecial_exist hf]
          exact ⟨_, .special⟩

theorem followPageMask_matches (hf : f.Populates foll) (hh : TransHugeOk w.transHuge) (addr : ℕ) :
    ∃ g, Matches (followPageMask f hasFault w addr refs).1 g := by
  unfold followPageMask
  split
  · rw [noPageTable_null hf]
    exact ⟨_, .null⟩
  · exact followPagePte_matches hf _
  · split
    · rw [noPageTable_null hf]
      exact ⟨_, .null⟩
    · rw [hf.split, if_neg Bool.false_ne_true]
      unfold followHuge
      dsimp only
      split
      · exact ⟨_, .null⟩
      · next herr => exact ⟨_, .error (hh.error _ _ _ _ _ herr)⟩
      · exact ⟨_, .page⟩

/-- `faultin_page` with the flags and results that the small model leaves out. -/
theorem faultinPage_plain (hf : f.Populates foll) (vmFlags : VmFlags) (guard : Bool)
    (handled : VmFault) :
    let full := faultinPage f vmFlags true guard handled
    let small := PtraceRemote.faultinPage foll guard handled.plain
    full.ret = small.1 ∧ full.counted = small.2 ∧ full.dropped = decide (small.1 = -EBUSY) ∧
      full.foll.Populates foll := by
  intro full small
  have hfoll : full.foll.Populates foll := by
    rw [(faultinPage_ok f vmFlags true guard handled).foll]
    exact { hf with }
  refine and_assoc.1 (and_assoc.1 ⟨?_, hfoll⟩)
  unfold full small faultinPage PtraceRemote.faultinPage
  rw [hf.mlock, hf.populate, hf.nowait, hf.hwpoison]
  cases foll.populate with
  | false => exact ⟨⟨rfl, rfl⟩, rfl⟩
  | true =>
    cases guard with
    | true => exact ⟨⟨rfl, rfl⟩, rfl⟩
    | false =>
      cases handled with
      | oom => exact ⟨⟨rfl, rfl⟩, rfl⟩
      | hwpoison => exact ⟨⟨rfl, rfl⟩, rfl⟩
      | sigbus => exact ⟨⟨rfl, rfl⟩, rfl⟩
      | done major retry write => cases retry <;> exact ⟨⟨rfl, rfl⟩, rfl⟩

end Looks

/-! The loops. -/

section Loop

variable {foll : FollFlags} {guard : ℕ → Bool} {fault : ℕ → Bool → Fault}
  {looks looks' : ℕ → List PtraceRemote.Look} {fuel i start nr : ℕ}

theorem gupLoop_congr (h : ∀ a, start ≤ a → looks a = looks' a) :
    gupLoop foll guard fault looks fuel i start nr =
      gupLoop foll guard fault looks' fuel i start nr := by
  induction fuel generalizing i start nr with
  | zero => rfl
  | succ fuel ih =>
    unfold gupLoop
    rw [h start le_rfl]
    dsimp only
    split
    · rfl
    · rfl
    · rw [ih fun a ha => h a ((Nat.le_add_right _ _).trans ha)]

/-- What the loop makes of the first page, and of the rest if it goes on. -/
def afterVisit (rest : ℕ → ℕ → ℕ → GupResult) (i start nr : ℕ) : PageEnd × List Fault → GupResult
  | (.fail e, fs) => ⟨if i ≠ 0 then i else e, false, fs⟩
  | (.busy, fs) => ⟨i, true, fs⟩
  | (.next mask, fs) =>
    let increm := pageIncrem start mask nr
    if nr-increm = 0 then ⟨(i+increm : ℕ), false, fs⟩
    else
      let r := rest (i+increm) (start+increm*4096) (nr-increm)
      { r with faults := fs ++ r.faults }

theorem gupLoop_succ (hnr : 0 < nr) (hsame : ∀ a, start < a → looks a = looks' a) :
    gupLoop foll guard fault looks (fuel+1) i start nr =
      afterVisit (gupLoop foll guard fault looks' fuel) i start nr
      (visitPage foll (guard start) (fault start) (looks start)) := by
  rw [gupLoop]
  generalize visitPage foll (guard start) (fault start) (looks start) = visit
  obtain ⟨page, fs⟩ := visit
  cases page with
  | fail e => rfl
  | busy => rfl
  | next mask =>
    have hpos := pageIncrem_pos start mask hnr
    dsimp only [afterVisit]
    rw [gupLoop_congr fun a ha => hsame a (by omega)]

/-- More faults before the first page is done. -/
theorem afterVisit_append (rest : ℕ → ℕ → ℕ → GupResult) (page : PageEnd) (fs fs' : List Fault) :
    afterVisit rest i start nr (page, fs ++ fs') =
      { afterVisit rest i start nr (page, fs') with
        faults := fs ++ (afterVisit rest i start nr (page, fs')).faults } := by
  cases page with
  | fail e => rfl
  | busy => rfl
  | next mask =>
    dsimp only [afterVisit]
    split
    · rfl
    · rw [List.append_assoc]

end Loop

/-! The simulation. -/

section Run

variable {mm : Mm} {x : VmaId} {hasFault : Bool} {foll : FollFlags} {c : Call} {tsk owner : Party}
  {s s' : Gup} {w : World} {ws ws' : List World} {r : ℤ}

/-- Between two rounds the loop is in the area, and holds the lock. -/
structure Inside (mm : Mm) (x : VmaId) (hasFault : Bool) (foll : FollFlags) (s : Gup) : Prop where
  vma : s.vma = some (areaOf (mm.vma x) hasFault)
  le : s.start+s.nrPages*4096 ≤ (mm.vma x).vmEnd
  pos : 0 < s.nrPages
  pc : s.pc = .top ∨ s.pc = .retry ∧ s.foll.Populates foll
  quiet : s.busy = false ∧ s.dropped = false

/-- The faults that are counted between two states. -/
structure Counts (s s' : Gup) (fs : List Fault) : Prop where
  maj : s'.majFlt = s.majFlt+fs.countP (·.major)
  min : s'.minFlt = s.minFlt+fs.countP (!·.major)

/-- The small loop, started where `s` is, does what leads to `s'`. -/
def Repeats (mm : Mm) (x : VmaId) (tsk owner : Party) (foll : FollFlags) (s : Gup) (r : ℤ)
    (s' : Gup) : Prop :=
  ∃ looks faults, (∀ fuel, s.nrPages ≤ fuel → gupLoop foll (stackGuardPageStart mm x)
      (fun a major => ⟨owner, a, some tsk, major⟩) looks fuel s.pages.length s.start s.nrPages =
        ⟨r, s'.dropped, faults⟩) ∧ Counts s s' faults

/-- What a round comes to. If the loop goes on, the small one can do the rest behind this page, or
behind this look. -/
def Outcome.Repeats (mm : Mm) (x : VmaId) (hasFault : Bool) (tsk owner : Party) (foll : FollFlags)
    (s : Gup) :
    Outcome → Prop
  | .ret r s' => Pin.Repeats mm x tsk owner foll s r s'
  | .go s1 => Inside mm x hasFault foll s1 ∧
      ∀ r s', Pin.Repeats mm x tsk owner foll s1 r s' → Pin.Repeats mm x tsk owner foll s r s'

theorem Counts.append {s'' : Gup} {fs fs' : List Fault} (h : Counts s s' fs)
    (h' : Counts s' s'' fs') :
    Counts s s'' (fs ++ fs') := by
  constructor
  · rw [h'.maj, h.maj, List.countP_append, Nat.add_assoc]
  · rw [h'.min, h.min, List.countP_append, Nat.add_assoc]

theorem count_counts (s : Gup) (fault : Bool → Fault) (hf : ∀ major, (fault major).major = major)
    (o : Option Bool) :
    Counts s (s.count o) ((o.map fault).toList) := by
  match o with
  | none => exact ⟨rfl, rfl⟩
  | some true => exact ⟨by simp [Gup.count, hf], by simp [Gup.count, hf]⟩
  | some false => exact ⟨by simp [Gup.count, hf], by simp [Gup.count, hf]⟩

/-- One look decides the page, and the loop with it. -/
theorem repeats_of_visit (look : PtraceRemote.Look) (hpos : 0 < s.nrPages) {page : PageEnd}
    {fs : List Fault}
    (hvisit : visitPage foll (stackGuardPageStart mm x s.start)
      (fun major => ⟨owner, s.start, some tsk, major⟩) [look] = (page, fs))
    (hend :
      ∀ rest, afterVisit rest s.pages.length s.start s.nrPages (page, fs) = ⟨r, s'.dropped, fs⟩)
    (hcounts : Counts s s' fs) : Repeats mm x tsk owner foll s r s' := by
  refine ⟨fun _ => [look], fs, fun fuel hfuel => ?_, hcounts⟩
  obtain ⟨fuel, rfl⟩ : ∃ k, fuel = k+1 := Nat.exists_eq_succ_of_ne_zero (by omega)
  rw [gupLoop_succ hpos fun _ _ => rfl, hvisit]
  exact hend _

theorem nextPage_repeats {s1 : Gup} (look : PtraceRemote.Look) {mask : ℕ} {fs : List Fault}
    (h : Inside mm x hasFault foll s) (hvmas : c.vmas = false)
    (hvisit : visitPage foll (stackGuardPageStart mm x s.start)
      (fun major => ⟨owner, s.start, some tsk, major⟩) [look] = (.next mask, fs))
    (hcounts : Counts s s1 fs) (hstart : s1.start = s.start) (hnr : s1.nrPages = s.nrPages)
    (hpages : s1.pages = s.pages) (hvma : s1.vma = s.vma)
    (hquiet : s1.busy = false ∧ s1.dropped = false) :
    (nextPage c s1 none mask).Repeats mm x hasFault tsk owner foll s := by
  have hpos := pageIncrem_pos s.start mask h.pos
  have hle := pageIncrem_le s.start mask s.nrPages
  have hlen :
      (s.pages ++ (none :: List.replicate (pageIncrem s.start mask s.nrPages-1) none)).length =
        s.pages.length+pageIncrem s.start mask s.nrPages := by
    simp only [List.length_append, List.length_cons, List.length_replicate]
    omega
  have hafter (rest : ℕ → ℕ → ℕ → GupResult) :
      afterVisit rest s.pages.length s.start s.nrPages (.next mask, fs) =
        if s.nrPages-pageIncrem s.start mask s.nrPages = 0 then
          ⟨(s.pages.length+pageIncrem s.start mask s.nrPages : ℕ), false, fs⟩
        else
          let r := rest (s.pages.length+pageIncrem s.start mask s.nrPages)
            (s.start+pageIncrem s.start mask s.nrPages*4096)
            (s.nrPages-pageIncrem s.start mask s.nrPages)
          { r with faults := fs ++ r.faults } := rfl
  unfold nextPage Gup.next
  dsimp only
  rw [hvmas, if_neg Bool.false_ne_true, hstart, hnr, hpages, hvma]
  split
  · next hz =>
    refine repeats_of_visit look h.pos hvisit (fun rest => ?_) ⟨hcounts.maj, hcounts.min⟩
    rw [hafter, if_pos hz, ← hlen, hquiet.2]
  · next hz =>
    refine ⟨⟨h.vma, ?_, Nat.pos_of_ne_zero hz, .inl rfl, hquiet⟩, fun r s' hrest => ?_⟩
    · have := h.le
      show s.start+_*4096+(s.nrPages-_)*4096 ≤ _
      omega
    · obtain ⟨looks, faults, hloop, hc⟩ := hrest
      refine ⟨Function.update looks s.start [look], fs ++ faults, fun fuel hfuel => ?_, ?_⟩
      · have hpos' := h.pos
        obtain ⟨fuel, rfl⟩ : ∃ k, fuel = k+1 := Nat.exists_eq_succ_of_ne_zero (by omega)
        have hlater : ∀ a, s.start < a → Function.update looks s.start [look] a = looks a :=
          fun a ha => Function.update_of_ne ha.ne' _ _
        have hrest := hloop fuel (by dsimp only; omega)
        dsimp only at hrest
        rw [hlen] at hrest
        rw [gupLoop_succ h.pos hlater, Function.update_self, hvisit, hafter, if_neg hz]
        dsimp only
        rw [hrest]
      · exact hcounts.append ⟨hc.maj, hc.min⟩

/-- The page is faulted in, and looked at again. -/
theorem retry_repeats {s1 : Gup} (look : PtraceRemote.Look) {fs : List Fault}
    (h : Inside mm x hasFault foll s) (hrest : Repeats mm x tsk owner foll s1 r s')
    (hvisit : ∀ l, visitPage foll (stackGuardPageStart mm x s.start)
      (fun major => ⟨owner, s.start, some tsk, major⟩) (look :: l) =
        let rest := visitPage foll (stackGuardPageStart mm x s.start)
          (fun major => ⟨owner, s.start, some tsk, major⟩) l
        (rest.1, fs ++ rest.2))
    (hcounts : Counts s s1 fs) (hstart : s1.start = s.start) (hnr : s1.nrPages = s.nrPages)
      (hpages : s1.pages = s.pages) :
    Repeats mm x tsk owner foll s r s' := by
  obtain ⟨looks, faults, hloop, hc⟩ := hrest
  refine ⟨Function.update looks s.start (look :: looks s.start), fs ++ faults,
    fun fuel hfuel => ?_, hcounts.append hc⟩
  have hpos := h.pos
  obtain ⟨fuel, rfl⟩ : ∃ k, fuel = k+1 := Nat.exists_eq_succ_of_ne_zero (by omega)
  have hlater :
      ∀ a, s.start < a → Function.update looks s.start (look :: looks s.start) a = looks a :=
    fun a ha => Function.update_of_ne ha.ne' _ _
  have hsame := hloop (fuel+1) (hnr.le.trans hfuel)
  rw [hstart, hnr, hpages, gupLoop_succ h.pos fun _ _ => rfl] at hsame
  rw [gupLoop_succ h.pos hlater, Function.update_self, hvisit]
  dsimp only
  rw [afterVisit_append, hsame]

theorem fail_repeats (look : PtraceRemote.Look) {fs : List Fault} {e : ℤ} {s1 : Gup}
    (h : Inside mm x hasFault foll s)
    (hvisit : visitPage foll (stackGuardPageStart mm x s.start)
      (fun major => ⟨owner, s.start, some tsk, major⟩) [look] = (.fail e, fs))
    (hcounts : Counts s s1 fs) (hpages : s1.pages = s.pages) (hquiet : s1.dropped = false) :
    Repeats mm x tsk owner foll s (s1.orError e) s1 := by
  refine repeats_of_visit look h.pos hvisit (fun rest => ?_) hcounts
  rw [hquiet, Gup.orError, hpages]
  rfl

theorem faulted_repeats (mask : ℕ) (refs : Refs) (h : Inside mm x hasFault foll s)
    (hf : s.foll.Populates foll) (hvmas : c.vmas = false) (vmFlags : VmFlags) (handled : VmFault) :
    let f := faultinPage s.foll vmFlags true (stackGuardPageStart mm x s.start) handled
    let s1 := { Gup.count { s with refs := refs } f.counted with
      foll := f.foll, busy := s.busy || f.busy, dropped := s.dropped || f.dropped }
    Outcome.Repeats mm x hasFault tsk owner foll s
      (if f.ret = 0 then .go { s1 with pc := .retry }
      else if f.ret = -EBUSY then .ret s1.pages.length s1
      else if f.ret = -ENOENT then nextPage c s1 none mask
      else .ret (s1.orError f.ret) s1) := by
  intro f s1
  obtain ⟨hret, hcounted, hdropped, hfoll⟩ :=
    faultinPage_plain hf vmFlags (stackGuardPageStart mm x s.start) handled
  have hquiet :=
    (faultinPage_ok s.foll vmFlags true (stackGuardPageStart mm x s.start) handled).quiet
  change f.ret = _ at hret
  change f.counted = _ at hcounted
  change f.dropped = _ at hdropped
  change f.foll.Populates foll at hfoll
  change f.ret ≠ -EBUSY → f.busy = false ∧ f.dropped = false at hquiet
  set small :=
    PtraceRemote.faultinPage foll (stackGuardPageStart mm x s.start) handled.plain with hsmall
  set fs := (small.2.map fun major => (⟨owner, s.start, some tsk, major⟩ : Fault)).toList with hfs
  have hcount :=
    count_counts { s with refs := refs } (fun major => (⟨owner, s.start, some tsk, major⟩ : Fault))
    (fun _ => rfl) f.counted
  obtain ⟨a, b, hab⟩ := Gup.count_eq { s with refs := refs } f.counted
  have hcounts : Counts s s1 fs := by
    rw [hcounted] at hcount
    exact ⟨by simpa only [s1, hcounted] using hcount.maj,
      by simpa only [s1, hcounted] using hcount.min⟩
  have hs1 : s1 = { s with
      refs := refs, majFlt := a, minFlt := b
      foll := f.foll, busy := s.busy || f.busy, dropped := s.dropped || f.dropped } := by
    simp only [s1, hab]
  have hlook : ∀ l, visitPage foll (stackGuardPageStart mm x s.start)
    (fun major => ⟨owner, s.start, some tsk, major⟩)
      (⟨false, .absent mask, handled.plain⟩ :: l) =
        let rest := visitPage foll (stackGuardPageStart mm x s.start)
          (fun major => ⟨owner, s.start, some tsk, major⟩) l
        if small.1 = 0 then (rest.1, fs ++ rest.2)
        else if small.1 = -EBUSY then (.busy, fs)
        else if small.1 = -ENOENT then (.next mask, fs)
        else (.fail small.1, fs) := fun l => rfl
  clear_value s1
  subst hs1
  rw [hret]
  by_cases h0 : small.1 = 0
  · have hq := hquiet (by rw [hret, h0]; decide)
    rw [if_pos h0]
    refine ⟨⟨h.vma, h.le, h.pos, .inr ⟨rfl, hfoll⟩, ?_⟩, fun r s' hrest => ?_⟩
    · show (s.busy || f.busy) = false ∧ (s.dropped || f.dropped) = false
      rw [h.quiet.1, h.quiet.2, hq.1, hq.2]
      exact ⟨rfl, rfl⟩
    · exact retry_repeats _ h hrest (fun l => (hlook l).trans (if_pos h0))
        ⟨hcounts.maj, hcounts.min⟩ rfl rfl rfl
  rw [if_neg h0]
  by_cases hbusy : small.1 = -EBUSY
  · rw [if_pos hbusy]
    refine repeats_of_visit _ h.pos ((hlook []).trans ((if_neg h0).trans (if_pos hbusy)))
      (fun rest => ?_) hcounts
    show (⟨s.pages.length, true, fs⟩ : GupResult) = ⟨s.pages.length, s.dropped || f.dropped, fs⟩
    rw [h.quiet.2, hdropped, decide_eq_true hbusy]
    rfl
  have hq := hquiet (hret.trans_ne hbusy)
  have hlate : (s.busy || f.busy) = false ∧ (s.dropped || f.dropped) = false := by
    rw [h.quiet.1, h.quiet.2, hq.1, hq.2]
    exact ⟨rfl, rfl⟩
  have hrest := (hlook []).trans ((if_neg h0).trans (if_neg hbusy))
  rw [if_neg hbusy]
  by_cases hnoent : small.1 = -ENOENT
  · rw [if_pos hnoent]
    exact nextPage_repeats _ h hvmas (hrest.trans (if_pos hnoent)) hcounts rfl rfl rfl rfl hlate
  · rw [if_neg hnoent]
    exact fail_repeats _ h (hrest.trans (if_neg hnoent)) hcounts rfl hlate.2

theorem lookAt_repeats (h : Inside mm x hasFault foll s) (hf : s.foll.Populates foll)
    (hget : c.flags.get = false) (hvmas : c.vmas = false) (hnb : c.nonblocking = true)
    (hw : Sees mm x hasFault w) :
    (lookAt c s w).Repeats mm x hasFault tsk owner foll s := by
  obtain ⟨g, hg⟩ : ∃ g, Matches (followPageMask s.foll s.area.hasFault w s.start s.refs).1 g :=
    followPageMask_matches hf hw.transHuge s.start
  unfold lookAt
  rw [hnb, hw.guard, hget]
  dsimp only
  generalize followPageMask s.foll s.area.hasFault w s.start s.refs = followed at hg ⊢
  obtain ⟨o, refs⟩ := followed
  cases hg with
  | page =>
    next p mask =>
    exact nextPage_repeats ⟨false, .page mask, .oom⟩ h hvmas rfl ⟨rfl, rfl⟩ rfl rfl rfl rfl h.quiet
  | null => exact faulted_repeats _ refs h hf hvmas s.area.vmFlags w.handled
  | special =>
    show Outcome.Repeats _ _ _ _ _ _ _ (if -EEXIST = -EEXIST then _ else _)
    rw [if_pos rfl]
    exact nextPage_repeats ⟨false, .special, .oom⟩ h hvmas rfl ⟨rfl, rfl⟩ rfl rfl rfl rfl h.quiet
  | error hne =>
    next e mask =>
    show Outcome.Repeats _ _ _ _ _ _ _ (if -((e.val : ℤ)+1) = -EEXIST then _ else _)
    rw [if_neg hne]
    exact fail_repeats ⟨false, .error e, .oom⟩ h rfl ⟨rfl, rfl⟩ rfl h.quiet.2

theorem atRetry_repeats (h : Inside mm x hasFault foll s) (hf : s.foll.Populates foll)
    (hget : c.flags.get = false) (hvmas : c.vmas = false) (hnb : c.nonblocking = true)
    (hw : Sees mm x hasFault w) :
    (atRetry c s w).Repeats mm x hasFault tsk owner foll s := by
  unfold atRetry
  split
  · exact fail_repeats ⟨true, .special, .oom⟩ h rfl ⟨rfl, rfl⟩ rfl h.quiet.2
  · exact lookAt_repeats h hf hget hvmas hnb hw

theorem Outcome.Repeats.of_foll {f : Foll} {out : Outcome}
    (h : out.Repeats mm x hasFault tsk owner foll { s with foll := f }) :
    out.Repeats mm x hasFault tsk owner foll s := by
  have hsame (r : ℤ) (s' : Gup) (hr : Pin.Repeats mm x tsk owner foll { s with foll := f } r s') :
      Pin.Repeats mm x tsk owner foll s r s' := by
    obtain ⟨looks, faults, hloop, hcounts⟩ := hr
    exact ⟨looks, faults, hloop, hcounts.maj, hcounts.min⟩
  cases out with
  | go s1 => exact ⟨h.1, fun r s' hr => hsame r s' (h.2 r s' hr)⟩
  | ret r s' => exact hsame r s' h

theorem round_repeats (h : Inside mm x hasFault foll s) (hc : c.flags.Populates foll)
    (hvmas : c.vmas = false) (hnb : c.nonblocking = true) (hw : Sees mm x hasFault w) :
    (round c s w).Repeats mm x hasFault tsk owner foll s := by
  rcases h.pc with htop | ⟨hretry, hf⟩
  · have hany : (s.vma.any fun a => s.start < a.vmEnd) = true := by
      have hle := h.le
      have hpos := h.pos
      rw [h.vma]
      exact decide_eq_true (show s.start < (mm.vma x).vmEnd by omega)
    have hround : round c s w = atRetry c { s with foll := c.flags } w := by
      rw [round, htop]
      exact if_pos hany
    have hstart : Inside mm x hasFault foll { s with foll := c.flags } :=
      ⟨h.vma, h.le, h.pos, .inl htop, h.quiet⟩
    rw [hround]
    exact (atRetry_repeats hstart hc hc.get hvmas hnb hw).of_foll
  · have hround : round c s w = atRetry c s w := by rw [round, hretry]
    rw [hround]
    exact atRetry_repeats h hf hc.get hvmas hnb hw

theorem rounds_repeats (h : Inside mm x hasFault foll s) (hc : c.flags.Populates foll)
    (hvmas : c.vmas = false) (hnb : c.nonblocking = true) (hw : ∀ w ∈ ws, Sees mm x hasFault w)
    (hret : rounds c s ws = some (r, s', ws')) :
    Repeats mm x tsk owner foll s r s' := by
  induction ws generalizing s with
  | nil => cases hret
  | cons w ws ih =>
    have hround : (round c s w).Repeats mm x hasFault tsk owner foll s :=
      round_repeats h hc hvmas hnb (hw w List.mem_cons_self)
    unfold rounds at hret
    split at hret
    · next hr =>
      rw [hr] at hround
      cases hret
      exact hround
    · next hr =>
      rw [hr] at hround
      exact hround.2 _ _ (ih hround.1 (fun v hv => hw v (List.mem_cons_of_mem w hv)) hret)

/-- The first round checks the area. -/
theorem round_first (hs : (mm.vma x).vmStart ≤ s.start) (he : s.start < (mm.vma x).vmEnd)
    (hw : Sees mm x hasFault w) (hpc : s.pc = .top) (hvma : s.vma = none) :
    let area := some (areaOf (mm.vma x) hasFault)
    round c s w =
      if checkVmaFlags (mm.vma x).vmFlags ⟨c.flags.populate, c.flags.write, c.flags.force⟩
        w.permitted ≠ 0 then
        .ret (s.orError (-EFAULT)) { s with foll := c.flags, vma := area }
      else if (mm.vma x).vmFlags.has VM_HUGETLB then
        hugePages c { s with foll := c.flags, vma := area } w
      else round c { s with vma := area } w := by
  intro area
  have hany : (Option.any (fun a : Area => decide (s.start < a.vmEnd)) area) = true :=
    decide_eq_true he
  have hlater :
      round c { s with vma := area } w = atRetry c { s with foll := c.flags, vma := area } w := by
    rw [round]
    dsimp only
    rw [hpc]
    exact if_pos hany
  rw [hlater, round, hpc, hvma]
  dsimp only
  rw [hw.vma s.start hs he, Option.any_none, if_neg Bool.false_ne_true]
  rfl

/-- A call for a hugetlb area ends in its first round. -/
theorem hugePages_ends (c : Call) (s : Gup) (hw : Sees mm x hasFault w)
    (he : s.start+s.nrPages*4096 ≤ (mm.vma x).vmEnd) :
    hugePages c s w = .ret ((s.huge c w).orError (-EFAULT)) (s.huge c w) ∧
      (s.huge c w).pages.length ≤ s.pages.length+s.nrPages := by
  refine ⟨if_pos ?_, ?_⟩
  · unfold Gup.huge
    dsimp only
    rcases hw.huge s.start with hstop | hall
    · rw [hstop]
      rfl
    · split
      · rfl
      · rw [List.length_take]
        omega
  · show (s.pages ++ _).length ≤ _
    rw [List.length_append, List.length_map, List.length_take]
    omega

def answers (permitted : Bool) (looks : ℕ → List PtraceRemote.Look) (ret : ℤ) : Memory where
  looks _ := looks
  permitted _ := permitted
  huge _ _ nr := (min ret nr, [])
  huge_ret _ _ _ := min_le_right _ _
  huge_inside _ _ _ _ ha := absurd ha List.not_mem_nil

theorem getUserPages_answers (permitted : Bool) (looks : ℕ → List PtraceRemote.Look) (ret : ℤ)
    {n start nr : ℕ} (hnr : nr ≠ 0) :
    PtraceRemote.getUserPages tsk owner mm (answers permitted looks ret) n x start nr foll =
      if checkVmaFlags (mm.vma x).vmFlags foll permitted ≠ 0 then ⟨-EFAULT, false, []⟩
      else if (mm.vma x).vmFlags.has VM_HUGETLB then ⟨min ret nr, false, []⟩
      else gupLoop foll (stackGuardPageStart mm x) (fun a major => ⟨owner, a, some tsk, major⟩)
        looks nr 0 start nr :=
  if_neg hnr

/-- Every call of `__get_user_pages` for `mm_populate` in an area is one of the small model: it
returns the same, drops `mmap_sem` in the same case and counts the same faults. -/
theorem getUserPages_populating (tsk owner : Party) (mm : Mm) (x : VmaId) (hasFault : Bool)
    (n start nr : ℕ) (foll : FollFlags) (refs : Refs) (ws ws' : List World) (r : ℤ) (g : Gup)
    (hs : (mm.vma x).vmStart ≤ start) (he : start+nr*4096 ≤ (mm.vma x).vmEnd)
    (hw : ∀ w ∈ ws, Sees mm x hasFault w)
    (h : getUserPages (populating foll) start nr refs ws = some (r, g, ws')) :
    ∃ mem : Memory, ∃ faults,
      PtraceRemote.getUserPages tsk owner mm mem n x start nr foll = ⟨r, g.dropped, faults⟩ ∧
      g.majFlt = faults.countP (·.major) ∧ g.minFlt = faults.countP (!·.major) := by
  unfold getUserPages at h
  dsimp only at h
  split at h
  · next hz =>
    cases h
    exact ⟨.eager, [], if_pos hz, rfl, rfl⟩
  next hnz =>
  have hlt : start < (mm.vma x).vmEnd := by omega
  set c : Call := { populating foll with
    flags := { (populating foll).flags with
               numa := (populating foll).flags.numa || !(populating foll).flags.force } }
  have hflags : c.flags.Populates foll := ⟨rfl, rfl, rfl, rfl, rfl, rfl, rfl, rfl⟩
  cases ws with
  | nil => cases h
  | cons w ws =>
    set s : Gup := { start := start, nrPages := nr, refs := refs }
    have hsee := hw w List.mem_cons_self
    have hargs : (⟨c.flags.populate, c.flags.write, c.flags.force⟩ : FollFlags) = foll := rfl
    have hfirst : round c s w = _ := round_first hs hlt hsee rfl rfl
    rw [hargs] at hfirst
    by_cases hcheck : checkVmaFlags (mm.vma x).vmFlags foll w.permitted ≠ 0
    · rw [if_pos hcheck] at hfirst
      rw [rounds, hfirst] at h
      cases h
      exact ⟨answers w.permitted (fun _ => []) 0, [],
        (getUserPages_answers _ _ _ hnz).trans (if_pos hcheck), rfl, rfl⟩
    rw [if_neg hcheck] at hfirst
    by_cases hhuge : (mm.vma x).vmFlags.has VM_HUGETLB = true
    · set s1 : Gup := { s with foll := c.flags, vma := some (areaOf (mm.vma x) hasFault) }
      obtain ⟨hend, hlen⟩ := hugePages_ends c s1 hsee he
      rw [if_pos hhuge, hend] at hfirst
      rw [rounds, hfirst] at h
      cases h
      have hle : (s1.huge c w).orError (-EFAULT) ≤ nr := by
        have hlen : (s1.huge c w).pages.length ≤ 0+nr := hlen
        unfold Gup.orError
        split
        · omega
        · unfold EFAULT
          omega
      refine ⟨answers w.permitted (fun _ => []) ((s1.huge c w).orError (-EFAULT)), [], ?_, rfl, rfl⟩
      rw [getUserPages_answers _ _ _ hnz, if_neg hcheck, if_pos hhuge, min_eq_left hle]
      rfl
    · rw [if_neg hhuge] at hfirst
      rw [rounds, hfirst, ← rounds] at h
      have hin : Inside mm x hasFault foll { s with vma := some (areaOf (mm.vma x) hasFault) } :=
        ⟨rfl, he, Nat.pos_of_ne_zero hnz, .inl rfl, rfl, rfl⟩
      have hrun :
          Repeats mm x tsk owner foll { s with vma := some (areaOf (mm.vma x) hasFault) } r g :=
        rounds_repeats hin hflags rfl rfl hw h
      obtain ⟨looks, faults, hloop, hcounts⟩ := hrun
      refine ⟨answers w.permitted looks r, faults, ?_, ?_, ?_⟩
      · rw [getUserPages_answers _ _ _ hnz, if_neg hcheck, if_neg hhuge]
        exact hloop nr le_rfl
      · exact hcounts.maj.trans (Nat.zero_add _)
      · exact hcounts.min.trans (Nat.zero_add _)

end Run

end PtraceRemote.Pin
