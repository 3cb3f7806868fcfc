import PtraceRemote.Populate

/-! Faulting pages in: `faultin_page`, `__get_user_pages` and `populate_vma_page_range_task` of
mm/gup.c. What the page tables hold and how `handle_mm_fault` ends is left open. -/
namespace PtraceRemote

def ENOENT : ℤ := 2
def ERESTARTSYS : ℤ := 512

inductive Party where
  | tracer
  | tracee
  deriving DecidableEq, Repr

structure Fault where
  mm : Party
  addr : ℕ
  tsk : Option Party
  major : Bool
  deriving DecidableEq, Repr

inductive Follow where
  | page (mask : ℕ)
  | special
  | error (e : Fin 4095)
  | absent (mask : ℕ)

inductive Handled where
  | oom
  | poisoned
  | sigbus
  | done (major retry : Bool)

structure Look where
  fatal : Bool
  follow : Follow
  handled : Handled

structure Memory where
  looks : ℕ → ℕ → List Look
  permitted : ℕ → Bool
  huge : ℕ → ℕ → ℕ → ℤ × List ℕ
  huge_ret : ∀ n start nr, (huge n start nr).1 ≤ nr
  huge_inside : ∀ n start nr, ∀ a ∈ (huge n start nr).2, ∃ k < nr, a = start+k*4096

/-- The `FOLL_` flags in question; `FOLL_MLOCK` is set in all calls. -/
structure FollFlags where
  populate : Bool
  write : Bool
  force : Bool

def isCowMapping (flags : VmFlags) : Bool := flags &&& (VM_SHARED ||| VM_MAYWRITE) == VM_MAYWRITE

def checkVmaFlags (vmFlags : VmFlags) (foll : FollFlags) (permitted : Bool) : ℤ :=
  if vmFlags.has (VM_PFNMAP ||| VM_IO) then -EFAULT
  else if foll.write ∧ vmFlags.has VM_WRITE = false ∧
    (foll.force = false ∨ isCowMapping vmFlags = false) then -EFAULT
  else if foll.write = false ∧ vmFlags.has VM_READ = false ∧
      (foll.force = false ∨ vmFlags.has VM_MAYREAD = false) then
    -EFAULT
  else if permitted = false then -EFAULT
  else 0

def stackGuardPageStart (mm : Mm) (x : VmaId) (addr : ℕ) : Bool :=
  (mm.vma x).vmFlags.has VM_GROWSDOWN && (mm.vma x).vmStart == addr &&
    !(mm.vmPrev x).any fun p => (mm.vma p).vmEnd == addr && (mm.vma p).vmFlags.has VM_GROWSDOWN

def faultinPage (foll : FollFlags) (guard : Bool) (handled : Handled) : ℤ × Option Bool :=
  if foll.populate = false then (-ENOENT, none)
  else if guard then (-ENOENT, none)
  else match handled with
    | .oom => (-ENOMEM, none)
    | .poisoned => (-EFAULT, none)
    | .sigbus => (-EFAULT, none)
    | .done major retry => (if retry then -EBUSY else 0, some major)

inductive PageEnd where
  | next (mask : ℕ)
  | fail (e : ℤ)
  | busy

def visitPage (foll : FollFlags) (guard : Bool) (fault : Bool → Fault) :
    List Look → PageEnd × List Fault
  | [] => (.next 0, [])
  | look :: looks =>
    if look.fatal then (.fail (-ERESTARTSYS), [])
    else match look.follow with
      | .page mask => (.next mask, [])
      | .special => (.next 0, [])
      | .error e => (.fail (-((e.val : ℤ)+1)), [])
      | .absent mask =>
        let r := faultinPage foll guard look.handled
        let counted := (r.2.map fault).toList
        if r.1 = 0 then
          let rest := visitPage foll guard fault looks
          (rest.1, counted ++ rest.2)
        else if r.1 = -EBUSY then (.busy, counted)
        else if r.1 = -ENOENT then (.next mask, counted)
        else (.fail r.1, counted)

structure GupResult where
  ret : ℤ
  dropped : Bool
  faults : List Fault

def pageIncrem (start mask nrPages : ℕ) : ℕ :=
  min nrPages (1+(~~~BitVec.ofNat 64 (start/4096) &&& BitVec.ofNat 64 mask).toNat)

def gupLoop (foll : FollFlags) (guard : ℕ → Bool) (fault : ℕ → Bool → Fault)
    (looks : ℕ → List Look) :
    ℕ → ℕ → ℕ → ℕ → GupResult
  | 0, i, _, _ => ⟨i, false, []⟩
  | fuel+1, i, start, nrPages =>
    let visit := visitPage foll (guard start) (fault start) (looks start)
    match visit.1 with
    | .fail e => ⟨if i ≠ 0 then i else e, false, visit.2⟩
    | .busy => ⟨i, true, visit.2⟩
    | .next mask =>
      let increm := pageIncrem start mask nrPages
      if nrPages-increm = 0 then ⟨(i+increm : ℕ), false, visit.2⟩
      else
        let rest :=
          gupLoop foll guard fault looks fuel (i+increm) (start+increm*4096) (nrPages-increm)
        { rest with faults := visit.2 ++ rest.faults }

def getUserPages (tsk owner : Party) (mm : Mm) (mem : Memory) (n : ℕ) (x : VmaId)
    (start nrPages : ℕ) (foll : FollFlags) :
    GupResult :=
  if nrPages = 0 then ⟨0, false, []⟩
  else if checkVmaFlags (mm.vma x).vmFlags foll (mem.permitted n) ≠ 0 then ⟨-EFAULT, false, []⟩
  else if isVmHugetlbPage (mm.vma x) then
    let r := mem.huge n start nrPages
    ⟨r.1, false, r.2.map fun a => ⟨owner, a, none, false⟩⟩
  else gupLoop foll (stackGuardPageStart mm x) (fun a major => ⟨owner, a, some tsk, major⟩)
    (mem.looks n) nrPages 0 start nrPages

def populateFollFlags (vmFlags : VmFlags) : FollFlags where
  populate := !vmFlags.has VM_LOCKONFAULT
  write := vmFlags &&& (VM_WRITE ||| VM_SHARED) == VM_WRITE
  force := vmFlags.has (VM_READ ||| VM_WRITE ||| VM_EXEC)

def populateVmaPageRangeTask (ts owner : Party) (mm : Mm) (mem : Memory) (n : ℕ) (x : VmaId)
    (start end_ : ℕ) : GupResult :=
  getUserPages ts owner mm mem n x start ((end_-start)/4096) (populateFollFlags (mm.vma x).vmFlags)

def populateVmaPageRange : Party → Mm → Memory → ℕ → VmaId → ℕ → ℕ → GupResult :=
  populateVmaPageRangeTask .tracer

def populateOracle (owner : Party) (mm : Mm) (mem : Memory) : PopulateOracle := fun n start end_ =>
  match findVma mm start with
  | some x =>
    let r := populateVmaPageRange owner mm mem n x start end_
    ⟨r.ret, r.dropped⟩
  | none => ⟨-EFAULT, false⟩

def taskPopulate (mms : Party → Mm) (mem : Memory) (ts : Party) (start len fuel : ℕ) :
    Option (List Fault) :=
  (mmPopulateTask (mms ts) (populateOracle ts (mms ts) mem) true start len fuel).map fun r =>
    r.2.calls.zipIdx.flatMap fun c =>
      (populateVmaPageRange ts (mms ts) mem c.2 c.1.vma c.1.start c.1.end_).faults

def mmPopulate (mms : Party → Mm) (mem : Memory) : ℕ → ℕ → ℕ → Option (List Fault) :=
  taskPopulate mms mem .tracer

/-! What it can fault in. -/

variable {mm : Mm} {L : List VmaId} {x : VmaId} {foll : FollFlags} {guard : ℕ → Bool}
  {fault : ℕ → Bool → Fault} {looks : ℕ → List Look} {start end_ len nr i n fuel : ℕ}
  {ts owner : Party} {mem : Memory} {f : Fault}

theorem visitPage_faults {g : Bool} {mk : Bool → Fault} {l : List Look}
    (hf : f ∈ (visitPage foll g mk l).2) :
    foll.populate = true ∧ g = false ∧ ∃ major, f = mk major := by
  induction l with
  | nil => exact absurd hf List.not_mem_nil
  | cons look l ih =>
    unfold visitPage at hf
    split at hf
    · exact absurd hf List.not_mem_nil
    · split at hf
      · exact absurd hf List.not_mem_nil
      · exact absurd hf List.not_mem_nil
      · exact absurd hf List.not_mem_nil
      · have hcounted : f ∈ ((faultinPage foll g look.handled).2.map mk).toList →
            foll.populate = true ∧ g = false ∧ ∃ major, f = mk major := by
          intro hc
          obtain ⟨major, hmajor, rfl⟩ := Option.map_eq_some_iff.1 (Option.mem_toList.1 hc)
          unfold faultinPage at hmajor
          split at hmajor
          · cases hmajor
          · split at hmajor
            · cases hmajor
            · exact ⟨by simpa using ‹¬foll.populate = false›,
                by simpa using ‹¬g = true›, major, rfl⟩
        dsimp only at hf
        split at hf
        · rcases List.mem_append.1 hf with hf | hf
          · exact hcounted hf
          · exact ih hf
        · split at hf
          · exact hcounted hf
          · split at hf
            · exact hcounted hf
            · exact hcounted hf

theorem visitPage_fail {g : Bool} {mk : Bool → Fault} {l : List Look} {e : ℤ}
    (hf : (visitPage foll g mk l).1 = .fail e) : e < 0 := by
  induction l with
  | nil => cases hf
  | cons look l ih =>
    have hneg : (faultinPage foll g look.handled).1 ≤ 0 := by
      unfold faultinPage
      split
      · decide
      · split
        · decide
        · cases look.handled with
          | done major retry => cases retry <;> simp [EBUSY]
          | _ => decide
    unfold visitPage at hf
    split at hf
    · cases hf
      decide
    · split at hf
      · cases hf
      · cases hf
      · cases hf
        omega
      · dsimp only at hf
        split at hf
        · exact ih hf
        · split at hf
          · cases hf
          · split at hf
            · cases hf
            · cases hf
              omega

theorem pageIncrem_pos (start mask : ℕ) (hnr : 0 < nr) : 0 < pageIncrem start mask nr := by
  unfold pageIncrem
  omega

theorem pageIncrem_le (start mask nr : ℕ) : pageIncrem start mask nr ≤ nr := min_le_left _ _

/-- The loop stays inside its pages and faults in only where it may. -/
theorem gupLoop_spec (foll : FollFlags) (guard : ℕ → Bool) (fault : ℕ → Bool → Fault)
    (looks : ℕ → List Look) (fuel i start : ℕ) (hnr : 0 < nr) :
    let r := gupLoop foll guard fault looks fuel i start nr
    (r.ret < 0 ∨ r.ret ≤ i+nr) ∧ ∀ f ∈ r.faults,
      foll.populate = true ∧ ∃ k < nr, guard (start+k*4096) = false ∧ ∃ major,
        f = fault (start+k*4096) major := by
  induction fuel generalizing i start nr with
  | zero => exact ⟨.inr (by simp [gupLoop]), fun f hf => absurd hf List.not_mem_nil⟩
  | succ fuel ih =>
    intro r
    have hvisit : ∀ f ∈ (visitPage foll (guard start) (fault start) (looks start)).2,
        foll.populate = true ∧ ∃ k < nr, guard (start+k*4096) = false ∧ ∃ major,
        f = fault (start+k*4096) major := by
      intro f hf
      obtain ⟨hpop, hguard, hmk⟩ := visitPage_faults hf
      exact ⟨hpop, 0, hnr, by simpa using hguard, by simpa using hmk⟩
    have hr : r = gupLoop foll guard fault looks (fuel+1) i start nr := rfl
    unfold gupLoop at hr
    dsimp only at hr
    split at hr
    · next e hfail =>
      -- an error counts only where no page was done before
      rw [hr]
      refine ⟨?_, hvisit⟩
      by_cases hi : i ≠ 0
      · exact .inr (by dsimp only; rw [if_pos hi]; omega)
      · exact .inl (by dsimp only; rw [if_neg hi]; exact visitPage_fail hfail)
    · rw [hr]
      exact ⟨.inr (by dsimp only; omega), hvisit⟩
    · next mask _ =>
      have hpos := pageIncrem_pos start mask hnr
      have hle := pageIncrem_le start mask nr
      split at hr
      · rw [hr]
        exact ⟨.inr (by dsimp only; omega), hvisit⟩
      · obtain ⟨hret, hfaults⟩ :=
          ih (i+pageIncrem start mask nr) (start+pageIncrem start mask nr*4096)
          (show 0 < nr-pageIncrem start mask nr by omega)
        rw [hr]
        refine ⟨hret.imp_right fun h => by dsimp only; omega, fun f hf => ?_⟩
        rcases List.mem_append.1 hf with hf | hf
        · exact hvisit f hf
        · obtain ⟨hpop, k, hk, hguard, major, hmk⟩ := hfaults f hf
          have haddr : start+pageIncrem start mask nr*4096+k*4096 =
            start+(pageIncrem start mask nr+k)*4096 := by ring
          rw [haddr] at hguard hmk
          exact ⟨hpop, pageIncrem start mask nr+k, by omega, hguard, major, hmk⟩

def CanFault (mm : Mm) (x : VmaId) (addr : ℕ) : Prop :=
  checkVmaFlags (mm.vma x).vmFlags (populateFollFlags (mm.vma x).vmFlags) true = 0 ∧
    (isVmHugetlbPage (mm.vma x) = true ∨
      (mm.vma x).vmFlags.has VM_LOCKONFAULT = false ∧ stackGuardPageStart mm x addr = false)

structure FaultedBy (ts owner : Party) (mm : Mm) (x : VmaId) (start end_ : ℕ) (f : Fault) :
    Prop where
  space : f.mm = owner
  tsk : f.tsk = some ts ∨ f.tsk = none ∧ isVmHugetlbPage (mm.vma x) = true
  dvd : 4096 ∣ f.addr
  start_le : start ≤ f.addr
  lt_end : f.addr < end_
  can : CanFault mm x f.addr

theorem checkVmaFlags_permitted {flags : VmFlags} {p : Bool} (h : checkVmaFlags flags foll p = 0) :
    checkVmaFlags flags foll true = 0 := by
  cases p with
  | true => exact h
  | false =>
    have hne : checkVmaFlags flags foll false ≠ 0 := by
      unfold checkVmaFlags
      rw [if_pos (rfl : false = false)]
      split_ifs <;> decide
    exact absurd h hne

theorem populateVmaPageRangeTask_spec (ts owner : Party) (mm : Mm) (mem : Memory) (n : ℕ)
    (x : VmaId) (hs : 4096 ∣ start) (he : 4096 ∣ end_) (hlt : start < end_) :
    let r := populateVmaPageRangeTask ts owner mm mem n x start end_
    (r.ret < 0 ∨ start+r.ret.toNat*4096 ≤ end_) ∧ ∀ f ∈ r.faults,
      FaultedBy ts owner mm x start end_ f := by
  intro r
  have hnr : 0 < (end_-start)/4096 := by omega
  have hr : r = populateVmaPageRangeTask ts owner mm mem n x start end_ := rfl
  unfold populateVmaPageRangeTask getUserPages at hr
  rw [if_neg hnr.ne'] at hr
  split at hr
  · rw [hr]
    exact ⟨.inl (by decide), fun f hf => absurd hf List.not_mem_nil⟩
  next hcheck =>
  have hcheck := checkVmaFlags_permitted (not_not.1 hcheck)
  split at hr
  next hhuge =>
    rw [hr]
    refine ⟨.inr ?_, fun f hf => ?_⟩
    · have hret := mem.huge_ret n start ((end_-start)/4096)
      dsimp only
      omega
    · obtain ⟨a, ha, rfl⟩ := List.mem_map.1 hf
      obtain ⟨k, hk, rfl⟩ := mem.huge_inside n start _ a ha
      exact ⟨rfl, .inr ⟨rfl, hhuge⟩, by dsimp only; omega, by dsimp only; omega,
        by dsimp only; omega, hcheck, .inl hhuge⟩
  next hhuge =>
    rw [hr]
    obtain ⟨hret, hfaults⟩ :=
      gupLoop_spec (populateFollFlags (mm.vma x).vmFlags) (stackGuardPageStart mm x)
      (fun a major => ⟨owner, a, some ts, major⟩) (mem.looks n) ((end_-start)/4096) 0 start hnr
    refine ⟨hret.imp_right fun h => by omega, fun f hf => ?_⟩
    obtain ⟨hpop, k, hk, hguard, major, rfl⟩ := hfaults f hf
    have hlock : (mm.vma x).vmFlags.has VM_LOCKONFAULT = false := by
      simpa [populateFollFlags] using hpop
    exact ⟨rfl, .inl rfl, by dsimp only; omega, by dsimp only; omega, by dsimp only; omega, hcheck,
      .inr ⟨hlock, hguard⟩⟩

theorem populateOracle_fits (owner : Party) (mm : Mm) (mem : Memory) :
    (populateOracle owner mm mem).Fits := by
  intro n start nend hlt hs he
  unfold populateOracle
  split
  · exact (populateVmaPageRangeTask_spec _ _ _ _ _ _ hs he hlt).1
  · exact .inl (by decide)

/-- Wherever the walk ends, its faults are in the address space and the range it was given, and they
are counted on `current`. -/
theorem taskPopulate_faults {mms : Party → Mm} {fs : List Fault} (h : Wf (mms ts) L)
    (hs : 4096 ∣ start) (hl : 4096 ∣ len) (hwrap : start+len < 2^64)
    (hr : taskPopulate mms mem ts start len fuel = some fs) (hf : f ∈ fs) :
    ∃ x ∈ L, FaultedBy .tracer ts (mms ts) x start (start+len) f ∧
      ((mms ts).vma x).vmStart ≤ f.addr ∧ f.addr < ((mms ts).vma x).vmEnd := by
  unfold taskPopulate at hr
  obtain ⟨r, hwalk, rfl⟩ := Option.map_eq_some_iff.1 hr
  obtain ⟨⟨c, n⟩, hc, hfault⟩ := List.mem_flatMap.1 hf
  have hok := mmPopulateTask_calls h (populateOracle_fits ts (mms ts) mem) hs hl hwrap hwalk c
    (List.fst_mem_of_mem_zipIdx hc)
  obtain ⟨hspace, htsk, hdvd, hle, hlt, hcan⟩ :=
    (populateVmaPageRangeTask_spec .tracer ts (mms ts) mem n c.vma hok.start_dvd hok.end_dvd
      hok.lt).2 f hfault
  exact ⟨c.vma, hok.mem,
    ⟨hspace, htsk, hdvd, hok.start_le.trans hle, hlt.trans_le hok.le_end, hcan⟩,
    hok.vmStart_le.trans hle, hlt.trans_le hok.le_vmEnd⟩

def Memory.eager : Memory where
  looks _ _ := [⟨false, .absent 0, .done false false⟩]
  permitted _ := true
  huge _ start nr := (nr, (List.range nr).map fun k => start+k*4096)
  huge_ret _ _ _ := le_rfl
  huge_inside _ _ _ a ha := by
    obtain ⟨k, hk, rfl⟩ := List.mem_map.1 ha
    exact ⟨k, List.mem_range.1 hk, rfl⟩

theorem visitPage_eager (foll : FollFlags) (g : Bool) (mk : Bool → Fault) :
    visitPage foll g mk [⟨false, .absent 0, .done false false⟩] =
      (.next 0, if foll.populate = true ∧ g = false then [mk false] else []) := by
  unfold visitPage faultinPage
  cases hp : foll.populate <;> cases g <;> rfl

theorem gupLoop_eager (foll : FollFlags) (guard : ℕ → Bool) (fault : ℕ → Bool → Fault) (i start : ℕ)
    (hnr : 0 < nr) (hfuel : nr ≤ fuel) :
    let r := gupLoop foll guard fault (fun _ => [⟨false, .absent 0, .done false false⟩])
      fuel i start nr
    r.ret = i+nr ∧ ∀ k < nr, foll.populate = true → guard (start+k*4096) = false →
      fault (start+k*4096) false ∈ r.faults := by
  induction fuel generalizing i start nr with
  | zero => omega
  | succ fuel ih =>
    intro r
    have hone : pageIncrem start 0 nr = 1 := by
      unfold pageIncrem
      rw [BitVec.and_zero]
      exact min_eq_right hnr
    have hr : r = gupLoop foll guard fault (fun _ => [⟨false, .absent 0, .done false false⟩])
      (fuel+1) i start nr := rfl
    unfold gupLoop at hr
    dsimp only at hr
    rw [visitPage_eager] at hr
    dsimp only at hr
    rw [hone] at hr
    have hfirst : foll.populate = true → guard (start+0*4096) = false →
        fault (start+0*4096) false ∈ if foll.populate = true ∧ guard start = false then
        [fault start false] else [] := by
      intro hp hg
      rw [Nat.zero_mul, Nat.add_zero] at hg ⊢
      rw [if_pos ⟨hp, hg⟩]
      exact List.mem_singleton_self _
    -- the last page, or one page and the rest from the next one on
    split at hr
    · obtain rfl : nr = 1 := by omega
      rw [hr]
      refine ⟨by push_cast; rfl, fun k hk => ?_⟩
      obtain rfl : k = 0 := by omega
      exact hfirst
    · obtain ⟨hret, hfaults⟩ := ih (i+1) (start+1*4096) (show 0 < nr-1 by omega) (by omega)
      rw [hr]
      refine ⟨by dsimp only; rw [hret]; omega, fun k hk hp hg => ?_⟩
      cases k with
      | zero => exact List.mem_append_left _ (hfirst hp hg)
      | succ k =>
        have haddr : start+(k+1)*4096 = start+1*4096+k*4096 := by ring
        rw [haddr] at hg ⊢
        exact List.mem_append_right _ (hfaults k (by omega) hp hg)

/-- All pages of the range that can be faulted in are. -/
theorem populateVmaPageRangeTask_eager (ts owner : Party) (mm : Mm) (n : ℕ) (x : VmaId)
    (hs : 4096 ∣ start) (he : 4096 ∣ end_) (hlt : start < end_) :
    let r := populateVmaPageRangeTask ts owner mm .eager n x start end_
    (r.ret < 0 ∨ r.ret = ((end_-start)/4096 : ℕ)) ∧ ∀ p, 4096 ∣ p → start ≤ p → p < end_ →
      CanFault mm x p → ∃ f ∈ r.faults, f.addr = p := by
  intro r
  have hnr : 0 < (end_-start)/4096 := by omega
  have hr : r = populateVmaPageRangeTask ts owner mm .eager n x start end_ := rfl
  unfold populateVmaPageRangeTask getUserPages at hr
  rw [if_neg hnr.ne'] at hr
  split at hr
  · next hcheck =>
    rw [hr]
    exact ⟨.inl (by decide), fun p _ _ _ hcan => absurd hcan.1 hcheck⟩
  have hpage : ∀ p, 4096 ∣ p → start ≤ p → p < end_ → p = start+(p-start)/4096*4096 ∧
      (p-start)/4096 < (end_-start)/4096 := by
    intro p hp hle hlt
    omega
  split at hr
  · rw [hr]
    refine ⟨.inr rfl, fun p hp hle hlt _ => ?_⟩
    obtain ⟨haddr, hk⟩ := hpage p hp hle hlt
    refine ⟨⟨owner, p, none, false⟩,
      List.mem_map.2 ⟨p, List.mem_map.2 ⟨(p-start)/4096, List.mem_range.2 hk, ?_⟩, rfl⟩, rfl⟩
    exact haddr.symm
  · next hhuge =>
    obtain ⟨hret, hfaults⟩ :=
      gupLoop_eager (populateFollFlags (mm.vma x).vmFlags) (stackGuardPageStart mm x)
      (fun a major => ⟨owner, a, some ts, major⟩) 0 start hnr le_rfl
    rw [hr]
    refine ⟨.inr (hret.trans (by simp)), fun p hp hle hlt hcan => ?_⟩
    obtain ⟨haddr, hk⟩ := hpage p hp hle hlt
    rcases hcan.2 with hh | ⟨hlock, hguard⟩
    · exact absurd hh hhuge
    · rw [haddr] at hguard ⊢
      exact ⟨_, hfaults _ hk (by simp [populateFollFlags, hlock]) hguard, rfl⟩

theorem populateOracle_eager (owner : Party) (mm : Mm) :
    (populateOracle owner mm .eager).Valid := by
  intro n start nend hlt hs he
  unfold populateOracle
  split
  · next x _ =>
    rcases (populateVmaPageRangeTask_eager .tracer owner mm n x hs he hlt).1 with herr | hret
    · exact .inl herr
    · refine .inr ?_
      show 0 < (populateVmaPageRangeTask .tracer owner mm .eager n x start nend).ret ∧
        start+(populateVmaPageRangeTask .tracer owner mm .eager n x start nend).ret.toNat*4096 ≤
        nend
      rw [hret]
      omega
  · exact .inl (by decide)

/-- Every page of the range that can be faulted in may be the one that is. -/
theorem taskPopulate_reaches {mms : Party → Mm} {p : ℕ} (h : Wf (mms ts) L) (hs : 4096 ∣ start)
    (hl : 4096 ∣ len) (hwrap : start+len < 2^64) (hx : x ∈ L) (hp : 4096 ∣ p) (hle : start ≤ p)
    (hlt : p < start+len) (hxs : ((mms ts).vma x).vmStart ≤ p) (hxe : p < ((mms ts).vma x).vmEnd)
    (hcan : CanFault (mms ts) x p) :
    ∃ fs, taskPopulate mms .eager ts start len (len+1) = some fs ∧ ∃ f ∈ fs, f.addr = p := by
  obtain ⟨s, hwalk, -, hcalls, -, hatt⟩ :=
    mmPopulateTask_populated h (populateOracle_eager ts (mms ts)) hs hl hwrap (Nat.lt_succ_self len)
  have hpop : (mms ts).Populates x := by
    by_contra hspecial
    have hcheck := hcan.1
    unfold checkVmaFlags at hcheck
    rw [if_pos (by simpa [Mm.Populates] using hspecial)] at hcheck
    exact absurd hcheck (by decide)
  obtain ⟨c, hc, rfl, hcs, hce, -⟩ := hatt x hx hpop p hle hlt hxs hxe
  have hok := hcalls c hc
  obtain ⟨n, hn⟩ := List.mem_iff_getElem?.1 hc
  obtain ⟨f, hf, hfp⟩ := (populateVmaPageRangeTask_eager .tracer ts (mms ts) n c.vma hok.start_dvd
    hok.end_dvd hok.lt).2 p hp hcs hce hcan
  refine ⟨_, by rw [taskPopulate, hwalk]; rfl, f,
    List.mem_flatMap.2 ⟨(c, n), List.mk_mem_zipIdx_iff_getElem?.2 hn, hf⟩, hfp⟩

end PtraceRemote
