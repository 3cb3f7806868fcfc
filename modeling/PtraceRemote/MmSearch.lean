import PtraceRemote.MmMovable
import PtraceRemote.MmRequestView

/-! The address that a mapping request picks: which one it is, by the areas of the tracer, and what
that does to the pages of the tracee. -/
namespace PtraceRemote

open AugTree (Balance)

variable {mm tracer : Mm} {s : MmSys} {env : MmEnv} {conf : MmConf} {L LT : List VmaId}
  {file : Option FileId} {hint len low high a : ℕ} {flags : Bits} {pgoff : BitVec 64}
  {topdown : Bool}

/-! The request. -/

/-- What `get_task_unmapped_area` can return for one address space: the choice by the areas of the
tracer, if it is a page below the end. -/
theorem getTaskUnmappedArea_picks (hcur : env.curMm = some tracer) (h : Wf tracer LT)
    (hw : LayoutWords env.conf tracer) (hpos : 0 < len) (hfixed : flags.has MAP_FIXED = false)
    (hown : NoOwnArea env file flags) :
    (∃ t : MmSys, t.mm = mm ∧ (getTaskUnmappedArea env t file hint len pgoff flags).1 = a) ↔
      Chosen env.conf tracer LT mm.topdown hint len a ∧ 4096 ∣ a ∧ a+len ≤ TASK_SIZE := by
  have hcur' : env.cur mm = tracer := by rw [MmEnv.cur, hcur, Option.getD_some]
  have harea : len ≤ TASK_SIZE → (getArea env mm mm.topdown file hint len pgoff flags = a ↔
      Chosen env.conf tracer LT mm.topdown hint len a) := fun hlen => by
    rw [getArea_noOwn hown, ← hcur']
    exact archArea_iff (by rwa [hcur']) (by rwa [hcur']) hpos hlen hfixed
  constructor
  · rintro ⟨t, rfl, ht⟩
    obtain ⟨-, -, hres⟩ := unmappedAreaOf_spec env t t.mm.topdown file hint len pgoff flags
    rcases hres with herr | ⟨heq, -, hle, hoff⟩
    · exact absurd (ht ▸ herr.2) (not_lt.2 (Int.natCast_nonneg a))
    · have ht : (unmappedAreaOf env t t.mm.topdown file hint len pgoff flags).1 = a := ht
      rw [ht] at heq hle hoff
      exact ⟨(harea (by omega)).1 heq.symm, by omega, by omega⟩
  · rintro ⟨hchosen, hd, hle⟩
    -- a state whose security check passes
    let t : MmSys := { mm := mm, outcomes := [] }
    have heq : getArea env mm mm.topdown file hint len pgoff flags = a :=
      (harea (by omega)).2 hchosen
    have hfound := unmappedAreaOf_found (s := t) heq hd hle rfl
    exact ⟨t, rfl, congrArg Prod.fst hfound⟩

/-- The range that is chosen by the areas of the tracer is free in the tracee too. -/
def ChosenFree (env : MmEnv) (tracer : Mm) (LT : List VmaId) (mm : Mm) (L : List VmaId)
    (hint len : ℕ) : Prop :=
  0 < len → ∀ a, Chosen env.conf tracer LT mm.topdown hint len a → 4096 ∣ a → a+len ≤ TASK_SIZE →
    Free mm.core L a (a+len)

/-- A mapping over a free range keeps every page there was. -/
theorem MmapResult.keeps {addr : ℕ} {r : ℤ × MmSys} {c : ℤ} {p : ℕ} {i : PageInfo}
    (hres : MmapResult env s L file addr len flags pgoff r c) (h : Wf s.mm L)
    (hfree : ∀ start : ℕ, start = getArea env s.mm s.mm.topdown file (mapHint env flags addr)
      (pageAlign len) pgoff flags → RangeOk start (start+pageAlign len) →
        start+pageAlign len ≤ TASK_SIZE → Free s.mm.core L start (start+pageAlign len))
    (hp : s.mm.view.clean p = some i) : r.2.mm.view.clean p = some i := by
  rcases hres with ⟨-, L', hd⟩ | ⟨start, hstart, hr, htask, hrep⟩
  · rwa [hd.view_eq h]
  have hsame := outside_of_free h.ordered (hfree start hstart hr htask) hr.start_dvd hr.end_dvd
  rcases hrep with ⟨-, L', hd⟩ | ⟨-, L', file', pgoff', flags', hd⟩
  · rw [hsame] at hd
    rwa [hd.view_eq h]
  · rw [view_iff hd.wf, hd.pages, hsame]
    exact Multiset.mem_add.2 (.inl ((view_iff h).1 hp))

theorem keptFlags_fixed (flags : Bits) : (keptFlags flags).has MAP_FIXED = flags.has MAP_FIXED := by
  rw [keptFlags, VmFlags.has, BitVec.and_assoc]
  rfl

/-- `PTRACE_REMOTE_MMAP` without `MAP_FIXED`: the range it picks is disjoint from the areas of the
tracee exactly if the choice by the areas of the tracer is free there, and then no page of the
tracee is lost. -/
theorem remoteMmap_keeps_iff (rb : Balance VmaId) (env : MmEnv) (tracer mm : Mm) (LT L : List VmaId)
    (file : Option FileId) (addr len : ℕ) (prot flags : Bits) (offset : ℕ)
    (hcur : env.curMm = some tracer) (hT : Wf tracer LT) (hw : LayoutWords env.conf tracer)
    (h : Wf mm L) (hfixed : flags.has MAP_FIXED = false)
    (hown : NoOwnArea env (mmapFile env file flags) (keptFlags flags)) :
    let file' := mmapFile env file flags
    let hint := mapHint env (keptFlags flags) addr
    let len' := pageAlign (mmapLen env file flags len)
    let pgoff := BitVec.ofNat 64 (offset/4096)
    ((0 < len' → ∀ t : MmSys, t.mm = mm → ∀ a : ℕ,
        (getTaskUnmappedArea env t file' hint len' pgoff (keptFlags flags)).1 = a →
          Free mm.core L a (a+len')) ↔
      ChosenFree env tracer LT mm L hint len') ∧
    (ChosenFree env tracer LT mm L hint len' → ∀ (s : MmSys) (user : UserPtr), s.mm = mm → ∀ p i,
      mm.view.clean p = some i →
        (ptraceRemoteMmap rb env s user file addr len prot flags offset).2.mm.view.clean p =
          some i) := by
  intro file' hint len' pgoff
  have hfixed' : (keptFlags flags).has MAP_FIXED = false := by rw [keptFlags_fixed, hfixed]
  have hpicks : 0 < len' → ∀ a : ℕ,
      (∃ t : MmSys,
        t.mm = mm ∧ (getTaskUnmappedArea env t file' hint len' pgoff (keptFlags flags)).1 = a) ↔
        Chosen env.conf tracer LT mm.topdown hint len' a ∧ 4096 ∣ a ∧ a+len' ≤ TASK_SIZE :=
    fun hpos a => getTaskUnmappedArea_picks hcur hT hw hpos hfixed' hown
  constructor
  · constructor
    · intro hfree hpos a hchosen hd hle
      obtain ⟨t, ht, hta⟩ := (hpicks hpos a).2 ⟨hchosen, hd, hle⟩
      exact hfree hpos t ht a hta
    · intro hfree hpos t ht a hta
      obtain ⟨hchosen, hd, hle⟩ := (hpicks hpos a).1 ⟨t, ht, hta⟩
      exact hfree hpos a hchosen hd hle
  · rintro hfree s user rfl p i hp
    obtain ⟨c, hres, -⟩ := doMmapRemote_spec rb env file addr len prot flags offset h
    have hkeeps : (doMmapRemote rb env s file addr len prot flags offset).2.mm.view.clean p =
        some i := by
      refine hres.keeps h (fun start hstart hr htask => ?_) hp
      have hpos : 0 < len' := by
        have hlt := hr.lt
        omega
      have hcur' : env.cur s.mm = tracer := by rw [MmEnv.cur, hcur, Option.getD_some]
      rw [getArea_noOwn hown] at hstart
      refine hfree hpos start ?_ hr.start_dvd htask
      rw [← hcur']
      exact (archArea_iff (by rwa [hcur']) (by rwa [hcur']) hpos (by omega) hfixed').1 hstart.symm
    unfold ptraceRemoteMmap withArgs
    split
    · exact hp
    · rw [returnAddr_snd]
      exact hkeeps

/-- Tracer and tracee with the same areas. -/
theorem chosenFree_self (h : tracer = mm) (hL : LT = L) :
    ChosenFree env tracer LT mm L hint len := by
  subst h hL
  intro _ a hchosen _ _
  exact hchosen.free

/-- For a tracee with the layout of its tracer the new page stands beside the four there are. -/
theorem remoteMmap_keeps_fourPages :
    let r := (mapPages {} 0x1000).exec Balance.plain (forkEnv fourCounted) { mm := fourCounted }
    ∀ p i, fourCounted.view.clean p = some i → r.2.mm.view.clean p = some i := by
  intro r p i hp
  have hw : LayoutWords (forkEnv fourCounted).conf fourCounted := ⟨by decide, by decide, by decide⟩
  exact (remoteMmap_keeps_iff Balance.plain (forkEnv fourCounted) fourCounted fourCounted [0] [0]
    none 0x20000 0x1000
    PROT_READ (MAP_PRIVATE ||| MAP_ANONYMOUS) 0 rfl wf_fourCounted hw wf_fourCounted rfl rfl).2
    (chosenFree_self rfl rfl) { mm := fourCounted } {} rfl p i hp

/-- The tracer has nothing mapped and finds room where the tracee has its four pages; the first of
them is replaced. -/
theorem remoteMmap_replaces :
    let flags := MAP_PRIVATE ||| MAP_ANONYMOUS
    let r := ptraceRemoteMmap Balance.plain (forkEnv emptyMm) { mm := fourAtBase } {} none 0 0x1000
      PROT_READ flags 0
    Wf emptyMm [] ∧ Wf fourAtBase [0] ∧ r.1 = 0 ∧ (fourAtBase.view.clean 0x10).isSome ∧
      r.2.mm.view.clean 0x10 ≠ fourAtBase.view.clean 0x10 := by
  refine ⟨wf_emptyMm, wf_fourAtBase, by decide +kernel, by decide +kernel, by decide +kernel⟩

end PtraceRemote
