import PtraceRemote.MmCalm
import PtraceRemote.MmChoice
import PtraceRemote.MmView

/-! A grow that has to move, and whether it finds room: the search is made in the address space of
the caller, the range is taken in that of the task. -/
namespace PtraceRemote

open AugTree (Balance)

variable {mm : Mm} {s s' : MmSys} {rb : Balance VmaId} {env : MmEnv} {conf : MmConf}
  {L LT A B : List VmaId} {x : VmaId} {addr oldLen newLen len a : ℕ}

/-- The range that is chosen by the areas `LT` of the caller is free in the task's address space. -/
def SearchFree (conf : MmConf) (caller : Mm) (LT : List VmaId) (mm : Mm) (L : List VmaId)
    (len : ℕ) : Prop :=
  ∃ a, Chosen conf caller LT mm.topdown 0 len a ∧ 4096 ∣ a ∧ a+len ≤ TASK_SIZE ∧
    Free mm.core L a (a+len)

/-- A task that searches its own address space finds the room there is. -/
theorem searchFree_of_gap (h : Wf mm L) (hl : SaneLayout conf mm) (hpos : 0 < len)
    (hlen : 4096 ∣ len) (hroom : HasGap conf mm L len) : SearchFree conf mm L mm L len := by
  have htask : TASK_SIZE < 2^64 := by decide
  obtain ⟨a, hsearch, hdvd, hmin, hle⟩ := searched_of_gap h hl hpos hlen hroom
  refine ⟨a, ⟨?_, .inr ⟨fun hhint => hhint.1 rfl, hsearch⟩⟩, hdvd, hle, hsearch.free⟩
  rw [wsub_eq (by omega) htask]
  omega

/-! The move. -/

theorem copyNew_calm {k : VmaLinks} {pgoff : BitVec 64} (hc : Calm s) :
    (copyNew rb s x addr len pgoff k).1 ≠ none := by
  unfold copyNew
  dsimp only
  rw [if_neg (not_not.2 hc.outcome)]
  have h₁ : Calm s.outcome.2 := hc.uses (uses_outcome s)
  set s₁ := allocVma s.outcome.2 _ with hs₁
  have h₂ : Calm s₁ := h₁
  rw [if_neg (not_not.2 h₂.outcome)]
  have h₃ : Calm s₁.outcome.2 := h₂.uses (uses_outcome s₁)
  rw [if_neg (not_not.2 (h₃.anonVmaClone _ x))]
  simp

/-- `copy_vma` with all its memory fails only where the range is taken. -/
theorem copyVma_calm (rb : Balance VmaId) (x : VmaId) (addr len : ℕ) (pgoff : BitVec 64)
    (h : Wf s.mm L) (hc : Calm s) :
    (copyVma rb s x addr len pgoff).1 ≠ none ↔ Free s.mm.core L addr (addr+len) := by
  unfold copyVma
  dsimp only
  cases hk : findVmaLinks s.mm addr (addr+len) with
  | none =>
    refine iff_of_false (fun hne => hne rfl) fun hfree => ?_
    obtain ⟨y, hy, h₁, h₂⟩ := findVmaLinks_none h.rep hk
    rcases hfree y hy with hle | hle
    · exact absurd hle (not_le.2 h₁)
    · exact absurd hle (not_le.2 h₂)
  | some k =>
    obtain ⟨A, B, rfl, -, hA, hB⟩ := findVmaLinks_some h.rep (ordered_core.1 h.ordered) hk
    have hfree : Free s.mm.core (A ++ B) addr (addr+len) := by
      intro y hy
      rcases List.mem_append.1 hy with hy | hy
      · exact .inl (hA y hy)
      · exact .inr (hB y hy).2
    refine iff_of_true ?_ hfree
    dsimp only
    split
    next => simp
    next =>
      intro hnone
      exact copyNew_calm (hc.uses uses_vmaMerge) (Option.map_eq_none_iff.1 hnone)

theorem moveTables_calm (hc : Calm s) : (moveTables s x).1 = 0 := by
  unfold moveTables
  dsimp only
  rw [if_neg (not_not.2 hc.outcome)]
  split
  next => exact (hc.uses (uses_outcome s)).outcome
  next => rfl

/-- `move_vma` with all its memory and areas to spare. -/
theorem moveVma_calm (rb : Balance VmaId) (x : VmaId) (addr oldLen newLen newAddr : ℕ)
    (h : Wf s.mm L) (hc : Calm s) (hmax : s.mm.mapCount < env.conf.maxMapCount-3) :
    let r := moveVma rb env s x addr oldLen newLen newAddr
    (Free s.mm.core L newAddr (newAddr+newLen) → r.1 = newAddr) ∧
      (¬Free s.mm.core L newAddr (newAddr+newLen) → r.1 = -ENOMEM) := by
  dsimp only
  unfold moveVma
  dsimp only
  rw [if_neg (not_le.2 hmax), if_neg (not_not.2 hc.outcome)]
  have hmm : s.outcome.2.mm = s.mm := outcome_mm s
  have hcalm : Calm s.outcome.2 := hc.uses (uses_outcome s)
  have hcopy := copyVma_calm rb x newAddr newLen ((s.mm.vma x).pgoffAt addr) (by rwa [hmm]) hcalm
  rw [hmm] at hcopy
  generalize hr : copyVma rb s.outcome.2 x newAddr newLen ((s.mm.vma x).pgoffAt addr) = r at hcopy
  have huses : Calm r.2 := hr ▸ hcalm.uses uses_copyVma
  split
  next hnone => exact ⟨fun hfree => absurd hnone (hcopy.2 hfree), fun _ => rfl⟩
  next new x' hsome =>
    rw [if_neg (not_not.2 (moveTables_calm huses))]
    exact ⟨fun _ => rfl, fun hno => absurd (hcopy.1 (by rw [hsome]; simp)) hno⟩

theorem getArea_private (env : MmEnv) (mm : Mm) (topdown : Bool) (len : ℕ) (pgoff : BitVec 64) :
    getArea env mm topdown none 0 len pgoff 0 = archArea env mm topdown 0 len 0 := by
  unfold getArea
  dsimp only
  rw [if_neg (by decide)]

/-- The search for a private anonymous mapping. -/
theorem getTaskUnmappedArea_none (pgoff : BitVec 64)
    (hnone : ∀ a : ℕ, archArea env s.mm s.mm.topdown 0 len 0 = a →
      ¬(4096 ∣ a ∧ a+len ≤ TASK_SIZE)) :
    IsErr (getTaskUnmappedArea env s none 0 len pgoff 0).1 := by
  obtain ⟨-, -, hres⟩ := unmappedAreaOf_spec env s s.mm.topdown none 0 len pgoff 0
  rcases hres with herr | ⟨heq, hpos, hle, hoff⟩
  · exact herr
  · rw [getArea_private] at heq
    rw [heq] at hpos hle hoff
    obtain ⟨a, ha⟩ := Int.eq_ofNat_of_zero_le hpos
    rw [ha] at hle hoff
    exact absurd ⟨by omega, by exact_mod_cast hle⟩ (hnone a ha)

theorem getTaskUnmappedArea_found {pgoff : BitVec 64} (hc : Calm s)
    (ha : archArea env s.mm s.mm.topdown 0 len 0 = a) (hd : 4096 ∣ a) (hle : a+len ≤ TASK_SIZE) :
    getTaskUnmappedArea env s none 0 len pgoff 0 = ((a : ℤ), s.outcome.2) :=
  unmappedAreaOf_found ((getArea_private env s.mm s.mm.topdown len pgoff).trans ha) hd
    hle hc.outcome

/-- A private anonymous area that grows by a move ends where the search of the caller says, if that
is free. -/
theorem growByMove_iff (rb : Balance VmaId) (addr oldLen newLen : ℕ) (h : Wf s.mm L)
    (hT : Wf (env.cur s.mm) LT) (hw : LayoutWords env.conf (env.cur s.mm)) (hpos : 0 < newLen)
    (hc : Calm s) (hmax : s.mm.mapCount < env.conf.maxMapCount-3)
    (hfile : (s.mm.vma x).vmFile = none) (hshare : (s.mm.vma x).vmFlags.has VM_MAYSHARE = false) :
    0 ≤ (growByMove rb env s x addr oldLen newLen MREMAP_MAYMOVE).1 ↔
      SearchFree env.conf (env.cur s.mm) LT s.mm L newLen := by
  have hchosen (a : ℕ) (hle : a+newLen ≤ TASK_SIZE) :
      archArea env s.mm s.mm.topdown 0 newLen 0 = a ↔
        Chosen env.conf (env.cur s.mm) LT s.mm.topdown 0 newLen a :=
    archArea_iff hT hw hpos (by omega) (by decide)
  unfold growByMove
  dsimp only
  have hflags : moveFlags (s.mm.vma x) = 0 := by
    rw [moveFlags, hshare]
    rfl
  have hmm : s.outcome.2.mm = s.mm := outcome_mm s
  have hcalm : Calm s.outcome.2 := hc.uses (uses_outcome s)
  rw [if_pos (by decide), hfile, hflags]
  by_cases hfound : ∃ a : ℕ, archArea env s.mm s.mm.topdown 0 newLen 0 = a ∧ 4096 ∣ a ∧
    a+newLen ≤ TASK_SIZE
  · obtain ⟨a, ha, hd, hle⟩ := hfound
    rw [getTaskUnmappedArea_found hc ha hd hle, if_neg (by dsimp only; omega)]
    dsimp only
    rw [Int.toNat_natCast]
    rw [← hmm] at h hmax
    have hmove := moveVma_calm rb x addr oldLen newLen a h hcalm hmax
    rw [hmm] at hmove
    constructor
    · intro hok
      by_contra hno
      have hnot : ¬Free s.mm.core L a (a+newLen) :=
        fun hfree => hno ⟨a, (hchosen a hle).1 ha, hd, hle, hfree⟩
      rw [hmove.2 hnot] at hok
      exact absurd hok (by decide)
    · rintro ⟨b, hb, -, hble, hfree⟩
      obtain rfl : a = b := by exact_mod_cast ha.symm.trans ((hchosen b hble).2 hb)
      rw [hmove.1 hfree]
      omega
  · have herr := getTaskUnmappedArea_none ((s.mm.vma x).pgoffAt addr) fun a ha hok =>
      hfound ⟨a, ha, hok⟩
    rw [if_pos herr.offset]
    refine iff_of_false (not_le.2 herr.2) ?_
    rintro ⟨a, ha, hd, hle, -⟩
    exact hfound ⟨a, (hchosen a hle).2 ha, hd, hle⟩

/-- A private anonymous area that is to grow and cannot do so in its place; everything but room is
there. -/
structure MovableGrow (env : MmEnv) (s : MmSys) (A : List VmaId) (x : VmaId) (B : List VmaId)
    (addr oldLen newLen : ℕ) : Prop where
  wf : Wf s.mm (A ++ x :: B)
  calm : Calm s
  addr_dvd : 4096 ∣ addr
  start_le : (s.mm.vma x).vmStart ≤ addr
  addr_lt : addr < (s.mm.vma x).vmEnd
  old_le : addr+pageAlign oldLen ≤ (s.mm.vma x).vmEnd
  grows : pageAlign oldLen < pageAlign newLen
  anon : (s.mm.vma x).vmFile = none
  priv : (s.mm.vma x).vmFlags.has VM_MAYSHARE = false
  ordinary : isVmHugetlbPage (s.mm.vma x) = false
  expands : (s.mm.vma x).vmFlags.has (VM_DONTEXPAND ||| VM_PFNMAP) = false
  offset : ¬(s.mm.vma x).pgoffAt addr+BitVec.ofNat 64 (pageAlign newLen/4096) <
    (s.mm.vma x).pgoffAt addr
  memlock : (s.mm.vma x).vmFlags.has VM_LOCKED = true →
    s.mm.lockedVm <<< 12+BitVec.ofNat 64 (pageAlign newLen-pageAlign oldLen) ≤ env.rlim.memlock ∨
    env.capIpcLock = true
  limits : mayExpandVm env s.mm (s.mm.vma x).vmFlags
    (BitVec.ofNat 64 ((pageAlign newLen-pageAlign oldLen)/4096)) = true
  count : s.mm.mapCount < env.conf.maxMapCount-3
  stuck : pageAlign oldLen = (s.mm.vma x).vmEnd-addr →
    (vmaExpandable env s x (pageAlign newLen-pageAlign oldLen)).1 = false

theorem findVma_inside (h : Wf s.mm (A ++ x :: B)) (hs : (s.mm.vma x).vmStart ≤ addr)
    (hx : addr < (s.mm.vma x).vmEnd) :
    findVma s.mm addr = some x := by
  have ho := ordered_core.1 h.ordered
  rw [findVma_eq h.rep ho, List.find?_eq_some_iff_append]
  refine ⟨by simpa using hx, A, B, rfl, fun a ha => ?_⟩
  have hle := (ordered_append.1 ho).2.2 a ha x (by simp)
  simpa using hle.trans hs

/-- Whether an area can grow in its place depends on the address spaces only. -/
theorem vmaExpandable_calm {delta : ℕ} (hc : Calm s) (hc' : Calm s') (hmm : s'.mm = s.mm) :
    (vmaExpandable env s' x delta).1 = (vmaExpandable env s x delta).1 := by
  have harea : ∀ addr len, (getUnmappedArea env s' none addr len 0 MAP_FIXED).1 =
      (getUnmappedArea env s none addr len 0 MAP_FIXED).1 := by
    intro addr len
    unfold getUnmappedArea unmappedAreaOf
    dsimp only
    rw [hmm, if_neg (not_not.2 hc.outcome), if_neg (not_not.2 hc'.outcome)]
    split
    · rfl
    split
    · rfl
    split
    · rfl
    split <;> rfl
  unfold vmaExpandable
  dsimp only
  rw [hmm]
  split
  · rfl
  split
  · rfl
  rw [harea]

theorem vmaExpandable_mm {delta : ℕ} : (vmaExpandable env s x delta).2.mm = s.mm := by
  unfold vmaExpandable
  dsimp only
  split
  · rfl
  split
  · rfl
  exact (unmappedAreaOf_spec ..).2.1

namespace MovableGrow

variable (g : MovableGrow env s A x B addr oldLen newLen) (hmm : s'.mm = s.mm) (hc : Calm s')

include g hmm hc

/-- The checks before the growth pass. -/
theorem resize : ∃ charged s₁, vmaToResizeTask env s' addr (pageAlign oldLen) (pageAlign newLen) =
    (.ok (x, charged), s₁) ∧ s₁.mm = s.mm ∧ Calm s₁ := by
  have hlock : ¬((s.mm.vma x).vmFlags.has VM_LOCKED = true ∧
      env.rlim.memlock < s.mm.lockedVm <<< 12+BitVec.ofNat 64 (pageAlign newLen-pageAlign oldLen) ∧
      env.capIpcLock = false) := by
    rintro ⟨hl, hover, hcap⟩
    rcases g.memlock hl with hle | hcap'
    · exact absurd hover (BitVec.not_lt.2 hle)
    · exact absurd (hcap.symm.trans hcap') (by simp)
  have hold := g.old_le
  have hgrows := g.grows
  unfold vmaToResizeTask
  rw [hmm, findVma_inside g.wf g.start_le g.addr_lt]
  dsimp only
  rw [if_neg (not_lt.2 g.start_le), if_neg (by rw [g.ordinary]; simp), if_neg (by omega),
    if_neg (by omega),
    if_neg g.offset, if_neg (by rw [g.expands]; simp), if_neg hlock,
      if_neg (by rw [g.limits]; simp)]
  split
  next =>
    have hcharge : (vmEnoughMemory s' ((pageAlign newLen-pageAlign oldLen)/4096 : ℕ)).1 = 0 := by
      have hcalm : Calm
        { s' with committed := s'.committed+((pageAlign newLen-pageAlign oldLen)/4096 : ℕ) } := hc
      unfold vmEnoughMemory
      dsimp only
      rw [if_pos hcalm.outcome]
    have hsame :=
      (vmEnoughMemory_spec (G := True) (s := s') (L := A ++ x :: B) (by rw [hmm]; exact g.wf)
      ((pageAlign newLen-pageAlign oldLen)/4096 : ℕ)).1
    rw [if_neg (not_not.2 hcharge)]
    exact ⟨_, _, rfl, hsame.trans hmm, hc.uses (uses_vmEnoughMemory s' _)⟩
  next => exact ⟨_, _, rfl, hmm, hc⟩

/-- The area does not grow in its place, so it moves. -/
theorem moves (rb : Balance VmaId) (hT : Wf (env.cur s.mm) LT)
    (hw : LayoutWords env.conf (env.cur s.mm)) :
    0 ≤ (growArea rb env s' x addr (pageAlign oldLen) (pageAlign newLen) MREMAP_MAYMOVE).1 ↔
      SearchFree env.conf (env.cur s.mm) LT s.mm (A ++ x :: B) (pageAlign newLen) := by
  have hpos := g.grows
  unfold growArea
  dsimp only
  set expand := if pageAlign oldLen = (s'.mm.vma x).vmEnd-addr then
    vmaExpandable env s' x (pageAlign newLen-pageAlign oldLen) else (false, s') with hexpand
  have hno : expand.1 = false ∧ expand.2.mm = s.mm ∧ Calm expand.2 := by
    rw [hexpand]
    split
    next heq =>
      rw [hmm] at heq
      exact ⟨(vmaExpandable_calm g.calm hc hmm).trans (g.stuck heq), vmaExpandable_mm.trans hmm,
        hc.uses uses_vmaExpandable⟩
    next => exact ⟨rfl, hmm, hc⟩
  obtain ⟨hfalse, hmm', hc'⟩ := hno
  rw [if_neg (by rw [hfalse]; simp)]
  have hwf : Wf expand.2.mm (A ++ x :: B) := by
    rw [hmm']
    exact g.wf
  have hmove := growByMove_iff rb addr (pageAlign oldLen) (pageAlign newLen) hwf (by rwa [hmm'])
    (by rwa [hmm'])
    (by omega) hc' (by rw [hmm']; exact g.count) (by rw [hmm']; exact g.anon)
      (by rw [hmm']; exact g.priv)
  rw [hmm'] at hmove
  exact hmove

end MovableGrow

/-- A movable grow succeeds exactly if the range that is chosen by the areas of the caller is free
in the task's address space; when the two are the same, it is enough that there is room. -/
theorem mremapTask_grow_iff (rb : Balance VmaId) (env : MmEnv) (s : MmSys) (LT A : List VmaId)
    (x : VmaId) (B : List VmaId) (addr oldLen newLen newAddr : ℕ) (hT : Wf (env.cur s.mm) LT)
    (hw : LayoutWords env.conf (env.cur s.mm)) (g : MovableGrow env s A x B addr oldLen newLen) :
    let r := mremapTask rb env s addr oldLen newLen MREMAP_MAYMOVE newAddr
    (0 ≤ r.1 ↔ SearchFree env.conf (env.cur s.mm) LT s.mm (A ++ x :: B) (pageAlign newLen)) ∧
      (env.cur s.mm = s.mm → LT = A ++ x :: B → SaneLayout env.conf s.mm →
        HasGap env.conf s.mm (A ++ x :: B) (pageAlign newLen) → 0 ≤ r.1) := by
  have hgrows := g.grows
  have hoff : offsetInPage addr = 0 := by
    have hd := g.addr_dvd
    unfold offsetInPage
    omega
  have hiff : 0 ≤ (mremapTask rb env s addr oldLen newLen MREMAP_MAYMOVE newAddr).1 ↔
      SearchFree env.conf (env.cur s.mm) LT s.mm (A ++ x :: B) (pageAlign newLen) := by
    -- none of the early refusals applies, and the request neither shrinks nor is fixed
    unfold mremapTask
    dsimp only
    rw [if_neg (by decide), if_neg (by decide), if_neg (not_not.2 hoff), if_neg (by omega),
      if_neg (not_not.2 g.calm.outcome), mremapLocked, if_neg (by decide), if_neg (by omega)]
    obtain ⟨charged, s₁, hresize, hmm, hcalm⟩ :=
      g.resize (outcome_mm s) (g.calm.uses (uses_outcome s))
    have hmoves := g.moves hmm hcalm rb hT hw
    unfold mremapGrow growWith
    dsimp only
    rw [hresize]
    dsimp only
    -- giving the charge back does not change the result
    have hret : ∀ (r : ℤ × Bool × MmSys) (c : ℤ),
        (if r.1 % 4096 ≠ 0 then (r.1, r.2.1, vmUnacctMemory r.2.2 c) else r).1 = r.1 :=
      fun r c => by split <;> rfl
    rw [hret]
    exact hmoves
  refine ⟨hiff, fun hcur hL hl hroom => hiff.2 ?_⟩
  rw [hcur, hL]
  exact searchFree_of_gap g.wf hl (by omega) (pageAlign_dvd _) hroom

def fourAtBase : Mm := { Mm.ofArea fourPages with mmapBase := 0x10000, topdown := false }

theorem wf_fourAtBase : Wf fourAtBase [0] := by
  have h : Wf (Mm.ofArea fourPages) [0] := wf_ofArea ⟨by decide, by decide, by decide, by decide⟩
  exact ⟨⟨h.rep.head, h.rep.seg, h.rep.nodup, h.rep.inorder, h.rep.gaps, h.rep.count, h.rep.fresh⟩,
    h.ordered, h.highest⟩

def remapEnv (curMm : Option Mm) : MmEnv := { MmEnv.unlimited 10 with curMm := curMm }

/-- The first of the four pages is to become two. -/
theorem movableGrow_fourPages (curMm : Option Mm) :
    MovableGrow (remapEnv curMm) { mm := fourAtBase } [] 0 [] 0x10000 0x1000 0x2000 where
  wf := wf_fourAtBase
  calm := fun e he => absurd he (List.not_mem_nil)
  addr_dvd := by decide
  start_le := by decide
  addr_lt := by decide
  old_le := by decide
  grows := by decide
  anon := rfl
  priv := rfl
  ordinary := rfl
  expands := rfl
  offset := by decide
  memlock := fun hl => absurd hl (by decide)
  limits := by
    have hself : mayExpandVm (remapEnv none) fourAtBase fourPages.vmFlags 1 = true := by decide
    exact hself
  count := by
    show (1 : ℤ) < 10-3
    decide
  stuck := fun heq => absurd heq (by decide)

/-- For itself the task finds room behind the four pages. -/
theorem mremapTask_grow_iff_fourPages :
    0 ≤ (mremapTask Balance.plain (remapEnv none) { mm := fourAtBase } 0x10000 0x1000 0x2000
      MREMAP_MAYMOVE 0).1 := by
  have hl : SaneLayout (remapEnv none).conf fourAtBase :=
    ⟨by decide, by decide, by decide, by decide, by decide, by decide⟩
  apply (mremapTask_grow_iff Balance.plain (remapEnv none) { mm := fourAtBase } [0] [] 0 [] 0x10000
    0x1000 0x2000 0 wf_fourAtBase hl.words (movableGrow_fourPages none)).2 rfl rfl hl
  have hroom : Admissible fourAtBase [0] 0x2000 0x10000 TASK_SIZE 0x14000 :=
    ⟨by decide, by decide, fun y hy => .inl (by rw [List.mem_singleton.1 hy]; decide)⟩
  exact ⟨0x14000, hroom⟩

/-- With an empty address space, the caller finds the base free. There the task has its four pages,
and the call fails, although there is room behind them. -/
theorem mremapTask_grow_fails :
    let caller : Mm := { mmapBase := 0x10000, topdown := false }
    let s : MmSys := { mm := fourAtBase }
    MovableGrow (remapEnv (some caller)) s [] 0 [] 0x10000 0x1000 0x2000 ∧
      Admissible s.mm [0] 0x2000 s.mm.mmapBase TASK_SIZE 0x14000 ∧
      (mremapTask Balance.plain (remapEnv (some caller)) s 0x10000 0x1000 0x2000 MREMAP_MAYMOVE 0).1
        = -ENOMEM := by
  intro caller s
  refine ⟨movableGrow_fourPages (some caller), ⟨by decide, by decide, fun y hy => ?_⟩,
    by decide +kernel⟩
  rw [List.mem_singleton.1 hy]
  exact .inl (by decide)

end PtraceRemote
