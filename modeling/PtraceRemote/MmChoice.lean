import PtraceRemote.GapArea
import PtraceRemote.MmMapInv

/-! The address that the search for a free range chooses, over the areas of one address space. -/
namespace PtraceRemote

variable {mm : Mm} {env : MmEnv} {conf : MmConf} {L : List VmaId} {file : Option FileId}
  {hint len low high a : ℕ} {flags : Bits} {pgoff : BitVec 64} {topdown : Bool}

def Searched (conf : MmConf) (mm : Mm) (L : List VmaId) (topdown : Bool) (len a : ℕ) : Prop :=
  if topdown then
    IsGreatest { b | Admissible mm L len (max 4096 conf.mmapMinAddr) mm.mmapBase b } a ∨
      (∀ b, ¬Admissible mm L len (max 4096 conf.mmapMinAddr) mm.mmapBase b) ∧
        IsLeast { b | Admissible mm L len conf.taskUnmappedBase TASK_SIZE b } a
  else IsLeast { b | Admissible mm L len mm.mmapBase TASK_SIZE b } a

def HintFree (conf : MmConf) (mm : Mm) (L : List VmaId) (hint len : ℕ) : Prop :=
  hint ≠ 0 ∧ Admissible mm L len conf.mmapMinAddr TASK_SIZE (pageAlign hint)

def Chosen (conf : MmConf) (mm : Mm) (L : List VmaId) (topdown : Bool) (hint len a : ℕ) : Prop :=
  len ≤ wsub TASK_SIZE conf.mmapMinAddr ∧
    (HintFree conf mm L hint len ∧ a = pageAlign hint ∨
      ¬HintFree conf mm L hint len ∧ Searched conf mm L topdown len a)

/-- The addresses that bound the search are words. -/
structure LayoutWords (conf : MmConf) (mm : Mm) : Prop where
  base_lt : mm.mmapBase < 2^64
  min_lt : conf.mmapMinAddr < 2^64
  unmapped_lt : conf.taskUnmappedBase < 2^64

/-! The code makes this choice. -/

/-- Only the first area that ends above the hint is looked at. -/
theorem hintFits_iff (h : Wf mm L) (hlen : len ≤ TASK_SIZE) :
    hintFits conf mm a len = true ↔ Admissible mm L len conf.mmapMinAddr TASK_SIZE a := by
  have ho := ordered_core.1 h.ordered
  have htask : TASK_SIZE < 2^64 := by decide
  have hsub : wsub TASK_SIZE len = TASK_SIZE-len := wsub_eq hlen htask
  unfold hintFits
  rw [hsub, Bool.and_eq_true, Bool.and_eq_true, decide_eq_true_iff, decide_eq_true_iff]
  constructor
  · rintro ⟨⟨hle, hmin⟩, hnext⟩
    refine ⟨hmin, by omega, fun y hy => ?_⟩
    cases hf : findVma mm a with
    | none => exact .inl (findVma_none h.rep ho hf y hy)
    | some x =>
      obtain ⟨A, B, rfl, hA, -⟩ := findVma_some h.rep ho hf
      rw [hf, decide_eq_true_iff, wadd_eq (by omega)] at hnext
      rcases List.mem_append.1 hy with hy | hy
      · exact .inl (hA y hy)
      · rcases List.mem_cons.1 hy with rfl | hy
        · exact .inr hnext
        · have hlater := (ordered_cons.1 (ordered_append.1 ho).2.1).2.2 y hy
          have hlt := (ho.area x (by simp)).lt
          exact .inr (by omega)
  · rintro ⟨hmin, hle, hfree⟩
    refine ⟨⟨by omega, hmin⟩, ?_⟩
    cases hf : findVma mm a with
    | none => rfl
    | some x =>
      obtain ⟨A, B, rfl, -, hlt⟩ := findVma_some h.rep ho hf
      rw [decide_eq_true_iff, wadd_eq (by omega)]
      exact (hfree x (by simp)).resolve_left (not_le.2 hlt)

theorem unmappedArea_iff (h : Wf mm L) (hf : FitsWord len low high) (hpos : 0 < len) :
    unmappedArea mm len low high = some a ↔ IsLeast { b | Admissible mm L len low high b } a := by
  obtain ⟨hsome, hnone⟩ := (unmappedArea_extreme h hf hpos).1
  refine ⟨hsome a, fun ha => ?_⟩
  obtain ⟨b, hb⟩ := Option.ne_none_iff_exists'.1 (hnone a ha.1)
  rw [hb, (hsome b hb).unique ha]

theorem unmappedAreaTopdown_iff (h : Wf mm L) (hf : FitsWord len low high) (hpos : 0 < len) :
    unmappedAreaTopdown mm len low high = some a ↔
      IsGreatest { b | Admissible mm L len low high b } a := by
  obtain ⟨hsome, hnone⟩ := (unmappedArea_extreme h hf hpos).2
  refine ⟨hsome a, fun ha => ?_⟩
  obtain ⟨b, hb⟩ := Option.ne_none_iff_exists'.1 (hnone a ha.1)
  rw [hb, (hsome b hb).unique ha]

theorem unmappedAreaTopdown_none_iff (h : Wf mm L) (hf : FitsWord len low high) (hpos : 0 < len) :
    unmappedAreaTopdown mm len low high = none ↔ ∀ b, ¬Admissible mm L len low high b := by
  obtain ⟨hsome, hnone⟩ := (unmappedArea_extreme h hf hpos).2
  refine ⟨fun hn b hb => hnone b hb hn, fun hall => ?_⟩
  by_contra hne
  obtain ⟨b, hb⟩ := Option.ne_none_iff_exists'.1 hne
  exact hall b (hsome b hb).1

theorem enomem_ne (a : ℕ) : -ENOMEM ≠ (a : ℤ) := by
  have hneg : -ENOMEM < 0 := by decide
  omega

theorem areaResult_eq {r : Option ℕ} : areaResult r = (a : ℤ) ↔ r = some a := by
  cases r with
  | none => exact iff_of_false (enomem_ne a) (by simp)
  | some b => exact Nat.cast_inj.trans Option.some_inj.symm

/-- The two searches of the layouts. -/
theorem searched_iff (topdown : Bool) (a : ℕ) (h : Wf mm L) (hw : LayoutWords conf mm)
    (hpos : 0 < len) (hlen : len < 2^64) :
    areaResult
      (if topdown then (unmappedAreaTopdown mm len (max 4096 conf.mmapMinAddr) mm.mmapBase).or
        (unmappedArea mm len conf.taskUnmappedBase TASK_SIZE)
      else unmappedArea mm len mm.mmapBase TASK_SIZE) = a ↔ Searched conf mm L topdown len a := by
  have htask : TASK_SIZE < 2^64 := by decide
  have hmin := hw.min_lt
  have hbelow : FitsWord len (max 4096 conf.mmapMinAddr) mm.mmapBase := ⟨hlen, by omega, hw.base_lt⟩
  have habove : FitsWord len conf.taskUnmappedBase TASK_SIZE := ⟨hlen, hw.unmapped_lt, htask⟩
  have hbase : FitsWord len mm.mmapBase TASK_SIZE := ⟨hlen, hw.base_lt, htask⟩
  rw [areaResult_eq, Searched]
  cases topdown with
  | false =>
    rw [if_neg (by simp), if_neg (by simp)]
    exact unmappedArea_iff h hbase hpos
  | true =>
    rw [if_pos rfl, if_pos rfl, Option.or_eq_some_iff, unmappedAreaTopdown_iff h hbelow hpos,
      unmappedAreaTopdown_none_iff h hbelow hpos, unmappedArea_iff h habove hpos]

/-- The search of the code chooses by the areas of `current`. -/
theorem archArea_iff (h : Wf (env.cur mm) L) (hw : LayoutWords env.conf (env.cur mm))
    (hpos : 0 < len) (hlen : len ≤ TASK_SIZE) (hfixed : flags.has MAP_FIXED = false) :
    archArea env mm topdown hint len flags = a ↔
      Chosen env.conf (env.cur mm) L topdown hint len a := by
  have htask : TASK_SIZE < 2^64 := by decide
  have hfits : ∀ b, hintFits env.conf (env.cur mm) b len = true ↔
      Admissible (env.cur mm) L len env.conf.mmapMinAddr TASK_SIZE b := fun b => hintFits_iff h hlen
  have hsearch := searched_iff topdown a h hw hpos (hlen.trans_lt htask)
  have harch : archArea env mm topdown hint len flags =
      if wsub TASK_SIZE env.conf.mmapMinAddr < len then -ENOMEM
      else if hint ≠ 0 ∧ hintFits env.conf (env.cur mm) (pageAlign hint) len then
        (pageAlign hint : ℤ)
      else areaResult (if topdown then
          (unmappedAreaTopdown (env.cur mm) len (max 4096 env.conf.mmapMinAddr)
            (env.cur mm).mmapBase).or
            (unmappedArea (env.cur mm) len env.conf.taskUnmappedBase TASK_SIZE)
        else unmappedArea (env.cur mm) len (env.cur mm).mmapBase TASK_SIZE) := by
    unfold archArea archGetUnmappedAreaTopdown archGetUnmappedArea
    cases topdown <;> simp only [hfixed] <;> rfl
  rw [harch, Chosen]
  by_cases hroom : wsub TASK_SIZE env.conf.mmapMinAddr < len
  · rw [if_pos hroom]
    exact iff_of_false (enomem_ne a) fun hc => absurd hc.1 (not_le.2 hroom)
  rw [if_neg hroom]
  by_cases hhint : HintFree env.conf (env.cur mm) L hint len
  · rw [if_pos ⟨hhint.1, (hfits _).2 hhint.2⟩]
    constructor
    · intro ha
      exact ⟨not_lt.1 hroom, .inl ⟨hhint, (Nat.cast_inj.1 ha).symm⟩⟩
    · rintro ⟨-, ⟨-, rfl⟩ | ⟨hno, -⟩⟩
      · rfl
      · exact absurd hhint hno
  · rw [if_neg fun hc => hhint ⟨hc.1, (hfits _).1 hc.2⟩, hsearch]
    constructor
    · intro ha
      exact ⟨not_lt.1 hroom, .inr ⟨hhint, ha⟩⟩
    · rintro ⟨-, ⟨hfree, -⟩ | ⟨-, ha⟩⟩
      · exact absurd hfree hhint
      · exact ha

/-- A file without a search of its own, or private memory. -/
def NoOwnArea (env : MmEnv) (file : Option FileId) (flags : Bits) : Prop :=
  match file with
  | some f => (env.file f).getArea = none
  | none => flags.has MAP_SHARED = false

theorem getArea_noOwn (hown : NoOwnArea env file flags) :
    getArea env mm topdown file hint len pgoff flags = archArea env mm topdown hint len flags := by
  unfold getArea
  cases file with
  | none =>
    have hshared : flags.has MAP_SHARED = false := hown
    simp only [hshared]
    rfl
  | some f =>
    have hnone : (env.file f).getArea = none := hown
    simp only [hnone]

theorem archArea_fixed_iff (hfixed : flags.has MAP_FIXED = true) :
    archArea env mm topdown hint len flags = a ↔ len ≤ wsub TASK_SIZE env.conf.mmapMinAddr ∧
      a = hint := by
  have harch : archArea env mm topdown hint len flags =
      if wsub TASK_SIZE env.conf.mmapMinAddr < len then -ENOMEM else (hint : ℤ) := by
    unfold archArea archGetUnmappedAreaTopdown archGetUnmappedArea
    cases topdown <;> simp only [hfixed] <;> rfl
  rw [harch]
  split
  next hroom => exact iff_of_false (enomem_ne a) fun hc => absurd hc.1 (not_le.2 hroom)
  next hroom =>
    exact ⟨fun ha => ⟨not_lt.1 hroom, (Nat.cast_inj.1 ha).symm⟩,
      fun ha => congrArg Nat.cast ha.2.symm⟩

theorem exceptArea_eq {r : Except (Fin 4095) ℕ} : exceptArea r = (a : ℤ) ↔ r = .ok a := by
  cases r with
  | ok b => exact Nat.cast_inj.trans (Except.ok.injEq ..).symm.to_iff
  | error e =>
    refine iff_of_false ?_ (by simp)
    show -(e.val+1 : ℤ) ≠ a
    omega

/-- The address that is asked of the file, of shmem or of the layout: it is the hint with
`MAP_FIXED`, and else one that the search in the areas `L` of the caller chooses. -/
inductive Picks (env : MmEnv) (caller : Mm) (L : List VmaId) (topdown : Bool) (hint len : ℕ)
    (pgoff : BitVec 64) (flags : Bits) : Option FileId → ℕ → Prop
  | file {f : FileId} {g : ℕ → ℕ → BitVec 64 → Bits → Except (Fin 4095) ℕ} {a : ℕ}
      (hown : (env.file f).getArea = some g) (ha : g hint len pgoff flags = .ok a) :
      Picks env caller L topdown hint len pgoff flags (some f) a
  | shmem {a : ℕ} (hshared : flags.has MAP_SHARED = true)
      (ha : env.shmemArea hint len 0 flags = .ok a) :
      Picks env caller L topdown hint len pgoff flags none a
  | fixed {file : Option FileId} (hown : NoOwnArea env file flags)
      (hfixed : flags.has MAP_FIXED = true) (hlen : len ≤ wsub TASK_SIZE env.conf.mmapMinAddr) :
      Picks env caller L topdown hint len pgoff flags file hint
  | chosen {file : Option FileId} {a : ℕ} (hown : NoOwnArea env file flags)
      (hfixed : flags.has MAP_FIXED = false)
      (ha : Chosen env.conf caller L topdown hint len a) :
        Picks env caller L topdown hint len pgoff flags file a

theorem picks_noOwn (h : Wf (env.cur mm) L) (hw : LayoutWords env.conf (env.cur mm))
    (hpos : 0 < len) (hlen : len ≤ TASK_SIZE) (hown : NoOwnArea env file flags) :
    archArea env mm topdown hint len flags = a ↔
      Picks env (env.cur mm) L topdown hint len pgoff flags file a := by
  constructor
  · intro ha
    cases hfixed : flags.has MAP_FIXED with
    | true =>
      obtain ⟨hroom, rfl⟩ := (archArea_fixed_iff hfixed).1 ha
      exact .fixed hown hfixed hroom
    | false => exact .chosen hown hfixed ((archArea_iff h hw hpos hlen hfixed).1 ha)
  · intro ha
    cases ha with
    | file hsome => exact absurd (hown.symm.trans hsome) (by simp)
    | shmem hshared => exact absurd (hown.symm.trans hshared) (by simp)
    | fixed hown hfixed hroom => exact (archArea_fixed_iff hfixed).2 ⟨hroom, rfl⟩
    | chosen hown hfixed ha => exact (archArea_iff h hw hpos hlen hfixed).2 ha

theorem getArea_iff (h : Wf (env.cur mm) L) (hw : LayoutWords env.conf (env.cur mm))
    (hpos : 0 < len) (hlen : len ≤ TASK_SIZE) :
    getArea env mm topdown file hint len pgoff flags = a ↔
      Picks env (env.cur mm) L topdown hint len pgoff flags file a := by
  by_cases hown : NoOwnArea env file flags
  · rw [getArea_noOwn hown, picks_noOwn h hw hpos hlen hown]
  · cases file with
    | some f =>
      obtain ⟨g, hg⟩ := Option.ne_none_iff_exists'.1 hown
      unfold getArea
      simp only [hg]
      rw [exceptArea_eq]
      refine ⟨.file hg, fun ha => ?_⟩
      cases ha with
      | file hsome ha => rwa [Option.some_inj.1 (hg.symm.trans hsome)]
      | fixed hno | chosen hno => exact absurd hno hown
    | none =>
      have hshared : flags.has MAP_SHARED = true := Bool.eq_true_of_not_eq_false hown
      unfold getArea
      simp only [hshared, if_true]
      rw [exceptArea_eq]
      refine ⟨.shmem hshared, fun ha => ?_⟩
      cases ha with
      | shmem _ ha => exact ha
      | fixed hno | chosen hno => exact absurd hno hown

/-- The search finds the page `start` for `len` bytes. -/
structure FoundAt (env : MmEnv) (mm : Mm) (L : List VmaId) (file : Option FileId) (hint len : ℕ)
    (pgoff : BitVec 64) (flags : Bits) (start : ℕ) : Prop where
  picked : Picks env (env.cur mm) L mm.topdown hint len pgoff flags file start
  page : 4096 ∣ start
  end_le : start+len ≤ TASK_SIZE

theorem FoundAt.area {s : MmSys} {start : ℕ}
    (hf : FoundAt env s.mm L file hint len pgoff flags start) (h : Wf (env.cur s.mm) L)
    (hw : LayoutWords env.conf (env.cur s.mm)) (hpos : 0 < len) (hsec : s.outcome.1 = 0) :
    getTaskUnmappedArea env s file hint len pgoff flags = (↑start, s.outcome.2) := by
  have hend := hf.end_le
  have harea := (getArea_iff h hw hpos (by omega)).2 hf.picked
  have hpage : (start : ℤ) % 4096 = 0 := by
    have := hf.page
    omega
  unfold getTaskUnmappedArea unmappedAreaOf
  dsimp only
  rw [if_neg (by omega), harea, if_neg (by omega),
    if_neg (by push_cast [Nat.cast_sub (by omega : len ≤ TASK_SIZE)]; omega),
    if_neg (not_not.2 hpage), if_neg (not_not.2 hsec)]

theorem foundAt_of_page {s : MmSys} (h : Wf (env.cur s.mm) L)
    (hw : LayoutWords env.conf (env.cur s.mm)) (hpos : 0 < len)
    (hzero : (getTaskUnmappedArea env s file hint len pgoff flags).1 % 4096 = 0) :
    s.outcome.1 = 0 ∧ ∃ start, FoundAt env s.mm L file hint len pgoff flags start := by
  obtain ⟨-, -, herr | ⟨heq, hnn, hle, -⟩⟩ :=
    unmappedAreaOf_spec env s s.mm.topdown file hint len pgoff flags
  · exact absurd hzero herr.offset
  have hsec : s.outcome.1 = 0 := by
    unfold getTaskUnmappedArea unmappedAreaOf at hzero
    dsimp only at hzero
    by_contra hne
    split_ifs at hzero with h₁ h₂ h₃ h₄
    · exact absurd hzero (show -ENOMEM % 4096 ≠ 0 by decide)
    · exact absurd hzero (getArea_err h₂).offset
    · exact absurd hzero (show -ENOMEM % 4096 ≠ 0 by decide)
    · exact absurd hzero (show -EINVAL % 4096 ≠ 0 by decide)
    · exact absurd hzero (outcome_isErr hne).offset
  rw [show unmappedAreaOf env s s.mm.topdown file hint len pgoff flags =
    getTaskUnmappedArea env s file hint len pgoff flags from rfl] at heq hnn hle
  obtain ⟨start, hstart⟩ := Int.eq_ofNat_of_zero_le hnn
  rw [hstart] at heq hle hzero
  refine ⟨hsec, start, (getArea_iff h hw hpos (by omega)).1 heq.symm, by omega, by omega⟩

/-! The room there is. -/

/-- A free range between the limits of the task's own search. -/
def HasGap (conf : MmConf) (mm : Mm) (L : List VmaId) (len : ℕ) : Prop :=
  if mm.topdown then (∃ a, Admissible mm L len (max 4096 conf.mmapMinAddr) mm.mmapBase a) ∨
    ∃ a, Admissible mm L len conf.taskUnmappedBase TASK_SIZE a
  else ∃ a, Admissible mm L len mm.mmapBase TASK_SIZE a

/-- The limits are pages above `mmap_min_addr`. -/
structure SaneLayout (conf : MmConf) (mm : Mm) : Prop where
  base_dvd : 4096 ∣ mm.mmapBase
  base_le : mm.mmapBase ≤ TASK_SIZE
  min_le_base : conf.mmapMinAddr ≤ mm.mmapBase
  unmapped_dvd : 4096 ∣ conf.taskUnmappedBase
  min_le_unmapped : conf.mmapMinAddr ≤ conf.taskUnmappedBase
  unmapped_le : conf.taskUnmappedBase ≤ TASK_SIZE

theorem SaneLayout.words (hl : SaneLayout conf mm) : LayoutWords conf mm := by
  have htask : TASK_SIZE < 2^64 := by decide
  have hmin := hl.min_le_base
  exact ⟨hl.base_le.trans_lt htask, (hmin.trans hl.base_le).trans_lt htask,
    hl.unmapped_le.trans_lt htask⟩

/-- Areas begin and end at pages, so the least free address does. -/
theorem isLeast_dvd (h : Wf mm L) (hlow : 4096 ∣ low)
    (ha : IsLeast { b | Admissible mm L len low high b } a) :
    4096 ∣ a := by
  have hdown : Admissible mm L len low high (a/4096*4096) := by
    obtain ⟨hle, hhigh, hfree⟩ := ha.1
    refine ⟨by omega, by omega, fun y hy => ?_⟩
    obtain ⟨-, -, hend, -⟩ := (ordered_core.1 h.ordered).area y hy
    have hy := hfree y hy
    omega
  have hle := ha.2 hdown
  omega

theorem isGreatest_dvd (h : Wf mm L) (hhigh : 4096 ∣ high) (hlen : 4096 ∣ len)
    (ha : IsGreatest { b | Admissible mm L len low high b } a) : 4096 ∣ a := by
  have hup : Admissible mm L len low high ((a+4095)/4096*4096) := by
    obtain ⟨hle, hbelow, hfree⟩ := ha.1
    refine ⟨by omega, by omega, fun y hy => ?_⟩
    obtain ⟨-, hstart, -, -⟩ := (ordered_core.1 h.ordered).area y hy
    have hy := hfree y hy
    omega
  have hle := ha.2 hup
  omega

/-- Where there is room, the search chooses a page. -/
theorem searched_of_gap (h : Wf mm L) (hl : SaneLayout conf mm) (hpos : 0 < len) (hlen : 4096 ∣ len)
    (hroom : HasGap conf mm L len) :
    ∃ a, Searched conf mm L mm.topdown len a ∧ 4096 ∣ a ∧ conf.mmapMinAddr ≤ a ∧
      a+len ≤ TASK_SIZE := by
  have htask : TASK_SIZE < 2^64 := by decide
  have hbase := hl.base_le
  have hmin := hl.min_le_base
  have hmin' := hl.min_le_unmapped
  have hun := hl.unmapped_le
  unfold HasGap at hroom
  unfold Searched
  cases htop : mm.topdown with
  | false =>
    rw [htop, if_neg (by simp)] at hroom
    obtain ⟨b, hb⟩ := hroom
    have hbound := hb.le_high
    have hfound :=
      (unmappedArea_extreme h (⟨by omega, by omega, htask⟩ : FitsWord len mm.mmapBase TASK_SIZE)
        hpos).1
    obtain ⟨a, ha⟩ := Option.ne_none_iff_exists'.1 (hfound.2 b hb)
    have hleast := hfound.1 a ha
    simp only [Bool.false_eq_true, if_false]
    exact ⟨a, hleast, isLeast_dvd h hl.base_dvd hleast, hmin.trans hleast.1.low_le,
      hleast.1.le_high⟩
  | true =>
    rw [htop, if_pos rfl] at hroom
    have hword : len < 2^64 := by
      rcases hroom with ⟨b, hb⟩ | ⟨b, hb⟩ <;> have := hb.le_high <;> omega
    have hbelow : FitsWord len (max 4096 conf.mmapMinAddr) mm.mmapBase :=
      ⟨hword, by omega, by omega⟩
    have habove : FitsWord len conf.taskUnmappedBase TASK_SIZE := ⟨hword, by omega, htask⟩
    have hdown := (unmappedArea_extreme h hbelow hpos).2
    have hup := (unmappedArea_extreme h habove hpos).1
    simp only [if_true]
    by_cases hno : ∀ b, ¬Admissible mm L len (max 4096 conf.mmapMinAddr) mm.mmapBase b
    · -- nothing below the base, so the room is found from the bottom up
      rcases hroom with ⟨b, hb⟩ | ⟨b, hb⟩
      · exact absurd hb (hno b)
      · obtain ⟨a, ha⟩ := Option.ne_none_iff_exists'.1 (hup.2 b hb)
        have hleast := hup.1 a ha
        exact ⟨a, .inr ⟨hno, hleast⟩, isLeast_dvd h hl.unmapped_dvd hleast,
          hmin'.trans hleast.1.low_le, hleast.1.le_high⟩
    · obtain ⟨b, hb⟩ := not_forall_not.1 hno
      obtain ⟨a, ha⟩ := Option.ne_none_iff_exists'.1 (hdown.2 b hb)
      have hgreatest := hdown.1 a ha
      exact ⟨a, .inl hgreatest, isGreatest_dvd h hl.base_dvd hlen hgreatest,
        (le_max_right _ _).trans hgreatest.1.low_le, hgreatest.1.le_high.trans hbase⟩

theorem Searched.free (hs : Searched conf mm L topdown len a) : Free mm.core L a (a+len) := by
  unfold Searched at hs
  split at hs
  · rcases hs with hgreatest | ⟨-, hleast⟩
    · exact hgreatest.1.free
    · exact hleast.1.free
  · exact hs.1.free

theorem Chosen.free (hc : Chosen conf mm L topdown hint len a) : Free mm.core L a (a+len) := by
  obtain ⟨-, ⟨hhint, rfl⟩ | ⟨-, hsearch⟩⟩ := hc
  · exact hhint.2.free
  · exact hsearch.free

end PtraceRemote
