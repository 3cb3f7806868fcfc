import PtraceRemote.GapSearch

/-! What `unmapped_area` and `unmapped_area_topdown` return: an aligned address in the first or the
last gap with enough room, and the searches without alignment that the address-space code calls. -/
namespace PtraceRemote

open TreeSearch (Rules Result mirror)

section Align
variable {info : VmUnmappedAreaInfo} {k gs ge : ℕ}

theorem mask_pow_dvd (hmask : info.alignMask.toNat = 2^k-1) : 2^k ∣ 2^64 := by
  apply Nat.pow_dvd_pow 2
  by_contra hk
  have hlt := info.alignMask.isLt
  have hpow : 2^65 ≤ 2^k := Nat.pow_le_pow_right (by decide) (by omega)
  omega

theorem wsub_and_mask (hmask : info.alignMask.toNat = 2^k-1) (a b : ℕ) :
    wsub a b &&& info.alignMask.toNat = (a+2^64-b) % 2^k := by
  rw [hmask, Nat.and_two_pow_sub_one_eq_mod]
  exact Nat.mod_mod_of_dvd _ (mask_pow_dvd hmask)

theorem and_mask_eq (hmask : info.alignMask.toNat = 2^k-1) {a b : ℕ} (h : a ≡ b [MOD 2^k]) :
    a &&& info.alignMask.toNat = b &&& info.alignMask.toNat := by
  rw [hmask, Nat.and_two_pow_sub_one_eq_mod, Nat.and_two_pow_sub_one_eq_mod]
  exact h

/-- Rounding up costs at most the mask. -/
theorem alignGapStart_spec (hmask : info.alignMask.toNat = 2^k-1)
    (hlt : gs+(info.length.toNat+info.alignMask.toNat) < 2^64) :
    gs ≤ alignGapStart info gs ∧
      alignGapStart info gs+info.length.toNat ≤ gs+(info.length.toNat+info.alignMask.toNat) ∧
      alignGapStart info gs &&& info.alignMask.toNat =
        info.alignOffset.toNat &&& info.alignMask.toNat := by
  have hoff := info.alignOffset.isLt
  have hpos := Nat.two_pow_pos k
  have hmod : (info.alignOffset.toNat+2^64-gs) % 2^k < 2^k := Nat.mod_lt _ hpos
  have heq : alignGapStart info gs = gs+(info.alignOffset.toNat+2^64-gs) % 2^k := by
    unfold alignGapStart
    rw [wsub_and_mask hmask]
    exact wadd_eq (by omega)
  refine ⟨by omega, by omega, and_mask_eq hmask ?_⟩
  rw [heq]
  calc gs+(info.alignOffset.toNat+2^64-gs) % 2^k
      ≡ gs+(info.alignOffset.toNat+2^64-gs) [MOD 2^k] := (Nat.mod_modEq _ _).add_left gs
    _ = info.alignOffset.toNat+2^64 := by omega
    _ ≡ info.alignOffset.toNat+0 [MOD 2^k] :=
        ((Nat.modEq_zero_iff_dvd.mpr (mask_pow_dvd hmask))).add_left _

/-- So does rounding down. -/
theorem alignGapEnd_spec (hmask : info.alignMask.toNat = 2^k-1) (hge : ge < 2^64)
    (hle : info.length.toNat+info.alignMask.toNat ≤ ge) :
    ge-(info.length.toNat+info.alignMask.toNat) ≤ alignGapEnd info ge ∧
      alignGapEnd info ge+info.length.toNat ≤ ge ∧
      alignGapEnd info ge &&& info.alignMask.toNat =
        info.alignOffset.toNat &&& info.alignMask.toNat := by
  have hoff := info.alignOffset.isLt
  have hpos := Nat.two_pow_pos k
  let e := ge-info.length.toNat
  let d := (e+2^64-info.alignOffset.toNat) % 2^k
  have hd : d < 2^k := Nat.mod_lt _ hpos
  have heq : alignGapEnd info ge = e-d := by
    unfold alignGapEnd
    dsimp only
    rw [wsub_eq (by omega) hge, wsub_and_mask hmask]
    exact wsub_eq (show d ≤ e by omega) (show e < 2^64 by omega)
  refine ⟨by omega, by omega, and_mask_eq hmask ?_⟩
  rw [heq]
  -- add the distance to the offset on both sides
  apply Nat.ModEq.add_right_cancel' d
  calc e-d+d = e := by omega
    _ ≡ e+2^64 [MOD 2^k] := ((Nat.modEq_zero_iff_dvd.mpr (mask_pow_dvd hmask)).symm).add_left e
    _ = info.alignOffset.toNat+(e+2^64-info.alignOffset.toNat) := by omega
    _ ≡ info.alignOffset.toNat+d [MOD 2^k] := (Nat.mod_modEq _ _).symm.add_left _

theorem alignGapStart_zero (h : info.alignMask = 0) (hlt : gs < 2^64) :
    alignGapStart info gs = gs := by
  unfold alignGapStart
  rw [h]
  exact (congrArg (wadd gs) (Nat.and_zero _)).trans (wadd_eq hlt)

theorem alignGapEnd_zero (h : info.alignMask = 0) (hge : ge < 2^64) (hle : info.length.toNat ≤ ge) :
    alignGapEnd info ge = ge-info.length.toNat := by
  unfold alignGapEnd
  dsimp only
  rw [h, wsub_eq hle hge]
  exact (congrArg (wsub _) (Nat.and_zero _)).trans (wsub_eq (Nat.zero_le _) (by omega))

end Align

/-! The results. -/

namespace VmUnmappedAreaInfo

def need (info : VmUnmappedAreaInfo) : ℕ := info.length.toNat+info.alignMask.toNat

/-- Some gap between the limits has enough room. -/
def HasGap (info : VmUnmappedAreaInfo) (mm : Mm) (L : List VmaId) : Prop :=
  info.need < 2^64 ∧ ∃ gap ∈ gaps mm L, Roomy info.need info.lowLimit.toNat info.highLimit.toNat gap

def usable (info : VmUnmappedAreaInfo) (mm : Mm) (L : List VmaId) : Set ℕ :=
  { a | Admissible mm L info.length.toNat info.lowLimit.toNat info.highLimit.toNat a }

structure Open (info : VmUnmappedAreaInfo) : Prop where
  need_lt : info.need < 2^64
  need_le : info.need ≤ info.highLimit.toNat
  low_le : info.lowLimit.toNat ≤ info.highLimit.toNat-info.need

end VmUnmappedAreaInfo

/-- What a search for an unmapped area owes its caller: a usable and aligned address, or `-ENOMEM`
if there is no gap for it. -/
structure AreaSpec (info : VmUnmappedAreaInfo) (mm : Mm) (L : List VmaId) (r : Option ℕ) :
    Prop where
  found : ∀ a, r = some a → a ∈ info.usable mm L ∧
    a &&& info.alignMask.toNat = info.alignOffset.toNat &&& info.alignMask.toNat
  none_iff : r = none ↔ ¬ info.HasGap mm L

section Results
variable {mm : Mm} {L : List VmaId} {info : VmUnmappedAreaInfo} {k : ℕ} {x : VmaId}

theorem need_pos (hlen : info.length ≠ 0) : 0 < info.need := by
  have hne : info.length.toNat ≠ 0 := fun hz => hlen (BitVec.eq_of_toNat_eq hz)
  unfold VmUnmappedAreaInfo.need
  omega

/-- Without room between the limits there is no gap. -/
theorem hasGap_open (hlen : info.length ≠ 0) (h : info.HasGap mm L) : info.Open := by
  have hpos := need_pos hlen
  obtain ⟨hlt, gap, -, hroom⟩ := h
  unfold Roomy at hroom
  exact ⟨hlt, by omega, by omega⟩

/-- With room, the gaps to look at are those before the areas and the one behind them. -/
theorem hasGap_iff (ho : info.Open) (hlen : info.length ≠ 0) :
    info.HasGap mm L ↔
      (∃ x ∈ L, RoomyBefore mm info.need info.lowLimit.toNat info.highLimit.toNat x) ∨
      mm.highestVmEnd ≤ info.highLimit.toNat-info.need := by
  have hhigh := info.highLimit.isLt
  have hpos := need_pos hlen
  have hlow := ho.low_le
  have hle := ho.need_le
  have hlast : Roomy info.need info.lowLimit.toNat info.highLimit.toNat (mm.highestVmEnd, 2^64) ↔
      mm.highestVmEnd ≤ info.highLimit.toNat-info.need := by
    rw [roomy_iff hpos hle hlow]
    omega
  unfold VmUnmappedAreaInfo.HasGap gaps
  rw [← hlast]
  constructor
  · rintro ⟨-, gap, hgap, hroom⟩
    rcases List.mem_append.mp hgap with hgap | hgap
    · obtain ⟨x, hx, rfl⟩ := List.mem_map.mp hgap
      exact .inl ⟨x, hx, hroom⟩
    · rw [List.mem_singleton.mp hgap] at hroom
      exact .inr hroom
  · rintro (⟨x, hx, hroom⟩ | hroom)
    · exact ⟨ho.need_lt, _, List.mem_append_left _ (List.mem_map_of_mem hx), hroom⟩
    · exact ⟨ho.need_lt, _, List.mem_append_right _ (List.mem_singleton_self _), hroom⟩

/-- Both functions give up at once if the limits leave no room. -/
theorem unmappedArea_closed (ho : ¬ info.Open) (fuel : ℕ) :
    unmappedAreaLoop fuel mm info = some none ∧
      unmappedAreaTopdownLoop fuel mm info = some none := by
  have hlen := info.length.isLt
  have hmask := info.alignMask.isLt
  have hhigh := info.highLimit.isLt
  unfold unmappedAreaLoop unmappedAreaTopdownLoop
  dsimp only
  by_cases hwrap : wadd info.length.toNat info.alignMask.toNat < info.length.toNat
  · rw [if_pos hwrap, if_pos hwrap]
    exact ⟨rfl, rfl⟩
  have hneed : wadd info.length.toNat info.alignMask.toNat = info.need ∧ info.need < 2^64 := by
    unfold wadd VmUnmappedAreaInfo.need at *
    omega
  rw [if_neg hwrap, if_neg hwrap, hneed.1]
  by_cases hle : info.highLimit.toNat < info.need
  · rw [if_pos hle, if_pos hle]
    exact ⟨rfl, rfl⟩
  rw [if_neg hle, if_neg hle, wsub_eq (by omega) hhigh]
  by_cases hlow : info.highLimit.toNat-info.need < info.lowLimit.toNat
  · rw [if_pos hlow, if_pos hlow]
    exact ⟨rfl, rfl⟩
  · exact absurd ⟨hneed.2, by omega, by omega⟩ ho

def upResult (info : VmUnmappedAreaInfo) (mm : Mm) : Result VmaId → Option ℕ
  | .hit x => some (alignGapStart info (max (prevEnd mm x) info.lowLimit.toNat))
  | .stop => none
  | .miss =>
    if info.highLimit.toNat-info.need < mm.highestVmEnd then none
    else some (alignGapStart info (max mm.highestVmEnd info.lowLimit.toNat))

def downResult (info : VmUnmappedAreaInfo) (mm : Mm) (res : Result VmaId) : Option ℕ :=
  if mm.highestVmEnd ≤ info.highLimit.toNat-info.need then
    some (alignGapEnd info info.highLimit.toNat)
  else match res with
    | .hit x => some (alignGapEnd info (min (mm.vma x).vmStart info.highLimit.toNat))
    | _ => none

/-- With room between the limits both functions end, with the result of the recursive search. -/
theorem unmappedArea_open (ho : info.Open) :
    let n := info.need
    let low := info.lowLimit.toNat
    let high := info.highLimit.toNat
    (∃ N, ∀ fuel, N ≤ fuel → unmappedAreaLoop fuel mm info =
      some (upResult info mm (searched (upRules mm n (low+n) (high-n)) mm n mm.mmRb))) ∧
    (∃ N, ∀ fuel, N ≤ fuel → unmappedAreaTopdownLoop fuel mm info =
      some (downResult info mm
        (searched (downRules mm n (low+n) (high-n)) mm n (mirror mm.mmRb)))) := by
  intro n low high
  have hneed : wadd info.length.toNat info.alignMask.toNat = n := wadd_eq ho.need_lt
  have hlow := ho.low_le
  have hle := ho.need_le
  have hhigh := info.highLimit.isLt
  have hwrap : ¬ n < info.length.toNat := Nat.not_lt.mpr (Nat.le_add_right _ _)
  have hsub : wsub high n = high-n := wsub_eq hle hhigh
  have hadd : wadd low n = low+n := wadd_eq (by omega)
  constructor
  · obtain ⟨N, hN⟩ := searchFrom_eq (upRules mm n (low+n) (high-n)) mm n mm.mmRb
    refine ⟨N, fun fuel hf => ?_⟩
    unfold unmappedAreaLoop
    dsimp only
    rw [hneed, if_neg hwrap, if_neg (Nat.not_lt.mpr hle), hsub, if_neg (Nat.not_lt.mpr hlow),
      hadd, hN fuel hf]
    rfl
  · obtain ⟨N, hN⟩ := searchFrom_eq (downRules mm n (low+n) (high-n)) mm n (mirror mm.mmRb)
    refine ⟨N, fun fuel hf => ?_⟩
    unfold unmappedAreaTopdownLoop
    dsimp only
    rw [hneed, if_neg hwrap, if_neg (Nat.not_lt.mpr hle), hsub, if_neg (Nat.not_lt.mpr hlow),
      hadd, hN fuel hf]
    unfold downResult
    by_cases htop : mm.highestVmEnd ≤ high-n
    · rw [if_pos htop, if_pos htop]
    · rw [if_neg htop, if_neg htop]
      rfl

/-- Without alignment an address is usable exactly inside a gap. -/
theorem usable_gap (h : Wf mm L) (hzero : info.alignMask = 0) {b : ℕ} (hb : b ∈ info.usable mm L) :
    (∃ y ∈ L, RoomyBefore mm info.need info.lowLimit.toNat info.highLimit.toNat y ∧
      prevEnd mm y ≤ b ∧ b+info.length.toNat ≤ (mm.vma y).vmStart) ∨
    (mm.highestVmEnd ≤ b ∧
      Roomy info.need info.lowLimit.toNat info.highLimit.toNat (mm.highestVmEnd, 2^64)) := by
  have hneed : info.need = info.length.toNat := by
    unfold VmUnmappedAreaInfo.need
    rw [hzero]
    rfl
  have hlow := hb.low_le
  have hhigh := hb.le_high
  have hlt := info.highLimit.isLt
  rw [hneed]
  rcases hb.gap h with ⟨y, hy, h₁, h₂⟩ | hlast
  · refine .inl ⟨y, hy, ?_, h₁, h₂⟩
    unfold RoomyBefore Roomy
    omega
  · refine .inr ⟨hlast, ?_⟩
    unfold Roomy
    omega

theorem usable_hasGap (h : Wf mm L) (hzero : info.alignMask = 0) {b : ℕ}
    (hb : b ∈ info.usable mm L) :
    info.HasGap mm L := by
  have hneed : info.need < 2^64 := by
    unfold VmUnmappedAreaInfo.need
    rw [hzero]
    exact info.length.isLt
  unfold VmUnmappedAreaInfo.HasGap gaps
  rcases usable_gap h hzero hb with ⟨y, hy, hroom, -⟩ | ⟨-, hroom⟩
  · exact ⟨hneed, _, List.mem_append_left _ (List.mem_map_of_mem hy), hroom⟩
  · exact ⟨hneed, _, List.mem_append_right _ (List.mem_singleton_self _), hroom⟩

theorem areaSpec_none (hgap : ¬ info.HasGap mm L) : AreaSpec info mm L none :=
  ⟨fun _ ha => (nomatch ha), iff_of_true rfl hgap⟩

theorem areaSpec_some {a : ℕ} (hgap : info.HasGap mm L) (ha : a ∈ info.usable mm L)
    (hal : a &&& info.alignMask.toNat = info.alignOffset.toNat &&& info.alignMask.toNat) :
    AreaSpec info mm L (some a) := by
  refine ⟨fun b hb => ?_, iff_of_false (Option.some_ne_none a) (not_not_intro hgap)⟩
  obtain rfl : a = b := Option.some.inj hb
  exact ⟨ha, hal⟩

/-- The first gap with room gives the least address. -/
theorem upResult_spec (h : Wf mm L) (ho : info.Open) (hlen : info.length ≠ 0)
    (hmask : info.alignMask.toNat = 2^k-1) {res : Result VmaId}
    (hres : FirstRoomy mm L info.need info.lowLimit.toNat info.highLimit.toNat res) :
    AreaSpec info mm L (upResult info mm res) ∧
      (info.alignMask = 0 → (info.usable mm L).Nonempty →
        ∃ a, upResult info mm res = some a ∧ IsLeast (info.usable mm L) a) := by
  have hpos := need_pos hlen
  have hle := ho.need_le
  have hlow := ho.low_le
  have hhigh := info.highLimit.isLt
  have hneed : info.need = info.length.toNat+info.alignMask.toNat := rfl
  have hgap := @hasGap_iff mm L info ho hlen
  cases res with
  | hit x =>
    obtain ⟨A, B, hL, hroom, hA⟩ := hres
    have hx : x ∈ L := by simp [hL]
    have hroom' := (roomy_iff hpos hle hlow).mp hroom
    obtain ⟨h₁, h₂, h₃⟩ :=
      @alignGapStart_spec info k (max (prevEnd mm x) info.lowLimit.toNat) hmask (by omega)
    have husable : alignGapStart info (max (prevEnd mm x) info.lowLimit.toNat) ∈ info.usable mm L :=
      admissible_of_gap h hx (by omega) (by omega) (by omega) (by omega)
    refine ⟨areaSpec_some (hgap.mpr (.inl ⟨x, hx, hroom⟩)) husable h₃,
      fun hzero _ => ⟨_, rfl, husable, ?_⟩⟩
    intro b hb
    have hblow := hb.low_le
    rw [alignGapStart_zero hzero (by omega)]
    rcases usable_gap h hzero hb with ⟨y, hy, hroomy, hyb, -⟩ | ⟨hlast, -⟩
    · -- a gap before the first one with room is too small for `b`
      rw [hL] at hy
      have hlater : prevEnd mm x ≤ prevEnd mm y := by
        rcases List.mem_append.mp hy with hy | hy
        · exact absurd hroomy (hA y hy)
        rcases List.mem_cons.mp hy with rfl | hy
        · exact le_rfl
        · have hpair := hL ▸ pairwise_prevEnd h
          have hend := (List.pairwise_cons.mp (List.pairwise_append.mp hpair).2.1).1 y hy
          have hlt : (mm.vma x).vmStart < (mm.vma x).vmEnd := (h.ordered.area x hx).lt
          have hstart := prevEnd_le h hx
          omega
      omega
    · have hend := vmEnd_le_highest h hx
      have hlt : (mm.vma x).vmStart < (mm.vma x).vmEnd := (h.ordered.area x hx).lt
      have hstart := prevEnd_le h hx
      omega
  | stop =>
    obtain ⟨hnone, htop⟩ := hres
    have hno : ¬ info.HasGap mm L := by
      rw [hgap]
      rintro (⟨y, hy, hroom⟩ | hlast)
      · exact hnone y hy hroom
      · omega
    exact ⟨areaSpec_none hno, fun hzero ⟨b, hb⟩ => absurd (usable_hasGap h hzero hb) hno⟩
  | miss =>
    simp only [upResult]
    by_cases htop : info.highLimit.toNat-info.need < mm.highestVmEnd
    · have hno : ¬ info.HasGap mm L := by
        rw [hgap]
        rintro (⟨y, hy, hroom⟩ | hlast)
        · exact hres y hy hroom
        · omega
      rw [if_pos htop]
      exact ⟨areaSpec_none hno, fun hzero ⟨b, hb⟩ => absurd (usable_hasGap h hzero hb) hno⟩
    · obtain ⟨h₁, h₂, h₃⟩ :=
        @alignGapStart_spec info k (max mm.highestVmEnd info.lowLimit.toNat) hmask (by omega)
      have husable : alignGapStart info (max mm.highestVmEnd info.lowLimit.toNat) ∈
          info.usable mm L :=
        admissible_of_highest h (by omega) (by omega) (by omega)
      rw [if_neg htop]
      refine ⟨areaSpec_some (hgap.mpr (.inr (by omega))) husable h₃,
        fun hzero _ => ⟨_, rfl, husable, ?_⟩⟩
      intro b hb
      have hblow := hb.low_le
      rw [alignGapStart_zero hzero (by omega)]
      rcases usable_gap h hzero hb with ⟨y, hy, hroomy, -⟩ | ⟨hlast, -⟩
      · exact absurd hroomy (hres y hy)
      · omega

/-- The last gap with room gives the greatest address. -/
theorem downResult_spec (h : Wf mm L) (ho : info.Open) (hlen : info.length ≠ 0)
    (hmask : info.alignMask.toNat = 2^k-1) {res : Result VmaId}
    (hres : LastRoomy mm L info.need info.lowLimit.toNat info.highLimit.toNat res) :
    AreaSpec info mm L (downResult info mm res) ∧
      (info.alignMask = 0 → (info.usable mm L).Nonempty →
        ∃ a, downResult info mm res = some a ∧ IsGreatest (info.usable mm L) a) := by
  have hpos := need_pos hlen
  have hle := ho.need_le
  have hlow := ho.low_le
  have hhigh := info.highLimit.isLt
  have hneed : info.need = info.length.toNat+info.alignMask.toNat := rfl
  have hgap := @hasGap_iff mm L info ho hlen
  unfold downResult
  by_cases htop : mm.highestVmEnd ≤ info.highLimit.toNat-info.need
  · obtain ⟨h₁, h₂, h₃⟩ := @alignGapEnd_spec info k info.highLimit.toNat hmask hhigh hle
    have husable : alignGapEnd info info.highLimit.toNat ∈ info.usable mm L :=
      admissible_of_highest h (by omega) (by omega) (by omega)
    rw [if_pos htop]
    refine ⟨areaSpec_some (hgap.mpr (.inr htop)) husable h₃, fun hzero _ => ⟨_, rfl, husable, ?_⟩⟩
    intro b hb
    have hbhigh := hb.le_high
    rw [alignGapEnd_zero hzero hhigh (by omega)]
    omega
  rw [if_neg htop]
  have hnone
    (hall : ∀ y ∈ L, ¬ RoomyBefore mm info.need info.lowLimit.toNat info.highLimit.toNat y) :
      ¬ info.HasGap mm L := by
    rw [hgap]
    rintro (⟨y, hy, hroom⟩ | hlast)
    · exact hall y hy hroom
    · exact htop hlast
  cases res with
  | hit x =>
    obtain ⟨A, B, hL, hroom, hB⟩ := hres
    have hx : x ∈ L := by simp [hL]
    have hroom' := (roomy_iff hpos hle hlow).mp hroom
    have hstart : prevEnd mm x ≤ (mm.vma x).vmStart := prevEnd_le h hx
    obtain ⟨h₁, h₂, h₃⟩ :=
      @alignGapEnd_spec info k (min (mm.vma x).vmStart info.highLimit.toNat) hmask
      (by omega) (by omega)
    have husable : alignGapEnd info (min (mm.vma x).vmStart info.highLimit.toNat) ∈
        info.usable mm L :=
      admissible_of_gap h hx (by omega) (by omega) (by omega) (by omega)
    refine ⟨areaSpec_some (hgap.mpr (.inl ⟨x, hx, hroom⟩)) husable h₃,
      fun hzero _ => ⟨_, rfl, husable, ?_⟩⟩
    intro b hb
    have hbhigh := hb.le_high
    rw [alignGapEnd_zero hzero (by omega) (by omega)]
    rcases usable_gap h hzero hb with ⟨y, hy, hroomy, -, hyb⟩ | ⟨-, hlast⟩
    · -- a gap behind the last one with room is too small for `b`
      rw [hL] at hy
      have hearlier : (mm.vma y).vmStart ≤ (mm.vma x).vmStart := by
        rcases List.mem_append.mp hy with hy | hy
        · have hpair := hL ▸ pairwise_prevEnd h
          have hend := (List.pairwise_append.mp hpair).2.2 y hy x List.mem_cons_self
          have hlt : (mm.vma y).vmStart < (mm.vma y).vmEnd :=
            (h.ordered.area y (by simp [hL, hy])).lt
          omega
        rcases List.mem_cons.mp hy with rfl | hy
        · exact le_rfl
        · exact absurd hroomy (hB y hy)
      omega
    · exact absurd ((roomy_iff hpos hle hlow).mp hlast).2.1 htop
  | stop =>
    exact ⟨areaSpec_none (hnone hres), fun hzero ⟨b, hb⟩ =>
      absurd (usable_hasGap h hzero hb) (hnone hres)⟩
  | miss =>
    exact ⟨areaSpec_none (hnone hres), fun hzero ⟨b, hb⟩ =>
      absurd (usable_hasGap h hzero hb) (hnone hres)⟩

/-- `unmapped_area` ends with an address that is free and aligned, or with `-ENOMEM` exactly when no
gap is large enough; without alignment the address is the least one. -/
theorem unmappedArea_ends (mm : Mm) (L : List VmaId) (h : Wf mm L) (info : VmUnmappedAreaInfo)
    (hlen : info.length ≠ 0) (k : ℕ) (hmask : info.alignMask.toNat = 2^k-1) :
    ∃ r, (∃ N, ∀ fuel, N ≤ fuel → unmappedAreaLoop fuel mm info = some r) ∧ AreaSpec info mm L r ∧
      (info.alignMask = 0 → (info.usable mm L).Nonempty → ∃ a,
        r = some a ∧ IsLeast (info.usable mm L) a) := by
  by_cases ho : info.Open
  · have hres := firstRoomy_up h (need_pos hlen) ho.need_le ho.low_le
    exact ⟨_, (unmappedArea_open ho).1, upResult_spec h ho hlen hmask hres⟩
  · have hno : ¬ info.HasGap mm L := fun hgap => ho (hasGap_open hlen hgap)
    exact ⟨none, ⟨0, fun fuel _ => (unmappedArea_closed ho fuel).1⟩, areaSpec_none hno,
      fun hzero ⟨b, hb⟩ => absurd (usable_hasGap h hzero hb) hno⟩

/-- `unmapped_area_topdown` ends with an address that is free and aligned, or with `-ENOMEM` exactly
when `unmapped_area` does; without alignment the address is the greatest one. -/
theorem unmappedAreaTopdown_ends (mm : Mm) (L : List VmaId) (h : Wf mm L)
    (info : VmUnmappedAreaInfo) (hlen : info.length ≠ 0) (k : ℕ)
    (hmask : info.alignMask.toNat = 2^k-1) :
    ∃ r, (∃ N, ∀ fuel, N ≤ fuel → unmappedAreaTopdownLoop fuel mm info = some r) ∧
      AreaSpec info mm L r ∧
      (info.alignMask = 0 → (info.usable mm L).Nonempty → ∃ a,
        r = some a ∧ IsGreatest (info.usable mm L) a) ∧
      ∃ N, ∀ fuel, N ≤ fuel → (unmappedAreaLoop fuel mm info = some none ↔ r = none) := by
  by_cases ho : info.Open
  · have hup := firstRoomy_up h (need_pos hlen) ho.need_le ho.low_le
    have hdown := lastRoomy_down h (need_pos hlen) ho.need_le ho.low_le
    obtain ⟨hspec, hgreatest⟩ := downResult_spec h ho hlen hmask hdown
    obtain ⟨⟨N, hN⟩, hends⟩ := @unmappedArea_open mm info ho
    refine ⟨_, hends, hspec, hgreatest, N, fun fuel hf => ?_⟩
    rw [hN fuel hf, Option.some_inj, (upResult_spec h ho hlen hmask hup).1.none_iff, hspec.none_iff]
  · have hno : ¬ info.HasGap mm L := fun hgap => ho (hasGap_open hlen hgap)
    refine ⟨none, ⟨0, fun fuel _ => (unmappedArea_closed ho fuel).2⟩, areaSpec_none hno,
      fun hzero ⟨b, hb⟩ => absurd (usable_hasGap h hzero hb) hno, 0, fun fuel _ => ?_⟩
    exact iff_of_true (unmappedArea_closed ho fuel).1 rfl

def onePageInfo : VmUnmappedAreaInfo := ⟨0x1000, 0x1000, 0x20000, 0, 0⟩

def fourPageArea : Vma := { vmStart := 0x1000, vmEnd := 0x5000 }

theorem wf_fourPageArea : Wf (Mm.ofArea fourPageArea) [0] :=
  wf_ofArea ⟨by decide, by decide, by decide, by decide⟩

theorem usable_fourPageArea (a : ℕ) :
    a ∈ onePageInfo.usable (Mm.ofArea fourPageArea) [0] ↔ 0x5000 ≤ a ∧ a+0x1000 ≤ 0x20000 := by
  constructor
  · rintro ⟨hlow, hhigh, hfree⟩
    have hfree : 0x5000 ≤ a ∨ a+0x1000 ≤ 0x1000 := hfree 0 (List.mem_singleton.2 rfl)
    have hlow : 0x1000 ≤ a := hlow
    exact ⟨by omega, hhigh⟩
  · rintro ⟨hlow, hhigh⟩
    exact ⟨le_trans (by decide) hlow, hhigh,
      fun x hx => .inl (by rw [List.mem_singleton.1 hx]; exact hlow)⟩

theorem unmappedArea_ends_fourPages :
    ∃ N, ∀ fuel, N ≤ fuel → unmappedAreaLoop fuel (Mm.ofArea fourPageArea) onePageInfo =
      some (some 0x5000) := by
  obtain ⟨r, hends, -, hleast⟩ :=
    unmappedArea_ends _ _ wf_fourPageArea onePageInfo (by decide) 0 (by decide)
  have hin := (usable_fourPageArea 0x5000).2 (by decide)
  obtain ⟨a, rfl, ha⟩ := hleast rfl ⟨_, hin⟩
  rwa [le_antisymm (ha.2 hin) ((usable_fourPageArea a).1 ha.1).1] at hends

theorem unmappedAreaTopdown_ends_fourPages : ∃ N, ∀ fuel, N ≤ fuel →
    unmappedAreaTopdownLoop fuel (Mm.ofArea fourPageArea) onePageInfo = some (some 0x1f000) := by
  obtain ⟨r, hends, -, hgreatest, -⟩ :=
    unmappedAreaTopdown_ends _ _ wf_fourPageArea onePageInfo (by decide) 0 (by decide)
  have hin := (usable_fourPageArea 0x1f000).2 (by decide)
  obtain ⟨a, rfl, ha⟩ := hgreatest rfl ⟨_, hin⟩
  have hle : a ≤ 0x1f000 := by
    have := ((usable_fourPageArea a).1 ha.1).2
    omega
  rwa [le_antisymm hle (ha.2 hin)] at hends

end Results

/-! The searches without alignment, as `arch_get_unmapped_area` and its variant make them. -/

section Plain
variable {mm : Mm} {L : List VmaId} {len low high a : ℕ}

def plainInfo (len low high : ℕ) : VmUnmappedAreaInfo :=
  ⟨BitVec.ofNat 64 len, BitVec.ofNat 64 low, BitVec.ofNat 64 high, 0, 0⟩

def gapOf (mm : Mm) : Result VmaId → GapSearch
  | .hit x => .found (prevEnd mm x) (mm.vma x).vmStart
  | .stop => .stop
  | .miss => .next

theorem gapUp_eq (mm : Mm) (n lowLimit highLimit : ℕ) (t : AugTree VmaId) :
    gapUp mm n lowLimit highLimit t = gapOf mm ((upRules mm n lowLimit highLimit).search t) := by
  induction t with
  | nil => rfl
  | node l x r ihl ihr =>
    have hleft : (if lowLimit ≤ (mm.vma x).vmStart ∧ promising mm n l then
      gapUp mm n lowLimit highLimit l else .next)
        = gapOf mm (if (upRules mm n lowLimit highLimit).first x l then
          (upRules mm n lowLimit highLimit).search l else .miss) := by
      simp only [upRules, Bool.and_eq_true, decide_eq_true_eq]
      split
      · exact ihl
      · rfl
    simp only [gapUp, Rules.search, hleft]
    cases (if (upRules mm n lowLimit highLimit).first x l then
      (upRules mm n lowLimit highLimit).search l else .miss : Result VmaId) with
    | hit y => rfl
    | stop => rfl
    | miss =>
      simp only [gapOf, Rules.verdict]
      by_cases hstop : highLimit < prevEnd mm x
      · simp only [upRules, hstop, if_true]
      · by_cases htake : lowLimit ≤ (mm.vma x).vmStart ∧ n ≤ wsub (mm.vma x).vmStart (prevEnd mm x)
        · simp only [upRules, hstop, htake, if_true, if_false, and_self]
        · have htest : (upRules mm n lowLimit highLimit).test x = .next := by
            simp only [upRules, hstop, htake, if_false]
          rw [htest, if_neg hstop, if_neg htake]
          change _ = gapOf mm (if promising mm n r then _ else _)
          split
          · exact ihr
          · rfl

theorem gapDown_eq (mm : Mm) (n lowLimit highLimit : ℕ) (t : AugTree VmaId) :
    gapDown mm n lowLimit highLimit t =
      gapOf mm ((downRules mm n lowLimit highLimit).search (mirror t)) := by
  have hpromising (t : AugTree VmaId) : promising mm n (mirror t) = promising mm n t := by
    cases t <;> rfl
  induction t with
  | nil => rfl
  | node l x r ihl ihr =>
    have hright : (if prevEnd mm x ≤ highLimit ∧ promising mm n r then
      gapDown mm n lowLimit highLimit r else .next)
        = gapOf mm (if (downRules mm n lowLimit highLimit).first x (mirror r) then
          (downRules mm n lowLimit highLimit).search (mirror r) else .miss) := by
      simp only [downRules, hpromising, Bool.and_eq_true, decide_eq_true_eq]
      split
      · exact ihr
      · rfl
    simp only [gapDown, mirror, Rules.search, hright]
    cases (if (downRules mm n lowLimit highLimit).first x (mirror r) then
      (downRules mm n lowLimit highLimit).search (mirror r) else .miss : Result VmaId) with
    | hit y => rfl
    | stop => rfl
    | miss =>
      simp only [gapOf, Rules.verdict]
      by_cases hstop : (mm.vma x).vmStart < lowLimit
      · simp only [downRules, hstop, if_true]
      · by_cases htake : prevEnd mm x ≤ highLimit ∧ n ≤ wsub (mm.vma x).vmStart (prevEnd mm x)
        · simp only [downRules, hstop, htake, if_true, if_false, and_self]
        · have htest : (downRules mm n lowLimit highLimit).test x = .next := by
            simp only [downRules, hstop, htake, if_false]
          rw [htest, if_neg hstop, if_neg htake]
          change _ = gapOf mm (if promising mm n (mirror l) then _ else _)
          rw [hpromising]
          split
          · exact ihl
          · rfl

structure FitsWord (len low high : ℕ) : Prop where
  len_lt : len < 2^64
  low_lt : low < 2^64
  high_lt : high < 2^64

section
variable (hf : FitsWord len low high)
include hf

theorem plainInfo_length : (plainInfo len low high).length.toNat = len := by
  rw [plainInfo, BitVec.toNat_ofNat, Nat.mod_eq_of_lt hf.len_lt]

theorem plainInfo_low : (plainInfo len low high).lowLimit.toNat = low := by
  rw [plainInfo, BitVec.toNat_ofNat, Nat.mod_eq_of_lt hf.low_lt]

theorem plainInfo_high : (plainInfo len low high).highLimit.toNat = high := by
  rw [plainInfo, BitVec.toNat_ofNat, Nat.mod_eq_of_lt hf.high_lt]

theorem plainInfo_need : (plainInfo len low high).need = len := by
  rw [VmUnmappedAreaInfo.need, plainInfo_length hf]
  rfl

theorem plainInfo_open : (plainInfo len low high).Open ↔ ¬ (high < len ∨ high-len < low) := by
  have hlt := hf.len_lt
  constructor
  · intro ho
    have hle := ho.need_le
    have hlow := ho.low_le
    rw [plainInfo_need hf, plainInfo_high hf] at hle hlow
    rw [plainInfo_low hf] at hlow
    omega
  · intro ho
    constructor
    · rwa [plainInfo_need hf]
    · rw [plainInfo_need hf, plainInfo_high hf]
      omega
    · rw [plainInfo_need hf, plainInfo_high hf, plainInfo_low hf]
      omega

theorem plainInfo_usable :
    (plainInfo len low high).usable mm L = { a | Admissible mm L len low high a } := by
  rw [VmUnmappedAreaInfo.usable, plainInfo_length hf, plainInfo_low hf, plainInfo_high hf]

end

theorem searched_gapOf (mm : Mm) (R : Rules VmaId) (n : ℕ) (t : AugTree VmaId) :
    (if promising mm n t then gapOf mm (R.search t) else .next) = gapOf mm (searched R mm n t) := by
  unfold searched
  split <;> rfl

theorem gap_lt (h : Wf mm L) : mm.highestVmEnd < 2^64 := by
  rw [h.highest]
  unfold topEnd
  cases hl : L.getLast? with
  | none => exact Nat.two_pow_pos 64
  | some x => exact (h.ordered.area x (List.mem_of_getLast? hl)).end_lt

/-- With room between the limits, `unmapped_area` without alignment is the recursion of
`GapSearch`. -/
theorem unmappedArea_eq (h : Wf mm L) (hf : FitsWord len low high) (hpos : 0 < len)
    (ho : (plainInfo len low high).Open) :
    unmappedArea mm len low high =
      upResult (plainInfo len low high) mm
        (searched (upRules mm len (low+len) (high-len)) mm len mm.mmRb) := by
  have hlow := hf.low_lt
  have hclosed := (plainInfo_open hf).mp ho
  have hres := firstRoomy_up h hpos (show len ≤ high by omega) (show low ≤ high-len by omega)
  unfold unmappedArea
  rw [if_neg hclosed]
  dsimp only
  rw [gapUp_eq, searched_gapOf]
  cases hsearch : searched (upRules mm len (low+len) (high-len)) mm len mm.mmRb with
  | hit x =>
    rw [hsearch] at hres
    obtain ⟨A, B, hL, -⟩ := hres
    have hx : x ∈ L := by simp [hL]
    have harea := h.ordered.area x hx
    have hstart : (mm.vma x).vmStart < 2^64 := lt_trans harea.lt harea.end_lt
    have hle := prevEnd_le h hx
    simp only [gapOf, upResult]
    rw [plainInfo_low hf, alignGapStart_zero rfl (by omega)]
  | stop => rfl
  | miss =>
    have htop := gap_lt h
    simp only [gapOf, upResult]
    rw [plainInfo_need hf, plainInfo_high hf, plainInfo_low hf, alignGapStart_zero rfl (by omega)]

theorem unmappedAreaTopdown_eq (h : Wf mm L) (hf : FitsWord len low high) (hpos : 0 < len)
    (ho : (plainInfo len low high).Open) :
    unmappedAreaTopdown mm len low high =
      downResult (plainInfo len low high) mm
        (searched (downRules mm len (low+len) (high-len)) mm len (mirror mm.mmRb)) := by
  have hhigh := hf.high_lt
  have hclosed := (plainInfo_open hf).mp ho
  have hres := lastRoomy_down h hpos (show len ≤ high by omega) (show low ≤ high-len by omega)
  have hpromising : promising mm len mm.mmRb = promising mm len (mirror mm.mmRb) := by
    cases mm.mmRb <;> rfl
  have hend (ge : ℕ) (hge : ge < 2^64) (hle : len ≤ ge) :
      alignGapEnd (plainInfo len low high) ge = ge-len := by
    rw [alignGapEnd_zero rfl hge (by rwa [plainInfo_length hf]), plainInfo_length hf]
  unfold unmappedAreaTopdown downResult
  rw [if_neg hclosed, plainInfo_need hf, plainInfo_high hf, hend high hhigh (by omega)]
  split
  · rfl
  dsimp only
  rw [gapDown_eq, hpromising, searched_gapOf]
  cases hsearch : searched (downRules mm len (low+len) (high-len)) mm len (mirror mm.mmRb) with
  | hit x =>
    rw [hsearch] at hres
    obtain ⟨A, B, -, hroom, -⟩ := hres
    have hroom' := (roomy_iff hpos (by omega) (by omega)).mp hroom
    simp only [gapOf]
    rw [hend _ (by omega) (by omega)]
  | stop => rfl
  | miss => rfl

/-- The loop without alignment is the search `arch_get_unmapped_area` makes. -/
theorem unmappedAreaLoop_plain (h : Wf mm L) (hf : FitsWord len low high) (hpos : 0 < len) :
    (∃ N, ∀ fuel, N ≤ fuel →
      unmappedAreaLoop fuel mm (plainInfo len low high) = some (unmappedArea mm len low high)) ∧
    (∃ N, ∀ fuel, N ≤ fuel →
      unmappedAreaTopdownLoop fuel mm (plainInfo len low high) =
        some (unmappedAreaTopdown mm len low high)) := by
  by_cases ho : (plainInfo len low high).Open
  · have hopen := @unmappedArea_open mm _ ho
    dsimp only at hopen
    rw [plainInfo_need hf, plainInfo_low hf, plainInfo_high hf] at hopen
    rw [unmappedArea_eq h hf hpos ho, unmappedAreaTopdown_eq h hf hpos ho]
    exact hopen
  · have hclosed : high < len ∨ high-len < low :=
      not_not.mp (fun hn => ho ((plainInfo_open hf).mpr hn))
    unfold unmappedArea unmappedAreaTopdown
    rw [if_pos hclosed, if_pos hclosed]
    exact ⟨⟨0, fun fuel _ => (unmappedArea_closed ho fuel).1⟩,
      ⟨0, fun fuel _ => (unmappedArea_closed ho fuel).2⟩⟩

/-- Both searches find an admissible address if there is one, the least and the greatest. -/
theorem unmappedArea_extreme (h : Wf mm L) (hf : FitsWord len low high) (hpos : 0 < len) :
    ((∀ a, unmappedArea mm len low high = some a → IsLeast { b | Admissible mm L len low high b } a)
      ∧ ∀ b, Admissible mm L len low high b → unmappedArea mm len low high ≠ none) ∧
    (∀ a, unmappedAreaTopdown mm len low high = some a →
      IsGreatest { b | Admissible mm L len low high b } a) ∧
      ∀ b, Admissible mm L len low high b → unmappedAreaTopdown mm len low high ≠ none := by
  by_cases ho : (plainInfo len low high).Open
  · have hclosed := (plainInfo_open hf).mp ho
    have hlen : (plainInfo len low high).length ≠ 0 := by
      intro hz
      have hlength := plainInfo_length hf
      rw [hz] at hlength
      exact hpos.ne hlength
    have hmask : (plainInfo len low high).alignMask.toNat = 2^0-1 := rfl
    have hup : FirstRoomy mm L (plainInfo len low high).need (plainInfo len low high).lowLimit.toNat
        (plainInfo len low high).highLimit.toNat
        (searched (upRules mm len (low+len) (high-len)) mm len mm.mmRb) := by
      rw [plainInfo_need hf, plainInfo_low hf, plainInfo_high hf]
      exact firstRoomy_up h hpos (by omega) (by omega)
    have hdown :
        LastRoomy mm L (plainInfo len low high).need (plainInfo len low high).lowLimit.toNat
          (plainInfo len low high).highLimit.toNat
          (searched (downRules mm len (low+len) (high-len)) mm len (mirror mm.mmRb)) := by
      rw [plainInfo_need hf, plainInfo_low hf, plainInfo_high hf]
      exact lastRoomy_down h hpos (by omega) (by omega)
    obtain ⟨hfirst, hleast⟩ := upResult_spec h ho hlen hmask hup
    obtain ⟨hlast, hgreatest⟩ := downResult_spec h ho hlen hmask hdown
    rw [unmappedArea_eq h hf hpos ho, unmappedAreaTopdown_eq h hf hpos ho]
    have husable := @plainInfo_usable mm L len low high hf
    rw [husable] at hleast hgreatest
    refine ⟨⟨fun a ha => ?_, fun b hb => ?_⟩, fun a ha => ?_, fun b hb => ?_⟩
    · have hmem := (hfirst.found a ha).1
      rw [husable] at hmem
      obtain ⟨a', ha', hmin⟩ := hleast rfl ⟨a, hmem⟩
      rwa [Option.some.inj (ha.symm.trans ha')]
    · obtain ⟨a, ha, -⟩ := hleast rfl ⟨b, hb⟩
      rw [ha]
      simp
    · have hmem := (hlast.found a ha).1
      rw [husable] at hmem
      obtain ⟨a', ha', hmax⟩ := hgreatest rfl ⟨a, hmem⟩
      rwa [Option.some.inj (ha.symm.trans ha')]
    · obtain ⟨a, ha, -⟩ := hgreatest rfl ⟨b, hb⟩
      rw [ha]
      simp
  · have hclosed : high < len ∨ high-len < low :=
      not_not.mp (fun hn => ho ((plainInfo_open hf).mpr hn))
    have hno (b : ℕ) (hb : Admissible mm L len low high b) : False := by
      have hlow := hb.low_le
      have hhigh := hb.le_high
      omega
    unfold unmappedArea unmappedAreaTopdown
    rw [if_pos hclosed, if_pos hclosed]
    exact ⟨⟨fun _ ha => (nomatch ha), fun b hb => (hno b hb).elim⟩,
      fun _ ha => (nomatch ha), fun b hb => (hno b hb).elim⟩

end Plain

end PtraceRemote
