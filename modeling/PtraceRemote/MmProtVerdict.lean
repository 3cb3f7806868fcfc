import PtraceRemote.MmProtView
import PtraceRemote.MmVerdict

/-! `mprotect` and the limits of `current`: each area of the range meets the test of `RLIMIT_DATA`
in turn, and by then the pages before it are data already. The first area that is refused decides
how the call ends. -/
namespace PtraceRemote

open AugTree (Balance)
open Verdict

variable {mm mm₀ : Mm} {s s' : MmSys} {rb : Balance VmaId} {env : MmEnv} {conf : MmConf}
  {L L₀ L' A B B' : List VmaId} {x y z : VmaId} {q : MergeReq} {start end_ nstart addr len a b : ℕ}
  {flags newflags : VmFlags} {prot : Bits} {P : VmFlags → Bool} {core core' : VmaId → Vma}
  {prev : Option VmaId}

def turnsData (flags : VmFlags) : Bool :=
  !flags.has VM_WRITE && !flags.has VM_SHARED && !flags.has VM_GROWSDOWN

def fixupRefused (env : MmEnv) (mm : Mm) (oldflags newflags : VmFlags) (nrpages : BitVec 64) :
    Bool :=
  newflags.has VM_WRITE && !mayExpandVm env mm newflags nrpages &&
    mayExpandVm env mm oldflags nrpages

def protRefused (env : MmEnv) (mm : Mm) (prot : Bits) (start end_ : ℕ) (x : VmaId) : Bool :=
  let v := mm.vma x
  let nstart := max start v.vmStart
  let dataVm := mm.dataVm+BitVec.ofNat 64 (mm.pagesIn turnsData start nstart).card
  decide (start < v.vmEnd) && decide (v.vmStart < end_) &&
    fixupRefused env { mm with dataVm := dataVm } v.vmFlags (protFlags env v prot)
      (BitVec.ofNat 64 ((min v.vmEnd end_-nstart)/4096))

/-! One area. -/

def fixupGranted (rb : Balance VmaId) (env : MmEnv) (s : MmSys) (x : VmaId) (prev : Option VmaId)
    (start end_ : ℕ) (newflags : VmFlags) : ℤ × Option VmaId × MmSys :=
  let oldflags := (s.mm.vma x).vmFlags
  let nrpages := (end_-start)/4096
  if newflags = oldflags then (0, some x, s)
  else if newflags.has VM_WRITE ∧
      oldflags.has (VM_ACCOUNT ||| VM_WRITE ||| VM_HUGETLB ||| VM_SHARED ||| VM_NORESERVE)
      = false then
    let charge := vmEnoughMemory s nrpages
    if charge.1 ≠ 0 then (-ENOMEM, prev, charge.2)
    else protApply rb env.conf charge.2 x prev start end_ (newflags ||| VM_ACCOUNT) nrpages
  else protApply rb env.conf s x prev start end_ newflags 0

theorem mprotectFixup_eq (rb : Balance VmaId) (env : MmEnv) (s : MmSys) (x : VmaId)
    (prev : Option VmaId) (start end_ : ℕ) (newflags : VmFlags) :
    mprotectFixup rb env s x prev start end_ newflags =
      if fixupRefused env s.mm (s.mm.vma x).vmFlags newflags (BitVec.ofNat 64 ((end_-start)/4096))
        then (-ENOMEM, prev, s)
      else fixupGranted rb env s x prev start end_ newflags := by
  unfold mprotectFixup fixupGranted fixupRefused
  dsimp only
  by_cases heq : newflags = (s.mm.vma x).vmFlags
  · -- the same flags get the same answer
    rw [if_pos heq, if_pos heq, ← heq, if_neg]
    cases mayExpandVm env s.mm newflags (BitVec.ofNat 64 ((end_-start)/4096)) <;> simp
  · rw [if_neg heq, if_neg heq]
    refine if_congr ?_ rfl rfl
    simp only [Bool.and_eq_true, Bool.not_eq_true', and_assoc]

/-! What is behind the area that has been changed up to its end. -/

def Behind (core core' : VmaId → Vma) (B B' : List VmaId) (y : VmaId) (end_ : ℕ) (flags : VmFlags) :
    Prop :=
  (∀ z ∈ B', core' z = core z) ∧ (B' = B ∧ (core' y).vmEnd = end_ ∨
    ∃ n, B = n :: B' ∧ (core n).vmStart = end_ ∧ (core' y).vmEnd = (core n).vmEnd ∧
      cleanFlags (core n).vmFlags = cleanFlags flags)

theorem update_behind {v : Vma} (hy : y ∉ B) : ∀ z ∈ B, Function.update core y v z = core z := by
  intro z hz
  refine Function.update_of_ne ?_ _ _
  rintro rfl
  exact hy hz

theorem InsideMerge.behind {v : VmaId} {k : ℤ} (h : InsideMerge core q A x B v L' core' k)
    (hnd : (A ++ x :: B).Nodup) (hend : q.end_ = (core x).vmEnd) :
    ∃ A' B', L' = A' ++ v :: B' ∧ Behind core core' B B' v q.end_ q.vmFlags := by
  have hxB := (notMem_of_nodup hnd).2
  have hB := (List.nodup_cons.1 (List.nodup_append.1 hnd).2.1).2
  have hA : ∀ p ∈ A, p ∉ B :=
    fun p hp hpB => (List.nodup_append.1 hnd).2.2 p hp p (by simp [hpB]) rfl
  cases h with
  | @case4 B' _ hcons hs he hj =>
    subst hcons
    have hv := (List.nodup_cons.1 hB).1
    refine ⟨A ++ [x], B', by simp, fun z hz => ?_, .inr ⟨v, rfl, hj.at_end.symm, ?_, hj.flags⟩⟩
    · rw [shifted, update_behind hv z hz, update_behind (fun hx => hxB (by simp [hx])) z hz]
    · rw [shifted, Function.update_self]
  | case5 hcons hs he hj => exact absurd hend he.ne
  | @case6 A' B' _ n hA' hB' hs he hj hj' =>
    subst hA' hB'
    have hv : v ∉ B' := fun hv => hA v (by simp) (by simp [hv])
    refine ⟨A', B', by simp, update_behind hv, .inr ⟨n, rfl, hj'.at_end.symm, ?_, hj'.flags⟩⟩
    rw [Function.update_self]
  | @case7 A' _ hA' hs he hj =>
    subst hA'
    refine ⟨A', B, by simp, update_behind (hA v (by simp)), .inl ⟨rfl, ?_⟩⟩
    rw [Function.update_self, hend]
  | @case8 B' _ hB' hs he hj =>
    subst hB'
    refine ⟨A, B', rfl, update_behind (List.nodup_cons.1 hB).1,
      .inr ⟨v, rfl, hj.at_end.symm, ?_, hj.flags⟩⟩
    rw [Function.update_self]

/-- Cutting off the start of `x` leaves what is behind it. -/
theorem protSplit_behind (rb : Balance VmaId) (conf : MmConf) (h : Wf s.mm (A ++ x :: B))
    (hr : RangeOk start end_) (hs : (s.mm.core x).vmStart ≤ start)
    (hend : end_ = (s.mm.core x).vmEnd) (hz : (protSplit rb conf s x start end_).1 = 0) :
    ∃ A', Wf (protSplit rb conf s x start end_).2.mm (A' ++ x :: B) ∧
      (protSplit rb conf s x start end_).2.mm.totalVm = s.mm.totalVm ∧
      Behind s.mm.core (protSplit rb conf s x start end_).2.mm.core B B x end_ flags := by
  revert hz
  unfold protSplit
  dsimp only
  by_cases hne : start ≠ (s.mm.vma x).vmStart
  · rw [if_pos hne]
    have hlt : (s.mm.core x).vmStart < start := lt_of_le_of_ne hs (Ne.symm hne)
    have hlt' : start < (s.mm.core x).vmEnd := hend ▸ hr.lt
    rcases splitVma_spec rb conf true h hlt hlt' hr.start_dvd with ⟨hfail, -⟩ | ⟨hok, n, hsplit⟩
    · rw [if_pos hfail]
      intro hz
      exact absurd hz hfail
    · have hkept : (splitVma rb conf s x start true).2.mm.core x = (s.mm.core x).upper start :=
        hsplit.kept
      have hxend : ((splitVma rb conf s x start true).2.mm.vma x).vmEnd = end_ :=
        (congrArg Vma.vmEnd hkept :).trans hend.symm
      rw [if_neg (not_not.2 hok), if_neg (not_not.2 hxend.symm)]
      intro _
      refine ⟨A ++ [n], by simpa [halves] using hsplit.wf, (congrArg Mm.totalVm hsplit.rest :),
        fun z hz => ?_, .inl ⟨rfl, hxend⟩⟩
      exact hsplit.other z (by simp [hz])
  · have hxend : end_ = (s.mm.vma x).vmEnd := hend
    rw [if_neg hne, if_neg (fun h0 => h0 rfl)]
    dsimp only
    rw [if_neg (not_not.2 hxend)]
    intro _
    exact ⟨A, h, rfl, fun _ _ => rfl, .inl ⟨rfl, hend.symm⟩⟩

/-- Setting the flags of `y` in the end. -/
theorem protDone_behind {oldflags : VmFlags} (h : Wf s.mm (A ++ y :: B')) (n : BitVec 64)
    (hb : Behind core s.mm.core B B' y end_ flags) :
    Wf (protDone s y oldflags newflags n).mm (A ++ y :: B') ∧
      (protDone s y oldflags newflags n).mm.totalVm = s.mm.totalVm ∧
      Behind core (protDone s y oldflags newflags n).mm.core B B' y end_ flags := by
  obtain ⟨hwf, hcore, hcount, -⟩ := protDone_spec oldflags newflags h n
  have htotal := congrArg (fun l : Ledger => l.1) hcount
  simp only [counters, statVec, Prod.fst_add, Prod.fst_sub, sub_self, add_zero] at htotal
  refine ⟨hwf, htotal, fun z hz => ?_, ?_⟩
  · rw [hcore, update_behind h.rep.notMem.2 z hz, hb.1 z hz]
  · rw [hcore, Function.update_self]
    exact hb.2

theorem protApply_behind (rb : Balance VmaId) (conf : MmConf) {charged : ℤ}
    (h : Wf s.mm (A ++ x :: B)) (hr : RangeOk start end_) (hs : (s.mm.core x).vmStart ≤ start)
    (hend : end_ = (s.mm.core x).vmEnd) (hprev : PrevOf s.mm.core A x start prev)
    (hz : (protApply rb conf s x prev start end_ flags charged).1 = 0) :
    ∃ A' y B', (protApply rb conf s x prev start end_ flags charged).2.1 = some y ∧
      Wf (protApply rb conf s x prev start end_ flags charged).2.2.mm (A' ++ y :: B') ∧
      (protApply rb conf s x prev start end_ flags charged).2.2.mm.totalVm = s.mm.totalVm ∧
      Behind s.mm.core (protApply rb conf s x prev start end_ flags charged).2.2.mm.core B B' y
        end_ flags := by
  revert hz
  unfold protApply
  dsimp only
  set q : MergeReq := ⟨start, end_, flags, (s.mm.vma x).anonVma, (s.mm.vma x).vmFile,
    (s.mm.vma x).vmPgoff+BitVec.ofNat 64 ((start-(s.mm.vma x).vmStart)/4096), (s.mm.vma x).policy,
    (s.mm.vma x).uffdCtx⟩ with hq
  rcases vmaMerge_inside (q := q) rb h hr hend.le hprev rfl with
    ⟨hnone, hquiet⟩ | ⟨v, L', core', k, hsome, hm, hadj⟩
  · rw [hnone]
    dsimp only
    generalize (vmaMerge rb s prev q).2 = s₁ at hquiet
    have hcore := hquiet.core
    have htotal : s₁.mm.totalVm = s.mm.totalVm := (congrArg Mm.totalVm hquiet.rest :)
    by_cases hz : (protSplit rb conf s₁ x start end_).1 = 0
    · rw [if_neg (not_not.2 hz)]
      intro _
      obtain ⟨A', hwf, hsame, hb⟩ :=
        protSplit_behind rb conf (hquiet.wf h) hr (by rwa [hcore]) (by rwa [hcore]) hz
      rw [hcore] at hb
      obtain ⟨hwf', hsame', hb'⟩ := protDone_behind hwf (BitVec.ofNat 64 ((end_-start)/4096)) hb
      exact ⟨A', x, B, rfl, hwf', by rw [hsame', hsame, htotal], hb'⟩
    · rw [if_pos hz]
      intro hz'
      exact absurd hz' hz
  · rw [hsome]
    intro _
    obtain ⟨A', B', rfl, hb⟩ := hm.behind h.rep.nodup hend
    rw [← hadj.core] at hb
    have htotal : (vmaMerge rb s prev q).2.mm.totalVm = s.mm.totalVm :=
      (congrArg Mm.totalVm hadj.rest :)
    obtain ⟨hwf', hsame', hb'⟩ := protDone_behind hadj.wf (BitVec.ofNat 64 ((end_-start)/4096)) hb
    exact ⟨A', v, B', rfl, hwf', hsame'.trans htotal, hb'⟩

/-- What changing an area up to its end has done to the counters and to what is behind it. -/
theorem fixupGranted_behind (rb : Balance VmaId) (env : MmEnv) (h : Wf s.mm (A ++ x :: B))
    (hr : RangeOk start end_) (hs : (s.mm.core x).vmStart ≤ start)
    (hend : end_ = (s.mm.core x).vmEnd) (hprev : PrevOf s.mm.core A x start prev)
    (hz : (fixupGranted rb env s x prev start end_ newflags).1 = 0) :
    ∃ A' y B' flags, (fixupGranted rb env s x prev start end_ newflags).2.1 = some y ∧
      Wf (fixupGranted rb env s x prev start end_ newflags).2.2.mm (A' ++ y :: B') ∧
      (fixupGranted rb env s x prev start end_ newflags).2.2.mm.totalVm = s.mm.totalVm ∧
      (fixupGranted rb env s x prev start end_ newflags).2.2.mm.dataVm =
        s.mm.dataVm+dataShift (s.mm.vma x).vmFlags newflags (BitVec.ofNat 64 ((end_-start)/4096)) ∧
      flags.has VM_WRITE = newflags.has VM_WRITE ∧
      Behind s.mm.core (fixupGranted rb env s x prev start end_ newflags).2.2.mm.core B B' y
        end_ flags := by
  generalize hres : fixupGranted rb env s x prev start end_ newflags = r at hz ⊢
  unfold fixupGranted at hres
  dsimp only at hres
  rcases ite_eq_iff.1 hres with ⟨heq, rfl⟩ | ⟨-, hres⟩
  · refine ⟨A, x, B, newflags, rfl, h, rfl, ?_, rfl, fun _ _ => rfl, .inl ⟨rfl, hend.symm⟩⟩
    rw [heq, dataShift, sub_self]
    exact (BitVec.add_zero _).symm
  rcases ite_eq_iff.1 hres with ⟨-, hres⟩ | ⟨-, hres⟩
  · obtain ⟨hmm, -⟩ := vmEnoughMemory_spec (G := True) h ((end_-start)/4096 : ℕ)
    rcases ite_eq_iff.1 hres with ⟨-, rfl⟩ | ⟨-, hres⟩
    · exact absurd hz (show -ENOMEM ≠ 0 by decide)
    subst hres
    have hdata :=
      protApply_data rb env.conf _ (by rwa [hmm]) hr (by rwa [hmm]) (by rw [hmm]; exact hend.le)
      (by rwa [hmm]) hz
    obtain ⟨A', y, B', hy, hwf, htotal, hb⟩ :=
      protApply_behind rb env.conf (by rwa [hmm]) hr (by rwa [hmm]) (by rwa [hmm]) (by rwa [hmm]) hz
    rw [hmm] at hdata htotal hb
    refine ⟨A', y, B', newflags ||| VM_ACCOUNT, hy, hwf, htotal, ?_,
      has_or_of_disjoint (by decide), hb⟩
    rw [hdata, dataShift, isDataMapping_or (by decide), dataShift]
  · subst hres
    have hdata := protApply_data rb env.conf 0 h hr hs hend.le hprev hz
    obtain ⟨A', y, B', hy, hwf, htotal, hb⟩ := protApply_behind rb env.conf h hr hs hend hprev hz
    exact ⟨A', y, B', newflags, hy, hwf, htotal, hdata, rfl, hb⟩

/-! Counting the pages that have become data. -/

theorem card_pagesIn_split (mm : Mm) (P : VmFlags → Bool) (hs : start ≤ a) (hb : a ≤ b) :
    (mm.pagesIn P start b).card = (mm.pagesIn P start a).card+(mm.pagesIn P a b).card := by
  have h₁ : start/4096 ≤ a/4096 := Nat.div_le_div_right hs
  have h₂ : a/4096 ≤ b/4096 := Nat.div_le_div_right hb
  unfold Mm.pagesIn
  rw [← Finset.Ico_union_Ico_eq_Ico h₁ h₂, Finset.filter_union]
  apply Finset.card_union_of_disjoint
  exact Finset.disjoint_filter_filter (Finset.Ico_disjoint_Ico_consecutive _ _ _)

/-- In an area all pages have the same flags. -/
theorem card_pagesIn_area (h : Wf mm L) (hx : x ∈ L) (hs : (mm.core x).vmStart ≤ a)
    (he : b ≤ (mm.core x).vmEnd) (ha : 4096 ∣ a) (hb : 4096 ∣ b) :
    (mm.pagesIn P a b).card = if P (mm.vma x).vmFlags then (b-a)/4096 else 0 := by
  have hview : ∀ p ∈ Finset.Ico (a/4096) (b/4096),
      ((mm.view p).any fun i => P i.flags) = P (mm.vma x).vmFlags := by
    intro p hp
    rw [Finset.mem_Ico] at hp
    have hcov : (mm.core x).covers p := ⟨by omega, by omega⟩
    rw [(view_eq_some h).2 ⟨x, hx, hcov, rfl⟩, Option.any_some]
    rfl
  unfold Mm.pagesIn
  rw [Finset.filter_congr fun p hp => by rw [hview p hp]]
  split
  next hP =>
    rw [Finset.filter_true_of_mem fun _ _ => hP, Nat.card_Ico]
    omega
  next hP => rw [Finset.filter_false_of_mem fun _ _ => hP, Finset.card_empty]

theorem protFlags_write (v : Vma) : (protFlags env v prot).has VM_WRITE = prot.has PROT_WRITE := by
  have hbits :
      (protFlags env v prot).has VM_WRITE = (protBits env prot v.vmFlags).has VM_WRITE := by
    rw [← protFlags_bits, has_and (by decide)]
  rw [hbits, protBits]
  split <;> split <;> split <;> simp_all [VmFlags.has, VM_READ, VM_WRITE, VM_EXEC]

/-- The pages that become data are those that `data_vm` gains. -/
theorem dataShift_writable (v : Vma) (n : BitVec 64) (hw : prot.has PROT_WRITE = true) :
    dataShift v.vmFlags (protFlags env v prot) n = if turnsData v.vmFlags then n else 0 := by
  have hshared : (protFlags env v prot).has VM_SHARED = v.vmFlags.has VM_SHARED :=
    protFlags_has (by decide)
  have hstack : (protFlags env v prot).has VM_GROWSDOWN = v.vmFlags.has VM_GROWSDOWN :=
    protFlags_has (by decide)
  rw [dataShift, isDataMapping_eq, isDataMapping_eq, protFlags_write, hw, hshared,
    hstack, turnsData]
  cases v.vmFlags.has VM_WRITE <;> cases v.vmFlags.has VM_SHARED <;>
    cases v.vmFlags.has VM_GROWSDOWN <;> simp

/-! The loop. -/

structure ProtWalk (mm₀ : Mm) (L₀ : List VmaId) (prot : Bits) (start : ℕ) (s : MmSys)
    (A : List VmaId) (x : VmaId) (B : List VmaId) (nstart : ℕ) (prev : Option VmaId) : Prop where
  wf : Wf s.mm (A ++ x :: B)
  suffix : x :: B <:+ L₀
  core : ∀ z ∈ x :: B, s.mm.core z = mm₀.core z
  prev : PrevOf s.mm.core A x nstart prev
  here : nstart = max start (mm₀.core x).vmStart
  lt : nstart < (mm₀.core x).vmEnd
  dvd : 4096 ∣ nstart
  total : s.mm.totalVm = mm₀.totalVm
  data : prot.has PROT_WRITE = true →
    s.mm.dataVm = mm₀.dataVm+BitVec.ofNat 64 (mm₀.pagesIn turnsData start nstart).card

theorem mayExpandVm_counters {mm' : Mm} {n : BitVec 64} (htotal : mm'.totalVm = mm.totalVm)
    (hdata : mm'.dataVm = mm.dataVm) :
    mayExpandVm env mm' flags n = mayExpandVm env mm flags n := by
  unfold mayExpandVm
  rw [htotal, hdata]

/-- What the test of a round says can be read off the address space before. -/
theorem ProtWalk.refused (h : ProtWalk mm₀ L₀ prot start s A x B nstart prev) (env : MmEnv)
    (hlt : nstart < end_) :
    fixupRefused env s.mm (s.mm.vma x).vmFlags (protFlags env (s.mm.vma x) prot)
      (BitVec.ofNat 64 ((min (s.mm.vma x).vmEnd end_-nstart)/4096)) =
        protRefused env mm₀ prot start end_ x := by
  have hx := h.core x (by simp)
  have hflags : (s.mm.vma x).vmFlags = (mm₀.vma x).vmFlags := (congrArg Vma.vmFlags hx :)
  have hxend : (s.mm.vma x).vmEnd = (mm₀.vma x).vmEnd := (congrArg Vma.vmEnd hx :)
  have hnew : protFlags env (s.mm.vma x) prot = protFlags env (mm₀.vma x) prot := by
    rw [protFlags, hflags, protFlags]
  have hhere : max start (mm₀.vma x).vmStart = nstart := h.here.symm
  have hin : decide (start < (mm₀.vma x).vmEnd) = true :=
    decide_eq_true ((le_max_left start _).trans_lt (hhere ▸ h.lt))
  have hbelow : decide ((mm₀.vma x).vmStart < end_) = true :=
    decide_eq_true ((le_max_right start _).trans_lt (hhere ▸ hlt))
  unfold protRefused
  dsimp only
  rw [hin, hbelow, Bool.true_and, Bool.true_and, hhere, hflags, hxend, hnew]
  unfold fixupRefused
  cases hw : prot.has PROT_WRITE with
  | false =>
    rw [protFlags_write, hw, Bool.false_and, Bool.false_and, Bool.false_and, Bool.false_and]
  | true =>
    have hexp : ∀ flags n, mayExpandVm env s.mm flags n = mayExpandVm env
        { mm₀ with dataVm := mm₀.dataVm+BitVec.ofNat 64 (mm₀.pagesIn turnsData start nstart).card }
        flags n :=
      fun flags n => mayExpandVm_counters h.total (h.data hw)
    rw [hexp, hexp]

theorem ProtWalk.of_mm {t : MmSys} (h : ProtWalk mm₀ L₀ prot start s A x B nstart prev)
    (hmm : t.mm = s.mm) :
    ProtWalk mm₀ L₀ prot start t A x B nstart prev := by
  obtain ⟨h₁, h₂, h₃, h₄, h₅, h₆, h₇, h₈, h₉⟩ := h
  exact ⟨by rwa [hmm], h₂, by rwa [hmm], by rwa [hmm], h₅, h₆, h₇, by rwa [hmm], by rwa [hmm]⟩

theorem ProtWalk.mem (h : ProtWalk mm₀ L₀ prot start s A x B nstart prev) {z : VmaId}
    (hz : z ∈ x :: B) : z ∈ L₀ :=
  h.suffix.subset hz

theorem ProtWalk.range (h : ProtWalk mm₀ L₀ prot start s A x B nstart prev) :
    RangeOk nstart (s.mm.core x).vmEnd ∧ (s.mm.core x).vmStart ≤ nstart := by
  have hx := h.wf.ordered.area x (by simp)
  rw [h.core x (by simp)] at hx ⊢
  exact ⟨⟨h.lt, h.dvd, hx.end_dvd, hx.end_lt⟩, h.here ▸ le_max_right _ _⟩

/-- The pages up to the end of `x` that become data. -/
theorem ProtWalk.card (h : ProtWalk mm₀ L₀ prot start s A x B nstart prev) (h₀ : Wf mm₀ L₀) :
    (mm₀.pagesIn turnsData start (mm₀.core x).vmEnd).card =
      (mm₀.pagesIn turnsData start nstart).card +
      if turnsData (mm₀.vma x).vmFlags then ((mm₀.core x).vmEnd-nstart)/4096 else 0 := by
  have hx := h.mem (z := x) (by simp)
  have hs : (mm₀.core x).vmStart ≤ nstart := h.here ▸ le_max_right _ _
  rw [card_pagesIn_split mm₀ turnsData (h.here ▸ le_max_left _ _ : start ≤ nstart) h.lt.le,
    card_pagesIn_area h₀ hx hs le_rfl h.dvd (h₀.ordered.area x hx).end_dvd]

/-- An area behind `x` that was merged has the write permission already and becomes no data. -/
theorem ProtWalk.merged (h₀ : Wf mm₀ L₀) (h : ProtWalk mm₀ L₀ prot start s A x B nstart prev)
    (hb : Behind s.mm.core core' B B' y (s.mm.core x).vmEnd flags)
    (hwrite : flags.has VM_WRITE = prot.has PROT_WRITE) :
    (mm₀.core x).vmEnd ≤ (core' y).vmEnd ∧
      (prot.has PROT_WRITE = true → (mm₀.pagesIn turnsData start (core' y).vmEnd).card =
        (mm₀.pagesIn turnsData start (mm₀.core x).vmEnd).card) := by
  have hx := h.core x (by simp)
  rcases hb.2 with ⟨rfl, hend⟩ | ⟨n, rfl, hstart, hend, hclean⟩
  · rw [hend, hx]
    exact ⟨le_rfl, fun _ => rfl⟩
  · have hn := h.mem (z := n) (by simp)
    have hno := h₀.ordered.area n hn
    rw [h.core n (by simp), hx] at hstart
    rw [h.core n (by simp)] at hend hclean
    have hperm : (mm₀.core n).vmFlags.has VM_WRITE = prot.has PROT_WRITE := by
      rw [← has_cleanFlags (by decide), hclean, has_cleanFlags (by decide), hwrite]
    refine ⟨?_, fun hw => ?_⟩
    · rw [hend, ← hstart]
      exact hno.lt.le
    · have hnot : turnsData (mm₀.core n).vmFlags = false := by
        rw [turnsData, hperm, hw]
        rfl
      have hle : start ≤ (mm₀.core x).vmEnd := (le_max_left start _).trans (h.here ▸ h.lt.le)
      have harea : (mm₀.pagesIn turnsData (mm₀.core n).vmStart (mm₀.core n).vmEnd).card = _ :=
        card_pagesIn_area h₀ hn le_rfl le_rfl hno.start_dvd hno.end_dvd
      rw [show (mm₀.vma n).vmFlags = (mm₀.core n).vmFlags from rfl, hnot, if_neg (by simp)] at harea
      rw [hend, card_pagesIn_split mm₀ turnsData (hstart ▸ hle) hno.lt.le, harea, add_zero, hstart]

/-- One round: the area `x` has been changed up to its end, and the loop goes on with the area
behind the one that has it now. -/
theorem ProtWalk.round (rb : Balance VmaId) (env : MmEnv) (h₀ : Wf mm₀ L₀)
    (h : ProtWalk mm₀ L₀ prot start s A x B nstart prev) {g : ℤ × Option VmaId × MmSys}
    (hg :
      fixupGranted rb env s x prev nstart (s.mm.core x).vmEnd (protFlags env (s.mm.vma x) prot) = g)
    (hz : g.1 = 0) :
    ∃ A' y B', g.2.1 = some y ∧ Wf g.2.2.mm (A' ++ y :: B') ∧ B' <:+ B ∧
      (s.mm.core x).vmEnd ≤ (g.2.2.mm.core y).vmEnd ∧
      ∀ z B'', B' = z :: B'' → (g.2.2.mm.core z).vmStart = (g.2.2.mm.core y).vmEnd →
        ProtWalk mm₀ L₀ prot start g.2.2 (A' ++ [y]) z B'' (g.2.2.mm.core y).vmEnd (some y) := by
  obtain ⟨hr, hs⟩ := h.range
  have hx := h.core x (by simp)
  subst hg
  obtain ⟨A', y, B', flags, hy, hwf, htotal, hdata, hwrite, hb⟩ :=
    fixupGranted_behind rb env h.wf hr hs rfl h.prev hz
  rw [protFlags_write] at hwrite
  set g := fixupGranted rb env s x prev nstart (s.mm.core x).vmEnd (protFlags env (s.mm.vma x) prot)
  obtain ⟨hle, hcard⟩ := h.merged h₀ hb hwrite
  have hsuffix : B' <:+ B := by
    rcases hb.2 with ⟨rfl, -⟩ | ⟨n, rfl, -⟩
    · exact List.suffix_rfl
    · exact List.suffix_cons n B'
  have hcore : ∀ z ∈ B', g.2.2.mm.core z = mm₀.core z := fun z hz =>
    (hb.1 z hz).trans (h.core z (by simp [hsuffix.subset hz]))
  refine ⟨A', y, B', hy, hwf, hsuffix, by rwa [hx], ?_⟩
  rintro z B'' rfl hz
  have hzo := hwf.ordered.area z (by simp)
  have hzcore := hcore z (by simp)
  refine ⟨by simpa using hwf, hsuffix.trans ((List.suffix_cons x B).trans h.suffix), hcore,
    .inl ⟨hz.symm, by simp⟩, ?_, ?_, hz ▸ hzo.start_dvd, htotal.trans h.total, fun hw => ?_⟩
  · rw [← hzcore, hz, max_eq_right]
    exact ((le_max_left start _).trans (h.here ▸ h.lt.le)).trans hle
  · rw [← hzcore, ← hz]
    exact hzo.lt
  · -- the pages of `x` are added to those that came before
    have hflags : (s.mm.vma x).vmFlags = (mm₀.vma x).vmFlags := (congrArg Vma.vmFlags hx :)
    rw [hdata, dataShift_writable _ _ hw, h.data hw, hcard hw, h.card h₀, hflags, hx,
      BitVec.ofNat_add, add_assoc]
    split
    next => rfl
    next => rfl

/-- A round of the loop: the area `x` and what the loop knows about it. -/
structure ProtPlace where
  s : MmSys
  x : VmaId
  prev : Option VmaId
  nstart : ℕ

section Rounds

variable (rb : Balance VmaId) (env : MmEnv) (prot : Bits) (end_ : ℕ) (a : ProtPlace)

def ProtPlace.wanted : VmFlags := protFlags env (a.s.mm.vma a.x) prot

def ProtPlace.upto : ℕ := min (a.s.mm.vma a.x).vmEnd end_

def ProtPlace.fixup : ℤ × Option VmaId × MmSys :=
  fixupGranted rb env a.s.outcome.2 a.x a.prev a.nstart (a.upto end_) (a.wanted env prot)

def ProtPlace.next : Option ProtPlace :=
  let g := a.fixup rb env prot end_
  if g.1 ≠ 0 then none
  else match g.2.1 with
  | none => none
  | some p =>
    let nstart := max (a.upto end_) (g.2.2.mm.vma p).vmEnd
    if end_ ≤ nstart then none
    else match g.2.2.mm.vmNext p with
    | none => none
    | some y => if (g.2.2.mm.vma y).vmStart ≠ nstart then none else some ⟨g.2.2, y, some p, nstart⟩

end Rounds

section Loop

variable {fuel : ℕ} {a b : ProtPlace} {lim lim' : Rlimits} {refused refused' : VmaId → Bool}

/-- The next round has its own area, behind the one that has been changed. -/
theorem ProtWalk.next (h₀ : Wf mm₀ L₀) (h : ProtWalk mm₀ L₀ prot start a.s A a.x B a.nstart a.prev)
    (hb : a.next rb env prot end_ = some b) :
    a.nstart < b.nstart ∧ b.nstart < end_ ∧ b.s = (a.fixup rb env prot end_).2.2 ∧ ∃ A' B',
      B'.length < B.length ∧ ProtWalk mm₀ L₀ prot start b.s A' b.x B' b.nstart b.prev := by
  have ht := h.of_mm (outcome_mm a.s)
  unfold ProtPlace.next at hb
  dsimp only at hb
  split at hb
  next => exact absurd hb (by simp)
  next hz =>
    split at hb
    next => exact absurd hb (by simp)
    next p hp =>
      split at hb
      next => exact absurd hb (by simp)
      next hend =>
        -- the range goes on behind the area
        have hupto : a.upto end_ = (a.s.mm.core a.x).vmEnd := by
          refine min_eq_left (le_of_not_ge fun hle => hend ?_)
          exact (min_eq_right hle).symm.le.trans (le_max_left _ _)
        obtain ⟨A', y, B', hy, hwf, hsuffix, hle, hwalk⟩ :=
          ht.round rb env h₀ (g := a.fixup rb env prot end_)
            (by rw [ProtPlace.fixup, hupto, ProtPlace.wanted, outcome_mm]) (not_not.1 hz)
        obtain rfl : y = p := Option.some.inj (hy.symm.trans hp)
        rw [outcome_mm] at hle
        have hnstart : max (a.upto end_) ((a.fixup rb env prot end_).2.2.mm.vma y).vmEnd =
          ((a.fixup rb env prot end_).2.2.mm.core y).vmEnd := max_eq_right (hupto ▸ hle)
        rw [hnstart, hwf.rep.next_eq] at hb
        rw [hnstart] at hend
        cases B' with
        | nil => exact absurd hb (by simp)
        | cons z B'' =>
          simp only [List.head?_cons] at hb
          split at hb
          next => exact absurd hb (by simp)
          next hstart =>
            obtain rfl := Option.some.inj hb
            have hlt := h.lt
            rw [← h.core a.x (by simp)] at hlt
            refine ⟨hlt.trans_le hle, not_le.1 hend, rfl, A' ++ [y], B'', ?_,
              hwalk z B'' rfl (not_not.1 hstart)⟩
            have hlen := hsuffix.length_le
            rw [List.length_cons] at hlen
            exact hlen

/-- What the change of one area shows: it fails and changes no page, or its first page has the new
permissions. -/
theorem ProtWalk.fixup (rb : Balance VmaId) (env : MmEnv)
    (h : ProtWalk mm₀ L₀ prot start a.s A a.x B a.nstart a.prev) (hend : RangeOk a.nstart end_)
    (hnot : protRefused (env.withRlim lim) mm₀ prot start end_ a.x = false) :
    (a.fixup rb env prot end_).1 ≠ 0 ∧ (a.fixup rb env prot end_).2.2.mm.view.clean =
      a.s.mm.view.clean ∨
      (a.fixup rb env prot end_).1 = 0 ∧ ∃ i flags, a.s.mm.view.clean (a.nstart/4096) = some i ∧
        i.flags = cleanFlags (mm₀.vma a.x).vmFlags ∧ flags.has VM_WRITE = prot.has PROT_WRITE ∧
        (a.fixup rb env prot end_).2.2.mm.view.clean (a.nstart/4096) =
          some { i with flags := cleanFlags flags } := by
  have ht := h.of_mm (outcome_mm a.s)
  have hx := h.wf.ordered.area a.x (by simp)
  have hcore := h.core a.x (by simp)
  have hr : RangeOk a.nstart (a.upto end_) := by
    refine ⟨lt_min ?_ hend.lt, hend.start_dvd, ?_, (min_le_right _ _).trans_lt hend.end_lt⟩
    · exact lt_of_lt_of_eq h.lt (congrArg Vma.vmEnd hcore).symm
    · rcases min_choice (a.s.mm.vma a.x).vmEnd end_ with hmin | hmin
      · rw [ProtPlace.upto, hmin]; exact hx.end_dvd
      · rw [ProtPlace.upto, hmin]; exact hend.end_dvd
  have hmm := outcome_mm a.s
  have hrefused := ht.refused (env.withRlim lim) hend.lt
  rw [hnot, hmm] at hrefused
  have hgranted := mprotectFixup_eq rb (env.withRlim lim) a.s.outcome.2 a.x a.prev a.nstart
    (a.upto end_) (a.wanted env prot)
  rw [hmm] at hgranted
  replace hgranted : _ = a.fixup rb env prot end_ :=
    hgranted.trans (if_neg (Bool.eq_false_iff.1 hrefused))
  obtain ⟨flags, hflags, hfix⟩ := mprotectFixup_spec (G := True) rb (env.withRlim lim) ht.wf hr
    (by rw [hmm, hcore]; exact h.here ▸ le_max_right _ _)
    (by rw [hmm]; exact min_le_left _ _) ht.prev
    (by rw [hmm]; exact protFlags_has (by decide) : (a.wanted env prot).has VM_LOCKED = _)
    (by rw [hmm]; exact protFlags_has (by decide))
  rw [hgranted] at hfix
  have hwrite : flags.has VM_WRITE = prot.has PROT_WRITE := by
    rw [← show (a.wanted env prot).has VM_WRITE = _ from protFlags_write _]
    rcases hflags with rfl | rfl
    · rfl
    · exact has_or_of_disjoint (by decide)
  rcases hfix with ⟨hz, L', hd⟩ | ⟨hz, A', y, B', P, -, hd, hp, -, -⟩
  · refine .inl ⟨hz, ?_⟩
    rw [view_of_pages ht.wf hd.wf hd.pages, hmm]
  · rw [← hd.pages] at hp
    have hs : (a.s.outcome.2.mm.core a.x).vmStart ≤ a.nstart := by
      rw [hmm, hcore]; exact h.here ▸ le_max_right _ _
    obtain ⟨i, hi, hif, hi'⟩ :=
      (view_repaint ht.wf hd.wf hr hs (by rw [hmm]; exact min_le_left _ _) hp).1
      (a.nstart/4096) (Nat.mul_div_cancel' h.dvd).ge ((Nat.mul_div_cancel' h.dvd).trans_lt hr.lt)
    rw [hmm] at hi hif
    rw [hcore] at hif
    exact .inr ⟨hz, i, flags, hi, hif, hwrite, hi'⟩

end Loop

/-! The call. -/

end PtraceRemote
