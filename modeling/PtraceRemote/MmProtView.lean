import PtraceRemote.MmProtInv
import PtraceRemote.MmView

/-! `mprotect` on the page-level view: the pages of a prefix of the range get the requested
permissions, and no other page changes. -/
namespace PtraceRemote

open AugTree (Balance)

def protBits (env : MmEnv) (prot : Bits) (flags : VmFlags) : VmFlags :=
  (if prot.has PROT_READ then VM_READ else 0) ||| (if prot.has PROT_WRITE then VM_WRITE else 0) |||
    (if prot.has PROT_EXEC ∨ env.readImpliesExec ∧ prot.has PROT_READ ∧ flags.has VM_MAYEXEC then
      VM_EXEC else 0)

def protKept : VmFlags :=
  ~~~(VM_READ ||| VM_WRITE ||| VM_EXEC ||| ARCH_VM_PKEY_FLAGS ||| VM_ACCOUNT)

structure Reprotected (want : VmFlags → VmFlags) (i i' : PageInfo) : Prop where
  file : i'.file = i.file
  pgoff : i'.pgoff = i.pgoff
  bits : i'.flags &&& (VM_READ ||| VM_WRITE ||| VM_EXEC) = want i.flags
  others : i'.flags &&& protKept = i.flags &&& protKept
  allowed : ∀ perm ∈ [VM_READ, VM_WRITE, VM_EXEC], i'.flags.has perm = true →
    i.flags.has perm = true ∨ i.flags.has (perm <<< 4) = true

/-- The pages of `[start, b)` have got new permissions; all others are as before. -/
structure Reprotects (want : VmFlags → VmFlags) (V V' : PageMap) (start b : ℕ) : Prop where
  inside : ∀ p, start ≤ 4096*p → 4096*p < b → ∃ i i', V p = some i ∧ V' p = some i' ∧
    Reprotected want i i'
  outside : ∀ p, ¬(start ≤ 4096*p ∧ 4096*p < b) → V' p = V p

variable {mm mm' : Mm} {s s' : MmSys} {rb : Balance VmaId} {env : MmEnv} {L L' A B : List VmaId}
  {x y : VmaId} {start end_ addr len p b c : ℕ} {G : Prop} {flags : VmFlags} {prot : Bits}
  {V V' V'' : PageMap} {want : VmFlags → VmFlags}

theorem reprotects_nil : Reprotects want V V start start :=
  ⟨fun _ h₁ h₂ => absurd (h₁.trans_lt h₂) (lt_irrefl _), fun _ _ => rfl⟩

theorem Reprotects.trans (h : Reprotects want V V' start b) (h' : Reprotects want V' V'' b c)
    (hb : start ≤ b) (hc : b ≤ c) : Reprotects want V V'' start c := by
  refine ⟨fun p h₁ h₂ => ?_, fun p hp => ?_⟩
  · by_cases hpb : 4096*p < b
    · obtain ⟨i, i', hi, hi', hr⟩ := h.inside p h₁ hpb
      exact ⟨i, i', hi, (h'.outside p fun hin => absurd hin.1 (by omega)).trans hi', hr⟩
    · obtain ⟨i, i', hi, hi', hr⟩ := h'.inside p (not_lt.1 hpb) h₂
      exact ⟨i, i', (h.outside p fun hin => absurd hin.2 hpb).symm.trans hi, hi', hr⟩
  · exact (h'.outside p fun hin => hp ⟨by omega, hin.2⟩).trans
      (h.outside p fun hin => hp ⟨hin.1, by omega⟩)

/-! The flags that the loop computes. -/

theorem compl_and_of_disjoint {k m : VmFlags} (h : k &&& m = 0#64) : ~~~k &&& m = m := by
  refine BitVec.eq_of_getLsbD_eq fun i hi => ?_
  have hbit := congrArg (BitVec.getLsbD · i) h
  simp only [BitVec.getLsbD_and, BitVec.getLsbD_zero, BitVec.getLsbD_not, hi, decide_true,
    Bool.true_and] at hbit ⊢
  revert hbit
  cases k.getLsbD i <;> cases m.getLsbD i <;> decide

theorem within_calcVmProtBits {pk : VmFlags} :
    Within (calcVmProtBits prot pk) (VM_READ ||| VM_WRITE ||| VM_EXEC ||| ARCH_VM_PKEY_FLAGS) := by
  refine Within.or (Within.or (Within.or ?_ ?_) ?_) ?_
  · exact within_trans rfl
  · exact within_trans rfl
  · exact within_trans rfl
  · rw [Within, BitVec.and_assoc]
    rfl

/-- Bits other than the permissions and the protection key stay. -/
theorem protFlags_and {v : Vma} {m : VmFlags}
    (hm : (VM_READ ||| VM_WRITE ||| VM_EXEC ||| ARCH_VM_PKEY_FLAGS) &&& m = 0#64) :
    protFlags env v prot &&& m = v.vmFlags &&& m := by
  have hnew : ∀ prot pk, calcVmProtBits prot pk &&& m = 0#64 := fun prot pk => by
    rw [← within_calcVmProtBits, BitVec.and_assoc, hm, BitVec.and_zero]
  unfold protFlags
  rw [BitVec.and_or_distrib_right, hnew, BitVec.zero_or, BitVec.and_assoc, compl_and_of_disjoint hm]

theorem protFlags_has {v : Vma} {m : VmFlags}
    (hm : (VM_READ ||| VM_WRITE ||| VM_EXEC ||| ARCH_VM_PKEY_FLAGS) &&& m = 0#64) :
    (protFlags env v prot).has m = v.vmFlags.has m := by
  rw [VmFlags.has, protFlags_and hm, VmFlags.has]

theorem calcVmProtBits_and {pk : VmFlags} :
    calcVmProtBits prot pk &&& (VM_READ ||| VM_WRITE ||| VM_EXEC) =
    (if prot.has PROT_READ then VM_READ else 0) |||
      (if prot.has PROT_WRITE then VM_WRITE else 0) |||
      (if prot.has PROT_EXEC then VM_EXEC else 0) := by
  have hpk : pk &&& ARCH_VM_PKEY_FLAGS &&& (VM_READ ||| VM_WRITE ||| VM_EXEC) = 0#64 := by
    rw [BitVec.and_assoc, show ARCH_VM_PKEY_FLAGS &&& (VM_READ ||| VM_WRITE ||| VM_EXEC) =
      0#64 by decide, BitVec.and_zero]
  rw [calcVmProtBits, BitVec.and_or_distrib_right, hpk, BitVec.or_zero]
  unfold calcVmTrans
  split_ifs <;> decide

theorem protFlags_bits {v : Vma} : protFlags env v prot &&& (VM_READ ||| VM_WRITE ||| VM_EXEC) =
    protBits env prot v.vmFlags := by
  have hold : v.vmFlags &&& ~~~(VM_READ ||| VM_WRITE ||| VM_EXEC ||| ARCH_VM_PKEY_FLAGS) &&&
      (VM_READ ||| VM_WRITE ||| VM_EXEC) = 0#64 := by
    rw [BitVec.and_assoc, show ~~~(VM_READ ||| VM_WRITE ||| VM_EXEC ||| ARCH_VM_PKEY_FLAGS) &&&
      (VM_READ ||| VM_WRITE ||| VM_EXEC) = 0#64 by decide, BitVec.and_zero]
  unfold protFlags
  rw [BitVec.and_or_distrib_right, hold, BitVec.or_zero, calcVmProtBits_and, protBits]
  split
  next himp =>
    have hr : (prot ||| PROT_EXEC).has PROT_READ = prot.has PROT_READ :=
      has_or_of_disjoint (by decide)
    have hw : (prot ||| PROT_EXEC).has PROT_WRITE = prot.has PROT_WRITE :=
      has_or_of_disjoint (by decide)
    have he : (prot ||| PROT_EXEC).has PROT_EXEC = true := has_or_self (by decide)
    have hexec :
        prot.has PROT_EXEC = true ∨ env.readImpliesExec = true ∧ prot.has PROT_READ = true ∧
          v.vmFlags.has VM_MAYEXEC = true := .inr himp
    simp only [hr, hw, he, hexec, if_true]
  next himp =>
    have hiff :
        (prot.has PROT_EXEC = true ∨ env.readImpliesExec = true ∧ prot.has PROT_READ = true ∧
          v.vmFlags.has VM_MAYEXEC = true) ↔ prot.has PROT_EXEC = true := or_iff_left himp
    simp only [hiff]

theorem protBits_congr {a : VmFlags} (h : a.has VM_MAYEXEC = flags.has VM_MAYEXEC) :
    protBits env prot a = protBits env prot flags := by
  rw [protBits, h, protBits]

/-- The check against the `VM_MAY*` bits. -/
theorem may_of_check
    (hc : (flags &&& ~~~(flags >>> 4)).has (VM_READ ||| VM_WRITE ||| VM_EXEC) = false) :
    ∀ perm ∈ [VM_READ, VM_WRITE, VM_EXEC], flags.has perm = true →
      flags.has (perm <<< 4) = true := by
  have hbit : ∀ k < 3, flags.has (BitVec.twoPow 64 k) = true →
      flags.has (BitVec.twoPow 64 (k+4)) = true := by
    intro k hk hp
    have hperm : BitVec.twoPow 64 k &&& (VM_READ ||| VM_WRITE ||| VM_EXEC) =
        BitVec.twoPow 64 k := by
      interval_cases k <;> decide
    have hno := has_of_sub hperm hc
    rw [has_twoPow] at hp hno ⊢
    simpa [hp, show k < 64 by omega, Nat.add_comm] using hno
  intro perm hperm hp
  simp only [List.mem_cons, List.not_mem_nil, or_false] at hperm
  rcases hperm with rfl | rfl | rfl
  · exact hbit 0 (by decide) hp
  · exact hbit 1 (by decide) hp
  · exact hbit 2 (by decide) hp

/-! The pages. -/

theorem part_le_pages (hx : AreaOk (mm.core x)) (hr : RangeOk start end_)
    (hs : (mm.core x).vmStart ≤ start) (he : end_ ≤ (mm.core x).vmEnd) :
    (mm.core x).part single start end_ ≤ pages mm.core (A ++ x :: B) := by
  have hlow := part_split (φ := single) hx hs (hr.lt.le.trans he) hr.start_dvd
  have hupper : (mm.core x).part single start (mm.core x).vmEnd =
      (mm.core x).part single start end_ + _ :=
    blockSum_split hr.lt.le he hr.start_dvd hr.end_dvd hx.end_dvd
  have hpart : (mm.core x).part single start end_ ≤ (mm.core x).weight single := by
    rw [hlow, hupper]
    exact (Multiset.le_add_right _ _).trans (Multiset.le_add_left _ _)
  exact hpart.trans (weight_le_pages (by simp))

/-- A part of an area that has been given other flags. -/
theorem view_repaint (h : Wf mm (A ++ x :: B)) (h' : Wf mm' L') (hr : RangeOk start end_)
    (hs : (mm.core x).vmStart ≤ start) (he : end_ ≤ (mm.core x).vmEnd)
    (hp : pages mm'.core L' + (mm.core x).part single start end_ =
      pages mm.core (A ++ x :: B) + (mm.core x).repaint start end_ flags) :
    (∀ p, start ≤ 4096*p → 4096*p < end_ → ∃ i, mm.view.clean p = some i ∧
      i.flags = cleanFlags (mm.core x).vmFlags ∧
        mm'.view.clean p = some { i with flags := cleanFlags flags }) ∧
    ∀ p, ¬(start ≤ 4096*p ∧ 4096*p < end_) → mm'.view.clean p = mm.view.clean p := by
  have hx := h.ordered.area x (by simp)
  obtain ⟨R, hR⟩ := Multiset.le_iff_exists_add.1 (part_le_pages (A := A) (B := B) hx hr hs he)
  have hR' : pages mm'.core L' = R + (mm.core x).repaint start end_ flags := by
    rw [hR, add_assoc, add_comm, add_right_inj] at hp
    exact hp
  have hview (p : ℕ) := view_replaced (p := p) h h' hr (hR.trans (add_comm _ _)) hR'
    (fun q i hq => ((mem_blockPages hr).1 hq).1)
  constructor
  · intro p h₁ h₂
    set pgoff := (mm.core x).vmPgoff+BitVec.ofNat 64 ((start-(mm.core x).vmStart)/4096)+BitVec.ofNat
      64 (p-start/4096)
    refine ⟨⟨(mm.core x).vmFile, pgoff, cleanFlags (mm.core x).vmFlags⟩, ?_, rfl, ?_⟩
    · rw [view_iff h, hR, Multiset.mem_add]
      exact .inl ((mem_blockPages hr).2 ⟨⟨h₁, h₂⟩, rfl⟩)
    · rw [hview p, if_pos ⟨h₁, h₂⟩]
  · intro p hout
    rw [hview p, if_neg hout]

structure NewFlags (env : MmEnv) (prot : Bits) (old flags : VmFlags) : Prop where
  bits : flags &&& (VM_READ ||| VM_WRITE ||| VM_EXEC) = protBits env prot old
  others : flags &&& protKept = old &&& protKept
  allowed : ∀ perm ∈ [VM_READ, VM_WRITE, VM_EXEC], flags.has perm = true →
    flags.has (perm <<< 4) = true

theorem NewFlags.has {old m : VmFlags} (h : NewFlags env prot old flags) (hm : protKept &&& m = m) :
    flags.has m = old.has m := by
  rw [VmFlags.has, ← hm, ← BitVec.and_assoc, h.others, BitVec.and_assoc, hm, VmFlags.has]

theorem newFlags_of {v : Vma}
    (hflags : flags = protFlags env v prot ∨ flags = protFlags env v prot ||| VM_ACCOUNT)
    (hc : (protFlags env v prot &&& ~~~(protFlags env v prot >>> 4)).has
      (VM_READ ||| VM_WRITE ||| VM_EXEC) = false) :
    NewFlags env prot v.vmFlags flags := by
  have hhas : ∀ m, VM_ACCOUNT &&& m = 0#64 → flags.has m = (protFlags env v prot).has m := by
    intro m hm
    rcases hflags with rfl | rfl
    · rfl
    · exact has_or_of_disjoint hm
  refine ⟨?_, ?_, fun perm hperm hp => ?_⟩
  · rw [← protFlags_bits]
    rcases hflags with rfl | rfl
    · rfl
    · rw [BitVec.and_or_distrib_right, show VM_ACCOUNT &&& (VM_READ ||| VM_WRITE ||| VM_EXEC) =
        0#64 by decide, BitVec.or_zero]
  · have hkept : protFlags env v prot &&& protKept = v.vmFlags &&& protKept :=
      protFlags_and (by decide)
    rw [← hkept]
    rcases hflags with rfl | rfl
    · rfl
    · rw [BitVec.and_or_distrib_right, show VM_ACCOUNT &&& protKept = 0#64 by decide,
        BitVec.or_zero]
  · have hdisj : VM_ACCOUNT &&& perm = 0#64 ∧ VM_ACCOUNT &&& (perm <<< 4) = 0#64 := by
      simp only [List.mem_cons, List.not_mem_nil, or_false] at hperm
      rcases hperm with rfl | rfl | rfl <;> decide
    rw [hhas _ hdisj.1] at hp
    rw [hhas _ hdisj.2]
    exact may_of_check hc perm hperm hp

/-- One round of the loop: the range has the new permissions, and so has what the area that covers
it now reaches over. -/
theorem reprotects_step (h : Wf s.mm (A ++ x :: B)) (h' : Wf s'.mm L') (hy : y ∈ L')
    (hr : RangeOk start end_) (hs : (s.mm.core x).vmStart ≤ start) (he : end_ ≤ (s.mm.core x).vmEnd)
    (hp : pages s'.mm.core L' + (s.mm.core x).part single start end_ =
      pages s.mm.core (A ++ x :: B) + (s.mm.core x).repaint start end_ flags)
    (hspan : Spans (s'.mm.core y) start end_ flags)
    (hnew : NewFlags env prot (s.mm.core x).vmFlags flags) (hb : end_ ≤ b)
    (hb' : b ≤ max end_ (s'.mm.core y).vmEnd) :
    Reprotects (protBits env prot) s.mm.view.clean s'.mm.view.clean start b := by
  obtain ⟨hin, hout⟩ := view_repaint h h' hr hs he hp
  have hclean : ∀ a : VmFlags, cleanFlags a &&& (VM_READ ||| VM_WRITE ||| VM_EXEC) =
      a &&& (VM_READ ||| VM_WRITE ||| VM_EXEC) := fun a => cleanFlags_and (by decide)
  have hexec : flags.has VM_MAYEXEC = (s.mm.core x).vmFlags.has VM_MAYEXEC := hnew.has (by decide)
  refine ⟨fun p h₁ h₂ => ?_, fun p hp => hout p fun hin => hp ⟨hin.1, hin.2.trans_le hb⟩⟩
  by_cases hpe : 4096*p < end_
  · obtain ⟨i, hi, hif, hi'⟩ := hin p h₁ hpe
    refine ⟨i, _, hi, hi', rfl, rfl, ?_, ?_, fun perm hperm hp => .inr ?_⟩
    · rw [hif, hclean, hnew.bits]
      exact protBits_congr (has_cleanFlags (by decide)).symm
    · have hswap (a : VmFlags) : cleanFlags a &&& protKept = cleanFlags (a &&& protKept) := by
        rw [cleanFlags, BitVec.and_assoc, BitVec.and_comm _ protKept,
          ← BitVec.and_assoc, cleanFlags]
      rw [hif, hswap, hnew.others, hswap]
    · have hshift : ~~~VM_SOFTDIRTY &&& perm = perm ∧
        ~~~VM_SOFTDIRTY &&& (perm <<< 4) = perm <<< 4 ∧
          protKept &&& (perm <<< 4) = perm <<< 4 := by
        simp only [List.mem_cons, List.not_mem_nil, or_false] at hperm
        rcases hperm with rfl | rfl | rfl <;> decide
      obtain ⟨h₁, h₂, h₃⟩ := hshift
      rw [has_cleanFlags h₁] at hp
      rw [hif, has_cleanFlags h₂, ← hnew.has h₃]
      exact hnew.allowed perm hperm hp
  · -- the page belongs to the area that the range was merged into
    have hcov : (s'.mm.core y).covers p := by
      refine ⟨hspan.start_le.trans h₁, ?_⟩
      have hlt := h₂.trans_le hb'
      rcases lt_max_iff.1 hlt with hlt | hlt
      · exact absurd hlt hpe
      · exact hlt
    have hview : s'.mm.view.clean p = some ((s'.mm.core y).pageAt p).clean := by
      rw [PageMap.clean, (view_eq_some h').2 ⟨y, hy, hcov, rfl⟩]
      rfl
    have hflags : ((s'.mm.core y).pageAt p).clean.flags = cleanFlags flags := hspan.flags
    refine ⟨_, _, (hout p fun hin => hpe hin.2).symm.trans hview, hview, rfl, rfl, ?_, rfl,
      fun _ _ => .inl⟩
    rw [hflags, hclean, hnew.bits]
    exact protBits_congr ((has_cleanFlags (by decide)).trans hexec).symm

def ProtRun (G : Prop) (env : MmEnv) (prot : Bits) (s : MmSys) (L : List VmaId) (start end_ : ℕ)
    (r : ℤ × MmSys) : Prop :=
  ∃ L' P b, Does G s L r.2 L' P 0 ∧ 4096 ∣ b ∧ start ≤ b ∧ b ≤ end_ ∧ (r.1 = 0 → b = end_) ∧
    Reprotects (protBits env prot) s.mm.view.clean r.2.mm.view.clean start b

/-- An error before anything was changed. -/
theorem protRun_error {e : ℤ} (h : Wf s.mm L) (hr : RangeOk start end_) (he : e ≠ 0)
    (hd : Does G s L s' L' (pages s.mm.core L) 0) : ProtRun G env prot s L start end_ (e, s') := by
  refine ⟨L', _, start, hd, hr.start_dvd, le_rfl, hr.lt.le, fun h₀ => absurd h₀ he, ?_⟩
  rw [view_of_pages h hd.wf hd.pages]
  exact reprotects_nil

/-- Going on from `b`, up to where the new permissions have come. -/
theorem ProtRun.after {r : ℤ × MmSys} {P : Pages} (hd : Does G s L s' L' P 0)
    (hrep : Reprotects (protBits env prot) s.mm.view.clean s'.mm.view.clean start b)
    (hb : start ≤ b) (hrun : ProtRun G env prot s' L' b end_ r) :
    ProtRun G env prot s L start end_ r := by
  obtain ⟨L'', P', b', hd', hdvd, hle, hle', hz, hrep'⟩ := hrun
  exact ⟨L'', P', b', by simpa using hd.trans hd' id, hdvd, hb.trans hle, hle', hz,
    hrep.trans hrep' hb hle⟩

/-- The loop, by induction on its rounds; each of them leaves fewer areas behind. -/
theorem mprotectLoop_spec (rb : Balance VmaId) (env : MmEnv) (prot : Bits) {fuel nstart : ℕ}
    {prev : Option VmaId} (h : Wf s.mm (A ++ x :: B)) (hr : RangeOk nstart end_)
    (hs : (s.mm.core x).vmStart ≤ nstart) (hlt : nstart < (s.mm.core x).vmEnd)
    (hprev : PrevOf s.mm.core A x nstart prev) (hf : B.length < fuel) :
    ProtRun G env prot s (A ++ x :: B) nstart end_
      (mprotectLoop rb env prot end_ fuel s x prev nstart) := by
  induction fuel generalizing s A x B prev nstart with
  | zero => exact absurd hf (Nat.not_lt_zero _)
  | succ fuel ih =>
    rw [mprotectLoop]
    dsimp only
    set newflags := protFlags env (s.mm.vma x) prot with hnew
    split
    next => exact protRun_error h hr (show -EACCES ≠ 0 by decide) (Same.refl h).does
    next hcheck =>
      have hq := outcome_quiet s
      split
      next hz => exact protRun_error h hr hz (hq.same h).does
      next hz =>
        have hmm : s.outcome.2.mm = s.mm := outcome_mm s
        generalize s.outcome.2 = t at hq hmm ⊢
        have hxo := h.ordered.area x (by simp)
        set tmp := min (s.mm.vma x).vmEnd end_ with htmp
        have htle : tmp ≤ (s.mm.core x).vmEnd := min_le_left _ _
        have hrange : RangeOk nstart tmp := by
          refine ⟨lt_min hlt hr.lt, hr.start_dvd, ?_, (min_le_right _ _).trans_lt hr.end_lt⟩
          rcases min_choice (s.mm.vma x).vmEnd end_ with hmin | hmin
          · rw [htmp, hmin]; exact hxo.end_dvd
          · rw [htmp, hmin]; exact hr.end_dvd
        have hfix : ∃ flags', (flags' = newflags ∨ flags' = newflags ||| VM_ACCOUNT) ∧
            Protects G t A x B nstart tmp flags'
            (mprotectFixup rb env t x prev nstart tmp newflags) 0 :=
          mprotectFixup_spec rb env (by rwa [hmm]) hrange (by rwa [hmm]) (by rwa [hmm])
            (by rwa [hmm])
            (by rw [hmm]; exact protFlags_has (by decide))
              (by rw [hmm]; exact protFlags_has (by decide))
        obtain ⟨flags', hflags', hfix⟩ := hfix
        have hfix := hfix.after (hq.same h).does hmm
        rw [add_zero] at hfix
        generalize mprotectFixup rb env t x prev nstart tmp newflags = r at hfix ⊢
        rcases hfix with ⟨hne, L', hd⟩ | ⟨heq, A', y, B', P, hy, hd, hpages, hspan, hlen⟩
        · rw [if_pos hne]
          exact protRun_error h hr hne hd
        · rw [if_neg (not_not.2 heq), hy]
          dsimp only
          have hcheck := newFlags_of hflags' (Bool.eq_false_iff.2 hcheck)
          have hstep : ∀ b, tmp ≤ b → b ≤ max tmp (r.2.2.mm.core y).vmEnd →
              Reprotects (protBits env prot) s.mm.view.clean r.2.2.mm.view.clean nstart b :=
                  fun b hb hb' =>
            reprotects_step h hd.wf (by simp) hrange hs htle (by rw [hd.pages, hpages]) hspan
              hcheck hb hb'
          have hyo := hd.wf.ordered.area y (by simp)
          set nstart' := max tmp (r.2.2.mm.vma y).vmEnd with hnstart'
          have htn : nstart < nstart' := hrange.lt.trans_le (le_max_left _ _)
          split
          next hend =>
            exact ⟨_, P, end_, hd, hr.end_dvd, hr.lt.le, le_rfl,
              fun _ => rfl, hstep end_ (min_le_right _ _) hend⟩
          next hend =>
            have hend : nstart' < end_ := not_le.1 hend
            have hdvd : 4096 ∣ nstart' := by
              rcases max_choice tmp (r.2.2.mm.vma y).vmEnd with hmax | hmax
              · rw [hnstart', hmax]; exact hrange.end_dvd
              · rw [hnstart', hmax]; exact hyo.end_dvd
            have hrep := hstep nstart' (le_max_left _ _) le_rfl
            have hstop : ProtRun G env prot s (A ++ x :: B) nstart end_ (-ENOMEM, r.2.2) :=
              ⟨_, P, nstart', hd, hdvd, htn.le, hend.le,
              fun h₀ => absurd h₀ (show -ENOMEM ≠ 0 by decide), hrep⟩
            -- the round did not reach the end of the range, so it took all of `x`
            have htmp' : tmp = (s.mm.core x).vmEnd := by
              rcases min_choice (s.mm.vma x).vmEnd end_ with hmin | hmin
              · exact hmin
              · exact absurd ((le_max_left tmp _).trans_lt hend)
                  (by rw [htmp, hmin]; exact lt_irrefl _)
            have hlen := hlen htmp'
            rw [hd.wf.rep.next_eq]
            cases B' with
            | nil => exact hstop
            | cons z B'' =>
              simp only [List.head?_cons]
              split
              next => exact hstop
              next hz =>
                have hz : (r.2.2.mm.core z).vmStart = nstart' := not_not.1 hz
                have hlist : A' ++ y :: z :: B'' = (A' ++ [y]) ++ z :: B'' := by simp
                rw [hlist] at hd
                have hzo := (hd.wf.ordered.area z (by simp)).lt
                refine ProtRun.after hd hrep htn.le
                  (ih hd.wf ⟨hend, hdvd, hr.end_dvd, hr.end_lt⟩ hz.le
                  (hz ▸ hzo) (.inl ⟨hz.symm, by simp⟩) ?_)
                simp only [List.length_cons] at hlen
                omega

/-- The loop from its first area on. -/
theorem mprotectLoop_first (rb : Balance VmaId) (env : MmEnv) (prot : Bits) {prev : Option VmaId}
    (h : Wf s.mm (A ++ x :: B)) (hr : RangeOk start end_) (hle : (s.mm.core x).vmStart ≤ start)
    (hlt : start < (s.mm.core x).vmEnd)
    (hprev : prev = if (s.mm.vma x).vmStart < start then some x else s.mm.vmPrev x) :
    ProtRun G env prot s (A ++ x :: B) start end_
      (mprotectLoop rb env prot end_ s.mm.mapCount.toNat s x prev start) := by
  refine mprotectLoop_spec rb env prot h hr hle hlt ?_ ?_
  · rcases hle.lt_or_eq with hlt | heq
    · exact .inr ⟨hlt, hprev.trans (if_pos hlt)⟩
    · have hno : ¬(s.mm.vma x).vmStart < start := not_lt.2 heq.symm.le
      exact .inl ⟨heq.symm, by rw [hprev, if_neg hno, h.rep.prev_eq]⟩
  · rw [h.rep.count, Int.toNat_natCast, List.length_append, List.length_cons]
    omega

theorem mprotectRange_spec (rb : Balance VmaId) (env : MmEnv) (prot : Bits) (h : Wf s.mm L)
    (hr : RangeOk start end_) :
    ProtRun G env prot s L start end_ (mprotectRange rb env s start end_ 0 prot) := by
  have hsame : Does G s L s L (pages s.mm.core L) 0 := (Same.refl h).does
  unfold mprotectRange
  cases hfind : findVma s.mm start with
  | none => exact protRun_error h hr (show -ENOMEM ≠ 0 by decide) hsame
  | some x =>
    obtain ⟨A, B, rfl, -, hlt⟩ := findVma_some h.rep (ordered_core.1 h.ordered) hfind
    dsimp only
    rw [if_neg (by decide)]
    split
    next => exact protRun_error h hr (show -ENOMEM ≠ 0 by decide) hsame
    next hle =>
      have hle : (s.mm.core x).vmStart ≤ start := not_lt.1 hle
      rw [if_neg (by decide)]
      exact mprotectLoop_first rb env prot h hr hle hlt rfl

/-- With a range that may begin with its area. -/
theorem mprotectRange_does (rb : Balance VmaId) (env : MmEnv) (grows prot : Bits) (h : Wf s.mm L)
    (hr : RangeOk start end_) :
    ∃ L' P, Does G s L (mprotectRange rb env s start end_ grows prot).2 L' P 0 := by
  have hsame : ∃ L' P, Does G s L s L' P 0 := ⟨L, _, (Same.refl h).does⟩
  have hrun : ∀ {r : ℤ × MmSys} {nstart : ℕ}, ProtRun G env prot s L nstart end_ r → ∃ L' P,
      Does G s L r.2 L' P 0 := by
    rintro r nstart ⟨L', P, -, hd, -⟩
    exact ⟨L', P, hd⟩
  unfold mprotectRange
  cases hfind : findVma s.mm start with
  | none => exact hsame
  | some x =>
    obtain ⟨A, B, rfl, -, hlt⟩ := findVma_some h.rep (ordered_core.1 h.ordered) hfind
    have hx := h.ordered.area x (by simp)
    dsimp only
    split
    next =>
      split
      next => exact hsame
      next hend =>
        split
        next => exact hsame
        next =>
          have hrange : RangeOk (s.mm.core x).vmStart end_ :=
            ⟨not_le.1 hend, hx.start_dvd, hr.end_dvd, hr.end_lt⟩
          exact hrun
            (mprotectLoop_first rb env prot h hrange le_rfl hx.lt (if_neg (lt_irrefl _)).symm)
    next =>
      split
      next => exact hsame
      next hle =>
        split
        next => exact hsame
        next => exact hrun (mprotectLoop_first rb env prot h hr (not_lt.1 hle) hlt rfl)

/-- `mprotect` keeps the books, whatever its arguments. -/
theorem doMprotectPkeyTask_does (rb : Balance VmaId) (env : MmEnv) (start len : ℕ) (prot : Bits)
    (pkeyOk : Bool) (h : Wf s.mm L) :
    ∃ L' P, Does G s L (doMprotectPkeyTask rb env s start len prot pkeyOk).2 L' P 0 := by
  have hsame : ∃ L' P, Does G s L s L' P 0 := ⟨L, _, (Same.refl h).does⟩
  have hlock : Same s s.outcome.2 L := (outcome_quiet s).same h
  unfold doMprotectPkeyTask
  dsimp only
  split
  next => exact hsame
  split
  next => exact hsame
  next hoff =>
  split
  next => exact hsame
  split
  next => exact hsame
  next hend =>
  split
  next => exact hsame
  split
  next => exact ⟨L, _, hlock.does⟩
  split
  next => exact ⟨L, _, hlock.does⟩
  next =>
    have hstart : 4096 ∣ start := Nat.dvd_of_mod_eq_zero (not_not.1 hoff)
    have hr : RangeOk start (wadd start (pageAlign len)) := by
      refine ⟨not_le.1 hend, hstart, ?_, wadd_lt _ _⟩
      have hlen := pageAlign_dvd len
      unfold wadd
      omega
    obtain ⟨L', P, hd⟩ := mprotectRange_does rb env (prot &&& (PROT_GROWSDOWN ||| PROT_GROWSUP))
      (prot &&& ~~~(PROT_GROWSDOWN ||| PROT_GROWSUP)) hlock.wf hr (G := G)
    have hseq := hlock.does.trans hd id
    rw [zero_add] at hseq
    exact ⟨L', P, hseq⟩

/-- `mprotect_task` gives the pages of a prefix of its range the requested permissions and leaves
their places and, but for `VM_ACCOUNT` and the protection key, their other flags as they were; no
other page changes. The prefix is the whole range if it returns 0. -/
theorem mprotect_prefix (rb : Balance VmaId) (env : MmEnv) (s : MmSys) (L : List VmaId)
    (start len : ℕ) (prot : Bits) (h : Wf s.mm L) (hs : 4096 ∣ start) (hlen : 0 < len)
    (hend : start+(len+4095)/4096*4096 < 2^64)
    (hgrows : prot.has (PROT_GROWSDOWN ||| PROT_GROWSUP) = false) :
    let r := mprotectTask rb env s start len prot
    let end_ := start+(len+4095)/4096*4096
    (∃ L', Wf r.2.mm L') ∧ r.2.mm.bug = s.mm.bug ∧ ∃ b, 4096 ∣ b ∧ start ≤ b ∧ b ≤ end_ ∧
      (r.1 = 0 → b = end_) ∧
      Reprotects (protBits env prot) s.mm.view.clean r.2.mm.view.clean start b := by
  dsimp only
  set end_ := start+(len+4095)/4096*4096 with hend_
  have hr : RangeOk start end_ :=
    ⟨by omega, hs, (Nat.dvd_add_right hs).2 (Dvd.intro_left _ rfl), hend⟩
  suffices hrun : ProtRun True env prot s L start end_ (mprotectTask rb env s start len prot) by
    obtain ⟨L', P, b, hd, hb⟩ := hrun
    exact ⟨⟨L', hd.wf⟩, (congrArg Mm.bug hd.fixed :), b, hb⟩
  have hsame : Does True s L s L (pages s.mm.core L) 0 := (Same.refl h).does
  have hgrows0 : prot &&& (PROT_GROWSDOWN ||| PROT_GROWSUP) = 0#64 := bne_eq_false_iff_eq.1 hgrows
  have hprot : prot &&& ~~~(PROT_GROWSDOWN ||| PROT_GROWSUP) = prot := by
    rw [BitVec.and_comm]
    exact compl_and_of_disjoint (by rw [BitVec.and_comm, hgrows0])
  have halign : pageAlign len = (len+4095)/4096*4096 := by
    rw [pageAlign, wadd_eq (by omega), pageMask]
  have hwadd : wadd start (pageAlign len) = end_ := by rw [halign, wadd_eq hend]
  unfold mprotectTask doMprotectPkeyTask
  dsimp only
  rw [hgrows0, hprot, hwadd, if_neg (by decide), if_neg hlen.ne', if_neg (not_le.2 hr.lt)]
  -- the refusals before the loop leave everything as it was
  split
  next => exact protRun_error h hr (show -EINVAL ≠ 0 by decide) hsame
  split
  next => exact protRun_error h hr (show -EINVAL ≠ 0 by decide) hsame
  have hq := outcome_quiet s
  have hmm := outcome_mm s
  generalize s.outcome = t at hq hmm ⊢
  split
  next => exact protRun_error h hr (show -EINTR ≠ 0 by decide) (hq.same h).does
  rw [if_neg (by decide)]
  have hrun := mprotectRange_spec (G := True) (s := t.2) rb env prot (hq.wf h) hr
  refine ProtRun.after (hq.same h).does ?_ le_rfl hrun
  rw [hmm]
  exact reprotects_nil

/-- The second of four pages becomes writable. -/
theorem mprotect_prefix_fourPages :
    let s : MmSys :=
      { mm := Mm.ofArea { fourPages with vmFlags := VM_READ ||| VM_MAYREAD ||| VM_MAYWRITE } }
    let r := mprotectTask Balance.plain (MmEnv.unlimited 10) s 0x11000 1 (PROT_READ ||| PROT_WRITE)
    r.1 = 0 ∧ Reprotects (protBits (MmEnv.unlimited 10) (PROT_READ ||| PROT_WRITE)) s.mm.view.clean
      r.2.mm.view.clean 0x11000 0x12000 := by
  intro s r
  have hwf : Wf s.mm [0] := wf_ofArea ⟨by decide, by decide, by decide, by decide⟩
  have hzero : r.1 = 0 := by decide +kernel
  obtain ⟨-, -, b, -, -, -, hb, hrep⟩ :=
    mprotect_prefix Balance.plain (MmEnv.unlimited 10) s [0] 0x11000 1
    (PROT_READ ||| PROT_WRITE) hwf (by decide) (by decide) (by decide) (by decide)
  rw [hb hzero] at hrep
  exact ⟨hzero, hrep⟩

end PtraceRemote
