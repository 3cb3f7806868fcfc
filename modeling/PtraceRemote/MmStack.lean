import PtraceRemote.MmRun

/-! Stacks that grow: `acct_stack_growth`, `expand_downwards`, `expand_stack` and `find_extend_vma`
of mm/mmap.c, with the neighbours' `anon_vma` that `anon_vma_prepare` looks at. -/
namespace PtraceRemote

open AugTree (Balance)

/-- What a fault reads besides what a call does: `RLIMIT_STACK`, the ranges kept for huge pages and
the identity of a new `anon_vma`. -/
structure StackEnv extends MmEnv where
  stack : BitVec 64
  hugepageOnly : ℕ → ℕ → Bool := fun _ _ => false
  freshAnon : ℕ := 0

def anonVmaCompatible (a b : Vma) : Bool :=
  a.vmEnd == b.vmStart && a.policy == b.policy && a.vmFile == b.vmFile &&
    !(a.vmFlags ^^^ b.vmFlags).has (~~~(VM_READ ||| VM_WRITE ||| VM_EXEC ||| VM_SOFTDIRTY)) &&
    b.vmPgoff == a.vmPgoff+BitVec.ofNat 64 (wsub b.vmStart a.vmStart/4096)

def reusableAnonVma (old a b : Vma) : Option ℕ :=
  if anonVmaCompatible a b then old.anonVma.filter fun _ => old.anonChain == 1 else none

def findMergeableAnonVma (mm : Mm) (x : VmaId) : Option ℕ :=
  let next := (mm.vmNext x).bind fun n => reusableAnonVma (mm.vma n) (mm.vma x) (mm.vma n)
  let prev := (mm.vmPrev x).bind fun p => reusableAnonVma (mm.vma p) (mm.vma p) (mm.vma x)
  next.or prev

def anonVmaPrepare (fresh : ℕ) (s : MmSys) (x : VmaId) : ℤ × MmSys :=
  if (s.mm.vma x).anonVma ≠ none then (0, s)
  else
    let alloc := s.outcome
    if alloc.1 ≠ 0 then (-ENOMEM, alloc.2)
    else (0, alloc.2.setMm (alloc.2.mm.modVma x fun v =>
      { v with
        anonVma := some ((findMergeableAnonVma s.mm x).getD fresh), anonChain := v.anonChain+1 }))

def actualSize (flags : VmFlags) (size : ℕ) : ℕ :=
  if size ≠ 0 ∧ flags.has VM_GROWSDOWN then wsub size 4096 else size

def acctStackGrowth (env : StackEnv) (s : MmSys) (x : VmaId) (size grow : ℕ) : ℤ × MmSys :=
  let v := s.mm.vma x
  if mayExpandVm env.toMmEnv s.mm v.vmFlags (BitVec.ofNat 64 grow) = false then (-ENOMEM, s)
  else if env.stack.toNat < actualSize v.vmFlags size then (-ENOMEM, s)
  else if v.vmFlags.has VM_LOCKED ∧ env.rlim.memlock >>> 12 < s.mm.lockedVm+BitVec.ofNat 64 grow ∧
      env.capIpcLock = false then (-ENOMEM, s)
  else if env.hugepageOnly (wsub v.vmEnd size) size then (-EFAULT, s)
  else
    let charge := vmEnoughMemory s grow
    if charge.1 ≠ 0 then (-ENOMEM, charge.2) else (0, charge.2)

def growDown (mm : Mm) (x : VmaId) (address grow : ℕ) : Mm :=
  let v := mm.vma x
  let n := BitVec.ofNat 64 grow
  let mm := { mm with lockedVm := if v.vmFlags.has VM_LOCKED then mm.lockedVm+n else mm.lockedVm }
  let mm := vmStatAccount mm v.vmFlags n
  vmaGapUpdate (mm.setBounds x address v.vmEnd (v.vmPgoff-n)) x

def growTo (env : StackEnv) (s : MmSys) (x : VmaId) (address : ℕ) : ℤ × MmSys :=
  let v := s.mm.vma x
  if address < v.vmStart then
    let grow := wsub v.vmStart address/4096
    if v.vmPgoff.toNat < grow then (-ENOMEM, s)
    else
      let acct := acctStackGrowth env s x (wsub v.vmEnd address) grow
      if acct.1 ≠ 0 then acct else (0, acct.2.setMm (growDown acct.2.mm x address grow))
  else (0, s)

def expandDownwards (env : StackEnv) (s : MmSys) (x : VmaId) (address : ℕ) : ℤ × MmSys :=
  let security := s.outcome
  if security.1 ≠ 0 then security
  else
    let anon := anonVmaPrepare env.freshAnon security.2 x
    if anon.1 ≠ 0 then anon else growTo env anon.2 x (pageMask address)

def expandStack (env : StackEnv) (s : MmSys) (x : VmaId) (address : ℕ) : ℤ × MmSys :=
  match s.mm.vmPrev x with
  | some p =>
    if (s.mm.vma p).vmEnd = pageMask address ∧ (s.mm.vma p).vmFlags.has VM_GROWSDOWN = false then
      (-ENOMEM, s)
    else expandDownwards env s x (pageMask address)
  | none => expandDownwards env s x (pageMask address)

def findExtendVma (env : StackEnv) (s : MmSys) (addr : ℕ) : Option VmaId × MmSys :=
  match findVma s.mm (pageMask addr) with
  | none => (none, s)
  | some x =>
    if (s.mm.vma x).vmStart ≤ pageMask addr then (some x, s)
    else if (s.mm.vma x).vmFlags.has VM_GROWSDOWN = false then (none, s)
    else
      let r := expandStack env s x (pageMask addr)
      if r.1 ≠ 0 then (none, r.2) else (some x, r.2)

variable {s s' : MmSys} {env : StackEnv} {L A B : List VmaId} {x : VmaId} {address : ℕ}

/-! The books. -/

theorem anonVmaPrepare_quiet (fresh : ℕ) (s : MmSys) (x : VmaId) :
    Quiet s (anonVmaPrepare fresh s x).2 := by
  unfold anonVmaPrepare
  split
  · exact Quiet.refl s
  · dsimp only
    split
    · exact outcome_quiet s
    · exact (outcome_quiet s).trans (modVma_quiet _ x rfl)

/-- Either the limits or the memory refuse the growth, or its pages are charged. -/
theorem acctStackGrowth_cases (env : StackEnv) (x : VmaId) (size grow : ℕ) (h : Wf s.mm L) :
    let r := acctStackGrowth env s x size grow
    (r.1 < 0 ∧ Same s r.2 L) ∨
      (r.1 = 0 ∧ r.2.mm = s.mm ∧ Does True s L r.2 L (pages s.mm.core L) grow ∧
      mayExpandVm env.toMmEnv s.mm (s.mm.vma x).vmFlags (BitVec.ofNat 64 grow) = true ∧
      actualSize (s.mm.vma x).vmFlags size ≤ env.stack.toNat) := by
  have hsame : Same s s L := Same.refl h
  have hnomem : (-ENOMEM : ℤ) < 0 := by decide
  unfold acctStackGrowth
  dsimp only
  split
  next => exact .inl ⟨hnomem, hsame⟩
  next hfit =>
  split
  next => exact .inl ⟨hnomem, hsame⟩
  next hstack =>
  split
  next => exact .inl ⟨hnomem, hsame⟩
  split
  next => exact .inl ⟨show (-EFAULT : ℤ) < 0 by decide, hsame⟩
  obtain ⟨hmm, ⟨hne, hs⟩ | ⟨hz, hd⟩⟩ := vmEnoughMemory_spec (G := True) h (grow : ℤ)
  · rw [if_pos hne]
    exact .inl ⟨hnomem, hs⟩
  · rw [if_neg (not_not.2 hz)]
    exact .inr ⟨rfl, hmm, hd, Bool.eq_true_of_not_eq_false hfit, not_lt.1 hstack⟩

theorem adjustKeep_down (rb : Balance VmaId) (mm : Mm) (x : VmaId) (pgoff : BitVec 64)
    (hne : address ≠ (mm.vma x).vmStart) : adjustKeep rb mm x address (mm.vma x).vmEnd pgoff none =
      vmaGapUpdate (mm.setBounds x address (mm.vma x).vmEnd pgoff) x := by
  unfold adjustKeep
  dsimp only
  rw [if_pos hne, if_neg (not_not.2 rfl)]

def Vma.pagesBelow (v : Vma) (address : ℕ) : Pages :=
  blockPages address v.vmStart v.vmFile
    (v.vmPgoff-BitVec.ofNat 64 ((v.vmStart-address)/4096)) v.vmFlags

def Vma.grownTo (v : Vma) (address : ℕ) : Vma :=
  { v with vmStart := address, vmPgoff := v.vmPgoff-BitVec.ofNat 64 ((v.vmStart-address)/4096) }

theorem weight_grownTo {v : Vma} (hv : AreaOk v) (hlt : address < v.vmStart) (hd : 4096 ∣ address) :
    (v.grownTo address).weight single = v.pagesBelow address + v.weight single := by
  have hsplit : (v.grownTo address).weight single =
    v.pagesBelow address + blockSum single v.vmStart v.vmEnd v.vmFile
      (v.vmPgoff-BitVec.ofNat 64 ((v.vmStart-address)/4096)+BitVec.ofNat 64
        ((v.vmStart-address)/4096)) v.vmFlags :=
    blockSum_split hlt.le hv.lt.le hd hv.start_dvd hv.end_dvd
  rw [BitVec.sub_add_cancel] at hsplit
  exact hsplit

/-- Moving the start of the area `x` down to `address`, where there is room. -/
theorem acts_down (h : Wf s.mm (A ++ x :: B)) (hlt : address < (s.mm.core x).vmStart)
    (hd : 4096 ∣ address) (hA : ∀ a ∈ A, (s.mm.core a).vmEnd ≤ address) :
    let v := s.mm.core x
    let mm' := vmaGapUpdate (s.mm.setBounds x address (s.mm.vma x).vmEnd
      ((s.mm.vma x).vmPgoff-BitVec.ofNat 64 (((s.mm.vma x).vmStart-address)/4096))) x
    mm'.core = Function.update s.mm.core x (v.grownTo address) ∧
      Acts s (A ++ x :: B) (s.setMm mm') (A ++ x :: B)
        (pages s.mm.core (A ++ x :: B) + v.pagesBelow address)
        (-charge (v.pagesBelow address)) := by
  intro v mm'
  have hv : AreaOk v := h.ordered.area x (by simp)
  have hroom : ∀ b ∈ B, v.vmEnd ≤ (s.mm.core b).vmStart :=
    (ordered_cons.1 (ordered_append.1 h.ordered).2.1).2.2
  have hr : RangeOk address v.vmEnd := ⟨hlt.trans hv.lt, hd, hv.end_dvd, hv.end_lt⟩
  obtain ⟨hwf, hcore, hrest⟩ := Wf.keep Balance.plain
    ((s.mm.vma x).vmPgoff-BitVec.ofNat 64 (((s.mm.vma x).vmStart-address)/4096)) h hr hA hroom
  have hkeep := adjustKeep_down Balance.plain s.mm x
    ((s.mm.vma x).vmPgoff-BitVec.ofNat 64 (((s.mm.vma x).vmStart-address)/4096)) hlt.ne
  have hend : v.vmEnd = (s.mm.vma x).vmEnd := rfl
  rw [hend, hkeep] at hwf hcore hrest
  have hpages :
      pages mm'.core (A ++ x :: B) = pages s.mm.core (A ++ x :: B) + v.pagesBelow address := by
    rw [hcore, pages, total_update h.rep.notMem]
    have hw : ({ s.mm.core x with vmStart := address, vmEnd := (s.mm.vma x).vmEnd, vmPgoff :=
        (s.mm.vma x).vmPgoff-BitVec.ofNat 64 (((s.mm.vma x).vmStart-address)/4096) } :
          Vma).weight single =
        v.pagesBelow address + v.weight single := weight_grownTo hv hlt hd
    rw [hw, pages, total_append, total_cons]
    abel
  have hrefs : references mm'.core (A ++ x :: B) = references s.mm.core (A ++ x :: B) := by
    rw [hcore]
    apply references_congr
    intro y _
    by_cases hy : y = x
    · subst hy
      rw [Function.update_self]
    · rw [Function.update_of_ne hy]
  refine ⟨hcore, hwf, hpages, ?_, fixed_of_rest hrest⟩
  have hcount : counters (s.setMm mm') = counters s := counters_eq hrest rfl rfl
  have hpages' : pages (s.setMm mm').mm.core (A ++ x :: B) = _ := hpages
  have hrefs' : references (s.setMm mm').mm.core (A ++ x :: B) = _ := hrefs
  rw [ledger, hcount, hpages', hrefs', charge_add, ledger]
  abel

/-- Growing down counts the new pages, all but the charge, which has been taken before. -/
theorem growDown_acts (h : Wf s.mm (A ++ x :: B)) (hlt : address < (s.mm.core x).vmStart)
    (hd : 4096 ∣ address) (hA : ∀ a ∈ A, (s.mm.core a).vmEnd ≤ address) :
    let v := s.mm.core x
    let grow := (v.vmStart-address)/4096
    let mm' := growDown s.mm x address grow
    mm'.core = Function.update s.mm.core x (v.grownTo address) ∧
      Acts s (A ++ x :: B) (s.setMm mm') (A ++ x :: B)
        (pages s.mm.core (A ++ x :: B) + v.pagesBelow address)
        (-acctVec (if v.vmFlags.has VM_ACCOUNT then grow else 0)) := by
  intro v grow mm'
  have hflags : (s.mm.vma x).vmFlags = v.vmFlags := rfl
  let n := BitVec.ofNat 64 grow
  let locked : BitVec 64 := if v.vmFlags.has VM_LOCKED then n else 0
  -- first the counters, then the bounds
  have h₁ := acts_lock h locked
  have h₂ := h₁.trans (acts_stat h₁.wf v.vmFlags n)
  let s₂ := (s.setMm { s.mm with lockedVm := s.mm.lockedVm+locked }).setMm
    (vmStatAccount { s.mm with lockedVm := s.mm.lockedVm+locked } v.vmFlags n)
  have hshape : s₂.mm.shape = s.mm.shape := shape_vmStatAccount v.vmFlags n
  have hvma : s₂.mm.vma x = s.mm.vma x := (congrFun (congrArg Mm.vma hshape) x :)
  have hcore : s₂.mm.core = s.mm.core := core_of_shape hshape
  obtain ⟨hc, h₃⟩ :=
    acts_down (s := s₂) h₂.wf (by rw [hcore]; exact hlt) hd (by rw [hcore]; exact hA)
  rw [hvma, hcore] at hc h₃
  have hmm' : mm' = vmaGapUpdate (s₂.mm.setBounds x address (s.mm.vma x).vmEnd
      ((s.mm.vma x).vmPgoff-BitVec.ofNat 64 (((s.mm.vma x).vmStart-address)/4096))) x := by
    have hlock : (if (s.mm.vma x).vmFlags.has VM_LOCKED then s.mm.lockedVm+n else s.mm.lockedVm) =
        s.mm.lockedVm+locked := by
      rw [hflags]
      unfold locked
      split
      · rfl
      · rw [add_zero]
    show growDown s.mm x address grow = _
    unfold growDown
    dsimp only
    rw [hlock]
    rfl
  rw [hmm']
  refine ⟨hc, ?_⟩
  have hall := h₂.trans h₃
  have hbooks : lockVec locked + statVec v.vmFlags n + -charge (v.pagesBelow address) =
      -acctVec (if v.vmFlags.has VM_ACCOUNT then grow else 0) := by
    have hcharge : charge (v.pagesBelow address) = statVec v.vmFlags n + lockVec locked +
        acctVec (if v.vmFlags.has VM_ACCOUNT then (grow : ℕ) else 0) := charge_block
    rw [hcharge]
    abel
  rw [hbooks] at hall
  exact hall

theorem vmStatAccount_totalVm (mm : Mm) (flags : VmFlags) (k : BitVec 64) :
    (vmStatAccount mm flags k).totalVm = mm.totalVm+k := by
  unfold vmStatAccount
  dsimp only
  repeat' split
  all_goals rfl

theorem growDown_totalVm (mm : Mm) (x : VmaId) (address grow : ℕ) :
    (growDown mm x address grow).totalVm = mm.totalVm+BitVec.ofNat 64 grow := by
  unfold growDown
  exact vmStatAccount_totalVm _ _ _

theorem growDown_vmPrev (mm : Mm) (x : VmaId) (address grow : ℕ) :
    (growDown mm x address grow).vmPrev = mm.vmPrev := by
  have hstat (m : Mm) (flags : VmFlags) (k : BitVec 64) :
      (vmStatAccount m flags k).vmPrev = m.vmPrev :=
    (congrArg Mm.vmPrev (shape_vmStatAccount flags k) :)
  unfold growDown
  exact hstat _ _ _

def Vma.overcharge (v : Vma) (grow : ℕ) : ℤ := if v.vmFlags.has VM_ACCOUNT then 0 else grow

structure GrownDown (env : StackEnv) (s : MmSys) (A : List VmaId) (x : VmaId) (B : List VmaId)
    (address : ℕ) (s' : MmSys) : Prop where
  lt : address < (s.mm.core x).vmStart
  core : s'.mm.core = Function.update s.mm.core x ((s.mm.core x).grownTo address)
  does : Does True s (A ++ x :: B) s' (A ++ x :: B)
    (pages s.mm.core (A ++ x :: B) + (s.mm.core x).pagesBelow address)
    ((s.mm.core x).overcharge (((s.mm.core x).vmStart-address)/4096))
  links : s'.mm.vmPrev = s.mm.vmPrev
  total : s'.mm.totalVm = s.mm.totalVm+BitVec.ofNat 64 (((s.mm.core x).vmStart-address)/4096)
  offset : ((s.mm.core x).vmStart-address)/4096 ≤ (s.mm.core x).vmPgoff.toNat
  room : mayExpandVm env.toMmEnv s.mm (s.mm.core x).vmFlags
    (BitVec.ofNat 64 (((s.mm.core x).vmStart-address)/4096)) = true
  stack : actualSize (s.mm.core x).vmFlags ((s.mm.core x).vmEnd-address) ≤ env.stack.toNat

/-- Under the lock of the `anon_vma`: nothing happens, or the area grows. -/
theorem growTo_cases (env : StackEnv) (h : Wf s.mm (A ++ x :: B)) (hd : 4096 ∣ address)
    (hA : ∀ a ∈ A, (s.mm.core a).vmEnd ≤ address) :
    let r := growTo env s x address
    (r.1 < 0 ∧ Same s r.2 (A ++ x :: B)) ∨ (r = (0, s) ∧ (s.mm.core x).vmStart ≤ address) ∨
      (r.1 = 0 ∧ GrownDown env s A x B address r.2) := by
  have hv : AreaOk (s.mm.core x) := h.ordered.area x (by simp)
  have hstart : (s.mm.vma x).vmStart = (s.mm.core x).vmStart := rfl
  have hend : (s.mm.vma x).vmEnd = (s.mm.core x).vmEnd := rfl
  have hpgoff : (s.mm.vma x).vmPgoff = (s.mm.core x).vmPgoff := rfl
  unfold growTo
  dsimp only
  rw [hstart, hend, hpgoff]
  split
  next hlt =>
    have hstart_lt : (s.mm.core x).vmStart < 2^64 := hv.lt.trans hv.end_lt
    rw [wsub_eq hlt.le hstart_lt, wsub_eq (hlt.le.trans hv.lt.le) hv.end_lt]
    split
    next => exact .inl ⟨show (-ENOMEM : ℤ) < 0 by decide, Same.refl h⟩
    next hoff =>
      rcases acctStackGrowth_cases env x ((s.mm.core x).vmEnd-address)
          (((s.mm.core x).vmStart-address)/4096) h with
        ⟨hneg, hsame⟩ | ⟨hz, hmm, hcharge, hroom, hstack⟩
      · rw [if_pos hneg.ne]
        exact .inl ⟨hneg, hsame⟩
      · rw [if_neg (not_not.2 hz)]
        set t :=
          (acctStackGrowth env s x ((s.mm.core x).vmEnd-address)
            (((s.mm.core x).vmStart-address)/4096)).2
        have hcore : t.mm.core = s.mm.core := by rw [hmm]
        have hacts := growDown_acts (s := t) (by rw [hmm]; exact h) (by rw [hcore]; exact hlt) hd
          (by rw [hcore]; exact hA)
        dsimp only at hacts
        rw [hcore] at hacts
        obtain ⟨hcore', hwf, hpages, hbooks, hfixed⟩ := hacts
        refine .inr (.inr ⟨rfl, hlt, hcore', ?_, ?_, ?_, not_lt.1 hoff, hroom, hstack⟩)
        · obtain ⟨d, hledger, hzero⟩ := hcharge.kept
          have hsum :
              ledger (t.setMm (growDown t.mm x address (((s.mm.core x).vmStart-address)/4096)))
              (A ++ x :: B) =
                ledger s (A ++ x :: B) + acctVec
                ((s.mm.core x).overcharge (((s.mm.core x).vmStart-address)/4096)) := by
            rw [hbooks, hledger, hzero trivial, lockVec_zero, add_zero, add_assoc]
            congr 1
            unfold Vma.overcharge
            split
            · rw [acctVec_zero]
              exact add_neg_cancel _
            · rw [acctVec_zero, neg_zero, add_zero]
          exact .of_eq hwf hpages hsum (hfixed.trans hcharge.fixed)
        · exact (growDown_vmPrev t.mm x address _).trans (by rw [hmm])
        · show (growDown t.mm x address (((s.mm.core x).vmStart-address)/4096)).totalVm = _
          rw [growDown_totalVm, hmm]
  next hge => exact .inr (.inl ⟨rfl, not_lt.1 hge⟩)

theorem GrownDown.of_quiet {t : MmSys} (hq : Quiet s t) (h : Wf s.mm (A ++ x :: B))
    (hg : GrownDown env t A x B address s') : GrownDown env s A x B address s' := by
  obtain ⟨hlt, hcore, hdoes, hlinks, htotal, hoff, hroom, hstack⟩ := hg
  obtain ⟨vma', hmm⟩ := hq.mm
  have hfirst : Does True s (A ++ x :: B) t (A ++ x :: B) (pages s.mm.core (A ++ x :: B)) 0 :=
    (hq.same h).does
  have hall := hfirst.trans hdoes id
  rw [hq.core] at hlt hcore hall htotal hoff hroom hstack
  rw [zero_add] at hall
  have hexpand (k : BitVec 64) (flags : VmFlags) :
      mayExpandVm env.toMmEnv t.mm flags k = mayExpandVm env.toMmEnv s.mm flags k := by
    rw [hmm]
    rfl
  rw [hexpand] at hroom
  exact ⟨hlt, hcore, hall, hlinks.trans (by rw [hmm]), htotal.trans (by rw [hmm]), hoff,
    hroom, hstack⟩

def Expands (env : StackEnv) (s : MmSys) (A : List VmaId) (x : VmaId) (B : List VmaId) (address : ℕ)
    (r : ℤ × MmSys) : Prop :=
  (r.1 < 0 ∧ Same s r.2 (A ++ x :: B)) ∨
    (r.1 = 0 ∧ Quiet s r.2 ∧ (s.mm.core x).vmStart ≤ pageMask address) ∨
    (r.1 = 0 ∧ GrownDown env s A x B (pageMask address) r.2)

theorem expandDownwards_expands (env : StackEnv) (h : Wf s.mm (A ++ x :: B))
    (hA : ∀ a ∈ A, (s.mm.core a).vmEnd ≤ pageMask address) :
    Expands env s A x B address (expandDownwards env s x address) := by
  have hsec := outcome_quiet s
  have hanon := hsec.trans (anonVmaPrepare_quiet env.freshAnon s.outcome.2 x)
  unfold expandDownwards
  dsimp only
  split
  next hne => exact .inl ⟨(outcome_isErr hne).2, hsec.same h⟩
  next =>
    split
    next hne =>
      have hneg : (anonVmaPrepare env.freshAnon s.outcome.2 x).1 < 0 := by
        unfold anonVmaPrepare at hne ⊢
        split at hne
        next => exact absurd rfl hne
        next hnone =>
          rw [if_neg hnone]
          dsimp only at hne ⊢
          split at hne
          next hfail =>
            rw [if_pos hfail]
            exact show (-ENOMEM : ℤ) < 0 by decide
          next => exact absurd rfl hne
      exact .inl ⟨hneg, hanon.same h⟩
    next =>
      set t := (anonVmaPrepare env.freshAnon s.outcome.2 x).2
      have hbelow : ∀ a ∈ A, (t.mm.core a).vmEnd ≤ pageMask address := by
        rw [hanon.core]
        exact hA
      rcases growTo_cases env (hanon.wf h) (pageMask_dvd address) hbelow with
        ⟨hneg, hsame⟩ | ⟨hr, hge⟩ | ⟨hz, hgrown⟩
      · exact .inl ⟨hneg, (hanon.same h).trans hsame⟩
      · rw [hr]
        rw [hanon.core] at hge
        exact .inr (.inl ⟨rfl, hanon, hge⟩)
      · exact .inr (.inr ⟨hz, hgrown.of_quiet hanon h⟩)

theorem pageMask_pageMask (a : ℕ) : pageMask (pageMask a) = pageMask a := by
  unfold pageMask
  omega

/-- The page below the stack belongs to no area, or to another stack. -/
def Guarded (mm : Mm) (x : VmaId) : Prop :=
  ∀ p, mm.vmPrev x = some p → (mm.core p).vmEnd ≠ (mm.core x).vmStart ∨
    (mm.core p).vmFlags.has VM_GROWSDOWN = true

/-- `expand_stack` also leaves a guard page. -/
theorem expandStack_expands (env : StackEnv) (h : Wf s.mm (A ++ x :: B))
    (hA : ∀ a ∈ A, (s.mm.core a).vmEnd ≤ pageMask address) :
    let r := expandStack env s x address
    Expands env s A x B address r ∧
      (GrownDown env s A x B (pageMask address) r.2 → r.1 = 0 → Guarded r.2.mm x) := by
  have hprev : s.mm.vmPrev x = A.getLast? := h.rep.prev_eq
  have hexpands : Expands env s A x B address (expandDownwards env s x (pageMask address)) := by
    have hcall :
        Expands env s A x B (pageMask address) (expandDownwards env s x (pageMask address)) :=
      expandDownwards_expands env h (by rw [pageMask_pageMask]; exact hA)
    unfold Expands at hcall ⊢
    rw [pageMask_pageMask] at hcall
    exact hcall
  -- the areas below the stack are as before, so the test still says what lies below the new start
  have hguard : (∀ p, s.mm.vmPrev x = some p → (s.mm.core p).vmEnd ≠ pageMask address ∨
      (s.mm.core p).vmFlags.has VM_GROWSDOWN = true) → ∀ r : MmSys,
      GrownDown env s A x B (pageMask address) r → Guarded r.mm x := by
    intro htest r hgrown p hp
    rw [hgrown.links] at hp
    have hne : p ≠ x := by
      rintro rfl
      exact h.rep.notMem.1 (List.mem_of_getLast? (hprev.symm.trans hp))
    rw [hgrown.core, Function.update_self, Function.update_of_ne hne]
    exact htest p hp
  unfold expandStack
  dsimp only
  cases hp : s.mm.vmPrev x with
  | none => exact ⟨hexpands, fun hgrown _ => hguard (fun p hp' => by simp [hp] at hp') _ hgrown⟩
  | some p =>
    dsimp only
    split
    next => exact ⟨.inl ⟨show (-ENOMEM : ℤ) < 0 by decide, Same.refl h⟩,
    fun _ hz => absurd (show (-ENOMEM : ℤ) = 0 from hz) (by decide)⟩
    next hok =>
      refine ⟨hexpands, fun hgrown _ => hguard (fun q hq => ?_) _ hgrown⟩
      obtain rfl : p = q := Option.some.inj (hp.symm.trans hq)
      rcases not_and_or.1 hok with hend | hgrows
      · exact .inl hend
      · exact .inr (Bool.eq_true_of_not_eq_false hgrows)

/-! The fault. -/

theorem Free.view_none {mm : Mm} {start end_ p : ℕ} (hf : Free mm.core L start end_) (h : Wf mm L)
    (hp : start ≤ 4096*p ∧ 4096*p < end_) : mm.view p = none := by
  cases hview : mm.view p with
  | none => rfl
  | some i =>
    obtain ⟨y, hy, ⟨hs, he⟩, -⟩ := (view_eq_some h).1 hview
    rcases hf y hy with hend | hstart
    · exact absurd (he.trans_le hend) (not_lt.2 hp.1)
    · exact absurd (hp.2.trans_le hstart) (not_lt.2 hs)

/-- The gap below an area. -/
theorem free_below {start : ℕ} (h : Wf s.mm (A ++ x :: B))
    (hA : ∀ a ∈ A, (s.mm.core a).vmEnd ≤ start) :
    Free s.mm.core (A ++ x :: B) start (s.mm.core x).vmStart := by
  intro y hy
  rcases List.mem_append.1 hy with hyA | hyB
  · exact .inl (hA y hyA)
  · refine .inr ?_
    rcases List.mem_cons.1 hyB with rfl | hyB
    · exact le_rfl
    · have hafter := (ordered_cons.1 (ordered_append.1 h.ordered).2.1).2.2 y hyB
      exact ((h.ordered.area x (by simp)).lt.le).trans hafter

inductive Extends (env : StackEnv) (s : MmSys) (L : List VmaId) (page : ℕ) :
    Option VmaId × MmSys → Prop
  | fails (s' : MmSys) (hs : Same s s' L)
      (hno : Free s.mm.core L page (page+1)) :
      Extends env s L page (none, s')
  | holds (x : VmaId) (hx : x ∈ L) (hs : (s.mm.core x).vmStart ≤ page)
      (he : page < (s.mm.core x).vmEnd) : Extends env s L page (some x, s)
  | grows (A B : List VmaId) (x : VmaId) (s' : MmSys) (hL : L = A ++ x :: B)
      (hA : ∀ a ∈ A, (s.mm.core a).vmEnd ≤ page)
      (hstack : (s.mm.core x).vmFlags.has VM_GROWSDOWN = true)
      (hg : GrownDown env s A x B page s') (hguard : Guarded s'.mm x) :
        Extends env s L page (some x, s')

theorem findExtendVma_extends (env : StackEnv) (addr : ℕ) (h : Wf s.mm L) :
    Extends env s L (pageMask addr) (findExtendVma env s addr) := by
  have hord : Ordered s.mm.vma L := ordered_core.1 h.ordered
  unfold findExtendVma
  cases hfind : findVma s.mm (pageMask addr) with
  | none =>
    have hend := findVma_none h.rep hord hfind
    exact .fails s (Same.refl h) fun x hx => .inl (hend x hx)
  | some x =>
    obtain ⟨A, B, rfl, hA, hlt⟩ := findVma_some h.rep hord hfind
    dsimp only
    split
    next hs => exact .holds x (by simp) hs hlt
    next hbelow =>
      -- the page lies in the gap below `x`
      have hno : Free s.mm.core (A ++ x :: B) (pageMask addr) (pageMask addr+1) := fun y hy =>
        (free_below h hA y hy).imp_right (not_le.1 hbelow).trans_le
      split
      next => exact .fails s (Same.refl h) hno
      next hgrows =>
        have hA' : ∀ a ∈ A, (s.mm.core a).vmEnd ≤ pageMask (pageMask addr) := by
          rw [pageMask_pageMask]
          exact hA
        obtain ⟨hexp, hguard⟩ := expandStack_expands env h hA'
        unfold Expands at hexp
        rw [pageMask_pageMask] at hexp hguard
        rcases hexp with ⟨hneg, hsame⟩ | ⟨-, -, hge⟩ | ⟨hz, hgrown⟩
        · rw [if_pos hneg.ne]
          exact .fails _ hsame hno
        · exact absurd hge hbelow
        · rw [if_neg (not_not.2 hz)]
          exact .grows A B x _ rfl hA (Bool.eq_true_of_not_eq_false hgrows) hgrown
            (hguard hgrown hz)

def Vma.pageBelow (v : Vma) (p : ℕ) : PageInfo :=
  ⟨v.vmFile, v.vmPgoff-BitVec.ofNat 64 (v.vmStart/4096-p), cleanFlags v.vmFlags⟩

theorem GrownDown.view (hg : GrownDown env s A x B address s') (h : Wf s.mm (A ++ x :: B))
    (hd : 4096 ∣ address) (p : ℕ) :
    s'.mm.view.clean p = if address ≤ 4096*p ∧ 4096*p < (s.mm.core x).vmStart then
      some ((s.mm.core x).pageBelow p) else s.mm.view.clean p := by
  have hv : AreaOk (s.mm.core x) := h.ordered.area x (by simp)
  have hr : RangeOk address (s.mm.core x).vmStart :=
    ⟨hg.lt, hd, hv.start_dvd, hv.lt.trans hv.end_lt⟩
  have hnone : pages s.mm.core (A ++ x :: B) = pages s.mm.core (A ++ x :: B) + 0 :=
    (add_zero _).symm
  rw [view_replaced h hg.does.wf hr hnone hg.does.pages fun q i hq =>
    absurd hq (Multiset.notMem_zero _)]
  split
  next hp =>
    -- offsets are counted from the new start on the one side, from the old start on the other
    have hcount : (s.mm.core x).vmStart/4096-p+(p-address/4096) =
        ((s.mm.core x).vmStart-address)/4096 := by
      obtain ⟨a, rfl⟩ := hd
      obtain ⟨b, hb⟩ := hv.start_dvd
      rw [hb] at hp ⊢
      omega
    rw [Vma.pageBelow, ← hcount, BitVec.ofNat_add, sub_add_eq_sub_sub, sub_add_cancel]
  next => rfl

/-- The limit on the stack does not count the guard page. -/
theorem GrownDown.size_le (hg : GrownDown env s A x B address s') (h : Wf s.mm (A ++ x :: B))
    (hd : 4096 ∣ address) (hstack : (s.mm.core x).vmFlags.has VM_GROWSDOWN = true) :
    (s.mm.core x).vmEnd-address ≤ env.stack.toNat+4096 := by
  have hv : AreaOk (s.mm.core x) := h.ordered.area x (by simp)
  have hsize : 4096 ≤ (s.mm.core x).vmEnd-address := by
    obtain ⟨a, rfl⟩ := hd
    obtain ⟨b, hb⟩ := hv.end_dvd
    have hend := hg.lt.trans hv.lt
    omega
  have hlimit := hg.stack
  rw [actualSize, if_pos ⟨by omega, hstack⟩, wsub_eq hsize ((Nat.sub_le _ _).trans_lt hv.end_lt)]
    at hlimit
  omega

/-- A stack fault maps the pages from the fault to the stack that lies above it, none of which was
mapped, with the offsets in front of its own; or it finds the page mapped already; or it maps
nothing at all. The stack stays within its limit, which does not count the guard page, and the
address space within its own. What lies below ends before the new start; only another stack may end
right at it. -/
theorem findExtendVma_view (env : StackEnv) (s : MmSys) (L : List VmaId) (addr : ℕ)
    (h : Wf s.mm L) :
    let page := pageMask addr
    let r := findExtendVma env s addr
    (r.1 = none → s.mm.view (page/4096) = none ∧ r.2.mm.view.clean = s.mm.view.clean) ∧
      ∀ x, r.1 = some x → r.2.mm.view (page/4096) ≠ none ∧
        (∀ p, r.2.mm.view.clean p = if page ≤ 4096*p ∧ 4096*p < (s.mm.core x).vmStart then
          some ((s.mm.core x).pageBelow p) else s.mm.view.clean p) ∧
        (page < (s.mm.core x).vmStart → (s.mm.core x).vmFlags.has VM_GROWSDOWN = true ∧
          (∀ p, page ≤ 4096*p → 4096*p < (s.mm.core x).vmStart → s.mm.view p = none) ∧
          (∀ b, s.mm.vmPrev x = some b → (s.mm.core b).vmEnd ≤ page) ∧ Guarded r.2.mm x ∧
          (s.mm.core x).vmEnd-page ≤ env.stack.toNat+4096 ∧
            r.2.mm.totalVm ≤ env.rlim.as >>> 12) := by
  intro page r
  have hpage : 4096*(page/4096) = page := Nat.mul_div_cancel' (pageMask_dvd addr)
  have hext : Extends env s L page r := findExtendVma_extends env addr h
  generalize r = r at hext
  cases hext with
  | fails s' hs hno =>
    refine ⟨fun _ => ⟨?_, view_of_pages h hs.wf hs.pages_eq⟩, fun x hx => by simp at hx⟩
    exact hno.view_none h ⟨hpage.ge, hpage.le.trans_lt (Nat.lt_succ_self page)⟩
  | holds x hx hs he =>
    refine ⟨fun hnone => by simp at hnone, fun y hy => ?_⟩
    obtain rfl : x = y := Option.some.inj hy
    refine ⟨?_, fun p => ?_, fun hlt => absurd hs (not_le.2 hlt)⟩
    · have hview := (view_eq_some (p := page/4096) h).2
        ⟨x, hx, ⟨by rw [hpage]; exact hs, by rw [hpage]; exact he⟩, rfl⟩
      rw [hview]
      exact Option.some_ne_none _
    · rw [if_neg fun hp => absurd (hp.1.trans_lt hp.2) (not_lt.2 hs)]
  | grows A B x s' hL hA hstack hg hguard =>
    subst hL
    refine ⟨fun hnone => by simp at hnone, fun y hy => ?_⟩
    obtain rfl : x = y := Option.some.inj hy
    have hview := hg.view h (pageMask_dvd addr)
    have hfree := free_below h hA
    refine ⟨fun hnone => ?_, hview, fun hlt =>
      ⟨hstack, fun p hs he => hfree.view_none h ⟨hs, he⟩, fun b hb => ?_, hguard, ?_, ?_⟩⟩
    · have hthis := hview (page/4096)
      rw [if_pos ⟨hpage.ge, by rw [hpage]; exact hg.lt⟩, PageMap.clean, hnone] at hthis
      simp at hthis
    · exact hA b (List.mem_of_getLast? (h.rep.prev_eq.symm.trans hb))
    · exact hg.size_le h (pageMask_dvd addr) hstack
    · rw [hg.total]
      exact mayExpandVm_total hg.room

def stackMm : Mm :=
  Mm.ofArea { vmStart := 0x20000, vmEnd := 0x22000, vmPgoff := 0x20,
              vmFlags := VM_READ ||| VM_WRITE ||| VM_GROWSDOWN ||| VM_ACCOUNT }

theorem wf_stackMm : Wf stackMm [0] := wf_ofArea ⟨by decide, by decide, by decide, by decide⟩

/-- A fault two pages below the stack, and what the page in between shows then. -/
theorem findExtendVma_view_stack :
    let env : StackEnv := { MmEnv.unlimited 10 with stack := 0x800000 }
    let r := findExtendVma env { mm := stackMm } 0x1e123
    r.1 = some 0 ∧ r.2.mm.view.clean 0x1f = some ((stackMm.core 0).pageBelow 0x1f) := by
  intro env r
  have hsome : r.1 = some 0 := by decide +kernel
  refine ⟨hsome, ?_⟩
  have hview :=
    ((findExtendVma_view env { mm := stackMm } [0] 0x1e123 wf_stackMm).2 0 hsome).2.1 0x1f
  rw [if_pos ⟨by decide, by decide⟩] at hview
  exact hview

end PtraceRemote
