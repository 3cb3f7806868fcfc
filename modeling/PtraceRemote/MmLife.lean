import PtraceRemote.Runs
import PtraceRemote.MmStack
import PtraceRemote.FileRefs

/-! The life of an address space: besides the operations of MmRequest, the special mappings that the
kernel installs (`insert_vm_struct`, `__install_special_mapping`), stacks that grow on a fault, and
`exit_mmap` at the end, all of mm/mmap.c. -/
namespace PtraceRemote

open AugTree (Balance)

def insertVmStructCharged (rb : Balance VmaId) (s : MmSys) (x : VmaId) : ℤ × MmSys :=
  let v := s.mm.vma x
  match findVmaLinks s.mm v.vmStart v.vmEnd with
  | none => (-ENOMEM, s)
  | some k =>
    let charge := if v.vmFlags.has VM_ACCOUNT then vmEnoughMemory s v.pages else (0, s)
    if charge.1 ≠ 0 then (-ENOMEM, charge.2)
    else if vmaIsAnonymous v then
      if v.anonVma ≠ none then (0, charge.2.setMm { charge.2.mm with bug := true })
      else
        let mm :=
          charge.2.mm.modVma x fun v => { v with vmPgoff := BitVec.ofNat 64 (v.vmStart/4096) }
        (0, charge.2.setMm (vmaLink rb mm x k))
    else (0, charge.2.setMm (vmaLink rb charge.2.mm x k))

def specialFlags (mm : Mm) (vmFlags : VmFlags) : VmFlags :=
  vmFlags ||| mm.defFlags ||| VM_DONTEXPAND ||| VM_SOFTDIRTY

def specialArea (mm : Mm) (addr len : ℕ) (vmFlags : VmFlags) (legacy : Bool) : Vma :=
  { vmStart := addr
    vmEnd := wadd addr len
    vmFlags := specialFlags mm vmFlags
    hasOps := true
    hasClose := true
    hasMremap := !legacy }

def installSpecialMapping (rb : Balance VmaId) (s : MmSys) (addr len : ℕ) (vmFlags : VmFlags)
    (legacy : Bool) :
    ℤ × MmSys :=
  let alloc := s.outcome
  if alloc.1 ≠ 0 then (-ENOMEM, alloc.2)
  else
    let v := specialArea alloc.2.mm addr len vmFlags legacy
    let r := insertVmStructCharged rb (allocVma alloc.2 v) alloc.2.mm.nextId
    if r.1 ≠ 0 then r
      else (0, r.2.setMm (vmStatAccount r.2.mm v.vmFlags (BitVec.ofNat 64 (len/4096))))

def exitMmap (s : MmSys) : MmSys :=
  let areas := s.mm.areasFrom s.mm.mmap
  vmUnacctMemory (areas.foldl (fun s x => s.fput (s.mm.vma x).vmFile) s)
    (nrAccounted s.mm.vma areas)

variable {s s' : MmSys} {rb : Balance VmaId} {L L' : List VmaId} {n : VmaId} {G : Prop}

/-! Special mappings. -/

/-- The charge of `insert_vm_struct`. -/
theorem accountArea_spec (v : Vma) (h : Wf s.mm L) :
    let r := if v.vmFlags.has VM_ACCOUNT then vmEnoughMemory s v.pages else (0, s)
    (r.1 ≠ 0 ∧ Same s r.2 L) ∨ (r.1 = 0 ∧ r.2.mm = s.mm ∧
      Acts s L r.2 L (pages s.mm.core L)
        (acctVec (if v.vmFlags.has VM_ACCOUNT then v.pages else 0))) := by
  dsimp only
  split
  next =>
    obtain ⟨hmm, ⟨hne, hsame⟩ | ⟨hz, hdoes⟩⟩ := vmEnoughMemory_spec (G := True) h (v.pages : ℤ)
    · exact .inl ⟨hne, hsame⟩
    · obtain ⟨d, hbooks, hd⟩ := hdoes.kept
      refine .inr ⟨hz, hmm, hdoes.wf, hdoes.pages, ?_, hdoes.fixed⟩
      rw [hbooks, hd trivial, lockVec_zero, add_zero]
  next =>
    refine .inr ⟨rfl, rfl, h, rfl, ?_, rfl⟩
    rw [acctVec_zero, add_zero]

/-- Linking an area without a file, after a change of the books by `c`. -/
theorem Spare.insert (rb : Balance VmaId) {t u : MmSys} {A B : List VmaId} {v : Vma} {k : VmaLinks}
    {c : Ledger} (hc : Acts s (A ++ B) t (A ++ B) (pages s.mm.core (A ++ B)) c) (hmm : t.mm = s.mm)
    (hu : Spare t u (A ++ B) n v) (hk : LinksAt s.mm A B k) (hv : AreaOk v)
    (hfile : v.vmFile = none) (hA : ∀ a ∈ A, (s.mm.core a).vmEnd ≤ v.vmStart)
    (hB : ∀ b ∈ B, v.vmEnd ≤ (s.mm.core b).vmStart) :
    Acts s (A ++ B) (u.setMm (vmaLink rb u.mm n k)) (A ++ n :: B)
      (pages s.mm.core (A ++ B) + blockPages v.vmStart v.vmEnd none v.vmPgoff v.vmFlags)
      (c - charge (blockPages v.vmStart v.vmEnd none v.vmPgoff v.vmFlags)) := by
  rw [← hmm] at hk hA hB
  have hplaced := hu.link rb hk hv hA hB
  have hget : u.getFile none = u := rfl
  dsimp only at hplaced
  rw [hfile, hget] at hplaced
  refine ⟨hplaced.wf, ?_, ?_, hplaced.fixed.trans hc.fixed⟩
  · rw [hplaced.adds, hmm]
  · rw [hplaced.books, hc.books]
    abel

def Vma.insertPgoff (v : Vma) : BitVec 64 :=
  if vmaIsAnonymous v then BitVec.ofNat 64 (v.vmStart/4096) else v.vmPgoff

/-- The area is refused, or linked where there is room for it. The counters know of its charge
only. -/
theorem insertVmStructCharged_spec (rb : Balance VmaId) (h : Wf s.mm L) (hlt : n < s.mm.nextId)
    (hn : n ∉ L) (hv : AreaOk (s.mm.vma n)) (hfile : (s.mm.vma n).vmFile = none)
    (hanon : (s.mm.vma n).anonVma = none) :
    let v := s.mm.vma n
    let r := insertVmStructCharged rb s n
    (r.1 < 0 ∧ Same s r.2 L) ∨ (r.1 = 0 ∧ Free s.mm.core L v.vmStart v.vmEnd ∧ ∃ L',
      Acts s L r.2 L'
        (pages s.mm.core L + blockPages v.vmStart v.vmEnd none v.insertPgoff v.vmFlags)
        (acctVec (if v.vmFlags.has VM_ACCOUNT then v.pages else 0) -
          charge (blockPages v.vmStart v.vmEnd none v.insertPgoff v.vmFlags))) := by
  intro v
  have hnomem : (-ENOMEM : ℤ) < 0 := by decide
  unfold insertVmStructCharged
  dsimp only
  cases hk : findVmaLinks s.mm (s.mm.vma n).vmStart (s.mm.vma n).vmEnd with
  | none => exact .inl ⟨hnomem, Same.refl h⟩
  | some k =>
    obtain ⟨A, B, rfl, hlinks, hA, hB⟩ := findVmaLinks_some h.rep (ordered_core.1 h.ordered) hk
    have hB' : ∀ b ∈ B, v.vmEnd ≤ (s.mm.core b).vmStart := fun b hb => (hB b hb).2
    have hroom : Free s.mm.core (A ++ B) v.vmStart v.vmEnd := by
      intro y hy
      rcases List.mem_append.1 hy with ha | hb
      · exact .inl (hA y ha)
      · exact .inr (hB' y hb)
    dsimp only
    rcases accountArea_spec v h with ⟨hne, hsame⟩ | ⟨hz, hmm, hacct⟩
    · rw [if_pos hne]
      exact .inl ⟨hnomem, hsame⟩
    · rw [if_neg (not_not.2 hz)]
      set t := (if v.vmFlags.has VM_ACCOUNT then vmEnoughMemory s v.pages else (0, s)).2
      have hspare : Spare t t (A ++ B) n v.core :=
        ⟨Same.refl hacct.wf, by rw [hmm]; exact hlt, hn, by rw [hmm]; rfl, rfl⟩
      split
      next hops =>
        rw [if_neg (not_not.2 hanon), Vma.insertPgoff, if_pos hops]
        have hoff := hspare.modify
          (f := fun v => { v with vmPgoff := BitVec.ofNat 64 (v.vmStart/4096) }) ⟨rfl, rfl⟩
        have hvma : t.mm.vma n = v := by rw [hmm]
        rw [hvma] at hoff
        exact .inr ⟨rfl, hroom, A ++ n :: B, hoff.insert rb hacct hmm hlinks hv hfile hA hB'⟩
      next hops =>
        rw [Vma.insertPgoff, if_neg hops]
        have hlink := hspare.insert rb hacct hmm hlinks hv hfile hA hB'
        exact .inr ⟨rfl, hroom, A ++ n :: B, hlink⟩

/-- A special mapping adds its pages and leaves the others alone. It counts them, but not among the
locked ones, though `def_flags` may lock them. -/
theorem installSpecialMapping_spec (rb : Balance VmaId) (addr len : ℕ) (vmFlags : VmFlags)
    (legacy : Bool) (h : Wf s.mm L) (hr : RangeOk addr (addr+len)) :
    let r := installSpecialMapping rb s addr len vmFlags legacy
    let flags := specialFlags s.mm vmFlags
    (r.1 < 0 ∧ Same s r.2 L) ∨ (r.1 = 0 ∧ Free s.mm.core L addr (addr+len) ∧ ∃ L',
      Acts s L r.2 L' (pages s.mm.core L + blockPages addr (addr+len) none 0 flags)
        (-lockVec (if flags.has VM_LOCKED then BitVec.ofNat 64 (len/4096) else 0))) := by
  intro r flags
  have halloc := outcome_quiet s
  have hdef : s.outcome.2.mm.defFlags = s.mm.defFlags := by
    obtain ⟨vma', hmm⟩ := halloc.mm
    rw [hmm]
  show (r.1 < 0 ∧ _) ∨ _
  unfold r installSpecialMapping
  dsimp only
  split
  next => exact .inl ⟨show (-ENOMEM : ℤ) < 0 by decide, halloc.same h⟩
  next =>
    set v := specialArea s.outcome.2.mm addr len vmFlags legacy with hv
    have hend : v.vmEnd = addr+len := wadd_eq hr.end_lt
    have hflags : v.vmFlags = flags := by
      show specialFlags s.outcome.2.mm vmFlags = specialFlags s.mm vmFlags
      rw [specialFlags, hdef, specialFlags]
    have hspare := spare_alloc halloc h v
    set t := allocVma s.outcome.2 v
    set n := s.outcome.2.mm.nextId
    have hvma : t.mm.vma n = v := Function.update_self ..
    have harea : AreaOk (t.mm.vma n) := by
      rw [hvma]
      refine ⟨?_, hr.start_dvd, ?_, ?_⟩ <;> rw [hend]
      exacts [hr.lt, hr.end_dvd, hr.end_lt]
    rcases insertVmStructCharged_spec rb hspare.same.wf hspare.lt hspare.notMem harea
      (by rw [hvma]; rfl) (by rw [hvma]; rfl) with ⟨hneg, hsame⟩ | ⟨hz, hroom, L', hacts⟩
    · rw [if_pos hneg.ne]
      exact .inl ⟨hneg, hspare.same.trans hsame⟩
    · rw [if_neg (not_not.2 hz)]
      rw [hvma, hend] at hroom
      have hroom' : Free s.mm.core L addr (addr+len) := fun y hy => by
        rw [← hspare.same.core y hy]
        exact hroom y hy
      refine .inr ⟨rfl, hroom', L', ?_⟩
      have hoff : v.insertPgoff = 0 := rfl
      have hstart : v.vmStart = addr := rfl
      have hpages : v.pages = len/4096 := by
        rw [Vma.pages, hend]
        exact congrArg (·/4096) (Nat.add_sub_cancel_left addr len)
      rw [hvma, hstart, hend, hoff, hflags, hpages, hspare.same.pages_eq] at hacts
      rw [hflags]
      have hstat := hacts.trans (acts_stat hacts.wf flags (BitVec.ofNat 64 (len/4096)))
      rw [hacts.pages] at hstat
      refine ⟨hstat.wf, hstat.pages, ?_, hstat.fixed.trans (fixed_of_rest hspare.same.rest)⟩
      rw [hstat.books, hspare.same.ledger_eq, charge_block, Nat.add_sub_cancel_left]
      abel

/-- A locked special mapping is not counted: its pages are missing in `locked_vm` afterwards. -/
theorem Acts.lockExact_iff {P : Pages} {flags : VmFlags} {len : ℕ} (hlt : len < 2^64)
    (hlen : 4096 ≤ len)
    (ha :
      Acts s L s' L' P (-lockVec (if flags.has VM_LOCKED then BitVec.ofNat 64 (len/4096) else 0)))
    (hexact : LockExact s L) : LockExact s' L' ↔ flags.has VM_LOCKED = false := by
  have hpart : lockPart (ledger s' L') =
      -(if flags.has VM_LOCKED then BitVec.ofNat 64 (len/4096) else 0) := by
    rw [ha.books]
    show lockPart (ledger s L) + _ = _
    rw [hexact]
    exact zero_add _
  have hne : BitVec.ofNat 64 (len/4096) ≠ 0 := by
    intro hzero
    have hnat := congrArg BitVec.toNat hzero
    rw [BitVec.toNat_ofNat, Nat.mod_eq_of_lt ((Nat.div_le_self _ _).trans_lt hlt)] at hnat
    exact absurd hnat (Nat.div_pos hlen (by decide)).ne'
  unfold LockExact
  rw [hpart, neg_eq_zero]
  cases flags.has VM_LOCKED
  · simp
  · simpa using hne

/-- A special mapping takes a range in which nothing was mapped, or fails and changes nothing. Its
pages are all that is new; but where `mlockall` has put `VM_LOCKED` into `def_flags` they are locked
without being counted. -/
theorem installSpecialMapping_view (rb : Balance VmaId) (s : MmSys) (L : List VmaId) (addr len : ℕ)
    (vmFlags : VmFlags) (legacy : Bool) (h : Wf s.mm L) (hr : RangeOk addr (addr+len)) :
    let r := installSpecialMapping rb s addr len vmFlags legacy
    let flags := specialFlags s.mm vmFlags
    (r.1 ≠ 0 → r.2.mm.view.clean = s.mm.view.clean ∧ r.2.committed = s.committed) ∧
      (r.1 = 0 → (∀ p, r.2.mm.view.clean p = if addr ≤ 4096*p ∧ 4096*p < addr+len then
          some ⟨none, BitVec.ofNat 64 (p-addr/4096), cleanFlags flags⟩ else s.mm.view.clean p) ∧
        (∀ p, addr ≤ 4096*p → 4096*p < addr+len → s.mm.view p = none) ∧
        ∃ L',
          Wf r.2.mm L' ∧ (LockExact s L → (LockExact r.2 L' ↔ flags.has VM_LOCKED = false))) := by
  intro r flags
  rcases installSpecialMapping_spec rb addr len vmFlags legacy h hr with
    ⟨hneg, hsame⟩ | ⟨hz, hroom, L', hacts⟩
  · exact ⟨fun _ => ⟨view_of_pages h hsame.wf hsame.pages_eq, hsame.committed⟩,
      fun hzero => absurd hzero hneg.ne⟩
  · have hfree (p : ℕ) (hs : addr ≤ 4096*p) (he : 4096*p < addr+len) : s.mm.view p = none :=
      hroom.view_none h ⟨hs, he⟩
    refine ⟨fun hne => absurd hz hne, fun _ => ⟨fun p => ?_, hfree, L', hacts.wf, ?_⟩⟩
    -- the range was free, so nothing is replaced
    · have hnone : pages s.mm.core L = pages s.mm.core L + 0 := (add_zero _).symm
      have hview := view_replaced (p := p) h hacts.wf hr hnone hacts.pages
        fun q i hq => absurd hq (Multiset.notMem_zero _)
      rw [zero_add] at hview
      exact hview
    · intro hexact
      have hlen : 4096 ≤ len := by
        obtain ⟨a, ha⟩ := hr.start_dvd
        obtain ⟨b, hb⟩ := hr.end_dvd
        have hlt := hr.lt
        omega
      exact hacts.lockExact_iff ((Nat.le_add_left _ _).trans_lt hr.end_lt) hlen hexact

def lockedMm : Mm := { emptyMm with defFlags := VM_LOCKED, def_ok := by decide }

theorem wf_lockedMm : Wf lockedMm [] where
  rep := ⟨rfl, trivial, List.nodup_nil, rfl, trivial, rfl, by simp⟩
  ordered := ⟨List.Pairwise.nil, by simp⟩
  highest := rfl

/-- A special page goes in at 0x30000, locked, and is not counted. -/
theorem installSpecialMapping_view_locked :
    let r := installSpecialMapping Balance.plain { mm := lockedMm } 0x30000 0x1000 VM_READ false
    r.1 = 0 ∧ (r.2.mm.view.clean 0x30).isSome ∧ ∃ L', Wf r.2.mm L' ∧ ¬LockExact r.2 L' := by
  intro r
  have hz : r.1 = 0 := by decide +kernel
  have hr : RangeOk 0x30000 (0x30000+0x1000) := ⟨by decide, by decide, by decide, by decide⟩
  obtain ⟨hview, -, L', hwf, hlock⟩ :=
    (installSpecialMapping_view Balance.plain { mm := lockedMm } [] 0x30000 0x1000 VM_READ false
      wf_lockedMm hr).2 hz
  refine ⟨hz, ?_, L', hwf, ?_⟩
  · rw [hview 0x30, if_pos ⟨by decide, by decide⟩]
    rfl
  · rw [hlock rfl]
    decide

/-! The end. -/

theorem foldl_fput (s : MmSys) (M : List VmaId) :
    let t := M.foldl (fun s x => s.fput (s.mm.vma x).vmFile) s
    t.mm = s.mm ∧ t.committed = s.committed ∧ ∀ f,
      t.fCount f = s.fCount f - refs f s.mm.core M := by
  induction M generalizing s with
  | nil => exact ⟨rfl, rfl, fun f => (sub_zero _).symm⟩
  | cons x M ih =>
    obtain ⟨hmm, hcommitted, hcount⟩ := ih (s.fput (s.mm.vma x).vmFile)
    rw [fput_mm] at hmm
    refine ⟨hmm, hcommitted.trans (fput_committed _ _), fun f => ?_⟩
    have hfile : (s.mm.core x).vmFile = (s.mm.vma x).vmFile := rfl
    have hthis := hcount f
    rw [fput_mm, fput_fCount, dropRefs] at hthis
    rw [List.foldl_cons, hthis, refs_cons, hfile]
    split <;> ring

/-- What `exit_mmap` gives back. -/
theorem exitMmap_gives (h : Wf s.mm L) :
    (exitMmap s).committed = s.committed - nrAccounted s.mm.vma L ∧
    ∀ f, (exitMmap s).fCount f = s.fCount f - s.mm.areasOf f := by
  have hareas : s.mm.areasFrom s.mm.mmap = L := areasFrom_eq (A := []) h
  obtain ⟨-, hcommitted, hcount⟩ := foldl_fput s L
  unfold exitMmap
  dsimp only
  rw [hareas]
  refine ⟨?_, fun f => ?_⟩
  · show (L.foldl _ s).committed - _ = _
    rw [hcommitted]
  · rw [h.areasOf]
    exact hcount f

/-! Whole lives. -/

inductive TaskEvent where
  | call (call : MmCall)
  | fault (addr : ℕ)
  | special (addr len : ℕ) (vmFlags : VmFlags) (legacy : Bool)

structure TaskStep where
  env : StackEnv
  outcomes : List (Fin 4096) := []
  event : TaskEvent

def TaskStep.after (rb : Balance VmaId) (s : MmSys) (st : TaskStep) : MmSys :=
  let s := { s with outcomes := st.outcomes }
  match st.event with
  | .call call => (call.exec rb st.env.toMmEnv s).2
  | .fault addr => (findExtendVma st.env s addr).2
  | .special addr len vmFlags legacy => (installSpecialMapping rb s addr len vmFlags legacy).2

/-- The kernel asks for special mappings of whole pages. -/
def TaskStep.Valid (st : TaskStep) : Prop :=
  match st.event with
  | .special addr len _ _ => RangeOk addr (addr+len)
  | _ => True

/-- The step does not lose a charge: a file that is mapped after the charge does not fail, and
stacks account for their pages. -/
def TaskStep.Charged (s : MmSys) (st : TaskStep) : Prop :=
  match st.event with
  | .call call => call.Charged st.env.toMmEnv
  | .fault _ => ∀ x ∈ s.mm.mmRb.inorder, (s.mm.vma x).vmFlags.has VM_GROWSDOWN = true →
      (s.mm.vma x).vmFlags.has VM_ACCOUNT = true
  | .special _ _ _ _ => True

def MmSys.outside (s : MmSys) (f : FileId) : ℤ := s.fCount f - s.mm.areasOf f

def MmSys.unaccounted (s : MmSys) : ℤ := s.committed - nrAccounted s.mm.vma s.mm.mmRb.inorder

theorem Kept.unaccounted {c : ℤ} (hk : Kept G s L s' L' c) (h : Wf s.mm L) :
    s'.unaccounted = s.unaccounted+c := by
  obtain ⟨k, hbooks, hzero, -⟩ := hk.kept
  have hpart : (ledger s' L').2.2.2.2.2.1 = (ledger s L).2.2.2.2.2.1 + k.2.2.2.2.2.1 + c := by
    rw [hbooks]
    rfl
  rw [acctPart_ledger, acctPart_ledger, hzero] at hpart
  unfold MmSys.unaccounted
  rw [hk.wf.rep.inorder, h.rep.inorder, hpart]
  exact congrArg (· + c) (add_zero _)

def faultOvercharge (mm : Mm) (addr : ℕ) (x : Option VmaId) : ℤ :=
  x.elim 0 fun x => (mm.core x).overcharge (((mm.core x).vmStart-pageMask addr)/4096)

/-- A fault keeps the books, but for the growth of a stack that does not account for its pages. -/
theorem findExtendVma_kept (env : StackEnv) (addr : ℕ) (h : Wf s.mm L) :
    let r := findExtendVma env s addr
    Kept True s L r.2 L (faultOvercharge s.mm addr r.1) ∧ ∀ x, r.1 = some x → x ∈ L ∧
      (pageMask addr < (s.mm.core x).vmStart → (s.mm.core x).vmFlags.has VM_GROWSDOWN = true) := by
  intro r
  have hext : Extends env s L (pageMask addr) r := findExtendVma_extends env addr h
  generalize r = r at hext
  cases hext with
  | fails s' hs hno => exact ⟨hs.does.toKept, fun x hx => by simp at hx⟩
  | holds x hx hs he =>
    have hzero : faultOvercharge s.mm addr (some x) = 0 := by
      show (s.mm.core x).overcharge _ = 0
      rw [Nat.sub_eq_zero_of_le hs, Vma.overcharge]
      simp
    refine ⟨?_, fun y hy => ?_⟩
    · rw [hzero]
      exact Kept.refl h
    · obtain rfl : x = y := Option.some.inj hy
      exact ⟨hx, fun hlt => absurd hs (not_le.2 hlt)⟩
  | grows A B x s' hL hA hstack hg hguard =>
    subst hL
    refine ⟨hg.does.toKept, fun y hy => ?_⟩
    obtain rfl : x = y := Option.some.inj hy
    exact ⟨by simp, fun _ => hstack⟩

theorem faultOvercharge_eq_zero {env : StackEnv} {addr : ℕ} (h : Wf s.mm L)
    (hacct : ∀ x ∈ L, (s.mm.vma x).vmFlags.has VM_GROWSDOWN = true →
      (s.mm.vma x).vmFlags.has VM_ACCOUNT = true) :
    faultOvercharge s.mm addr (findExtendVma env s addr).1 = 0 := by
  obtain ⟨-, hfound⟩ := findExtendVma_kept env addr h
  cases hx : (findExtendVma env s addr).1 with
  | none => rfl
  | some x =>
    obtain ⟨hmem, hgrows⟩ := hfound x hx
    show (s.mm.core x).overcharge _ = 0
    unfold Vma.overcharge
    split
    next => rfl
    next hno =>
      have hheld : (s.mm.core x).vmStart ≤ pageMask addr :=
        not_lt.1 fun hlt => hno (hacct x hmem (hgrows hlt))
      rw [Nat.sub_eq_zero_of_le hheld]
      rfl

/-- A stack fault keeps the counters of pages right. The new pages are charged whether or not the
stack accounts for them; where it does not, they stay charged when it goes. -/
theorem findExtendVma_books (env : StackEnv) (s : MmSys) (L : List VmaId) (addr : ℕ) (h : Wf s.mm L)
    (hc : PageCounts s.mm L) :
    let r := findExtendVma env s addr
    PageCounts r.2.mm L ∧ r.2.outside = s.outside ∧
      r.2.unaccounted = s.unaccounted + faultOvercharge s.mm addr r.1 := by
  obtain ⟨hk, -⟩ := findExtendVma_kept env addr h
  exact ⟨hk.pageCounts h hc, funext (hk.areasOf h), hk.unaccounted h⟩

def looseStackMm : Mm :=
  { Mm.ofArea { vmStart := 0x20000, vmEnd := 0x22000, vmPgoff := 0x20,
                vmFlags := VM_READ ||| VM_GROWSDOWN } with
    totalVm := 2, stackVm := 2 }

theorem wf_looseStackMm : Wf looseStackMm [0] :=
  (wf_ofArea ⟨by decide, by decide, by decide, by decide⟩).of_shape rfl

/-- Two pages more, charged for good. -/
theorem findExtendVma_books_loose :
    let r :=
      findExtendVma { MmEnv.unlimited 10 with stack := 0x800000 } { mm := looseStackMm } 0x1e123
    PageCounts r.2.mm [0] ∧ r.2.mm.totalVm = 4 ∧ r.2.unaccounted = 2 := by
  intro r
  obtain ⟨hcounts, -, hcharge⟩ := findExtendVma_books { MmEnv.unlimited 10 with stack := 0x800000 }
    { mm := looseStackMm } [0] 0x1e123 wf_looseStackMm
    ⟨by decide, by decide, by decide, by decide, by decide⟩
  exact ⟨hcounts, by decide +kernel, hcharge.trans (by decide +kernel)⟩

theorem installSpecialMapping_kept (rb : Balance VmaId) (addr len : ℕ) (vmFlags : VmFlags)
    (legacy : Bool) (h : Wf s.mm L) (hr : RangeOk addr (addr+len)) :
    ∃ L', Kept ((specialFlags s.mm vmFlags).has VM_LOCKED = false) s L
      (installSpecialMapping rb s addr len vmFlags legacy).2 L' 0 := by
  rcases installSpecialMapping_spec rb addr len vmFlags legacy h hr with
    ⟨-, hsame⟩ | ⟨-, -, L', hacts⟩
  · exact ⟨L, hsame.does.toKept⟩
  · refine ⟨L', hacts.wf, ⟨_, hacts.books.trans (add_zero _).symm, rfl, fun hno => ?_⟩,
      (congrArg Mm.bug hacts.fixed :)⟩
    rw [hno, if_neg Bool.false_ne_true, lockVec_zero, neg_zero]

theorem TaskStep.after_kept (rb : Balance VmaId) (st : TaskStep) (h : Wf s.mm L) (hv : st.Valid) :
    ∃ L' c, Kept False s L (st.after rb s) L' c ∧ (st.Charged s → c = 0) := by
  obtain ⟨env, outcomes, event⟩ := st
  cases event with
  | call call =>
    obtain ⟨L', c, hk, hc⟩ := PtraceRemote.after_kept rb ⟨env.toMmEnv, outcomes, call⟩ h
    exact ⟨L', c, hk.mono False.elim, hc⟩
  | fault addr =>
    obtain ⟨hk, -⟩ := findExtendVma_kept (s := { s with outcomes := outcomes }) env addr h
    refine ⟨L, _, ⟨hk.wf, (hk.mono False.elim).kept, hk.bug⟩, fun hcharged => ?_⟩
    rw [TaskStep.Charged, h.rep.inorder] at hcharged
    exact faultOvercharge_eq_zero (s := { s with outcomes := outcomes }) h hcharged
  | special addr len vmFlags legacy =>
    obtain ⟨L', hk⟩ :=
      installSpecialMapping_kept (s := { s with outcomes := outcomes }) rb addr len
        vmFlags legacy h hv
    exact ⟨L', 0, ⟨hk.wf, (hk.mono False.elim).kept, hk.bug⟩, fun _ => rfl⟩

open Runs (run Every)

/-- What happens to a task in between does not show when it exits: the address space stays well
formed, `exit_mmap` leaves every file with the references that it would have left at the beginning,
and the same pages charged as long as no step loses a charge. -/
theorem task_life (rb : Balance VmaId) (s : MmSys) (L : List VmaId) (steps : List TaskStep)
    (h : Wf s.mm L) (hv : ∀ st ∈ steps, st.Valid) :
    let t := run (TaskStep.after rb) s steps
    (∃ L', Wf t.mm L') ∧ t.mm.bug = s.mm.bug ∧ (exitMmap t).fCount = (exitMmap s).fCount ∧
      (Every (TaskStep.after rb) TaskStep.Charged s steps →
        (exitMmap t).committed = (exitMmap s).committed) := by
  intro t
  have hvalid := Runs.every_of_forall (TaskStep.after rb) s hv
  obtain ⟨⟨L', hwf⟩, hkept⟩ :=
    hvalid.keeps (I := fun s => ∃ L, Wf s.mm L) (fun s => (s.mm.bug, s.outside)) ⟨L, h⟩
    fun s st ⟨L, h⟩ hst => by
      obtain ⟨L', c, hk, -⟩ := st.after_kept rb h hst
      exact ⟨⟨L', hk.wf⟩, Prod.ext hk.bug (funext (hk.areasOf h))⟩
  obtain ⟨hcommitted, hcount⟩ := exitMmap_gives h
  obtain ⟨hcommitted', hcount'⟩ := exitMmap_gives hwf
  refine ⟨⟨L', hwf⟩, congrArg Prod.fst hkept, ?_, fun hcharged => ?_⟩
  · funext f
    rw [hcount', hcount]
    exact congrFun (congrArg Prod.snd hkept) f
  · -- the charge is kept only by the steps that do not lose it
    have hsame :=
      ((hvalid.and hcharged).keeps (I := fun s => ∃ L, Wf s.mm L) MmSys.unaccounted ⟨L, h⟩
      fun s st ⟨L, h⟩ hst => by
        obtain ⟨L', c, hk, hc⟩ := st.after_kept rb h hst.1
        refine ⟨⟨L', hk.wf⟩, (hk.unaccounted h).trans ?_⟩
        rw [hc hst.2, add_zero]).2
    unfold MmSys.unaccounted at hsame
    rw [hwf.rep.inorder, h.rep.inorder] at hsame
    rw [hcommitted', hcommitted]
    exact hsame

/-- A task with a stack maps a file, faults below the stack and gets a special mapping: the file has
two references then, and one when the task has gone. -/
theorem task_life_stack :
    let env : StackEnv := { MmEnv.unlimited 10 with stack := 0x800000 }
    let s : MmSys := { mm := stackMm, fCount := fun _ => 1, committed := 2 }
    let mapFile : TaskStep :=
      { env,
        event := .call (.mmap (some 1) 0x40000 0x1000 PROT_READ (MAP_PRIVATE ||| MAP_FIXED) 0) }
    let steps : List TaskStep :=
      [mapFile, { env, event := .fault 0x1e123 },
        { env, event := .special 0x80000 0x2000 VM_READ false }]
    let t := run (TaskStep.after Balance.plain) s steps
    t.fCount 1 = 2 ∧ t.committed = 4 ∧ t.mm.mapCount = 3 ∧ (exitMmap t).fCount 1 = 1 ∧
      (exitMmap t).committed = 0 := by
  intro env s mapFile steps t
  have hvalid : ∀ st ∈ steps, st.Valid := by
    simp only [steps, List.forall_mem_cons]
    exact ⟨trivial, trivial, ⟨by decide, by decide, by decide, by decide⟩, by simp⟩
  obtain ⟨-, -, hcount, hcommitted⟩ := task_life Balance.plain s [0] steps wf_stackMm hvalid
  refine ⟨by decide +kernel, by decide +kernel, by decide +kernel, ?_, ?_⟩
  · rw [hcount]
    decide +kernel
  · have hstack : ∀ x ∈ (mapFile.after Balance.plain s).mm.mmRb.inorder,
        ((mapFile.after Balance.plain s).mm.vma x).vmFlags.has VM_GROWSDOWN = true →
        ((mapFile.after Balance.plain s).mm.vma x).vmFlags.has VM_ACCOUNT = true := by
          decide +kernel
    rw [hcommitted ⟨fun f _ => ⟨.inl rfl, fun _ => rfl⟩, hstack, trivial, trivial⟩]
    decide +kernel

end PtraceRemote
