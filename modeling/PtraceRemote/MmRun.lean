import PtraceRemote.MmRequest
import PtraceRemote.MmResizeInv
import PtraceRemote.MmProtView
import PtraceRemote.MmBrkInv
import PtraceRemote.MmLimits

/-! Runs of memory operations: every one keeps the address space well formed, and the books up to
the two places where the code miscounts. -/
namespace PtraceRemote

open AugTree (Balance)

variable {mm : Mm} {s s' s'' : MmSys} {rb : Balance VmaId} {env : MmEnv} {L L' L'' : List VmaId}
  {G : Prop} {c : ℤ}

structure Kept (G : Prop) (s : MmSys) (L : List VmaId) (s' : MmSys) (L' : List VmaId) (c : ℤ) :
    Prop where
  wf : Wf s'.mm L'
  kept : ∃ k : Ledger, ledger s' L' = ledger s L + k + acctVec c ∧ k.2.2.2.2.2 = 0 ∧ (G → k = 0)
  bug : s'.mm.bug = s.mm.bug

theorem Keeps.toKept {P : Pages} (h : Keeps G s L s' L' P c) : Kept G s L s' L' c :=
  ⟨h.wf, h.kept, (congrArg Mm.bug h.fixed :)⟩

theorem Does.toKept {P : Pages} (h : Does G s L s' L' P c) : Kept G s L s' L' c := h.keeps.toKept

theorem Kept.refl (h : Wf s.mm L) : Kept G s L s L 0 := (Same.refl h).does.toKept

theorem Kept.mono {G' : Prop} (h : Kept G s L s' L' c) (hG : G' → G) : Kept G' s L s' L' c := by
  obtain ⟨k, hk, hk0, hz⟩ := h.kept
  exact ⟨h.wf, ⟨k, hk, hk0, fun hg => hz (hG hg)⟩, h.bug⟩

def MmCall.Counted (mm : Mm) : MmCall → Prop
  | .remoteMremap _ addr oldLen newLen flags _ => MremapCounted mm addr oldLen newLen flags
  | .mremap addr oldLen newLen flags _ => MremapCounted mm addr oldLen newLen flags
  | _ => True

def MmCall.Charged (env : MmEnv) : MmCall → Prop
  | .remoteMmap _ file _ _ prot flags _ =>
    MmapOk env (mmapFile env file flags) prot (keptFlags flags)
  | .mmap file _ _ prot flags _ => MmapOk env (mmapFile env file flags) prot (keptFlags flags)
  | _ => True

/-! One operation. -/

theorem MmapResult.toKept {file : Option FileId} {addr len : ℕ} {flags : Bits} {pgoff : BitVec 64}
    {r : ℤ × MmSys} (h : MmapResult env s L file addr len flags pgoff r c) :
    ∃ L', Kept (LockExact s L) s L r.2 L' c := by
  rcases h with ⟨-, L', hd⟩ | ⟨start, -, -, -, ⟨-, L', hd⟩ | ⟨-, L', file', pgoff', flags', hd⟩⟩
  · exact ⟨L', hd.toKept⟩
  · exact ⟨L', hd.toKept⟩
  · exact ⟨L', hd.toKept⟩

theorem lockedMunmap_kept (rb : Balance VmaId) (env : MmEnv) (addr len : ℕ) (h : Wf s.mm L) :
    ∃ L', Kept (LockExact s L) s L (lockedMunmap rb env s addr len).2 L' 0 := by
  have hlock : Same s s.outcome.2 L := (outcome_quiet s).same h
  unfold lockedMunmap
  dsimp only
  split
  next => exact ⟨L, hlock.does.toKept⟩
  next =>
    rcases doMunmap_does rb env.conf addr len hlock.wf with ⟨-, L', hd⟩ | ⟨-, L', hd⟩
    · exact ⟨L', (hlock.then_does hd).toKept⟩
    · exact ⟨L', (hlock.then_does hd).toKept⟩

theorem mremapTask_kept (rb : Balance VmaId) (env : MmEnv) (addr oldLen newLen : ℕ) (flags : Bits)
    (newAddr : ℕ) (h : Wf s.mm L) :
    ∃ L', Kept (LockExact s L ∧ MremapCounted s.mm addr oldLen newLen flags) s L
      (mremapTask rb env s addr oldLen newLen flags newAddr).2.2 L' 0 := by
  obtain ⟨L', P, hk⟩ := mremapTask_keeps rb env addr oldLen newLen flags newAddr h
  exact ⟨L', hk.toKept⟩

/-- The break is no part of the books. -/
theorem brk_kept (rb : Balance VmaId) (env : MmEnv) (addr : ℕ) (h : Wf s.mm L) :
    ∃ L', Kept (LockExact s L) s L (brk rb env s addr).2 L' 0 := by
  have hlock : Same s s.outcome.2 L := (outcome_quiet s).same h
  unfold brk
  dsimp only
  split
  next => exact ⟨L, hlock.does.toKept⟩
  generalize (if env.compatBrk then s.outcome.2.mm.endData else s.outcome.2.mm.startBrk) = minBrk
  split
  next => exact ⟨L, hlock.does.toKept⟩
  split
  · obtain ⟨L', P, hd⟩ := moveBrk_spec rb env addr hlock.wf
    obtain ⟨hwf, hkept, hbug⟩ := (hlock.then_does hd).toKept
    exact ⟨L',
      ⟨⟨hwf.rep.head, hwf.rep.seg, hwf.rep.nodup, hwf.rep.inorder, hwf.rep.gaps, hwf.rep.count,
      hwf.rep.fresh⟩, hwf.ordered, hwf.highest⟩, hkept, hbug⟩
  · obtain ⟨L', P, hd⟩ := moveBrk_spec rb env addr hlock.wf
    exact ⟨L', (hlock.then_does hd).toKept⟩

theorem returnAddr_snd (user : UserPtr) (r : ℤ × MmSys) : (returnAddr user r).2 = r.2 := by
  unfold returnAddr
  split
  · rfl
  · split <;> rfl

/-- A request whose arguments cannot be read does nothing. -/
theorem withArgs_kept {user : UserPtr} {r : ℤ × MmSys} (h : Wf s.mm L)
    (hr : ∃ L', Kept G s L r.2 L' c) :
    ∃ L' c', Kept G s L (withArgs user s r).2 L' c' ∧ (c = 0 → c' = 0) := by
  unfold withArgs
  split
  · exact ⟨L, 0, Kept.refl h, fun _ => rfl⟩
  · obtain ⟨L', hk⟩ := hr
    exact ⟨L', c, hk, id⟩

theorem exec_kept (rb : Balance VmaId) (env : MmEnv) (call : MmCall) (h : Wf s.mm L) :
    ∃ L' c, Kept (LockExact s L ∧ call.Counted s.mm) s L (call.exec rb env s).2 L' c ∧
      (call.Charged env → c = 0) := by
  have hplain : ∀ {s'} {L' : List VmaId}, Kept (LockExact s L) s L s' L' 0 →
      ∃ L' c, Kept (LockExact s L ∧ True) s L s' L' c ∧ (True → c = 0) :=
    fun {s' L'} hk => ⟨L', 0, hk.mono And.left, fun _ => rfl⟩
  cases call with
  | remoteMmap user file addr len prot flags offset =>
    obtain ⟨c, hres, hc⟩ := doMmapRemote_spec rb env file addr len prot flags offset h
    obtain ⟨L', hk⟩ := hres.toKept
    have hk : Kept (LockExact s L ∧ True) s L
        (returnAddr user (doMmapRemote rb env s file addr len prot flags offset)).2 L' c := by
      rw [returnAddr_snd]
      exact hk.mono And.left
    obtain ⟨L', c', hk', hc'⟩ := withArgs_kept h ⟨L', hk⟩
    exact ⟨L', c', hk', fun hok => hc' (hc hok)⟩
  | remoteMunmap user addr len =>
    obtain ⟨L', hk⟩ := lockedMunmap_kept rb env addr len h
    obtain ⟨L', c', hk', hc'⟩ := withArgs_kept h ⟨L', hk⟩
    exact ⟨L', c', hk'.mono And.left, fun _ => hc' rfl⟩
  | remoteMremap user addr oldLen newLen flags newAddr =>
    obtain ⟨L', hk⟩ := mremapTask_kept rb env addr oldLen newLen flags newAddr h
    have hk : Kept (LockExact s L ∧ MremapCounted s.mm addr oldLen newLen flags) s L
        (returnAddr user ((mremapTask rb env s addr oldLen newLen flags newAddr).1,
          (mremapTask rb env s addr oldLen newLen flags newAddr).2.2)).2 L' 0 := by
      rw [returnAddr_snd]
      exact hk
    obtain ⟨L', c', hk', hc'⟩ := withArgs_kept h ⟨L', hk⟩
    exact ⟨L', c', hk', fun _ => hc' rfl⟩
  | remoteMprotect user addr len prot =>
    obtain ⟨L', P, hd⟩ := doMprotectPkeyTask_does (G := LockExact s L) rb env addr len prot true h
    obtain ⟨L', c', hk', hc'⟩ := withArgs_kept h ⟨L', hd.toKept⟩
    exact ⟨L', c', hk'.mono And.left, fun _ => hc' rfl⟩
  | mmap file addr len prot flags pgoff =>
    obtain ⟨c, hres, hc⟩ := mmapPgoff_spec rb env.own file addr len prot flags pgoff h
    obtain ⟨L', hk⟩ := hres.toKept
    exact ⟨L', c, hk.mono And.left, hc⟩
  | munmap addr len =>
    obtain ⟨L', hk⟩ := lockedMunmap_kept rb env.own addr len h
    exact hplain hk
  | mremap addr oldLen newLen flags newAddr =>
    obtain ⟨L', hk⟩ := mremapTask_kept rb env.own addr oldLen newLen flags newAddr h
    exact ⟨L', 0, hk, fun _ => rfl⟩
  | mprotect addr len prot pkeyOk =>
    obtain ⟨L', P, hd⟩ :=
      doMprotectPkeyTask_does (G := LockExact s L) rb env.own addr len prot pkeyOk h
    exact hplain hd.toKept
  | brk addr =>
    obtain ⟨L', hk⟩ := brk_kept rb env.own addr h
    exact hplain hk

theorem after_kept (rb : Balance VmaId) (st : MmStep) (h : Wf s.mm L) :
    ∃ L' c, Kept (LockExact s L ∧ st.call.Counted s.mm) s L (st.after rb s) L' c ∧
      (st.call.Charged st.env → c = 0) := by
  obtain ⟨L', c, ⟨hwf, hkept, hbug⟩, hc⟩ :=
    exec_kept (s := { s with outcomes := st.outcomes }) rb st.env st.call h
  exact ⟨L', c, ⟨hwf, hkept, hbug⟩, hc⟩

/-! Runs. -/

def EveryStep (rb : Balance VmaId) (P : MmSys → MmStep → Prop) : MmSys → List MmStep → Prop
  | _, [] => True
  | s, st :: steps => P s st ∧ EveryStep rb P (st.after rb s) steps

/-- What every operation keeps, under the condition, is kept by a run. -/
theorem mmRun_keeps {P : MmSys → MmStep → Prop} {I : MmSys → Prop} (rb : Balance VmaId)
    (hstep : ∀ s st, I s → P s st → I (st.after rb s)) (steps : List MmStep) (hI : I s)
    (hP : EveryStep rb P s steps) :
    I (mmRun rb s steps) := by
  induction steps generalizing s with
  | nil => exact hI
  | cons st steps ih => exact ih (hstep s st hI hP.1) hP.2

theorem everyStep_of_forall {P : MmStep → Prop} (rb : Balance VmaId) (s : MmSys)
    {steps : List MmStep} (h : ∀ st ∈ steps, P st) : EveryStep rb (fun _ st => P st) s steps := by
  induction steps generalizing s with
  | nil => trivial
  | cons st steps ih =>
    exact ⟨h st List.mem_cons_self, ih (st.after rb s) fun st' h' =>
      h st' (List.mem_cons_of_mem _ h')⟩

theorem EveryStep.and_forall {P : MmSys → MmStep → Prop} {Q : MmStep → Prop} {steps : List MmStep}
    (h : EveryStep rb P s steps) (hQ : ∀ st ∈ steps, Q st) :
    EveryStep rb (fun s st => P s st ∧ Q st) s steps := by
  induction steps generalizing s with
  | nil => trivial
  | cons st steps ih =>
    exact ⟨⟨h.1, hQ st List.mem_cons_self⟩, ih h.2 fun st' h' => hQ st' (List.mem_cons_of_mem _ h')⟩

theorem mmRun_ok (rb : Balance VmaId) (steps : List MmStep) (h : Wf s.mm L) :
    (∃ L', Wf (mmRun rb s steps).mm L') ∧ (mmRun rb s steps).mm.bug = s.mm.bug := by
  refine mmRun_keeps (I := fun s' => (∃ L', Wf s'.mm L') ∧ s'.mm.bug = s.mm.bug) rb ?_ steps
    ⟨⟨L, h⟩, rfl⟩ (everyStep_of_forall rb s fun _ _ => trivial)
  rintro s' st ⟨⟨L, h⟩, hbug⟩ -
  obtain ⟨L', c, hk, -⟩ := after_kept rb st h
  exact ⟨⟨L', hk.wf⟩, hk.bug.trans hbug⟩

/-- No run of operations damages the address space: the list and the tree agree, areas are sorted
and disjoint, the gaps, the number of areas and the highest end are right, and no `BUG()` is
reached. -/
theorem mmRun_wf (rb : Balance VmaId) (s : MmSys) (L : List VmaId) (steps : List MmStep)
    (h : Wf s.mm L) (hbug : s.mm.bug = false) :
    (∃ L', Wf (mmRun rb s steps).mm L') ∧ (mmRun rb s steps).mm.bug = false := by
  obtain ⟨hwf, hsame⟩ := mmRun_ok rb steps h
  exact ⟨hwf, hsame.trans hbug⟩

/-- A hole is cut into four pages, filled by the tracer, and the rest is made read-only. -/
theorem mmRun_wf_fourPages :
    let steps : List MmStep := [⟨MmEnv.unlimited 10, [], .munmap 0x11000 0x1000⟩,
      ⟨MmEnv.unlimited 10, [], .remoteMmap {} none 0x11000 0x1000 PROT_WRITE
        (MAP_PRIVATE ||| MAP_ANONYMOUS ||| MAP_FIXED) 0⟩,
      ⟨MmEnv.unlimited 10, [12], .remoteMprotect {} 0x10000 0x4000 PROT_READ⟩]
    (mmRun Balance.plain { mm := fourCounted } steps).mm.mapCount = 3 ∧
      ∃ L', Wf (mmRun Balance.plain { mm := fourCounted } steps).mm L' :=
  ⟨by decide +kernel, (mmRun_wf Balance.plain _ [0] _ wf_fourCounted rfl).1⟩

/-! The charge. -/

/-- The pages charged to `vm_committed_as` are those of the areas with `VM_ACCOUNT`. -/
def ChargeExact (s : MmSys) (L : List VmaId) : Prop := s.committed = nrAccounted s.mm.vma L

instance (s : MmSys) (L : List VmaId) : Decidable (ChargeExact s L) :=
  inferInstanceAs (Decidable (_ = _))

/-- No `f_op->mmap` touches the flag `VM_ACCOUNT`. -/
def LeavesAccount (env : MmEnv) : Prop :=
  ∀ f vmFlags, ((env.file f).mmapFlags vmFlags).has VM_ACCOUNT = vmFlags.has VM_ACCOUNT

/-- The file that is mapped, if any, maps without an error, or the mapping is not charged. -/
def FileMaps (env : MmEnv) (file : Option FileId) (prot flags : Bits) : Prop :=
  ∀ f, file = some f → (env.file f).mmapErr = 0 ∨ chargeable env file prot flags = false

def MmCall.FileMaps (env : MmEnv) : MmCall → Prop
  | .remoteMmap _ file _ _ prot flags _ =>
    PtraceRemote.FileMaps env (mmapFile env file flags) prot (keptFlags flags)
  | .mmap file _ _ prot flags _ =>
    PtraceRemote.FileMaps env (mmapFile env file flags) prot (keptFlags flags)
  | _ => True

theorem MmCall.FileMaps.charged {call : MmCall} (h : call.FileMaps env) (hl : LeavesAccount env) :
    call.Charged env := by
  cases call with
  | remoteMmap user file addr len prot flags offset => exact fun f hf => ⟨h f hf, hl f⟩
  | mmap file addr len prot flags pgoff => exact fun f hf => ⟨h f hf, hl f⟩
  | _ => trivial

theorem acctPart_ledger (s : MmSys) (L : List VmaId) :
    (ledger s L).2.2.2.2.2.1 = s.committed-(nrAccounted s.mm.vma L : ℤ) := by
  have hcount : pagesOf (·.has VM_ACCOUNT) (pages s.mm.core L) = nrAccounted s.mm.vma L :=
    pagesOf_pages (fun _ => has_cleanFlags (by decide)) s.mm.core L
  show s.committed-(pagesOf (·.has VM_ACCOUNT) (pages s.mm.core L) : ℤ)-0 = _
  rw [hcount, sub_zero]

theorem Kept.chargeExact (h : Kept G s L s' L' 0) (hc : ChargeExact s L) : ChargeExact s' L' := by
  obtain ⟨k, hk, hk0, -⟩ := h.kept
  have hpart : (ledger s' L').2.2.2.2.2.1 = (ledger s L).2.2.2.2.2.1+k.2.2.2.2.2.1+0 := by
    rw [hk]
    rfl
  rw [acctPart_ledger, acctPart_ledger, hk0, hc, sub_self] at hpart
  exact sub_eq_zero.1 hpart

/-- The charge stays exact in every run in which no charged mapping of a file fails in its
`f_op->mmap`. -/
theorem mmRun_chargeExact (rb : Balance VmaId) (s : MmSys) (L : List VmaId) (steps : List MmStep)
    (h : Wf s.mm L) (hc : ChargeExact s L) (hl : ∀ st ∈ steps, LeavesAccount st.env)
    (hf : ∀ st ∈ steps, st.call.FileMaps st.env) :
    ∃ L', Wf (mmRun rb s steps).mm L' ∧ ChargeExact (mmRun rb s steps) L' := by
  refine mmRun_keeps (I := fun s => ∃ L, Wf s.mm L ∧ ChargeExact s L) rb ?_ steps ⟨L, h, hc⟩
    (everyStep_of_forall rb s fun st hst => (hf st hst).charged (hl st hst))
  rintro s st ⟨L, h, hc⟩ hst
  obtain ⟨L', c, hk, hz⟩ := after_kept rb st h
  obtain rfl := hz hst
  exact ⟨L', hk.wf, hk.chargeExact hc⟩

def mapWritable (mmapErr : Fin 4096) : MmStep where
  env := { MmEnv.unlimited 10 with file := fun _ => { mmapErr := mmapErr } }
  call := .remoteMmap {} (some 1) 0x20000 0x1000 PROT_WRITE (MAP_PRIVATE ||| MAP_FIXED) 0

theorem mmRun_chargeExact_fourPages :
    let s := mmRun Balance.plain { mm := fourCounted } [mapWritable 0]
    s.committed = 1 ∧ ∃ L', Wf s.mm L' ∧ ChargeExact s L' := by
  refine ⟨by decide +kernel,
    mmRun_chargeExact Balance.plain _ [0] _ wf_fourCounted (by decide) ?_ ?_⟩
  · intro st hst
    obtain rfl := List.mem_singleton.1 hst
    exact fun _ _ => rfl
  · intro st hst
    obtain rfl := List.mem_singleton.1 hst
    exact fun _ _ => .inl rfl

/-- The file refuses to be mapped, and the page stays charged. -/
theorem mmRun_charge_lost :
    let s := mmRun Balance.plain { mm := fourCounted } [mapWritable 12]
    s.committed = 1 ∧ Wf s.mm [0] ∧ ¬ChargeExact s [0] := by
  intro s
  have hone : s.committed = 1 := by decide +kernel
  have hlist : s.mm.mmRb.inorder = [0] := by decide +kernel
  obtain ⟨L', h⟩ :=
    (mmRun_ok Balance.plain [mapWritable 12] (s := { mm := fourCounted }) wf_fourCounted).1
  obtain rfl : L' = [0] := h.rep.inorder.symm.trans hlist
  exact ⟨hone, h, by decide +kernel⟩

/-! The counters of pages. -/

def sumPages (P : VmFlags → Bool) (mm : Mm) (L : List VmaId) : ℕ :=
  (L.map fun x => if P (mm.vma x).vmFlags then (mm.vma x).pages else 0).sum

/-- The counters are the sums over the areas. -/
structure PageCounts (mm : Mm) (L : List VmaId) : Prop where
  total : mm.totalVm.toNat = sumPages (fun _ => true) mm L
  exec : mm.execVm.toNat = sumPages isExecMapping mm L
  stack : mm.stackVm.toNat = sumPages isStackMapping mm L
  data : mm.dataVm.toNat = sumPages isDataMapping mm L
  locked : mm.lockedVm.toNat = sumPages (·.has VM_LOCKED) mm L

/-- A counter is right if its entry of the books is zero. -/
theorem toNat_eq_sumPages {P : VmFlags → Bool} (hP : ∀ flags, P (cleanFlags flags) = P flags)
    (h : Wf mm L) (a : BitVec 64) :
    a.toNat = sumPages P mm L ↔ a-BitVec.ofNat 64 (pagesOf P (pages mm.core L))-0 = 0 := by
  have hlt := pagesOf_lt hP h.ordered
  have hsum : pagesOf P (pages mm.core L) = sumPages P mm L := pagesOf_pages hP mm.core L
  rw [hsum] at hlt ⊢
  rw [sub_zero, sub_eq_zero, ← BitVec.toNat_inj, BitVec.toNat_ofNat, Nat.mod_eq_of_lt hlt]

/-- The counters are right if their entries of the books are zero. -/
theorem pageCounts_iff (h : Wf s.mm L) : PageCounts s.mm L ↔
    (ledger s L).1 = 0 ∧ (ledger s L).2.1 = 0 ∧
    (ledger s L).2.2.1 = 0 ∧ (ledger s L).2.2.2.1 = 0 ∧ (ledger s L).2.2.2.2.1 = 0 := by
  have htotal := toNat_eq_sumPages anyFlags_clean h s.mm.totalVm
  have hexec := toNat_eq_sumPages isExecMapping_clean h s.mm.execVm
  have hstack := toNat_eq_sumPages isStackMapping_clean h s.mm.stackVm
  have hdata := toNat_eq_sumPages isDataMapping_clean h s.mm.dataVm
  have hlocked := toNat_eq_sumPages (P := (·.has VM_LOCKED)) has_locked_clean h s.mm.lockedVm
  constructor
  · rintro ⟨h₁, h₂, h₃, h₄, h₅⟩
    exact ⟨htotal.1 h₁, hexec.1 h₂, hstack.1 h₃, hdata.1 h₄, hlocked.1 h₅⟩
  · rintro ⟨h₁, h₂, h₃, h₄, h₅⟩
    exact ⟨htotal.2 h₁, hexec.2 h₂, hstack.2 h₃, hdata.2 h₄, hlocked.2 h₅⟩

theorem PageCounts.lockExact (hc : PageCounts s.mm L) (h : Wf s.mm L) : LockExact s L :=
  ((pageCounts_iff h).1 hc).2.2.2.2

theorem Kept.pageCounts (hk : Kept True s L s' L' c) (h : Wf s.mm L) (hc : PageCounts s.mm L) :
    PageCounts s'.mm L' := by
  obtain ⟨k, he, -, hz⟩ := hk.kept
  rw [hz trivial, add_zero] at he
  obtain ⟨h₁, h₂, h₃, h₄, h₅⟩ := (pageCounts_iff h).1 hc
  have hadd : ∀ a : BitVec 64, a = 0 → a+0 = 0 := fun a ha => by rw [ha, add_zero]
  refine (pageCounts_iff hk.wf).2 ?_
  rw [he]
  exact ⟨hadd _ h₁, hadd _ h₂, hadd _ h₃, hadd _ h₄, hadd _ h₅⟩

/-- The counters of pages stay right in every run in which growth in place can be counted in an
`int`. -/
theorem mmRun_pageCounts (rb : Balance VmaId) (s : MmSys) (L : List VmaId) (steps : List MmStep)
    (h : Wf s.mm L) (hc : PageCounts s.mm L)
    (hs : EveryStep rb (fun s st => st.call.Counted s.mm) s steps) :
    ∃ L', Wf (mmRun rb s steps).mm L' ∧ PageCounts (mmRun rb s steps).mm L' := by
  refine mmRun_keeps (I := fun s => ∃ L, Wf s.mm L ∧ PageCounts s.mm L) rb ?_ steps ⟨L, h, hc⟩ hs
  rintro s st ⟨L, h, hc⟩ hst
  obtain ⟨L', c, hk, -⟩ := after_kept rb st h
  have hk : Kept True s L (st.after rb s) L' c := hk.mono fun _ => ⟨hc.lockExact h, hst⟩
  exact ⟨L', hk.wf, hk.pageCounts h hc⟩

theorem pageCounts_fourCounted : PageCounts fourCounted [0] :=
  ⟨by decide, by decide, by decide, by decide, by decide⟩

def growBy (n : ℕ) : MmStep :=
  ⟨MmEnv.unlimited 10, [], .remoteMremap {} 0x10000 0x4000 (0x4000+n*4096) 0 0⟩

theorem mmRun_pageCounts_fourPages :
    let s := mmRun Balance.plain { mm := fourCounted } [growBy 4]
    s.mm.totalVm = 8 ∧ ∃ L', Wf s.mm L' ∧ PageCounts s.mm L' := by
  refine ⟨by decide +kernel,
    mmRun_pageCounts Balance.plain _ [0] _ wf_fourCounted pageCounts_fourCounted ⟨?_, trivial⟩⟩
  intro _ x _ _
  show _ < 2^31
  decide

/-- Growing by 2^31 pages takes as many away. -/
theorem mmRun_pages_miscounted :
    let s := mmRun Balance.plain { mm := fourCounted } [growBy (2^31)]
    s.mm.totalVm.toNat = 2^64-2^31+4 ∧ (s.mm.vma 0).pages = 2^31+4 ∧ Wf s.mm [0] ∧
      ¬PageCounts s.mm [0] := by
  intro s
  have htotal : s.mm.totalVm.toNat = 2^64-2^31+4 := by decide +kernel
  have hpages : (s.mm.vma 0).pages = 2^31+4 := by decide +kernel
  have hlist : s.mm.mmRb.inorder = [0] := by decide +kernel
  obtain ⟨L', h⟩ :=
    (mmRun_ok Balance.plain [growBy (2^31)] (s := { mm := fourCounted }) wf_fourCounted).1
  obtain rfl : L' = [0] := h.rep.inorder.symm.trans hlist
  refine ⟨htotal, hpages, h, fun hc => ?_⟩
  have hsum : sumPages (fun _ => true) s.mm [0] = (s.mm.vma 0).pages := rfl
  rw [hc.total, hsum, hpages] at htotal
  exact absurd htotal (by decide)

end PtraceRemote
