import PtraceRemote.MmChoice
import PtraceRemote.MmLimits
import PtraceRemote.MmProtInv

/-! `RLIMIT_DATA`: what the tests of `mmap_task_region` and `mprotect_fixup` leave of it. The first
takes off every page that a mapping replaces, data or not; the second is skipped when the test of
`RLIMIT_AS` that comes with it fails. -/
namespace PtraceRemote

open AugTree (Balance)

variable {mm mm' : Mm} {s s' : MmSys} {rb : Balance VmaId} {env : MmEnv} {L L' LT A B : List VmaId}
  {x : VmaId} {q : MergeReq} {a flags : VmFlags} {start end_ addr len : ℕ} {n : BitVec 64}
  {G : Prop}

/-! What is data. -/

theorem isDataMapping_eq (a : VmFlags) :
    isDataMapping a = (a.has VM_WRITE && !a.has VM_SHARED && !a.has VM_GROWSDOWN) := by
  have hwrite : a.has VM_WRITE = a.getLsbD 1 := has_twoPow a 1
  have hshared : a.has VM_SHARED = a.getLsbD 3 := has_twoPow a 3
  have hstack : a.has VM_GROWSDOWN = a.getLsbD 8 := has_twoPow a 8
  have hmask : VM_WRITE ||| VM_SHARED ||| VM_STACK =
      BitVec.twoPow 64 1 ||| BitVec.twoPow 64 3 ||| BitVec.twoPow 64 8 := by decide
  rw [hwrite, hshared, hstack, isDataMapping, hmask, BitVec.and_or_distrib_left,
    BitVec.and_or_distrib_left, BitVec.and_twoPow, BitVec.and_twoPow, BitVec.and_twoPow]
  cases a.getLsbD 1 <;> cases a.getLsbD 3 <;> cases a.getLsbD 8 <;> decide

theorem isDataMapping_or {b : VmFlags} (hb : b &&& (VM_WRITE ||| VM_SHARED ||| VM_STACK) = 0) :
    isDataMapping (a ||| b) = isDataMapping a := by
  rw [isDataMapping, BitVec.and_comm, BitVec.and_or_distrib_left, BitVec.and_comm _ b, hb,
    isDataMapping, BitVec.and_comm a]
  exact congrArg (· == VM_WRITE) BitVec.or_zero

def asksData (prot flags : Bits) : Bool :=
  prot.has PROT_WRITE && flags &&& MAP_TYPE == MAP_PRIVATE && !flags.has MAP_GROWSDOWN

theorem baseFlags_shared (env : MmEnv) (mm : Mm) (prot flags : Bits) :
    (baseFlags env mm prot flags).has VM_SHARED = false := by
  rw [baseFlags_has env mm prot flags (by decide) (by decide)]
  simp [VmFlags.has, VM_READ, VM_WRITE, VM_EXEC, VM_SHARED, VM_GROWSDOWN, VM_DENYWRITE,
    VM_LOCKED, VM_MAYREAD, VM_MAYWRITE, VM_MAYEXEC]

theorem baseFlags_growsdown (env : MmEnv) (mm : Mm) (prot flags : Bits) :
    (baseFlags env mm prot flags).has VM_GROWSDOWN = flags.has MAP_GROWSDOWN := by
  rw [baseFlags_has env mm prot flags (by decide) (by decide)]
  simp [VmFlags.has, VM_READ, VM_WRITE, VM_EXEC, VM_GROWSDOWN, VM_DENYWRITE, VM_LOCKED, VM_MAYREAD,
    VM_MAYWRITE, VM_MAYEXEC]

structure AsksFor (prot flags : Bits) (b : VmFlags) : Prop where
  write : b.has VM_WRITE = prot.has PROT_WRITE
  shared : b.has VM_SHARED = false
  stack : b.has VM_GROWSDOWN = flags.has MAP_GROWSDOWN

variable {prot mflags : Bits} {b : VmFlags}

theorem AsksFor.private (h : AsksFor prot mflags b) (ht : mflags &&& MAP_TYPE = MAP_PRIVATE) :
    isDataMapping b = asksData prot mflags := by
  rw [isDataMapping_eq, h.write, h.shared, h.stack, asksData, ht]
  simp

theorem asksData_shared (ht : mflags &&& MAP_TYPE = MAP_SHARED) : asksData prot mflags = false := by
  rw [asksData, ht, show (MAP_SHARED == MAP_PRIVATE) = false by decide, Bool.and_false,
    Bool.false_and]

theorem isDataMapping_share (b : VmFlags) :
    isDataMapping (b ||| VM_SHARED ||| VM_MAYSHARE) = false := by
  have hshared : (b ||| VM_SHARED ||| VM_MAYSHARE).has VM_SHARED = true := by
    rw [has_or, has_or, show VmFlags.has VM_SHARED VM_SHARED = true by decide, Bool.or_true,
      Bool.true_or]
  rw [isDataMapping_eq, hshared, Bool.not_true, Bool.and_false, Bool.false_and]

theorem shareFlags_data {i : FileInfo} (h : AsksFor prot mflags b)
    (hok : shareFlags i prot mflags b = .ok a) :
    isDataMapping a = asksData prot mflags := by
  unfold shareFlags at hok
  split at hok
  next ht =>
    rw [asksData_shared ht]
    split at hok
    next => exact absurd hok (by simp)
    next hwrite =>
      split at hok
      next => exact absurd hok (by simp)
      split at hok
      next => exact absurd hok (by simp)
      split at hok
      next =>
        obtain rfl := Except.ok.inj hok
        exact isDataMapping_share b
      next hro =>
        -- the file is read-only, so the request is not for a writable mapping
        obtain rfl := Except.ok.inj hok
        have hp : prot.has PROT_WRITE = false := by
          by_contra hp
          exact hwrite ⟨by simpa using hp, by simpa using hro⟩
        rw [isDataMapping_eq, has_and (by decide), has_or, has_or, h.write, hp,
          show VmFlags.has VM_SHARED VM_WRITE =
          false by decide, show VmFlags.has VM_MAYSHARE VM_WRITE = false by decide]
        rfl
  next =>
    split at hok
    next ht =>
      obtain rfl := Except.ok.inj hok
      exact h.private ht
    next => exact absurd hok (by simp)

theorem isDataMapping_and {m : VmFlags}
    (hm : m &&& (VM_WRITE ||| VM_SHARED ||| VM_STACK) = VM_WRITE ||| VM_SHARED ||| VM_STACK) :
    isDataMapping (a &&& m) = isDataMapping a := by
  rw [isDataMapping, BitVec.and_assoc, hm, isDataMapping]

theorem fileFlags_data {i : FileInfo} (h : AsksFor prot mflags b)
    (hok : fileFlags i prot mflags b = .ok a) :
    isDataMapping a = asksData prot mflags := by
  unfold fileFlags at hok
  cases hs : shareFlags i prot mflags b with
  | error e =>
    rw [hs] at hok
    exact absurd hok (by simp)
  | ok c =>
    have hc := shareFlags_data h hs
    rw [hs] at hok
    dsimp only at hok
    split at hok
    next => exact absurd hok (by simp)
    split at hok
    next => exact absurd hok (by simp)
    split at hok
    next => exact absurd hok (by simp)
    split at hok
    next => exact absurd hok (by simp)
    obtain rfl := Except.ok.inj hok
    split
    next => rw [isDataMapping_and (by decide), hc]
    next => exact hc

/-- Whether a mapping is data is decided by the request. -/
theorem typeFlags_data {file : Option FileId} {pgoff pgoff' : BitVec 64}
    (hok : typeFlags env file prot mflags (baseFlags env mm prot mflags) addr pgoff =
      .ok (a, pgoff')) :
    isDataMapping a = asksData prot mflags := by
  have h : AsksFor prot mflags (baseFlags env mm prot mflags) :=
    ⟨baseFlags_write .., baseFlags_shared .., baseFlags_growsdown ..⟩
  cases file with
  | some f =>
    unfold typeFlags at hok
    dsimp only at hok
    cases hf : fileFlags (env.file f) prot mflags (baseFlags env mm prot mflags) with
    | error e =>
      rw [hf] at hok
      exact absurd hok (by simp [Except.map])
    | ok c =>
      rw [hf] at hok
      obtain ⟨rfl, -⟩ := Prod.mk.inj (Except.ok.inj hok)
      exact fileFlags_data h hf
  | none =>
    unfold typeFlags anonFlags at hok
    dsimp only at hok
    split at hok
    next ht =>
      split at hok
      next => exact absurd hok (by simp)
      next =>
        obtain ⟨rfl, -⟩ := Prod.mk.inj (Except.ok.inj hok)
        rw [isDataMapping_share, asksData_shared ht]
    next =>
      split at hok
      next ht =>
        obtain ⟨rfl, -⟩ := Prod.mk.inj (Except.ok.inj hok)
        exact h.private ht
      next => exact absurd hok (by simp)

theorem asksData_implied (file : Option FileId) : asksData (impliedProt env file prot) mflags =
    asksData prot mflags := by
  have hwrite : (impliedProt env file prot).has PROT_WRITE = prot.has PROT_WRITE := by
    unfold impliedProt
    split
    · exact has_or_of_disjoint (by decide)
    · rfl
  rw [asksData, hwrite, asksData]

/-! Mapping. -/

/-- Once the address is found, a mapping that succeeds has called `mmap_task_region`. -/
theorem mapAt_success {file : Option FileId} {pgoff : BitVec 64}
    (hpos : 0 ≤ (mapAt rb env s file addr len prot mflags pgoff).1) :
    ∃ vmFlags pgoff', isDataMapping vmFlags = asksData prot mflags ∧
      mapAt rb env s file addr len prot mflags pgoff =
        mmapTaskRegion rb env s file addr len vmFlags pgoff' := by
  have htype := @typeFlags_spec env addr file prot mflags _ pgoff
    (within_baseFlags env s.mm prot mflags) (baseFlags_write env s.mm prot mflags)
  generalize hres : mapAt rb env s file addr len prot mflags pgoff = r at hpos ⊢
  unfold mapAt at hres
  dsimp only at hres
  rcases ite_eq_iff.1 hres with ⟨-, rfl⟩ | ⟨-, hres⟩
  · exact absurd hpos (show ¬0 ≤ -EPERM by decide)
  rcases ite_eq_iff.1 hres with ⟨-, rfl⟩ | ⟨-, hres⟩
  · exact absurd hpos (show ¬0 ≤ -EAGAIN by decide)
  split at hres
  next e he =>
    rw [he] at htype
    subst hres
    exact absurd htype.2 (not_lt.2 hpos)
  next a pgoff' he =>
    have hreserve : isDataMapping (reserveFlags env file mflags a) = isDataMapping a := by
      unfold reserveFlags
      split
      · exact isDataMapping_or (by decide)
      · rfl
    exact ⟨_, pgoff', hreserve.trans (typeFlags_data he), hres.symm⟩

/-- A `do_task_mmap` that succeeds has called `mmap_task_region` for the address that the search
gives. -/
theorem doTaskMmap_success {file : Option FileId} {pgoff : BitVec 64}
    (hpos : 0 ≤ (doTaskMmap rb env s file addr len prot mflags pgoff).1) :
    ∃ (start : ℕ) (vmFlags : VmFlags) (pgoff' : BitVec 64) (s₁ : MmSys), s₁.mm = s.mm ∧
      (start : ℤ) = getArea env s.mm s.mm.topdown file (mapHint env mflags addr) (pageAlign len)
        pgoff mflags ∧
      RangeOk start (start+pageAlign len) ∧ start+pageAlign len ≤ TASK_SIZE ∧
      isDataMapping vmFlags = asksData prot mflags ∧
      doTaskMmap rb env s file addr len prot mflags pgoff =
        mmapTaskRegion rb env s₁ file start (pageAlign len) vmFlags pgoff' := by
  obtain ⟨-, hmm, harea⟩ :=
    unmappedAreaOf_spec env s s.mm.topdown file (mapHint env mflags addr) (pageAlign len)
      pgoff mflags
  generalize hres : doTaskMmap rb env s file addr len prot mflags pgoff = r at hpos ⊢
  unfold doTaskMmap at hres
  dsimp only at hres
  rcases ite_eq_iff.1 hres with ⟨-, rfl⟩ | ⟨-, hres⟩
  · exact absurd hpos (show ¬0 ≤ -EINVAL by decide)
  rcases ite_eq_iff.1 hres with ⟨-, rfl⟩ | ⟨hlen, hres⟩
  · exact absurd hpos (show ¬0 ≤ -ENOMEM by decide)
  rcases ite_eq_iff.1 hres with ⟨-, rfl⟩ | ⟨-, hres⟩
  · exact absurd hpos (show ¬0 ≤ -EOVERFLOW by decide)
  rcases ite_eq_iff.1 hres with ⟨-, rfl⟩ | ⟨-, hres⟩
  · exact absurd hpos (show ¬0 ≤ -ENOMEM by decide)
  rw [getTaskUnmappedArea] at hres
  set area := unmappedAreaOf env s s.mm.topdown file (mapHint env mflags addr) (pageAlign len)
    pgoff mflags
  rcases harea with herr | ⟨heq, hnn, hle, hok⟩
  · rw [if_pos herr.offset] at hres
    exact absurd (hres ▸ herr.2) (not_lt.2 hpos)
  · rw [if_neg (not_not.2 hok)] at hres
    subst hres
    obtain ⟨vmFlags, pgoff', hdata, hcall⟩ := mapAt_success hpos
    have hd := pageAlign_dvd len
    have ht : TASK_SIZE < 2^64 := by decide
    refine ⟨area.1.toNat, vmFlags, pgoff', area.2, hmm, (Int.toNat_of_nonneg hnn).trans heq,
      ?_, by omega, hdata.trans (asksData_implied file), hcall⟩
    exact ⟨by omega, by omega, by omega, by omega⟩

/-- `f_op->mmap` does not change whether an area is data. -/
def ClassKept (env : MmEnv) : Prop :=
  ∀ f flags, isDataMapping ((env.file f).mmapFlags flags) = isDataMapping flags

def notData (flags : VmFlags) : Bool := !isDataMapping flags

/-- `may_expand_vm` refuses the data pages of a mapping of `[start, start+len)`. The discount for
the pages that it replaces makes it pass, but leaves less room than there are pages among them that
are not data. -/
structure DataSlips (env : MmEnv) (mm : Mm) (start len : ℕ) : Prop where
  refused : (env.rlim.data >>> 12).toNat < mm.dataVm.toNat+len/4096
  excess :
    (env.rlim.data >>>
      12).toNat-(mm.dataVm.toNat+(len/4096-(mm.pagesIn anyFlags start (start+len)).card)) <
    (mm.pagesIn notData start (start+len)).card

/-- A page that is replaced is data or not. -/
theorem card_notData (mm : Mm) (start end_ : ℕ) : (mm.pagesIn isDataMapping start end_).card+
    (mm.pagesIn notData start end_).card = (mm.pagesIn anyFlags start end_).card := by
  rw [← Finset.card_union_of_disjoint]
  · congr 1
    ext p
    simp only [Mm.pagesIn, Finset.mem_union, Finset.mem_filter, ← and_or_left, and_congr_right_iff]
    intro _
    cases mm.view p with
    | none => simp
    | some i => cases hi : isDataMapping i.flags <;> simp [notData, anyFlags, hi]
  · rw [Finset.disjoint_left]
    simp only [Mm.pagesIn, Finset.mem_filter]
    rintro p ⟨-, hdata⟩ ⟨-, hnot⟩
    cases hv : mm.view p with
    | none => simp [hv] at hdata
    | some i =>
      rw [hv, Option.any_some] at hdata hnot
      rw [notData, hdata] at hnot
      exact absurd hnot (by simp)

theorem mayExpandVm_data (hlim : env.rlim.data ≠ 0) (hign : env.conf.ignoreRlimitData = false)
    (hflags : isDataMapping flags = true) (h : mayExpandVm env mm flags n = true) :
    mm.dataVm+n ≤ env.rlim.data >>> 12 := by
  by_contra hover
  rw [BitVec.not_le] at hover
  unfold mayExpandVm at h
  split at h
  next => exact absurd h (by simp)
  next =>
    rw [if_pos ⟨hflags, hover⟩, hign, beq_eq_false_iff_ne.2 hlim] at h
    exact absurd h (by simp)

theorem Shows.data {file : Option FileId} (h : Shows env (chargedReq env q) file flags)
    (hclass : ClassKept env) :
    isDataMapping flags = isDataMapping q.vmFlags := by
  have hcharged : isDataMapping (chargedReq env q).vmFlags = isDataMapping q.vmFlags := by
    unfold chargedReq
    split
    · exact isDataMapping_or (by decide)
    · rfl
  cases h with
  | joined => exact hcharged
  | fresh =>
    rw [MergeReq.fresh]
    cases (chargedReq env q).file with
    | some f => exact (hclass f _).trans hcharged
    | none => exact hcharged

section Kept

variable (hlim : env.rlim.data ≠ 0) (hign : env.conf.ignoreRlimitData = false) (hd : DataExact s.mm)
  (hle : s.mm.dataVm ≤ env.rlim.data >>> 12)

include hlim hign hd hle

/-- A mapping keeps `data_vm` within its limit, unless pages that are not data were taken off. -/
theorem mmapTaskRegion_data_iff {file : Option FileId} {vmFlags : VmFlags} {pgoff : BitVec 64}
    (h : Wf s.mm L) (hr : RangeOk addr (addr+len)) (hclass : ClassKept env)
    (hpos : 0 ≤ (mmapTaskRegion rb env s file addr len vmFlags pgoff).1) :
    (mmapTaskRegion rb env s file addr len vmFlags pgoff).2.mm.dataVm ≤ env.rlim.data >>> 12 ↔
      (isDataMapping vmFlags = true → ¬DataSlips env s.mm addr len) := by
  obtain ⟨hfit, mm₁, L₁, flags, hw₁, hout, -, hexact, ⟨file', hshows⟩, htally⟩ :=
    mmapTaskRegion_success rb env file vmFlags pgoff h hr hpos
  have hcard := card_outside isDataMapping_clean h hw₁ hr hout
  rw [← hexact hd, ← hd] at hcard
  have hlen := hr.pages_lt
  have hdata : s.mm.dataVm.toNat ≤ 2^52 := hd ▸ card_pagesAll_le ..
  rw [BitVec.le_def] at hle
  rw [htally.data, hshows.data hclass, BitVec.le_def]
  cases hv : isDataMapping vmFlags with
  | false =>
    rw [if_neg (by simp), show mm₁.dataVm+0 = mm₁.dataVm from BitVec.add_zero _]
    exact iff_of_true (by omega) fun hf => absurd hf (by simp)
  | true =>
    have hsum : (mm₁.dataVm+BitVec.ofNat 64 (len/4096)).toNat = mm₁.dataVm.toNat+len/4096 := by
      rw [BitVec.toNat_add, BitVec.toNat_ofNat]
      omega
    have hcount : countVmaPagesRange s.mm addr (addr+len) =
        (s.mm.pagesIn anyFlags addr (addr+len)).card :=
      countVmaPagesRange_card h hr.start_dvd hr.end_dvd
    have hreplaced := replaced_le s.mm anyFlags hr
    have hsplit := card_notData s.mm addr (addr+len)
    rw [regionFits, hcount, Bool.or_eq_true] at hfit
    rw [if_pos rfl, hsum]
    refine ⟨fun hkept _ hslips => ?_, fun hno => ?_⟩
    · have hrefused := hslips.refused
      have hexcess := hslips.excess
      omega
    · by_contra hover
      apply hno rfl
      rcases hfit with hfit | hfit
      · have hbound := BitVec.le_def.1 (mayExpandVm_data hlim hign hv hfit)
        rw [BitVec.toNat_add, BitVec.toNat_ofNat] at hbound
        omega
      · -- the test passed with the discount, which must have taken off too much
        have hbound := BitVec.le_def.1 (mayExpandVm_data hlim hign hv hfit)
        rw [toNat_add_sub hdata hlen hreplaced] at hbound
        exact ⟨by omega, by omega⟩

end Kept

/-! Protection. -/

/-- Work that shows the same pages leaves the counters as they are. -/
theorem Does.counters_same {c : ℤ} (h : Does G s L s' L' (PtraceRemote.pages s.mm.core L) c) :
    s'.mm.totalVm = s.mm.totalVm ∧ s'.mm.dataVm = s.mm.dataVm := by
  obtain ⟨d, hkept, -⟩ := h.kept
  rw [ledger, ledger, h.pages] at hkept
  have htotal := congrArg (fun l : Ledger => l.1) hkept
  have hdata := congrArg (fun l : Ledger => l.2.2.2.1) hkept
  simp only [counters, charge, references, lockVec, acctVec, Prod.fst_sub, Prod.fst_add,
    Prod.snd_sub, Prod.snd_add, sub_zero, add_zero, sub_left_inj] at htotal hdata
  exact ⟨htotal, hdata⟩

def dataShift (oldflags newflags : VmFlags) (n : BitVec 64) : BitVec 64 :=
  (if isDataMapping newflags then n else 0)-(if isDataMapping oldflags then n else 0)

theorem dataVm_protDone (oldflags newflags : VmFlags) (h : Wf s.mm (A ++ x :: B)) (n : BitVec 64) :
    (protDone s x oldflags newflags n).mm.dataVm = s.mm.dataVm+dataShift oldflags newflags n := by
  obtain ⟨-, -, hcount, -⟩ := protDone_spec oldflags newflags h n
  have hdata := congrArg (fun l : Ledger => l.2.2.2.1) hcount
  simp only [counters, statVec, Prod.fst_add, Prod.snd_add, Prod.fst_sub, Prod.snd_sub] at hdata
  exact hdata

theorem protApply_data (rb : Balance VmaId) (conf : MmConf) {prev : Option VmaId} (charged : ℤ)
    (h : Wf s.mm (A ++ x :: B)) (hr : RangeOk start end_) (hs : (s.mm.core x).vmStart ≤ start)
    (he : end_ ≤ (s.mm.core x).vmEnd) (hprev : PrevOf s.mm.core A x start prev)
    (hz : (protApply rb conf s x prev start end_ flags charged).1 = 0) :
    (protApply rb conf s x prev start end_ flags charged).2.2.mm.dataVm =
      s.mm.dataVm+dataShift (s.mm.vma x).vmFlags flags (BitVec.ofNat 64 ((end_-start)/4096)) := by
  revert hz
  unfold protApply
  dsimp only
  set q : MergeReq := ⟨start, end_, flags, (s.mm.vma x).anonVma, (s.mm.vma x).vmFile,
    (s.mm.vma x).vmPgoff+BitVec.ofNat 64 ((start-(s.mm.vma x).vmStart)/4096), (s.mm.vma x).policy,
    (s.mm.vma x).uffdCtx⟩ with hq
  rcases vmaMerge_inside (q := q) rb h hr he hprev rfl with
    ⟨hnone, hquiet⟩ | ⟨v, L', core', k, hsome, hm, hadj⟩
  · rw [hnone]
    dsimp only
    generalize (vmaMerge rb s prev q).2 = s₁ at hquiet
    have hx : s₁.mm.core x = s.mm.core x := congrFun hquiet.core x
    have hsame : s₁.mm.dataVm = s.mm.dataVm := (congrArg Mm.dataVm hquiet.rest :)
    rcases protSplit_spec (G := True) rb conf (hquiet.wf h) hr (by rwa [hx]) (by rwa [hx]) with
      ⟨hz, -⟩ | ⟨hz, A', B', hdoes, -, -⟩
    · rw [if_pos hz]
      intro hzero
      exact absurd hzero hz
    · rw [if_neg (not_not.2 hz)]
      intro _
      rw [dataVm_protDone _ _ hdoes.wf, hdoes.counters_same.2, hsame]
  · rw [hsome]
    intro _
    have hsame : (vmaMerge rb s prev q).2.mm.dataVm = s.mm.dataVm :=
      (congrArg Mm.dataVm hadj.rest :)
    obtain ⟨A', B', rfl, -⟩ := hm.merged h.ordered h.rep.nodup
    dsimp only
    rw [dataVm_protDone _ _ hadj.wf, hsame]

/-- What a successful `mprotect_fixup` has done to `data_vm`, and that its test has not refused. -/
theorem mprotectFixup_data (rb : Balance VmaId) (env : MmEnv) {prev : Option VmaId}
    {newflags : VmFlags} (h : Wf s.mm (A ++ x :: B)) (hr : RangeOk start end_)
    (hs : (s.mm.core x).vmStart ≤ start) (he : end_ ≤ (s.mm.core x).vmEnd)
    (hprev : PrevOf s.mm.core A x start prev)
    (hz : (mprotectFixup rb env s x prev start end_ newflags).1 = 0) :
    let nrpages := BitVec.ofNat 64 ((end_-start)/4096)
    ¬(newflags.has VM_WRITE = true ∧ mayExpandVm env s.mm newflags nrpages = false ∧
        mayExpandVm env s.mm (s.mm.vma x).vmFlags nrpages = true) ∧
      (mprotectFixup rb env s x prev start end_ newflags).2.2.mm.dataVm =
        s.mm.dataVm+dataShift (s.mm.vma x).vmFlags newflags nrpages := by
  intro nrpages
  generalize hres : mprotectFixup rb env s x prev start end_ newflags = r at hz ⊢
  unfold mprotectFixup at hres
  dsimp only at hres
  rcases ite_eq_iff.1 hres with ⟨heq, rfl⟩ | ⟨-, hres⟩
  · subst heq
    refine ⟨fun hc => absurd (hc.2.1.symm.trans hc.2.2) (by simp), ?_⟩
    rw [dataShift, sub_self]
    exact (BitVec.add_zero _).symm
  rcases ite_eq_iff.1 hres with ⟨-, rfl⟩ | ⟨hrefuse, hres⟩
  · exact absurd hz (show -ENOMEM ≠ 0 by decide)
  refine ⟨hrefuse, ?_⟩
  rcases ite_eq_iff.1 hres with ⟨-, hres⟩ | ⟨-, hres⟩
  · obtain ⟨hmm, -⟩ := vmEnoughMemory_spec (G := True) h ((end_-start)/4096 : ℕ)
    rcases ite_eq_iff.1 hres with ⟨-, rfl⟩ | ⟨-, hres⟩
    · exact absurd hz (show -ENOMEM ≠ 0 by decide)
    · subst hres
      have happly := protApply_data rb env.conf _ (by rwa [hmm]) hr (by rwa [hmm]) (by rwa [hmm])
        (by rwa [hmm]) hz
      have hshift : dataShift (s.mm.vma x).vmFlags (newflags ||| VM_ACCOUNT) nrpages =
          dataShift (s.mm.vma x).vmFlags newflags nrpages := by
        rw [dataShift, isDataMapping_or (by decide), dataShift]
      rw [happly, hmm, hshift]
  · subst hres
    exact protApply_data rb env.conf 0 h hr hs he hprev hz

theorem mayExpandVm_notData (hflags : isDataMapping flags = false)
    (h : mm.totalVm+n ≤ env.rlim.as >>> 12) :
    mayExpandVm env mm flags n = true := by
  rw [mayExpandVm, if_neg (BitVec.not_lt.2 h), if_neg (by rw [hflags]; simp)]

/-- The data pages of a range inside a data area are counted. -/
theorem pages_le_data (h : Wf s.mm (A ++ x :: B)) (hr : RangeOk start end_)
    (hs : (s.mm.core x).vmStart ≤ start) (he : end_ ≤ (s.mm.core x).vmEnd) (hd : DataExact s.mm)
    (hx : isDataMapping (s.mm.vma x).vmFlags = true) :
    (end_-start)/4096 ≤ s.mm.dataVm.toNat := by
  have hx : isDataMapping (s.mm.core x).vmFlags = true := hx
  have hcard := card_pagesIn (P := isDataMapping) h hr.start_dvd hr.end_dvd
  rw [overlaps_append, overlaps_cons, if_pos hx, Vma.overlap, max_eq_left hs, min_eq_left he]
    at hcard
  have hsub : (s.mm.pagesIn isDataMapping start end_).card ≤ (s.mm.pagesAll isDataMapping).card :=
    Finset.card_le_card (pagesIn_subset hr.end_lt.le)
  rw [hd]
  omega

/-- `may_expand_vm` refuses pages that become data, but `RLIMIT_AS` makes it refuse them with their
old flags too, and `mprotect_fixup` takes that for a reason not to look. -/
structure ProtSlips (env : MmEnv) (mm : Mm) (oldflags newflags : VmFlags) (nrpages : BitVec 64) :
    Prop where
  becomes : isDataMapping newflags = true ∧ isDataMapping oldflags = false
  refused : env.rlim.data >>> 12 < mm.dataVm+nrpages
  skipped : env.rlim.as >>> 12 < mm.totalVm+nrpages

/-- `mprotect_fixup` keeps `data_vm` within its limit, unless its test was skipped. -/
theorem mprotectFixup_data_iff {prev : Option VmaId} {newflags : VmFlags} (hlim : env.rlim.data ≠ 0)
    (hign : env.conf.ignoreRlimitData = false) (hd : DataExact s.mm)
    (hle : s.mm.dataVm ≤ env.rlim.data >>> 12) (h : Wf s.mm (A ++ x :: B)) (hr : RangeOk start end_)
    (hs : (s.mm.core x).vmStart ≤ start) (he : end_ ≤ (s.mm.core x).vmEnd)
    (hprev : PrevOf s.mm.core A x start prev)
    (hz : (mprotectFixup rb env s x prev start end_ newflags).1 = 0) :
    (mprotectFixup rb env s x prev start end_ newflags).2.2.mm.dataVm ≤ env.rlim.data >>> 12 ↔
      ¬ProtSlips env s.mm (s.mm.vma x).vmFlags newflags (BitVec.ofNat 64 ((end_-start)/4096)) := by
  obtain ⟨hrefuse, hdata⟩ := mprotectFixup_data rb env h hr hs he hprev hz
  rw [hdata, dataShift]
  cases hnew : isDataMapping newflags with
  | false =>
    refine iff_of_true ?_ fun hf => absurd (hnew.symm.trans hf.becomes.1) (by simp)
    cases hold : isDataMapping (s.mm.vma x).vmFlags with
    | false =>
      rw [if_neg (by simp), show s.mm.dataVm+(0-0) = s.mm.dataVm from BitVec.add_zero _]
      exact hle
    | true =>
      -- `data_vm` shrinks by pages that it counts
      have hcount := pages_le_data h hr hs he hd hold
      have hbound := s.mm.dataVm.isLt
      rw [BitVec.le_def] at hle ⊢
      rw [if_neg (by simp), if_pos rfl, zero_sub, ← sub_eq_add_neg, BitVec.toNat_sub,
        BitVec.toNat_ofNat]
      omega
  | true =>
    cases hold : isDataMapping (s.mm.vma x).vmFlags with
    | true =>
      rw [if_pos rfl, sub_self, show s.mm.dataVm+0 = s.mm.dataVm from BitVec.add_zero _]
      exact iff_of_true hle fun hf => absurd (hold.symm.trans hf.becomes.2) (by simp)
    | false =>
      rw [if_pos rfl, if_neg (by simp), show BitVec.ofNat 64 ((end_-start)/4096)-0 =
        _ from BitVec.sub_zero _]
      refine ⟨fun hkept hslips => absurd hkept (BitVec.not_le.2 hslips.refused), fun hno => ?_⟩
      by_contra hover
      rw [BitVec.not_le] at hover
      refine hno ⟨⟨hnew, hold⟩, hover, ?_⟩
      by_contra has
      have hwrite : newflags.has VM_WRITE = true := by
        rw [isDataMapping_eq, Bool.and_eq_true, Bool.and_eq_true] at hnew
        exact hnew.1.1
      have hnotfalse :
          mayExpandVm env s.mm newflags (BitVec.ofNat 64 ((end_-start)/4096)) ≠ false :=
        fun hf => hrefuse ⟨hwrite, hf, mayExpandVm_notData hold (BitVec.not_lt.1 has)⟩
      exact absurd (mayExpandVm_data hlim hign hnew (by simpa using hnotfalse))
        (BitVec.not_le.2 hover)

/-- `RLIMIT_DATA` is enforced but for two kinds of calls that slip past the tests of
`may_expand_vm`: a mapping of data over pages that are not data, and `mprotect` of pages that
`RLIMIT_AS` would not allow once more. -/
theorem rlimitData_kept_iff (rb : Balance VmaId) (env : MmEnv) (s : MmSys)
    (hlim : env.rlim.data ≠ 0) (hign : env.conf.ignoreRlimitData = false) (hd : DataExact s.mm)
    (hle : s.mm.dataVm ≤ env.rlim.data >>> 12) :
    (∀ L LT file addr len prot flags pgoff, Wf s.mm L → Wf (env.cur s.mm) LT →
      LayoutWords env.conf (env.cur s.mm) → ClassKept env →
      let r := doTaskMmap rb env s file addr len prot flags pgoff
      0 ≤ r.1 → (r.2.mm.dataVm ≤ env.rlim.data >>> 12 ↔ (asksData prot flags = true → ∀ start,
        Picks env (env.cur s.mm) LT s.mm.topdown (mapHint env flags addr) (pageAlign len) pgoff
          flags file start →
        ¬DataSlips env s.mm start (pageAlign len)))) ∧
    ∀ A x B prev start end_ newflags, Wf s.mm (A ++ x :: B) → RangeOk start end_ →
      (s.mm.core x).vmStart ≤ start → end_ ≤ (s.mm.core x).vmEnd → PrevOf s.mm.core A x start prev →
      let r := mprotectFixup rb env s x prev start end_ newflags
      r.1 = 0 → (r.2.2.mm.dataVm ≤ env.rlim.data >>> 12 ↔
        ¬ProtSlips env s.mm (s.mm.vma x).vmFlags newflags
          (BitVec.ofNat 64 ((end_-start)/4096))) := by
  constructor
  · intro L LT file addr len prot flags pgoff h hT hw hclass r hpos
    obtain ⟨start, vmFlags, pgoff', s₁, hmm, hstart, hr, htask, hdata, hcall⟩ :=
      doTaskMmap_success hpos
    have hpos : 0 ≤ (mmapTaskRegion rb env s₁ file start (pageAlign len) vmFlags pgoff').1 := by
      rw [← hcall]
      exact hpos
    rw [← hmm] at hd hle h
    have hiff := mmapTaskRegion_data_iff hlim hign hd hle h hr hclass hpos
    rw [← hcall, hmm, hdata] at hiff
    have hlt := hr.lt
    -- the search gives one start, so what holds for all picked starts holds for this one
    have hpicks (a : ℕ) : getArea env s.mm s.mm.topdown file (mapHint env flags addr)
        (pageAlign len) pgoff flags = a ↔
          Picks env (env.cur s.mm) LT s.mm.topdown (mapHint env flags addr) (pageAlign len) pgoff
            flags file a :=
      getArea_iff hT hw (by omega) (by omega)
    refine hiff.trans (imp_congr_right fun _ => ⟨fun hok start' hstart' => ?_, fun hok => ?_⟩)
    · obtain rfl : start' = start := by
        exact_mod_cast ((hpicks start').2 hstart').symm.trans hstart.symm
      exact hok
    · exact hok start ((hpicks start).1 hstart.symm)
  · intro A x B prev start end_ newflags h hr hs he hprev r hz
    exact mprotectFixup_data_iff hlim hign hd hle h hr hs he hprev hz

def onePageOfData (as : BitVec 64) : MmEnv :=
  { MmEnv.unlimited 10 with rlim := ⟨as, 0x1000, 0x1000, 0x1000⟩ }

theorem dataExact_fourCounted : DataExact fourCounted := by
  rw [DataExact, card_pagesAll isDataMapping_clean wf_fourCounted,
    pagesOf_pages isDataMapping_clean]
  decide

/-- One page of data beside four that are not. -/
theorem rlimitData_kept_iff_fourPages :
    let s : MmSys := { mm := fourCounted }
    let env := onePageOfData 0x100000
    let r := doTaskMmap Balance.plain env s none 0x20000 0x1000 (PROT_READ ||| PROT_WRITE)
      (MAP_FIXED ||| MAP_PRIVATE ||| MAP_ANONYMOUS) 0
    0 ≤ r.1 ∧ r.2.mm.dataVm ≤ env.rlim.data >>> 12 := by
  intro s env r
  have hpos : 0 ≤ r.1 := by decide +kernel
  refine ⟨hpos, ?_⟩
  apply ((rlimitData_kept_iff Balance.plain env s (by decide) rfl dataExact_fourCounted
    (by decide)).1 [0] [0] none
    0x20000 0x1000 (PROT_READ ||| PROT_WRITE) (MAP_FIXED ||| MAP_PRIVATE ||| MAP_ANONYMOUS) 0
      wf_fourCounted wf_fourCounted
    ⟨by decide, by decide, by decide⟩ (fun _ _ => rfl) hpos).2
  intro _ start _ hslips
  exact absurd hslips.refused (by decide)

/-- With a limit of one page of data, four pages become data in both ways: a mapping over four pages
that are not data, and `mprotect` when `RLIMIT_AS` is used up. -/
theorem rlimitData_exceeded :
    let s : MmSys := { mm := fourCounted }
    let r := doTaskMmap Balance.plain (onePageOfData 0x100000) s none 0x10000 0x4000
      (PROT_READ ||| PROT_WRITE) (MAP_FIXED ||| MAP_PRIVATE ||| MAP_ANONYMOUS) 0
    let r' := mprotectFixup Balance.plain (onePageOfData 0x4000) s 0 none 0x10000 0x14000
      (VM_READ ||| VM_WRITE)
    Wf s.mm [0] ∧ DataExact s.mm ∧ s.mm.dataVm = 0 ∧ (0 ≤ r.1 ∧ r.2.mm.dataVm = 4) ∧ r'.1 = 0 ∧
      r'.2.2.mm.dataVm = 4 := by
  refine ⟨wf_fourCounted, dataExact_fourCounted, rfl, ?_⟩
  decide +kernel

end PtraceRemote
