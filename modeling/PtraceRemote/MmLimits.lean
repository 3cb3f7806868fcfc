import PtraceRemote.MmCount

/-! `RLIMIT_AS` across replacement: the test of `mmap_task_region` against the pages that a mapping
replaces and those it adds. -/
namespace PtraceRemote

open AugTree (Balance)

variable {mm mm' : Mm} {s s' : MmSys} {rb : Balance VmaId} {env : MmEnv} {L L' A B : List VmaId}
  {x : VmaId} {q : MergeReq} {flags : VmFlags} {start end_ addr len : ℕ} {n : BitVec 64} {G : Prop}

def anyFlags (_ : VmFlags) : Bool := true

theorem anyFlags_clean (flags : VmFlags) : anyFlags (cleanFlags flags) = anyFlags flags := rfl

/-- `total_vm` is the number of mapped pages. -/
def TotalExact (mm : Mm) : Prop := mm.totalVm.toNat = (mm.pagesAll anyFlags).card

/-- `data_vm` is the number of pages that are data. -/
def DataExact (mm : Mm) : Prop := mm.dataVm.toNat = (mm.pagesAll isDataMapping).card

theorem toNat_of_kept {c c' : BitVec 64} {k k' : ℕ}
    (h : c'-BitVec.ofNat 64 k' = c-BitVec.ofNat 64 k) (hc : c.toNat = k) (hk : k' < 2^64) :
    c'.toNat = k' := by
  have hz : c-BitVec.ofNat 64 k = 0 := by
    rw [← hc, BitVec.ofNat_toNat, BitVec.setWidth_eq]
    exact BitVec.sub_self c
  have hc' : c' = BitVec.ofNat 64 k' := by
    rw [hz] at h
    exact sub_eq_zero.1 h
  rw [hc', BitVec.toNat_ofNat, Nat.mod_eq_of_lt hk]

/-- Work that keeps the books keeps the counters exact. -/
theorem Does.exact {P : Pages} {c : ℤ} (h : Does G s L s' L' P c) (hw : Wf s.mm L) :
    (TotalExact s.mm → TotalExact s'.mm) ∧ (DataExact s.mm → DataExact s'.mm) := by
  obtain ⟨d, hkept, -⟩ := h.kept
  have hword : ∀ P, (s'.mm.pagesAll P).card < 2^64 := fun P =>
    (card_pagesAll_le s'.mm P).trans_lt (by decide)
  constructor
  · intro ht
    have hfst := congrArg (fun l : Ledger => l.1) hkept
    simp only [ledger, counters, charge, references, lockVec, acctVec, Prod.fst_sub,
      Prod.fst_add, sub_zero, add_zero] at hfst
    rw [TotalExact, card_pagesAll anyFlags_clean hw] at ht
    rw [TotalExact, card_pagesAll anyFlags_clean h.wf]
    exact toNat_of_kept hfst ht (by rw [← card_pagesAll anyFlags_clean h.wf]; exact hword anyFlags)
  · intro ht
    have hdata := congrArg (fun l : Ledger => l.2.2.2.1) hkept
    simp only [ledger, counters, charge, references, lockVec, acctVec, Prod.fst_sub, Prod.fst_add,
      Prod.snd_sub, Prod.snd_add, sub_zero, add_zero] at hdata
    rw [DataExact, card_pagesAll isDataMapping_clean hw] at ht
    rw [DataExact, card_pagesAll isDataMapping_clean h.wf]
    exact toNat_of_kept hdata ht
      (by rw [← card_pagesAll isDataMapping_clean h.wf]; exact hword isDataMapping)

structure Tallied (mm mm' : Mm) (flags : VmFlags) (n : BitVec 64) : Prop where
  total : mm'.totalVm = mm.totalVm+n
  data : mm'.dataVm = mm.dataVm+(if isDataMapping flags then n else 0)

theorem Tallied.of_rest {mm₀ : Mm} (h : Tallied mm mm' flags n) (hrest : mm.rest = mm₀.rest) :
    Tallied mm₀ mm' flags n := by
  have htotal : mm.totalVm = mm₀.totalVm := (congrArg Mm.totalVm hrest :)
  have hdata : mm.dataVm = mm₀.dataVm := (congrArg Mm.dataVm hrest :)
  exact ⟨htotal ▸ h.total, hdata ▸ h.data⟩

theorem tallied_mapDone (s : MmSys) (x : VmaId) (flags : VmFlags) (len : ℕ) :
    Tallied s.mm (mapDone s x flags len).mm flags (BitVec.ofNat 64 (len/4096)) := by
  have hcount : counters (mapDone s x flags len) = _ :=
    counters_accountNew s flags (BitVec.ofNat 64 (len/4096))
    (flags.has VM_LOCKED && !(flags.has VM_SPECIAL || isVmHugetlbPage (s.mm.vma x)))
  have htotal := congrArg (fun l : Ledger => l.1) hcount
  have hdata := congrArg (fun l : Ledger => l.2.2.2.1) hcount
  simp only [counters, statVec, lockVec, Prod.fst_add, Prod.snd_add, add_zero] at htotal hdata
  exact ⟨htotal, hdata⟩

theorem rest_vmaLink (rb : Balance VmaId) (mm : Mm) (x : VmaId) (k : VmaLinks) :
    (vmaLink rb mm x k).rest = mm.rest := by
  rfl

theorem tallied_linkNew (rb : Balance VmaId) (s : MmSys) (x : VmaId) (k : VmaLinks) (len : ℕ) :
    Tallied s.mm (linkNew rb s x k len).mm (s.mm.vma x).vmFlags (BitVec.ofNat 64 (len/4096)) :=
  (tallied_mapDone ..).of_rest (rest_vmaLink rb s.mm x k)

/-- The same for an area that is filled in first. -/
theorem tallied_filled (rb : Balance VmaId) (s : MmSys) (x : VmaId) (fill : Vma → Vma)
    (k : VmaLinks) (len : ℕ) :
    Tallied s.mm (linkNew rb (s.setMm (s.mm.modVma x fill)) x k len).mm (fill (s.mm.vma x)).vmFlags
      (BitVec.ofNat 64 (len/4096)) := by
  have hfill : (s.mm.modVma x fill).vma x = fill (s.mm.vma x) := Function.update_self ..
  have hlink := tallied_linkNew rb (s.setMm (s.mm.modVma x fill)) x k len
  rw [show (s.setMm (s.mm.modVma x fill)).mm = s.mm.modVma x fill from rfl, hfill] at hlink
  exact hlink.of_rest rfl

def Tallies (env : MmEnv) (s : MmSys) (q : MergeReq) (r : ℤ × MmSys) : Prop :=
  0 ≤ r.1 → ∃ file flags, Shows env q file flags ∧
    Tallied s.mm r.2.mm flags (BitVec.ofNat 64 ((q.end_-q.addr)/4096))

theorem tallies_fresh {r : ℤ × MmSys}
    (h : Tallied s.mm r.2.mm (q.fresh env).2 (BitVec.ofNat 64 ((q.end_-q.addr)/4096))) :
    Tallies env s q r :=
  fun _ => ⟨_, _, .fresh, h⟩

theorem mapFile_tallies {k : VmaLinks} {f : FileId} (charged : ℤ) (h : Spare s s' L x q.area)
    (hf : q.file = some f) :
    Tallies env s q (mapFile rb env s' x f k q charged) := by
  obtain ⟨hneg, hquiet⟩ := mapFileChecks_spec s' q.vmFlags
  have h₁ := h.quiet hquiet
  unfold mapFile
  dsimp only
  split
  next hc =>
    intro hpos
    exact absurd (le_antisymm hneg hpos) hc
  next hc =>
    set s₁ := (mapFileChecks s' q.vmFlags).2
    split
    next herr =>
      intro hpos
      have hval : 0 < (env.file f).mmapErr.val := Nat.pos_of_ne_zero fun h0 => herr (Fin.ext h0)
      dsimp only at hpos
      omega
    next =>
      have hflags : (s₁.mm.vma x).vmFlags = q.vmFlags := (congrArg Vma.vmFlags h₁.area :)
      have hnew : ((env.file f).mapped f (s₁.mm.vma x)).vmFlags = (q.fresh env).2 := by
        rw [MergeReq.fresh, hf, ← hflags]
        rfl
      apply tallies_fresh
      rw [← hnew]
      exact (tallied_filled rb (s₁.getFile (some f)) x _ k _).of_rest h₁.same.rest

theorem mapAnon_tallies {k : VmaLinks} (charged : ℤ) (h : Spare s s' L x q.area)
    (hf : q.file = none) :
    Tallies env s q (mapAnon rb env s' x k q charged) := by
  have hfresh : (q.fresh env).2 = q.vmFlags := by rw [MergeReq.fresh, hf]
  unfold mapAnon
  split
  next =>
    have h₁ := h.quiet (outcome_quiet s')
    dsimp only
    split
    next hc =>
      intro hpos
      exact absurd (le_antisymm (outcome_nonpos s') hpos) hc
    next =>
      set s₁ := s'.outcome.2
      have hflags : (s₁.mm.vma x).vmFlags = q.vmFlags := (congrArg Vma.vmFlags h₁.area :)
      apply tallies_fresh
      rw [hfresh, ← hflags]
      exact (tallied_filled rb (s₁.getFile (some env.shmemFile)) x
        (fun v => { v with vmFile := some env.shmemFile, hasOps := true }) k _).of_rest h₁.same.rest
  next =>
    have hflags : (s'.mm.vma x).vmFlags = q.vmFlags := (congrArg Vma.vmFlags h.area :)
    apply tallies_fresh
    rw [hfresh, ← hflags]
    exact (tallied_linkNew ..).of_rest h.same.rest

theorem mapRegion_tallies (rb : Balance VmaId) (env : MmEnv) (charged : ℤ) {k : VmaLinks}
    (h : Wf s.mm (A ++ B)) (hk : LinksAt s.mm A B k) (hr : RangeOk q.addr q.end_)
    (hA : ∀ a ∈ A, (s.mm.core a).vmEnd ≤ q.addr) (hB : ∀ b ∈ B, q.end_ ≤ (s.mm.core b).vmStart) :
    Tallies env s q (mapRegion rb env s k q charged) := by
  unfold mapRegion
  dsimp only
  rcases vmaMerge_free rb h hk.prev hr hA hB with ⟨hnone, hquiet⟩ | ⟨v, L', core', m, hv, -, hadj⟩
  · rw [hnone]
    dsimp only
    set s₁ := (vmaMerge rb s k.prev q).2
    split
    next =>
      intro hpos
      exact absurd hpos (show ¬0 ≤ -ENOMEM by decide)
    next =>
      have hspare : Spare s (allocVma s₁.outcome.2 q.area) (A ++ B) s₁.outcome.2.mm.nextId q.area :=
        spare_alloc (hquiet.trans (outcome_quiet s₁)) h q.area
      cases hf : q.file with
      | some f => exact mapFile_tallies charged hspare hf
      | none => exact mapAnon_tallies charged hspare hf
  · rw [hv]
    intro _
    exact ⟨_, _, .joined, (tallied_mapDone ..).of_rest hadj.rest⟩

theorem chargeRegion_tallies (rb : Balance VmaId) (env : MmEnv) {k : VmaLinks}
    (h : Wf s.mm (A ++ B)) (hk : LinksAt s.mm A B k) (hr : RangeOk q.addr q.end_)
    (hA : ∀ a ∈ A, (s.mm.core a).vmEnd ≤ q.addr) (hB : ∀ b ∈ B, q.end_ ≤ (s.mm.core b).vmStart) :
    Tallies env s (chargedReq env q) (chargeRegion rb env s k q) := by
  unfold chargeRegion chargedReq
  split
  next =>
    obtain ⟨hmm, -⟩ := vmEnoughMemory_spec (G := True) h ((q.end_-q.addr)/4096 : ℕ)
    dsimp only at hmm ⊢
    set t := vmEnoughMemory s ((q.end_-q.addr)/4096 : ℕ)
    split
    next =>
      intro hpos
      exact absurd hpos (show ¬0 ≤ -ENOMEM by decide)
    next =>
      have hmap : Tallies env t.2 q.accounted _ := mapRegion_tallies (q := q.accounted) rb env
        ((q.end_-q.addr)/4096 : ℕ) (by rwa [hmm]) (by rwa [hmm]) hr (by rwa [hmm]) (by rwa [hmm])
      unfold Tallies at hmap ⊢
      rwa [hmm] at hmap
  next => exact mapRegion_tallies rb env 0 h hk hr hA hB

/-- What a successful `mmap_task_region` has done: its test has passed, the range has been cleared
and its pages have been counted. -/
theorem mmapTaskRegion_success (rb : Balance VmaId) (env : MmEnv) (file : Option FileId)
    (vmFlags : VmFlags) (pgoff : BitVec 64) (h : Wf s.mm L) (hr : RangeOk addr (addr+len))
    (hpos : 0 ≤ (mmapTaskRegion rb env s file addr len vmFlags pgoff).1) :
    regionFits env s.mm addr len vmFlags = true ∧ ∃ mm₁ L₁ flags, Wf mm₁ L₁ ∧
      pages mm₁.core L₁ = outside addr (addr+len) (pages s.mm.core L) ∧
      (TotalExact s.mm → TotalExact mm₁) ∧ (DataExact s.mm → DataExact mm₁) ∧
      (∃ file', Shows env (chargedReq env ⟨addr, addr+len, vmFlags, none, file, pgoff, 0, 0⟩)
        file' flags) ∧
      Tallied mm₁ (mmapTaskRegion rb env s file addr len vmFlags pgoff).2.mm flags
        (BitVec.ofNat 64 (len/4096)) := by
  revert hpos
  unfold mmapTaskRegion
  split
  next =>
    intro hpos
    exact absurd hpos (show ¬0 ≤ -ENOMEM by decide)
  next hfits =>
    dsimp only
    rcases clearOldMaps_spec rb env.conf h hr with ⟨hnone, -⟩ | ⟨k, A, B, hsome, hk, hA, hB, hdoes⟩
    · rw [hnone]
      intro hpos
      exact absurd hpos (show ¬0 ≤ -ENOMEM by decide)
    · rw [hsome]
      intro hpos
      obtain ⟨file', flags, hshows, htally⟩ := chargeRegion_tallies
        (q := ⟨addr, addr+len, vmFlags, none, file, pgoff, 0, 0⟩) rb env hdoes.wf hk hr hA hB hpos
      rw [chargedReq_addr, chargedReq_end, Nat.add_sub_cancel_left] at htally
      obtain ⟨htotal, hdata⟩ := hdoes.exact h
      exact ⟨by simpa using hfits, _, _, flags, hdoes.wf, hdoes.pages, htotal, hdata,
        ⟨file', hshows⟩, htally⟩

/-! The tests. -/

theorem mayExpandVm_total (h : mayExpandVm env mm flags n = true) :
    mm.totalVm+n ≤ env.rlim.as >>> 12 := by
  by_contra hlt
  rw [BitVec.not_le] at hlt
  rw [mayExpandVm, if_pos hlt] at h
  exact absurd h (by simp)

theorem mayExpandVm_false (h : mayExpandVm env mm flags n = false) :
    env.rlim.as >>> 12 < mm.totalVm+n ∨
      isDataMapping flags = true ∧ env.rlim.data >>> 12 < mm.dataVm+n := by
  unfold mayExpandVm at h
  split at h
  next hlt => exact .inl hlt
  split at h
  next hdata => exact .inr hdata
  next => exact absurd h (by simp)

/-- Pages that are counted but not replaced fit in a word, with room to spare. -/
theorem toNat_add_sub {c : BitVec 64} {k m : ℕ} (hc : c.toNat ≤ 2^52) (hm : m < 2^52) (hk : k ≤ m) :
    (c+(BitVec.ofNat 64 m-BitVec.ofNat 64 k)).toNat = c.toNat+(m-k) := by
  have hsub : BitVec.ofNat 64 m-BitVec.ofNat 64 k = BitVec.ofNat 64 (m-k) :=
    (BitVec.ofNat_sub_ofNat_of_le m k (by omega) hk)
  rw [hsub, BitVec.toNat_add, BitVec.toNat_ofNat]
  omega

theorem RangeOk.pages_lt (hr : RangeOk addr (addr+len)) : len/4096 < 2^52 := by
  have hend := hr.end_lt
  omega

theorem replaced_le (mm : Mm) (P : VmFlags → Bool) (hr : RangeOk addr (addr+len)) :
    (mm.pagesIn P addr (addr+len)).card ≤ len/4096 := by
  have hle := card_pagesIn_le mm P addr (addr+len)
  have hs := hr.start_dvd
  have he := hr.end_dvd
  omega

/-- `RLIMIT_AS` and the pages that a mapping replaces: they are counted exactly, what is left is
within the limit, and the test fails for no other reason. -/
theorem mmapTaskRegion_rlimit_as (rb : Balance VmaId) (env : MmEnv) (s : MmSys) (L : List VmaId)
    (file : Option FileId) (addr len : ℕ) (vmFlags : VmFlags) (pgoff : BitVec 64) (h : Wf s.mm L)
    (hr : RangeOk addr (addr+len)) (ht : TotalExact s.mm) :
    let replaced := (s.mm.pagesIn anyFlags addr (addr+len)).card
    let after := s.mm.totalVm.toNat-replaced+len/4096
    let limit := (env.rlim.as >>> 12).toNat
    let r := mmapTaskRegion rb env s file addr len vmFlags pgoff
    (∀ start end_, start ≤ end_ → 4096 ∣ start → 4096 ∣ end_ →
      countVmaPagesRange s.mm start end_ = (s.mm.pagesIn anyFlags start end_).card) ∧
    (replaced ≤ len/4096 ∧ (BitVec.ofNat 64 (len/4096)-BitVec.ofNat 64
      (countVmaPagesRange s.mm addr (addr+len))).toNat = len/4096-replaced) ∧
    (0 ≤ r.1 → r.2.mm.totalVm.toNat = after ∧ after ≤ limit) ∧
    (limit < after → r = (-ENOMEM, s)) ∧
    (regionFits env s.mm addr len vmFlags = false → limit < after ∨ isDataMapping vmFlags = true ∧
      env.rlim.data >>> 12 < s.mm.dataVm+BitVec.ofNat 64 (len/4096-replaced)) := by
  intro replaced after limit r
  have hcount : ∀ start end_, start ≤ end_ → 4096 ∣ start → 4096 ∣ end_ →
      countVmaPagesRange s.mm start end_ = (s.mm.pagesIn anyFlags start end_).card :=
    fun start end_ _ hs he => countVmaPagesRange_card h hs he
  have hrange : countVmaPagesRange s.mm addr (addr+len) = replaced :=
    hcount _ _ (Nat.le_add_right ..) hr.start_dvd hr.end_dvd
  have hle : replaced ≤ len/4096 := replaced_le s.mm anyFlags hr
  have hlen := hr.pages_lt
  have htotal : s.mm.totalVm.toNat ≤ 2^52 := ht ▸ card_pagesAll_le ..
  have hpart : replaced ≤ s.mm.totalVm.toNat :=
    ht ▸ Finset.card_le_card (pagesIn_subset hr.end_lt.le)
  have hsub : BitVec.ofNat 64 (len/4096)-BitVec.ofNat 64 replaced =
      BitVec.ofNat 64 (len/4096-replaced) :=
    BitVec.ofNat_sub_ofNat_of_le _ _ (by omega) hle
  -- the two sums that the tests look at
  have hsum :
      (s.mm.totalVm+(BitVec.ofNat 64 (len/4096)-BitVec.ofNat 64 replaced)).toNat = after := by
    rw [toNat_add_sub htotal hlen hle]
    omega
  have hsum₀ : (s.mm.totalVm+BitVec.ofNat 64 (len/4096)).toNat = s.mm.totalVm.toNat+len/4096 := by
    rw [BitVec.toNat_add, BitVec.toNat_ofNat]
    omega
  have hfits : regionFits env s.mm addr len vmFlags = true → after ≤ limit := by
    intro hfit
    rw [regionFits, hrange, Bool.or_eq_true] at hfit
    -- the pages fit as they are, or with those that are replaced taken off
    rcases hfit with hfit | hfit
    · have hbound := BitVec.le_def.1 (mayExpandVm_total hfit)
      rw [hsum₀] at hbound
      omega
    · have hbound := BitVec.le_def.1 (mayExpandVm_total hfit)
      rwa [hsum] at hbound
  refine ⟨hcount, ⟨hle, ?_⟩, ?_, ?_, ?_⟩
  · rw [hrange, hsub, BitVec.toNat_ofNat]
    omega
  · intro hpos
    obtain ⟨hfit, mm₁, L₁, flags, hw₁, hout, hexact, -, -, htally⟩ :=
      mmapTaskRegion_success rb env file vmFlags pgoff h hr hpos
    refine ⟨?_, hfits hfit⟩
    have hcard := card_outside anyFlags_clean h hw₁ hr hout
    rw [← hexact ht, ← ht] at hcard
    rw [htally.total, BitVec.toNat_add, BitVec.toNat_ofNat]
    omega
  · intro hover
    apply if_pos
    by_contra hfit
    exact absurd (hfits (by simpa using hfit)) (by omega)
  · intro hfit
    rw [regionFits, hrange, Bool.or_eq_false_iff] at hfit
    rcases mayExpandVm_false hfit.2 with hover | hdata
    · have hbound := BitVec.lt_def.1 hover
      rw [hsum] at hbound
      exact .inl hbound
    · rw [hsub] at hdata
      exact .inr hdata

def fourCounted : Mm := { Mm.ofArea fourPages with totalVm := 4 }

theorem wf_fourCounted : Wf fourCounted [0] :=
  Wf.of_shape (wf_ofArea ⟨by decide, by decide, by decide, by decide⟩ :
    Wf (Mm.ofArea fourPages) [0]) rfl

/-- At the limit of four pages, one page of four may be replaced. -/
theorem mmapTaskRegion_rlimit_as_fourPages :
    let s : MmSys := { mm := fourCounted }
    let env : MmEnv := { MmEnv.unlimited 10 with rlim := ⟨0x4000, 0x4000, 0x4000, 0x4000⟩ }
    let r := mmapTaskRegion Balance.plain env s none 0x11000 0x1000 VM_READ 0x11
    countVmaPagesRange s.mm 0x11000 0x12000 = 1 ∧ 0 ≤ r.1 ∧
      r.2.mm.totalVm.toNat ≤ (env.rlim.as >>> 12).toNat := by
  intro s env r
  have hexact : TotalExact s.mm := by
    rw [TotalExact, card_pagesAll anyFlags_clean wf_fourCounted, pagesOf_pages anyFlags_clean]
    decide
  have hpos : 0 ≤ r.1 := by decide +kernel
  obtain ⟨-, -, hlimit, -⟩ :=
    mmapTaskRegion_rlimit_as Balance.plain env s [0] none 0x11000 0x1000 VM_READ 0x11
    wf_fourCounted ⟨by decide, by decide, by decide, by decide⟩ hexact
  obtain ⟨htotal, hle⟩ := hlimit hpos
  exact ⟨by decide +kernel, hpos, htotal.trans_le hle⟩

end PtraceRemote
