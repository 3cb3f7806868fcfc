import PtraceRemote.MmMapCount

/-! The limit on the number of areas over runs: `map_count` stays within one of
`sysctl_max_map_count` as long as no `do_munmap` above the limit fails between its two cuts. -/
namespace PtraceRemote

open AugTree (Balance)

variable {s : MmSys} {rb : Balance VmaId} {conf : MmConf} {env : MmEnv} {L : List VmaId}
  {addr oldLen newLen newAddr : ℕ} {flags : Bits}

def MremapSafe (conf : MmConf) (s : MmSys) (addr oldLen newLen : ℕ) (flags : Bits) (newAddr : ℕ) :
    Prop :=
  if flags.has MREMAP_FIXED then
    ¬(newAddr < wadd addr oldLen ∧ addr < newAddr+newLen) →
      UnmapSafe conf s 0 newAddr newLen False ∧
      (newLen < oldLen → ∀ k, UnmapSafe conf s k (wadd addr newLen) (oldLen-newLen)
        (wadd addr newLen ≤ newAddr ∧
          newAddr+pageAlign newLen ≤ wadd addr newLen+pageAlign (oldLen-newLen)))
  else newLen < oldLen → UnmapSafe conf s 0 (wadd addr newLen) (oldLen-newLen) False

def BrkSafe (env : MmEnv) (s : MmSys) (addr : ℕ) : Prop :=
  ¬(addr < (if env.compatBrk then s.mm.endData else s.mm.startBrk) ∨
    checkDataRlimit env s.mm addr = true) →
    addr ≤ s.mm.brk →
      UnmapSafe env.conf s 0 (pageAlign addr) (wsub (pageAlign s.mm.brk) (pageAlign addr)) False

def MmCall.UnmapsSafely (env : MmEnv) (s : MmSys) : MmCall → Prop
  | .remoteMunmap user addr len =>
    user.readable = true → s.Succeeds 0 → UnmapSafe env.conf s.outcome.2 0 addr len False
  | .munmap addr len => s.Succeeds 0 → UnmapSafe env.conf s.outcome.2 0 addr len False
  | .remoteMremap user addr oldLen newLen flags newAddr => user.readable = true → s.Succeeds 0 →
      MremapArgs addr newLen flags →
        MremapSafe env.conf s.outcome.2 addr (pageAlign oldLen) (pageAlign newLen) flags newAddr
  | .mremap addr oldLen newLen flags newAddr => s.Succeeds 0 → MremapArgs addr newLen flags →
      MremapSafe env.conf s.outcome.2 addr (pageAlign oldLen) (pageAlign newLen) flags newAddr
  | .brk addr => s.Succeeds 0 → BrkSafe env s.outcome.2 addr
  | _ => True

/-! One operation. -/

theorem shrink_count (rb : Balance VmaId) {a : ℕ} (h : Wf s.mm L)
    (hle : s.mm.mapCount ≤ conf.maxMapCount+1) (hlen : newLen ≤ oldLen)
    (hsafe : newLen < oldLen → UnmapSafe conf s 0 a (oldLen-newLen) False) :
    (doMunmap rb conf s a (oldLen-newLen)).2.mm.mapCount ≤ conf.maxMapCount+1 := by
  rcases hlen.eq_or_lt with rfl | hlt
  · rw [Nat.sub_self, doMunmap_nothing]
    exact hle
  · exact doMunmap_within rb h hle (hsafe hlt)

theorem mremapToTask_count (h : Wf s.mm L) (hle : s.mm.mapCount ≤ env.conf.maxMapCount+1)
    (hf : flags.has MREMAP_FIXED = true)
    (hsafe : MremapSafe env.conf s addr oldLen newLen flags newAddr) :
    (mremapToTask rb env s addr oldLen newAddr newLen).2.2.mm.mapCount ≤
      env.conf.maxMapCount+1 := by
  rw [MremapSafe, if_pos hf] at hsafe
  unfold mremapToTask
  dsimp only
  split
  next => exact hle
  split
  next => exact hle
  split
  next => exact hle
  next hoverlap =>
    obtain ⟨hfirst, hsecond⟩ := hsafe hoverlap
    have hclear : (doMunmap rb env.conf s newAddr newLen).2.mm.mapCount ≤ env.conf.maxMapCount+1 :=
      doMunmap_within rb h hle hfirst
    split
    next => exact hclear
    next hz =>
      have hz := not_not.1 hz
      obtain ⟨-, L', hd⟩ :=
        (doMunmap_spec rb env.conf newAddr newLen h).resolve_left fun hne => hne.1 hz
      have hshrink :
          (if newLen ≤ oldLen then doMunmap rb env.conf (doMunmap rb env.conf s newAddr newLen).2
            (wadd addr newLen) (oldLen-newLen)
            else (0, (doMunmap rb env.conf s newAddr newLen).2)).2.mm.mapCount ≤
            env.conf.maxMapCount+1 := by
        split
        next hlen =>
          refine shrink_count rb hd.wf hclear hlen fun hlt => ?_
          exact UnmapSafe.after h hz (fun h₁ h₂ => ⟨h₁, h₂⟩) (hsecond hlt)
        next => exact hclear
      generalize (if newLen ≤ oldLen then
        doMunmap rb env.conf (doMunmap rb env.conf s newAddr newLen).2
          (wadd addr newLen) (oldLen-newLen) else (0, (doMunmap rb env.conf s newAddr newLen).2)) =
            shrink at hshrink ⊢
      split
      next => exact hshrink
      next => exact mapCount_moveTo rb env addr _ newAddr newLen (by omega) hshrink

theorem mremapLocked_count (h : Wf s.mm L) (hle : s.mm.mapCount ≤ env.conf.maxMapCount+1)
    (hsafe : MremapSafe env.conf s addr oldLen newLen flags newAddr) :
    (mremapLocked rb env s addr oldLen newLen flags newAddr).2.2.mm.mapCount ≤
      env.conf.maxMapCount+1 := by
  unfold mremapLocked
  split
  next hf => exact mremapToTask_count h hle hf hsafe
  next hf =>
    rw [MremapSafe, if_neg hf] at hsafe
    split
    next hlen =>
      have hshrink := shrink_count rb h hle hlen hsafe
      dsimp only
      split
      next => exact hshrink
      next => exact hshrink
    next => exact mapCount_mremapGrow rb env addr oldLen newLen flags (by omega) hle

theorem mremapTask_count (rb : Balance VmaId) (env : MmEnv) (h : Wf s.mm L)
    (hle : s.mm.mapCount ≤ env.conf.maxMapCount+1)
    (hsafe : s.Succeeds 0 → MremapArgs addr newLen flags →
      MremapSafe env.conf s.outcome.2 addr (pageAlign oldLen) (pageAlign newLen) flags newAddr) :
    (mremapTask rb env s addr oldLen newLen flags newAddr).2.2.mm.mapCount ≤
      env.conf.maxMapCount+1 := by
  have hlock := (outcome_quiet s).mapCount.le.trans hle
  rcases mremapTask_cases rb env s addr oldLen newLen flags newAddr with
    ⟨-, hs | hs⟩ | ⟨hargs, hz, -, hs⟩
  · rw [hs]
    exact hle
  · rw [hs]
    exact hlock
  · rw [hs]
    exact mremapLocked_count ((outcome_quiet s).wf h) hlock
      (hsafe ((outcome_zero_iff s).1 hz) hargs)

theorem mapCount_brkRegion {k : VmaLinks} {q : MergeReq} :
    (brkRegion rb s k q).2.mm.mapCount ≤ s.mm.mapCount+1 := by
  have hmerge : (vmaMerge rb s k.prev q).2.mm.mapCount ≤ s.mm.mapCount := mapCount_vmaMerge
  have halloc := (outcome_quiet (vmaMerge rb s k.prev q).2).mapCount.le.trans hmerge
  unfold brkRegion
  dsimp only
  split
  next => exact Int.le_add_one hmerge
  split
  next => exact Int.le_add_one halloc
  next => exact Int.add_le_add_right halloc 1

theorem brkCharge_count {k : VmaLinks} {q : MergeReq}
    (hle : s.mm.mapCount ≤ env.conf.maxMapCount+1) :
    (brkCharge rb env s k q).2.mm.mapCount ≤ env.conf.maxMapCount+1 := by
  have hcharge : (vmEnoughMemory s ((q.end_-q.addr)/4096 : ℕ)).2.mm = s.mm := vmEnoughMemory_mm s _
  unfold brkCharge
  split
  next => exact hle
  split
  next => exact hle
  next hmax =>
    dsimp only
    rw [← hcharge] at hle hmax
    split
    next => exact hle
    next => exact mapCount_brkRegion.trans (Int.add_le_add_right (not_lt.1 hmax) 1)

/-- The range that `brk` adds is free, so `do_brk` has nothing to clear. -/
theorem doBrk_count (rb : Balance VmaId) {oldbrk newbrk : ℕ} (h : Wf s.mm L)
    (hle : s.mm.mapCount ≤ env.conf.maxMapCount+1) (ho : 4096 ∣ oldbrk) (hn : 4096 ∣ newbrk)
    (hnlt : newbrk < 2^64) (holt : oldbrk < 2^64)
    (hfree : findVmaIntersection s.mm oldbrk (wadd newbrk 4096) = none) :
    (doBrk rb env s oldbrk (wsub newbrk oldbrk)).2.mm.mapCount ≤ env.conf.maxMapCount+1 := by
  rcases doBrk_cases rb env s oldbrk (wsub newbrk oldbrk) with
    hquiet | ⟨t, hquiet, hmm, hr, htask, heq⟩
  · exact hquiet.mapCount.le.trans hle
  · have hord := ordered_core.1 h.ordered
    have hlen : oldbrk+pageAlign (wsub newbrk oldbrk) = newbrk := by
      have hsub : wsub newbrk oldbrk = if oldbrk ≤ newbrk then newbrk-oldbrk
          else 2^64+newbrk-oldbrk := by
        unfold wsub
        split <;> omega
      have hd : 4096 ∣ wsub newbrk oldbrk := by
        rw [hsub]
        split <;> omega
      rw [pageAlign_of_dvd hd (wsub_lt _ _), hsub] at htask ⊢
      unfold TASK_SIZE at htask
      split at htask <;> split <;> omega
    rw [hlen] at heq htask
    have hwadd : wadd newbrk 4096 = newbrk+4096 := wadd_eq (by unfold TASK_SIZE at htask; omega)
    -- every area above the old break starts a page above the new one
    have hlinks : findVmaLinks t.mm oldbrk newbrk ≠ none := by
      intro hnone
      rw [hmm] at hnone
      obtain ⟨x, hx, h₁, h₂⟩ := findVmaLinks_none h.rep hnone
      unfold findVmaIntersection at hfree
      split at hfree
      next y hy =>
        obtain ⟨A, B, rfl, hA, hlt⟩ := findVma_some h.rep hord hy
        have hyo := (ordered_cons.1 (ordered_append.1 hord).2.1)
        have hstart : wadd newbrk 4096 ≤ (s.mm.vma y).vmStart := by
          by_contra hnot
          rw [if_neg hnot] at hfree
          exact Option.some_ne_none y hfree
        rcases List.mem_append.1 hx with hx | hx
        · have := hA x hx
          omega
        · rcases List.mem_cons.1 hx with rfl | hx
          · omega
          · have := hyo.2.2 x hx
            have := hyo.1.lt
            omega
      next hy =>
        have := findVma_none h.rep hord hy x hx
        omega
    obtain ⟨k, hk⟩ := Option.ne_none_iff_exists'.1 hlinks
    have hclear : clearOldMaps rb env.conf oldbrk (pageAlign (wsub newbrk oldbrk)) 2 t =
        (some k, t) := by
      unfold clearOldMaps
      rw [hlen, hk]
    rw [heq, hclear]
    refine brkCharge_count ?_
    rw [hmm]
    exact hle

theorem moveBrk_count (rb : Balance VmaId) (env : MmEnv) (h : Wf s.mm L)
    (hle : s.mm.mapCount ≤ env.conf.maxMapCount+1)
    (hsafe : addr ≤ s.mm.brk →
      UnmapSafe env.conf s 0 (pageAlign addr) (wsub (pageAlign s.mm.brk) (pageAlign addr)) False) :
    (moveBrk rb env s addr).2.mm.mapCount ≤ env.conf.maxMapCount+1 := by
  rcases moveBrk_cases rb env s addr with heq | ⟨hshrink, heq⟩ | ⟨hfree, heq⟩
  · rw [heq]
    exact hle
  · rw [heq]
    exact doMunmap_within rb h hle (hsafe hshrink)
  · rw [heq]
    exact doBrk_count rb h hle (pageAlign_dvd _) (pageAlign_dvd _) (pageAlign_lt _)
      (pageAlign_lt _) hfree

theorem brk_count (rb : Balance VmaId) (env : MmEnv) (h : Wf s.mm L)
    (hle : s.mm.mapCount ≤ env.conf.maxMapCount+1)
    (hsafe : s.Succeeds 0 → BrkSafe env s.outcome.2 addr) :
    (brk rb env s addr).2.mm.mapCount ≤ env.conf.maxMapCount+1 := by
  have hlock := (outcome_quiet s).mapCount.le.trans hle
  have hw := (outcome_quiet s).wf h
  unfold brk
  dsimp only
  split
  next => exact hlock
  next hz =>
    have hsafe := hsafe ((outcome_zero_iff s).1 (not_not.1 hz))
    unfold BrkSafe at hsafe
    generalize (if env.compatBrk then s.outcome.2.mm.endData else s.outcome.2.mm.startBrk) =
      minBrk at hsafe ⊢
    split
    next => exact hlock
    next hargs =>
      have hmove := moveBrk_count rb env hw hlock (hsafe hargs)
      generalize moveBrk rb env s.outcome.2 addr = r at hmove ⊢
      split
      · exact hmove
      · exact hmove

theorem lockedMunmap_count {len : ℕ} (rb : Balance VmaId) (env : MmEnv) (h : Wf s.mm L)
    (hle : s.mm.mapCount ≤ env.conf.maxMapCount+1)
    (hsafe : s.Succeeds 0 → UnmapSafe env.conf s.outcome.2 0 addr len False) :
    (lockedMunmap rb env s addr len).2.mm.mapCount ≤ env.conf.maxMapCount+1 := by
  have hlock := (outcome_quiet s).mapCount.le.trans hle
  unfold lockedMunmap
  dsimp only
  split
  next => exact hlock
  next hz =>
    exact doMunmap_within rb ((outcome_quiet s).wf h) hlock
      (hsafe ((outcome_zero_iff s).1 (not_not.1 hz)))

theorem withArgs_count {user : UserPtr} {r : ℤ × MmSys} {k : ℤ} (hle : s.mm.mapCount ≤ k)
    (hr : user.readable = true → r.2.mm.mapCount ≤ k) : (withArgs user s r).2.mm.mapCount ≤ k := by
  unfold withArgs
  split
  next => exact hle
  next hread => exact hr (by simpa using hread)

theorem exec_count (rb : Balance VmaId) (call : MmCall) (h : Wf s.mm L)
    (hle : s.mm.mapCount ≤ env.conf.maxMapCount+1) (hsafe : call.UnmapsSafely env s) :
    (call.exec rb env s).2.mm.mapCount ≤ env.conf.maxMapCount+1 := by
  cases call with
  | remoteMmap user file addr len prot flags offset =>
    refine withArgs_count hle fun _ => ?_
    rw [returnAddr_snd]
    exact doMmapRemote_count h hle
  | remoteMunmap user addr len =>
    exact withArgs_count hle fun hu => lockedMunmap_count rb env h hle (hsafe hu)
  | remoteMremap user addr oldLen newLen flags newAddr =>
    refine withArgs_count hle fun hu => ?_
    rw [returnAddr_snd]
    exact mremapTask_count rb env h hle (hsafe hu)
  | remoteMprotect user addr len prot =>
    exact withArgs_count hle fun _ => mapCount_doMprotectPkeyTask (Int.le_add_one le_rfl) hle
  | mmap file addr len prot flags pgoff => exact mmapPgoff_count h hle
  | munmap addr len => exact lockedMunmap_count rb env.own h hle hsafe
  | mremap addr oldLen newLen flags newAddr => exact mremapTask_count rb env.own h hle hsafe
  | mprotect addr len prot pkeyOk =>
    have hconf : env.own.conf.maxMapCount ≤ env.conf.maxMapCount+1 := Int.le_add_one le_rfl
    exact mapCount_doMprotectPkeyTask hconf hle
  | brk addr => exact brk_count rb env.own h hle hsafe

/-! Runs. -/

/-- `map_count` stays within one of the limit in every run in which no `do_munmap` made above the
limit can cut at the start of its range and not at its end. -/
theorem mmRun_mapCount (rb : Balance VmaId) (s : MmSys) (L : List VmaId) (steps : List MmStep)
    (max : ℤ) (h : Wf s.mm L) (hle : s.mm.mapCount ≤ max)
    (hconf : ∀ st ∈ steps, st.env.conf.maxMapCount = max)
    (hsafe : EveryStep rb
      (fun s st => st.call.UnmapsSafely st.env { s with outcomes := st.outcomes }) s steps) :
    (mmRun rb s steps).mm.mapCount ≤ max+1 := by
  have hkeep := mmRun_keeps (I := fun s => (∃ L, Wf s.mm L) ∧ s.mm.mapCount ≤ max+1) rb ?_ steps
    ⟨⟨L, h⟩, Int.le_add_one hle⟩ (hsafe.and_forall hconf)
  · exact hkeep.2
  · rintro s st ⟨⟨L, h⟩, hle⟩ ⟨hst, rfl⟩
    obtain ⟨L', c, hk, -⟩ := after_kept rb st h
    exact ⟨⟨L', hk.wf⟩, exec_count (s := { s with outcomes := st.outcomes }) rb st.call h hle hst⟩

def hugeEnv : MmEnv :=
  { MmEnv.unlimited 2 with
    hugetlbFile := 7
    hugetlbSize := some 0x200000
    file := fun _ =>
      { hugepages := true, hugeSize := 0x200000, mmapFlags := fun flags => flags ||| VM_HUGETLB } }

def unmapToHuge (end_ : ℕ) : List MmStep :=
  [⟨hugeEnv, [], .remoteMmap {} none 0x200000 0x200000 PROT_READ
    (MAP_PRIVATE ||| MAP_ANONYMOUS ||| MAP_HUGETLB ||| MAP_FIXED) 0⟩,
    ⟨hugeEnv, [],
      .remoteMmap {} none 0x20000 0x1000 PROT_READ (MAP_PRIVATE ||| MAP_ANONYMOUS ||| MAP_FIXED) 0⟩,
    ⟨hugeEnv, [], .munmap 0x12000 (end_-0x12000)⟩]

theorem mmRun_mapCount_huge :
    (mmRun Balance.plain { mm := fourCounted } (unmapToHuge 0x200000)).mm.mapCount = 2 ∧
      (mmRun Balance.plain { mm := fourCounted } (unmapToHuge 0x200000)).mm.mapCount ≤ 2+1 := by
  refine ⟨by decide +kernel,
    mmRun_mapCount Balance.plain _ [0] _ 2 wf_fourCounted (by decide) ?_ ?_⟩
  · intro st hst
    simp only [unmapToHuge, List.mem_cons, List.not_mem_nil, or_false] at hst
    rcases hst with rfl | rfl | rfl <;> rfl
  · -- the huge page begins where the range ends
    have hend :
        let mm := (mmRun Balance.plain { mm := fourCounted } ((unmapToHuge 0x200000).take 2)).mm
        ∀ y ∈ mm.mmRb.inorder, ¬(mm.vma y).vmStart < 0x200000 ∨ (mm.vma y).vmEnd ≤ 0x200000 := by
      decide +kernel
    refine ⟨trivial, trivial, fun _ _ _ x _ y hy _ _ hcut _ => ?_, trivial⟩
    rcases hend y hy with hs | he
    · exact absurd hcut.1 hs
    · exact absurd hcut.2 (not_lt.2 he)

/-- Where the range ends inside the huge page, the four pages are cut in two and then the call
fails. -/
theorem mmRun_map_count_exceeded :
    ((fourCounted.mapCount ≤ 2 ∧ ∀ st ∈ unmapToHuge 0x201000, st.env.conf.maxMapCount = 2) ∧
      Wf fourCounted [0]) ∧
      (mmRun Balance.plain { mm := fourCounted } (unmapToHuge 0x201000)).mm.mapCount = 2+2 := by
  refine ⟨⟨⟨by decide, fun st hst => ?_⟩, wf_fourCounted⟩, by decide +kernel⟩
  simp only [unmapToHuge, List.mem_cons, List.not_mem_nil, or_false] at hst
  rcases hst with rfl | rfl | rfl <;> rfl

end PtraceRemote
