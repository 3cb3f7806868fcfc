import PtraceRemote.MmMapCount
import PtraceRemote.MmVerdict

/-! The two entries of `mmap` that take an offset in bytes, `do_mmap_remote` and `old_mmap`. They
differ in one check: `vm_mmap_remote` refuses an offset that wraps. Whether that shows depends on
what else refuses the request. -/
namespace PtraceRemote

open AugTree (Balance)

variable {mm : Mm} {s : MmSys} {rb : Balance VmaId} {env : MmEnv} {conf : MmConf}
  {L A B : List VmaId} {x y : VmaId} {start end_ addr len : ℕ} {file : Option FileId}
  {pgoff : BitVec 64} {prot mflags : Bits}

/-! Clearing a range. -/

/-- An area of huge pages is cut between two of them. -/
def Vma.CutsAt (v : Vma) (addr : ℕ) : Prop :=
  v.straddles addr → isVmHugetlbPage v = true → addr % v.hugeSize = 0

/-- `do_munmap` is not refused for the sake of the areas. A hole in an area needs a place in the
count of areas. -/
structure Clears (conf : MmConf) (mm : Mm) (L : List VmaId) (start end_ : ℕ) : Prop where
  hole : ∀ x ∈ L, (mm.vma x).straddles start → (mm.vma x).straddles end_ →
    mm.mapCount < conf.maxMapCount
  first : ∀ x ∈ L, (mm.vma x).CutsAt start
  last : ∀ x ∈ L, (mm.vma x).CutsAt end_

theorem splitVmaNoLimit_cutsAt {newBelow : Bool}
    (hz : (splitVmaNoLimit rb s x addr newBelow).1 = 0) :
    (s.mm.vma x).CutsAt addr :=
  fun _ => ((splitVmaNoLimit_cuts rb s x addr newBelow).resolve_right fun hne => hne.1 hz).2.1.1

theorem Calm.split_cutsAt (hc : Calm s) (hx : (s.mm.vma x).straddles addr)
    (hcut : (s.mm.vma x).CutsAt addr) (newBelow : Bool) :
    (splitVmaNoLimit rb s x addr newBelow).1 = 0 :=
  hc.split_aligned (fun hhuge => hhuge.2 (hcut hx hhuge.1)) newBelow

theorem splitLast_cutsAt (h : Wf s.mm L) (hx : x ∈ L) (hz : (splitLast rb s end_).1 = 0) :
    (s.mm.vma x).CutsAt end_ := by
  obtain ⟨A, B, rfl⟩ := List.append_of_mem hx
  intro hs
  rw [splitLast_inside rb h hs.1 hs.2] at hz
  exact splitVmaNoLimit_cutsAt hz hs

theorem Calm.splitLast_cutsAt (hc : Calm s) (h : Wf s.mm L)
    (hcuts : ∀ x ∈ L, (s.mm.vma x).CutsAt end_) :
    (splitLast rb s end_).1 = 0 := by
  by_contra hne
  obtain ⟨y, hf, hs, hnot⟩ := splitLast_fails hne
  obtain ⟨A, B, rfl, -, hy⟩ := findVma_some h.rep (ordered_core.1 h.ordered) hf
  exact hnot ⟨hcuts y (by simp) ⟨hs, hy⟩, hc.succeeds _, hc.succeeds _, hc.succeeds _⟩

/-- The cut at `end_` after the one at `start`: of `x` the upper part is left. -/
theorem SplitAt.cutsAt {s' : MmSys} {n : VmaId} (hsplit : SplitAt s s' A x B start false n)
    (hx : (s.mm.vma x).straddles start) (hlt : start < end_) :
    (∀ z ∈ A ++ (halves x n false ++ B), (s'.mm.core z).CutsAt end_) ↔
      ∀ z ∈ A ++ x :: B, (s.mm.core z).CutsAt end_ := by
  have hlower : ((s.mm.core x).lower start).CutsAt end_ := fun hs => absurd hs.2 (not_lt.2 hlt.le)
  have hupper : ((s.mm.core x).upper start).CutsAt end_ ↔ (s.mm.core x).CutsAt end_ :=
    imp_congr_left ⟨fun hs => ⟨hx.1.trans hlt, hs.2⟩, fun hs => ⟨hlt, hs.2⟩⟩
  have hkept : s'.mm.core x = (s.mm.core x).lower start := hsplit.kept
  have hnew : s'.mm.core n = (s.mm.core x).upper start := hsplit.new
  have hother : ∀ z, z ∈ A ∨ z ∈ B → ((s'.mm.core z).CutsAt end_ ↔ (s.mm.core z).CutsAt end_) :=
      fun z hz => by
    rw [hsplit.other z (List.mem_append.2 hz)]
  simp only [halves, Bool.false_eq_true, if_false, List.mem_append, List.mem_cons,
    List.not_mem_nil, or_false]
  constructor
  · rintro hall z (hz | rfl | hz)
    · exact (hother z (.inl hz)).1 (hall z (.inl hz))
    · exact hupper.1 (hnew ▸ hall n (.inr (.inl (.inr rfl))))
    · exact (hother z (.inr hz)).1 (hall z (.inr (.inr hz)))
  · rintro hall z (hz | (rfl | rfl) | hz)
    · exact (hother z (.inl hz)).2 (hall z (.inl hz))
    · exact hkept ▸ hlower
    · exact hnew ▸ hupper.2 (hall x (.inr (.inl rfl)))
    · exact (hother z (.inr hz)).2 (hall z (.inr (.inr hz)))

/-- What `do_munmap` has done it was not refused. -/
theorem clears_of_zero (h : Wf s.mm L) (hr : RangeOk start (start+len))
    (hz : (doMunmap rb conf s start len).1 = 0) :
    Clears conf s.mm L start (start+len) := by
  have hcases := doMunmap_cases rb conf start len h
  rw [hr.pageAlign_len] at hcases
  generalize doMunmap rb conf s start len = r at hcases hz
  have hbefore : ∀ {z a}, (s.mm.core z).vmEnd ≤ start → start ≤ a → ¬(s.mm.vma z).straddles a :=
      fun hle ha hs =>
    absurd hs.2 (not_lt.2 (hle.trans ha))
  have hbehind : ∀ {z a}, a ≤ (s.mm.core z).vmStart → ¬(s.mm.vma z).straddles a := fun hle hs =>
    absurd hs.1 (not_lt.2 hle)
  cases hcases with
  | refused he => exact absurd hz he.ne
  | @nothing A B _ hL hA hB =>
    subst hL
    have hno : ∀ z ∈ A ++ B, ∀ a, start ≤ a → a ≤ start+len → ¬(s.mm.vma z).straddles a := by
      intro z hz a ha ha'
      rcases List.mem_append.1 hz with hz | hz
      · exact hbefore (hA z hz) ha
      · exact hbehind (ha'.trans (hB z hz))
    exact ⟨fun z hz hs => absurd hs (hno z hz _ le_rfl hr.lt.le), fun z hz hs =>
      absurd hs (hno z hz _ le_rfl hr.lt.le), fun z hz hs => absurd hs (hno z hz _ hr.lt.le le_rfl)⟩
  | @first A B x _ hL hA hs hx hmax =>
    subst hL
    obtain ⟨-, -, hafter⟩ := ordered_cons.1 (ordered_append.1 h.ordered).2.1
    have honly : ∀ z ∈ A ++ x :: B, (s.mm.vma z).straddles start → z = x := by
      intro z hz hstr
      rcases List.mem_append.1 hz with hza | hzx
      · exact absurd hstr (hbefore (hA z hza) le_rfl)
      · refine (List.mem_cons.1 hzx).resolve_right fun hzb => ?_
        exact absurd hstr (hbehind (hx.le.trans (hafter z hzb)))
    unfold unmapFirst unmapLast at hz
    dsimp only at hz
    split at hz
    next hne => exact absurd hz hne
    next he =>
      split at hz
      next hne => exact absurd hz hne
      next he' =>
        obtain ⟨n, hsplit⟩ :=
          ((splitVmaNoLimit_spec rb false h hs hx hr.start_dvd).resolve_left fun hne => he hne.1).2
        refine ⟨fun z hz hstr hend => ?_, fun z hz hstr => ?_, ?_⟩
        · obtain rfl := honly z hz hstr
          exact hmax hend.2
        · obtain rfl := honly z hz hstr
          exact splitVmaNoLimit_cutsAt (not_not.1 he) hstr
        · exact (hsplit.cutsAt ⟨hs, hx⟩ hr.lt).1 fun z hz =>
            splitLast_cutsAt hsplit.wf hz (not_not.1 he')
  | @last A R _ hL hA hR =>
    subst hL
    have hno : ∀ z ∈ A ++ R, ¬(s.mm.vma z).straddles start := by
      intro z hz
      rcases List.mem_append.1 hz with hz | hz
      · exact hbefore (hA z hz) le_rfl
      · exact hbehind (hR z hz)
    unfold unmapLast at hz
    dsimp only at hz
    split at hz
    next hne => exact absurd hz hne
    next he =>
      exact ⟨fun z hz hs => absurd hs (hno z hz), fun z hz hs => absurd hs (hno z hz),
        fun z hz => splitLast_cutsAt h hz (not_not.1 he)⟩

theorem Calm.doMunmap_clears (hc : Calm s) (h : Wf s.mm L) (hr : RangeOk start (start+len))
    (ht : start+len ≤ TASK_SIZE) (hcl : Clears conf s.mm L start (start+len)) :
    (doMunmap rb conf s start len).1 = 0 := by
  have hlt := hr.lt
  have hpage : offsetInPage start = 0 := Nat.mod_eq_zero_of_dvd hr.start_dvd
  unfold doMunmap
  rw [if_neg (by omega), hr.pageAlign_len]
  dsimp only
  rw [if_neg (by omega)]
  cases hf : findVma s.mm start with
  | none => rfl
  | some x =>
    obtain ⟨A, B, rfl, hA, hx⟩ := findVma_some h.rep (ordered_core.1 h.ordered) hf
    dsimp only
    split
    next => rfl
    split
    next hs =>
      have hstr : (s.mm.vma x).straddles start := ⟨hs, hx⟩
      have hhole : ¬(start+len < (s.mm.vma x).vmEnd ∧ conf.maxMapCount ≤ s.mm.mapCount) :=
          fun hmax =>
        absurd (hcl.hole x (by simp) hstr ⟨hs.trans hlt, hmax.1⟩) (not_lt.2 hmax.2)
      have hz : (splitVmaNoLimit rb s x start false).1 = 0 :=
        hc.split_cutsAt hstr (hcl.first x (by simp)) false
      obtain ⟨n, hsplit⟩ :=
        ((splitVmaNoLimit_spec rb false h hs hx hr.start_dvd).resolve_left fun hne => hne.1 hz).2
      have hz' : (splitLast rb (splitVmaNoLimit rb s x start false).2 (start+len)).1 = 0 :=
        (hc.uses uses_splitVmaNoLimit).splitLast_cutsAt hsplit.wf
          ((hsplit.cutsAt hstr hlt).2 hcl.last)
      rw [if_neg hhole, if_neg (not_not.2 hz), if_neg (not_not.2 hz')]
    next =>
      rw [if_neg (not_not.2 (hc.splitLast_cutsAt h hcl.last))]

/-- A range that was found free or has been cleared. -/
theorem clears_of_clearOldMaps (rb : Balance VmaId) (conf : MmConf) (h : Wf s.mm L)
    (hr : RangeOk addr (addr+len)) (hz : (clearOldMaps rb conf addr len 2 s).1 ≠ none) :
    Clears conf s.mm L addr (addr+len) := by
  rw [clearOldMaps] at hz
  cases hf : findVmaLinks s.mm addr (addr+len) with
  | some k =>
    obtain ⟨A, B, rfl, -, hA, hB⟩ := findVmaLinks_some h.rep (ordered_core.1 h.ordered) hf
    have hno : ∀ z ∈ A ++ B, ∀ a, addr ≤ a → a ≤ addr+len → ¬(s.mm.vma z).straddles a := by
      intro z hz a ha ha' hs
      rcases List.mem_append.1 hz with hz | hz
      · exact absurd hs.2 (not_lt.2 ((hA z hz).trans ha))
      · exact absurd hs.1 (not_lt.2 (ha'.trans (hB z hz).2))
    exact ⟨fun z hz hs => absurd hs (hno z hz _ le_rfl hr.lt.le), fun z hz hs =>
      absurd hs (hno z hz _ le_rfl hr.lt.le), fun z hz hs => absurd hs (hno z hz _ hr.lt.le le_rfl)⟩
  | none =>
    rw [hf] at hz
    dsimp only at hz
    split at hz
    next => exact absurd rfl hz
    next he => exact clears_of_zero h hr (not_not.1 he)

theorem Calm.clears (hc : Calm s) (rb : Balance VmaId) (conf : MmConf) (h : Wf s.mm L)
    (hr : RangeOk addr (addr+len)) (ht : addr+len ≤ TASK_SIZE)
    (hcl : Clears conf s.mm L addr (addr+len)) : (clearOldMaps rb conf addr len 2 s).1 ≠ none := by
  rw [clearOldMaps]
  cases findVmaLinks s.mm addr (addr+len) with
  | some k => simp
  | none =>
    have hz : (doMunmap rb conf s addr len).1 = 0 := hc.doMunmap_clears h hr ht hcl
    obtain ⟨k, hk⟩ := Option.ne_none_iff_exists'.1 (findVmaLinks_after rb conf h hr hz)
    dsimp only
    rw [if_neg (not_not.2 hz), clearOldMaps, hk]
    simp

/-! The region. -/

theorem Calm.vmEnoughMemory (hc : Calm s) (k : ℤ) : (vmEnoughMemory s k).1 = 0 := by
  have houtcome : Calm { s with committed := s.committed+k } := hc
  unfold PtraceRemote.vmEnoughMemory
  dsimp only
  rw [if_pos houtcome.outcome]

theorem Calm.mapFileChecks (hc : Calm s) (flags : VmFlags) : (mapFileChecks s flags).1 = 0 := by
  have hdeny : (if flags.has VM_DENYWRITE then s.outcome else (0, s)).1 = 0 ∧
      Calm (if flags.has VM_DENYWRITE then s.outcome else (0, s)).2 := by
    split
    · exact ⟨hc.outcome, hc.uses (uses_outcome s)⟩
    · exact ⟨rfl, hc⟩
  unfold PtraceRemote.mapFileChecks
  dsimp only
  rw [if_neg (not_not.2 hdeny.1)]
  split
  · exact hdeny.2.outcome
  · rfl

/-- Where nothing fails the region is mapped. -/
theorem Calm.mapRegion (hc : Calm s) {k : VmaLinks} {q : MergeReq} {charged : ℤ}
    (hfile : ∀ f, q.file = some f → (env.file f).mmapErr = 0) :
    (mapRegion rb env s k q charged).1 = q.addr := by
  have hmerge : Calm (vmaMerge rb s k.prev q).2 := hc.uses uses_vmaMerge
  have halloc : Calm (allocVma (vmaMerge rb s k.prev q).2.outcome.2 q.area) :=
    hmerge.uses (uses_outcome _)
  unfold PtraceRemote.mapRegion
  dsimp only
  split
  next => rfl
  next =>
    rw [if_neg (not_not.2 hmerge.outcome)]
    cases hf : q.file with
    | none =>
      dsimp only
      unfold mapAnon
      split
      next =>
        dsimp only
        rw [if_neg (not_not.2 halloc.outcome)]
      next => rfl
    | some f =>
      dsimp only
      unfold mapFile
      dsimp only
      rw [if_neg (not_not.2 (halloc.mapFileChecks _)), if_neg (not_not.2 (hfile f hf))]

theorem Calm.chargeRegion (hc : Calm s) {k : VmaLinks} {q : MergeReq}
    (hfile : ∀ f, q.file = some f → (env.file f).mmapErr = 0) :
    (chargeRegion rb env s k q).1 = q.addr := by
  unfold PtraceRemote.chargeRegion
  dsimp only
  split
  next =>
    rw [if_neg (not_not.2 (hc.vmEnoughMemory _))]
    exact (hc.uses (uses_vmEnoughMemory s _)).mapRegion hfile
  next => exact hc.mapRegion hfile

theorem uses_clearOldMaps {fuel : ℕ} : Uses s (clearOldMaps rb conf addr len fuel s).2 := by
  induction fuel generalizing s with
  | zero => exact Uses.refl s
  | succ fuel ih =>
    unfold clearOldMaps
    split
    next => exact Uses.refl s
    dsimp only
    split
    next => exact uses_doMunmap
    next => exact uses_doMunmap.trans ih

theorem typeFlags_error {e : ℤ}
    (h : typeFlags env file prot mflags (baseFlags env mm prot mflags) addr pgoff = .error e) :
    e < 0 := by
  have hspec : TypeResult prot mflags
      ((typeFlags env file prot mflags (baseFlags env mm prot mflags) addr pgoff).map Prod.fst) :=
    typeFlags_spec (within_baseFlags env mm prot mflags) (baseFlags_write env mm prot mflags)
  rw [h] at hspec
  exact hspec.2

/-! The request. -/

/-- What the calls that may fail return: allocations and hooks in turn, and `f_op->mmap` of each
file. -/
structure Luck where
  outcomes : List (Fin 4096)
  mmapErr : FileId → Fin 4096

def MmEnv.under (env : MmEnv) (luck : Luck) : MmEnv :=
  { env with file := fun f => { env.file f with mmapErr := luck.mmapErr f } }

def MmSys.under (s : MmSys) (luck : Luck) : MmSys := { s with outcomes := luck.outcomes }

/-- The arguments and the address space with which `do_task_mmap` can map `start`. -/
structure Accepts (env : MmEnv) (mm : Mm) (L : List VmaId) (file : Option FileId) (addr len : ℕ)
    (prot flags : Bits) (pgoff : BitVec 64) (start : ℕ) : Prop where
  args : MmapArgs env.conf mm len pgoff
  area : FoundAt env mm L file (mapHint env flags addr) (pageAlign len) pgoff flags start
  limits : mmapRefusal env mm file len prot flags pgoff start = none
  type : let prot := impliedProt env file prot
    ∃ r, typeFlags env file prot flags (baseFlags env mm prot flags) start pgoff = .ok r
  clears : Clears env.conf mm L start (start+pageAlign len)

/-- All that `mmap` checks, but for the wrap of the offset. -/
structure Passes (env : MmEnv) (mm : Mm) (L : List VmaId) (file : Option FileId) (addr len : ℕ)
    (prot flags : Bits) (offset start : ℕ) : Prop where
  page : offsetInPage offset = 0
  found : FileFound env file flags
  accepts : Accepts env mm L (mmapFile env file flags) addr (mmapLen env file flags len) prot
    (keptFlags flags) (BitVec.ofNat 64 (offset/4096)) start

theorem FoundAt.rangeOk {hint : ℕ}
    (hf : FoundAt env mm L file hint (pageAlign len) pgoff mflags start)
    (hlen : pageAlign len ≠ 0) : RangeOk start (start+pageAlign len) := by
  have hdvd := pageAlign_dvd len
  have ht : TASK_SIZE < 2^64 := by decide
  have hpage := hf.page
  have hend := hf.end_le
  exact ⟨by omega, hpage, by omega, by omega⟩

section Own

variable (h : Wf s.mm L) (hT : Wf (env.cur s.mm) L) (hw : LayoutWords env.conf (env.cur s.mm))

include h hT hw

/-- A `do_task_mmap` that maps something was refused nothing. -/
theorem doTaskMmap_accepts (hpos : 0 ≤ (doTaskMmap rb env s file addr len prot mflags pgoff).1) :
    ∃ start, Accepts env s.mm L file addr len prot mflags pgoff start := by
  have hargs : MmapArgs env.conf s.mm len pgoff ∧
      (getTaskUnmappedArea env s file (mapHint env mflags addr) (pageAlign len) pgoff mflags).1 %
      4096 = 0 := by
    unfold doTaskMmap at hpos
    dsimp only at hpos
    split at hpos
    next => exact absurd hpos (show ¬0 ≤ -EINVAL by decide)
    next h₁ =>
    split at hpos
    next => exact absurd hpos (show ¬0 ≤ -ENOMEM by decide)
    next h₂ =>
    split at hpos
    next => exact absurd hpos (show ¬0 ≤ -EOVERFLOW by decide)
    next h₃ =>
    split at hpos
    next => exact absurd hpos (show ¬0 ≤ -ENOMEM by decide)
    next h₄ =>
    refine ⟨⟨h₁, h₂, h₃, not_lt.1 h₄⟩, not_not.1 fun hne => ?_⟩
    rw [if_pos hne] at hpos
    rcases (unmappedAreaOf_spec env s s.mm.topdown file (mapHint env mflags addr) (pageAlign len)
        pgoff mflags).2.2 with
      herr | hok
    · exact absurd herr.2 (not_lt.2 hpos)
    · exact hne hok.2.2.2
  obtain ⟨hargs, hpage⟩ := hargs
  obtain ⟨hsec, start, harea⟩ := foundAt_of_page hT hw (Nat.pos_of_ne_zero hargs.align_ne) hpage
  have hcall := (doTaskMmap_asked hT hw rb file addr len prot mflags pgoff).asked start
    ⟨hargs, hsec, harea⟩ env.rlim
  replace hcall : doTaskMmap rb env s file addr len prot mflags pgoff =
    (mmapRefusal env s.mm file len prot mflags pgoff start).elim _ _ := hcall
  rw [hcall] at hpos
  cases hlim : mmapRefusal env s.mm file len prot mflags pgoff start with
  | some e =>
    rw [hlim] at hpos
    rcases mapRefusal_cases hlim with rfl | rfl | rfl
    · exact absurd hpos (show ¬0 ≤ -EPERM by decide)
    · exact absurd hpos (show ¬0 ≤ -EAGAIN by decide)
    · exact absurd hpos (show ¬0 ≤ -ENOMEM by decide)
  | none =>
    rw [hlim] at hpos
    have hmm := outcome_mm s
    replace hpos : 0 ≤ (mmapGranted rb env s.outcome.2 file len prot mflags pgoff start).1 := hpos
    unfold mmapGranted mapGranted at hpos
    rw [hmm] at hpos
    cases htype : typeFlags env file (impliedProt env file prot) mflags
        (baseFlags env s.mm (impliedProt env file prot) mflags) start pgoff with
    | error e =>
      rw [htype] at hpos
      exact absurd (typeFlags_error htype) (not_lt.2 hpos)
    | ok r =>
      rw [htype] at hpos
      dsimp only at hpos
      refine ⟨start, hargs, harea, hlim, ⟨r, htype⟩, ?_⟩
      have hwf : Wf s.outcome.2.mm L := by rwa [hmm]
      have hclear :=
          clears_of_clearOldMaps rb env.conf hwf (harea.rangeOk hargs.align_ne) fun hnone => by
        rw [hnone] at hpos
        exact absurd hpos (show ¬0 ≤ -ENOMEM by decide)
      rwa [hmm] at hclear

/-- Where nothing fails, what is not refused is mapped. -/
theorem Calm.doTaskMmap (hc : Calm s)
    (ha : Accepts env s.mm L file addr len prot mflags pgoff start)
    (hfile : ∀ f, file = some f → (env.file f).mmapErr = 0) :
    0 ≤ (doTaskMmap rb env s file addr len prot mflags pgoff).1 := by
  have hmm := outcome_mm s
  have hcall := (doTaskMmap_asked hT hw rb file addr len prot mflags pgoff).asked start
    ⟨ha.args, hc.outcome, ha.area⟩ env.rlim
  replace hcall : PtraceRemote.doTaskMmap rb env s file addr len prot mflags pgoff =
    (mmapRefusal env s.mm file len prot mflags pgoff start).elim _ _ := hcall
  rw [hcall, ha.limits]
  show 0 ≤ (mmapGranted rb env s.outcome.2 file len prot mflags pgoff start).1
  unfold mmapGranted mapGranted
  obtain ⟨r, htype⟩ := ha.type
  have hcalm : Calm s.outcome.2 := hc.uses (uses_outcome s)
  have hclear := hcalm.clears rb env.conf (by rwa [hmm]) (ha.area.rangeOk ha.args.align_ne)
    ha.area.end_le (by rw [hmm]; exact ha.clears)
  obtain ⟨k, hk⟩ := Option.ne_none_iff_exists'.1 hclear
  rw [hmm, htype]
  dsimp only
  rw [hk]
  dsimp only
  rw [(hcalm.uses uses_clearOldMaps).chargeRegion hfile]
  exact Int.natCast_nonneg _

theorem oldMmap_passes {flags : Bits} {offset : ℕ}
    (hpos : 0 ≤ (oldMmap rb env s file addr len prot flags offset).1) :
    ∃ start, Passes env s.mm L file addr len prot flags offset start := by
  unfold oldMmap at hpos
  split at hpos
  next => exact absurd hpos (show ¬0 ≤ -EINVAL by decide)
  next hpage =>
    by_cases hopen :
      FileFound env file flags ∧ (flags.has MAP_ANONYMOUS = true → flags.has MAP_HUGETLB = true →
        s.outcome.1 = 0)
    · unfold mmapPgoff vmMmapPgoff at hpos
      rw [withMmapFile_opened hopen.1 hopen.2] at hpos
      dsimp only at hpos
      split at hpos
      next hne => exact absurd (outcome_isErr hne).2 (not_lt.2 hpos)
      split at hpos
      next => exact absurd hpos (show ¬0 ≤ -EINTR by decide)
      next =>
        set t := (mmapOpened env s file flags).outcome.2.outcome.2 with ht
        have hmm : t.mm = s.mm := by rw [ht, outcome_mm, outcome_mm, mmapOpened_mm]
        obtain ⟨start, hstart⟩ :=
          doTaskMmap_accepts (s := t) (by rwa [hmm]) (by rwa [hmm]) (by rwa [hmm]) hpos
        rw [hmm] at hstart
        exact ⟨start, not_not.1 hpage, hopen.1, hstart⟩
    · obtain ⟨r, hneg, hr⟩ := withMmapFile_refused len hopen
      unfold mmapPgoff at hpos
      rw [hr] at hpos
      exact absurd hneg (not_lt.2 hpos)

theorem Calm.oldMmap (hc : Calm s) {flags : Bits} {offset : ℕ}
    (hp : Passes env s.mm L file addr len prot flags offset start)
    (hfile : ∀ f, (env.file f).mmapErr = 0) :
    0 ≤ (oldMmap rb env s file addr len prot flags offset).1 := by
  have hopened : Calm (mmapOpened env s file flags) := by
    unfold mmapOpened Calm
    rw [outcomes_getFile]
    split
    · exact hc.uses (uses_outcome s)
    · exact hc
  set t := (mmapOpened env s file flags).outcome.2.outcome.2 with ht
  have hmm : t.mm = s.mm := by rw [ht, outcome_mm, outcome_mm, mmapOpened_mm]
  have hcalm : Calm t := (hopened.uses (uses_outcome _)).uses (uses_outcome _)
  unfold PtraceRemote.oldMmap mmapPgoff vmMmapPgoff
  rw [if_neg (not_not.2 hp.page), withMmapFile_opened hp.found fun _ _ => hc.outcome]
  dsimp only
  rw [if_neg (not_not.2 hopened.outcome),
    if_neg (not_not.2 (hopened.uses (uses_outcome _)).outcome)]
  exact hcalm.doTaskMmap (by rwa [hmm]) (by rwa [hmm]) (by rwa [hmm])
    (by rw [hmm]; exact hp.accepts) fun f _ => hfile f

end Own

/-! The two entries. -/

/-- Both succeed, with one result, or both fail. -/
def SameMmap (r r' : ℤ × MmSys) : Prop := (0 ≤ r.1 ↔ 0 ≤ r'.1) ∧ (0 ≤ r.1 → r = r')

theorem sameMmap_of_neg {r r' : ℤ × MmSys} (h : r.1 < 0) (h' : r'.1 < 0) : SameMmap r r' :=
  ⟨iff_of_false (not_le.2 h) (not_le.2 h'), fun hpos => absurd h (not_lt.2 hpos)⟩

/-- Away from the wrap the entries are one function, up to the order of their refusals. -/
theorem sameMmap_of_offsetOk {flags : Bits} {offset : ℕ}
    (hoff : OffsetOk env file len flags offset) :
    SameMmap (doMmapRemote rb env s file addr len prot flags offset)
      (oldMmap rb env s file addr len prot flags offset) := by
  have hwrap : ¬wadd offset (pageAlign (mmapLen env file flags len)) < offset := not_lt.2 hoff
  by_cases hopen :
    FileFound env file flags ∧ (flags.has MAP_ANONYMOUS = true → flags.has MAP_HUGETLB = true →
      s.outcome.1 = 0)
  · unfold doMmapRemote oldMmap mmapPgoff vmMmapRemote
    rw [withMmapFile_opened hopen.1 hopen.2, withMmapFile_opened hopen.1 hopen.2, if_neg hwrap]
    split
    next => exact sameMmap_of_neg (show -EINVAL < 0 by decide) (show -EINVAL < 0 by decide)
    next => exact ⟨Iff.rfl, fun _ => rfl⟩
  · obtain ⟨r, hneg, hr⟩ := withMmapFile_refused len hopen
    unfold doMmapRemote oldMmap mmapPgoff
    rw [hr, hr]
    refine sameMmap_of_neg hneg ?_
    split
    next => exact show -EINVAL < 0 by decide
    next => exact hneg

theorem doMmapRemote_neg {flags : Bits} {offset : ℕ} (hoff : ¬OffsetOk env file len flags offset) :
    (doMmapRemote rb env s file addr len prot flags offset).1 < 0 := by
  have hwrap : wadd offset (pageAlign (mmapLen env file flags len)) < offset := not_le.1 hoff
  by_cases hopen :
    FileFound env file flags ∧ (flags.has MAP_ANONYMOUS = true → flags.has MAP_HUGETLB = true →
      s.outcome.1 = 0)
  · unfold doMmapRemote vmMmapRemote
    rw [withMmapFile_opened hopen.1 hopen.2, if_pos hwrap]
    exact show -EINVAL < 0 by decide
  · obtain ⟨r, hneg, hr⟩ := withMmapFile_refused len hopen
    unfold doMmapRemote
    rwa [hr]

/-- What the calls return is not looked at before they are made. -/
theorem picks_under (luck : Luck) {topdown : Bool} {hint : ℕ} :
    Picks (env.under luck) mm L topdown hint len pgoff mflags file start ↔
      Picks env mm L topdown hint len pgoff mflags file start := by
  constructor
  · rintro (⟨hown, ha⟩ | ⟨hshared, ha⟩ | ⟨hown, hfixed, hlen⟩ | ⟨hown, hfixed, ha⟩)
    · exact .file hown ha
    · exact .shmem hshared ha
    · exact .fixed hown hfixed hlen
    · exact .chosen hown hfixed ha
  · rintro (⟨hown, ha⟩ | ⟨hshared, ha⟩ | ⟨hown, hfixed, hlen⟩ | ⟨hown, hfixed, ha⟩)
    · exact .file hown ha
    · exact .shmem hshared ha
    · exact .fixed hown hfixed hlen
    · exact .chosen hown hfixed ha

theorem passes_under (luck : Luck) {flags : Bits} {offset : ℕ} :
    Passes (env.under luck) mm L file addr len prot flags offset start ↔
      Passes env mm L file addr len prot flags offset start := by
  constructor
  · rintro ⟨hpage, ⟨hopened, hsized⟩, ⟨hargs, ⟨hpicked, hdvd, hend⟩, hlim, htype, hclears⟩⟩
    exact ⟨hpage, ⟨hopened, hsized⟩, hargs, ⟨(picks_under luck).1 hpicked, hdvd, hend⟩, hlim,
      htype, hclears⟩
  · rintro ⟨hpage, ⟨hopened, hsized⟩, ⟨hargs, ⟨hpicked, hdvd, hend⟩, hlim, htype, hclears⟩⟩
    exact ⟨hpage, ⟨hopened, hsized⟩, hargs, ⟨(picks_under luck).2 hpicked, hdvd, hend⟩, hlim,
      htype, hclears⟩

/-- Whatever the calls inside return, the two entries agree if and only if the offset does not wrap,
or the request is one that `mmap` refuses in any case. -/
theorem doMmapRemote_oldMmap (rb : Balance VmaId) (env : MmEnv) (s : MmSys) (L : List VmaId)
    (h : Wf s.mm L) (hw : LayoutWords env.conf s.mm) (file : Option FileId) (addr len : ℕ)
    (prot flags : Bits) (offset : ℕ) :
    (∀ luck,
      SameMmap (doMmapRemote rb (env.own.under luck) (s.under luck) file addr len prot flags offset)
      (oldMmap rb (env.own.under luck) (s.under luck) file addr len prot flags offset)) ↔
    OffsetOk env file len flags offset ∨ ∀ start,
      ¬Passes env.own s.mm L file addr len prot flags offset start := by
  constructor
  · intro hall
    by_contra hno
    rw [not_or, not_forall] at hno
    obtain ⟨hoff, start, hp⟩ := hno
    let luck : Luck := ⟨[], fun _ => 0⟩
    have hcalm : Calm (s.under luck) := fun e he => absurd he (List.not_mem_nil)
    have hwf : Wf (s.under luck).mm L := h
    have hT : Wf ((env.own.under luck).cur (s.under luck).mm) L := h
    have hpass : Passes (env.own.under luck) (s.under luck).mm L file addr len prot flags
        offset start :=
      (passes_under luck).2 (not_not.1 hp)
    have hpos :
        0 ≤ (oldMmap rb (env.own.under luck) (s.under luck) file addr len prot flags offset).1 :=
      Calm.oldMmap hwf hT hw hcalm hpass fun _ => rfl
    have hneg : (doMmapRemote rb (env.own.under luck) (s.under luck) file addr len prot flags
        offset).1 < 0 :=
      doMmapRemote_neg hoff
    exact absurd ((hall luck).1.2 hpos) (not_le.2 hneg)
  · rintro (hoff | hno) luck
    · exact sameMmap_of_offsetOk hoff
    · by_cases hoff : OffsetOk env file len flags offset
      · exact sameMmap_of_offsetOk hoff
      · refine sameMmap_of_neg (doMmapRemote_neg hoff) (not_le.1 fun hpos => ?_)
        have hwf : Wf (s.under luck).mm L := h
        have hT : Wf ((env.own.under luck).cur (s.under luck).mm) L := h
        obtain ⟨start, hp⟩ := oldMmap_passes hwf hT hw hpos
        exact hno start ((passes_under luck).1 hp)

/-- Two pages at offset 0, and at the last aligned offset two pages of a file that is not there. -/
theorem doMmapRemote_oldMmap_zero :
    let env := MmEnv.unlimited 8
    let s : MmSys := { mm := emptyMm }
    let same (flags : Bits) (offset : ℕ) := ∀ luck,
      SameMmap
        (doMmapRemote Balance.plain (env.own.under luck) (s.under luck) none 0 8192 0 flags offset)
        (oldMmap Balance.plain (env.own.under luck) (s.under luck) none 0 8192 0 flags offset)
    same (MAP_PRIVATE ||| MAP_ANONYMOUS) 0 ∧ same MAP_PRIVATE (2^64-4096) := by
  intro env s same
  have hw : LayoutWords env.conf s.mm := ⟨by decide, by decide, by decide⟩
  have hiff (flags : Bits) (offset : ℕ) :=
    doMmapRemote_oldMmap Balance.plain env s [] wf_emptyMm hw none 0 8192 0 flags offset
  refine ⟨(hiff _ _).2 (.inl (by decide)), (hiff _ _).2 (.inr fun start hp => ?_)⟩
  obtain ⟨f, hf, -⟩ := hp.found.opened (by decide)
  exact absurd hf (by simp)

/-- Two anonymous pages at the last aligned offset, which an anonymous mapping does not use. -/
theorem doMmapRemote_oldMmap_wrap :
    let s : MmSys := { mm := {} }
    let flags := MAP_PRIVATE ||| MAP_ANONYMOUS
    (doMmapRemote Balance.plain (MmEnv.unlimited 8).own s none 0 8192 0 flags (2^64-4096)).1 =
      -EINVAL ∧
      0 ≤ (oldMmap Balance.plain (MmEnv.unlimited 8).own s none 0 8192 0 flags (2^64-4096)).1 := by
  decide +kernel

end PtraceRemote
