import PtraceRemote.MmDataLimit
import PtraceRemote.MmGrowth
import PtraceRemote.MmRequest
import PtraceRemote.Verdict

/-! The limits that a request meets are those of `current`, the tracer. What they can do to `mmap`
and `mremap`: one of the checks refuses the request, or it goes on as it would without limits. -/
namespace PtraceRemote

open AugTree (Balance)
open Verdict

def MmEnv.withRlim (env : MmEnv) (lim : Rlimits) : MmEnv := { env with rlim := lim }

variable {mm : Mm} {s s' : MmSys} {rb : Balance VmaId} {env : MmEnv} {conf : MmConf}
  {L L' : List VmaId} {x : VmaId} {start end_ addr len oldLen newLen new : ℕ} {flags a b : VmFlags}
  {file : Option FileId} {pgoff : BitVec 64} {prot mflags : Bits}

/-! Mapping. -/

def mapRefusal (env : MmEnv) (mm : Mm) (file : Option FileId) (addr len : ℕ) (prot flags : Bits)
    (pgoff : BitVec 64) :
    Option ℤ :=
  let vmFlags := baseFlags env mm prot flags
  if flags.has MAP_LOCKED ∧ canDoMlock env = false then some (-EPERM)
  else if mlockFutureCheck env mm vmFlags len ≠ 0 then some (-EAGAIN)
  else match typeFlags env file prot flags vmFlags addr pgoff with
  | .error _ => none
  | .ok (vmFlags, _) =>
    if regionFits env mm addr len (reserveFlags env file flags vmFlags) = false then
      some (-ENOMEM) else none

def mapGranted (rb : Balance VmaId) (env : MmEnv) (s : MmSys) (file : Option FileId) (addr len : ℕ)
    (prot flags : Bits) (pgoff : BitVec 64) : ℤ × MmSys :=
  match typeFlags env file prot flags (baseFlags env s.mm prot flags) addr pgoff with
  | .error e => (e, s)
  | .ok (vmFlags, pgoff) =>
    let clear := clearOldMaps rb env.conf addr len 2 s
    match clear.1 with
    | none => (-ENOMEM, clear.2)
    | some k =>
      chargeRegion rb env clear.2 k ⟨addr, addr+len, reserveFlags env file flags vmFlags, none,
        file, pgoff, 0, 0⟩

theorem mapAt_eq (rb : Balance VmaId) (env : MmEnv) (s : MmSys) (file : Option FileId)
    (addr len : ℕ) (prot flags : Bits) (pgoff : BitVec 64) :
    mapAt rb env s file addr len prot flags pgoff =
      (mapRefusal env s.mm file addr len prot flags pgoff).elim
        (mapGranted rb env s file addr len prot flags pgoff) fun e => (e, s) := by
  unfold mapAt mapRefusal mapGranted
  dsimp only
  split
  next => rfl
  split
  next => rfl
  cases htype : typeFlags env file prot flags (baseFlags env s.mm prot flags) addr pgoff with
  | error e => rfl
  | ok p =>
    dsimp only
    unfold mmapTaskRegion
    split
    next => rfl
    next => rfl

theorem mapRefusal_cases {e : ℤ} (h : mapRefusal env mm file addr len prot mflags pgoff = some e) :
    e = -EPERM ∨ e = -EAGAIN ∨ e = -ENOMEM := by
  unfold mapRefusal at h
  dsimp only at h
  split at h
  next => exact .inl (Option.some.inj h).symm
  split at h
  next => exact .inr (.inl (Option.some.inj h).symm)
  split at h
  next => exact absurd h (by simp)
  split at h
  next => exact .inr (.inr (Option.some.inj h).symm)
  next => exact absurd h (by simp)

/-- The arguments that `do_task_mmap` does not refuse. -/
structure MmapArgs (conf : MmConf) (mm : Mm) (len : ℕ) (pgoff : BitVec 64) : Prop where
  len_ne : len ≠ 0
  align_ne : pageAlign len ≠ 0
  pgoff_le : ¬pgoff+BitVec.ofNat 64 (pageAlign len/4096) < pgoff
  count_le : mm.mapCount ≤ conf.maxMapCount

def MmapAsks (env : MmEnv) (s : MmSys) (LT : List VmaId) (file : Option FileId) (addr len : ℕ)
    (flags : Bits) (pgoff : BitVec 64) (start : ℕ) : Prop :=
  MmapArgs env.conf s.mm len pgoff ∧ s.outcome.1 = 0 ∧
    FoundAt env s.mm LT file (mapHint env flags addr) (pageAlign len) pgoff flags start

def mmapRefusal (env : MmEnv) (mm : Mm) (file : Option FileId) (len : ℕ) (prot flags : Bits)
    (pgoff : BitVec 64) (start : ℕ) : Option ℤ :=
  mapRefusal env mm file start (pageAlign len) (impliedProt env file prot) flags pgoff

def mmapGranted (rb : Balance VmaId) (env : MmEnv) (s : MmSys) (file : Option FileId) (len : ℕ)
    (prot flags : Bits) (pgoff : BitVec 64) (start : ℕ) : ℤ × MmSys :=
  mapGranted rb env s file start (pageAlign len) (impliedProt env file prot) flags pgoff

section Caller

variable {LT : List VmaId} (hT : Wf (env.cur s.mm) LT) (hw : LayoutWords env.conf (env.cur s.mm))

include hT hw

theorem doTaskMmap_asked (rb : Balance VmaId) (file : Option FileId) (addr len : ℕ)
    (prot flags : Bits) (pgoff : BitVec 64) :
    Asked (MmapAsks env s LT file addr len flags pgoff)
      (fun lim => doTaskMmap rb (env.withRlim lim) s file addr len prot flags pgoff)
      (fun lim => mmapRefusal (env.withRlim lim) s.mm file len prot flags pgoff)
      (mmapGranted rb env s.outcome.2 file len prot flags pgoff) fun _ e => (e, s.outcome.2) := by
  have hargs : ∀ start, MmapAsks env s LT file addr len flags pgoff start ↔
    ¬len = 0 ∧ ¬pageAlign len = 0 ∧
      ¬pgoff+BitVec.ofNat 64 (pageAlign len/4096) < pgoff ∧ ¬env.conf.maxMapCount < s.mm.mapCount ∧
      s.outcome.1 = 0 ∧
          FoundAt env s.mm LT file (mapHint env flags addr) (pageAlign len) pgoff flags start := by
    intro start
    constructor
    · rintro ⟨⟨h₁, h₂, h₃, h₄⟩, hsec, hfound⟩
      exact ⟨h₁, h₂, h₃, not_lt.2 h₄, hsec, hfound⟩
    · rintro ⟨h₁, h₂, h₃, h₄, hsec, hfound⟩
      exact ⟨⟨h₁, h₂, h₃, not_lt.1 h₄⟩, hsec, hfound⟩
  refine Asked.congr ?_ hargs
  unfold doTaskMmap
  refine Asked.check (r := (-EINVAL, s)) fun _ => ?_
  refine Asked.check (r := (-ENOMEM, s)) fun hlen => ?_
  refine Asked.check (r := (-EOVERFLOW, s)) fun _ => ?_
  refine Asked.check (c := env.conf.maxMapCount < s.mm.mapCount) (r := (-ENOMEM, s)) fun _ => ?_
  have hpos : 0 < pageAlign len := Nat.pos_of_ne_zero hlen
  let area := getTaskUnmappedArea env s file (mapHint env flags addr) (pageAlign len) pgoff flags
  constructor
  · intro hno lim lim'
    have hoff : area.1 % 4096 ≠ 0 := fun hzero =>
      have ⟨hsec, start, hfound⟩ := foundAt_of_page hT hw hpos hzero
      hno start ⟨hsec, hfound⟩
    exact (if_pos hoff).trans (if_pos hoff).symm
  · rintro start ⟨hsec, hfound⟩ lim
    have harea : area = (↑start, s.outcome.2) := hfound.area hT hw hpos hsec
    have hpage : ¬(start : ℤ) % 4096 ≠ 0 := by
      have := hfound.page
      omega
    show (if area.1 % 4096 ≠ 0 then area else
      mapAt rb (env.withRlim lim) area.2 file area.1.toNat (pageAlign len)
        (impliedProt env file prot) flags pgoff) = _
    rw [harea, if_neg hpage, mapAt_eq, outcome_mm, Int.toNat_natCast]
    rfl

end Caller

/-- The file that is mapped can be had. -/
structure FileFound (env : MmEnv) (file : Option FileId) (flags : Bits) : Prop where
  opened : flags.has MAP_ANONYMOUS = false → ∃ f, file = some f ∧
    ¬(flags.has MAP_HUGETLB = true ∧ (env.file f).hugepages = false)
  sized : flags.has MAP_ANONYMOUS = true → flags.has MAP_HUGETLB = true → env.hugetlbSize ≠ none

def mmapOpened (env : MmEnv) (s : MmSys) (file : Option FileId) (flags : Bits) : MmSys :=
  (if flags.has MAP_ANONYMOUS = true ∧ flags.has MAP_HUGETLB = true then s.outcome.2 else s).getFile
    (mmapFile env file flags)

theorem mmapOpened_mm : (mmapOpened env s file mflags).mm = s.mm := by
  rw [mmapOpened, getFile_mm]
  split
  · exact outcome_mm s
  · rfl

/-- A file that cannot be had, or whose setup fails, is an error whatever was to be called. -/
theorem withMmapFile_refused (len : ℕ)
    (hno : ¬(FileFound env file mflags ∧
      (mflags.has MAP_ANONYMOUS = true → mflags.has MAP_HUGETLB = true → s.outcome.1 = 0))) :
    ∃ r : ℤ × MmSys, r.1 < 0 ∧ ∀ map, withMmapFile env s file len mflags map = r := by
  unfold withMmapFile
  by_cases hanon : mflags.has MAP_ANONYMOUS = false
  · have hyes : ¬mflags.has MAP_ANONYMOUS = true := by simp [hanon]
    simp only [if_pos hanon]
    cases file with
    | none => exact ⟨_, show -EBADF < 0 by decide, fun _ => rfl⟩
    | some f =>
      by_cases hhuge : mflags.has MAP_HUGETLB = true ∧ (env.file f).hugepages = false
      · simp only [if_pos hhuge]
        exact ⟨_, show -EINVAL < 0 by decide, fun _ => rfl⟩
      · exact absurd ⟨⟨fun _ => ⟨f, rfl, hhuge⟩, fun hc => absurd hc hyes⟩,
          fun hc => absurd hc hyes⟩ hno
  · simp only [if_neg hanon]
    by_cases hhuge : mflags.has MAP_HUGETLB = true
    · simp only [if_pos hhuge]
      cases hsize : env.hugetlbSize with
      | none => exact ⟨_, show -EINVAL < 0 by decide, fun _ => rfl⟩
      | some size =>
        by_cases hsetup : s.outcome.1 = 0
        · exact absurd ⟨⟨fun hc => absurd hc hanon, fun _ _ => by simp [hsize]⟩, fun _ _ => hsetup⟩
            hno
        · simp only [if_pos hsetup]
          exact ⟨_, (outcome_isErr hsetup).2, fun _ => rfl⟩
    · exact absurd ⟨⟨fun hc => absurd hc hanon, fun _ hc => absurd hc hhuge⟩,
        fun _ hc => absurd hc hhuge⟩ hno

/-- Otherwise the call is made with the file, the length and the flags that `withMmapFile`
chooses. -/
theorem withMmapFile_opened (hf : FileFound env file mflags)
    (hsetup : mflags.has MAP_ANONYMOUS = true → mflags.has MAP_HUGETLB = true → s.outcome.1 = 0)
    (map : MmSys → Option FileId → ℕ → Bits → ℤ × MmSys) :
    let r := map (mmapOpened env s file mflags) (mmapFile env file mflags)
      (mmapLen env file mflags len) (keptFlags mflags)
    withMmapFile env s file len mflags map = (r.1, r.2.fput (mmapFile env file mflags)) := by
  unfold withMmapFile mmapOpened mmapFile mmapLen keptFlags
  by_cases hanon : mflags.has MAP_ANONYMOUS = false
  · have hno : ¬mflags.has MAP_ANONYMOUS = true := by simp [hanon]
    obtain ⟨f, rfl, hok⟩ := hf.opened hanon
    simp only [if_pos hanon, if_neg (fun hc => hno hc.1 : ¬(mflags.has MAP_ANONYMOUS = true ∧ _)),
      if_neg hok, Option.any_some, Option.elim_some]
  · have hyes : mflags.has MAP_ANONYMOUS = true := by simpa using hanon
    simp only [if_neg hanon]
    by_cases hhuge : mflags.has MAP_HUGETLB = true
    · obtain ⟨size, hsize⟩ := Option.ne_none_iff_exists'.1 (hf.sized hyes hhuge)
      simp only [hyes, hhuge, and_self, if_true, hsize, Option.getD_some,
        if_neg (not_not.2 (hsetup hyes hhuge))]
    · simp only [if_neg hhuge,
        if_neg (fun hc => hhuge hc.2 : ¬(mflags.has MAP_ANONYMOUS = true ∧ _))]
      rfl

def resizeRefusal (env : MmEnv) (mm : Mm) (flags : VmFlags) (oldLen newLen : ℕ) : Option ℤ :=
  if newLen = oldLen then none
  else if flags.has VM_LOCKED ∧
    env.rlim.memlock < mm.lockedVm <<< 12+BitVec.ofNat 64 (newLen-oldLen) ∧
      env.capIpcLock = false then some (-EAGAIN)
  else if mayExpandVm env mm flags (BitVec.ofNat 64 ((newLen-oldLen)/4096)) = false then
    some (-ENOMEM)
  else none

/-- The area at `addr` can grow, but for the limits. -/
structure ResizeAsks (mm : Mm) (addr oldLen newLen : ℕ) (x : VmaId) : Prop where
  found : findVma mm addr = some x
  start_le : (mm.vma x).vmStart ≤ addr
  small : isVmHugetlbPage (mm.vma x) = false
  spans : oldLen ≤ (mm.vma x).vmEnd-addr
  grows : newLen ≠ oldLen
  pgoff_le : ¬(mm.vma x).pgoffAt addr+BitVec.ofNat 64 (newLen/4096) < (mm.vma x).pgoffAt addr
  expands : (mm.vma x).vmFlags.has (VM_DONTEXPAND ||| VM_PFNMAP) = false

def Mm.without (mm : Mm) (start end_ : ℕ) : Mm :=
  { mm with
    totalVm := mm.totalVm-BitVec.ofNat 64 (mm.pagesIn anyFlags start end_).card
    dataVm := mm.dataVm-BitVec.ofNat 64 (mm.pagesIn isDataMapping start end_).card
    lockedVm := if mm.lockedVm = 0 then 0
      else mm.lockedVm-BitVec.ofNat 64 (mm.pagesIn (·.has VM_LOCKED) start end_).card }

/-- The limits are compared with three counters. -/
theorem resizeRefusal_counters {mm' : Mm} (htotal : mm'.totalVm = mm.totalVm)
    (hdata : mm'.dataVm = mm.dataVm) (hlock : mm'.lockedVm = mm.lockedVm)
    (hclean : cleanFlags a = cleanFlags b) :
    resizeRefusal env mm' a oldLen newLen = resizeRefusal env mm b oldLen newLen := by
  have hlocked : a.has VM_LOCKED = b.has VM_LOCKED := by
    rw [← has_cleanFlags (by decide), hclean, has_cleanFlags (by decide)]
  have hclass : isDataMapping a = isDataMapping b := by
    rw [← isDataMapping_clean, hclean, isDataMapping_clean]
  unfold resizeRefusal mayExpandVm
  rw [htotal, hdata, hlock, hlocked, hclass]

/-- What `do_munmap` leaves of the counters. -/
theorem Does.counters_without (h : Wf s.mm L) (hr : RangeOk start end_)
    (h0 : s.mm.lockedVm = 0 → s'.mm.lockedVm = 0)
    (hd : Does (LockGuard s (PtraceRemote.pages s.mm.core L)) s L s' L'
      (outside start end_ (PtraceRemote.pages s.mm.core L)) 0) :
    s'.mm.totalVm = (s.mm.without start end_).totalVm ∧
      s'.mm.dataVm = (s.mm.without start end_).dataVm ∧
      s'.mm.lockedVm = (s.mm.without start end_).lockedVm := by
  obtain ⟨d, hkept, hzero⟩ := hd.kept
  rw [acctVec_zero, add_zero, ledger, ledger] at hkept
  -- a counter goes down by what its class loses
  have hclass : ∀ {P : VmFlags → Bool} (c c' : BitVec 64),
    (∀ flags, P (cleanFlags flags) = P flags) →
      c'-BitVec.ofNat 64 (pagesOf P (PtraceRemote.pages s'.mm.core L')) =
        c-BitVec.ofNat 64 (pagesOf P (PtraceRemote.pages s.mm.core L)) →
      c' = c-BitVec.ofNat 64 (s.mm.pagesIn P start end_).card := by
    intro P c c' hP heq
    have hcard := card_outside hP h hd.wf hr hd.pages
    rw [card_pagesAll hP h, card_pagesAll hP hd.wf] at hcard
    rw [← hcard, BitVec.ofNat_add, sub_eq_iff_eq_add] at heq
    rw [heq]
    ring
  have htotal := congrArg (fun l : Ledger => l.1) hkept
  have hdata := congrArg (fun l : Ledger => l.2.2.2.1) hkept
  have hlocked := congrArg (fun l : Ledger => l.2.2.2.2.1) hkept
  simp only [counters, charge, references, lockVec, Prod.fst_sub, Prod.snd_sub, Prod.fst_add,
    Prod.snd_add, sub_zero, add_zero] at htotal hdata hlocked
  refine ⟨hclass _ _ anyFlags_clean htotal, hclass _ _ isDataMapping_clean hdata, ?_⟩
  by_cases hnone : s.mm.lockedVm = 0
  · exact (h0 hnone).trans (if_pos hnone).symm
  · rw [hzero fun heq => absurd heq hnone, add_zero] at hlocked
    exact (hclass _ _ (fun _ => has_cleanFlags (by decide)) hlocked).trans (if_neg hnone).symm

def mremapRefusal (env : MmEnv) (mm : Mm) (addr oldLen newLen : ℕ) (flags : Bits) (newAddr : ℕ) :
    Option ℤ :=
  if newLen ≤ oldLen then none
  else match findVma mm addr with
  | none => none
  | some x =>
    resizeRefusal env (if flags.has MREMAP_FIXED then mm.without newAddr (newAddr+newLen) else mm)
      (mm.vma x).vmFlags oldLen newLen

/-- The area that is found when room has been made is what it was. -/
theorem resizeRefusal_cleared (h : Wf s.mm L) (ha : 4096 ∣ addr) (hr : RangeOk new (new+newLen))
    (hlt : oldLen < newLen) (hfixed : mflags.has MREMAP_FIXED = true)
    (hz : (doMunmap rb conf s new newLen).1 = 0)
    (hx : ResizeAsks (doMunmap rb conf s new newLen).2.mm addr oldLen newLen x) :
    resizeRefusal env (doMunmap rb conf s new newLen).2.mm
      ((doMunmap rb conf s new newLen).2.mm.vma x).vmFlags
      oldLen newLen = mremapRefusal env s.mm addr oldLen newLen mflags new := by
  obtain ⟨L', hdoes⟩ := ((doMunmap_spec rb conf new newLen h).resolve_left fun hn => hn.1 hz).2
  rw [hr.pageAlign_len] at hdoes
  obtain ⟨A, B, rfl, -, he⟩ := findVma_some hdoes.wf.rep (ordered_core.1 hdoes.wf.ordered) hx.found
  obtain ⟨y, hy, hys, hye, hclean⟩ :=
    doMunmap_before rb conf h hdoes.wf hz ha (y := x) (by simp) hx.start_le he
  obtain ⟨A', B', rfl⟩ := List.append_of_mem hy
  obtain ⟨htotal, hdata, hlock⟩ :=
    hdoes.counters_without h hr fun h0 => doMunmap_unlocked rb conf h h0 hz
  rw [mremapRefusal, if_neg (not_le.2 hlt), findVma_at h hys hye]
  dsimp only
  rw [if_pos hfixed]
  exact resizeRefusal_counters htotal hdata hlock hclean.symm

/-- The state in which the area is looked at: with `MREMAP_FIXED` the range it is to go to has been
unmapped. -/
def mremapRoom (rb : Balance VmaId) (env : MmEnv) (s : MmSys) (newLen : ℕ) (flags : Bits)
    (newAddr : ℕ) : ℤ × MmSys :=
  if flags.has MREMAP_FIXED then doMunmap rb env.conf s newAddr newLen else (0, s)

/-- The new place that `mremap_to` does not refuse. -/
structure NewPlace (addr oldLen newLen newAddr : ℕ) : Prop where
  page : offsetInPage newAddr = 0
  fits : ¬(TASK_SIZE < newLen ∨ TASK_SIZE-newLen < newAddr)
  apart : ¬(newAddr < wadd addr oldLen ∧ addr < newAddr+newLen)

/-- `mremap` comes to the limits: its arguments are in order, the lock has been taken, room has been
made, and the area can grow. The lengths are whole pages. -/
structure MremapAsks (rb : Balance VmaId) (env : MmEnv) (s : MmSys) (addr oldLen newLen : ℕ)
    (flags : Bits) (newAddr : ℕ) (x : VmaId) : Prop where
  known : flags.has (~~~(MREMAP_FIXED ||| MREMAP_MAYMOVE)) = false
  maymove : ¬(flags.has MREMAP_FIXED = true ∧ flags.has MREMAP_MAYMOVE = false)
  page : offsetInPage addr = 0
  len_ne : newLen ≠ 0
  lock : s.outcome.1 = 0
  grows : oldLen < newLen
  place : flags.has MREMAP_FIXED = true → NewPlace addr oldLen newLen newAddr
  room : (mremapRoom rb env s.outcome.2 newLen flags newAddr).1 = 0
  area : ResizeAsks (mremapRoom rb env s.outcome.2 newLen flags newAddr).2.mm addr oldLen newLen x

/-- The refusal can be read off the address space before room was made. -/
theorem MremapAsks.refusal (hx : MremapAsks rb env s addr oldLen newLen mflags new x)
    (h : Wf s.mm L) (hn : 4096 ∣ newLen) (lim : Rlimits) :
    let t := (mremapRoom rb env s.outcome.2 newLen mflags new).2
    resizeRefusal (env.withRlim lim) t.mm (t.mm.vma x).vmFlags oldLen newLen =
      mremapRefusal (env.withRlim lim) s.mm addr oldLen newLen mflags new := by
  have hwf := (outcome_quiet s).wf h
  have hoff := hx.page
  have harea := hx.area
  have hz := hx.room
  have hgrows := hx.grows
  unfold offsetInPage at hoff
  cases hfixed : mflags.has MREMAP_FIXED with
  | true =>
    have hroom : mremapRoom rb env s.outcome.2 newLen mflags new =
        doMunmap rb env.conf s.outcome.2 new newLen :=
      if_pos hfixed
    obtain ⟨hpage, hfits, -⟩ := hx.place hfixed
    unfold offsetInPage at hpage
    have ht : TASK_SIZE < 2^64 := by decide
    have hr : RangeOk new (new+newLen) := ⟨by omega, by omega, by omega, by omega⟩
    rw [hroom] at hz harea ⊢
    rw [← outcome_mm s]
    exact resizeRefusal_cleared hwf (by omega) hr hgrows hfixed hz harea
  | false =>
    have hroom : mremapRoom rb env s.outcome.2 newLen mflags new = (0, s.outcome.2) :=
      if_neg (by simp [hfixed])
    rw [hroom] at harea ⊢
    have hfound := harea.found
    dsimp only at hfound ⊢
    rw [outcome_mm] at hfound ⊢
    rw [mremapRefusal, if_neg (not_le.2 hgrows), hfound]
    dsimp only
    rw [hfixed, if_neg (by simp)]

end PtraceRemote
