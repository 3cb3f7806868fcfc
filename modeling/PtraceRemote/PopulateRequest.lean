import PtraceRemote.Gup
import PtraceRemote.MmGrowth
import PtraceRemote.MmRequest

/-! The pages that `PTRACE_REMOTE_MMAP` and `PTRACE_REMOTE_MREMAP` fault in: whose they are, and on
which task the faults are counted. -/
namespace PtraceRemote

open AugTree (Balance)

def MAP_POPULATE : Bits := 0x8000
def MAP_NONBLOCK : Bits := 0x10000

def MmEnv.spaces (env : MmEnv) (mm : Mm) : Party → Mm
  | .tracer => env.cur mm
  | .tracee => mm

def wantsPopulate (env : MmEnv) (mm : Mm) (file : Option FileId) (prot flags : Bits) : Bool :=
  (baseFlags env mm (impliedProt env file prot) flags).has VM_LOCKED ||
    flags &&& (MAP_POPULATE ||| MAP_NONBLOCK) == MAP_POPULATE

def mmapPopulate (env : MmEnv) (mm : Mm) (file : Option FileId) (len : ℕ) (prot flags : Bits)
    (ret : ℤ) : ℕ :=
  if 0 ≤ ret ∧ wantsPopulate env mm file prot flags then pageAlign len else 0

section
variable (rb : Balance VmaId) (env : MmEnv) (s : MmSys) (user : UserPtr) (mem : Memory) (fuel : ℕ)

def remoteMmapFaults (file : Option FileId) (addr len : ℕ) (prot flags : Bits) (offset : ℕ) :
    Option (List Fault) :=
  if user.readable = false then some []
  else
    let r := doMmapRemote rb env s file addr len prot flags offset
    let populate := mmapPopulate env s.mm (mmapFile env file flags) (mmapLen env file flags len)
      prot (keptFlags flags) r.1
    if populate ≠ 0 then mmPopulate (env.spaces r.2.mm) mem r.1.toNat populate fuel else some []

def remoteMremapFaults (addr oldLen newLen : ℕ) (flags : Bits) (newAddr : ℕ) :
    Option (List Fault) :=
  if user.readable = false then some []
  else
    let r := mremapTask rb env s addr oldLen newLen flags newAddr
    let newAddr := if flags.has MREMAP_FIXED then newAddr else r.1.toNat
    if r.2.1 then
      taskPopulate (env.spaces r.2.2.mm) mem .tracee (wadd newAddr (pageAlign oldLen))
        (pageAlign newLen-pageAlign oldLen) fuel
    else some []

end

/-! `do_task_mmap` decides by the flags the new area gets. -/

/-! What the requests owe. -/

def Fault.InTracee (start end_ : ℕ) (f : Fault) : Prop :=
  f.mm = .tracee ∧ f.tsk = some .tracee ∧ start ≤ f.addr ∧ f.addr < end_

/-- Whatever the memory does, all faults are right. -/
def PopulatesTracee (faults : Memory → ℕ → Option (List Fault)) (start end_ : ℕ) : Prop :=
  ∀ mem fuel fs, faults mem fuel = some fs → ∀ f ∈ fs, f.InTracee start end_

/-- No page of `[start, end_)` in these areas can be faulted in. -/
def NoFaultIn (mm : Mm) (L : List VmaId) (start end_ : ℕ) : Prop :=
  ∀ x ∈ L, ∀ p, 4096 ∣ p → start ≤ p → p < end_ → (mm.vma x).vmStart ≤ p → p < (mm.vma x).vmEnd →
    ¬CanFault mm x p

def Faultable (flags : VmFlags) : Prop :=
  flags.has VM_LOCKONFAULT = false ∧ checkVmaFlags flags (populateFollFlags flags) true = 0

variable {mm : Mm} {s : MmSys} {env : MmEnv} {L : List VmaId} {x y : VmaId} {start end_ len p : ℕ}
  {flags : VmFlags}

/-- A populated range keeps to the tracee only if there is nothing to fault in, since the faults are
counted on `current`. -/
theorem populates_iff (mms : Party → Mm) (ts : Party) (lo hi : ℕ) (h : Wf (mms ts) L)
    (hs : 4096 ∣ start) (hl : 4096 ∣ len) (hwrap : start+len < 2^64) :
    PopulatesTracee (fun mem fuel => taskPopulate mms mem ts start len fuel) lo hi ↔
      NoFaultIn (mms ts) L start (start+len) := by
  constructor
  · intro hall x hx p hp hle hlt hxs hxe hcan
    obtain ⟨fs, hfs, f, hf, -⟩ := taskPopulate_reaches h hs hl hwrap hx hp hle hlt hxs hxe hcan
    obtain ⟨x', -, hby, -⟩ := taskPopulate_faults h hs hl hwrap hfs hf
    have htsk := (hall _ _ fs hfs f hf).2.1
    rcases hby.tsk with htracer | ⟨hnone, -⟩
    · rw [htracer] at htsk
      cases htsk
    · rw [hnone] at htsk
      cases htsk
  · intro hno mem fuel fs hfs f hf
    obtain ⟨x, hx, hby, hxs, hxe⟩ := taskPopulate_faults h hs hl hwrap hfs hf
    exact absurd hby.can (hno x hx f.addr hby.dvd hby.start_le hby.lt_end hxs hxe)

theorem populatesTracee_nil {lo hi : ℕ} : PopulatesTracee (fun _ _ => some []) lo hi := by
  intro mem fuel fs hfs f hf
  obtain rfl := Option.some.inj hfs
  exact absurd hf List.not_mem_nil

theorem checkVmaFlags_bare {a b : VmFlags} (h : bareFlags a = bareFlags b) :
    checkVmaFlags a (populateFollFlags a) true = checkVmaFlags b (populateFollFlags b) true := by
  have hfoll : populateFollFlags a = populateFollFlags b := by
    unfold populateFollFlags
    rw [has_bareFlags (by decide) h, and_bareFlags (by decide) h,
      has_bareFlags (m := VM_READ ||| VM_WRITE ||| VM_EXEC) (by decide) h]
  unfold checkVmaFlags isCowMapping
  rw [hfoll, has_bareFlags (m := VM_PFNMAP ||| VM_IO) (by decide) h,
    has_bareFlags (m := VM_WRITE) (by decide) h,
    has_bareFlags (m := VM_READ) (by decide) h, has_bareFlags (m := VM_MAYREAD) (by decide) h,
    and_bareFlags (m := VM_SHARED ||| VM_MAYWRITE) (by decide) h]

theorem faultable_bare {a b : VmFlags} (h : bareFlags a = bareFlags b) : Faultable a ↔
    Faultable b := by
  unfold Faultable
  rw [has_bareFlags (by decide) h, checkVmaFlags_bare h]

/-- The flags of an area that covers a page of the range. -/
theorem ShowsRange.flags_eq (hsh : ShowsRange (pages mm.core L) flags start end_) (h : Wf mm L)
    (hy : y ∈ L) (hp : 4096 ∣ p) (hs : start ≤ p) (he : p < end_) (hys : (mm.vma y).vmStart ≤ p)
    (hye : p < (mm.vma y).vmEnd) :
    bareFlags (mm.vma y).vmFlags = bareFlags flags := by
  obtain ⟨k, rfl⟩ := hp
  obtain ⟨i, hi, hflags⟩ := hsh k hs he
  have hview : mm.view.clean k = some ((mm.core y).pageAt k).clean := by
    rw [PageMap.clean, (view_eq_some h).2 ⟨y, hy, ⟨hys, hye⟩, rfl⟩]
    rfl
  rw [(view_iff h).2 hi] at hview
  have hinfo : i = ((mm.core y).pageAt k).clean := Option.some.inj hview
  rw [← hflags, hinfo]
  exact (bareFlags_clean (mm.core y).vmFlags).symm

theorem ShowsRange.area (hsh : ShowsRange (pages mm.core L) flags start end_) (h : Wf mm L)
    (hp : 4096 ∣ p) (hs : start ≤ p) (he : p < end_) :
    ∃ y ∈ L, (mm.vma y).vmStart ≤ p ∧ p < (mm.vma y).vmEnd := by
  obtain ⟨k, rfl⟩ := hp
  obtain ⟨i, hi, -⟩ := hsh k hs he
  obtain ⟨y, hy, hyi⟩ := mem_pages hi
  obtain ⟨⟨hys, hye⟩, -⟩ := (mem_weight_iff (h.ordered.area y hy)).1 hyi
  exact ⟨y, hy, hys, hye⟩

/-- The area that ends where `y` begins is the one before it. -/
theorem Wf.prev_of_touch {z : VmaId} (h : Wf mm L) (hy : y ∈ L) (hz : z ∈ L)
    (htouch : (mm.vma z).vmEnd = (mm.vma y).vmStart) : mm.vmPrev y = some z := by
  have ho := ordered_core.1 h.ordered
  have hzlt := (ho.area z hz).lt
  obtain ⟨A, B, rfl⟩ := List.append_of_mem hy
  rw [h.rep.prev_eq]
  obtain ⟨hoA, hoB, hAB⟩ := ordered_append.1 ho
  have hylt := (ho.area y (by simp)).lt
  rcases List.mem_append.1 hz with hzA | hzB
  · rcases List.eq_nil_or_concat A with rfl | ⟨C, w, rfl⟩
    · exact absurd hzA List.not_mem_nil
    rw [List.concat_eq_append] at *
    rw [List.getLast?_concat]
    rcases List.mem_append.1 hzA with hzC | hzw
    · -- an area between the two would be empty
      have hbefore := (ordered_append.1 hoA).2.2 z hzC w (by simp)
      have hbetween := hAB w (by simp) y (by simp)
      have hlt := (ho.area w (by simp)).lt
      omega
    · rw [List.mem_singleton.1 hzw]
  · rcases List.mem_cons.1 hzB with rfl | hzB
    · omega
    · have hlater := (ordered_cons.1 hoB).2.2 z hzB
      omega

/-- A page that is not the first one of its range is no guard page. -/
theorem ShowsRange.canFault (hsh : ShowsRange (pages mm.core L) flags start end_) (h : Wf mm L)
    (hy : y ∈ L) (hp : 4096 ∣ p) (hs : start+4096 ≤ p) (he : p < end_)
    (hys : (mm.vma y).vmStart ≤ p) (hye : p < (mm.vma y).vmEnd) (hf : Faultable flags) :
    CanFault mm y p := by
  have hflags := hsh.flags_eq h hy hp (by omega) he hys hye
  obtain ⟨hlock, hcheck⟩ := (faultable_bare hflags).2 hf
  refine ⟨hcheck, .inr ⟨hlock, ?_⟩⟩
  have hp' : 4096 ∣ p-4096 := Nat.dvd_sub hp (dvd_refl _)
  obtain ⟨z, hz, hzs, hze⟩ := hsh.area h hp' (by omega) (by omega)
  have hzflags := hsh.flags_eq h hz hp' (by omega) (by omega) hzs hze
  unfold stackGuardPageStart
  by_cases hstart : (mm.vma y).vmStart = p
  · have hzd := ((ordered_core.1 h.ordered).area z hz).end_dvd
    have htouch : (mm.vma z).vmEnd = (mm.vma y).vmStart := by
      have hle : (mm.vma z).vmEnd ≤ (mm.vma y).vmStart := by
        by_contra hgt
        have heq := h.eq_of_meet hy hz (show (mm.core z).vmStart ≤ (mm.core y).vmStart by
          show (mm.vma z).vmStart ≤ (mm.vma y).vmStart
          omega) (not_le.1 hgt)
        subst heq
        omega
      omega
    have hgrow : (mm.vma z).vmFlags.has VM_GROWSDOWN = (mm.vma y).vmFlags.has VM_GROWSDOWN :=
      has_bareFlags (by decide) (hzflags.trans hflags.symm)
    rw [h.prev_of_touch hy hz htouch, Option.any_some, hgrow, htouch, hstart]
    cases (mm.vma y).vmFlags.has VM_GROWSDOWN <;> simp
  · simp [hstart]

theorem ShowsRange.noFault {mid : ℕ} (hsh : ShowsRange (pages mm.core L) flags start end_)
    (h : Wf mm L) (hh : flags.has VM_HUGETLB = false) (hle : start ≤ mid) (hf : ¬Faultable flags) :
    NoFaultIn mm L mid end_ := by
  intro x hx p hp hs he hxs hxe hcan
  have hflags := hsh.flags_eq h hx hp (hle.trans hs) he hxs hxe
  rcases hcan.2 with hhuge | ⟨hlock, -⟩
  · have hno : (mm.vma x).vmFlags.has VM_HUGETLB = false := by
      rw [has_bareFlags (by decide) hflags]; exact hh
    exact absurd hhuge (by rw [isVmHugetlbPage, hno]; simp)
  · exact hf ((faultable_bare hflags).1 ⟨hlock, hcan.1⟩)

theorem ShowsRange.not_faultable {mid : ℕ} (hsh : ShowsRange (pages mm.core L) flags start end_)
    (h : Wf mm L) (hd : 4096 ∣ start) (hm : 4096 ∣ mid) (hle : start ≤ mid) (hmid : mid < end_)
    (hroom : start < mid ∨ start+4096 < end_) (hno : NoFaultIn mm L mid end_) :
    ¬Faultable flags := by
  intro hf
  -- the first page of the rest, or the second one of the range
  obtain ⟨p, hp, hmp, hfirst, hlast⟩ : ∃ p, 4096 ∣ p ∧ mid ≤ p ∧ start+4096 ≤ p ∧ p < end_ := by
    rcases Nat.lt_or_ge start mid with hlt | hge
    · exact ⟨mid, hm, le_rfl, by omega, by omega⟩
    · exact ⟨start+4096, dvd_add hd (dvd_refl _), by omega, le_rfl, by omega⟩
  obtain ⟨y, hy, hys, hye⟩ := hsh.area h hp (by omega) hlast
  exact hno y hy p hp hmp hlast hys hye (hsh.canFault h hy hp hfirst hlast hys hye hf)

/-- The area at `addr` is not locked, or its pages cannot be faulted in. -/
def NoLockedFault (mm : Mm) (L : List VmaId) (addr : ℕ) : Prop :=
  ∀ x ∈ L, (mm.vma x).vmStart ≤ addr → addr < (mm.vma x).vmEnd →
    (mm.vma x).vmFlags.has VM_LOCKED = true → ¬Faultable (mm.vma x).vmFlags

theorem Wf.area_unique {addr : ℕ} (h : Wf mm L) (hx : x ∈ L) (hy : y ∈ L)
    (hxs : (mm.vma x).vmStart ≤ addr) (hxe : addr < (mm.vma x).vmEnd)
    (hys : (mm.vma y).vmStart ≤ addr) (hye : addr < (mm.vma y).vmEnd) : x = y := by
  rcases le_total (mm.vma y).vmStart (mm.vma x).vmStart with hle | hle
  · exact h.eq_of_meet hx hy hle (show (mm.vma x).vmStart < (mm.vma y).vmEnd by omega)
  · exact (h.eq_of_meet hy hx hle (show (mm.vma y).vmStart < (mm.vma x).vmEnd by omega)).symm

section Requests
variable {rb : Balance VmaId} {user : UserPtr} {file : Option FileId}
  {addr oldLen newLen newAddr offset a lo hi : ℕ} {prot flags : Bits} {mem : Memory} {fuel : ℕ}

theorem remoteMmapFaults_nil
    (hno : user.readable = false ∨ (doMmapRemote rb env s file addr len prot flags offset).1 < 0 ∨
      wantsPopulate env s.mm (mmapFile env file flags) prot (keptFlags flags) = false) :
    remoteMmapFaults rb env s user mem fuel file addr len prot flags offset = some [] := by
  unfold remoteMmapFaults
  split
  · rfl
  next hread =>
  have hzero : ¬(0 ≤ (doMmapRemote rb env s file addr len prot flags offset).1 ∧
      wantsPopulate env s.mm (mmapFile env file flags) prot (keptFlags flags) = true) := by
    rintro ⟨hpos, hwant⟩
    rcases hno with hread' | hneg | hwant'
    · exact hread hread'
    · omega
    · rw [hwant'] at hwant
      cases hwant
  unfold mmapPopulate
  dsimp only
  rw [if_neg hzero]
  rfl

theorem remoteMmapFaults_populate (huser : user.readable = true)
    (hret : (doMmapRemote rb env s file addr len prot flags offset).1 = a)
    (hwant : wantsPopulate env s.mm (mmapFile env file flags) prot (keptFlags flags) = true)
    (hpos : 0 < pageAlign (mmapLen env file flags len)) :
    remoteMmapFaults rb env s user mem fuel file addr len prot flags offset =
      taskPopulate (env.spaces (doMmapRemote rb env s file addr len prot flags offset).2.mm)
        mem .tracer a (pageAlign (mmapLen env file flags len)) fuel := by
  have hlen : mmapPopulate env s.mm (mmapFile env file flags) (mmapLen env file flags len) prot
    (keptFlags flags) a =
      pageAlign (mmapLen env file flags len) := if_pos ⟨by omega, hwant⟩
  unfold remoteMmapFaults
  rw [if_neg (by rw [huser]; simp)]
  dsimp only
  rw [hret, hlen, if_pos hpos.ne']
  rfl

/-- The faults of a mapping request that has succeeded at `a`. -/
theorem remoteMmap_populates {tracer : Mm} {LT : List VmaId} (hcur : env.curMm = some tracer)
    (hT : Wf tracer LT) (huser : user.readable = true)
    (hret : (doMmapRemote rb env s file addr len prot flags offset).1 = a)
    (hr : RangeOk a (a+pageAlign (mmapLen env file flags len))) :
    PopulatesTracee (fun mem fuel => remoteMmapFaults rb env s user mem fuel file addr len prot
      flags offset) lo hi ↔
      wantsPopulate env s.mm (mmapFile env file flags) prot (keptFlags flags) = false ∨
        NoFaultIn tracer LT a (a+pageAlign (mmapLen env file flags len)) := by
  have hcur' : ∀ mm, env.spaces mm .tracer = tracer := fun mm => by
    show env.curMm.getD mm = tracer
    rw [hcur, Option.getD_some]
  cases hwant : wantsPopulate env s.mm (mmapFile env file flags) prot (keptFlags flags) with
  | false =>
    simp only [remoteMmapFaults_nil (.inr (.inr hwant))]
    exact iff_of_true populatesTracee_nil (.inl trivial)
  | true =>
    have hlt := hr.lt
    simp only [remoteMmapFaults_populate huser hret hwant (by omega)]
    have hw : Wf (env.spaces (doMmapRemote rb env s file addr len prot flags offset).2.mm .tracer)
      LT := by rwa [hcur']
    have hiff := populates_iff _ .tracer lo hi hw hr.start_dvd (pageAlign_dvd _) hr.end_lt
    rw [hcur'] at hiff
    exact hiff.trans ⟨.inr, fun hor => hor.resolve_left (by simp)⟩

theorem remoteMremapFaults_nil
    (hno :
      user.readable = false ∨ (mremapTask rb env s addr oldLen newLen flags newAddr).2.1 = false) :
    remoteMremapFaults rb env s user mem fuel addr oldLen newLen flags newAddr = some [] := by
  unfold remoteMremapFaults
  split
  · rfl
  next hread =>
  dsimp only
  rw [hno.resolve_left hread]
  rfl

theorem remoteMremapFaults_populate (huser : user.readable = true)
    (hret : (mremapTask rb env s addr oldLen newLen flags newAddr).1 = a)
    (hlock : (mremapTask rb env s addr oldLen newLen flags newAddr).2.1 = true)
    (hfix : flags.has MREMAP_FIXED = true → a = newAddr) (hlim : a+pageAlign oldLen < 2^64) :
    remoteMremapFaults rb env s user mem fuel addr oldLen newLen flags newAddr =
      taskPopulate (env.spaces (mremapTask rb env s addr oldLen newLen flags newAddr).2.2.mm) mem
        .tracee (a+pageAlign oldLen) (pageAlign newLen-pageAlign oldLen) fuel := by
  have haddr : (if flags.has MREMAP_FIXED = true then newAddr else (a : ℤ).toNat) = a := by
    split
    next hf => exact (hfix hf).symm
    next => rfl
  unfold remoteMremapFaults
  rw [if_neg (by rw [huser]; simp)]
  dsimp only
  rw [hlock, if_pos rfl, hret, haddr, wadd_eq hlim]

/-- The faults of a growing `mremap` that has succeeded. -/
theorem remoteMremap_populates (h : Wf s.mm L) (huser : user.readable = true)
    (hlt : pageAlign oldLen < pageAlign newLen)
    (hok : 0 ≤ (mremapTask rb env s addr oldLen newLen flags newAddr).1) :
    let faults :=
      fun mem fuel => remoteMremapFaults rb env s user mem fuel addr oldLen newLen flags newAddr
    (NoLockedFault s.mm L addr → PopulatesTracee faults lo hi) ∧
      (0 < pageAlign oldLen ∨ 4096 < pageAlign newLen → PopulatesTracee faults lo hi →
        NoLockedFault s.mm L addr) := by
  intro faults
  rcases mremapTask_grew rb env addr flags newAddr h hlt with
    ⟨hneg, -⟩ | ⟨x, hx, hxs, hxe, hh, a, hfix, hret, hr, htask, hlock, L', hw, hshows⟩
  · exact absurd hok (not_le.2 hneg)
  have hunique : ∀ y ∈ L, (s.mm.vma y).vmStart ≤ addr → addr < (s.mm.vma y).vmEnd → y = x :=
      fun y hy hys hye =>
    h.area_unique hy hx hys hye hxs hxe
  cases hl : (s.mm.core x).vmFlags.has VM_LOCKED with
  | false =>
    -- nothing is populated
    rw [hl] at hlock
    have hfaults : faults = fun _ _ => some [] := by
      funext mem fuel
      exact remoteMremapFaults_nil (.inr hlock)
    rw [hfaults]
    refine ⟨fun _ => populatesTracee_nil, fun _ _ y hy hys hye hyl => ?_⟩
    obtain rfl := hunique y hy hys hye
    exact absurd hyl (by rw [show (s.mm.vma y).vmFlags.has VM_LOCKED = false from hl]; simp)
  | true =>
    rw [hl] at hlock
    have hold := pageAlign_dvd oldLen
    have hnew := pageAlign_dvd newLen
    have hrd := hr.start_dvd
    have hend := hr.end_lt
    have hfaults : faults = fun mem fuel =>
        taskPopulate (env.spaces (mremapTask rb env s addr oldLen newLen flags newAddr).2.2.mm) mem
          .tracee (a+pageAlign oldLen) (pageAlign newLen-pageAlign oldLen) fuel := by
      funext mem fuel
      exact remoteMremapFaults_populate huser hret hlock hfix (by omega)
    have hiff := populates_iff
      (env.spaces (mremapTask rb env s addr oldLen newLen flags newAddr).2.2.mm) .tracee lo hi hw
      (dvd_add hrd hold) (Nat.dvd_sub hnew hold) (by omega)
    rw [← hfaults, show a+pageAlign oldLen+(pageAlign newLen-pageAlign oldLen) =
      a+pageAlign newLen by omega] at hiff
    constructor
    · intro hno
      exact hiff.2 (hshows.noFault hw hh (Nat.le_add_right _ _) (hno x hx hxs hxe hl))
    · intro hroom hall y hy hys hye _
      obtain rfl := hunique y hy hys hye
      exact hshows.not_faultable hw hrd (dvd_add hrd hold) (Nat.le_add_right _ _) (by omega)
        (by omega) (hiff.1 hall)

end Requests

/-- Population by `PTRACE_REMOTE_MMAP` and a growing `PTRACE_REMOTE_MREMAP`. A request that fails
faults nothing in. The faults of one that succeeds are in the tracee, in the new range and counted
on the tracee, whatever the memory does, exactly if there are none: for a mapping, if it is not to
be populated or the areas of the tracer have nothing to be faulted in at the addresses of the new
range; for an area that grows, if it is not locked or cannot be faulted in. -/
theorem remote_populate_iff (rb : Balance VmaId) (env : MmEnv) (s : MmSys) (L : List VmaId)
    (tracer : Mm) (LT : List VmaId) (user : UserPtr) (hcur : env.curMm = some tracer)
    (hT : Wf tracer LT) (h : Wf s.mm L) :
    (∀ (file : Option FileId) (addr len : ℕ) (prot flags : Bits) (offset : ℕ),
      let r := doMmapRemote rb env s file addr len prot flags offset
      let faults :=
        fun mem fuel => remoteMmapFaults rb env s user mem fuel file addr len prot flags offset
      let len' := pageAlign (mmapLen env file flags len)
      let start := (getArea env s.mm s.mm.topdown (mmapFile env file flags)
        (mapHint env (keptFlags flags) addr) len'
        (BitVec.ofNat 64 (offset/4096)) (keptFlags flags)).toNat
      (user.readable = false ∨ r.1 < 0 → ∀ mem fuel, faults mem fuel = some []) ∧
      (user.readable = true → 0 ≤ r.1 → (PopulatesTracee faults r.1.toNat (r.1.toNat+len') ↔
        wantsPopulate env s.mm (mmapFile env file flags) prot (keptFlags flags) = false ∨
          NoFaultIn tracer LT start (start+len')))) ∧
    (∀ (addr oldLen newLen : ℕ) (flags : Bits) (newAddr : ℕ), pageAlign oldLen < pageAlign newLen →
      let r := mremapTask rb env s addr oldLen newLen flags newAddr
      let faults :=
        fun mem fuel => remoteMremapFaults rb env s user mem fuel addr oldLen newLen flags newAddr
      let start := r.1.toNat+pageAlign oldLen
      let end_ := r.1.toNat+pageAlign newLen
      (user.readable = false ∨ r.1 < 0 → ∀ mem fuel, faults mem fuel = some []) ∧
      (user.readable = true → 0 ≤ r.1 →
        (NoLockedFault s.mm L addr → PopulatesTracee faults start end_) ∧
        (0 < pageAlign oldLen ∨ 4096 < pageAlign newLen → PopulatesTracee faults start end_ →
          NoLockedFault s.mm L addr))) := by
  constructor
  · intro file addr len prot flags offset r faults len' start
    constructor
    · intro hfail mem fuel
      exact remoteMmapFaults_nil (hfail.imp_right .inl)
    · intro huser hok
      obtain ⟨c, hfails | ⟨a, ha, hr, -, ⟨hneg, -⟩ | ⟨hret, -⟩⟩, -⟩ :=
        doMmapRemote_spec rb env file addr len prot flags offset h
      · exact absurd hok (not_le.2 hfails.1)
      · exact absurd hok (not_le.2 hneg)
      · have hstart : start = a := by
          show Int.toNat _ = a
          rw [← ha]
          rfl
        rw [hstart]
        exact remoteMmap_populates hcur hT huser hret hr
  · intro addr oldLen newLen flags newAddr hlt r faults start end_
    constructor
    · intro hfail mem fuel
      refine remoteMremapFaults_nil (hfail.imp_right fun hneg => ?_)
      rcases mremapTask_grew rb env addr flags newAddr h hlt with
        ⟨-, hlock⟩ | ⟨x, -, -, -, -, a, -, hret, -⟩
      · exact hlock
      · have hneg : (mremapTask rb env s addr oldLen newLen flags newAddr).1 < 0 := hneg
        omega
    · intro huser hok
      exact remoteMremap_populates h huser hlt hok

def tracerEnv : MmEnv := { MmEnv.unlimited 10 with curMm := some (Mm.ofArea fourPages) }

/-- A page is mapped and populated where the tracer has nothing. -/
theorem remote_populate_apart :
    let s : MmSys := { mm := Mm.ofArea fourPages }
    let flags := MAP_PRIVATE ||| MAP_ANONYMOUS ||| MAP_FIXED ||| MAP_POPULATE
    (doMmapRemote Balance.plain tracerEnv s none 0x20000 0x1000 PROT_READ flags 0).1 = 0x20000 ∧
      PopulatesTracee (fun mem fuel =>
        remoteMmapFaults Balance.plain tracerEnv s {} mem fuel none 0x20000 0x1000 PROT_READ flags
          0) 0x20000 0x21000 := by
  intro s flags
  have hwf : Wf (Mm.ofArea fourPages) [0] := wf_ofArea ⟨by decide, by decide, by decide, by decide⟩
  have hret : (doMmapRemote Balance.plain tracerEnv s none 0x20000 0x1000 PROT_READ flags 0).1 =
      0x20000 := by
    decide +kernel
  have hiff :=
    ((remote_populate_iff Balance.plain tracerEnv s [0] (Mm.ofArea fourPages) [0] {} rfl hwf hwf).1
    none 0x20000 0x1000 PROT_READ flags 0).2 rfl (by rw [hret]; decide)
  have hlen : Int.toNat 0x20000 + pageAlign (mmapLen tracerEnv none flags 0x1000) =
    0x21000 := by decide +kernel
  rw [hret, hlen] at hiff
  refine ⟨hret, hiff.2 (.inr fun x hx p _ hp _ _ hxe => ?_)⟩
  have hp : 0x20000 ≤ p := by
    refine le_trans ?_ hp
    decide +kernel
  have hxe : p < 0x14000 := hxe
  omega

/-- The same page mapped over the range where the tracer has its four pages: the first of them is
faulted in. And a locked area of the tracee that grows by a page: the new page is faulted in, and
the fault is counted on the tracer. -/
theorem remote_populate_tracer :
    let flags := MAP_PRIVATE ||| MAP_ANONYMOUS ||| MAP_FIXED ||| MAP_POPULATE
    let locked := { fourPages with vmFlags := VM_READ ||| VM_MAYREAD ||| VM_LOCKED }
    remoteMmapFaults Balance.plain tracerEnv { mm := {} } {} .eager 0x1001 none 0x10000 0x1000
      PROT_READ flags 0 =
        some [⟨.tracer, 0x10000, some .tracer, false⟩] ∧
      remoteMremapFaults Balance.plain tracerEnv { mm := Mm.ofArea locked } {} .eager 0x1001 0x10000
        0x4000 0x5000 0 0 = some [⟨.tracee, 0x14000, some .tracer, false⟩] := by
  decide +kernel

end PtraceRemote
