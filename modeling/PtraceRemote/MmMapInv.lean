import PtraceRemote.MmRegion

/-! `mmap` as a whole: old maps give way, the books stay balanced. -/
namespace PtraceRemote

open AugTree (Balance)

variable {mm : Mm} {s s' : MmSys} {rb : Balance VmaId} {env : MmEnv} {L L' A B : List VmaId}
  {x : VmaId} {core : VmaId → Vma} {q : MergeReq} {start end_ addr len : ℕ} {G : Prop}

theorem mem_weight_of {v : Vma} {p : ℕ} (h₁ : v.vmStart/4096 ≤ p)
    (h₂ : p < v.vmStart/4096+v.pages) : ∃ i, (p, i) ∈ v.weight single := by
  refine ⟨⟨v.vmFile, v.vmPgoff+BitVec.ofNat 64 (p-v.vmStart/4096), cleanFlags v.vmFlags⟩, ?_⟩
  rw [Vma.weight, blockSum]
  refine Multiset.mem_sum.2 ⟨p-v.vmStart/4096, Finset.mem_range.2 ?_, ?_⟩
  · unfold Vma.pages at h₂
    omega
  · rw [single, Nat.add_sub_cancel' h₁]
    exact Multiset.mem_singleton_self _

theorem weight_le_pages (hx : x ∈ L) : (core x).weight single ≤ pages core L := by
  obtain ⟨A, B, rfl⟩ := List.append_of_mem hx
  rw [pages, total_append, total_cons, add_left_comm]
  exact Multiset.le_add_right _ _

/-- A range that no area meets. -/
def Free (core : VmaId → Vma) (L : List VmaId) (start end_ : ℕ) : Prop :=
  ∀ y ∈ L, (core y).vmEnd ≤ start ∨ end_ ≤ (core y).vmStart

/-- Where the pages of a range are gone, no area meets it. -/
theorem free_of_outside {P : Pages} (ho : Ordered core L) (hr : RangeOk start end_)
    (h : pages core L = outside start end_ P) : Free core L start end_ := by
  intro y hy
  by_contra hmeet
  rw [not_or, not_le, not_le] at hmeet
  obtain ⟨hlt, hd, hd', -⟩ := ho.area y hy
  obtain ⟨hrlt, hrd, hrd', -⟩ := hr
  obtain ⟨i, hi⟩ := mem_weight_of (v := core y) (p := max (core y).vmStart start/4096) (by omega)
    (by unfold Vma.pages; omega)
  have hmem := Multiset.mem_of_le (weight_le_pages hy) hi
  rw [h, outside, Multiset.mem_filter] at hmem
  omega

theorem outside_of_free (ho : Ordered core L) (h : Free core L start end_) (hs : 4096 ∣ start)
    (he : 4096 ∣ end_) :
    outside start end_ (pages core L) = pages core L := by
  refine Multiset.filter_eq_self.2 fun e hmem => ?_
  obtain ⟨y, hy, hey⟩ := mem_pages hmem
  have hb := mem_weight hey
  obtain ⟨hlt, hd, hd', -⟩ := ho.area y hy
  unfold Vma.pages at hb
  rcases h y hy with hfree | hfree <;> omega

theorem RangeOk.pageAlign_len (hr : RangeOk addr (addr+len)) : pageAlign len = len := by
  have hd := (Nat.dvd_add_right hr.start_dvd).1 hr.end_dvd
  exact pageAlign_of_dvd hd (by have := hr.end_lt; omega)

/-- After one successful `do_munmap` there is room. -/
theorem findVmaLinks_after (rb : Balance VmaId) (conf : MmConf) (h : Wf s.mm L)
    (hr : RangeOk addr (addr+len)) (hz : (doMunmap rb conf s addr len).1 = 0) :
    findVmaLinks (doMunmap rb conf s addr len).2.mm addr (addr+len) ≠ none := by
  intro hnone
  have hspec := doMunmap_spec rb conf addr len h
  rw [hr.pageAlign_len] at hspec
  rcases hspec with ⟨hne, -⟩ | ⟨-, L', hd⟩
  · exact hne hz
  · obtain ⟨y, hy, h₁, h₂⟩ := findVmaLinks_none hd.wf.rep hnone
    rcases free_of_outside hd.wf.ordered hr hd.pages y hy with hc | hc
    · exact absurd hc (not_le.2 h₁)
    · exact absurd hc (not_le.2 h₂)

/-- The loop that clears old maps ends after one `do_munmap`. -/
theorem clearOldMaps_spec (rb : Balance VmaId) (conf : MmConf) (h : Wf s.mm L)
    (hr : RangeOk addr (addr+len)) :
    let r := clearOldMaps rb conf addr len 2 s
    (r.1 = none ∧ ∃ L', Does (LockExact s L) s L r.2 L' (pages s.mm.core L) 0) ∨
      ∃ k A B, r.1 = some k ∧ LinksAt r.2.mm A B k ∧ (∀ a ∈ A, (r.2.mm.core a).vmEnd ≤ addr) ∧
        (∀ b ∈ B, addr+len ≤ (r.2.mm.core b).vmStart) ∧
        Does (LockExact s L) s L r.2 (A ++ B) (outside addr (addr+len) (pages s.mm.core L)) 0 := by
  dsimp only
  rw [clearOldMaps]
  cases hf : findVmaLinks s.mm addr (addr+len) with
  | some k =>
    obtain ⟨A, B, rfl, hk, hA, hB⟩ := findVmaLinks_some h.rep (ordered_core.1 h.ordered) hf
    exact .inr ⟨k, A, B, rfl, hk, hA, fun b hb => (hB b hb).2,
      does_outside_of_hole h hA (fun b hb => (hB b hb).2) hr.start_dvd hr.end_dvd⟩
  | none =>
    dsimp only
    have hspec := doMunmap_spec rb conf addr len h
    rw [hr.pageAlign_len] at hspec
    rcases hspec with ⟨hne, L', hdoes⟩ | ⟨heq, L', hdoes⟩
    · rw [if_pos hne]
      exact .inl ⟨rfl, L', hdoes.mono fun _ => trivial⟩
    · rw [if_neg (not_not.2 heq)]
      have hroom := findVmaLinks_after rb conf h hr heq
      set s₁ := (doMunmap rb conf s addr len).2
      rw [clearOldMaps]
      cases hf₁ : findVmaLinks s₁.mm addr (addr+len) with
      | some k =>
        obtain ⟨A, B, rfl, hk, hA, hB⟩ :=
          findVmaLinks_some hdoes.wf.rep (ordered_core.1 hdoes.wf.ordered) hf₁
        exact .inr ⟨k, A, B, rfl, hk, hA, fun b hb => (hB b hb).2, hdoes.mono fun hl =>
          hl.guard h.ordered⟩
      | none => exact absurd hf₁ hroom

def IsErr (r : ℤ) : Prop := -4096 < r ∧ r < 0

theorem isErr_inval : IsErr (-EINVAL) := ⟨by decide, by decide⟩

theorem isErr_nomem : IsErr (-ENOMEM) := ⟨by decide, by decide⟩

theorem isErr_intr : IsErr (-EINTR) := ⟨by decide, by decide⟩

theorem isErr_fault : IsErr (-EFAULT) := ⟨by decide, by decide⟩

def Fails (s : MmSys) (L : List VmaId) (r : ℤ × MmSys) (c : ℤ) : Prop :=
  r.1 < 0 ∧ ∃ L', Does (LockExact s L) s L r.2 L' (pages s.mm.core L) c

theorem Same.fails {e : ℤ} (h : Same s s' L) (hneg : e < 0) : Fails s L (e, s') 0 :=
  ⟨hneg, L, h.does⟩

/-- Work that starts from a state that looks the same. -/
theorem Same.then_does {s'' : MmSys} {P : Pages} {c : ℤ} (h : Same s s' L)
    (hd : Does (LockExact s' L) s' L s'' L' P c) : Does (LockExact s L) s L s'' L' P c := by
  have hseq := (h.does (G := LockExact s L)).seq hd
  rwa [zero_add] at hseq

theorem Same.then_fails {r : ℤ × MmSys} {c : ℤ} (h : Same s s' L) (hf : Fails s' L r c) :
    Fails s L r c := by
  obtain ⟨hneg, L', hd⟩ := hf
  rw [h.pages_eq] at hd
  exact ⟨hneg, L', h.then_does hd⟩

def Replaces (s : MmSys) (L : List VmaId) (start end_ : ℕ) (r : ℤ × MmSys) (c : ℤ) : Prop :=
  (r.1 < 0 ∧ ∃ L', Does (LockExact s L) s L r.2 L' (outside start end_ (pages s.mm.core L)) c) ∨
  r.1 = start ∧ ∃ L' file pgoff flags, Does (LockExact s L) s L r.2 L'
    (outside start end_ (pages s.mm.core L) + blockPages start end_ file pgoff flags) c

theorem Same.then_replaces {r : ℤ × MmSys} {c : ℤ} (h : Same s s' L)
    (hr : Replaces s' L start end_ r c) :
    Replaces s L start end_ r c := by
  rcases hr with ⟨hneg, L', hd⟩ | ⟨haddr, L', file, pgoff, flags, hd⟩
  · rw [h.pages_eq] at hd
    exact .inl ⟨hneg, L', h.then_does hd⟩
  · rw [h.pages_eq] at hd
    exact .inr ⟨haddr, L', file, pgoff, flags, h.then_does hd⟩

theorem Does.replaces {r : ℤ × MmSys} {c c' : ℤ}
    (h : Does (LockExact s L) s L s' L' (outside start end_ (PtraceRemote.pages s.mm.core L)) c)
    (hm : Maps (LockExact s' L') env s' L' q r c') (hs : q.addr = start) (he : q.end_ = end_) :
    Replaces s L start end_ r (c+c') := by
  subst hs he
  rcases hm with ⟨hneg, L₁, hd⟩ | ⟨haddr, L₁, file, flags, -, hd⟩
  · rw [h.pages] at hd
    exact .inl ⟨hneg, L₁, h.seq hd⟩
  · rw [h.pages] at hd
    exact .inr ⟨haddr, L₁, file, q.pgoff, doneFlags flags, h.seq hd⟩

theorem mmapTaskRegion_spec (rb : Balance VmaId) (env : MmEnv) (file : Option FileId)
    (vmFlags : VmFlags) (pgoff : BitVec 64) (h : Wf s.mm L) (hr : RangeOk addr (addr+len))
    (hh : vmFlags.has VM_HUGETLB = false) (ha : vmFlags.has VM_ACCOUNT = false) :
    let r := mmapTaskRegion rb env s file addr len vmFlags pgoff
    ∃ c, (Fails s L r c ∨ Replaces s L addr (addr+len) r c) ∧
      (RegionOk env ⟨addr, addr+len, vmFlags, none, file, pgoff, 0, 0⟩ → c = 0) := by
  dsimp only
  have hnomem : -ENOMEM < 0 := by decide
  unfold mmapTaskRegion
  split
  next => exact ⟨0, .inl ((Same.refl h).fails hnomem), fun _ => rfl⟩
  next =>
    dsimp only
    rcases clearOldMaps_spec rb env.conf h hr with
      ⟨hnone, L', hdoes⟩ | ⟨k, A, B, hsome, hk, hA, hB, hdoes⟩
    · rw [hnone]
      exact ⟨0, .inl ⟨hnomem, L', hdoes⟩, fun _ => rfl⟩
    · rw [hsome]
      obtain ⟨c, hmaps, hc⟩ :=
        chargeRegion_spec (G := LockExact (clearOldMaps rb env.conf addr len 2 s).2 (A ++ B))
        (q := ⟨addr, addr+len, vmFlags, none, file, pgoff, 0, 0⟩) rb env hdoes.wf hk hr hA hB hh ha
      have hrep := hdoes.replaces hmaps (chargedReq_addr ..) (chargedReq_end ..)
      rw [zero_add] at hrep
      exact ⟨c, .inr hrep, hc⟩

/-! The flags of a mapping. -/

def Within (a m : VmFlags) : Prop := a &&& m = a

theorem Within.or {a b m : VmFlags} (ha : Within a m) (hb : Within b m) : Within (a ||| b) m := by
  rw [Within, BitVec.and_comm, BitVec.and_or_distrib_left, BitVec.and_comm m a,
    BitVec.and_comm m b, ha, hb]

theorem Within.and {a m : VmFlags} (ha : Within a m) (b : VmFlags) : Within (a &&& b) m := by
  rw [Within, BitVec.and_assoc, BitVec.and_comm b, ← BitVec.and_assoc, ha]

theorem Within.has {a m k : VmFlags} (ha : Within a m) (hk : m &&& k = 0#64) : a.has k = false := by
  rw [VmFlags.has, ← ha, BitVec.and_assoc, hk, BitVec.and_zero]
  rfl

theorem within_trans {x bit1 bit2 m : VmFlags} (h : Within bit2 m) :
    Within (calcVmTrans x bit1 bit2) m := by
  unfold calcVmTrans
  split
  · exact h
  · exact BitVec.zero_and

theorem within_defFlags (mm : Mm) {m : VmFlags} (hm : Within VM_DEF_MASK m) :
    Within mm.defFlags m := by
  have hdef : Within mm.defFlags VM_DEF_MASK := by
    have hall : VM_DEF_MASK ||| ~~~VM_DEF_MASK = BitVec.allOnes 64 := by decide
    calc mm.defFlags &&& VM_DEF_MASK
        = (mm.defFlags &&& VM_DEF_MASK) ||| (mm.defFlags &&& ~~~VM_DEF_MASK) := by
          rw [mm.def_ok]; exact BitVec.or_zero.symm
      _ = mm.defFlags &&& (VM_DEF_MASK ||| ~~~VM_DEF_MASK) := BitVec.and_or_distrib_left.symm
      _ = mm.defFlags := by rw [hall, BitVec.and_allOnes]
  rw [Within, ← hdef, BitVec.and_assoc, hm]

def VM_MAP_MASK : VmFlags :=
  VM_READ ||| VM_WRITE ||| VM_EXEC ||| VM_SHARED ||| VM_MAYREAD ||| VM_MAYWRITE ||| VM_MAYEXEC |||
    VM_MAYSHARE |||
    VM_GROWSDOWN ||| VM_DENYWRITE ||| VM_NORESERVE ||| VM_DEF_MASK ||| ARCH_VM_PKEY_FLAGS

theorem within_baseFlags (env : MmEnv) (mm : Mm) (prot flags : Bits) :
    Within (baseFlags env mm prot flags) VM_MAP_MASK := by
  unfold baseFlags calcVmProtBits calcVmFlagBits
  have hpkey : ∀ a : VmFlags, Within (a &&& ARCH_VM_PKEY_FLAGS) VM_MAP_MASK := fun a => by
    rw [BitVec.and_comm]
    exact Within.and (show _ &&& _ = _ by decide) a
  refine Within.or
    (Within.or (Within.or (Within.or (Within.or (Within.or ?_ (hpkey _)) ?_) ?_) ?_) ?_) ?_
  · exact ((within_trans (show _ &&& _ = _ by decide)).or
      (within_trans (show _ &&& _ = _ by decide))).or (within_trans (show _ &&& _ = _ by decide))
  · exact ((within_trans (show _ &&& _ = _ by decide)).or
      (within_trans (show _ &&& _ = _ by decide))).or (within_trans (show _ &&& _ = _ by decide))
  · exact within_defFlags mm (show _ &&& _ = _ by decide)
  all_goals exact (show _ &&& _ = _ by decide)

structure TypeOk (prot flags : Bits) (a : VmFlags) : Prop where
  within : Within a VM_MAP_MASK
  writable : a.has VM_SHARED = false → a.has VM_WRITE = true →
    prot.has PROT_WRITE = true ∧ flags &&& MAP_TYPE = MAP_PRIVATE

theorem has_and {a b m : VmFlags} (hb : b &&& m = m) : (a &&& b).has m = a.has m := by
  rw [VmFlags.has, and_and_of_sub hb, VmFlags.has]

theorem typeOk_shared {prot flags : Bits} {a : VmFlags} (ha : Within a VM_MAP_MASK) :
    TypeOk prot flags (a ||| VM_SHARED ||| VM_MAYSHARE) := by
  have hbit : (a ||| VM_SHARED ||| VM_MAYSHARE).has VM_SHARED = true := by
    rw [has_or_of_disjoint (by decide)]
    exact has_or_self (by decide)
  refine ⟨(ha.or (show _ &&& _ = _ by decide)).or (show _ &&& _ = _ by decide), fun hno => ?_⟩
  rw [hbit] at hno
  exact absurd hno (by simp)

def TypeResult (prot flags : Bits) (r : Except ℤ VmFlags) : Prop :=
  match r with
  | .error e => IsErr e
  | .ok a => TypeOk prot flags a

theorem shareFlags_spec {i : FileInfo} {prot flags : Bits} {a : VmFlags} (ha : Within a VM_MAP_MASK)
    (hw : a.has VM_WRITE = prot.has PROT_WRITE) :
    TypeResult prot flags (shareFlags i prot flags a) := by
  unfold shareFlags
  split
  · split
    · exact ⟨by decide, by decide⟩
    split
    · exact ⟨by decide, by decide⟩
    split
    · exact ⟨by decide, by decide⟩
    split
    · exact typeOk_shared ha
    next hp _ _ hro =>
      -- a shared mapping of a read-only file is not writable
      have hs : TypeOk prot flags (a ||| VM_SHARED ||| VM_MAYSHARE) := typeOk_shared ha
      refine ⟨hs.within.and _, fun _ hwr => ?_⟩
      rw [has_and (by decide), has_or_of_disjoint (by decide), has_or_of_disjoint (by decide), hw]
        at hwr
      exact absurd ⟨hwr, by simpa using hro⟩ hp
  · split
    next hp => exact ⟨ha, fun _ hwr => ⟨hw ▸ hwr, hp⟩⟩
    next => exact ⟨by decide, by decide⟩

theorem fileFlags_spec {i : FileInfo} {prot flags : Bits} {a : VmFlags} (ha : Within a VM_MAP_MASK)
    (hw : a.has VM_WRITE = prot.has PROT_WRITE) :
    TypeResult prot flags (fileFlags i prot flags a) := by
  have hshare : TypeResult prot flags (shareFlags i prot flags a) := shareFlags_spec ha hw
  unfold fileFlags
  cases hs : shareFlags i prot flags a with
  | error e => rw [hs] at hshare; exact hshare
  | ok c =>
    rw [hs] at hshare
    have hc : TypeOk prot flags c := hshare
    dsimp only
    split
    · exact ⟨by decide, by decide⟩
    split
    · exact ⟨by decide, by decide⟩
    split
    · exact ⟨by decide, by decide⟩
    split
    · exact ⟨by decide, by decide⟩
    split
    · refine ⟨hc.within.and _, fun hno hwr => ?_⟩
      rw [has_and (by decide)] at hno hwr
      exact hc.writable hno hwr
    · exact hc

/-- The checks of the type of a mapping. -/
theorem typeFlags_spec {file : Option FileId} {prot flags : Bits} {a : VmFlags} {pgoff : BitVec 64}
    (ha : Within a VM_MAP_MASK) (hw : a.has VM_WRITE = prot.has PROT_WRITE) :
    TypeResult prot flags ((typeFlags env file prot flags a addr pgoff).map Prod.fst) := by
  cases file with
  | some f =>
    have hfile : TypeResult prot flags (fileFlags (env.file f) prot flags a) := fileFlags_spec ha hw
    unfold typeFlags
    dsimp only
    cases hf : fileFlags (env.file f) prot flags a <;> rw [hf] at hfile <;> exact hfile
  | none =>
    unfold typeFlags anonFlags
    dsimp only
    split
    · split
      · exact ⟨by decide, by decide⟩
      · exact typeOk_shared ha
    · split
      next hp => exact ⟨ha, fun _ hwr => ⟨hw ▸ hwr, hp⟩⟩
      next => exact ⟨by decide, by decide⟩

theorem within_reserveFlags {file : Option FileId} {flags : Bits} {a : VmFlags}
    (ha : Within a VM_MAP_MASK) :
    Within (reserveFlags env file flags a) VM_MAP_MASK := by
  unfold reserveFlags
  split
  · exact ha.or (show _ &&& _ = _ by decide)
  · exact ha

/-! The address of a mapping. -/

theorem IsErr.offset {r : ℤ} (h : IsErr r) : r % 4096 ≠ 0 := by
  unfold IsErr at h
  omega

theorem outcome_isErr (h : s.outcome.1 ≠ 0) : IsErr s.outcome.1 := by
  unfold MmSys.outcome at h ⊢
  split at h
  next => exact absurd rfl h
  next e es heq =>
    have hlt := e.isLt
    have hne : e.val ≠ 0 := fun h0 => h (by simp [h0])
    unfold IsErr
    dsimp only
    omega

theorem exceptArea_err (r : Except (Fin 4095) ℕ) (h : exceptArea r < 0) : IsErr (exceptArea r) := by
  cases r with
  | ok a => exact absurd h (by simp [exceptArea])
  | error e =>
    have hlt := e.isLt
    unfold IsErr exceptArea
    dsimp only
    omega

theorem areaResult_cases (r : Option ℕ) : areaResult r = -ENOMEM ∨ ∃ a : ℕ, areaResult r = a := by
  cases r with
  | none => exact .inl rfl
  | some a => exact .inr ⟨a, rfl⟩

theorem archArea_cases (env : MmEnv) (mm : Mm) (topdown : Bool) (addr len : ℕ) (flags : Bits) :
    archArea env mm topdown addr len flags = -ENOMEM ∨ ∃ a : ℕ,
      archArea env mm topdown addr len flags = a := by
  unfold archArea archGetUnmappedAreaTopdown archGetUnmappedArea
  split_ifs
  all_goals first
    | exact .inl rfl
    | exact .inr ⟨_, rfl⟩
    | exact areaResult_cases _

theorem archArea_err {topdown : Bool} {flags : Bits}
    (h : archArea env mm topdown addr len flags < 0) :
    IsErr (archArea env mm topdown addr len flags) := by
  rcases archArea_cases env mm topdown addr len flags with he | ⟨a, ha⟩
  · rw [he]
    exact ⟨by decide, by decide⟩
  · rw [ha] at h
    exact absurd h (by omega)

theorem archArea_fixed {topdown : Bool} (h : 0 ≤ archArea env mm topdown addr len MAP_FIXED) :
    archArea env mm topdown addr len MAP_FIXED = addr := by
  have hfixed : VmFlags.has MAP_FIXED MAP_FIXED = true := by decide
  have hnomem : ¬0 ≤ -ENOMEM := by decide
  unfold archArea archGetUnmappedAreaTopdown archGetUnmappedArea at h ⊢
  simp only [hfixed, if_true] at h ⊢
  split_ifs at h ⊢
  all_goals first
    | rfl
    | exact absurd h hnomem

theorem getArea_err {topdown : Bool} {file : Option FileId} {pgoff : BitVec 64} {flags : Bits}
    (h : getArea env mm topdown file addr len pgoff flags < 0) :
    IsErr (getArea env mm topdown file addr len pgoff flags) := by
  unfold getArea at h ⊢
  cases file with
  | some f =>
    dsimp only at h ⊢
    cases hg : (env.file f).getArea with
    | some g => rw [hg] at h; exact exceptArea_err _ h
    | none => rw [hg] at h; exact archArea_err h
  | none =>
    dsimp only at h ⊢
    split at h
    next hc => rw [if_pos hc]; exact exceptArea_err _ h
    next hc => rw [if_neg hc]; exact archArea_err h

/-- The address search fails, or gives the address of a range that the task can have. -/
theorem unmappedAreaOf_spec (env : MmEnv) (s : MmSys) (topdown : Bool) (file : Option FileId)
    (addr len : ℕ) (pgoff : BitVec 64) (flags : Bits) :
    let r := unmappedAreaOf env s topdown file addr len pgoff flags
    Quiet s r.2 ∧ r.2.mm = s.mm ∧
      (IsErr r.1 ∨ r.1 = getArea env s.mm topdown file addr len pgoff flags ∧
      0 ≤ r.1 ∧ r.1+len ≤ TASK_SIZE ∧ r.1 % 4096 = 0) := by
  have hmm : s.outcome.2.mm = s.mm := by
    unfold MmSys.outcome
    split <;> rfl
  dsimp only
  unfold unmappedAreaOf
  split
  next =>
    exact ⟨Quiet.refl s, rfl, .inl ⟨show -4096 < -ENOMEM by decide, show -ENOMEM < 0 by decide⟩⟩
  next hlen =>
    dsimp only
    split
    next hneg => exact ⟨Quiet.refl s, rfl, .inl (getArea_err hneg)⟩
    next hneg =>
      split
      next =>
        exact ⟨Quiet.refl s, rfl, .inl ⟨show -4096 < -ENOMEM by decide, show -ENOMEM < 0 by decide⟩⟩
      next hle =>
        split
        next =>
          exact ⟨Quiet.refl s, rfl,
            .inl ⟨show -4096 < -EINVAL by decide, show -EINVAL < 0 by decide⟩⟩
        next hoff =>
          split
          next hsec => exact ⟨outcome_quiet s, hmm, .inl (outcome_isErr hsec)⟩
          next hsec =>
            refine ⟨outcome_quiet s, hmm, .inr ⟨rfl, not_lt.1 hneg, ?_, not_not.1 hoff⟩⟩
            dsimp only
            push_cast [Nat.cast_sub (not_lt.1 hlen)] at hle
            omega

theorem unmappedAreaOf_found {a : ℕ} {topdown : Bool} {file : Option FileId} {pgoff : BitVec 64}
    {flags : Bits} (ha : getArea env s.mm topdown file addr len pgoff flags = a) (hd : 4096 ∣ a)
    (hle : a+len ≤ TASK_SIZE) (hsec : s.outcome.1 = 0) :
    unmappedAreaOf env s topdown file addr len pgoff flags = ((a : ℤ), s.outcome.2) := by
  unfold unmappedAreaOf
  dsimp only
  rw [if_neg (by omega), ha, if_neg (by omega), if_neg (by omega), if_neg (by omega),
    if_neg (not_not.2 hsec)]

/-! Charged mappings, seen from the request. -/

def chargeable (env : MmEnv) (file : Option FileId) (prot flags : Bits) : Bool :=
  prot.has PROT_WRITE && flags &&& MAP_TYPE == MAP_PRIVATE &&
    !(flags.has MAP_NORESERVE && !env.conf.overcommitNever) &&
    !(file.any fun f => (env.file f).hugepages)

def MmapOk (env : MmEnv) (file : Option FileId) (prot flags : Bits) : Prop :=
  ∀ f, file = some f → ((env.file f).mmapErr = 0 ∨ chargeable env file prot flags = false) ∧
    ∀ vmFlags, ((env.file f).mmapFlags vmFlags).has VM_ACCOUNT = vmFlags.has VM_ACCOUNT

theorem has_or (a b m : VmFlags) : (a ||| b).has m = (a.has m || b.has m) := by
  have hdist : (a ||| b) &&& m = (a &&& m) ||| (b &&& m) := by
    rw [BitVec.and_comm, BitVec.and_or_distrib_left, BitVec.and_comm m a, BitVec.and_comm m b]
  rw [VmFlags.has, hdist, Bool.eq_iff_iff, Bool.or_eq_true, VmFlags.has, VmFlags.has, bne_iff_ne,
    bne_iff_ne, bne_iff_ne, ← not_and_or, not_iff_not]
  exact BitVec.or_eq_zero_iff

theorem has_calcVmTrans (x bit1 bit2 m : Bits) :
    VmFlags.has (calcVmTrans x bit1 bit2) m = (x.has bit1 && VmFlags.has bit2 m) := by
  unfold calcVmTrans
  cases x.has bit1
  · exact congrArg (· != 0) BitVec.zero_and
  · rfl

/-- The bits of the flags of a request, those of protection keys and of `def_flags` aside. -/
theorem baseFlags_has (env : MmEnv) (mm : Mm) (prot flags : Bits) {m : VmFlags}
    (hdef : VM_DEF_MASK &&& m = 0#64) (hkey : ARCH_VM_PKEY_FLAGS &&& m = 0#64) :
    (baseFlags env mm prot flags).has m =
      (prot.has PROT_READ && VmFlags.has VM_READ m || prot.has PROT_WRITE &&
        VmFlags.has VM_WRITE m ||
        prot.has PROT_EXEC && VmFlags.has VM_EXEC m || flags.has MAP_GROWSDOWN &&
          VmFlags.has VM_GROWSDOWN m ||
        flags.has MAP_DENYWRITE && VmFlags.has VM_DENYWRITE m || flags.has MAP_LOCKED &&
          VmFlags.has VM_LOCKED m ||
        VmFlags.has (VM_MAYREAD ||| VM_MAYWRITE ||| VM_MAYEXEC) m) := by
  have hkeys : ∀ b : VmFlags, (b &&& ARCH_VM_PKEY_FLAGS).has m = false := fun b => by
    rw [VmFlags.has, BitVec.and_assoc, hkey, BitVec.and_zero]
    rfl
  have hdefs : mm.defFlags.has m = false :=
    (within_defFlags mm (show _ &&& _ = _ by decide)).has hdef
  simp only [baseFlags, calcVmProtBits, calcVmFlagBits, has_or, has_calcVmTrans, hkeys, hdefs,
    Bool.or_false, Bool.or_assoc]

theorem baseFlags_write (env : MmEnv) (mm : Mm) (prot flags : Bits) :
    (baseFlags env mm prot flags).has VM_WRITE = prot.has PROT_WRITE := by
  rw [baseFlags_has env mm prot flags (by decide) (by decide)]
  simp [VmFlags.has, VM_READ, VM_WRITE, VM_EXEC, VM_GROWSDOWN, VM_DENYWRITE, VM_LOCKED, VM_MAYREAD,
    VM_MAYWRITE, VM_MAYEXEC]

/-- A mapping that is charged was asked for as one. -/
theorem chargeable_of_accountable {file : Option FileId} {prot flags : Bits} {a : VmFlags}
    (h : TypeOk prot flags a)
    (hacc : accountableMapping env file (reserveFlags env file flags a) = true) :
    chargeable env file prot flags = true := by
  set b := reserveFlags env file flags a with hb
  obtain ⟨hhuge, hbits⟩ := Bool.and_eq_true_iff.1 hacc
  rw [beq_iff_eq] at hbits
  have hand : ∀ m, (VM_NORESERVE ||| VM_SHARED ||| VM_WRITE) &&& m = m →
      b.has m = VmFlags.has VM_WRITE m :=
    fun m hm => by rw [VmFlags.has, ← and_and_of_sub hm, hbits, VmFlags.has]
  have hreserve : b.has VM_NORESERVE = false := (hand _ (by decide)).trans (by decide)
  have hno : ¬(flags.has MAP_NORESERVE ∧
      (env.conf.overcommitNever = false ∨ file.any fun f => (env.file f).hugepages)) := fun hc => by
    rw [hb, reserveFlags, if_pos hc, has_or_self (by decide)] at hreserve
    exact absurd hreserve (by simp)
  have hba : b = a := by rw [hb, reserveFlags, if_neg hno]
  obtain ⟨hp, ht⟩ := h.writable (hba ▸ (hand _ (by decide)).trans (by decide))
    (hba ▸ (hand _ (by decide)).trans (by decide))
  have hnores : (flags.has MAP_NORESERVE && !env.conf.overcommitNever) = false := by
    by_contra hc
    rw [Bool.not_eq_false, Bool.and_eq_true, Bool.not_eq_true'] at hc
    exact hno ⟨hc.1, .inl hc.2⟩
  rw [chargeable, hp, hnores, hhuge, ht]
  decide

/-! The whole of `mmap`. -/

theorem regionOk_of {file : Option FileId} {prot flags : Bits} {a : VmFlags} {pgoff : BitVec 64}
    (h : TypeOk prot flags a) (hok : MmapOk env file prot flags) :
    RegionOk env ⟨addr, addr+len, reserveFlags env file flags a, none, file, pgoff, 0, 0⟩ := by
  intro f hf
  refine ⟨(hok f hf).1.imp_right fun hno => ?_, (hok f hf).2⟩
  by_contra hacc
  rw [Bool.not_eq_false] at hacc
  rw [chargeable_of_accountable h hacc] at hno
  exact absurd hno (by simp)

theorem mapAt_spec (rb : Balance VmaId) (env : MmEnv) (file : Option FileId) (prot flags : Bits)
    (pgoff : BitVec 64) (h : Wf s.mm L) (hr : RangeOk addr (addr+len)) :
    let r := mapAt rb env s file addr len prot flags pgoff
    ∃ c, (Fails s L r c ∨ Replaces s L addr (addr+len) r c) ∧
      (MmapOk env file prot flags → c = 0) := by
  dsimp only
  have htype : TypeResult prot flags
      ((typeFlags env file prot flags (baseFlags env s.mm prot flags) addr pgoff).map Prod.fst) :=
    typeFlags_spec (within_baseFlags env s.mm prot flags) (baseFlags_write env s.mm prot flags)
  unfold mapAt
  dsimp only
  split
  next => exact ⟨0, .inl ((Same.refl h).fails (show -EPERM < 0 by decide)), fun _ => rfl⟩
  split
  next => exact ⟨0, .inl ((Same.refl h).fails (show -EAGAIN < 0 by decide)), fun _ => rfl⟩
  split
  next e he =>
    rw [he] at htype
    exact ⟨0, .inl ((Same.refl h).fails htype.2), fun _ => rfl⟩
  next a pgoff' he =>
    rw [he] at htype
    have hok : TypeOk prot flags a := htype
    have hwithin : Within (reserveFlags env file flags a) VM_MAP_MASK :=
      within_reserveFlags hok.within
    obtain ⟨c, hres, hc⟩ :=
      mmapTaskRegion_spec rb env file (reserveFlags env file flags a) pgoff' h hr
      (hwithin.has (by decide)) (hwithin.has (by decide))
    exact ⟨c, hres, fun hm => hc (regionOk_of hok hm)⟩

def MmapResult (env : MmEnv) (s : MmSys) (L : List VmaId) (file : Option FileId) (addr len : ℕ)
    (flags : Bits) (pgoff : BitVec 64) (r : ℤ × MmSys) (c : ℤ) : Prop :=
  Fails s L r c ∨ ∃ start : ℕ,
    (start : ℤ) = getArea env s.mm s.mm.topdown file (mapHint env flags addr) (pageAlign len)
    pgoff flags ∧ RangeOk start (start+pageAlign len) ∧ start+pageAlign len ≤ TASK_SIZE ∧
    Replaces s L start (start+pageAlign len) r c

theorem chargeable_implied (file : Option FileId) (prot flags : Bits) :
    chargeable env file (impliedProt env file prot) flags = chargeable env file prot flags := by
  have hwrite : (impliedProt env file prot).has PROT_WRITE = prot.has PROT_WRITE := by
    unfold impliedProt
    split
    · exact has_or_of_disjoint (by decide)
    · rfl
  rw [chargeable, hwrite, chargeable]

theorem doTaskMmap_spec (rb : Balance VmaId) (env : MmEnv) (file : Option FileId) (addr len : ℕ)
    (prot flags : Bits) (pgoff : BitVec 64) (h : Wf s.mm L) :
    let r := doTaskMmap rb env s file addr len prot flags pgoff
    ∃ c, MmapResult env s L file addr len flags pgoff r c ∧
      (MmapOk env file prot flags → c = 0) := by
  have hfail : ∀ e : ℤ, e < 0 → ∃ c, MmapResult env s L file addr len flags pgoff (e, s) c ∧
      (MmapOk env file prot flags → c = 0) :=
    fun e he => ⟨0, .inl ((Same.refl h).fails he), fun _ => rfl⟩
  dsimp only
  unfold doTaskMmap
  dsimp only
  split
  next => exact hfail _ (by decide)
  split
  next => exact hfail _ (by decide)
  split
  next => exact hfail _ (by decide)
  split
  next => exact hfail _ (by decide)
  next hlen _ _ =>
    obtain ⟨hquiet, hmm, hres⟩ :=
      unmappedAreaOf_spec env s s.mm.topdown file (mapHint env flags addr)
        (pageAlign len) pgoff flags
    have hsame := hquiet.same h
    rw [getTaskUnmappedArea]
    set area :=
      unmappedAreaOf env s s.mm.topdown file (mapHint env flags addr) (pageAlign len) pgoff flags
    split
    next hoff =>
      rcases hres with herr | ⟨-, -, -, hok⟩
      · exact ⟨0, .inl (hsame.fails herr.2), fun _ => rfl⟩
      · exact absurd hok hoff
    next hoff =>
      rcases hres with herr | ⟨heq, hpos, hle, hok⟩
      · exact absurd (not_not.1 hoff) herr.offset
      · have hstart : (area.1.toNat : ℤ) = area.1 := Int.toNat_of_nonneg hpos
        have hr : RangeOk area.1.toNat (area.1.toNat+pageAlign len) := by
          have hd := pageAlign_dvd len
          have ht : TASK_SIZE < 2^64 := by decide
          exact ⟨by omega, by omega, by omega, by omega⟩
        obtain ⟨c, hmap, hc⟩ :=
          mapAt_spec rb env file (impliedProt env file prot) flags pgoff hsame.wf hr
        refine ⟨c, ?_, fun hm => hc fun f hf => ?_⟩
        · rcases hmap with hmap | hmap
          · exact .inl (hsame.then_fails hmap)
          · exact .inr ⟨area.1.toNat, hstart.trans heq, hr, by omega, hsame.then_replaces hmap⟩
        · rw [chargeable_implied]
          exact hm f hf

theorem outcome_mm (s : MmSys) : s.outcome.2.mm = s.mm := by
  unfold MmSys.outcome
  split <;> rfl

/-- A mapping made from a state with the same areas, by a call that ends in another state. -/
theorem MmapResult.imp {file : Option FileId} {flags : Bits} {pgoff : BitVec 64} {r r' : ℤ × MmSys}
    {c : ℤ} (h : MmapResult env s' L file addr len flags pgoff r c) (hmm : s'.mm = s.mm)
    (hret : r'.1 = r.1)
    (hd : ∀ L' P, Does (LockExact s' L) s' L r.2 L' P c → Does (LockExact s L) s L r'.2 L' P c) :
    MmapResult env s L file addr len flags pgoff r' c := by
  rcases h with ⟨hneg, L', hdoes⟩ | ⟨start, hstart, hr, htask, hrep⟩
  · rw [hmm] at hdoes
    exact .inl ⟨hret ▸ hneg, L', hd L' _ hdoes⟩
  · rw [hmm] at hstart
    refine .inr ⟨start, hstart, hr, htask, ?_⟩
    rcases hrep with ⟨hneg, L', hdoes⟩ | ⟨haddr, L', file', pgoff', flags', hdoes⟩
    · rw [hmm] at hdoes
      exact .inl ⟨hret ▸ hneg, L', hd L' _ hdoes⟩
    · rw [hmm] at hdoes
      exact .inr ⟨hret ▸ haddr, L', file', pgoff', flags', hd L' _ hdoes⟩

theorem vmMmapPgoff_spec (rb : Balance VmaId) (env : MmEnv) (file : Option FileId) (addr len : ℕ)
    (prot flags : Bits) (pgoff : BitVec 64) (h : Wf s.mm L) :
    let r := vmMmapPgoff rb env s file addr len prot flags pgoff
    ∃ c, MmapResult env s L file addr len flags pgoff r c ∧
      (MmapOk env file prot flags → c = 0) := by
  dsimp only
  unfold vmMmapPgoff
  dsimp only
  have hq₁ := outcome_quiet s
  split
  next hsec => exact ⟨0, .inl ((hq₁.same h).fails (outcome_isErr hsec).2), fun _ => rfl⟩
  next =>
    have hq₂ := hq₁.trans (outcome_quiet s.outcome.2)
    split
    next => exact ⟨0, .inl ((hq₂.same h).fails (show -EINTR < 0 by decide)), fun _ => rfl⟩
    next =>
      obtain ⟨c, hres, hc⟩ := doTaskMmap_spec rb env file addr len prot flags pgoff (hq₂.wf h)
      have hmm : s.outcome.2.outcome.2.mm = s.mm := (outcome_mm _).trans (outcome_mm s)
      exact ⟨c, hres.imp hmm rfl fun L' P hd => (hq₂.same h).then_does hd, hc⟩

theorem vmMmapRemote_spec (rb : Balance VmaId) (env : MmEnv) (file : Option FileId) (addr len : ℕ)
    (prot flags : Bits) (offset : ℕ) (h : Wf s.mm L) :
    let r := vmMmapRemote rb env s file addr len prot flags offset
    ∃ c, MmapResult env s L file addr len flags (BitVec.ofNat 64 (offset/4096)) r c ∧
      (MmapOk env file prot flags → c = 0) := by
  dsimp only
  unfold vmMmapRemote
  split
  next => exact ⟨0, .inl ((Same.refl h).fails (show -EINVAL < 0 by decide)), fun _ => rfl⟩
  split
  next => exact ⟨0, .inl ((Same.refl h).fails (show -EINVAL < 0 by decide)), fun _ => rfl⟩
  exact vmMmapPgoff_spec rb env file addr len prot flags _ h

/-- The reference to a file that a call borrows. -/
theorem Does.borrow {f : Option FileId} {P : Pages} {c : ℤ}
    (h : Does (LockExact (s.getFile f) L) (s.getFile f) L s' L' P c) :
    Does (LockExact s L) s L (s'.fput f) L' P c := by
  have hget : ledger (s.getFile f) L = ledger s L + refVec f 1 := by
    have hc : counters (s.getFile f) = counters s - refVec f (-1) :=
      counters_dropRefs (by rw [getFile_mm]) (getFile_fCount _ _) (getFile_committed _ _)
    rw [ledger, hc, getFile_mm, refVec_neg, ledger]
    abel
  have hput : ledger (s'.fput f) L' = ledger s' L' - refVec f 1 := by
    rw [ledger, counters_fput, fput_mm, ledger]
    abel
  have hlock : LockExact s L → LockExact (s.getFile f) L := fun hl => by
    rw [LockExact, hget]
    exact (add_zero _).trans hl
  obtain ⟨d, he, hd⟩ := h.kept
  refine ⟨by rw [fput_mm]; exact h.wf, by rw [fput_mm]; exact h.pages,
    ⟨d, ?_, fun hl => hd (hlock hl)⟩, ?_⟩
  · rw [hput, he, hget]
    abel
  · rw [fput_mm, h.fixed, getFile_mm]

def mmapFile (env : MmEnv) (file : Option FileId) (flags : Bits) : Option FileId :=
  if flags.has MAP_ANONYMOUS = false then file else if flags.has MAP_HUGETLB then
    some env.hugetlbFile else none

def mmapLen (env : MmEnv) (file : Option FileId) (flags : Bits) (len : ℕ) : ℕ :=
  if flags.has MAP_ANONYMOUS = false then
    if file.any fun f => (env.file f).hugepages then
      alignUp len (file.elim 0 fun f => (env.file f).hugeSize) else len
  else if flags.has MAP_HUGETLB then alignUp len (env.hugetlbSize.getD 0) else len

def keptFlags (flags : Bits) : Bits := flags &&& ~~~(MAP_EXECUTABLE ||| MAP_DENYWRITE)

theorem withMmapFile_spec {file : Option FileId} {flags : Bits} {prot : Bits} {pgoff : BitVec 64}
    {map : MmSys → Option FileId → ℕ → Bits → ℤ × MmSys} (h : Wf s.mm L)
    (hmap : ∀ t file' len' flags', Wf t.mm L → ∃ c, MmapResult env t L file' addr len' flags' pgoff
      (map t file' len' flags') c ∧ (MmapOk env file' prot flags' → c = 0)) :
    ∃ c, MmapResult env s L (mmapFile env file flags) addr (mmapLen env file flags len)
      (keptFlags flags) pgoff
      (withMmapFile env s file len flags map) c ∧
        (MmapOk env (mmapFile env file flags) prot (keptFlags flags) → c = 0) := by
  have hborrow : ∀ t f len', Same s t L → t.mm = s.mm → ∃ c,
      MmapResult env s L (some f) addr len' (keptFlags flags) pgoff
        ((map (t.getFile (some f)) (some f) len' (keptFlags flags)).1,
          (map (t.getFile (some f)) (some f) len' (keptFlags flags)).2.fput (some f)) c ∧
        (MmapOk env (some f) prot (keptFlags flags) → c = 0) := by
    intro t f len' hsame hmm
    obtain ⟨c, hres, hc⟩ := hmap (t.getFile (some f)) (some f) len' (keptFlags flags) hsame.wf
    exact ⟨c, hres.imp hmm rfl fun L' P hd => hsame.then_does hd.borrow, hc⟩
  unfold withMmapFile mmapFile mmapLen
  dsimp only
  split
  next hanon =>
    cases file with
    | none => exact ⟨0, .inl ((Same.refl h).fails (show -EBADF < 0 by decide)), fun _ => rfl⟩
    | some f =>
      by_cases hhuge : flags.has MAP_HUGETLB ∧ (env.file f).hugepages = false
      · have hput : (s.getFile (some f)).fput (some f) = s := by simp [MmSys.getFile, MmSys.fput]
        dsimp only
        rw [if_pos hhuge]
        dsimp only
        rw [hput]
        exact ⟨0, .inl ((Same.refl h).fails (show -EINVAL < 0 by decide)), fun _ => rfl⟩
      · dsimp only
        rw [if_neg hhuge]
        exact hborrow s f _ (Same.refl h) rfl
  next hanon =>
    split
    next =>
      cases hsize : env.hugetlbSize with
      | none => exact ⟨0, .inl ((Same.refl h).fails (show -EINVAL < 0 by decide)), fun _ => rfl⟩
      | some size =>
        dsimp only
        have hsame := (outcome_quiet s).same h
        split
        next hsetup => exact ⟨0, .inl (hsame.fails (outcome_isErr hsetup).2), fun _ => rfl⟩
        next => exact hborrow s.outcome.2 env.hugetlbFile _ hsame (outcome_mm s)
    next => exact hmap s none len (keptFlags flags) h

theorem doMmapRemote_spec (rb : Balance VmaId) (env : MmEnv) (file : Option FileId) (addr len : ℕ)
    (prot flags : Bits) (offset : ℕ) (h : Wf s.mm L) :
    ∃ c, MmapResult env s L (mmapFile env file flags) addr (mmapLen env file flags len)
      (keptFlags flags)
      (BitVec.ofNat 64 (offset/4096)) (doMmapRemote rb env s file addr len prot flags offset) c ∧
      (MmapOk env (mmapFile env file flags) prot (keptFlags flags) → c = 0) :=
  withMmapFile_spec h fun _ file' len' flags' ht =>
    vmMmapRemote_spec rb env file' addr len' prot flags' offset ht

theorem mmapPgoff_spec (rb : Balance VmaId) (env : MmEnv) (file : Option FileId) (addr len : ℕ)
    (prot flags : Bits) (pgoff : BitVec 64) (h : Wf s.mm L) :
    ∃ c, MmapResult env s L (mmapFile env file flags) addr (mmapLen env file flags len)
      (keptFlags flags) pgoff (mmapPgoff rb env s file addr len prot flags pgoff) c ∧
      (MmapOk env (mmapFile env file flags) prot (keptFlags flags) → c = 0) :=
  withMmapFile_spec h fun _ file' len' flags' ht =>
    vmMmapPgoff_spec rb env file' addr len' prot flags' pgoff ht

/-- The end of the mapping, in bytes of the file, does not wrap. -/
def OffsetOk (env : MmEnv) (file : Option FileId) (len : ℕ) (flags : Bits) (offset : ℕ) : Prop :=
  offset ≤ wadd offset (pageAlign (mmapLen env file flags len))

instance (env : MmEnv) (file : Option FileId) (len : ℕ) (flags : Bits) (offset : ℕ) :
    Decidable (OffsetOk env file len flags offset) :=
  inferInstanceAs (Decidable (_ ≤ _))

end PtraceRemote
