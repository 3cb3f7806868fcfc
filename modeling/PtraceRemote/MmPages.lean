import PtraceRemote.MmMerge

/-! Sums over the pages of an address space. A weight may depend on the page and on what it shows;
an equation that holds for every weight says that two lists of areas show the same pages. -/
namespace PtraceRemote

structure PageInfo where
  file : Option FileId
  pgoff : BitVec 64
  flags : VmFlags
  deriving DecidableEq

section Sums

variable {M : Type*} [AddCommMonoid M]

def blockSum (φ : ℕ → PageInfo → M) (start end_ : ℕ) (file : Option FileId) (pgoff : BitVec 64)
    (flags : VmFlags) : M :=
  ∑ k ∈ Finset.range ((end_-start)/4096),
    φ (start/4096+k) ⟨file, pgoff+BitVec.ofNat 64 k, cleanFlags flags⟩

def Vma.weight (φ : ℕ → PageInfo → M) (v : Vma) : M :=
  blockSum φ v.vmStart v.vmEnd v.vmFile v.vmPgoff v.vmFlags

def MergeReq.weight (φ : ℕ → PageInfo → M) (q : MergeReq) : M :=
  blockSum φ q.addr q.end_ q.file q.pgoff q.vmFlags

def total (φ : ℕ → PageInfo → M) (core : VmaId → Vma) (L : List VmaId) : M :=
  (L.map fun x => (core x).weight φ).sum

variable {φ : ℕ → PageInfo → M} {core core' : VmaId → Vma} {L A B : List VmaId} {x n : VmaId}

theorem blockSum_split {start mid end_ : ℕ} {file : Option FileId} {pgoff : BitVec 64}
    {flags : VmFlags} (h₁ : start ≤ mid) (h₂ : mid ≤ end_) (hs : 4096 ∣ start) (hm : 4096 ∣ mid)
    (he : 4096 ∣ end_) :
    blockSum φ start end_ file pgoff flags = blockSum φ start mid file pgoff flags +
      blockSum φ mid end_ file (pgoff+BitVec.ofNat 64 ((mid-start)/4096)) flags := by
  have hlen : (end_-start)/4096 = (mid-start)/4096+(end_-mid)/4096 := by omega
  rw [blockSum, hlen, Finset.sum_range_add, blockSum, blockSum]
  congr 1
  refine Finset.sum_congr rfl fun k _ => ?_
  rw [show start/4096+((mid-start)/4096+k) = mid/4096+k by omega, BitVec.ofNat_add,
    BitVec.add_assoc]

theorem blockSum_congr {start end_ : ℕ} {file : Option FileId} {pgoff : BitVec 64}
    {flags flags' : VmFlags} (h : cleanFlags flags = cleanFlags flags') :
    blockSum φ start end_ file pgoff flags = blockSum φ start end_ file pgoff flags' := by
  rw [blockSum, blockSum, h]

theorem total_nil : total φ core [] = 0 := rfl

theorem total_append : total φ core (A ++ B) = total φ core A + total φ core B := by
  simp [total]

theorem total_cons : total φ core (x :: B) = (core x).weight φ + total φ core B := by
  simp [total]

theorem total_congr (h : ∀ y ∈ L, core' y = core y) : total φ core' L = total φ core L := by
  unfold total
  rw [List.map_congr_left fun y hy => by rw [h y hy]]

theorem total_update (hx : x ∉ A ∧ x ∉ B) (v : Vma) :
    total φ (Function.update core x v) (A ++ x :: B) =
      total φ core A + (v.weight φ + total φ core B) := by
  have hA : total φ (Function.update core x v) A = total φ core A :=
    total_congr fun y hy => Function.update_of_ne (fun he : y = x => hx.1 (he ▸ hy)) _ _
  have hB : total φ (Function.update core x v) B = total φ core B :=
    total_congr fun y hy => Function.update_of_ne (fun he : y = x => hx.2 (he ▸ hy)) _ _
  rw [total_append, total_cons, hA, hB, Function.update_self]

variable {q : MergeReq} {v : VmaId} {L' : List VmaId} {k : ℤ}

/-- An area that is extended over a request behind it. -/
theorem JoinsAfter.weight {w : Vma} (h : JoinsAfter w q) (hw : AreaOk w)
    (hr : RangeOk q.addr q.end_) :
    ({ w with vmEnd := q.end_ } : Vma).weight φ = w.weight φ + q.weight φ := by
  have hlt := h.at_addr ▸ hw.lt
  show blockSum φ w.vmStart q.end_ w.vmFile w.vmPgoff w.vmFlags = _
  rw [blockSum_split hlt.le hr.lt.le hw.start_dvd hr.start_dvd hr.end_dvd, Vma.weight,
    MergeReq.weight, h.at_addr, ← h.file, ← blockSum_congr h.flags, ← h.pgoff, Vma.pages, h.at_addr]

/-- An area that is extended over a request in front of it. -/
theorem JoinsBefore.weight {w : Vma} (h : JoinsBefore w q) (hw : AreaOk w)
    (hr : RangeOk q.addr q.end_) :
    ({ w with vmStart := q.addr, vmPgoff := w.vmPgoff-q.pglen } : Vma).weight φ =
      q.weight φ + w.weight φ := by
  have hle : q.end_ ≤ w.vmEnd := h.at_end ▸ hw.lt.le
  show blockSum φ q.addr w.vmEnd w.vmFile (w.vmPgoff-q.pglen) w.vmFlags = _
  rw [blockSum_split hr.lt.le hle hr.start_dvd hr.end_dvd hw.end_dvd, Vma.weight, MergeReq.weight,
    h.pgoff, BitVec.add_sub_cancel, ← h.at_end, ← h.file, ← blockSum_congr h.flags]
  rfl

/-- A request that reaches over the area behind it. -/
theorem JoinsBefore.reach {w : Vma} (h : JoinsBefore w q) (hw : AreaOk w)
    (hr : RangeOk q.addr q.end_) :
    ({ q with end_ := w.vmEnd } : MergeReq).weight φ = q.weight φ + w.weight φ := by
  have hle : q.end_ ≤ w.vmEnd := h.at_end ▸ hw.lt.le
  show blockSum φ q.addr w.vmEnd q.file q.pgoff q.vmFlags = _
  rw [blockSum_split hr.lt.le hle hr.start_dvd hr.end_dvd hw.end_dvd, Vma.weight, MergeReq.weight,
    h.pgoff, ← h.at_end, h.file, blockSum_congr h.flags]
  rfl

/-- An area that is extended over a request and the area behind it. -/
theorem JoinsAfter.weight_reach {w u : Vma} (h : JoinsAfter w q) (hu : JoinsBefore u q)
    (hw : AreaOk w) (hu' : AreaOk u) (hr : RangeOk q.addr q.end_) :
    ({ w with vmEnd := u.vmEnd } : Vma).weight φ = w.weight φ + (q.weight φ + u.weight φ) := by
  have hj : JoinsAfter w { q with end_ := u.vmEnd } := ⟨h.at_addr, h.file, h.flags, h.pgoff⟩
  have hle : q.addr < u.vmEnd := hr.lt.trans (hu.at_end ▸ hu'.lt)
  rw [← hu.reach hu' hr]
  exact hj.weight hw ⟨hle, hr.start_dvd, hu'.end_dvd, hu'.end_lt⟩

theorem FreeMerge.total (h : FreeMerge core q A B v L' core' k) (ho : Ordered core (A ++ B))
    (hnd : (A ++ B).Nodup) (hr : RangeOk q.addr q.end_) :
    total φ core' L' = total φ core (A ++ B) + q.weight φ := by
  cases h with
  | @after A' p hA hj =>
    subst hA
    simp only [List.append_assoc, List.singleton_append] at ho hnd ⊢
    rw [total_update (notMem_of_nodup hnd), hj.weight (ho.area v (by simp)) hr,
      total_append, total_cons]
    abel
  | @both A' B' p n hA hB hja hjb =>
    subst hA hB
    simp only [List.append_assoc, List.singleton_append] at ho hnd ⊢
    have hnot := notMem_of_nodup hnd
    rw [total_update ⟨hnot.1, fun h => hnot.2 (by simp [h])⟩,
      hja.weight_reach hjb (ho.area v (by simp)) (ho.area n (by simp)) hr, total_append, total_cons,
      total_cons]
    abel
  | @before B' n hB hj =>
    subst hB
    rw [total_update (notMem_of_nodup hnd), hj.weight (ho.area v (by simp)) hr,
      total_append, total_cons]
    abel

def Vma.part (φ : ℕ → PageInfo → M) (w : Vma) (start end_ : ℕ) : M :=
  blockSum φ start end_ w.vmFile (w.vmPgoff+BitVec.ofNat 64 ((start-w.vmStart)/4096)) w.vmFlags

theorem part_all (w : Vma) : w.part φ w.vmStart w.vmEnd = w.weight φ := by
  rw [Vma.part, Nat.sub_self, Nat.zero_div, BitVec.add_zero, Vma.weight]

theorem part_split {w : Vma} {mid : ℕ} (hw : AreaOk w) (h₁ : w.vmStart ≤ mid) (h₂ : mid ≤ w.vmEnd)
    (hm : 4096 ∣ mid) : w.weight φ = w.part φ w.vmStart mid + w.part φ mid w.vmEnd := by
  rw [Vma.weight, blockSum_split h₁ h₂ hw.start_dvd hm hw.end_dvd, Vma.part, Vma.part, Nat.sub_self,
    Nat.zero_div, BitVec.add_zero]

theorem total_shifted {e : ℕ} (hnd : (A ++ x :: n :: B).Nodup) :
    total φ (shifted core x n e) (A ++ x :: n :: B) = total φ core A +
      (({ core x with vmEnd := e } : Vma).weight φ + (({ core n with
        vmStart := e
        vmPgoff := (core n).vmPgoff+BitVec.ofInt 64 (((e : ℤ)-(core n).vmStart)/4096) } :
          Vma).weight φ +
        total φ core B)) := by
  have hx := notMem_of_nodup hnd
  have hnd' : ((A ++ [x]) ++ n :: B).Nodup := by simpa using hnd
  have hl : A ++ x :: n :: B = (A ++ [x]) ++ n :: B := by simp
  have hB : total φ (Function.update core x { core x with vmEnd := e }) B = total φ core B :=
    total_congr fun y hy => Function.update_of_ne (fun he : y = x => hx.2 (by simp [← he, hy])) _ _
  rw [hl, shifted, total_update (notMem_of_nodup hnd'), total_update ⟨hx.1, by simp⟩, hB]
  simp [total, add_assoc]

theorem InsideMerge.total (h : InsideMerge core q A x B v L' core' k)
    (ho : Ordered core (A ++ x :: B)) (hnd : (A ++ x :: B).Nodup) (hr : RangeOk q.addr q.end_) :
    total φ core' L' + (core x).part φ q.addr q.end_ = total φ core (A ++ x :: B) + q.weight φ := by
  have hx := ho.area x (by simp)
  have hxnot := notMem_of_nodup hnd
  cases h with
  | @case4 B' n hB hs he hj =>
    subst hB
    have hn := ho.area v (by simp)
    have hpages : ((q.addr : ℤ)-(core v).vmStart)/4096 = -(((q.end_-q.addr)/4096 : ℕ) : ℤ) := by
      have h₁ := hr.lt
      have h₂ := hr.start_dvd
      have h₃ := hr.end_dvd
      rw [← hj.at_end]
      omega
    have hpg : (core v).vmPgoff+BitVec.ofInt 64 (((q.addr : ℤ)-(core v).vmStart)/4096) =
        (core v).vmPgoff-q.pglen := by
      rw [hpages, BitVec.ofInt_neg, BitVec.ofInt_natCast, BitVec.sub_eq_add_neg]
      rfl
    have hxw : ({ core x with vmEnd := q.addr } : Vma).weight φ =
        (core x).part φ (core x).vmStart q.addr := by
      rw [Vma.part, Nat.sub_self, Nat.zero_div, BitVec.add_zero]
      rfl
    rw [total_shifted hnd, hpg, hj.weight hn hr, hxw, total_append, total_cons, total_cons,
      part_split hx hs.le (he ▸ hr.lt.le) hr.start_dvd, he]
    abel
  | @case5 A' p hA hs he hj =>
    subst hA
    simp only [List.append_assoc, List.singleton_append] at ho hnd ⊢
    have hpages :
        ((q.end_ : ℤ)-(core x).vmStart)/4096 = (((q.end_-(core x).vmStart)/4096 : ℕ) : ℤ) := by
      have h₁ := hr.lt
      omega
    have hxw : ({ core x with
        vmStart := q.end_
        vmPgoff := (core x).vmPgoff+BitVec.ofInt 64 (((q.end_ : ℤ)-(core x).vmStart)/4096) } :
          Vma).weight φ = (core x).part φ q.end_ (core x).vmEnd := by
      rw [hpages, BitVec.ofInt_natCast]
      rfl
    rw [total_shifted hnd, hj.weight (ho.area v (by simp)) hr, hxw, total_append,
      total_cons, total_cons, part_split hx (hs ▸ hr.lt.le) he.le hr.end_dvd, hs]
    abel
  | @case6 A' B' p n hA hB hs he hja hjb =>
    subst hA hB
    rw [hs, he, part_all]
    simp only [List.append_assoc, List.singleton_append] at ho hnd ⊢
    have hnot := notMem_of_nodup hnd
    rw [total_update ⟨hnot.1, fun h => hnot.2 (by simp [h])⟩,
      hja.weight_reach hjb (ho.area v (by simp)) (ho.area n (by simp)) hr, total_append, total_cons,
      total_cons, total_cons]
    abel
  | @case7 A' p hA hs he hj =>
    subst hA
    rw [hs, he, part_all, ← he]
    simp only [List.append_assoc, List.singleton_append] at ho hnd ⊢
    have hnot := notMem_of_nodup hnd
    rw [total_update ⟨hnot.1, fun h => hnot.2 (by simp [h])⟩, hj.weight (ho.area v (by simp)) hr,
      total_append, total_cons, total_cons]
    abel
  | @case8 B' n hB hs he hj =>
    subst hB
    have hnot : v ∉ A ∧ v ∉ B' := by
      have : ((A ++ [x]) ++ v :: B').Nodup := by simpa using hnd
      exact ⟨fun h => (notMem_of_nodup this).1 (by simp [h]), (notMem_of_nodup this).2⟩
    rw [total_update hnot, hj.weight (ho.area v (by simp)) hr, hs, he, part_all, total_append,
      total_cons, total_cons]
    abel

end Sums

def refs (f : FileId) (core : VmaId → Vma) (L : List VmaId) : ℤ :=
  (L.map fun x => if (core x).vmFile = some f then (1 : ℤ) else 0).sum

section Refs

variable {core core' : VmaId → Vma} {L A B : List VmaId} {x n v : VmaId} {f : FileId} {q : MergeReq}
  {L' : List VmaId} {k : ℤ}

theorem refs_append : refs f core (A ++ B) = refs f core A + refs f core B := by
  simp [refs]

theorem refs_cons :
    refs f core (x :: B) = (if (core x).vmFile = some f then 1 else 0) + refs f core B := by
  simp [refs]

theorem refs_congr (h : ∀ y ∈ L, (core' y).vmFile = (core y).vmFile) :
    refs f core' L = refs f core L := by
  unfold refs
  rw [List.map_congr_left fun y hy => by rw [h y hy]]

theorem refs_update {w : Vma} (hw : w.vmFile = (core x).vmFile) :
    refs f (Function.update core x w) L = refs f core L :=
  refs_congr fun y _ => by
    by_cases hy : y = x
    · rw [hy, Function.update_self, hw]
    · rw [Function.update_of_ne hy]

theorem refs_shifted {e : ℕ} (hxn : n ≠ x) : refs f (shifted core x n e) L = refs f core L := by
  refine (refs_update ?_).trans (refs_update ?_)
  · rw [Function.update_of_ne hxn]
  · rfl

def held (file : Option FileId) (f : FileId) (k : ℤ) : ℤ := if file = some f then k else 0

theorem dropRefs_eq (fCount : FileId → ℤ) (file : Option FileId) :
    dropRefs fCount file k f = fCount f - held file f k := by
  unfold dropRefs held
  split <;> simp

theorem FreeMerge.refs (h : FreeMerge core q A B v L' core' k) :
    refs f core' L' = refs f core (A ++ B) - held q.file f k := by
  cases h with
  | @after A' p hA hj =>
    rw [refs_update]
    · simp [held]
    · rfl
  | @both A' B' p n hA hB hja hjb =>
    refine (refs_update ?_).trans ?_
    · rfl
    rw [hB, refs_append, refs_append, refs_cons, hjb.file, held]
    split <;> ring
  | @before B' n hB hj =>
    rw [refs_update]
    · simp [held]
    · rfl

theorem InsideMerge.refs (h : InsideMerge core q A x B v L' core' k) (hnd : (A ++ x :: B).Nodup)
    (hf : (core x).vmFile = q.file) :
    refs f core' L' = refs f core (A ++ x :: B) - held q.file f k := by
  have hx := notMem_of_nodup hnd
  cases h with
  | @case4 B' n hB hs he hj =>
    rw [refs_shifted fun he : v = x => hx.2 (by simp [hB, he]), held]; simp
  | @case5 A' p hA hs he hj =>
    rw [refs_shifted fun he : x = v => hx.1 (by simp [hA, he]), held]; simp
  | @case6 A' B' p n hA hB hs he hja hjb =>
    refine (refs_update ?_).trans ?_
    · rfl
    rw [hB, refs_append, refs_append, refs_cons, refs_cons, hjb.file, hf, held]
    split <;> ring
  | @case7 A' p hA hs he hj =>
    refine (refs_update ?_).trans ?_
    · rfl
    rw [refs_append, refs_append, refs_cons, hf, held]
    split <;> ring
  | @case8 B' n hB hs he hj =>
    refine (refs_update ?_).trans ?_
    · rfl
    rw [hB, refs_append, refs_append, refs_cons (x := x), hf, held]
    split <;> ring

end Refs

end PtraceRemote
