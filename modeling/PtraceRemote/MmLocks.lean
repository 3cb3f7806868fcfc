import PtraceRemote.FdConcurrent
import PtraceRemote.MmUnmap
import PtraceRemote.MmWf

/-! `mm_take_all_locks` and `mm_drop_all_locks` of `mm/mmap.c`, step by step, for any number of
tasks at once, next to tasks that take the locks of one area as `take_rmap_locks` of `mm/mremap.c`
does. -/
namespace PtraceRemote

inductive VmLock where
  | mapping (m : ℕ)
  | anon (r : ℕ)
deriving DecidableEq

structure LockArea where
  mapping : Option ℕ
  hugetlb : Bool
  anonVma : List ℕ
deriving DecidableEq

def Mm.lockAreas (mm : Mm) (fMapping : FileId → Option ℕ) (roots : VmaId → List ℕ) :
    List LockArea :=
  (mm.areasFrom mm.mmap).map fun x =>
    { mapping := (mm.vma x).vmFile.bind fMapping, hugetlb := isVmHugetlbPage (mm.vma x)
      anonVma := if (mm.vma x).anonVma = none then [] else roots x }

inductive LockOp where
  | mutexLock
  | mutexUnlock
  | mutexLocked
  | signalPending (areas : List LockArea)
  | vmLock (l : VmLock)
  | vmUnlock (l : VmLock)
  | setBit (l : VmLock)
  | clearBit (l : VmLock)
  | downWrite (l : VmLock)
  | upWrite (l : VmLock)
  | allLocked (areas : List LockArea)
deriving DecidableEq

def LockArea.mappingLocks (a : LockArea) : List VmLock := a.mapping.toList.map .mapping
def LockArea.anonLocks (a : LockArea) : List VmLock := a.anonVma.map .anon
def LockArea.locks (a : LockArea) : List VmLock := a.anonLocks ++ a.mappingLocks

def mmDropAllLocks (areas : List LockArea) : List LockOp :=
  .mutexLocked :: (areas.flatMap fun a => a.locks.map .vmUnlock) ++ [.mutexUnlock]

def lockLoop (areas : List LockArea) (locks : LockArea → List VmLock) (rest : List LockArea) :
    List LockOp :=
  rest.flatMap fun a => .signalPending areas :: (locks a).map .vmLock

def mmTakeAllLocks (areas : List LockArea) : List LockOp :=
  .mutexLock :: lockLoop areas (fun a => if a.hugetlb then a.mappingLocks else []) areas ++
    lockLoop areas (fun a => if a.hugetlb then [] else a.mappingLocks) areas ++
    lockLoop areas LockArea.anonLocks areas ++ [.allLocked areas]

def rmapLocks (mapping anon : Option ℕ) : List LockOp :=
  mapping.toList.map (.downWrite ∘ .mapping) ++ anon.toList.map (.downWrite ∘ .anon) ++
    anon.toList.map (.upWrite ∘ .anon) ++ mapping.toList.map (.upWrite ∘ .mapping)

/-- `mutex` is `mm_all_locks_mutex`. `bit` is `AS_MM_ALL_LOCKS` of an address space, and the lowest
bit of `rb_node` of the root of an `anon_vma`. -/
structure LockSys where
  mutex : Option TaskId
  rwsem : VmLock → Option TaskId
  bit : VmLock → Bool
  prog : TaskId → List LockOp
  bug : Bool

namespace LockSys

def setProg (s : LockSys) (t : TaskId) (p : List LockOp) : LockSys :=
  { s with prog := Function.update s.prog t p }

def setBit (s : LockSys) (l : VmLock) (v : Bool) : LockSys :=
  { s with bit := Function.update s.bit l v }

def setOwner (s : LockSys) (l : VmLock) (v : Option TaskId) : LockSys :=
  { s with rwsem := Function.update s.rwsem l v }

end LockSys

def lockOps : VmLock → List LockOp
  | .mapping m => [.setBit (.mapping m), .downWrite (.mapping m)]
  | .anon r => [.downWrite (.anon r), .setBit (.anon r)]

def unlockOps : VmLock → List LockOp
  | .mapping m => [.upWrite (.mapping m), .clearBit (.mapping m)]
  | .anon r => [.clearBit (.anon r), .upWrite (.anon r)]

def LockSys.step (s : LockSys) (t : TaskId) (signal : Bool) : Option LockSys :=
  match s.prog t with
  | [] => none
  | op :: rest =>
    let s := s.setProg t rest
    match op with
    | .mutexLock => if s.mutex = none then some { s with mutex := some t } else none
    | .mutexUnlock => some { s with mutex := none }
    | .mutexLocked => some (if s.mutex = none then { s with bug := true } else s)
    | .signalPending areas => some (if signal then s.setProg t (mmDropAllLocks areas) else s)
    | .vmLock l => some (if s.bit l then s else s.setProg t (lockOps l ++ rest))
    | .vmUnlock l => some (if s.bit l then s.setProg t (unlockOps l ++ rest) else s)
    | .setBit l => some (if s.bit l then { s with bug := true } else s.setBit l true)
    | .clearBit l => some (if s.bit l then s.setBit l false else { s with bug := true })
    | .downWrite l => if s.rwsem l = none then some (s.setOwner l (some t)) else none
    | .upWrite l => some (s.setOwner l none)
    | .allLocked _ => some s

/-! Rules for programs of locks. -/

inductive LockKeeps (rank : VmLock → ℕ) : Bool → Set VmLock → Set VmLock → List LockOp → Prop
  | done : LockKeeps rank false ∅ ∅ []
  | mutexLock {p : List LockOp} :
      LockKeeps rank true ∅ ∅ p → LockKeeps rank false ∅ ∅ (.mutexLock :: p)
  | mutexUnlock {p : List LockOp} :
      LockKeeps rank false ∅ ∅ p → LockKeeps rank true ∅ ∅ (.mutexUnlock :: p)
  | mutexLocked {H B : Set VmLock} {p : List LockOp} :
    LockKeeps rank true H B p → LockKeeps rank true H B (.mutexLocked :: p)
  | signalPending {M : Bool} {H B : Set VmLock} {p : List LockOp} {areas : List LockArea} :
    LockKeeps rank M H B p → LockKeeps rank M H B (mmDropAllLocks areas) →
    LockKeeps rank M H B (.signalPending areas :: p)
  | locked {H B : Set VmLock} {p : List LockOp} {l : VmLock} (h : l ∈ B) :
    LockKeeps rank true H B p → LockKeeps rank true H B (.vmLock l :: p)
  | lock {H B : Set VmLock} {p : List LockOp} {l : VmLock} (h : l ∉ B) :
    LockKeeps rank true H B (lockOps l ++ p) → LockKeeps rank true H B (.vmLock l :: p)
  | unlock {H B : Set VmLock} {p : List LockOp} {l : VmLock} (h : l ∈ B) :
    LockKeeps rank true H B (unlockOps l ++ p) → LockKeeps rank true H B (.vmUnlock l :: p)
  | unlocked {H B : Set VmLock} {p : List LockOp} {l : VmLock} (h : l ∉ B) :
    LockKeeps rank true H B p → LockKeeps rank true H B (.vmUnlock l :: p)
  | setBit {H B : Set VmLock} {p : List LockOp} {l : VmLock} (h : l ∉ B) :
    LockKeeps rank true H (insert l B) p → LockKeeps rank true H B (.setBit l :: p)
  | clearBit {H B : Set VmLock} {p : List LockOp} {l : VmLock} (h : l ∈ B) :
    LockKeeps rank true H (B \ {l}) p → LockKeeps rank true H B (.clearBit l :: p)
  | downWrite {M : Bool} {H B : Set VmLock} {p : List LockOp} {l : VmLock} (h : l ∉ H)
    (hle : ∀ k ∈ H, rank k ≤ rank l) (hlt : M = false → ∀ k ∈ H, rank k ≠ rank l) :
    LockKeeps rank M (insert l H) B p → LockKeeps rank M H B (.downWrite l :: p)
  | upWrite {M : Bool} {H B : Set VmLock} {p : List LockOp} {l : VmLock} (h : l ∈ H) :
    LockKeeps rank M (H \ {l}) B p → LockKeeps rank M H B (.upWrite l :: p)
  | allLocked {M : Bool} {H B : Set VmLock} {p : List LockOp} {areas : List LockArea}
    (h : ∀ a ∈ areas, ∀ l ∈ a.locks, l ∈ H) :
    LockKeeps rank M H B p → LockKeeps rank M H B (.allLocked areas :: p)

section Programs

variable {rank : VmLock → ℕ} {B : Set VmLock} {p : List LockOp} {l : VmLock} {areas : List LockArea}
  {r : ℕ}

theorem LockKeeps.unlockOps (h : l ∈ B) (hp : LockKeeps rank true (B \ {l}) (B \ {l}) p) :
    LockKeeps rank true B B (unlockOps l ++ p) := by
  cases l with
  | mapping m => exact .upWrite h (.clearBit h hp)
  | anon r => exact .clearBit h (.upWrite h hp)

theorem LockKeeps.lockOps (h : l ∉ B) (hle : ∀ k ∈ B, rank k ≤ rank l)
    (hp : LockKeeps rank true (insert l B) (insert l B) p) :
    LockKeeps rank true B B (lockOps l ++ p) := by
  cases l with
  | mapping m => exact .setBit h (.downWrite h hle (by simp) hp)
  | anon r => exact .downWrite h hle (by simp) (.setBit h hp)

theorem LockKeeps.unlocks (ls : List VmLock)
    (hp : LockKeeps rank true (B \ {l | l ∈ ls}) (B \ {l | l ∈ ls}) p) :
    LockKeeps rank true B B (ls.map .vmUnlock ++ p) := by
  induction ls generalizing B with
  | nil => simpa using hp
  | cons l ls ih =>
    have hsets : B \ {k | k ∈ l :: ls} = (B \ {l}) \ {k | k ∈ ls} := by
      ext k
      simp [and_assoc]
    rw [hsets] at hp
    by_cases hl : l ∈ B
    · exact .unlock hl (.unlockOps hl (ih hp))
    · rw [Set.sdiff_singleton_eq_self hl] at hp
      exact .unlocked hl (ih hp)

def areaLocks (areas : List LockArea) : Set VmLock := {l | ∃ a ∈ areas, l ∈ a.locks}

/-- Dropping all locks is right whichever of them have been taken. -/
theorem keeps_mmDropAllLocks (hB : B ⊆ areaLocks areas) :
    LockKeeps rank true B B (mmDropAllLocks areas) := by
  have hflat : (areas.flatMap fun a => a.locks.map LockOp.vmUnlock) =
      (areas.flatMap LockArea.locks).map .vmUnlock := by
    rw [List.map_flatMap]
  have hnone : B \ {l | l ∈ areas.flatMap LockArea.locks} = ∅ := by
    apply Set.sdiff_eq_empty.2
    intro l hl
    exact List.mem_flatMap.2 (hB hl)
  unfold mmDropAllLocks
  rw [hflat]
  apply LockKeeps.mutexLocked
  apply LockKeeps.unlocks
  rw [hnone]
  exact .mutexUnlock .done

/-- Locks of one rank that is not below those held. -/
theorem LockKeeps.locks (ls : List VmLock) (hls : ∀ l ∈ ls, rank l = r) (hB : ∀ k ∈ B, rank k ≤ r)
    (hp : LockKeeps rank true (B ∪ {l | l ∈ ls}) (B ∪ {l | l ∈ ls}) p) :
    LockKeeps rank true B B (ls.map .vmLock ++ p) := by
  induction ls generalizing B with
  | nil => simpa using hp
  | cons l ls ih =>
    have hr : rank l = r := hls l List.mem_cons_self
    have hrest : ∀ k ∈ ls, rank k = r := fun k hk => hls k (List.mem_cons_of_mem l hk)
    have hsets : B ∪ {k | k ∈ l :: ls} = insert l B ∪ {k | k ∈ ls} := by
      ext k
      simp only [Set.mem_union, Set.mem_ofPred_eq, List.mem_cons, Set.mem_insert_iff]
      tauto
    rw [hsets] at hp
    -- a lock that an earlier area has taken is not taken again
    by_cases hl : l ∈ B
    · rw [Set.insert_eq_of_mem hl] at hp
      exact .locked hl (ih hrest hB hp)
    · have hins : ∀ k ∈ insert l B, rank k ≤ r := by
        intro k hk
        rcases Set.mem_insert_iff.1 hk with rfl | hk
        · exact hr.le
        · exact hB k hk
      exact .lock hl (.lockOps hl (fun k hk => hr ▸ hB k hk) (ih hrest hins hp))

/-- A loop over the areas. A signal may end it at every area. -/
theorem LockKeeps.loop {locks : LockArea → List VmLock} (rest : List LockArea)
    (hrest : rest ⊆ areas) (hlocks : ∀ a ∈ rest, ∀ l ∈ locks a, l ∈ a.locks ∧ rank l = r)
    (hB : B ⊆ areaLocks areas) (hr : ∀ k ∈ B, rank k ≤ r)
    (hp : LockKeeps rank true (B ∪ {l | ∃ a ∈ rest, l ∈ locks a})
      (B ∪ {l | ∃ a ∈ rest, l ∈ locks a}) p) :
    LockKeeps rank true B B (lockLoop areas locks rest ++ p) := by
  induction rest generalizing B with
  | nil => simpa [lockLoop] using hp
  | cons a rest ih =>
    have ha : a ∈ areas := hrest List.mem_cons_self
    have hsplit : lockLoop areas locks (a :: rest) ++ p =
        .signalPending areas :: ((locks a).map .vmLock ++ (lockLoop areas locks rest ++ p)) := by
      simp [lockLoop]
    have hsets : B ∪ {l | ∃ b ∈ a :: rest, l ∈ locks b} =
        (B ∪ {l | l ∈ locks a}) ∪ {l | ∃ b ∈ rest, l ∈ locks b} := by
      ext k
      simp [or_assoc]
    rw [hsets] at hp
    rw [hsplit]
    apply LockKeeps.signalPending _ (keeps_mmDropAllLocks hB)
    apply LockKeeps.locks _ (fun l hl => (hlocks a List.mem_cons_self l hl).2) hr
    apply ih (fun b hb => hrest (List.mem_cons_of_mem a hb))
      (fun b hb => hlocks b (List.mem_cons_of_mem a hb)) _ _ hp
    · apply Set.union_subset hB
      intro l hl
      exact ⟨a, ha, (hlocks a List.mem_cons_self l hl).1⟩
    · intro k hk
      rcases hk with hk | hk
      · exact hr k hk
      · exact (hlocks a List.mem_cons_self k hk).2.le

end Programs

def lockRank (huge : ℕ → Bool) : VmLock → ℕ
  | .mapping m => if huge m then 0 else 1
  | .anon _ => 2

/-- A task that takes all locks of an address space and drops them again, one that works on the
mappings of one area, or none of both. -/
inductive LockTask where
  | allLocks (mm : Mm) (roots : VmaId → List ℕ)
  | rmap (mapping anon : Option ℕ)
  | idle

def LockTask.prog (fMapping : FileId → Option ℕ) : LockTask → List LockOp
  | .allLocks mm roots =>
    mmTakeAllLocks (mm.lockAreas fMapping roots) ++ mmDropAllLocks (mm.lockAreas fMapping roots)
  | .rmap mapping anon => rmapLocks mapping anon
  | .idle => []

def LockTask.Valid (huge : ℕ → Bool) (fMapping : FileId → Option ℕ) : LockTask → Prop
  | .allLocks mm roots =>
    ∀ a ∈ mm.lockAreas fMapping roots, ∀ m, a.mapping = some m → a.hugetlb = huge m
  | _ => True

section Tasks

variable {huge : ℕ → Bool}

theorem keeps_allLocks {areas : List LockArea}
    (h : ∀ a ∈ areas, ∀ m, a.mapping = some m → a.hugetlb = huge m) :
    LockKeeps (lockRank huge) false ∅ ∅ (mmTakeAllLocks areas ++ mmDropAllLocks areas) := by
  have hmapping {a : LockArea} {l : VmLock} (hl : l ∈ a.mappingLocks) :
      ∃ m, a.mapping = some m ∧ l = .mapping m := by
    obtain ⟨m, hm, rfl⟩ := List.mem_map.1 hl
    exact ⟨m, Option.mem_toList.1 hm, rfl⟩
  have hanon {a : LockArea} {l : VmLock} (hl : l ∈ a.anonLocks) : lockRank huge l = 2 := by
    obtain ⟨r, -, rfl⟩ := List.mem_map.1 hl
    rfl
  let L1 : Set VmLock := {l | ∃ a ∈ areas, l ∈ if a.hugetlb then a.mappingLocks else []}
  let L2 : Set VmLock := {l | ∃ a ∈ areas, l ∈ if a.hugetlb then [] else a.mappingLocks}
  let L3 : Set VmLock := {l | ∃ a ∈ areas, l ∈ a.anonLocks}
  have h1 (a : LockArea) (ha : a ∈ areas) (l : VmLock)
    (hl : l ∈ if a.hugetlb then a.mappingLocks else []) :
      l ∈ a.locks ∧ lockRank huge l = 0 := by
    split at hl
    next hh =>
      obtain ⟨m, hm, rfl⟩ := hmapping hl
      refine ⟨List.mem_append_right _ hl, ?_⟩
      exact if_pos ((h a ha m hm).symm.trans hh)
    next => cases hl
  have h2 (a : LockArea) (ha : a ∈ areas) (l : VmLock)
    (hl : l ∈ if a.hugetlb then [] else a.mappingLocks) :
      l ∈ a.locks ∧ lockRank huge l = 1 := by
    split at hl
    next => cases hl
    next hh =>
      obtain ⟨m, hm, rfl⟩ := hmapping hl
      refine ⟨List.mem_append_right _ hl, ?_⟩
      exact if_neg fun hm' => hh ((h a ha m hm).trans hm')
  have h3 (a : LockArea) (_ : a ∈ areas) (l : VmLock) (hl : l ∈ a.anonLocks) :
      l ∈ a.locks ∧ lockRank huge l = 2 :=
    ⟨List.mem_append_left _ hl, hanon hl⟩
  have hL1 : L1 ⊆ areaLocks areas := fun l ⟨a, ha, hl⟩ => ⟨a, ha, (h1 a ha l hl).1⟩
  have hL2 : L2 ⊆ areaLocks areas := fun l ⟨a, ha, hl⟩ => ⟨a, ha, (h2 a ha l hl).1⟩
  have hL3 : L3 ⊆ areaLocks areas := fun l ⟨a, ha, hl⟩ => ⟨a, ha, (h3 a ha l hl).1⟩
  have hr1 : ∀ k ∈ (∅ ∪ L1 : Set VmLock), lockRank huge k ≤ 1 := by
    rintro k (hk | ⟨a, ha, hk⟩)
    · exact absurd hk (Set.notMem_empty k)
    · rw [(h1 a ha k hk).2]
      exact Nat.zero_le 1
  have hr2 : ∀ k ∈ (∅ ∪ L1 ∪ L2 : Set VmLock), lockRank huge k ≤ 2 := by
    rintro k (hk | ⟨a, ha, hk⟩)
    · exact (hr1 k hk).trans one_le_two
    · rw [(h2 a ha k hk).2]
      exact one_le_two
  unfold mmTakeAllLocks
  simp only [List.cons_append, List.append_assoc]
  -- the three loops, each with what the ones before it have taken
  apply LockKeeps.mutexLock
  apply LockKeeps.loop areas (List.Subset.refl _) h1 (Set.empty_subset _) (by simp)
  apply LockKeeps.loop areas (List.Subset.refl _) h2 (Set.union_subset (Set.empty_subset _) hL1) hr1
  have hL12 := Set.union_subset (Set.union_subset (Set.empty_subset _) hL1) hL2
  apply LockKeeps.loop areas (List.Subset.refl _) h3 hL12 hr2
  apply LockKeeps.allLocked
  · intro a ha l hl
    rcases List.mem_append.1 hl with hl | hl
    · exact .inr ⟨a, ha, hl⟩
    · by_cases hh : a.hugetlb = true
      · exact .inl (.inl (.inr ⟨a, ha, by rwa [if_pos hh]⟩))
      · exact .inl (.inr ⟨a, ha, by rwa [if_neg hh]⟩)
  · exact keeps_mmDropAllLocks
      (Set.union_subset (Set.union_subset (Set.union_subset (Set.empty_subset _) hL1) hL2) hL3)

theorem keeps_rmapLocks (mapping anon : Option ℕ) :
    LockKeeps (lockRank huge) false ∅ ∅ (rmapLocks mapping anon) := by
  have hrank (m r : ℕ) : lockRank huge (.mapping m) < lockRank huge (.anon r) := by
    show (if huge m then 0 else 1) < 2
    split <;> decide
  cases mapping with
  | none =>
    cases anon with
    | none => exact .done
    | some r =>
      refine .downWrite (by simp) (by simp) (by simp) (.upWrite (by simp) ?_)
      simpa using LockKeeps.done
  | some m =>
    cases anon with
    | none =>
      refine .downWrite (by simp) (by simp) (by simp) (.upWrite (by simp) ?_)
      simpa using LockKeeps.done
    | some r =>
      refine .downWrite (by simp) (by simp) (by simp)
        (.downWrite (by simp) ?_ ?_ (.upWrite (by simp) (.upWrite (by simp) ?_)))
      · simpa using (hrank m r).le
      · simpa using (hrank m r).ne
      · have hnone :
            ((insert (VmLock.anon r) (insert (VmLock.mapping m) ∅) : Set VmLock) \ {.anon r}) \
              {.mapping m} = ∅ := by
          ext k
          simp
        rw [hnone]
        exact .done

theorem LockTask.keeps {fMapping : FileId → Option ℕ} (t : LockTask) (h : t.Valid huge fMapping) :
    LockKeeps (lockRank huge) false ∅ ∅ (t.prog fMapping) := by
  cases t with
  | allLocks mm roots => exact keeps_allLocks h
  | rmap mapping anon => exact keeps_rmapLocks mapping anon
  | idle => exact .done

end Tasks

end PtraceRemote
