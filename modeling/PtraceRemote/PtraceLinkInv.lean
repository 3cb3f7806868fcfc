import PtraceRemote.PtraceLink
import Mathlib.Data.List.Perm.Subperm
import Mathlib.Data.List.Range

/-! The `ptrace` word, the `parent` pointer and the `ptraced` lists agree along every run, and an
exiting tracer leaves none of its tracees behind. -/
namespace PtraceRemote

open ListHead (Links Ring Rings)

def relItems (P : Tid → List Tid) (D : ℕ → List Tid) : TaskNode → List TaskNode
  | .ptraced u => (P u).map .entry
  | .dead d => (D d).map .entry
  | .entry _ => []

def relHeads (nr nrDead : ℕ) (P : Tid → List Tid) (D : ℕ → List Tid) : Set TaskNode :=
  { x | match x with
    | .ptraced u => u < nr
    | .dead d => d < nrDead
    | .entry t => t < nr ∧ (∀ u, t ∉ P u) ∧ ∀ d, t ∉ D d }

structure RelInv (s : Tasks) (P : Tid → List Tid) (D : ℕ → List Tid) : Prop where
  rings : Rings s.links (relHeads s.nrTasks s.nrDead P D) (relItems P D)
  mem_ptraced : ∀ t u, t ∈ P u ↔ t < s.nrTasks ∧ (s.task t).ptrace ≠ 0 ∧ (s.task t).parent = u
  mem_dead : ∀ t d, t ∈ D d →
    t < s.nrTasks ∧ d < s.nrDead ∧ (s.task t).ptrace = 0 ∧ (s.task t).exitState = .dead
  untraced : ∀ t < s.nrTasks, (s.task t).ptrace = 0 → (s.task t).parent = (s.task t).realParent
  parent_lt : ∀ t < s.nrTasks, (s.task t).parent < s.nrTasks ∧ (s.task t).realParent < s.nrTasks
  word : ∀ t < s.nrTasks, (s.task t).ptrace ≠ 0 → (s.task t).ptrace.getLsbD 0 = true
  no_bug : s.bug = false

variable {s s' : Tasks} {P : Tid → List Tid} {D : ℕ → List Tid} {t u : Tid} {d : ℕ} {A B : List Tid}

theorem ne_zero_of_getLsbD {w : BitVec 32} (h : w.getLsbD 0 = true) : w ≠ 0 := by
  rintro rfl
  simp at h

namespace RelInv

theorem entry_mem_heads (h : RelInv s P D) (ht : t < s.nrTasks) (hp : (s.task t).ptrace = 0)
    (hd : ∀ d, t ∉ D d) : TaskNode.entry t ∈ relHeads s.nrTasks s.nrDead P D :=
  ⟨ht, fun u hm => ((h.mem_ptraced t u).1 hm).2.1 hp, hd⟩

theorem ring (h : RelInv s P D) (hu : u < s.nrTasks) :
    Ring s.links (.ptraced u) ((P u).map .entry) :=
  h.rings.ring (.ptraced u) hu

theorem nodup (h : RelInv s P D) (hu : u < s.nrTasks) : (P u).Nodup :=
  List.Nodup.of_map _ (List.nodup_cons.1 (h.ring hu).nodup).2

theorem parent_lt_of_mem (h : RelInv s P D) (hm : t ∈ P u) : u < s.nrTasks := by
  obtain ⟨ht, -, rfl⟩ := (h.mem_ptraced t u).1 hm
  exact (h.parent_lt t ht).1

theorem length_le (h : RelInv s P D) (hu : u < s.nrTasks) : (P u).length ≤ s.nrTasks := by
  have hsub : P u ⊆ List.range s.nrTasks :=
    fun t ht => List.mem_range.2 ((h.mem_ptraced t u).1 ht).1
  simpa using (List.subperm_of_subset (h.nodup hu) hsub).length_le

end RelInv

namespace Tasks

variable {f : Task → Task}

@[simp] theorem modTask_links : (s.modTask t f).links = s.links := rfl
@[simp] theorem modTask_nrTasks : (s.modTask t f).nrTasks = s.nrTasks := rfl
@[simp] theorem modTask_nrDead : (s.modTask t f).nrDead = s.nrDead := rfl
@[simp] theorem modTask_bug : (s.modTask t f).bug = s.bug := rfl

theorem modTask_self : (s.modTask t f).task t = f (s.task t) := Function.update_self ..

theorem modTask_of_ne (h : u ≠ t) : (s.modTask t f).task u = s.task u := Function.update_of_ne h ..

@[simp] theorem link_nrTasks : (s.link t u).nrTasks = s.nrTasks := rfl
@[simp] theorem link_nrDead : (s.link t u).nrDead = s.nrDead := rfl
@[simp] theorem unlink_nrTasks : (s.unlink t).nrTasks = s.nrTasks := rfl
@[simp] theorem unlink_nrDead : (s.unlink t).nrDead = s.nrDead := rfl
@[simp] theorem unlink_links : (s.unlink t).links = s.links.delInit (.entry t) := rfl

@[simp] theorem newTask_nrTasks {v : Task} : (s.newTask v).nrTasks = s.nrTasks+1 := rfl

@[simp] theorem newTask_nrDead {v : Task} : (s.newTask v).nrDead = s.nrDead := rfl

theorem newTask_self {v : Task} :
    (s.newTask v).task s.nrTasks = { v with ptrace := 0, parent := v.realParent } :=
  Function.update_self ..

theorem newTask_of_ne {v : Task} (h : u ≠ s.nrTasks) : (s.newTask v).task u = s.task u :=
  Function.update_of_ne h ..

theorem unlink_self :
    (s.unlink t).task t = { s.task t with ptrace := 0, parent := (s.task t).realParent } := by
  simp [unlink, modTask]

theorem unlink_of_ne (h : u ≠ t) : (s.unlink t).task u = s.task u := by
  simp [unlink, modTask, Function.update_of_ne h]

end Tasks

namespace RelInv

/-- A change of one task that the relation does not look at. -/
theorem modTask (h : RelInv s P D) {f : Task → Task}
    (hp : (f (s.task t)).parent = (s.task t).parent)
    (hr : (f (s.task t)).realParent = (s.task t).realParent)
    (hw : (f (s.task t)).ptrace = 0 ↔ (s.task t).ptrace = 0)
    (hb : (s.task t).ptrace.getLsbD 0 = true → (f (s.task t)).ptrace.getLsbD 0 = true)
    (hd : (s.task t).exitState = .dead → (f (s.task t)).exitState = .dead) :
    RelInv (s.modTask t f) P D := by
  -- each field about a task `v` is the old one, by the hypotheses where `v` is the changed one
  refine ⟨h.rings, fun v w => ?_, fun v k hv => ?_, fun v hv => ?_, fun v hv => ?_,
    fun v hv => ?_, h.no_bug⟩ <;> by_cases hvt : v = t
  · rw [hvt, Tasks.modTask_self, hp, Ne, hw]
    exact h.mem_ptraced t w
  · rw [Tasks.modTask_of_ne hvt]
    exact h.mem_ptraced v w
  · obtain ⟨h₁, h₂, h₃, h₄⟩ := h.mem_dead v k hv
    subst hvt
    rw [Tasks.modTask_self]
    exact ⟨h₁, h₂, hw.2 h₃, hd h₄⟩
  · rw [Tasks.modTask_of_ne hvt]
    exact h.mem_dead v k hv
  · subst hvt
    rw [Tasks.modTask_self, hp, hr, hw]
    exact h.untraced v hv
  · rw [Tasks.modTask_of_ne hvt]
    exact h.untraced v hv
  · subst hvt
    rw [Tasks.modTask_self, hp, hr]
    exact h.parent_lt v hv
  · rw [Tasks.modTask_of_ne hvt]
    exact h.parent_lt v hv
  · subst hvt
    rw [Tasks.modTask_self, Ne, hw]
    exact fun hne => hb (h.word v hv hne)
  · rw [Tasks.modTask_of_ne hvt]
    exact h.word v hv

/-- A task that is not traced and not dead gets a word and a tracer. -/
theorem link (h : RelInv s P D) (ht : t < s.nrTasks) (hu : u < s.nrTasks)
    (hp : (s.task t).ptrace = 0) (hd : ∀ d, t ∉ D d) {w : BitVec 32} (hw : w.getLsbD 0 = true) :
    RelInv ((s.modTask t fun v => { v with ptrace := w }).link t u)
      (Function.update P u (t :: P u)) D := by
  have hhead := h.entry_mem_heads ht hp hd
  have hself : ((s.modTask t fun v => { v with ptrace := w }).link t u).task t =
      { s.task t with ptrace := w, parent := u } := by
    simp [Tasks.link, Tasks.modTask]
  have hother :
      ∀ {v}, v ≠ t → ((s.modTask t fun v => { v with ptrace := w }).link t u).task v = s.task v :=
    fun hv => by simp [Tasks.link, Tasks.modTask, Function.update_of_ne hv]
  have hnot : ∀ x, t ∉ P x := fun x hm => ((h.mem_ptraced t x).1 hm).2.1 hp
  have hmem : ∀ {v x}, v ∈ Function.update P u (t :: P u) x ↔ v ∈ P x ∨ v = t ∧ x = u := by
    intro v x
    by_cases hx : x = u
    · subst hx
      simp [or_comm]
    · simp [hx]
  refine ⟨?_, fun v x => ?_, fun v k hv => ?_, fun v hv => ?_, fun v hv => ?_, fun v hv => ?_, ?_⟩
  · have hadd := h.rings.add hhead (h := .ptraced u) hu (by simp)
    refine hadd.congr ?_ fun k hk => ?_
    · ext k
      cases k with
      | ptraced v => simp [relHeads]
      | dead k => simp [relHeads]
      | entry v =>
        simp only [relHeads, Tasks.link_nrTasks, Tasks.modTask_nrTasks, Set.mem_ofPred_eq, hmem,
          Set.mem_sdiff, Set.mem_singleton_iff, TaskNode.entry.injEq]
        constructor
        · rintro ⟨h₁, h₂, h₃⟩
          exact ⟨⟨h₁, fun x hx => h₂ x (.inl hx), h₃⟩, fun hv => h₂ u (.inr ⟨hv, rfl⟩)⟩
        · rintro ⟨⟨h₁, h₂, h₃⟩, hv⟩
          exact ⟨h₁, fun x hx => hx.elim (h₂ x) fun hx => hv hx.1, h₃⟩
    · cases k with
      | ptraced v =>
        by_cases hv : v = u
        · subst hv
          simp [relItems]
        · simp [relItems, hv]
      | dead k => simp [relItems]
      | entry v => simp [relItems]
  · rw [hmem]
    by_cases hv : v = t
    · subst hv
      rw [hself]
      simp only [hnot x, false_or, true_and, Tasks.link_nrTasks, Tasks.modTask_nrTasks]
      exact ⟨fun hx => ⟨ht, ne_zero_of_getLsbD hw, hx.symm⟩, fun hx => hx.2.2.symm⟩
    · rw [hother hv]
      simpa [hv] using h.mem_ptraced v x
  · have hv' : v ≠ t := fun he => hd k (he ▸ hv)
    rw [hother hv']
    exact h.mem_dead v k hv
  · by_cases hv' : v = t
    · subst hv'
      rw [hself]
      exact fun h₀ => absurd h₀ (ne_zero_of_getLsbD hw)
    · rw [hother hv']
      exact h.untraced v hv
  · by_cases hv' : v = t
    · subst hv'
      rw [hself]
      exact ⟨hu, (h.parent_lt v hv).2⟩
    · rw [hother hv']
      exact h.parent_lt v hv
  · by_cases hv' : v = t
    · subst hv'
      rw [hself]
      exact fun _ => hw
    · rw [hother hv']
      exact h.word v hv
  · -- the entry is alone, so the `BUG_ON` does not fire
    have halone := ((h.rings.ring _ hhead).isEmpty).2 rfl
    show (s.bug || !s.links.isEmpty (.entry t)) = false
    rw [h.no_bug, halone]
    rfl

/-- A traced task leaves the list of its tracer. -/
theorem unlink (h : RelInv s P D) (hP : P u = A ++ t :: B) :
    RelInv (s.unlink t) (Function.update P u (A ++ B)) D := by
  have hmemP : t ∈ P u := by rw [hP]; simp
  obtain ⟨ht, hp, hpar⟩ := (h.mem_ptraced t u).1 hmemP
  have hu := h.parent_lt_of_mem hmemP
  have hnd := h.nodup hu
  rw [hP] at hnd
  have htAB : t ∉ A ++ B := fun hm => (List.nodup_middle.1 hnd |> List.nodup_cons.1).1 hm
  have hmem : ∀ {v x}, v ∈ Function.update P u (A ++ B) x ↔ v ∈ P x ∧ v ≠ t := by
    intro v x
    by_cases hx : x = u
    · subst hx
      rw [Function.update_self, hP]
      simp only [List.mem_append, List.mem_cons]
      constructor
      · exact fun hv => ⟨by tauto, fun he => htAB (he ▸ List.mem_append.2 hv)⟩
      · tauto
    · rw [Function.update_of_ne hx]
      refine ⟨fun hv => ⟨hv, fun he => hx ?_⟩, And.left⟩
      exact ((h.mem_ptraced v x).1 hv).2.2.symm.trans (he ▸ hpar)
  have hdead : ∀ k, t ∉ D k := fun k hm => hp (h.mem_dead t k hm).2.2.1
  refine ⟨?_, fun v x => ?_, fun v k hv => ?_, fun v hv => ?_, fun v hv => ?_, fun v hv => ?_, ?_⟩
  · have hi : relItems P D (.ptraced u) = A.map .entry ++ .entry t :: B.map .entry := by
      simp [relItems, hP]
    refine (h.rings.del (h := .ptraced u) hu hi).congr ?_ fun k hk => ?_
    · ext k
      cases k with
      | ptraced v => simp [relHeads]
      | dead k => simp [relHeads]
      | entry v =>
        simp only [relHeads, Tasks.unlink_nrTasks, Set.mem_ofPred_eq, hmem, Set.mem_insert_iff,
          TaskNode.entry.injEq]
        constructor
        · rintro ⟨h₁, h₂, h₃⟩
          by_cases hv : v = t
          · exact .inl hv
          · exact .inr ⟨h₁, fun x hx => h₂ x ⟨hx, hv⟩, h₃⟩
        · rintro (rfl | ⟨h₁, h₂, h₃⟩)
          · exact ⟨ht, fun x hx => hx.2 rfl, hdead⟩
          · exact ⟨h₁, fun x hx => h₂ x hx.1, h₃⟩
    · cases k with
      | ptraced v =>
        by_cases hv : v = u
        · subst hv
          simp [relItems]
        · simp [relItems, hv]
      | dead k => simp [relItems]
      | entry v =>
        by_cases hv : v = t
        · simp [relItems, hv]
        · simp [relItems, hv]
  · rw [hmem, h.mem_ptraced v x, Tasks.unlink_nrTasks]
    by_cases hv : v = t
    · subst hv
      rw [Tasks.unlink_self]
      simp
    · rw [Tasks.unlink_of_ne hv]
      simp [hv]
  · have hvt : v ≠ t := fun he => hdead k (he ▸ hv)
    rw [Tasks.unlink_of_ne hvt]
    exact h.mem_dead v k hv
  · by_cases hv' : v = t
    · subst hv'
      rw [Tasks.unlink_self]
      exact fun _ => rfl
    · rw [Tasks.unlink_of_ne hv']
      exact h.untraced v hv
  · by_cases hv' : v = t
    · subst hv'
      rw [Tasks.unlink_self]
      exact ⟨(h.parent_lt v hv).2, (h.parent_lt v hv).2⟩
    · rw [Tasks.unlink_of_ne hv']
      exact h.parent_lt v hv
  · by_cases hv' : v = t
    · subst hv'
      rw [Tasks.unlink_self]
      exact fun hne => absurd rfl hne
    · rw [Tasks.unlink_of_ne hv']
      exact h.word v hv
  · show (s.bug || decide ((s.task t).ptrace = 0)) = false
    rw [h.no_bug, decide_eq_false hp]
    rfl

/-- A dead task that is on no list joins a list of dead tasks. -/
theorem bury (h : RelInv s P D) (ht : t < s.nrTasks) (hp : (s.task t).ptrace = 0)
    (he : (s.task t).exitState = .dead) (hd : ∀ k, t ∉ D k) (hk : d < s.nrDead) :
    RelInv { s with links := s.links.add (.entry t) (.dead d) } P
      (Function.update D d (t :: D d)) := by
  have hmem : ∀ {v k}, v ∈ Function.update D d (t :: D d) k ↔ v ∈ D k ∨ v = t ∧ k = d := by
    intro v k
    by_cases hk : k = d
    · subst hk
      simp [or_comm]
    · simp [hk]
  refine ⟨?_, h.mem_ptraced, fun v k hv => ?_, h.untraced, h.parent_lt, h.word, h.no_bug⟩
  · have hadd := h.rings.add (h.entry_mem_heads ht hp hd) (h := .dead d) hk (by simp)
    refine hadd.congr ?_ fun k hk => ?_
    · ext k
      cases k with
      | ptraced v => simp [relHeads]
      | dead k => simp [relHeads]
      | entry v =>
        simp only [relHeads, Set.mem_ofPred_eq, hmem, Set.mem_sdiff, Set.mem_singleton_iff,
          TaskNode.entry.injEq]
        constructor
        · rintro ⟨h₁, h₂, h₃⟩
          exact ⟨⟨h₁, h₂, fun k hk => h₃ k (.inl hk)⟩, fun hv => h₃ d (.inr ⟨hv, rfl⟩)⟩
        · rintro ⟨⟨h₁, h₂, h₃⟩, hv⟩
          exact ⟨h₁, h₂, fun k hk => hk.elim (h₃ k) fun hk => hv hk.1⟩
    · cases k with
      | ptraced v => simp [relItems]
      | dead k =>
        by_cases hv : k = d
        · subst hv
          simp [relItems]
        · simp [relItems, hv]
      | entry v => simp [relItems]
  · rcases hmem.1 hv with hv | ⟨rfl, rfl⟩
    · exact h.mem_dead v k hv
    · exact ⟨ht, hk, hp, he⟩

/-- A new list of dead tasks. -/
theorem newDead (h : RelInv s P D) :
    RelInv { s with links := s.links.init (.dead s.nrDead), nrDead := s.nrDead+1 } P D := by
  have hnil : D s.nrDead = [] := List.eq_nil_iff_forall_not_mem.2 fun v hv =>
    absurd (h.mem_dead v _ hv).2.1 (lt_irrefl _)
  refine ⟨?_, h.mem_ptraced, fun v k hv => ?_, h.untraced, h.parent_lt, h.word, h.no_bug⟩
  · have hinit := h.rings.init (x := .dead s.nrDead) fun k hk => ?_
    · refine hinit.congr ?_ fun k hk => ?_
      · ext k
        cases k with
        | ptraced v => simp [relHeads]
        | dead k =>
          simp only [relHeads, Set.mem_ofPred_eq, Set.mem_insert_iff, TaskNode.dead.injEq]
          omega
        | entry v => simp [relHeads]
      · by_cases hk : k = .dead s.nrDead
        · simp [hk, relItems, hnil]
        · simp [hk]
    · cases k with
      | ptraced v => simp [relItems]
      | dead k =>
        have hlt : k < s.nrDead := hk
        simpa [relItems] using hlt.ne'
      | entry v => simp [relItems]
  · obtain ⟨h₁, h₂, h₃⟩ := h.mem_dead v k hv
    exact ⟨h₁, Nat.lt_succ_of_lt h₂, h₃⟩

/-- A new task, not yet traced. -/
theorem newTask (h : RelInv s P D) {v : Task} (hv : v.realParent < s.nrTasks) :
    RelInv (s.newTask v) P D := by
  have hnil : P s.nrTasks = [] := List.eq_nil_iff_forall_not_mem.2 fun x hx =>
    absurd (h.parent_lt_of_mem hx) (lt_irrefl _)
  have hnotP : ∀ x, s.nrTasks ∉ P x := fun x hx => absurd ((h.mem_ptraced _ x).1 hx).1 (lt_irrefl _)
  have hnotD : ∀ k, s.nrTasks ∉ D k := fun k hk => absurd (h.mem_dead _ k hk).1 (lt_irrefl _)
  have hlt : ∀ {x}, x < s.nrTasks+1 → x ≠ s.nrTasks → x < s.nrTasks := fun h₁ h₂ => by omega
  refine ⟨?_, fun x y => ?_, fun x k hx => ?_, fun x hx => ?_, fun x hx => ?_,
    fun x hx => ?_, h.no_bug⟩
  · have hentry := h.rings.init (x := .entry s.nrTasks) fun k hk => ?_
    · have hptraced := hentry.init (x := .ptraced s.nrTasks) fun k hk => ?_
      · refine hptraced.congr ?_ fun k hk => ?_
        · ext k
          cases k with
          | ptraced x =>
            simp only [relHeads, Set.mem_ofPred_eq, Set.mem_insert_iff, TaskNode.ptraced.injEq,
              reduceCtorEq, false_or, Tasks.newTask_nrTasks, Nat.lt_succ_iff_lt_or_eq, or_comm]
          | dead k => simp [relHeads]
          | entry x =>
            simp only [relHeads, Set.mem_ofPred_eq, Set.mem_insert_iff, TaskNode.entry.injEq,
              reduceCtorEq]
            constructor
            · rintro ⟨h₁, h₂, h₃⟩
              by_cases hx : x = s.nrTasks
              · exact .inr (.inl hx)
              · exact .inr (.inr ⟨hlt h₁ hx, h₂, h₃⟩)
            · rintro (hx | rfl | ⟨h₁, h₂, h₃⟩)
              · exact hx.elim
              · exact ⟨Nat.lt_succ_self _, hnotP, hnotD⟩
              · exact ⟨Nat.lt_succ_of_lt h₁, h₂, h₃⟩
        · by_cases hk₁ : k = .ptraced s.nrTasks
          · simp [hk₁, relItems, hnil]
          · by_cases hk₂ : k = .entry s.nrTasks
            · simp [hk₂, relItems]
            · simp [hk₁, hk₂]
      · -- no list has the new `ptraced` node as its head or holds it
        cases k with
        | ptraced x =>
          have hx : x < s.nrTasks := (Set.mem_insert_iff.1 hk).resolve_left (by simp)
          simpa [relItems] using hx.ne'
        | dead k => simp [relItems]
        | entry x =>
          by_cases hx : x = s.nrTasks
          · simp [hx]
          · simp [hx, relItems]
    · cases k with
      | ptraced x => simpa [relItems] using hnotP x
      | dead k => simpa [relItems] using hnotD k
      | entry x =>
        have hx : x < s.nrTasks := hk.1
        simpa [relItems] using hx.ne'
  · by_cases hx : x = s.nrTasks
    · subst hx
      rw [Tasks.newTask_self]
      simp [hnotP y]
    · rw [Tasks.newTask_of_ne hx, h.mem_ptraced x y]
      refine and_congr_left fun _ => ⟨Nat.lt_succ_of_lt, fun h₁ => hlt h₁ hx⟩
  · have hxn : x ≠ s.nrTasks := fun he => hnotD k (he ▸ hx)
    obtain ⟨h₁, h₂⟩ := h.mem_dead x k hx
    rw [Tasks.newTask_of_ne hxn]
    exact ⟨Nat.lt_succ_of_lt h₁, h₂⟩
  · by_cases hxn : x = s.nrTasks
    · subst hxn
      rw [Tasks.newTask_self]
      exact fun _ => rfl
    · rw [Tasks.newTask_of_ne hxn]
      exact h.untraced x (hlt hx hxn)
  · by_cases hxn : x = s.nrTasks
    · subst hxn
      rw [Tasks.newTask_self]
      exact ⟨Nat.lt_succ_of_lt hv, Nat.lt_succ_of_lt hv⟩
    · rw [Tasks.newTask_of_ne hxn]
      obtain ⟨h₁, h₂⟩ := h.parent_lt x (hlt hx hxn)
      exact ⟨Nat.lt_succ_of_lt h₁, Nat.lt_succ_of_lt h₂⟩
  · by_cases hxn : x = s.nrTasks
    · subst hxn
      rw [Tasks.newTask_self]
      exact fun hne => absurd rfl hne
    · rw [Tasks.newTask_of_ne hxn]
      exact h.word x (hlt hx hxn)

end RelInv

namespace Tasks

variable {env : ReapEnv} {tracer p : Tid}

/-- Whether a task has to be reaped depends on nothing that detaching changes. -/
theorem reaps_congr (he : (s'.task p).exitState = (s.task p).exitState)
    (hl : (s'.task p).leader = (s.task p).leader)
    (hr : (s'.task p).realParent = (s.task p).realParent)
    (hg : ∀ q, (s'.task q).group = (s.task q).group) :
    s'.reaps env tracer p = s.reaps env tracer p := by
  simp only [reaps, he, hl, hr, hg]

theorem unlink_group (q : Tid) : ((s.unlink t).task q).group = (s.task q).group := by
  by_cases hq : q = t
  · rw [hq, unlink_self]
  · rw [unlink_of_ne hq]

theorem reaps_unlink : (s.unlink t).reaps env tracer t = s.reaps env tracer t := by
  refine reaps_congr ?_ ?_ ?_ unlink_group <;> rw [unlink_self]

theorem detach_of_reaps (h : s.reaps env tracer t = true) :
    s.detach env tracer t =
      (true, (s.unlink t).modTask t fun v => { v with exitState := .dead }) := by
  rw [detach, reaps_unlink, if_pos h]

theorem detach_of_not_reaps (h : s.reaps env tracer t = false) :
    s.detach env tracer t = (false, s.unlink t) := by
  rw [detach, reaps_unlink, if_neg (by simp [h])]

theorem detach_fst : (s.detach env tracer t).1 = s.reaps env tracer t := by
  cases h : s.reaps env tracer t with
  | true => rw [detach_of_reaps h]
  | false => rw [detach_of_not_reaps h]

/-- Detaching changes no task but the detached one, and there neither its group nor anything that
`reaps` reads of another task. -/
theorem detach_frame : (s.detach env tracer t).2.nrTasks = s.nrTasks ∧
    (s.detach env tracer t).2.nrDead = s.nrDead ∧
      (∀ p ≠ t, (s.detach env tracer t).2.task p = s.task p) ∧
    ∀ q, ((s.detach env tracer t).2.task q).group = (s.task q).group := by
  cases h : s.reaps env tracer t with
  | true =>
    rw [detach_of_reaps h]
    refine ⟨rfl, rfl, fun p hp => ?_, fun q => ?_⟩ <;> dsimp only
    · rw [modTask_of_ne hp, unlink_of_ne hp]
    · by_cases hq : q = t
      · subst hq
        rw [modTask_self]
        exact unlink_group q
      · rw [modTask_of_ne hq]
        exact unlink_group q
  | false =>
    rw [detach_of_not_reaps h]
    exact ⟨rfl, rfl, fun p hp => unlink_of_ne hp, unlink_group⟩

theorem detach_self (h : s.reaps env tracer t = true) :
    ((s.detach env tracer t).2.task t).ptrace = 0 ∧
      ((s.detach env tracer t).2.task t).exitState = .dead := by
  rw [detach_of_reaps h]
  dsimp only
  rw [modTask_self, unlink_self]
  exact ⟨rfl, rfl⟩

end Tasks

theorem RelInv.detach {env : ReapEnv} {tracer : Tid} (h : RelInv s P D) (hP : P u = A ++ t :: B) :
    RelInv (s.detach env tracer t).2 (Function.update P u (A ++ B)) D := by
  have hun := h.unlink hP
  cases hr : s.reaps env tracer t with
  | true =>
    rw [Tasks.detach_of_reaps hr]
    exact RelInv.modTask (t := t) (f := fun v => { v with exitState := .dead }) hun
      rfl rfl Iff.rfl id fun _ => rfl
  | false =>
    rw [Tasks.detach_of_not_reaps hr]
    exact hun

namespace Tasks

variable {env : ReapEnv} {tracer : Tid}

/-- The successor of the first tracee is the first one of those that remain. -/
theorem next_first {P' : Tid → List Tid} {D' : ℕ → List Tid} (h : RelInv s P D)
    (h' : RelInv s' P' D') (hu : u < s.nrTasks) (hu' : u < s'.nrTasks) (hP : P u = t :: B)
    (hP' : P' u = B) :
    s.links.next (.ptraced u) = .entry t ∧
      s.links.next (.entry t) = s'.links.next (.ptraced u) := by
  have hr := (h.ring hu).path
  have hr' := (h'.ring hu').path
  rw [hP] at hr
  rw [hP'] at hr'
  refine ⟨hr.1, ?_⟩
  cases B with
  | nil => exact hr.2.2.1.trans hr'.1.symm
  | cons x xs => exact hr.2.2.1.trans hr'.1.symm

theorem exitLoop_head (n : ℕ) : exitLoop env tracer d (n+1) (.ptraced tracer) s = s := by
  simp [exitLoop]

theorem exitLoop_entry (n : ℕ) : exitLoop env tracer d (n+1) (.entry t) s =
    exitLoop env tracer d n (s.links.next (.entry t))
      (if s.reaps env tracer t then
        { (s.detach env tracer t).2 with
          links := (s.detach env tracer t).2.links.add (.entry t) (.dead d) }
      else (s.detach env tracer t).2) := by
  simp only [exitLoop, reduceCtorEq, if_false, detach_fst]

/-- The loop of `exit_ptrace`, by induction on the tracees that are left. -/
theorem exitLoop_spec (L : List Tid) (fuel : ℕ) (h : RelInv s P D) (ht : tracer < s.nrTasks)
    (hP : P tracer = L) (hf : L.length < fuel) (hd : d < s.nrDead) : ∃ P' D',
    RelInv (exitLoop env tracer d fuel (s.links.next (.ptraced tracer)) s) P' D' ∧
    (exitLoop env tracer d fuel (s.links.next (.ptraced tracer)) s).nrTasks = s.nrTasks ∧
    (exitLoop env tracer d fuel (s.links.next (.ptraced tracer)) s).nrDead = s.nrDead ∧
    P' tracer = [] ∧ D' d = (L.filter (s.reaps env tracer)).reverse ++ D d := by
  induction L generalizing s P D fuel with
  | nil =>
    obtain ⟨n, rfl⟩ : ∃ n, fuel = n+1 := Nat.exists_eq_succ_of_ne_zero (by simp at hf; omega)
    have hr := (h.ring ht).path
    rw [hP] at hr
    have hnext : s.links.next (.ptraced tracer) = .ptraced tracer := hr.1
    rw [hnext, exitLoop_head]
    exact ⟨P, D, h, rfl, rfl, hP, rfl⟩
  | cons t B ih =>
    obtain ⟨n, rfl⟩ : ∃ n, fuel = n+1 := Nat.exists_eq_succ_of_ne_zero (by simp at hf; omega)
    have hmem : t ∈ P tracer := by rw [hP]; simp
    obtain ⟨htn, hpt, -⟩ := (h.mem_ptraced t tracer).1 hmem
    have hdead : ∀ k, t ∉ D k := fun k hk => hpt (h.mem_dead t k hk).2.2.1
    have htB : t ∉ B := by
      have hnd := h.nodup ht
      rw [hP] at hnd
      exact (List.nodup_cons.1 hnd).1
    have hn : B.length < n := by simpa using hf
    obtain ⟨hnr, hnd, hother, hgroup⟩ := @detach_frame s t env tracer
    have hdet : RelInv (s.detach env tracer t).2 (Function.update P tracer B) D :=
      RelInv.detach (A := []) h hP
    have hPB : Function.update P tracer B tracer = B := Function.update_self ..
    -- what is left is reaped or not as before
    have hreaps : B.filter ((s.detach env tracer t).2.reaps env tracer) =
        B.filter (s.reaps env tracer) := by
      refine List.filter_congr fun p hp => ?_
      have hne : p ≠ t := fun he => htB (he ▸ hp)
      refine reaps_congr ?_ ?_ ?_ hgroup <;> rw [hother p hne]
    have hfirst := (next_first h hdet ht (by rwa [hnr]) hP hPB).1
    rw [hfirst, exitLoop_entry]
    cases hr : s.reaps env tracer t with
    | false =>
      have hnext := (next_first h hdet ht (by rwa [hnr]) hP hPB).2
      obtain ⟨P', D', h₁, h₂, h₂', h₃, h₄⟩ := ih n hdet (by rwa [hnr]) hPB hn (by rwa [hnd])
      rw [if_neg (by simp), hnext]
      refine ⟨P', D', h₁, h₂.trans hnr, h₂'.trans hnd, h₃, ?_⟩
      rw [h₄, hreaps, List.filter_cons_of_neg (by simp [hr])]
    | true =>
      obtain ⟨hp₀, he₀⟩ := detach_self hr
      have hbury := hdet.bury (by rwa [hnr]) hp₀ he₀ hdead (d := d) (by rwa [hnd])
      have hnext := (next_first h hbury ht (by rwa [hnr]) hP hPB).2
      obtain ⟨P', D', h₁, h₂, h₂', h₃, h₄⟩ := ih n hbury (by rwa [hnr]) hPB hn (by rwa [hnd])
      rw [if_pos rfl, hnext]
      refine ⟨P', D', h₁, h₂.trans hnr, h₂'.trans hnd, h₃, ?_⟩
      rw [h₄, Function.update_self, List.filter_cons_of_pos hr, List.reverse_cons,
        List.append_assoc]
      exact congrArg (fun l => l.reverse ++ t :: D d) hreaps

theorem exitPtrace_spec (h : RelInv s P D) (ht : tracer < s.nrTasks) : ∃ P' D',
    RelInv (s.exitPtrace env tracer) P' D' ∧ (s.exitPtrace env tracer).nrTasks = s.nrTasks ∧
    (s.exitPtrace env tracer).nrDead = s.nrDead+1 ∧ P' tracer = [] ∧
      D' s.nrDead = ((P tracer).filter (s.reaps env tracer)).reverse := by
  have hfresh : D s.nrDead = [] := List.eq_nil_iff_forall_not_mem.2 fun v hv =>
    absurd (h.mem_dead v _ hv).2.1 (lt_irrefl _)
  have hfuel : (P tracer).length < s.nrTasks+1 := Nat.lt_succ_of_le (h.length_le ht)
  obtain ⟨P', D', h₁, h₂, h₂', h₃, h₄⟩ :=
    exitLoop_spec (P tracer) (s.nrTasks+1) h.newDead ht rfl hfuel (Nat.lt_succ_self s.nrDead)
  refine ⟨P', D', h₁, h₂, h₂', h₃, ?_⟩
  rw [h₄, hfresh, List.append_nil]
  exact congrArg List.reverse (List.filter_congr fun p _ => reaps_congr rfl rfl rfl fun _ => rfl)

/-- The lists can be described. -/
def Wf (s : Tasks) : Prop := ∃ P D, RelInv s P D

theorem attachWord_ptraced (seize : Bool) (flags : BitVec 64) :
    (attachWord seize flags).getLsbD 0 = true := by
  cases seize <;> simp [attachWord, ptPtraced]

/-- The option bits leave `PT_PTRACED` alone. -/
theorem options_ptraced (w : BitVec 32) (data : BitVec 64) :
    ((w &&& ~~~(ptraceOMask <<< 3)) ||| (data <<< 3).setWidth 32).getLsbD 0 = w.getLsbD 0 := by
  simp [ptraceOMask]

theorem wf_ptraceAttach {cur : Tid} {seize : Bool} {addr flags : BitVec 64} {interrupted : Bool}
    {access : ℤ} (h : s.Wf) (hcur : cur < s.nrTasks) (ht : t < s.nrTasks) :
    (s.ptraceAttach cur t seize addr flags interrupted access).2.Wf := by
  obtain ⟨P, D, h⟩ := h
  rw [ptraceAttach]
  split_ifs with h₁ h₂ h₃ h₄ h₅
  · exact ⟨P, D, h⟩
  · exact ⟨P, D, h⟩
  · exact ⟨P, D, h⟩
  · exact ⟨P, D, h⟩
  · exact ⟨P, D, h⟩
  · rw [not_or, not_not, not_not] at h₅
    -- a task on a list of dead tasks has `EXIT_DEAD`, which the call refuses
    have hdead : ∀ k, t ∉ D k := fun k hk => by
      have := (h.mem_dead t k hk).2.2.2
      rw [h₅.1] at this
      cases this
    exact ⟨_, _, h.link ht hcur h₅.2 hdead (attachWord_ptraced seize flags)⟩

theorem wf_ptraceTraceme {cur : Tid} {security : ℤ} (h : s.Wf) (hcur : s.runs cur = true) :
    (s.ptraceTraceme cur security).2.Wf := by
  obtain ⟨P, D, h⟩ := h
  simp only [runs, Bool.and_eq_true, decide_eq_true_eq] at hcur
  rw [ptraceTraceme]
  split_ifs with h₁ h₂
  · exact ⟨P, D, h⟩
  · have hdead : ∀ k, cur ∉ D k := fun k hk => by
      have := (h.mem_dead cur k hk).2.2.2
      rw [hcur.2] at this
      cases this
    exact ⟨_, _, h.link hcur.1 (h.parent_lt cur hcur.1).2 (not_not.1 h₁) hdead rfl⟩
  · exact ⟨P, D, h⟩

theorem wf_ptraceSetoptions {cur : Tid} {data : BitVec 64} {suspend : ℤ} (h : s.Wf)
    (ha : s.attached cur t = true) : (s.ptraceSetoptions t data suspend).2.Wf := by
  obtain ⟨P, D, h⟩ := h
  simp only [attached, Bool.and_eq_true, decide_eq_true_eq] at ha
  obtain ⟨⟨ht, hp⟩, -⟩ := ha
  rw [ptraceSetoptions]
  split_ifs with h₁ h₂
  · exact ⟨P, D, h⟩
  · exact ⟨P, D, h⟩
  · have hbit := h.word t ht hp
    have hbit' := (options_ptraced (s.task t).ptrace data).trans hbit
    dsimp only
    refine ⟨P, D, h.modTask rfl rfl (iff_of_false ?_ hp) (fun _ => hbit') id⟩
    exact ne_zero_of_getLsbD hbit'

theorem wf_ptraceDetach {cur : Tid} {data : ℕ} (h : s.Wf) (ha : s.attached cur t = true) :
    (s.ptraceDetach env cur t data).2.Wf := by
  obtain ⟨P, D, h⟩ := h
  simp only [attached, Bool.and_eq_true, decide_eq_true_eq] at ha
  obtain ⟨⟨ht, hp⟩, rfl⟩ := ha
  rw [ptraceDetach]
  split_ifs with h₁
  · exact ⟨P, D, h⟩
  · obtain ⟨A, B, hP⟩ := List.append_of_mem ((h.mem_ptraced t _).2 ⟨ht, hp, rfl⟩)
    exact ⟨_, _, h.detach hP⟩

theorem wf_ptraceInitTask {cur : Tid} {v : Task} {ptrace : Bool} (h : s.Wf) (hcur : cur < s.nrTasks)
    (hv : v.realParent < s.nrTasks) : (s.ptraceInitTask cur v ptrace).Wf := by
  obtain ⟨P, D, h⟩ := h
  have hnew := h.newTask hv
  have hcur' : cur < (s.newTask v).nrTasks := Nat.lt_succ_of_lt hcur
  rw [ptraceInitTask]
  split_ifs with h₁
  · have hdead : ∀ k, s.nrTasks ∉ D k := fun k hk => absurd (h.mem_dead _ k hk).1 (lt_irrefl _)
    have h₀ : ((s.newTask v).task s.nrTasks).ptrace = 0 := by rw [newTask_self]
    exact ⟨_, _, hnew.link (Nat.lt_succ_self _) (hnew.parent_lt cur hcur').1 h₀ hdead
      (hnew.word cur hcur' h₁.2)⟩
  · exact ⟨P, D, hnew⟩

theorem wf_step {op : RelOp} (h : s.Wf) (hs : s.step op = some s') : s'.Wf := by
  cases op with
  | traceme cur security =>
    obtain ⟨hcur, hs⟩ := Option.ite_none_right_eq_some.1 hs
    obtain rfl := Option.some.inj hs
    exact wf_ptraceTraceme h hcur
  | attach cur t seize addr flags interrupted access =>
    obtain ⟨⟨hcur, ht⟩, hs⟩ := Option.ite_none_right_eq_some.1 hs
    obtain rfl := Option.some.inj hs
    simp only [runs, Bool.and_eq_true, decide_eq_true_eq] at hcur
    exact wf_ptraceAttach h hcur.1 ht
  | setoptions cur child data suspend =>
    obtain ⟨ha, hs⟩ := Option.ite_none_right_eq_some.1 hs
    obtain rfl := Option.some.inj hs
    exact wf_ptraceSetoptions h ha
  | detach cur child data env =>
    obtain ⟨ha, hs⟩ := Option.ite_none_right_eq_some.1 hs
    obtain rfl := Option.some.inj hs
    exact wf_ptraceDetach h ha
  | exitPtrace tracer env =>
    obtain ⟨ht, hs⟩ := Option.ite_none_right_eq_some.1 hs
    obtain rfl := Option.some.inj hs
    obtain ⟨P, D, h⟩ := h
    obtain ⟨P', D', h', -⟩ := exitPtrace_spec h ht
    exact ⟨P', D', h'⟩
  | initTask cur v ptrace =>
    obtain ⟨⟨hcur, hv⟩, hs⟩ := Option.ite_none_right_eq_some.1 hs
    obtain rfl := Option.some.inj hs
    simp only [runs, Bool.and_eq_true, decide_eq_true_eq] at hcur
    exact wf_ptraceInitTask h hcur.1 hv
  | exits t =>
    obtain ⟨-, hs⟩ := Option.ite_none_right_eq_some.1 hs
    obtain rfl := Option.some.inj hs
    obtain ⟨P, D, h⟩ := h
    exact ⟨P, D, h.modTask rfl rfl Iff.rfl id id⟩
  | becomesZombie t =>
    obtain ⟨ht, hs⟩ := Option.ite_none_right_eq_some.1 hs
    obtain rfl := Option.some.inj hs
    simp only [runs, Bool.and_eq_true, decide_eq_true_eq] at ht
    obtain ⟨P, D, h⟩ := h
    refine ⟨P, D, h.modTask rfl rfl Iff.rfl id fun hd => ?_⟩
    rw [ht.2] at hd
    cases hd

theorem wf_run {ops : List RelOp} (h : s.Wf) (hr : run ops s = some s') : s'.Wf := by
  induction ops generalizing s with
  | nil =>
    obtain rfl := Option.some.inj hr
    exact h
  | cons op ops ih =>
    obtain ⟨s₁, h₁, h₂⟩ := Option.bind_eq_some_iff.1 hr
    exact ih (wf_step h h₁) h₂

theorem filterMap_taskOf (L : List Tid) : (L.map .entry).filterMap taskOf = L := by
  induction L with
  | nil => rfl
  | cons t L ih => simp [taskOf, ih]

theorem ptracedList_eq (h : RelInv s P D) (hu : u < s.nrTasks) : s.ptracedList u = P u := by
  rw [ptracedList, (h.ring hu).toList_eq (by simpa using h.length_le hu), filterMap_taskOf]

theorem deadList_eq (h : RelInv s P D) (hd : d < s.nrDead) : s.deadList d = D d := by
  have hring : Ring s.links (.dead d) ((D d).map .entry) := h.rings.ring (.dead d) hd
  have hnd : (D d).Nodup := List.Nodup.of_map _ (List.nodup_cons.1 hring.nodup).2
  have hsub : D d ⊆ List.range s.nrTasks := fun t ht => List.mem_range.2 (h.mem_dead t d ht).1
  have hlen : (D d).length ≤ s.nrTasks := by
    simpa using (List.subperm_of_subset hnd hsub).length_le
  rw [deadList, hring.toList_eq (by simpa using hlen), filterMap_taskOf]

end Tasks

/-- A task is traced iff it is on the list of its parent, once and on no other list, the parent of a
task that is not traced is its real parent, and no `BUG_ON` has fired. -/
structure RelOk (s : Tasks) : Prop where
  linked : ∀ t < s.nrTasks, (s.task t).ptrace ≠ 0 ↔ (s.ptracedList (s.task t).parent).count t = 1
  only_parent : ∀ t, ∀ u < s.nrTasks, t ∈ s.ptracedList u → (s.task t).parent = u
  untraced : ∀ t < s.nrTasks, (s.task t).ptrace = 0 → (s.task t).parent = (s.task t).realParent
  no_bug : s.bug = false

theorem RelInv.relOk (h : RelInv s P D) : RelOk s := by
  refine ⟨fun t ht => ?_, fun t u hu hm => ?_, h.untraced, h.no_bug⟩
  · have hpar := (h.parent_lt t ht).1
    rw [Tasks.ptracedList_eq h hpar]
    have hone := List.nodup_iff_count_le_one.1 (h.nodup hpar) t
    have hmem : 0 < (P (s.task t).parent).count t ↔ (s.task t).ptrace ≠ 0 := by
      rw [List.count_pos_iff, h.mem_ptraced]
      simp [ht]
    rw [← hmem]
    omega
  · rw [Tasks.ptracedList_eq h hu] at hm
    exact ((h.mem_ptraced t u).1 hm).2.2

/-- The relation holds along every run. When a tracer exits, its list ends up empty, and the list of
dead tasks holds those of its tracees for which `__ptrace_detach` returned true. -/
theorem ptrace_relation_run {ops : List RelOp} (h : s.Wf) (hr : Tasks.run ops s = some s') :
    RelOk s' ∧ ∀ env, ∀ tracer < s'.nrTasks,
      (s'.exitPtrace env tracer).ptracedList tracer = [] ∧
      (s'.exitPtrace env tracer).deadList s'.nrDead =
        ((s'.ptracedList tracer).filter fun t => (s'.detach env tracer t).1).reverse := by
  obtain ⟨P, D, h'⟩ := Tasks.wf_run h hr
  refine ⟨h'.relOk, fun env tracer ht => ?_⟩
  obtain ⟨P', D', he, hnr, hnd, hnil, hdead⟩ := @Tasks.exitPtrace_spec s' P D env tracer h' ht
  constructor
  · rw [Tasks.ptracedList_eq he (by rwa [hnr]), hnil]
  · rw [Tasks.deadList_eq he (by rw [hnd]; exact Nat.lt_succ_self _), hdead,
      Tasks.ptracedList_eq h' ht]
    exact congrArg List.reverse (List.filter_congr fun t _ => Tasks.detach_fst.symm)

def threeTasks : Tasks where
  task t := { group := t }
  nrTasks := 3
  nrDead := 0
  links := ⟨id, id⟩

theorem wf_threeTasks : threeTasks.Wf := by
  have hitems : ∀ k, relItems (fun _ => []) (fun _ => []) k = [] := fun k => by cases k <;> rfl
  refine ⟨fun _ => [], fun _ => [], ?_, ?_, by simp, fun _ _ _ => rfl, ?_, ?_, rfl⟩
  · refine ⟨fun k _ => ?_, fun k _ k' _ hne => ?_⟩
    · rw [hitems]
      exact ⟨⟨rfl, rfl⟩, List.nodup_singleton _⟩
    · rw [hitems, hitems]
      simpa using hne.symm
  · exact fun t u => iff_of_false List.not_mem_nil fun h => h.2.1 rfl
  · exact fun t _ => ⟨Nat.zero_lt_succ 2, Nat.zero_lt_succ 2⟩
  · exact fun t _ h => absurd rfl h

def attachForkDie : List RelOp :=
  [.attach 1 2 false 0 0 false 0, .initTask 2 { realParent := 2, group := 3 } true,
    .becomesZombie 2]

theorem ptrace_relation_run_threeTasks : ∃ s', Tasks.run attachForkDie threeTasks = some s' ∧
    s'.ptracedList 1 = [3, 2] ∧ RelOk s' := by
  have hrun : (Tasks.run attachForkDie threeTasks).map (·.ptracedList 1) = some [3, 2] := by decide
  obtain ⟨s', hs, hl⟩ := Option.map_eq_some_iff.1 hrun
  exact ⟨s', hs, hl, (ptrace_relation_run wf_threeTasks hs).1⟩

end PtraceRemote
