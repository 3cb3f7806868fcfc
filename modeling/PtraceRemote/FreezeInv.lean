import PtraceRemote.Freeze
import Mathlib.Logic.Relation

/-! The freeze protocol holds in every interleaving: a remote request works on a tracee that is
frozen for its caller, and no call leaves the tracee frozen. -/
namespace PtraceRemote
open Tracee

structure FreezeInv {ρ : Type*} (s : Tracee ρ) : Prop where
  /-- a frozen tracee belongs to a call of its tracer -/
  frozen : s.state = taskFrozen → s.ptrace ≠ 0 ∧ (s.call s.parent).owns = true
  attached : ∀ c, (s.call c).attached = true → s.exited = true ∨ s.isTracedBy c
  waiting : ∀ c compat req, s.call c = .waiting compat req →
    req.ignoreState = false ∧ (s.exited = true ∨ s.listening = false)
  body : ∀ c compat req, s.call c = .body compat req → req.ignoreState = false →
    s.state = taskFrozen ∧ s.onCpu = false ∧ s.listening = false
  dead : s.exited = true → s.state = taskDead
  killed : s.killedFrozen = true → s.state = taskFrozen ∧ s.fatal = true
  ptraced : s.ptrace ≠ 0 → s.ptrace.getLsbD 0 = true
  history : ∀ c r ret, s.call c = .outside (some (.remote r, ret, false)) → ret = -ESRCH

namespace Tracee
variable {ρ : Type*} (s : Tracee ρ)

theorem setCall_self (c : Tid) (p : Call) : (s.setCall c p).call c = p := Function.update_self ..

theorem setCall_ne {c d : Tid} (p : Call) (h : d ≠ c) : (s.setCall c p).call d = s.call d :=
  Function.update_of_ne h ..

theorem wakeUpState_cases (mask : ℕ) :
    (s.state &&& mask ≠ 0 ∧ s.wakeUpState mask =
      { s with state := taskRunning, onCpu := true, killedFrozen := false }) ∨
    (s.state &&& mask = 0 ∧ s.wakeUpState mask = s) := by
  unfold wakeUpState
  by_cases h : s.state &&& mask = 0
  · exact Or.inr ⟨h, if_neg (not_not.mpr h)⟩
  · exact Or.inl ⟨h, if_pos h⟩

end Tracee

theorem running_ne_frozen : taskRunning ≠ taskFrozen := by decide
theorem traced_ne_frozen : taskTraced ≠ taskFrozen := by decide
theorem dead_ne_frozen : taskDead ≠ taskFrozen := by decide

namespace FreezeInv
variable {ρ : Type*} {s : Tracee ρ}

theorem alive (h : FreezeInv s) (hst : s.state = taskFrozen) : s.exited = false := by
  refine Bool.eq_false_iff.mpr fun he => ?_
  rw [h.dead he] at hst
  exact absurd hst (by decide)

/-- Of the calls past `ptrace_check_attach` only that of the tracer is on a live tracee. -/
theorem tracer (h : FreezeInv s) (hex : s.exited = false) {c : Tid}
    (hc : (s.call c).attached = true) : s.ptrace ≠ 0 ∧ s.parent = c := by
  rcases h.attached c hc with he | ht
  · rw [hex] at he; cases he
  · exact ht

theorem wake (h : FreezeInv s) {mask : ℕ}
    (hb : ∀ c compat req, s.call c = .body compat req → req.ignoreState = false →
      s.state &&& mask = 0)
    (hd : s.exited = true → s.state &&& mask = 0) : FreezeInv (s.wakeUpState mask) := by
  rcases s.wakeUpState_cases mask with ⟨hm, hw⟩ | ⟨-, hw⟩ <;> rw [hw]
  · exact ⟨fun hst => absurd hst running_ne_frozen, h.attached, h.waiting,
      fun c compat req hc hi => absurd (hb c compat req hc hi) hm,
      fun he => absurd (hd he) hm, fun hk => absurd hk Bool.false_ne_true, h.ptraced, h.history⟩
  · exact h

/-- A call moves on without touching the tracee. -/
theorem move (h : FreezeInv s) {c : Tid} {p : Call}
    (howns : s.state = taskFrozen → s.parent = c → p.owns = true)
    (hatt : p.attached = true → s.exited = true ∨ s.isTracedBy c)
    (hwait : ∀ compat req, p = .waiting compat req →
      req.ignoreState = false ∧ (s.exited = true ∨ s.listening = false))
    (hbody : ∀ compat req, p = .body compat req → req.ignoreState = false →
      s.state = taskFrozen ∧ s.onCpu = false ∧ s.listening = false)
    (hhist : ∀ r ret, p = .outside (some (.remote r, ret, false)) → ret = -ESRCH) :
    FreezeInv (s.setCall c p) := by
  have hcall (d : Tid) : (s.setCall c p).call d = if d = c then p else s.call d :=
    Function.update_apply ..
  refine ⟨fun hst => ⟨(h.frozen hst).1, ?_⟩, fun d hd => ?_, fun d compat req hd => ?_,
    fun d compat req hd => ?_, h.dead, h.killed, h.ptraced, fun d r ret hd => ?_⟩
  · change ((s.setCall c p).call s.parent).owns = true
    rw [hcall]
    split
    · rename_i hp; exact howns hst hp
    · exact (h.frozen hst).2
  all_goals
    rw [hcall] at hd
    split at hd
  · rename_i hdc; exact hdc ▸ hatt hd
  · exact h.attached d hd
  · exact hwait compat req hd
  · exact h.waiting d compat req hd
  · exact hbody compat req hd
  · exact h.body d compat req hd
  · exact hhist r ret hd
  · exact h.history d r ret hd

/-- A call that is over, or past its body, moves on. -/
theorem move_outside (h : FreezeInv s) {c : Tid} {last : Option (Request × ℤ × Bool)}
    (howns : s.state = taskFrozen → s.parent ≠ c)
    (hhist : ∀ r ret, last = some (.remote r, ret, false) → ret = -ESRCH) :
    FreezeInv (s.setCall c (.outside last)) :=
  h.move (fun hst hp => absurd hp (howns hst)) (fun hf => by cases hf) (fun _ _ hf => by cases hf)
    (fun _ _ hf => by cases hf) fun r ret hl => hhist r ret (Call.outside.inj hl)

theorem sigkill (h : FreezeInv s) : FreezeInv s.sigkill := by
  have hinv : FreezeInv { s with
      fatal := true, killedFrozen := s.killedFrozen || s.state == taskFrozen } := by
    refine ⟨h.frozen, h.attached, h.waiting, h.body, h.dead,
      fun hk => ⟨?_, rfl⟩, h.ptraced, h.history⟩
    rcases Bool.or_eq_true_iff.mp hk with hk | hk
    · exact (h.killed hk).1
    · exact beq_iff_eq.mp hk
  refine hinv.wake (fun c compat req hc hi => ?_) fun he => ?_
  · change s.state &&& _ = 0
    rw [(h.body c compat req hc hi).1]; decide
  · change s.state &&& _ = 0
    rw [h.dead he]; decide

/-- A tracer that is outside `ptrace()` lets its tracee go. -/
theorem unlink (h : FreezeInv s) {c : Tid} (hp : (s.call c).attached = false) (ht : s.isTracedBy c)
    (stopPending : Bool) : FreezeInv (s.ptraceUnlink stopPending) := by
  have hquiet (d : Tid) (hd : (s.call d).attached = true) : s.exited = true := by
    rcases h.attached d hd with he | hd'
    · exact he
    · rw [← ht.2, hd'.2] at hp; rw [hp] at hd; cases hd
  have hst : s.state ≠ taskFrozen := fun hst => by
    have := (h.frozen hst).2
    rw [ht.2, Call.owns, hp] at this; cases this
  have hinv : FreezeInv { s with parent := s.realParent, ptrace := 0, trapNotify := false } :=
    ⟨fun hf => absurd hf hst, fun d hd => Or.inl (hquiet d hd), h.waiting, h.body, h.dead, h.killed,
      fun hf => absurd rfl hf, h.history⟩
  unfold ptraceUnlink
  dsimp only
  split
  · refine hinv.wake (fun d compat req hd hi => absurd (h.body d compat req hd hi).1 hst)
      fun he => ?_
    change s.state &&& _ = 0
    rw [h.dead he]; decide
  · exact hinv

theorem env_step {s' : Tracee ρ} (h : FreezeInv s) (hs : EnvStep s s') : FreezeInv s' := by
  have hrun (hst : s.state = taskRunning) : s.exited = false ∧ s.state ≠ taskFrozen ∧
      s.killedFrozen = false := by
    have hne : s.state ≠ taskFrozen := by rw [hst]; decide
    refine ⟨Bool.eq_false_iff.mpr fun he => ?_, hne, Bool.eq_false_iff.mpr fun hk =>
      hne (h.killed hk).1⟩
    rw [h.dead he] at hst; exact absurd hst (by decide)
  cases hs with
  | run res fatal hst =>
    obtain ⟨-, hne, hk⟩ := hrun hst
    exact ⟨fun hf => absurd hf hne, h.attached,
      fun c compat req hc => ⟨(h.waiting c compat req hc).1, Or.inr rfl⟩,
      fun c compat req hc hi => absurd (h.body c compat req hc hi).1 hne, h.dead,
      fun hf => absurd (hk.symm.trans hf) Bool.false_ne_true, h.ptraced, h.history⟩
  | stop eventStop hst ht hex =>
    obtain ⟨-, hne, hk⟩ := hrun hst
    exact ⟨fun hf => absurd hf traced_ne_frozen, h.attached, h.waiting,
      fun c compat req hc hi => absurd (h.body c compat req hc hi).1 hne,
      fun he => absurd (hex.symm.trans he) Bool.false_ne_true,
      fun hf => absurd (hk.symm.trans hf) Bool.false_ne_true, h.ptraced, h.history⟩
  | stopAborted hcpu ht =>
    refine ⟨fun hf => absurd hf running_ne_frozen, h.attached, h.waiting,
      fun c compat req hc hi => ?_,
      fun he => ?_, fun hf => absurd hf Bool.false_ne_true, h.ptraced, h.history⟩
    · have := (h.body c compat req hc hi).2.1
      rw [hcpu] at this; cases this
    · rw [taskIsTraced, h.dead he] at ht; exact absurd ht (by decide)
  | schedule hst =>
    split
    · rename_i hw
      refine ⟨fun hf => absurd hf running_ne_frozen, h.attached, h.waiting,
        fun c compat req hc hi => ?_, fun he => ?_, fun hf => absurd hf Bool.false_ne_true,
        h.ptraced, h.history⟩
      · rw [(h.body c compat req hc hi).1] at hw; exact absurd hw.1 (by decide)
      · rw [h.dead he] at hw; exact absurd hw.1 (by decide)
    · exact ⟨h.frozen, h.attached, h.waiting,
        fun c compat req hc hi =>
        ⟨(h.body c compat req hc hi).1, rfl, (h.body c compat req hc hi).2.2⟩,
        h.dead, h.killed, h.ptraced, h.history⟩
  | sleep st hst hs =>
    obtain ⟨hex, hne, hk⟩ := hrun hst
    refine ⟨fun hf => ?_, h.attached, h.waiting,
      fun c compat req hc hi => absurd (h.body c compat req hc hi).1 hne,
      fun he => absurd (hex.symm.trans he) Bool.false_ne_true,
      fun hf => absurd (hk.symm.trans hf) Bool.false_ne_true, h.ptraced, h.history⟩
    change st = taskFrozen at hf
    rw [hf] at hs; exact absurd hs (by decide)
  | wake hs hex =>
    have hne : s.state ≠ taskFrozen := fun hst => by
      rw [taskIsTraced, hst] at hs; exact absurd hs (by decide)
    exact ⟨fun hf => absurd hf running_ne_frozen, h.attached, h.waiting,
      fun c compat req hc hi => absurd (h.body c compat req hc hi).1 hne,
      fun he => absurd (hex.symm.trans he) Bool.false_ne_true,
      fun hf => absurd (h.killed hf).1 hne, h.ptraced, h.history⟩
  | exit hst =>
    obtain ⟨-, hne, hk⟩ := hrun hst
    exact ⟨fun hf => absurd hf dead_ne_frozen, fun _ _ => Or.inl rfl,
      fun c compat req hc => ⟨(h.waiting c compat req hc).1, Or.inl rfl⟩,
      fun c compat req hc hi => absurd (h.body c compat req hc hi).1 hne, fun _ => rfl,
      fun hf => absurd (hk.symm.trans hf) Bool.false_ne_true, h.ptraced, h.history⟩
  | release hex =>
    have hne : s.state ≠ taskFrozen := by rw [h.dead hex]; decide
    exact ⟨fun hf => absurd hf hne, fun _ _ => Or.inl hex, h.waiting, h.body, h.dead, h.killed,
      fun hf => absurd rfl hf, h.history⟩
  | reparent p =>
    have hpar (hp : s.ptrace ≠ 0) : (if s.ptrace = 0 then p else s.parent) = s.parent := if_neg hp
    refine ⟨fun hf => ⟨(h.frozen hf).1, ?_⟩, fun c hc => ?_, h.waiting, h.body, h.dead, h.killed,
      h.ptraced, h.history⟩
    · change (s.call (if s.ptrace = 0 then p else s.parent)).owns = true
      rw [hpar (h.frozen hf).1]; exact (h.frozen hf).2
    · rcases h.attached c hc with he | ht
      · exact Or.inl he
      · exact Or.inr ⟨ht.1, (hpar ht.1).trans ht.2⟩
  | sigkill => exact h.sigkill
  | trapNotify =>
    have hinv : FreezeInv { s with trapNotify := true } :=
      ⟨h.frozen, h.attached, h.waiting, h.body, h.dead, h.killed, h.ptraced, h.history⟩
    refine hinv.wake (fun c compat req hc hi => ?_) fun he => ?_
    · obtain ⟨h1, -, h3⟩ := h.body c compat req hc hi
      change s.state &&& _ = 0
      rw [h1, h3]; decide
    · change s.state &&& _ = 0
      rw [h.dead he]; cases s.listening <;> decide
  | exitPtrace c last stopPending hp ht =>
    have hatt : (s.call c).attached = false := by rw [hp]; rfl
    split
    · have hkill : s.sigkill.call = s.call ∧ s.sigkill.ptrace = s.ptrace ∧
          s.sigkill.parent = s.parent := by
        unfold Tracee.sigkill
        rcases wakeUpState_cases _ (taskWakekill ||| taskInterruptible) with ⟨-, hw⟩ | ⟨-, hw⟩ <;>
          rw [hw] <;> exact ⟨rfl, rfl, rfl⟩
      refine h.sigkill.unlink (c := c) (by rw [hkill.1]; exact hatt) ?_ stopPending
      exact ⟨by rw [hkill.2.1]; exact ht.1, by rw [hkill.2.2]; exact ht.2⟩
    · exact h.unlink hatt ht stopPending

/-- The body of the tracer's request is over; nobody else is past `ptrace_check_attach`. -/
theorem bodyDone (h : FreezeInv s) {c : Tid} (hquiet : ∀ d, d ≠ c → (s.call d).attached = false)
    {t : Tracee ρ} {req : Request} {ret : ℤ} (hcall : t.call = s.call) (hex : t.exited = false)
    (hst : t.state = taskFrozen → t.isTracedBy c ∧ (Call.bodyDone req ret).owns = true)
    (hatt : (Call.bodyDone req ret).attached = true → t.isTracedBy c)
    (hk : t.killedFrozen = true → t.state = taskFrozen ∧ t.fatal = true)
    (hpt : t.ptrace ≠ 0 → t.ptrace.getLsbD 0 = true) :
    FreezeInv (t.setCall c (.bodyDone req ret)) := by
  have hother (d : Tid) (hd : d ≠ c) : (t.setCall c (.bodyDone req ret)).call d = s.call d := by
    rw [t.setCall_ne _ hd, hcall]
  refine ⟨fun hf => ⟨(hst hf).1.1, ?_⟩, fun d hd => ?_, fun d compat req' hd => ?_,
    fun d compat req' hd => ?_, fun he => absurd (hex.symm.trans he) Bool.false_ne_true, hk, hpt,
    fun d r ret' hd => ?_⟩
  · change ((t.setCall c (.bodyDone req ret)).call t.parent).owns = true
    rw [(hst hf).1.2, t.setCall_self]; exact (hst hf).2
  all_goals by_cases hdc : d = c
  · rw [hdc, t.setCall_self] at hd; exact Or.inr (hdc ▸ hatt hd)
  · rw [hother d hdc, hquiet d hdc] at hd; cases hd
  · rw [hdc, t.setCall_self] at hd; cases hd
  · have := hquiet d hdc
    rw [← hother d hdc, hd] at this; cases this
  · rw [hdc, t.setCall_self] at hd; cases hd
  · have := hquiet d hdc
    rw [← hother d hdc, hd] at this; cases this
  · rw [hdc, t.setCall_self] at hd; cases hd
  · rw [hother d hdc] at hd; exact h.history d r ret' hd

/-- `__ptrace_unlink` wakes a tracee that is frozen. -/
theorem ptraceUnlink_spec (h : FreezeInv s) (stopPending : Bool) :
    (s.ptraceUnlink stopPending).call = s.call ∧ (s.ptraceUnlink stopPending).exited = s.exited ∧
    (s.ptraceUnlink stopPending).ptrace = 0 ∧ (s.ptraceUnlink stopPending).state ≠ taskFrozen ∧
    (s.ptraceUnlink stopPending).killedFrozen = false := by
  have hk (hne : s.state ≠ taskFrozen) : s.killedFrozen = false :=
    Bool.eq_false_iff.mpr fun hk => hne (h.killed hk).1
  unfold ptraceUnlink
  dsimp only
  split
  · rcases wakeUpState_cases { s with parent := s.realParent, ptrace := 0, trapNotify := false }
      ((if true then taskFrozen else 0) ||| taskInterruptible) with ⟨-, hw⟩ | ⟨hm, hw⟩
    · unfold ptraceSignalWakeUp
      rw [hw]
      exact ⟨rfl, rfl, rfl, running_ne_frozen, rfl⟩
    · unfold ptraceSignalWakeUp
      rw [hw]
      have hne : s.state ≠ taskFrozen := fun hst => by
        change s.state &&& _ = 0 at hm
        rw [hst] at hm; exact absurd hm (by decide)
      exact ⟨rfl, rfl, rfl, hne, hk hne⟩
  · rename_i hno
    have hne : s.state ≠ taskFrozen := fun hst => hno (Bool.or_eq_true_iff.mpr (Or.inr (by
      change decide (s.state &&& taskFrozen ≠ 0) = true
      rw [hst]; decide)))
    exact ⟨rfl, rfl, rfl, hne, hk hne⟩

end FreezeInv

structure BodyEffect {ρ : Type*} (s t : Tracee ρ) : Prop where
  call : t.call = s.call
  exited : t.exited = s.exited
  parent : t.parent = s.parent
  ptraced : t.ptrace.getLsbD 0 = s.ptrace.getLsbD 0
  res : t.res = s.res
  state : t.state = s.state ∧ t.killedFrozen = s.killedFrozen ∧ t.fatal = s.fatal ∨
    s.state ≠ taskDead ∧ t.state = taskRunning ∧ t.killedFrozen = false

namespace BodyEffect
variable {ρ : Type*} {s t : Tracee ρ}

theorem refl (s : Tracee ρ) : BodyEffect s s :=
  ⟨rfl, rfl, rfl, rfl, rfl, Or.inl ⟨rfl, rfl, rfl⟩⟩

theorem wake (h : BodyEffect s t) (hst : t.state = s.state) {mask : ℕ}
    (hm : taskDead &&& mask = 0) : BodyEffect s (t.wakeUpState mask) := by
  rcases t.wakeUpState_cases mask with ⟨hw, heq⟩ | ⟨-, heq⟩ <;> rw [heq]
  · refine ⟨h.call, h.exited, h.parent, h.ptraced, h.res, Or.inr ⟨fun hd => hw ?_, rfl, rfl⟩⟩
    rw [hst, hd, hm]
  · exact h

theorem signalWake (h : BodyEffect s t) (hst : t.state = s.state) (resume : Bool) :
    BodyEffect s (t.ptraceSignalWakeUp resume) :=
  h.wake hst (by cases resume <;> decide)

end BodyEffect

theorem setoptions_bit (p mask opts : BitVec 32) :
    (p &&& ~~~(mask <<< 3) ||| opts <<< 3).getLsbD 0 = p.getLsbD 0 := by
  simp

theorem requestBody_effect {ρ : Type*} (s : Tracee ρ) (lucky pending : Bool) (data : ℤ)
    {req : Request} (hd : req ≠ .detach true) :
    BodyEffect s (s.requestBody lucky pending data req).2 := by
  have hresume (valid : Bool) : BodyEffect s (s.ptraceResume valid).2 := by
    cases valid with
    | true => exact (BodyEffect.refl s).wake rfl (by decide)
    | false => exact .refl s
  cases req with
  | setoptions opts =>
    change BodyEffect s (s.ptraceSetoptions lucky opts).2
    unfold ptraceSetoptions
    split
    · exact ⟨rfl, rfl, rfl, setoptions_bit _ _ _, rfl, Or.inl ⟨rfl, rfl, rfl⟩⟩
    · exact .refl s
  | interrupt =>
    change BodyEffect s (s.ptraceInterrupt lucky pending).2
    unfold ptraceInterrupt
    split
    · dsimp only
      split
      · exact (BodyEffect.refl s).signalWake rfl _
      · exact .refl s
    · exact .refl s
  | listen =>
    have hl : BodyEffect s { s with listening := true } :=
      ⟨rfl, rfl, rfl, rfl, rfl, Or.inl ⟨rfl, rfl, rfl⟩⟩
    change BodyEffect s (s.ptraceListen lucky).2
    unfold ptraceListen
    split
    · dsimp only
      split
      · exact hl.signalWake rfl true
      · exact hl
    · exact .refl s
  | detach valid =>
    cases valid with
    | true => exact absurd rfl hd
    | false => exact .refl s
  | resume valid => exact hresume valid
  | kill =>
    change BodyEffect s (if s.exited then (0, s) else s.ptraceResume true).2
    split
    · exact .refl s
    · exact hresume true
  | traceme => exact .refl s
  | attach => exact .refl s
  | seize => exact .refl s
  | other => exact .refl s
  | remote r => exact .refl s

namespace FreezeInv
variable {ρ : Type*} {s : Tracee ρ}

/-- On a dead tracee only the requests that ignore its state get to their body. -/
theorem body_dead (h : FreezeInv s) {c : Tid} {compat : Bool} {req : Request}
    (hp : s.call c = .body compat req) (hex : s.exited = true) : req.ignoreState = true := by
  by_contra hi
  have := (h.body c compat req hp (Bool.eq_false_iff.mpr hi)).1
  rw [h.dead hex] at this
  exact dead_ne_frozen this

theorem requestBody_dead (h : FreezeInv s) (hex : s.exited = true) (lucky pending : Bool) (data : ℤ)
    {req : Request} (hi : req.ignoreState = true) :
    (s.requestBody lucky pending data req).2 = s := by
  have hwake (resume : Bool) : s.ptraceSignalWakeUp resume = s := by
    unfold ptraceSignalWakeUp wakeUpState
    rw [h.dead hex]
    cases resume <;> rfl
  cases req <;> try cases hi
  · change (if s.exited then (0, s) else s.ptraceResume true).2 = s
    rw [if_pos hex]
  · change (s.ptraceInterrupt lucky pending).2 = s
    unfold ptraceInterrupt
    rw [hwake]
    split
    · exact ite_self s
    · rfl

theorem bodyEnd (h : FreezeInv s) {c : Tid} {compat : Bool} {req : Request}
    (hp : s.call c = .body compat req) (lucky pending : Bool) (data : ℤ) :
    FreezeInv ((s.requestBody lucky pending data req).2.setCall c
      (.bodyDone req (s.requestBody lucky pending data req).1)) := by
  have hatt : (s.call c).attached = true := by rw [hp]; rfl
  by_cases hd : req = .detach true
  · subst hd
    have hex : s.exited = false := Bool.eq_false_iff.mpr fun he => by
      have := h.body_dead hp he; cases this
    have ht := h.tracer hex hatt
    obtain ⟨h1, h2, h3, h4, h5⟩ := h.ptraceUnlink_spec pending
    exact h.bodyDone (fun d hd => Bool.eq_false_iff.mpr fun ha =>
        hd ((h.tracer hex ha).2.symm.trans ht.2)) h1 (h2.trans hex) (fun hf => absurd hf h4)
      (fun ha => by cases ha) (fun hf => absurd (h5.symm.trans hf) Bool.false_ne_true)
      fun hf => absurd h3 hf
  have heff := requestBody_effect s lucky pending data hd
  have hdet : (req.isDetach && (s.requestBody lucky pending data req).1 == 0) = false := by
    cases req with
    | detach valid =>
      cases valid with
      | true => exact absurd rfl hd
      | false => rfl
    | _ => rfl
  cases hex : s.exited with
  | true =>
    rw [h.requestBody_dead hex lucky pending data (h.body_dead hp hex)]
    exact h.move (fun hst => absurd ((h.dead hex).symm.trans hst) dead_ne_frozen)
      (fun _ => Or.inl hex) (fun _ _ hf => by cases hf) (fun _ _ hf => by cases hf)
      (fun _ _ hf => by cases hf)
  | false =>
    generalize s.requestBody lucky pending data req = r at heff hdet ⊢
    have ht := h.tracer hex hatt
    have hquiet (d : Tid) (hd : d ≠ c) : (s.call d).attached = false :=
      Bool.eq_false_iff.mpr fun ha => hd ((h.tracer hex ha).2.symm.trans ht.2)
    have hbit : r.2.ptrace.getLsbD 0 = true := heff.ptraced.trans (h.ptraced ht.1)
    have htr : r.2.isTracedBy c :=
      ⟨fun h0 => by rw [h0] at hbit; simp at hbit, heff.parent.trans ht.2⟩
    refine h.bodyDone hquiet heff.call (heff.exited.trans hex) (fun hf => ⟨htr, ?_⟩) (fun _ => htr)
      (fun hk => ?_) fun _ => hbit
    · have hst : s.state = taskFrozen := by
        rcases heff.state with ⟨h1, -⟩ | ⟨-, h1, -⟩
        · exact h1.symm.trans hf
        · exact absurd (h1.symm.trans hf) running_ne_frozen
      have hfr := (h.frozen hst).2
      rw [ht.2, hp] at hfr
      simp only [Call.owns, Call.ignoreState, Call.attached, Bool.and_eq_true] at hfr ⊢
      exact ⟨by rw [hdet]; rfl, hfr.2⟩
    · rcases heff.state with ⟨h1, h2, h3⟩ | ⟨-, -, h2⟩
      · rw [h1, h3]; exact h.killed (h2.symm.trans hk)
      · exact absurd (h2.symm.trans hk) Bool.false_ne_true

theorem finish (h : FreezeInv s) {c : Tid} {req : Request} {ret : ℤ}
    (hp : s.call c = .bodyDone req ret) :
    FreezeInv ((if ret ≠ 0 ∨ req.isDetach = false then s.ptraceUnfreezeTraced else s).setCall c
      (.outside (some (req, ret, true)))) := by
  have hhist : ∀ r ret', some (req, ret, true) = some (Request.remote r, ret', false) →
      ret' = -ESRCH :=
    fun r ret' hf => by cases hf
  split
  · rename_i hun
    have hatt : (s.call c).attached = true := by
      rw [hp]
      rcases hun with hr | hr <;> simp [Call.attached, hr]
    unfold ptraceUnfreezeTraced
    split
    · rename_i hst
      exact h.move_outside (fun hf => absurd hf hst) hhist
    · rename_i hst
      replace hst := not_not.mp hst
      -- the tracee is frozen, so it is frozen for this call
      have hmine := h.tracer (h.alive hst) hatt
      have hnobody (d : Tid) (compat : Bool) (req' : Request) : s.call d ≠ .body compat req' :=
          fun hd => by
        have := (h.tracer (h.alive hst) (c := d) (by rw [hd]; rfl)).2
        rw [← this, hmine.2, hp] at hd; cases hd
      split
      · refine (h.wake (fun d compat req' hd => absurd hd (hnobody d compat req'))
          fun he => ?_).move_outside (fun hf => ?_) hhist
        · rw [h.alive hst] at he; cases he
        · rcases s.wakeUpState_cases taskFrozen with ⟨-, hw⟩ | ⟨hm, -⟩
          · rw [hw] at hf; exact absurd hf running_ne_frozen
          · rw [hst] at hm; exact absurd hm (by decide)
      · rename_i hfatal
        have hinv : FreezeInv { s with state := taskTraced } :=
          ⟨fun hf => absurd hf traced_ne_frozen, h.attached, h.waiting,
            fun d compat req' hd => absurd hd (hnobody d compat req'),
            fun he => absurd ((h.alive hst).symm.trans he) Bool.false_ne_true,
            fun hk => absurd (h.killed hk).2 hfatal, h.ptraced, h.history⟩
        exact hinv.move_outside (fun hf => absurd hf traced_ne_frozen) hhist
  · rename_i hdet
    refine h.move_outside (fun hst hpar => ?_) hhist
    have := (h.frozen hst).2
    rw [hpar, hp] at this
    rw [not_or, not_not, Bool.not_eq_false] at hdet
    simp [Call.owns, Call.attached, hdet.1, hdet.2] at this

theorem freeze (h : FreezeInv s) {c : Tid} {compat : Bool} {req : Request}
    (hi : req.ignoreState = false) (ht : s.isTracedBy c) (hf : s.canFreeze = true) :
    FreezeInv ({ s with state := taskFrozen }.setCall c (.waiting compat req)) := by
  simp only [canFreeze, Bool.and_eq_true, Bool.not_eq_true'] at hf
  obtain ⟨⟨hlisten, htraced⟩, hfatal⟩ := hf
  have hex : s.exited = false := Bool.eq_false_iff.mpr fun he => by
    rw [taskIsTraced, h.dead he] at htraced; exact absurd htraced (by decide)
  have hself := setCall_self { s with state := taskFrozen } c (.waiting compat req)
  have hother (d : Tid) (hd : d ≠ c) :
      ({ s with state := taskFrozen }.setCall c (.waiting compat req)).call d = s.call d :=
    setCall_ne _ _ hd
  refine ⟨fun _ => ⟨ht.1, ?_⟩, fun d hd => ?_, fun d compat' req' hd => ?_,
    fun d compat' req' hd hi' => ?_, fun he => absurd (hex.symm.trans he) Bool.false_ne_true,
    fun hk => ⟨rfl, (h.killed hk).2⟩, h.ptraced, fun d r ret hd => ?_⟩
  · change (Function.update s.call c (.waiting compat req) s.parent).owns = true
    rw [ht.2, Function.update_self]
    simp [Call.owns, Call.attached, Call.ignoreState, hi]
  all_goals by_cases hdc : d = c
  · exact Or.inr (hdc ▸ ht)
  · rw [hother d hdc] at hd; exact h.attached d hd
  · rw [hdc, hself] at hd; cases hd; exact ⟨hi, Or.inr hlisten⟩
  · rw [hother d hdc] at hd; exact h.waiting d compat' req' hd
  · rw [hdc, hself] at hd; cases hd
  · rw [hother d hdc] at hd
    exact absurd ((h.tracer hex (c := d) (by rw [hd]; rfl)).2.symm.trans ht.2) hdc
  · rw [hdc, hself] at hd; cases hd
  · rw [hother d hdc] at hd; exact h.history d r ret hd

theorem call_step {s' : Tracee ρ} {c : Tid} (h : FreezeInv s) (hs : CallStep c s s') :
    FreezeInv s' := by
  have hfree (hno : (s.call c).owns = false) (hst : s.state = taskFrozen) : s.parent ≠ c :=
    fun hpar => by
      have := (h.frozen hst).2
      rw [hpar, hno] at this; cases this
  have hfail (req : Request) (hno : (s.call c).owns = false ∨ s.state ≠ taskFrozen)
    (compat : Bool) :
      FreezeInv (s.checkAttachDone c compat req (-ESRCH)) := by
    have herr : (if compat = true then -ESRCH ≠ 0 else -ESRCH < 0) := by cases compat <;> decide
    unfold checkAttachDone
    rw [if_pos herr]
    refine h.move_outside (fun hst => ?_) fun r ret hf => by cases hf; rfl
    exact hfree (hno.resolve_right fun hne => hne hst) hst
  have hok (compat : Bool) (req : Request) :
      s.checkAttachDone c compat req 0 = s.setCall c (.body compat req) := by
    unfold checkAttachDone
    cases compat <;> rfl
  cases hs with
  | call compat req last hp =>
    exact h.move (fun hst hpar => absurd hpar (hfree (by rw [hp]; rfl) hst)) (fun hf => by cases hf)
      (fun _ _ hf => by cases hf) (fun _ _ hf => by cases hf) (fun _ _ hf => by cases hf)
  | lookup compat req hp =>
    exact h.move_outside (hfree (by rw [hp]; rfl)) fun r ret hf => by cases hf; rfl
  | traceme compat hp hc h0 =>
    have hne : s.state ≠ taskFrozen := fun hst => (h.frozen hst).1 h0
    have hinv : FreezeInv { s with ptrace := ptPtraced, parent := s.realParent } :=
      ⟨fun hf => absurd hf hne,
      fun d hd => Or.inl ((h.attached d hd).resolve_right fun ht => ht.1 h0),
        h.waiting, h.body, h.dead, h.killed,
        fun _ => (by decide : ptPtraced.getLsbD 0 = true), h.history⟩
    exact hinv.move_outside (fun hf => absurd hf hne) fun r ret hf => by cases hf
  | attach compat req opts hp hreq hc h0 hex =>
    have hne : s.state ≠ taskFrozen := fun hst => (h.frozen hst).1 h0
    have hbit (o : BitVec 32) : (if req = Request.seize then ptPtraced ||| ptSeized ||| o <<< 3
        else ptPtraced).getLsbD 0 = true := by
      split <;> simp [ptPtraced, ptSeized]
    have hinv : FreezeInv { s with
        ptrace := if req = Request.seize then ptPtraced ||| ptSeized ||| opts <<< 3 else ptPtraced
        parent := c } :=
      ⟨fun hf => absurd hf hne,
      fun d hd => Or.inl ((h.attached d hd).resolve_right fun ht => ht.1 h0),
        h.waiting, h.body, h.dead, h.killed, fun _ => hbit opts, h.history⟩
    have hwake := @FreezeInv.wake _ _ hinv (taskInterruptible ||| taskStoppedBit)
      (fun d compat req' hd hi => absurd (h.body d compat req' hd hi).1 hne)
      fun he => absurd (hex.symm.trans he) Bool.false_ne_true
    refine hwake.move_outside (fun hf => ?_) fun r ret hf => ?_
    · rcases wakeUpState_cases { s with ptrace := _, parent := c }
        (taskInterruptible ||| taskStoppedBit) with ⟨-, hw⟩ | ⟨-, hw⟩ <;> rw [hw] at hf
      · exact absurd hf running_ne_frozen
      · exact absurd hf hne
    · cases hf
  | attachFails compat req ret hp hreq =>
    refine h.move_outside (hfree (by rw [hp]; rfl)) fun r ret' hf => ?_
    cases hf; cases hreq
  | checkFails compat req hp hreq hno => exact hfail req (Or.inl (by rw [hp]; rfl)) compat
  | checkIgnore compat req hp hreq ht =>
    rw [hok]
    refine h.move (fun hst hpar => absurd hpar (hfree (by rw [hp]; rfl) hst)) (fun _ => Or.inr ht)
      (fun _ _ hf => by cases hf) (fun _ _ hf hi => ?_) (fun _ _ hf => by cases hf)
    cases hf; rw [hreq] at hi; cases hi
  | freeze compat req hp hreq hi ht hf => exact h.freeze hi ht hf
  | waitFails compat req hp hst => exact hfail req (Or.inr hst) compat
  | waitDone compat req hp hst hcpu =>
    rw [hok]
    obtain ⟨hi, hl⟩ := h.waiting c compat req hp
    have hlisten : s.listening = false := hl.resolve_left fun he => by
      rw [h.alive hst] at he; cases he
    refine h.move (fun _ _ => ?_) (fun _ => h.attached c (by rw [hp]; rfl))
      (fun _ _ hf => by cases hf) (fun _ _ hf _ => ⟨hst, hcpu, hlisten⟩) (fun _ _ hf => by cases hf)
    simp [Call.owns, Call.attached, Call.ignoreState, hi]
  | remote compat r res hp =>
    exact ⟨h.frozen, h.attached, h.waiting, h.body, h.dead, h.killed, h.ptraced, h.history⟩
  | bodyEnd compat req lucky pending data hp => exact h.bodyEnd hp lucky pending data
  | finish req ret hp => exact h.finish hp

end FreezeInv

/-- Nobody is inside `ptrace()` and the tracee is not frozen. -/
structure FreezeInit {ρ : Type*} (s : Tracee ρ) : Prop where
  outside : ∀ c, s.call c = .outside none
  state : s.state ≠ taskFrozen
  dead : s.exited = true → s.state = taskDead
  killed : s.killedFrozen = false
  ptraced : s.ptrace ≠ 0 → s.ptrace.getLsbD 0 = true

theorem FreezeInit.inv {ρ : Type*} {s : Tracee ρ} (h : FreezeInit s) : FreezeInv s := by
  refine ⟨fun hf => absurd hf h.state, fun c hc => ?_, fun c compat req hc => ?_,
    fun c compat req hc => ?_, h.dead, fun hk => absurd (h.killed.symm.trans hk) Bool.false_ne_true,
    h.ptraced, fun c r ret hc => ?_⟩
  all_goals rw [h.outside c] at hc; cases hc

theorem freezeInv_run {ρ : Type*} {s s' : Tracee ρ} (h : FreezeInv s)
    (hr : Relation.ReflTransGen FreezeStep s s') : FreezeInv s' := by
  induction hr with
  | refl => exact h
  | tail _ hs ih =>
    cases hs with
    | call c _ hs => exact ih.call_step hs
    | env _ hs => exact ih.env_step hs

/-- A step of a call changes the tracee's `mm` and `files` only from the body of a remote
request. -/
theorem res_of_callStep {ρ : Type*} {s s' : Tracee ρ} {c : Tid} (hs : CallStep c s s')
    (hres : s'.res ≠ s.res) : ∃ compat r, s.call c = .body compat (.remote r) := by
  have hwake (t : Tracee ρ) (mask : ℕ) : (t.wakeUpState mask).res = t.res := by
    rcases t.wakeUpState_cases mask with ⟨-, hw⟩ | ⟨-, hw⟩ <;> rw [hw]
  have hcheck (compat : Bool) (req : Request) (ret : ℤ) :
      (s.checkAttachDone c compat req ret).res = s.res := by
    unfold checkAttachDone; split <;> split <;> rfl
  cases hs with
  | remote compat r res hp => exact ⟨compat, r, hp⟩
  | call compat req last hp => exact absurd rfl hres
  | lookup compat req hp => exact absurd rfl hres
  | traceme compat hp hc h0 => exact absurd rfl hres
  | attach compat req opts hp hreq hc h0 hex => exact absurd (hwake _ _) hres
  | attachFails compat req ret hp hreq => exact absurd rfl hres
  | checkFails compat req hp hreq hno => exact absurd (hcheck _ _ _) hres
  | checkIgnore compat req hp hreq ht => exact absurd (hcheck _ _ _) hres
  | freeze compat req hp hreq hi ht hf => exact absurd rfl hres
  | waitFails compat req hp hst => exact absurd (hcheck _ _ _) hres
  | waitDone compat req hp hst hcpu => exact absurd (hcheck _ _ _) hres
  | bodyEnd compat req lucky pending data hp =>
    refine absurd ?_ hres
    change (s.requestBody lucky pending data req).2.res = s.res
    by_cases hd : req = .detach true
    · subst hd
      change (s.ptraceUnlink pending).res = s.res
      unfold ptraceUnlink ptraceSignalWakeUp
      dsimp only
      split
      · exact hwake _ _
      · rfl
    · exact (requestBody_effect s lucky pending data hd).res
  | finish req ret hp =>
    refine absurd ?_ hres
    change (if ret ≠ 0 ∨ req.isDetach = false then s.ptraceUnfreezeTraced else s).res = s.res
    unfold ptraceUnfreezeTraced
    split
    · split
      · rfl
      · split
        · exact hwake _ _
        · rfl
    · rfl

/-- The freeze protocol, in every interleaving of `ptrace()` calls, signals and the tracee's own
steps. The body of a remote request finds the tracee traced by its caller and frozen, and only such
a body changes `mm` or `files` from a call; a remote request whose body did not run returned
`-ESRCH`. The tracee is frozen only while its tracer is inside the call that froze it, and so is a
tracee that a SIGKILL found frozen and that was not made runnable since. -/
theorem freeze_protocol {ρ : Type*} {s s' : Tracee ρ} (h : FreezeInit s)
    (hr : Relation.ReflTransGen FreezeStep s s') :
    (∀ c compat r, s'.call c = .body compat (.remote r) →
      s'.ptrace ≠ 0 ∧ s'.parent = c ∧ s'.state = taskFrozen) ∧
    (∀ c s'', CallStep c s' s'' → s''.res ≠ s'.res →
      ∃ compat r, s'.call c = .body compat (.remote r)) ∧
    (∀ c r ret ran, s'.call c = .outside (some (.remote r, ret, ran)) → ran = true ∨ ret = -ESRCH) ∧
    (s'.state = taskFrozen → s'.ptrace ≠ 0 ∧ (s'.call s'.parent).owns = true) ∧
    (s'.killedFrozen = true → s'.ptrace ≠ 0 ∧ (s'.call s'.parent).owns = true) := by
  have hi := freezeInv_run h.inv hr
  refine ⟨fun c compat r hc => ?_, fun c s'' hs hres => res_of_callStep hs hres,
    fun c r ret ran hc => ?_, hi.frozen, fun hk => hi.frozen (hi.killed hk).1⟩
  · have hst := (hi.body c compat (.remote r) hc rfl).1
    have ht := hi.tracer (hi.alive hst) (c := c) (by rw [hc]; rfl)
    exact ⟨ht.1, ht.2, hst⟩
  · cases ran with
    | true => exact Or.inl rfl
    | false => exact Or.inr (hi.history c r ret hc)

/-- Task 1 freezes its stopped tracee for a remote `mmap`, and a SIGKILL comes while the request is
running. -/
theorem freeze_protocol_mmap :
    ∃ s s' : Tracee Unit, FreezeInit s ∧ Relation.ReflTransGen FreezeStep s s' ∧
      s'.call 1 = .body false (.remote .mmap) ∧ s'.killedFrozen = true ∧
      s'.state = taskFrozen ∧ (s'.call s'.parent).owns = true := by
  let s : Tracee Unit := ⟨taskTraced, false, ptPtraced, 1, 0, false, false, false, false, false, 2,
    false, (), fun _ => .outside none⟩
  let s1 := s.setCall 1 (.called false (.remote .mmap))
  let s2 := { s1 with state := taskFrozen }.setCall 1 (.waiting false (.remote .mmap))
  let s3 := s2.checkAttachDone 1 false (.remote .mmap) 0
  have hinit : FreezeInit s :=
    ⟨fun _ => rfl, traced_ne_frozen, fun he => absurd he Bool.false_ne_true, rfl,
      fun _ => (by decide : ptPtraced.getLsbD 0 = true)⟩
  have hrun : Relation.ReflTransGen FreezeStep s s3.sigkill := by
    refine .head (.call 1 s1 (.call false (.remote .mmap) none rfl)) ?_
    refine .head
      (.call 1 s2 (.freeze false (.remote .mmap) rfl rfl rfl ⟨by decide, rfl⟩ (by decide))) ?_
    refine .head (.call 1 s3 (.waitDone false (.remote .mmap) rfl rfl rfl)) ?_
    exact .single (.env _ .sigkill)
  have hkill : s3.sigkill = { s3 with fatal := true, killedFrozen := true } :=
    if_neg (by decide : ¬taskFrozen &&& (taskWakekill ||| taskInterruptible) ≠ 0)
  rw [hkill] at hrun
  obtain ⟨hbody, -, -, hfrozen, -⟩ := freeze_protocol hinit hrun
  have hst := (hbody 1 false .mmap rfl).2.2
  exact ⟨s, _, hinit, hrun, rfl, rfl, hst, (hfrozen hst).2⟩

end PtraceRemote
