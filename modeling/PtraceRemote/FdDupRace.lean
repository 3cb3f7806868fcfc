import PtraceRemote.FdSlots
import PtraceRemote.FdRemote

/-! `do_dup2_to_remote` beside a second thread of the tracer. It looks `local_fd` up in the tracer's
table with only the tracee's `file_lock` held, so the other thread can close the file before
`get_file`. A step is one lock-protected section, or one unprotected read or change of a count. -/
namespace PtraceRemote

inductive DupPc where
  | start
  /-- the tracee's lock is held, `expand_files` has returned `err` -/
  | expanded (err : ℤ)
  /-- `fcheck` has returned the file -/
  | found (file : FileId)
  /-- the lock is dropped, `filp_close` of the replaced file is due -/
  | closing (file : FileId)
  | done
  deriving DecidableEq

inductive PeerPc where
  | idle
  | closing (file : FileId)
  | opening (fd : ℕ) (file : FileId)
  deriving DecidableEq

def DupPc.after : Option FileId → DupPc
  | none => done
  | some f => closing f

def PeerPc.after : Option FileId → PeerPc
  | none => idle
  | some f => closing f

/-- The two tables and the two threads. `deadGet` records a `get_file` on a file without
references. -/
structure DupRace where
  tracer : FilesStruct
  tracee : FilesStruct
  fCount : FileId → ℤ
  pc : DupPc := .start
  peer : PeerPc := .idle
  deadGet : Bool := false

inductive DupAct where
  | enter (mem : Option RawMem)
  | lookup
  | dup2
  | putReplaced
  | peerClose (fd : ℕ)
  | peerDup2 (mem : Option RawMem) (oldfd newfd : ℕ) (flags : BitVec 32)
  | peerOpen (mems : List (Option RawMem)) (flags : BitVec 32) (file : FileId)
  | peerInstall
  | peerPut

namespace DupRace

def put (s : DupRace) (f : FileId) : DupRace :=
  { s with fCount := Function.update s.fCount f (s.fCount f-1) }

def enter (env : FdEnv) (args : Dup2ToRemoteArgs) (mem : Option RawMem) (s : DupRace) : DupRace :=
  if badFlags args.flags then { s with pc := .done }
  else if args.remoteFd.toNat ≥ env.rlimNofile then { s with pc := .done }
  else
    let r := expandFiles env.nrOpen mem s.tracee args.remoteFd.toNat
    { s with tracee := r.2, pc := .expanded r.1 }

def lookup (args : Dup2ToRemoteArgs) (err : ℤ) (s : DupRace) : DupRace :=
  match fcheckFiles s.tracer args.localFd.toNat with
  | none => { s with pc := .done }
  | some file => if err < 0 then { s with pc := .done } else { s with pc := .found file }

def dup2 (args : Dup2ToRemoteArgs) (file : FileId) (s : DupRace) : DupRace :=
  let r := doDup2 s.tracee file args.remoteFd.toNat args.flags.toNat
  if r.1 < 0 then { s with pc := .done }
  else { s with
    tracee := r.2.1
    fCount := Function.update s.fCount file (s.fCount file+1)
    deadGet := s.deadGet || decide (s.fCount file = 0)
    pc := .after r.2.2 }

def peerClose (fd : ℕ) (s : DupRace) : DupRace :=
  match closeFd s.tracer fd with
  | (none, _) => s
  | (some file, files) => { s with tracer := files, peer := .closing file }

def peerDup2 (env : FdEnv) (mem : Option RawMem) (oldfd newfd : ℕ) (flags : BitVec 32)
    (s : DupRace) : DupRace :=
  if badFlags flags ∨ oldfd = newfd ∨ newfd ≥ env.rlimNofile then s
  else
    let r := expandFiles env.nrOpen mem s.tracer newfd
    let s := { s with tracer := r.2 }
    match fcheckFiles s.tracer oldfd with
    | none => s
    | some file =>
      if r.1 < 0 then s
      else
        let d := doDup2 s.tracer file newfd flags.toNat
        if d.1 < 0 then s
        else { s with
          tracer := d.2.1
          fCount := Function.update s.fCount file (s.fCount file+1)
          peer := .after d.2.2 }

def peerOpen (env : FdEnv) (mems : List (Option RawMem)) (flags : BitVec 32) (file : FileId)
    (s : DupRace) : DupRace :=
  let r := allocFd env.nrOpen 0 (env.rlimNofile % 2^32) flags.toNat mems s.tracer
  if r.1 < 0 then { s with tracer := r.2 }
  else { s with
    tracer := r.2
    fCount := Function.update s.fCount file 1
    peer := .opening r.1.toNat file }

def step (env : FdEnv) (args : Dup2ToRemoteArgs) (s : DupRace) : DupAct → Option DupRace
  | .enter mem => if s.pc = .start then some (s.enter env args mem) else none
  | .lookup => match s.pc with
      | .expanded err => some (s.lookup args err)
      | _ => none
  | .dup2 => match s.pc with
      | .found file => some (s.dup2 args file)
      | _ => none
  | .putReplaced => match s.pc with
      | .closing f => some { s.put f with pc := .done }
      | _ => none
  | .peerClose fd => if s.peer = .idle then some (s.peerClose fd) else none
  | .peerDup2 mem oldfd newfd flags =>
    if s.peer = .idle then some (s.peerDup2 env mem oldfd newfd flags) else none
  | .peerOpen mems flags file =>
    -- `open` makes a file that nobody refers to
    if s.peer = .idle ∧ s.fCount file = 0 then some (s.peerOpen env mems flags file) else none
  | .peerInstall => match s.peer with
      | .opening fd file =>
        (fdInstall s.tracer fd file).map fun files => { s with tracer := files, peer := .idle }
      | _ => none
  | .peerPut => match s.peer with
      | .closing f => some { s.put f with peer := .idle }
      | _ => none

def run (env : FdEnv) (args : Dup2ToRemoteArgs) : List DupAct → DupRace → Option DupRace
  | [], s => some s
  | a :: as, s => (s.step env args a).bind (run env args as)

end DupRace

def HeldBesides (outside : FileId → ℕ) (s : DupRace) (fd : ℕ) : Prop :=
  ∀ f, s.pc = .found f → fcheckFiles s.tracer fd = some f →
    (∃ k, k ≠ fd ∧ fcheckFiles s.tracer k = some f) ∨ (∃ k, fcheckFiles s.tracee k = some f) ∨
    0 < outside f

def StepSafe (env : FdEnv) (args : Dup2ToRemoteArgs) (outside : FileId → ℕ) (s : DupRace) :
    DupAct → Prop
  | .enter _ => GrowsExactly env.nrOpen s.tracee args.remoteFd.toNat
  | .peerClose fd => HeldBesides outside s fd
  | .peerDup2 _ _ newfd _ => GrowsExactly env.nrOpen s.tracer newfd ∧ HeldBesides outside s newfd
  | .peerOpen _ _ _ => GrowsExactly env.nrOpen s.tracer (candidateFd s.tracer 0)
  | _ => True

def RunSafe (env : FdEnv) (args : Dup2ToRemoteArgs) (outside : FileId → ℕ) :
    List DupAct → DupRace → Prop
  | [], _ => True
  | a :: as, s =>
    StepSafe env args outside s a ∧ ∀ s', s.step env args a = some s' →
      RunSafe env args outside as s'

def DupPc.owes : DupPc → Option FileId
  | closing f => some f
  | _ => none

def PeerPc.owes : PeerPc → Option FileId
  | closing f => some f
  | opening _ f => some f
  | idle => none

@[simp] theorem DupPc.owes_after (o : Option FileId) :
    (DupPc.after o).owes = o := by cases o <;> rfl

@[simp] theorem PeerPc.owes_after (o : Option FileId) :
    (PeerPc.after o).owes = o := by cases o <;> rfl

structure RaceInv (args : Dup2ToRemoteArgs) (outside : FileId → ℕ) (s : DupRace) : Prop where
  tracer : FilesOk s.tracer
  tracee : FilesOk s.tracee
  counts : ∀ f,
    (slotCount s.tracer f : ℤ) + slotCount s.tracee f + holds s.pc.owes f + holds s.peer.owes f +
    outside f ≤ s.fCount f
  expanded : ∀ err, s.pc = .expanded err → 0 ≤ err → args.remoteFd.toNat < s.tracee.fdt.maxFds
  found : ∀ f, s.pc = .found f → args.remoteFd.toNat < s.tracee.fdt.maxFds ∧
    ((∃ k, fcheckFiles s.tracer k = some f) ∨ (∃ k, fcheckFiles s.tracee k = some f) ∨
      0 < outside f)
  opening : ∀ fd f, s.peer = .opening fd f →
    fd < s.tracer.fdt.maxFds ∧ s.tracer.fdt.openFds fd = true
  alive : s.deadGet = false

variable {env : FdEnv} {args : Dup2ToRemoteArgs} {outside : FileId → ℕ} {s s' : DupRace}
  {f : FileId}

/-- A looked-up file has a reference. -/
theorem RaceInv.pos (h : RaceInv args outside s) (hf : s.pc = .found f) : 0 < s.fCount f := by
  have hc := h.counts f
  have hpc : holds s.pc.owes f = 0 := by rw [hf]; rfl
  have hpeer := holds_nonneg (f := f) s.peer.owes
  rcases (h.found f hf).2 with ⟨k, hk⟩ | ⟨k, hk⟩ | ho
  · have := slotCount_pos hk
    omega
  · have := slotCount_pos hk
    omega
  · omega

/-- The call returns without having anything to put. -/
theorem RaceInv.finish (h : RaceInv args outside s) (hpc : s.pc.owes = none) :
    RaceInv args outside { s with pc := .done } := by
  refine ⟨h.tracer, h.tracee, fun f => ?_, fun _ he => DupPc.noConfusion he,
    fun _ he => DupPc.noConfusion he, h.opening, h.alive⟩
  have hc := h.counts f
  rwa [hpc] at hc

theorem raceInv_enter (h : RaceInv args outside s) (hpc : s.pc = .start) (mem : Option RawMem)
    (hx : GrowsExactly env.nrOpen s.tracee args.remoteFd.toNat) :
    RaceInv args outside (s.enter env args mem) := by
  have howes : s.pc.owes = none := by rw [hpc]; rfl
  unfold DupRace.enter
  split
  · exact h.finish howes
  split
  · exact h.finish howes
  · refine ⟨h.tracer, filesOk_growsExactly h.tracee hx, fun f => ?_, ?_,
      fun _ he => DupPc.noConfusion he, h.opening, h.alive⟩
    · have hc := h.counts f
      rw [howes] at hc
      show (slotCount s.tracer f : ℤ) + slotCount
        (expandFiles env.nrOpen mem s.tracee args.remoteFd.toNat).2 f + _ + _ +
        _ ≤ _
      rwa [slotCount_congr (fcheckFiles_expand hx)]
    · rintro err he hpos
      obtain rfl := DupPc.expanded.inj he
      exact lt_maxFds_of_expandFiles hpos

theorem raceInv_lookup (h : RaceInv args outside s) {err : ℤ} (hpc : s.pc = .expanded err) :
    RaceInv args outside (s.lookup args err) := by
  have howes : s.pc.owes = none := by rw [hpc]; rfl
  unfold DupRace.lookup
  cases hf : fcheckFiles s.tracer args.localFd.toNat with
  | none => exact h.finish howes
  | some file =>
    dsimp only
    split
    · exact h.finish howes
    next herr =>
      refine ⟨h.tracer, h.tracee, fun f => ?_, fun _ he => DupPc.noConfusion he, ?_,
        h.opening, h.alive⟩
      · have hc := h.counts f
        rwa [howes] at hc
      · rintro f he
        obtain rfl := DupPc.found.inj he
        exact ⟨h.expanded err hpc (not_lt.1 herr), .inl ⟨_, hf⟩⟩

/-- A file that is put into a slot, where another one may have been. -/
theorem slotCount_install {files files' : FilesStruct} {fd : ℕ} {file : FileId}
    {old : Option FileId} (hold : fcheckFiles files fd = old)
    (h : ∀ k, fcheckFiles files' k = if k = fd then some file else fcheckFiles files k)
    (f : FileId) :
    (slotCount files' f : ℤ) + holds old f = slotCount files f + holds (some file) f := by
  have hu := slotCount_update (f := f) h
  rw [hold] at hu
  omega

theorem update_count (c : FileId → ℤ) (file f : FileId) :
    Function.update c file (c file+1) f = c f + holds (some file) f := by
  unfold holds
  by_cases hf : f = file
  · rw [hf, Function.update_self, if_pos rfl]
  · rw [Function.update_of_ne hf, if_neg (fun he => hf (Option.some.inj he).symm), add_zero]

theorem raceInv_dup2 (h : RaceInv args outside s) {file : FileId} (hpc : s.pc = .found file) :
    RaceInv args outside (s.dup2 args file) := by
  have howes : s.pc.owes = none := by rw [hpc]; rfl
  obtain ⟨hlt, -⟩ := h.found file hpc
  have hok := filesOk_doDup2 h.tracee file hlt args.flags.toNat
  unfold DupRace.dup2
  rcases doDup2_cases file args.flags.toNat hlt with hr | ⟨files', hr, hslot⟩
  · rw [hr]
    exact h.finish howes
  · rw [hr] at hok ⊢
    have hpos : ¬(args.remoteFd.toNat : ℤ) < 0 := not_lt.2 (Int.natCast_nonneg _)
    dsimp only at hok ⊢
    rw [if_neg hpos]
    -- the file has a reference, so the count is not 0
    have halive : (s.deadGet || decide (s.fCount file = 0)) = false := by
      rw [h.alive, decide_eq_false (h.pos hpc).ne', Bool.or_self]
    refine ⟨h.tracer, hok, fun f => ?_, fun err he => ?_, fun f he => ?_, h.opening, halive⟩
    · have hc := h.counts f
      have hi := slotCount_install rfl hslot f
      rw [howes, holds_none] at hc
      show (slotCount s.tracer f : ℤ) + slotCount files' f + holds (DupPc.after _).owes f + holds
        s.peer.owes f + _ ≤ Function.update s.fCount file (s.fCount file+1) f
      rw [update_count, DupPc.owes_after]
      omega
    · cases hold : fcheckFiles s.tracee args.remoteFd.toNat <;> simp [hold, DupPc.after] at he
    · cases hold : fcheckFiles s.tracee args.remoteFd.toNat <;> simp [hold, DupPc.after] at he

theorem update_count_sub (c : FileId → ℤ) (file f : FileId) :
    Function.update c file (c file-1) f = c f - holds (some file) f := by
  unfold holds
  by_cases hf : f = file
  · rw [hf, Function.update_self, if_pos rfl]
  · rw [Function.update_of_ne hf, if_neg (fun he => hf (Option.some.inj he).symm), sub_zero]

theorem raceInv_putReplaced (h : RaceInv args outside s) {file : FileId}
    (hpc : s.pc = .closing file) :
    RaceInv args outside { s.put file with pc := .done } := by
  refine ⟨h.tracer, h.tracee, fun f => ?_, fun _ he => DupPc.noConfusion he,
    fun _ he => DupPc.noConfusion he, h.opening, h.alive⟩
  have hc := h.counts f
  rw [hpc] at hc
  show (slotCount s.tracer f : ℤ) + slotCount s.tracee f + holds none f + holds s.peer.owes f + _ ≤
    Function.update s.fCount file (s.fCount file-1) f
  rw [update_count_sub, holds_none]
  have hown : holds (DupPc.closing file).owes f = holds (some file) f := rfl
  omega

theorem raceInv_peerPut (h : RaceInv args outside s) {file : FileId}
    (hpeer : s.peer = .closing file) :
    RaceInv args outside { s.put file with peer := .idle } := by
  refine ⟨h.tracer, h.tracee, fun f => ?_, h.expanded, h.found,
    fun _ _ he => PeerPc.noConfusion he, h.alive⟩
  have hc := h.counts f
  rw [hpeer] at hc
  show (slotCount s.tracer f : ℤ) + slotCount s.tracee f + holds s.pc.owes f + holds none f + _ ≤
    Function.update s.fCount file (s.fCount file-1) f
  rw [update_count_sub, holds_none]
  have hown : holds (PeerPc.closing file).owes f = holds (some file) f := rfl
  omega

/-- A looked-up file stays held when one slot of the tracer changes. -/
theorem RaceInv.found_update (h : RaceInv args outside s) {files : FilesStruct} {fd : ℕ}
    {v : Option FileId} (hheld : HeldBesides outside s fd)
    (hslot : ∀ k, fcheckFiles files k = if k = fd then v else fcheckFiles s.tracer k) (f : FileId)
    (hf : s.pc = .found f) : args.remoteFd.toNat < s.tracee.fdt.maxFds ∧
      ((∃ k, fcheckFiles files k = some f) ∨ (∃ k, fcheckFiles s.tracee k = some f) ∨
        0 < outside f) := by
  obtain ⟨hlt, hheld'⟩ := h.found f hf
  refine ⟨hlt, ?_⟩
  have hkeep : (∃ k, k ≠ fd ∧ fcheckFiles s.tracer k = some f) → ∃ k,
      fcheckFiles files k = some f := by
    rintro ⟨k, hne, hk⟩
    exact ⟨k, by rw [hslot, if_neg hne, hk]⟩
  rcases hheld' with ⟨k, hk⟩ | hrest
  · by_cases hkfd : k = fd
    · rw [hkfd] at hk
      exact (hheld f hf hk).imp_left hkeep
    · exact .inl (hkeep ⟨k, hkfd, hk⟩)
  · exact .inr hrest

theorem raceInv_peerClose (h : RaceInv args outside s) (hpeer : s.peer = .idle) {fd : ℕ}
    (hheld : HeldBesides outside s fd) : RaceInv args outside (s.peerClose fd) := by
  unfold DupRace.peerClose
  have hok := filesOk_closeFd h.tracer fd
  rcases closeFd_cases s.tracer fd with ⟨-, hr⟩ | ⟨file, hfile, hclosed, hslot⟩
  · rw [hr]
    exact h
  · generalize closeFd s.tracer fd = r at hok hclosed hslot ⊢
    obtain ⟨o, files⟩ := r
    obtain rfl : o = some file := hclosed
    dsimp only at hslot
    refine ⟨hok, h.tracee, fun f => ?_, h.expanded, h.found_update hheld hslot,
      fun _ _ he => PeerPc.noConfusion he, h.alive⟩
    have hc := h.counts f
    have hu := slotCount_update (f := f) hslot
    rw [hfile, holds_none] at hu
    rw [hpeer] at hc
    have hidle : holds PeerPc.idle.owes f = 0 := rfl
    show (slotCount files f : ℤ) + slotCount s.tracee f + holds s.pc.owes f + holds (some file) f
      + _ ≤ s.fCount f
    omega

/-- The tracer's table after a growth or a reservation: its descriptors refer to the same files. -/
theorem RaceInv.retable (h : RaceInv args outside s) {files : FilesStruct} (hpeer : s.peer = .idle)
    (hok : FilesOk files) (hslot : ∀ k, fcheckFiles files k = fcheckFiles s.tracer k) :
    RaceInv args outside { s with tracer := files } := by
  refine ⟨hok, h.tracee, fun f => ?_, h.expanded, fun f hf => ?_, fun _ _ he => ?_, h.alive⟩
  · show (slotCount files f : ℤ) + slotCount s.tracee f + holds s.pc.owes f + holds s.peer.owes f
      + _ ≤ s.fCount f
    rw [slotCount_congr hslot]
    exact h.counts f
  · obtain ⟨hlt, hheld⟩ := h.found f hf
    refine ⟨hlt, hheld.imp_left fun ⟨k, hk⟩ => ⟨k, ?_⟩⟩
    rw [hslot, hk]
  · exact absurd (hpeer.symm.trans he) (by simp)

theorem raceInv_peerDup2 (h : RaceInv args outside s) (hpeer : s.peer = .idle) (mem : Option RawMem)
    (oldfd : ℕ) {newfd : ℕ} (flags : BitVec 32) (hx : GrowsExactly env.nrOpen s.tracer newfd)
    (hheld : HeldBesides outside s newfd) :
    RaceInv args outside (s.peerDup2 env mem oldfd newfd flags) := by
  unfold DupRace.peerDup2
  split
  · exact h
  dsimp only
  have hgrow :
      RaceInv args outside { s with tracer := (expandFiles env.nrOpen mem s.tracer newfd).2 } :=
    h.retable hpeer (filesOk_growsExactly h.tracer hx) (fcheckFiles_expand hx)
  have hheld' : HeldBesides outside
      { s with tracer := (expandFiles env.nrOpen mem s.tracer newfd).2 } newfd := by
    intro f hf hk
    rw [fcheckFiles_expand hx] at hk
    refine (hheld f hf hk).imp_left fun ⟨k, hne, hk⟩ => ⟨k, hne, ?_⟩
    rw [fcheckFiles_expand hx, hk]
  have hroom := @lt_maxFds_of_expandFiles s.tracer env.nrOpen newfd mem
  generalize expandFiles env.nrOpen mem s.tracer newfd = r at hgrow hheld' hroom ⊢
  cases hold : fcheckFiles r.2 oldfd with
  | none => exact hgrow
  | some file =>
    dsimp only
    split
    · exact hgrow
    next herr =>
      have hlt := hroom (not_lt.1 herr)
      have hok := filesOk_doDup2 hgrow.tracer file hlt flags.toNat
      rcases doDup2_cases file flags.toNat hlt with hr | ⟨files', hr, hslot⟩
      · rw [hr]
        exact hgrow
      · rw [hr] at hok ⊢
        have hpos : ¬(newfd : ℤ) < 0 := not_lt.2 (Int.natCast_nonneg _)
        dsimp only at hok ⊢
        rw [if_neg hpos]
        refine ⟨hok, h.tracee, fun f => ?_, h.expanded, hgrow.found_update hheld' hslot,
          fun fd f he => ?_, h.alive⟩
        · have hc := hgrow.counts f
          have hi := slotCount_install rfl hslot f
          have hidle : holds s.peer.owes f = 0 := by rw [hpeer]; rfl
          dsimp only at hc
          show (slotCount files' f : ℤ) + slotCount s.tracee f + holds s.pc.owes f + holds
            (PeerPc.after _).owes f + _ ≤ Function.update s.fCount file (s.fCount file+1) f
          rw [update_count, PeerPc.owes_after]
          omega
        · cases hto : fcheckFiles r.2 newfd <;> simp [hto, PeerPc.after] at he

theorem raceInv_peerOpen (h : RaceInv args outside s) (hpeer : s.peer = .idle)
    (mems : List (Option RawMem)) (flags : BitVec 32) {file : FileId} (hnew : s.fCount file = 0)
    (hx : GrowsExactly env.nrOpen s.tracer (candidateFd s.tracer 0)) :
    RaceInv args outside (s.peerOpen env mems flags file) := by
  unfold DupRace.peerOpen
  dsimp only
  rcases allocFd_slot h.tracer env.nrOpen (env.rlimNofile % 2^32) flags.toNat mems hx with
    ⟨e, he, hr⟩ | ⟨files', hr, -, hlt, -, hopen, hok, hslot⟩
  · rw [hr, if_pos (show -e < 0 by omega)]
    exact h
  · have hpos : ¬(candidateFd s.tracer 0 : ℤ) < 0 := not_lt.2 (Int.natCast_nonneg _)
    rw [hr, if_neg hpos]
    have hsame := h.retable hpeer hok hslot
    refine ⟨hok, h.tracee, fun f => ?_, h.expanded, hsame.found, fun fd f he => ?_, h.alive⟩
    · have hc := hsame.counts f
      have hidle : holds s.peer.owes f = 0 := by rw [hpeer]; rfl
      have hone : Function.update s.fCount file 1 f = s.fCount f + holds (some file) f := by
        rw [← update_count, hnew, zero_add]
      dsimp only at hc
      show (slotCount files' f : ℤ) + slotCount s.tracee f + holds s.pc.owes f + holds
        (some file) f + _ ≤ Function.update s.fCount file 1 f
      omega
    · obtain ⟨rfl, -⟩ := PeerPc.opening.inj he
      rw [Int.toNat_natCast]
      exact ⟨hlt, hopen⟩

theorem raceInv_peerInstall (h : RaceInv args outside s) {fd : ℕ} {file : FileId}
    {files : FilesStruct} (hpeer : s.peer = .opening fd file)
    (hr : fdInstall s.tracer fd file = some files) :
    RaceInv args outside { s with tracer := files, peer := .idle } := by
  obtain ⟨hlt, hopen⟩ := h.opening fd file hpeer
  have hok := filesOk_fdInstall h.tracer hopen hr
  unfold fdInstall at hr
  split at hr
  case isTrue => exact absurd hr (by simp)
  case isFalse hnone =>
    have hnone :
        fcheckFiles s.tracer fd = none := by rw [fcheckFiles, if_pos hlt]; exact not_not.1 hnone
    have hfiles := Option.some.inj hr
    have hslot := fcheckFiles_update (v := some file) s.tracer files hlt (by rw [← hfiles])
      (by rw [← hfiles])
    have hheld : HeldBesides outside s fd := fun f _ hf => absurd (hnone.symm.trans hf) (by simp)
    refine ⟨hok, h.tracee, fun f => ?_, h.expanded, h.found_update hheld hslot,
      fun _ _ he => PeerPc.noConfusion he, h.alive⟩
    have hc := h.counts f
    have hi := slotCount_install hnone hslot f
    rw [hpeer] at hc
    rw [holds_none] at hi
    have hown : holds (PeerPc.opening fd file).owes f = holds (some file) f := rfl
    have hidle : holds PeerPc.idle.owes f = 0 := rfl
    show (slotCount files f : ℤ) + slotCount s.tracee f + holds s.pc.owes f + holds PeerPc.idle.owes
      f + _ ≤ s.fCount f
    omega

/-- One harmless step of either thread. -/
theorem raceInv_step {a : DupAct} (h : RaceInv args outside s)
    (hsafe : StepSafe env args outside s a) (hstep : s.step env args a = some s') :
    RaceInv args outside s' := by
  cases a with
  | enter mem =>
    obtain ⟨hpc, heq⟩ := Option.ite_none_right_eq_some.1 hstep
    obtain rfl := Option.some.inj heq
    exact raceInv_enter h hpc mem hsafe
  | lookup =>
    dsimp only [DupRace.step] at hstep
    split at hstep
    next err hpc =>
      obtain rfl := Option.some.inj hstep
      exact raceInv_lookup h hpc
    next => exact absurd hstep (by simp)
  | dup2 =>
    dsimp only [DupRace.step] at hstep
    split at hstep
    next file hpc =>
      obtain rfl := Option.some.inj hstep
      exact raceInv_dup2 h hpc
    next => exact absurd hstep (by simp)
  | putReplaced =>
    dsimp only [DupRace.step] at hstep
    split at hstep
    next file hpc =>
      obtain rfl := Option.some.inj hstep
      exact raceInv_putReplaced h hpc
    next => exact absurd hstep (by simp)
  | peerClose fd =>
    obtain ⟨hpeer, heq⟩ := Option.ite_none_right_eq_some.1 hstep
    obtain rfl := Option.some.inj heq
    exact raceInv_peerClose h hpeer hsafe
  | peerDup2 mem oldfd newfd flags =>
    obtain ⟨hpeer, heq⟩ := Option.ite_none_right_eq_some.1 hstep
    obtain rfl := Option.some.inj heq
    exact raceInv_peerDup2 h hpeer mem oldfd flags hsafe.1 hsafe.2
  | peerOpen mems flags file =>
    obtain ⟨⟨hpeer, hnew⟩, heq⟩ := Option.ite_none_right_eq_some.1 hstep
    obtain rfl := Option.some.inj heq
    exact raceInv_peerOpen h hpeer mems flags hnew hsafe
  | peerInstall =>
    dsimp only [DupRace.step] at hstep
    split at hstep
    next fd file hpeer =>
      obtain ⟨files, hr, rfl⟩ := Option.map_eq_some_iff.1 hstep
      exact raceInv_peerInstall h hpeer hr
    next => exact absurd hstep (by simp)
  | peerPut =>
    dsimp only [DupRace.step] at hstep
    split at hstep
    next file hpeer =>
      obtain rfl := Option.some.inj hstep
      exact raceInv_peerPut h hpeer
    next => exact absurd hstep (by simp)

theorem raceInv_run {acts : List DupAct} (h : RaceInv args outside s)
    (hsafe : RunSafe env args outside acts s) (hrun : s.run env args acts = some s') :
    RaceInv args outside s' := by
  induction acts generalizing s with
  | nil =>
    obtain rfl := Option.some.inj hrun
    exact h
  | cons a as ih =>
    obtain ⟨t, hstep, hrest⟩ := Option.bind_eq_some_iff.1 hrun
    exact ih (raceInv_step h hsafe.1 hstep) (hsafe.2 t hstep) hrest

/-- Both threads are about to begin; every slot and every outside holder has its reference. -/
structure RaceInit (outside : FileId → ℕ) (s : DupRace) : Prop where
  tracer : FilesOk s.tracer
  tracee : FilesOk s.tracee
  counts : ∀ f, (slotCount s.tracer f : ℤ) + slotCount s.tracee f + outside f ≤ s.fCount f
  pc : s.pc = .start
  peer : s.peer = .idle
  alive : s.deadGet = false

/-- In a run of harmless steps `get_file` is never called on a file without references. -/
theorem dup2_to_remote_alive (env : FdEnv) (args : Dup2ToRemoteArgs) (outside : FileId → ℕ)
    (acts : List DupAct) (s s' : DupRace) (h : RaceInit outside s)
    (hsafe : RunSafe env args outside acts s) (hrun : s.run env args acts = some s') :
    s'.deadGet = false := by
  have hinv : RaceInv args outside s := by
    refine ⟨h.tracer, h.tracee, fun f => ?_, fun err he => ?_, fun f he => ?_,
      fun fd f he => ?_, h.alive⟩
    · have hc := h.counts f
      rw [h.pc, h.peer]
      show _ + _ + (0 : ℤ) + 0 + _ ≤ _
      omega
    · exact absurd (h.pc.symm.trans he) (by simp)
    · exact absurd (h.pc.symm.trans he) (by simp)
    · exact absurd (h.peer.symm.trans he) (by simp)
  exact (raceInv_run hinv hsafe hrun).alive

def twoThreads (extra : ℕ) : DupRace :=
  { tracer := oneFile 7, tracee := oneFile 8
    fCount := fun f => holds (some 7) f + holds (some 8) f + (if f = 7 then extra else 0 : ℕ) }

theorem raceInit_twoThreads (extra : ℕ) :
    RaceInit (fun f => if f = 7 then extra else 0) (twoThreads extra) := by
  refine ⟨filesOk_oneFile 7, filesOk_oneFile 8, fun f => ?_, rfl, rfl, rfl⟩
  have h₁ := slotCount_oneFile 7 f
  have h₂ := slotCount_oneFile 8 f
  show (slotCount (oneFile 7) f : ℤ) + slotCount (oneFile 8) f + (if f = 7 then extra else 0 : ℕ) ≤
    holds (some 7) f + holds (some 8) f + (if f = 7 then extra else 0 : ℕ)
  omega

def closeInBetween : List DupAct := [.enter none, .lookup, .peerClose 0, .peerPut, .dup2]

def nofileEnv : FdEnv :=
  { nrOpen := 1024, rlimNofile := 1024, fMode := fun _ => 0, flush := fun _ => 0 }

/-- With a second reference to the file the close does no harm. -/
theorem dup2_to_remote_alive_twoThreads :
    ∃ s', (twoThreads 1).run nofileEnv ⟨0, 5, 0⟩ closeInBetween = some s' ∧ s'.deadGet = false := by
  refine ⟨_, rfl, dup2_to_remote_alive nofileEnv ⟨0, 5, 0⟩ (fun f => if f = 7 then 1 else 0)
    closeInBetween (twoThreads 1) _ (raceInit_twoThreads 1) ?_ rfl⟩
  refine ⟨fun hge => absurd hge (by decide), fun s₁ h₁ => ⟨trivial, fun s₂ h₂ => ⟨?_,
    fun s₃ _ => ⟨trivial, fun s₄ _ => ⟨trivial, fun s₅ _ => trivial⟩⟩⟩⟩⟩
  obtain rfl := Option.some.inj h₁
  obtain rfl := Option.some.inj h₂
  intro f hf _
  obtain rfl : 7 = f := DupPc.found.inj hf
  exact .inr (.inr (by decide))

/-- With one reference, the tracer's slot, `get_file` is called on a file without references. -/
theorem dup2_to_remote_dead : RaceInit (fun _ => 0) (twoThreads 0) ∧
    ∃ s', (twoThreads 0).run nofileEnv ⟨0, 5, 0⟩ closeInBetween = some s' ∧ s'.deadGet = true := by
  refine ⟨?_, _, rfl, by decide⟩
  have h := raceInit_twoThreads 0
  simpa using h

end PtraceRemote
