import PtraceRemote.FdConcurrent

/-! No descriptor is handed out twice and no installed file is lost in a replaced table, in any
interleaving of the steps of `FdStep`. -/
namespace PtraceRemote
open Bitmap

structure TableInv (files : FilesStruct) (held : TaskId → List ℕ) (installed : ℕ → Option FileId) :
    Prop where
  ok : FilesOk files
  held_free : ∀ t fd, fd ∈ held t → fd < files.fdt.maxFds ∧ files.fdt.openFds fd = true ∧
    files.fdt.fd fd = none
  held_inj : ∀ t u fd, fd ∈ held t → fd ∈ held u → t = u
  held_nodup : ∀ t, (held t).Nodup
  installed_eq : ∀ fd, installed fd = fcheckFiles files fd

section Table
variable {files : FilesStruct} {held : TaskId → List ℕ} {installed : ℕ → Option FileId}

theorem TableInv.not_held {fd : ℕ} (h : TableInv files held installed)
    (hfd : files.fdt.openFds fd = false ∨ files.fdt.fd fd ≠ none) (t : TaskId) : fd ∉ held t := by
  intro hm
  obtain ⟨-, h1, h2⟩ := h.held_free t fd hm
  rcases hfd with h3 | h3
  · rw [h1] at h3; exact absurd h3 (by decide)
  · exact h3 h2

/-- Giving up one reservation of a task leaves the others as they are. -/
theorem TableInv.mem_erase {t u : TaskId} {fd i : ℕ} (h : TableInv files held installed)
    (hm : fd ∈ held t) (hi : i ∈ Function.update held t ((held t).erase fd) u) :
    i ∈ held u ∧ i ≠ fd := by
  by_cases hu : u = t
  · subst hu
    rw [Function.update_self] at hi
    exact ⟨List.mem_of_mem_erase hi, fun he => (h.held_nodup u).not_mem_erase (he ▸ hi)⟩
  · rw [Function.update_of_ne hu] at hi
    exact ⟨hi, fun he => hu (h.held_inj u t fd (he ▸ hi) hm)⟩

/-- A step that changes one slot and its bits, with the reservation of that slot given up. -/
theorem TableInv.release {files' : FilesStruct} {t : TaskId} {fd : ℕ} {v : Option FileId}
    (h : TableInv files held installed) (hm : fd ∈ held t) (hok : FilesOk files')
    (hmax : files'.fdt.maxFds = files.fdt.maxFds)
    (hopen : ∀ i, i ≠ fd → files'.fdt.openFds i = files.fdt.openFds i)
    (hslot : files'.fdt.fd = Function.update files.fdt.fd fd v) :
    TableInv files' (Function.update held t ((held t).erase fd))
      (Function.update installed fd v) := by
  obtain ⟨hlt, -, -⟩ := h.held_free t fd hm
  refine ⟨hok, fun u i hi => ?_, fun u w i hu hw => ?_, fun u => ?_, fun i => ?_⟩
  · obtain ⟨hi, hne⟩ := h.mem_erase hm hi
    obtain ⟨h1, h2, h3⟩ := h.held_free u i hi
    exact ⟨hmax ▸ h1, (hopen i hne).trans h2, by rw [hslot, Function.update_of_ne hne, h3]⟩
  · exact h.held_inj u w i (h.mem_erase hm hu).1 (h.mem_erase hm hw).1
  · by_cases hu : u = t
    · rw [hu, Function.update_self]; exact (h.held_nodup t).erase fd
    · rw [Function.update_of_ne hu]; exact h.held_nodup u
  · unfold fcheckFiles
    rw [hmax, hslot]
    by_cases he : i = fd
    · rw [he, Function.update_self, Function.update_self, if_pos hlt]
    · rw [Function.update_of_ne he, Function.update_of_ne he]; exact h.installed_eq i

/-- A step that changes one slot nobody has reserved. -/
theorem TableInv.replace {files' : FilesStruct} {fd : ℕ} {v : Option FileId}
    (h : TableInv files held installed) (hlt : fd < files.fdt.maxFds) (hn : ∀ t, fd ∉ held t)
    (hok : FilesOk files') (hmax : files'.fdt.maxFds = files.fdt.maxFds)
    (hopen : ∀ i, i ≠ fd → files'.fdt.openFds i = files.fdt.openFds i)
    (hslot : files'.fdt.fd = Function.update files.fdt.fd fd v) :
    TableInv files' held (Function.update installed fd v) := by
  refine ⟨hok, fun u i hi => ?_, h.held_inj, h.held_nodup, fun i => ?_⟩
  · have hne : i ≠ fd := fun he => hn u (he ▸ hi)
    obtain ⟨h1, h2, h3⟩ := h.held_free u i hi
    exact ⟨hmax ▸ h1, (hopen i hne).trans h2, by rw [hslot, Function.update_of_ne hne, h3]⟩
  · unfold fcheckFiles
    rw [hmax, hslot]
    by_cases he : i = fd
    · rw [he, Function.update_self, Function.update_self, if_pos hlt]
    · rw [Function.update_of_ne he, Function.update_of_ne he]; exact h.installed_eq i

theorem TableInv.takeFd (h : TableInv files held installed) (t : TaskId) (start flags : ℕ)
    (hlt : candidateFd files start < files.fdt.maxFds) :
    TableInv (takeFd files start flags (candidateFd files start))
      (Function.update held t (candidateFd files start :: held t)) installed := by
  have hok := filesOk_takeFd h.ok start flags hlt
  have hclear := (candidateFd_spec h.ok start).2.2.2 hlt
  have hn := h.ok.slot_none hlt hclear
  have hfree := h.not_held (Or.inl hclear)
  generalize candidateFd files start = fd at *
  have hmem {u : TaskId} {i : ℕ} (hi : i ∈ Function.update held t (fd :: held t) u) :
      i ∈ held u ∨ u = t ∧ i = fd := by
    by_cases hu : u = t
    · subst hu
      rw [Function.update_self] at hi
      rcases List.mem_cons.mp hi with hi | hi
      · exact Or.inr ⟨rfl, hi⟩
      · exact Or.inl hi
    · rw [Function.update_of_ne hu] at hi; exact Or.inl hi
  have hslot : (PtraceRemote.takeFd files start flags fd).fdt.fd = files.fdt.fd := by
    rw [takeFd_eq hn]; simp
  have hopen : (PtraceRemote.takeFd files start flags fd).fdt.openFds =
      Function.update files.fdt.openFds fd true := by
    rw [takeFd_eq hn]; simp
  refine ⟨hok, fun u i hi => ?_, fun u w i hu hw => ?_, fun u => ?_, fun i => ?_⟩
  · rw [takeFd_maxFds, hslot, hopen]
    rcases hmem hi with hi | ⟨-, rfl⟩
    · obtain ⟨h1, h2, h3⟩ := h.held_free u i hi
      have hne : i ≠ fd := fun he => hfree u (he ▸ hi)
      exact ⟨h1, by rw [Function.update_of_ne hne, h2], h3⟩
    · exact ⟨hlt, Function.update_self .., hn⟩
  · rcases hmem hu with hu | ⟨hut, hi⟩ <;> rcases hmem hw with hw | ⟨hwt, hi'⟩
    · exact h.held_inj u w i hu hw
    · exact absurd (hi' ▸ hu) (hfree u)
    · exact absurd (hi ▸ hw) (hfree w)
    · exact hut.trans hwt.symm
  · by_cases hu : u = t
    · rw [hu, Function.update_self]
      exact List.nodup_cons.mpr ⟨hfree t, h.held_nodup t⟩
    · rw [Function.update_of_ne hu]; exact h.held_nodup u
  · rw [h.installed_eq i]
    unfold fcheckFiles
    rw [takeFd_maxFds, hslot]

/-- An exact growth keeps the reservations and every installed file. -/
theorem TableInv.grow {n : Fdtable} (h : TableInv files held installed) (hn : 64 ∣ n.maxFds)
    (hle : files.fdt.maxFds ≤ n.maxFds) (he : GrowthExact files.fdt.maxFds n.maxFds) :
    TableInv { files with fdt := copyFdtable n files.fdt } held installed := by
  have hslot {i : ℕ} (hi : i < n.maxFds) :
      (copyFdtable n files.fdt).fd i = if i < files.fdt.maxFds then files.fdt.fd i else none := by
    rw [copyFdtable_fd hle he]
    split
    · rename_i h1; exact copyClear_copied h1
    · rename_i h1; exact copyClear_cleared (by omega) (by omega)
  refine ⟨filesOk_grow h.ok hn hle he, fun u i hi => ?_, h.held_inj, h.held_nodup, fun i => ?_⟩
  · obtain ⟨h1, h2, h3⟩ := h.held_free u i hi
    have h4 : i < n.maxFds := by omega
    dsimp only
    refine ⟨h4, ?_, ?_⟩
    · rw [copyFdtable_openFds h.ok.fdt hn hle he.lt h4, if_pos h1, h2]
    · rw [hslot h4, if_pos h1, h3]
  · rw [h.installed_eq i]
    unfold fcheckFiles
    dsimp only
    rw [copyFdtable_maxFds]
    by_cases hi : i < n.maxFds
    · rw [if_pos hi, hslot hi]
    · rw [if_neg hi, if_neg (by omega)]

end Table

structure ProtocolInv (s : Shared) : Prop where
  installs : ∀ t fd, (s.pc t).installs = some fd → fd ∈ s.held t
  loaded : ∀ t fd file a, s.pc t = .loaded fd file a → a = s.fdt
  resizer : ∀ t nr, (s.pc t).resizes = some nr →
    s.resizeInProgress = true ∧ s.view.fdt.maxFds ≤ nr
  unique : ∀ t u nr nr', (s.pc t).resizes = some nr → (s.pc u).resizes = some nr' → t = u
  synced : ∀ t w nr n, s.pc t = .resized w nr n → ∀ u, (s.pc u).pastTest = true → s.grace u = true
  newFdt : ∀ t w nr n, s.pc t = .resized w nr (some n) → 64 ∣ n.maxFds
  count_pos : 0 < s.count
  sole : s.count = 1 → ∀ t, t ≠ s.sole → s.pc t = .idle

structure SharedInv (s : Shared) : Prop where
  table : TableInv s.view s.held s.installed
  protocol : ProtocolInv s
  noBug : s.bug = false

namespace Shared
variable (s : Shared) (t : TaskId)

@[simp] theorem setPc_view (p : Pc) : (s.setPc t p).view = s.view := rfl

@[simp] theorem setView_view (files : FilesStruct) : (s.setView files).view = files := by
  simp [view, setView]

theorem setPc_self (p : Pc) : (s.setPc t p).pc t = p := Function.update_self ..

theorem setPc_ne {u : TaskId} (p : Pc) (h : u ≠ t) : (s.setPc t p).pc u = s.pc u :=
  Function.update_of_ne h ..

end Shared

namespace ProtocolInv
variable {s s' : Shared} {t : TaskId}

/-- A task moves on without starting a resize. -/
theorem move (h : ProtocolInv s) {p : Pc} (hsole : s.count = 1 → t ≠ s.sole → p = .idle)
    (hinst : ∀ fd, p.installs = some fd → fd ∈ s.held t)
    (hload : ∀ fd file a, p = .loaded fd file a → a = s.fdt) (hres : p.resizes = none)
    (hpast : p.pastTest = true → (s.pc t).pastTest = true ∨ s.resizeInProgress = false) :
    ProtocolInv (s.setPc t p) := by
  have hne {u : TaskId} {nr : ℕ} (hu : ((s.setPc t p).pc u).resizes = some nr) :
      (s.pc u).resizes = some nr ∧ u ≠ t := by
    by_cases hut : u = t
    · rw [hut, s.setPc_self, hres] at hu; cases hu
    · rw [s.setPc_ne t p hut] at hu; exact ⟨hu, hut⟩
  refine ⟨fun u fd hu => ?_, fun u fd f a hu => ?_, fun u nr hu => h.resizer u nr (hne hu).1,
    fun u v nr nr' hu hv => h.unique u v nr nr' (hne hu).1 (hne hv).1,
    fun u w nr n hu v hv => ?_, fun u w nr n hu => ?_, h.count_pos, fun hc u hu => ?_⟩
  · by_cases hut : u = t
    · rw [hut, s.setPc_self] at hu; exact hut ▸ hinst fd hu
    · rw [s.setPc_ne t p hut] at hu; exact h.installs u fd hu
  · by_cases hut : u = t
    · rw [hut, s.setPc_self] at hu; exact hload fd f a hu
    · rw [s.setPc_ne t p hut] at hu; exact h.loaded u fd f a hu
  · have hut := (@hne u nr (by rw [hu]; rfl)).2
    rw [s.setPc_ne t p hut] at hu
    by_cases hvt : v = t
    · rw [hvt, s.setPc_self] at hv
      rcases hpast hv with hold | hfree
      · exact hvt ▸ h.synced u w nr n hu t hold
      · have := (h.resizer u nr (by rw [hu]; rfl)).1
        rw [hfree] at this; cases this
    · rw [s.setPc_ne t p hvt] at hv
      exact h.synced u w nr n hu v hv
  · have hut := (@hne u nr (by rw [hu]; rfl)).2
    rw [s.setPc_ne t p hut] at hu
    exact h.newFdt u w nr n hu
  · by_cases hut : u = t
    · rw [hut, s.setPc_self]; exact hsole hc (hut ▸ hu)
    · rw [s.setPc_ne t p hut]; exact h.sole hc u hu

theorem setPc_idle (h : ProtocolInv s) (t : TaskId) : ProtocolInv (s.setPc t .idle) :=
  h.move (fun _ _ => rfl) (fun _ hf => by cases hf) (fun _ _ _ hf => by cases hf) rfl
    (fun hf => by cases hf)

/-- The protocol looks at nothing of the table but its capacity and its address. -/
theorem congr (h : ProtocolInv s) (hpc : s'.pc = s.pc) (hfdt : s'.fdt = s.fdt)
    (hres : s'.resizeInProgress = s.resizeInProgress)
    (hmax : s'.view.fdt.maxFds = s.view.fdt.maxFds) (hc : s'.count = s.count)
    (hs : s'.sole = s.sole)
    (hheld : ∀ u fd, (s.pc u).installs = some fd → fd ∈ s.held u → fd ∈ s'.held u)
    (hgrace : ∀ u, (s.pc u).pastTest = true → s'.grace u = s.grace u) : ProtocolInv s' := by
  refine ⟨fun u fd hu => ?_, ?_, ?_, ?_, fun u w nr n hu v hv => ?_, ?_, ?_, ?_⟩
  · rw [hpc] at hu; exact hheld u fd hu (h.installs u fd hu)
  · rw [hpc, hfdt]; exact h.loaded
  · rw [hpc, hres, hmax]; exact h.resizer
  · rw [hpc]; exact h.unique
  · rw [hpc] at hu hv; rw [hgrace v hv]; exact h.synced u w nr n hu v hv
  · rw [hpc]; exact h.newFdt
  · rw [hc]; exact h.count_pos
  · rw [hpc, hc, hs]; exact h.sole

/-- The first half of `expand_fdtable`: nobody else is resizing. -/
theorem startResize (h : ProtocolInv s) (ht : s.Acts t) (hr : s.resizeInProgress = false) (w : Want)
    {nr : ℕ} (hnr : s.view.fdt.maxFds ≤ nr) :
    ProtocolInv ({ s with resizeInProgress := true }.setPc t (.resizing w nr)) := by
  have hnone (u : TaskId) (k : ℕ) : (s.pc u).resizes ≠ some k := fun hu => by
    have := (h.resizer u k hu).1
    rw [hr] at this; cases this
  have hpc (u : TaskId) (hu : u ≠ t) :
      ({ s with resizeInProgress := true }.setPc t (.resizing w nr)).pc u = s.pc u :=
    Function.update_of_ne hu ..
  have hself : ({ s with resizeInProgress := true }.setPc t (.resizing w nr)).pc t =
      .resizing w nr :=
    Function.update_self ..
  have honly (u : TaskId) (k : ℕ)
      (hu :
        (({ s with resizeInProgress := true }.setPc t (.resizing w nr)).pc u).resizes = some k) :
      u = t := by
    by_contra hut
    rw [hpc u hut] at hu
    exact hnone u k hu
  refine ⟨fun u fd hu => ?_, fun u fd f a hu => ?_, fun u k hu => ?_, fun u v k k' hu hv => ?_,
    fun u w' k n hu v hv => ?_, fun u w' k n hu => ?_, h.count_pos, fun hc u hu => ?_⟩
  · by_cases hut : u = t
    · rw [hut, hself] at hu; cases hu
    · rw [hpc u hut] at hu; exact h.installs u fd hu
  · by_cases hut : u = t
    · rw [hut, hself] at hu; cases hu
    · rw [hpc u hut] at hu; exact h.loaded u fd f a hu
  · have hut := honly u k hu
    rw [hut, hself] at hu
    cases hu
    exact ⟨rfl, hnr⟩
  · exact (honly u k hu).trans (honly v k' hv).symm
  · have hut := honly u k (by rw [hu]; rfl)
    rw [hut, hself] at hu; cases hu
  · have hut := honly u k (by rw [hu]; rfl)
    rw [hut, hself] at hu; cases hu
  · have hut : u ≠ t := fun he => hu (he.trans (ht hc))
    rw [hpc u hut]; exact h.sole hc u hu

/-- `synchronize_sched` covers every section that is past its test; with a single user there is
none. -/
theorem synchronize (h : ProtocolInv s) (ht : s.Acts t) {w : Want} {nr : ℕ}
    (hp : s.pc t = .resizing w nr) (newFdt : Option Fdtable)
    (hn : ∀ n, newFdt = some n → 64 ∣ n.maxFds) :
    ProtocolInv ({ s with grace := fun u => decide (s.count > 1) && (s.pc u).inRcu }.setPc t
      (.resized w nr newFdt)) := by
  set s' := { s with grace := fun u => decide (s.count > 1) && (s.pc u).inRcu }.setPc t
    (.resized w nr newFdt) with hs'
  have hpc (u : TaskId) (hu : u ≠ t) : s'.pc u = s.pc u := Function.update_of_ne hu ..
  have hself : s'.pc t = .resized w nr newFdt := Function.update_self ..
  have hres (u : TaskId) (k : ℕ) (hu : (s'.pc u).resizes = some k) :
      (s.pc u).resizes = some k := by
    by_cases hut : u = t
    · rw [hut, hself] at hu; rw [hut, hp]; exact hu
    · rwa [hpc u hut] at hu
  refine ⟨fun u fd hu => ?_, fun u fd f a hu => ?_, fun u k hu => h.resizer u k (hres u k hu),
    fun u v k k' hu hv => h.unique u v k k' (hres u k hu) (hres v k' hv),
    fun u w' k n hu v hv => ?_, fun u w' k n hu => ?_, h.count_pos, fun hc u hu => ?_⟩
  · by_cases hut : u = t
    · rw [hut, hself] at hu; cases hu
    · rw [hpc u hut] at hu; exact h.installs u fd hu
  · by_cases hut : u = t
    · rw [hut, hself] at hu; cases hu
    · rw [hpc u hut] at hu; exact h.loaded u fd f a hu
  · have hvt : v ≠ t := fun he => by rw [he, hself] at hv; cases hv
    rw [hpc v hvt] at hv
    have hrcu : (s.pc v).inRcu = true := by
      cases hq : s.pc v <;> rw [hq] at hv <;> first | rfl | cases hv
    have hcount : s.count > 1 := by
      by_contra hle
      have hone : s.count = 1 := by have := h.count_pos; omega
      have hidle := h.sole hone v fun he => hvt (he.trans (ht hone).symm)
      rw [hidle] at hv; cases hv
    simp only [hs', Shared.setPc, hrcu, hcount, decide_true, Bool.and_self]
  · have hut := h.unique u t k nr (hres u k (by rw [hu]; rfl)) (by rw [hp]; rfl)
    rw [hut, hself] at hu
    cases hu
    exact hn n rfl
  · have hut : u ≠ t := fun he => hu (he.trans (ht hc))
    rw [hpc u hut]; exact h.sole hc u hu

/-- The end of a resize, with or without a new table: no section can still store into the old
one. -/
theorem endResize (h : ProtocolInv s) {w : Want} {nr : ℕ} {n : Option Fdtable}
    (hp : s.pc t = .resized w nr n) (hg : ∀ u, s.grace u = false)
    (hpc : s'.pc = Function.update s.pc t .idle) (hheld : s'.held = s.held)
    (hc : s'.count = s.count) (hs : s'.sole = s.sole) : ProtocolInv s' := by
  have hquiet (u : TaskId) : (s.pc u).pastTest ≠ true := fun hu => by
    have := h.synced t w nr n hp u hu
    rw [hg u] at this; cases this
  have hnone (u : TaskId) (k : ℕ) : (s'.pc u).resizes ≠ some k := fun hu => by
    rw [hpc] at hu
    by_cases hut : u = t
    · rw [hut, Function.update_self] at hu; cases hu
    · rw [Function.update_of_ne hut] at hu
      exact hut (h.unique u t k nr hu (by rw [hp]; rfl))
  refine ⟨fun u fd hu => ?_, fun u fd f a hu => ?_, fun u k hu => absurd hu (hnone u k),
    fun u v k k' hu => absurd hu (hnone u k),
    fun u w' k n' hu => absurd (by rw [hu]; rfl) (hnone u k),
    fun u w' k n' hu => absurd (by rw [hu]; rfl) (hnone u k), hc ▸ h.count_pos, fun hc' u hu => ?_⟩
  · rw [hpc] at hu
    by_cases hut : u = t
    · rw [hut, Function.update_self] at hu; cases hu
    · rw [Function.update_of_ne hut] at hu
      rw [hheld]; exact h.installs u fd hu
  · rw [hpc] at hu
    by_cases hut : u = t
    · rw [hut, Function.update_self] at hu; cases hu
    · rw [Function.update_of_ne hut] at hu
      exact absurd (by rw [hu]; rfl) (hquiet u)
  · rw [hpc]
    by_cases hut : u = t
    · rw [hut, Function.update_self]
    · rw [Function.update_of_ne hut]; exact h.sole (hc ▸ hc') u (hs ▸ hu)

end ProtocolInv

namespace SharedInv
variable {s : Shared} {t : TaskId}

theorem setPc_idle (h : SharedInv s) (t : TaskId) : SharedInv (s.setPc t .idle) :=
  ⟨h.table, h.protocol.setPc_idle t, h.noBug⟩

theorem expandSlow (h : SharedInv s) (ht : s.Acts t) (nrOpen : ℕ) (w : Want) {nr : ℕ}
    (hnr : s.view.fdt.maxFds ≤ nr) : SharedInv (s.expandSlow nrOpen t w nr) := by
  unfold Shared.expandSlow
  split_ifs with h1 h2
  · exact h.setPc_idle t
  · refine ⟨h.table, h.protocol.move (fun hc hn => absurd (ht hc) hn) ?_ ?_ rfl ?_, h.noBug⟩
    · intro fd hf; cases hf
    · intro fd f a hf; cases hf
    · intro hf; cases hf
  · exact ⟨h.table, h.protocol.startResize ht (by simpa using h2) w hnr, h.noBug⟩

theorem allocSection (h : SharedInv s) (ht : s.Acts t) (hp : s.pc t = .idle)
    (nrOpen start endFd flags : ℕ) : SharedInv (s.allocSection nrOpen t start endFd flags) := by
  unfold Shared.allocSection
  dsimp only
  split_ifs with h1 h2
  · exact h.setPc_idle t
  · have htab := h.table.takeFd t start flags h2
    rw [← s.setView_view (PtraceRemote.takeFd _ _ _ _)] at htab
    refine ⟨htab, ?_, h.noBug⟩
    refine (h.protocol.setPc_idle t).congr rfl rfl rfl ?_ rfl rfl (fun u fd hu hm => ?_)
      fun _ _ => rfl
    · simp [Shared.setView, Shared.view, Shared.setPc]
    · -- the reservation is added to those the task has
      change fd ∈ Function.update s.held t _ u
      by_cases hut : u = t
      · subst hut; rw [Function.update_self]; exact List.mem_cons_of_mem _ hm
      · rw [Function.update_of_ne hut]; exact hm
  · exact h.expandSlow ht nrOpen _ (not_lt.mp h2)

/-- A slot `do_dup2` overwrites or fills is not reserved by anyone. -/
theorem dup2Section (h : SharedInv s) (ht : s.Acts t) (nrOpen fd : ℕ) (file : Option FileId)
    (flags : ℕ) : SharedInv (s.dup2Section nrOpen t fd file flags) := by
  unfold Shared.dup2Section
  split_ifs with h1
  · cases file with
    | none => exact h.setPc_idle t
    | some f =>
      have hok := filesOk_doDup2 h.table.ok f h1 flags
      unfold doDup2 at hok ⊢
      dsimp only at hok ⊢
      by_cases hbusy : s.view.fdt.fd fd = none ∧ s.view.fdt.openFds fd = true
      · rw [if_pos hbusy, if_pos (show -EBUSY < 0 by decide)]
        exact h.setPc_idle t
      · rw [if_neg hbusy] at hok ⊢
        rw [if_neg (by dsimp only; omega)]
        have hfree : s.view.fdt.openFds fd = false ∨ s.view.fdt.fd fd ≠ none := by
          by_cases hs : s.view.fdt.fd fd = none
          · exact Or.inl (Bool.eq_false_iff.mpr fun ho => hbusy ⟨hs, ho⟩)
          · exact Or.inr hs
        have htab := @TableInv.replace _ _ _ _ fd (some f) h.table h1 (h.table.not_held hfree) hok
          (by simp) (fun i hi => by simp [Function.update_of_ne hi]) (by simp)
        rw [← s.setView_view { s.view with fdt := _ }] at htab
        refine ⟨htab, ?_, h.noBug⟩
        refine (h.protocol.setPc_idle t).congr rfl rfl rfl ?_ rfl rfl (fun _ _ _ hm => hm)
          fun _ _ => rfl
        simp [Shared.setView, Shared.view, Shared.setPc]
  · exact h.expandSlow ht nrOpen _ (not_lt.mp h1)

theorem lockSection (h : SharedInv s) (ht : s.Acts t) (hp : s.pc t = .idle) (nrOpen : ℕ)
    (w : Want) : SharedInv (s.lockSection nrOpen t w) := by
  cases w with
  | alloc start endFd flags => exact h.allocSection ht hp nrOpen start endFd flags
  | dup2 fd file flags => exact h.dup2Section ht nrOpen fd file flags

end SharedInv

/-- A critical section ends by saying where its task is, whatever it was before. -/
theorem lockSection_setPc (s : Shared) (nrOpen : ℕ) (t : TaskId) (w : Want) (p : Pc) :
    (s.setPc t p).lockSection nrOpen t w = s.lockSection nrOpen t w := by
  have hidem (s : Shared) (q : Pc) : (s.setPc t p).setPc t q = s.setPc t q := by
    simp [Shared.setPc]
  have hslow (w : Want) (nr : ℕ) :
      (s.setPc t p).expandSlow nrOpen t w nr = s.expandSlow nrOpen t w nr := by
    unfold Shared.expandSlow
    rw [hidem, hidem]
    exact if_congr Iff.rfl rfl (if_congr Iff.rfl rfl (by simp [Shared.setPc]))
  cases w with
  | alloc start endFd flags =>
    simp only [Shared.lockSection, Shared.allocSection, Shared.setPc_view, hidem, hslow]
    simp [Shared.setPc, Shared.setView]
  | dup2 fd file flags =>
    simp only [Shared.lockSection, Shared.dup2Section, Shared.setPc_view, hidem, hslow]
    simp [Shared.setPc, Shared.setView]

namespace SharedInv
variable {s : Shared} {t : TaskId}

theorem resume (h : SharedInv s) (ht : s.Acts t) (nrOpen : ℕ) (w : Want) (nr : ℕ) :
    SharedInv (s.resume nrOpen t w nr) := by
  unfold Shared.resume
  split_ifs with h1
  · rw [← lockSection_setPc s nrOpen t w .idle]
    exact (h.setPc_idle t).lockSection ht (s.setPc_self t .idle) nrOpen w
  · exact h.expandSlow ht nrOpen w (not_lt.mp h1)

theorem finishResize (h : SharedInv s) (ht : s.Acts t) {w : Want} {nr : ℕ} {n : Option Fdtable}
    (hp : s.pc t = .resized w nr n) (hg : ∀ u, s.grace u = false) (hx : ResizesExactly s)
    (nrOpen a : ℕ) : SharedInv (s.finishResize nrOpen t w nr n a) := by
  have hnr := (h.protocol.resizer t nr (by rw [hp]; rfl)).2
  unfold Shared.finishResize
  cases n with
  | none => exact ⟨h.table, h.protocol.endResize hp hg rfl rfl rfl rfl, h.noBug⟩
  | some n =>
    dsimp only
    split_ifs with h1 h2
    · exact ⟨h.table, h.protocol.endResize hp hg rfl rfl rfl rfl, h.noBug⟩
    · omega
    · have hgrow := h.table.grow (h.protocol.newFdt t w nr n hp) (by omega)
        (hx t w nr n hp (Nat.not_le.mp h1))
      rw [← lockSection_setPc _ nrOpen t w .idle]
      apply SharedInv.lockSection
      · refine ⟨?_, h.protocol.endResize hp hg rfl rfl rfl rfl, h.noBug⟩
        simpa [Shared.view, Shared.setPc] using hgrow
      · exact ht
      · exact Shared.setPc_self _ t .idle

theorem closeSection (h : SharedInv s) (fd : ℕ) : SharedInv (s.closeSection fd) := by
  have hok := filesOk_closeFd h.table.ok fd
  unfold Shared.closeSection
  unfold closeFd at hok ⊢
  by_cases h1 : fd ≥ s.view.fdt.maxFds
  · rw [if_pos h1]; exact h
  · rw [if_neg h1] at hok ⊢
    cases hs : s.view.fdt.fd fd with
    | none => exact h
    | some f =>
      rw [hs] at hok
      dsimp only at hok ⊢
      have hclr (fdt : Fdtable) : (clearCloseOnExec fd fdt).maxFds = fdt.maxFds ∧
          (clearCloseOnExec fd fdt).openFds = fdt.openFds ∧
          (clearCloseOnExec fd fdt).fd = fdt.fd := by
        unfold clearCloseOnExec; split <;> exact ⟨rfl, rfl, rfl⟩
      have htab := @TableInv.replace _ _ _ _ fd none h.table (not_le.mp h1)
        (h.table.not_held (Or.inr (by rw [hs]; exact Option.some_ne_none f))) hok
        (by simp [putUnusedFd, clearOpenFd, hclr])
        (fun i hi => by simp [putUnusedFd, clearOpenFd, hclr, Function.update_of_ne hi])
        (by simp [putUnusedFd, clearOpenFd, hclr])
      rw [← s.setView_view (putUnusedFd _ _)] at htab
      refine ⟨htab, ?_, h.noBug⟩
      refine h.protocol.congr rfl rfl rfl ?_ rfl rfl (fun _ _ _ hm => hm) fun _ _ => rfl
      simp [Shared.setView, Shared.view, putUnusedFd, clearOpenFd, hclr]

theorem putUnused (h : SharedInv s) {fd : ℕ} (hp : s.pc t = .idle) (hm : fd ∈ s.held t) :
    SharedInv { s.setView (putUnusedFd s.view fd) with
      held := Function.update s.held t ((s.held t).erase fd) } := by
  obtain ⟨hlt, -, hnone⟩ := h.table.held_free t fd hm
  have htab := h.table.release (v := none) hm (filesOk_putUnusedFd h.table.ok hnone) rfl
    (fun i hi => Function.update_of_ne hi ..) (by simp [putUnusedFd, clearOpenFd, ← hnone])
  have hkeep : Function.update s.installed fd none = s.installed := by
    rw [Function.update_eq_self_iff, h.table.installed_eq, fcheckFiles, if_pos hlt, hnone]
  rw [← s.setView_view (putUnusedFd _ _), hkeep] at htab
  refine ⟨htab, ?_, h.noBug⟩
  refine h.protocol.congr rfl rfl rfl ?_ rfl rfl (fun u i hu hi => ?_) fun _ _ => rfl
  · simp [Shared.setView, Shared.view, putUnusedFd, clearOpenFd]
  · have hut : u ≠ t := fun he => by rw [he, hp] at hu; cases hu
    change i ∈ Function.update s.held t _ u
    rw [Function.update_of_ne hut]; exact hi

/-- The `BUG_ON` of `__fd_install` stays silent and the file goes into the current table. -/
theorem store (h : SharedInv s) {fd a : ℕ} {file : FileId} (hp : s.pc t = .loaded fd file a) :
    SharedInv (s.store t fd file a) := by
  have hm := h.protocol.installs t fd (by rw [hp]; rfl)
  obtain rfl := h.protocol.loaded t fd file a hp
  obtain ⟨hlt, hopen, hnone⟩ := h.table.held_free t fd hm
  have hnone' : (s.tables s.fdt).fd fd = none := hnone
  unfold Shared.store
  rw [if_neg (not_not.mpr hnone')]
  dsimp only
  have hins : fdInstall s.view fd file = some { s.view with
      fdt := { s.view.fdt with fd := Function.update s.view.fdt.fd fd (some file) } } := by
    unfold fdInstall; rw [if_neg (not_not.mpr hnone)]
  have htab := h.table.release (v := some file) hm (filesOk_fdInstall h.table.ok hopen hins) rfl
    (fun i _ => rfl) rfl
  rw [← s.setView_view { s.view with fdt := _ }] at htab
  refine ⟨htab, ?_, h.noBug⟩
  refine (h.protocol.setPc_idle t).congr rfl rfl rfl ?_ rfl rfl (fun u i hu hi => ?_) fun u hu => ?_
  · simp [Shared.view, Shared.setPc]
  · have hut : u ≠ t := fun he => by rw [he, s.setPc_self] at hu; cases hu
    change i ∈ Function.update s.held t _ u
    rw [Function.update_of_ne hut]; exact hi
  · have hut : u ≠ t := fun he => by rw [he, s.setPc_self] at hu; cases hu
    exact Function.update_of_ne hut ..

theorem step {s' : Shared} (h : SharedInv s) (hs : FdStep s s') (hx : ResizesExactly s) :
    SharedInv s' := by
  have hmove {t : TaskId} (p : Pc) (ht : s.Acts t) (hres : p.resizes = none)
      (hinst : ∀ fd, p.installs = some fd → fd ∈ s.held t)
      (hload : ∀ fd file a, p = .loaded fd file a → a = s.fdt)
      (hpast : p.pastTest = true → (s.pc t).pastTest = true ∨ s.resizeInProgress = false) :
      SharedInv (s.setPc t p) :=
    ⟨h.table, h.protocol.move (fun hc hn => absurd (ht hc) hn) hinst hload hres hpast, h.noBug⟩
  cases hs with
  | enter nrOpen t w ht hp => exact h.lockSection ht hp nrOpen w
  | resume nrOpen t w nr ht hp => exact h.resume ht nrOpen w nr
  | synchronize nrOpen mem t w nr ht hp =>
    refine ⟨h.table, h.protocol.synchronize ht hp _ fun n hn => ?_, h.noBug⟩
    unfold allocFdtable at hn
    obtain ⟨m, -, rfl⟩ := Option.map_eq_some_iff.mp hn
    exact fdtableSize_dvd _ _
  | finish nrOpen t w nr n a ht hp hg ha => exact h.finishResize ht hp hg hx nrOpen a
  | close t fd ht hp => exact h.closeSection fd
  | putUnused t fd ht hp hm => exact h.putUnused hp hm
  | install t fd file ht hp hm =>
    exact hmove _ ht rfl (fun _ he => by cases he; exact hm) (fun _ _ _ he => by cases he)
      (fun he => by cases he)
  | test t fd file ht hp hr =>
    exact hmove _ ht rfl (fun i he => h.protocol.installs t i (by rw [hp]; exact he))
      (fun _ _ _ he => by cases he) (fun _ => Or.inr hr)
  | leave t fd file ht hp hr =>
    have hm := hmove (.installWait fd file) ht rfl
      (fun i he => h.protocol.installs t i (by rw [hp]; exact he)) (fun _ _ _ he => by cases he)
      (fun he => by cases he)
    refine ⟨hm.table, hm.protocol.congr rfl rfl rfl rfl rfl rfl (fun _ _ _ hi => hi)
      fun u hu => ?_, h.noBug⟩
    have hut : u ≠ t := fun he => by rw [he, s.setPc_self] at hu; cases hu
    exact Function.update_of_ne hut ..
  | retry t fd file ht hp =>
    exact hmove _ ht rfl (fun i he => h.protocol.installs t i (by rw [hp]; exact he))
      (fun _ _ _ he => by cases he) (fun he => by cases he)
  | load t fd file ht hp =>
    exact hmove _ ht rfl (fun i he => h.protocol.installs t i (by rw [hp]; exact he))
      (fun _ _ _ he => by cases he; rfl) (fun _ => Or.inl (by rw [hp]; rfl))
  | store t fd file a ht hp => exact h.store hp
  | setCount count sole hpos hc =>
    exact ⟨h.table, ⟨h.protocol.installs, h.protocol.loaded, h.protocol.resizer, h.protocol.unique,
      h.protocol.synced, h.protocol.newFdt, hpos, hc⟩, h.noBug⟩

end SharedInv

/-- A table between two calls: nobody is inside one, and nothing is reserved. -/
structure SharedInit (s : Shared) : Prop where
  ok : FilesOk s.view
  idle : ∀ t, s.pc t = .idle
  held : ∀ t, s.held t = []
  installed : ∀ fd, s.installed fd = fcheckFiles s.view fd
  count_pos : 0 < s.count
  noBug : s.bug = false

theorem SharedInit.inv {s : Shared} (h : SharedInit s) : SharedInv s := by
  refine ⟨⟨h.ok, fun t fd hm => ?_, fun t u fd hm => ?_, fun t => ?_, h.installed⟩,
    ⟨fun t fd ht => ?_, fun t fd f a ht => ?_, fun t nr ht => ?_, fun t u nr nr' ht => ?_,
      fun t w nr n ht => ?_, fun t w nr n ht => ?_, h.count_pos, fun _ t _ => h.idle t⟩, h.noBug⟩
  all_goals first
    | (rw [h.held t] at hm; cases hm)
    | (rw [h.idle t] at ht; cases ht)
    | (rw [h.held t]; exact List.nodup_nil)

def SharedRun : Shared → Shared → Prop :=
  Relation.ReflTransGen fun s s' => FdStep s s' ∧ ResizesExactly s

theorem sharedInv_run {s s' : Shared} (h : SharedInv s) (hr : SharedRun s s') : SharedInv s' := by
  induction hr with
  | refl => exact h
  | tail _ hs ih => exact ih.step hs.1 hs.2

/-- In every interleaving whose resizes copy exactly: no `BUG_ON` fires, a reserved descriptor has
one owner and no file, and an installed file is in the current table until it is removed. -/
theorem shared_run_safe {s s' : Shared} (h : SharedInit s) (hr : SharedRun s s') :
    s'.bug = false ∧
    (∀ t u fd, fd ∈ s'.held t → fd ∈ s'.held u → t = u) ∧
    (∀ t, (s'.held t).Nodup) ∧
    (∀ t fd, fd ∈ s'.held t → s'.installed fd = none) ∧
    (∀ fd file, s'.installed fd = some file →
      fd < (s'.tables s'.fdt).maxFds ∧ (s'.tables s'.fdt).fd fd = some file) := by
  have hi := sharedInv_run h.inv hr
  refine ⟨hi.noBug, hi.table.held_inj, hi.table.held_nodup, fun t fd hm => ?_, fun fd file hf => ?_⟩
  · obtain ⟨h1, -, h3⟩ := hi.table.held_free t fd hm
    rw [hi.table.installed_eq, fcheckFiles, if_pos h1, h3]
  · rw [hi.table.installed_eq, fcheckFiles] at hf
    split_ifs at hf with h1
    exact ⟨h1, hf⟩

def quietShared (maxFds : ℕ) (slot : ℕ → Option FileId) : Shared where
  tables := fun _ => ⟨maxFds, slot, fun _ => false, fun i => (slot i).isSome, fun _ => false⟩
  fdt := 0
  nextFd := 0
  resizeInProgress := false
  count := 1
  sole := 1
  pc := fun _ => .idle
  grace := fun _ => false
  held := fun _ => []
  installed := fun fd => if fd < maxFds then slot fd else none
  bug := false

theorem quietShared_init {maxFds : ℕ} {slot : ℕ → Option FileId} (hpos : 0 < maxFds)
    (hd : 64 ∣ maxFds) (hslot : ∀ w, slot (64*w+1) = none) :
    SharedInit (quietShared maxFds slot) := by
  refine ⟨⟨⟨hpos, hd, fun i _ hs => Option.isSome_iff_ne_none.mpr hs,
    fun w _ => ?_, fun _ _ _ => rfl⟩,
    Nat.zero_le _, fun i hi => absurd hi (Nat.not_lt_zero i)⟩, fun _ => rfl, fun _ => rfl,
    fun _ => rfl, Nat.zero_lt_one, rfl⟩
  refine iff_of_false Bool.false_ne_true fun hf => ?_
  have := hf 1 (by decide)
  change (slot (64*w+1)).isSome = true at this
  rw [hslot w] at this
  cases this

/-- Task 1 reserves descriptor 0 and installs file 7 in it. -/
theorem shared_run_safe_install :
    ∃ s', SharedRun (quietShared 64 fun _ => none) s' ∧ s'.installed 0 = some 7 ∧
      0 < (s'.tables s'.fdt).maxFds ∧ (s'.tables s'.fdt).fd 0 = some 7 := by
  have hx (s : Shared) (h : ∀ t, t ≠ 1 → s.pc t = .idle) (h1 : (s.pc 1).resizes = none) :
      ResizesExactly s := fun t w nr n hp _ => by
    by_cases ht : t = 1
    · rw [ht] at hp; rw [hp] at h1; cases h1
    · rw [h t ht] at hp; cases hp
  let s1 := (quietShared 64 fun _ => none).lockSection 1024 1 (.alloc 0 1024 0)
  have hidle (t : TaskId) (ht : t ≠ 1) : s1.pc t = .idle := by
    change Function.update (fun _ => Pc.idle) 1 Pc.idle t = _
    rw [Function.update_of_ne ht]
  have hset (p : Pc) (s : Shared) (h : ∀ t, t ≠ 1 → s.pc t = .idle) (t : TaskId) (ht : t ≠ 1) :
      (s.setPc 1 p).pc t = .idle := (s.setPc_ne 1 p ht).trans (h t ht)
  let s2 := s1.setPc 1 (.entered 0 7)
  let s3 := s2.setPc 1 (.tested 0 7)
  let s4 := s3.setPc 1 (.loaded 0 7 0)
  have h2 := hset (.entered 0 7) s1 hidle
  have h3 := hset (.tested 0 7) s2 h2
  have h4 := hset (.loaded 0 7 0) s3 h3
  have hrun : SharedRun (quietShared 64 fun _ => none) (s4.store 1 0 7 0) := by
    refine .head ⟨.enter 1024 1 (.alloc 0 1024 0) (fun _ => rfl) rfl, hx _ (fun _ _ => rfl) rfl⟩ ?_
    refine .head ⟨.install 1 0 7 (fun _ => rfl) rfl (by decide), hx s1 hidle rfl⟩ ?_
    refine .head ⟨.test 1 0 7 (fun _ => rfl) rfl rfl, hx s2 h2 rfl⟩ ?_
    refine .head ⟨.load 1 0 7 (fun _ => rfl) rfl, hx s3 h3 rfl⟩ ?_
    exact .single ⟨.store 1 0 7 0 (fun _ => rfl) rfl, hx s4 h4 rfl⟩
  have hinst : (s4.store 1 0 7 0).installed 0 = some 7 := by decide
  have hinit := @quietShared_init 64 (fun _ => none) (by decide) (by decide) fun _ => rfl
  exact ⟨_, hrun, hinst, (shared_run_safe hinit hrun).2.2.2.2 0 7 hinst⟩

/-- With `2^29` descriptors in the table the byte count of the copied pointers wraps to zero: a
`dup2` to descriptor `2^29` replaces the table by one without the installed files. -/
theorem shared_run_loses_file :
    ∃ s s', SharedInit s ∧ Relation.ReflTransGen FdStep s s' ∧
      s'.installed 0 = some 7 ∧ (s'.tables s'.fdt).fd 0 = none := by
  let slot : ℕ → Option FileId := fun i => if i = 0 then some 7 else none
  let s := quietShared (2^29) slot
  let mem : RawMem := ⟨fun _ => none, fun _ => false, fun _ => false, fun _ => false⟩
  let w : Want := .dup2 (2^29) (some 7) 0
  let s1 := s.lockSection (2^30) 1 w
  let s2 := { s1 with grace := fun u => decide (s1.count > 1) && (s1.pc u).inRcu }.setPc 1
    (.resized w (2^29) (allocFdtable (2^30) (some mem) (2^29)))
  refine ⟨s, s2.finishResize (2^30) 1 w (2^29) (allocFdtable (2^30) (some mem) (2^29)) 1,
    ?_, ?_, ?_, ?_⟩
  · exact quietShared_init (by decide) (by decide) fun w => if_neg (by omega)
  · refine .head (.enter (2^30) 1 w (fun _ => rfl) rfl) ?_
    refine .head (.synchronize (2^30) (some mem) 1 w (2^29) (fun _ => rfl) rfl) ?_
    exact .single (.finish (2^30) 1 w (2^29) _ 1 (fun _ => rfl) rfl (fun _ => rfl) (by decide))
  · decide
  · decide

end PtraceRemote
