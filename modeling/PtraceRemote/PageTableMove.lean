import PtraceRemote.BlockMove
import PtraceRemote.PageTable

/-! `move_page_tables` on the level of pages: what it has done is a block move of the entries, it
goes as far as tables can be had, and the same function undoes it. -/
namespace PtraceRemote

open BlockMove (Moves Empty Apart moves_empty)

variable {env back : PtEnv} {t t' : PageTables} {old new len j j' i i' n x : ℕ} {d : Pmd}

def Pmd.entry (d : Pmd) (i : ℕ) : Option Pte :=
  match d with
  | .absent => none
  | .table f => f i
  | .huge h => some (h.sub i)

def PageTables.entry (t : PageTables) (p : ℕ) : Option Pte := (t.look (p/512)).entry (p % 512)

def Pte.clean (e : Pte) : Pte := { e with softDirty := false }

def PageTables.shows (t : PageTables) : ℕ → Option Pte := fun p => (t.entry p).map Pte.clean

/-- A huge page that is split becomes the table of its pages. So `split_huge_pmd` does for anonymous
areas; of a file it only drops the entry. -/
def SplitKeeps (env : PtEnv) : Prop := ∀ h, env.split h = .table fun i => some (h.sub i)

/-- `move_huge_pmd` does nothing, or takes the huge page over as a whole, up to the soft-dirty
bit. -/
def MoveHugeKeeps (env : PtEnv) : Prop := ∀ t old new h,
  env.moveHugePmd t old new h = (false, t) ∨ old % PMD_SIZE = 0 ∧ new % PMD_SIZE = 0 ∧ ∃ h' : Pte,
  h'.clean = h.clean ∧
    env.moveHugePmd t old new h =
    (true, (t.setPmd (old/PMD_SIZE) .absent).setPmd (new/PMD_SIZE) (.huge h'))

/-- What is asked of the functions for huge pages. -/
structure HugeKeeps (env : PtEnv) : Prop where
  split : SplitKeeps env
  move : MoveHugeKeeps env

/-- A table for the page exists or can be had. -/
def Ready (env : PtEnv) (t : PageTables) (p : ℕ) : Prop :=
  (t.upper (p/512/512) = true ∨ env.allocUpper (p/512/512) = true) ∧
    (t.look (p/512) ≠ .absent ∨ env.allocTable (p/512) = true)

/-- The call stays within one table on both sides. -/
def PteCall.InPmd (c : PteCall) : Prop :=
  c.oldAddr % PMD_SIZE+c.extent ≤ PMD_SIZE ∧ c.newAddr % PMD_SIZE+c.extent ≤ PMD_SIZE

/-! Looking up. -/

theorem look_setPmd (hu : t.upper (j/512) = true) (d : Pmd) (i : ℕ) :
    (t.setPmd j d).look i = if i = j then d else t.look i := by
  unfold PageTables.look PageTables.setPmd
  dsimp only
  by_cases hi : i = j
  · subst hi
    rw [if_pos rfl, if_pos hu, Function.update_self]
  · rw [if_neg hi, Function.update_of_ne hi]

theorem look_of_upper (hu : t.upper (j/512) = true) : t.look j = t.pmd j := if_pos hu

theorem upper_of_look (h : t.look j ≠ .absent) : t.upper (j/512) = true := by
  by_contra hu
  exact h (if_neg hu)

theorem entry_of_look (h : t'.look = t.look) : t'.entry = t.entry := by
  funext p
  rw [PageTables.entry, h, PageTables.entry]

/-- A directory entry may be replaced by one that shows the same. -/
theorem entry_setPmd (hu : t.upper (j/512) = true) (hd : ∀ i < 512, d.entry i = (t.pmd j).entry i) :
    (t.setPmd j d).entry = t.entry := by
  funext p
  rw [PageTables.entry, look_setPmd hu, PageTables.entry]
  split
  next hp => rw [hd _ (Nat.mod_lt p (by decide)), hp, look_of_upper hu]
  next => rfl

/-! The allocations. -/

theorem allocNewPmd_spec (env : PtEnv) (t : PageTables) (addr : ℕ) :
    let r := allocNewPmd env t addr
    (r.1 = false ∧ r.2 = t ∧ t.upper (addr/PMD_SIZE/512) = false ∧
      env.allocUpper (addr/PMD_SIZE/512) = false) ∨
      r.1 = true ∧ r.2.look = t.look ∧ r.2.upper (addr/PMD_SIZE/512) = true ∧
        (∀ k, t.upper k = true → r.2.upper k = true) ∧
        ((∀ h, t.look (addr/PMD_SIZE) ≠ .huge h) → r.2.bug = t.bug) := by
  dsimp only
  unfold allocNewPmd
  dsimp only
  set j := addr/PMD_SIZE
  split
  next hu =>
    right
    split
    next h hh =>
      exact ⟨rfl, rfl, hu, fun _ hk => hk, fun hno => absurd ((look_of_upper hu).trans hh) (hno h)⟩
    next => exact ⟨rfl, rfl, hu, fun _ hk => hk, fun _ => rfl⟩
  next hu =>
    split
    next =>
      refine .inr ⟨rfl, ?_, Function.update_self .., fun k hk => ?_, fun _ => rfl⟩
      · -- the new directory is empty, as it was found before
        funext i
        unfold PageTables.look
        by_cases hi : i/512 = j/512
        · simp only [hi, hu, Function.update_self, if_true, Bool.false_eq_true, if_false]
        · simp only [Function.update_of_ne hi, hi, if_false]
      · by_cases he : k = j/512
        · rw [he]
          exact Function.update_self ..
        · exact (Function.update_of_ne he ..).trans hk
    next ha => exact .inl ⟨rfl, rfl, by simpa using hu, by simpa using ha⟩

theorem pteAlloc_spec (env : PtEnv) (addr : ℕ) (hu : t.upper (addr/PMD_SIZE/512) = true)
    (hh : ∀ h, t.pmd (addr/PMD_SIZE) ≠ .huge h) :
    let r := pteAlloc env t addr
    (r.1 = false ∧ r.2 = t ∧ t.pmd (addr/PMD_SIZE) = .absent ∧
      env.allocTable (addr/PMD_SIZE) = false) ∨
      r.1 = true ∧ r.2.entry = t.entry ∧ (∃ f, r.2.pmd (addr/PMD_SIZE) = .table f) ∧
        r.2.upper = t.upper ∧ (∀ i, i ≠ addr/PMD_SIZE → r.2.pmd i = t.pmd i) ∧ r.2.bug = t.bug := by
  dsimp only
  unfold pteAlloc
  dsimp only
  set j := addr/PMD_SIZE
  cases hd : t.pmd j with
  | absent =>
    dsimp only
    split
    next =>
      refine .inr
        ⟨rfl, entry_setPmd hu fun i _ => ?_, ⟨_, Function.update_self ..⟩, rfl, fun i hi => ?_, rfl⟩
      · rw [hd]
        rfl
      · exact Function.update_of_ne hi ..
    next ha => exact .inl ⟨rfl, rfl, rfl, by simpa using ha⟩
  | table f => exact .inr ⟨rfl, rfl, ⟨f, hd⟩, rfl, fun _ _ => rfl, rfl⟩
  | huge h => exact absurd hd (hh h)

/-! Moving entries. -/

@[simp] theorem clean_moveSoftDirtyPte (e : Pte) : (moveSoftDirtyPte env e).clean = e.clean := by
  unfold moveSoftDirtyPte
  split <;> rfl

theorem clean_sub (h : Pte) (i : ℕ) : (h.sub i).clean = h.clean.sub i := rfl

structure HasTables (t : PageTables) (j j' : ℕ) : Prop where
  upper : t.upper (j/512) = true
  upper' : t.upper (j'/512) = true
  table : ∃ f, t.pmd j = .table f
  table' : ∃ f, t.pmd j' = .table f

/-- What writing an entry of a table does. -/
theorem setPte_spec {e : Option Pte} (hu : t.upper (j/512) = true) (ht : ∃ f, t.pmd j = .table f)
    (hi : i < 512) :
    let r := t.setPte j i e
    r.entry = Function.update t.entry (512*j+i) e ∧ r.upper = t.upper ∧ r.bug = t.bug ∧
      (∃ f, r.pmd j = .table f) ∧ ∀ k, k ≠ j → r.pmd k = t.pmd k := by
  obtain ⟨f, hf⟩ := ht
  dsimp only
  unfold PageTables.setPte
  rw [hf]
  dsimp only
  refine ⟨?_, rfl, rfl, ⟨_, Function.update_self ..⟩, fun k hk => Function.update_of_ne hk ..⟩
  funext p
  rw [PageTables.entry, look_setPmd hu]
  by_cases hp : p = 512*j+i
  · have hj : p/512 = j := by omega
    have hm : p % 512 = i := by omega
    rw [if_pos hj, hm, hp, Function.update_self]
    exact Function.update_self ..
  · rw [Function.update_of_ne hp, PageTables.entry]
    split
    next hj =>
      have hm : p % 512 ≠ i := by omega
      rw [hj, look_of_upper hu, hf]
      exact Function.update_of_ne hm ..
    next => rfl

theorem pte_eq_entry (hu : t.upper (j/512) = true) (ht : ∃ f, t.pmd j = .table f) (hi : i < 512) :
    t.pte j i = t.entry (512*j+i) := by
  obtain ⟨f, hf⟩ := ht
  have hj : (512*j+i)/512 = j := by omega
  have hm : (512*j+i) % 512 = i := by omega
  rw [PageTables.pte, hf, PageTables.entry, hj, hm, look_of_upper hu, hf]
  rfl

structure Shifted (t t' : PageTables) (j i j' i' n : ℕ) : Prop where
  moves : Moves none t.shows t'.shows (512*j+i) (512*j'+i') n
  tables : HasTables t' j j'
  upper : t'.upper = t.upper
  bug : t'.bug = t.bug
  others : ∀ k, k ≠ j → k ≠ j' → t'.pmd k = t.pmd k

theorem movePte_spec (h : HasTables t j j') (hi : i < 512) (hi' : i' < 512)
    (hempty : t.shows (512*j'+i') = none) : Shifted t (movePte env t j i j' i') j i j' i' 1 := by
  unfold movePte
  rw [pte_eq_entry h.upper h.table hi]
  cases he : t.entry (512*j+i) with
  | none =>
    refine ⟨moves_empty (fun p h₁ h₂ => ?_) (fun p h₁ h₂ => ?_), h, rfl, rfl, fun _ _ _ => rfl⟩
    · obtain rfl : p = 512*j+i := by omega
      rw [PageTables.shows, he]
      rfl
    · obtain rfl : p = 512*j'+i' := by omega
      exact hempty
  | some e =>
    dsimp only
    obtain ⟨hent, hup, hbug, htab, hoth⟩ := setPte_spec (e := none) h.upper h.table hi
    set t₁ := t.setPte j i none
    have htab' : ∃ f, t₁.pmd j' = .table f := by
      by_cases hj : j' = j
      · rw [hj]
        exact htab
      · rw [hoth j' hj]
        exact h.table'
    obtain ⟨hent₂, hup₂, hbug₂, htab₂, hoth₂⟩ :=
      setPte_spec (t := t₁) (e := some (moveSoftDirtyPte env e))
      (by rw [hup]; exact h.upper') htab' hi'
    refine ⟨fun p => ?_,
      ⟨by rw [hup₂, hup]; exact h.upper, by rw [hup₂, hup]; exact h.upper', ?_, htab₂⟩,
      hup₂.trans hup, hbug₂.trans hbug, fun k hk hk' => (hoth₂ k hk').trans (hoth k hk)⟩
    · rw [PageTables.shows, hent₂, hent]
      by_cases hp : p = 512*j'+i'
      · rw [if_pos (by omega), hp, Function.update_self, Nat.sub_self, Nat.add_zero,
          PageTables.shows, he, Option.map_some, Option.map_some, clean_moveSoftDirtyPte]
      · rw [if_neg (by omega), Function.update_of_ne hp]
        by_cases hq : p = 512*j+i
        · rw [if_pos (by omega), hq, Function.update_self]
          rfl
        · rw [if_neg (by omega), Function.update_of_ne hq]
          rfl
    · by_cases hj : j = j'
      · rw [hj]
        exact htab₂
      · rw [hoth₂ j hj]
        exact htab

theorem Shifted.append {t'' : PageTables} {m : ℕ} (h : Shifted t t' j i j' i' n)
    (h' : Shifted t' t'' j (i+n) j' (i'+n) m) (ha : Apart (512*j+i) (512*j'+i') (n+m)) :
    Shifted t t'' j i j' i' (n+m) :=
  ⟨h.moves.append (by simpa only [Nat.add_assoc] using h'.moves) ha, h'.tables,
    h'.upper.trans h.upper, h'.bug.trans h.bug,
    fun k hk hk' => (h'.others k hk hk').trans (h.others k hk hk')⟩

/-- The loop of `move_ptes` within two tables. -/
theorem movePtes_spec (env : PtEnv) (h : HasTables t j j') (hi : i+n ≤ 512) (hi' : i'+n ≤ 512)
    (ha : Apart (512*j+i) (512*j'+i') n) (hempty : Empty none t.shows (512*j'+i') n) :
    Shifted t (movePtes env j j' n t i i') j i j' i' n := by
  induction n generalizing t i i' with
  | zero => exact ⟨BlockMove.moves_zero _ _ _ _, h, rfl, rfl, fun _ _ _ => rfl⟩
  | succ n ih =>
    have hfirst : Shifted t (movePte env t j i j' i') j i j' i' 1 := by
      exact movePte_spec h (by omega) (by omega) (hempty _ le_rfl (by omega))
    rw [movePtes, Nat.add_comm n 1]
    rw [Nat.add_comm n 1] at ha hempty
    have hbehind := hfirst.moves.empty_behind hempty ha
    rw [Nat.add_assoc] at hbehind
    have hrest : Apart (512*j+(i+1)) (512*j'+(i'+1)) n := by
      unfold Apart at ha ⊢
      omega
    exact hfirst.append (ih hfirst.tables (by omega) (by omega) hrest hbehind) ha

/-! Huge pages. -/

def KeepsReady (env : PtEnv) (t t' : PageTables) (start n : ℕ) : Prop :=
  ∀ q, ¬(start ≤ q ∧ q < start+n) → Ready env t q → Ready env t' q

theorem KeepsReady.of_look (hu : ∀ k, t.upper k = true → t'.upper k = true)
    (hl : ∀ k, t.look k ≠ .absent → t'.look k ≠ .absent) : KeepsReady env t t' i n :=
  fun _ _ h => ⟨h.1.imp (hu _) id, h.2.imp (hl _) id⟩

/-- A huge page goes to an empty directory entry. -/
theorem moves_huge {h h' : Pte} (hu : t.upper (j/512) = true) (hu' : t.upper (j'/512) = true)
    (hh : t.pmd j = .huge h) (hc : h'.clean = h.clean) :
    Moves none t.shows ((t.setPmd j .absent).setPmd j' (.huge h')).shows (512*j) (512*j') 512 := by
  intro p
  have hu₁ : (t.setPmd j .absent).upper (j'/512) = true := hu'
  rw [PageTables.shows, PageTables.entry, look_setPmd hu₁, look_setPmd hu]
  by_cases hp' : p/512 = j'
  · -- the entry at the new place is the one for the page with the same number
    have hsrc : (512*j+(p-512*j'))/512 = j := by omega
    have hmod : (512*j+(p-512*j')) % 512 = p % 512 := by omega
    have hin : 512*j' ≤ p ∧ p < 512*j'+512 := by omega
    rw [if_pos hp', if_pos hin, PageTables.shows, PageTables.entry, hsrc, hmod,
      look_of_upper hu, hh]
    simp only [Pmd.entry, Option.map_some, clean_sub, hc]
  · have hout : ¬(512*j' ≤ p ∧ p < 512*j'+512) := by omega
    have hsrc : (512*j ≤ p ∧ p < 512*j+512) ↔ p/512 = j := by omega
    rw [if_neg hp', if_neg hout]
    by_cases hp : p/512 = j
    · rw [if_pos hp, if_pos (hsrc.2 hp)]
      rfl
    · rw [if_neg hp, if_neg fun h => hp (hsrc.1 h)]
      rfl

/-- What becomes of the directory entry `j` before `move_ptes`: the huge page has gone as a whole,
or there is a table that shows the same. -/
theorem clearHuge_spec (x : ℕ) (hs : HugeKeeps env) (hu : t.upper (old/PMD_SIZE/512) = true)
    (hu' : t.upper (new/PMD_SIZE/512) = true) (ht : t.pmd (old/PMD_SIZE) ≠ .absent) :
    let r := clearHuge env t old new x
    r.2.upper = t.upper ∧ r.2.bug = t.bug ∧
      ((r.1 = true ∧ x = PMD_SIZE ∧ old % PMD_SIZE = 0 ∧ new % PMD_SIZE = 0 ∧
          Moves none t.shows r.2.shows (old/4096) (new/4096) 512 ∧
            KeepsReady env t r.2 (old/4096) 512) ∨
        r.1 = false ∧ r.2.entry = t.entry ∧ (∃ f, r.2.pmd (old/PMD_SIZE) = .table f) ∧
          ∀ k, k ≠ old/PMD_SIZE → r.2.pmd k = t.pmd k) := by
  dsimp only
  unfold clearHuge
  dsimp only
  set j := old/PMD_SIZE with hj
  set j' := new/PMD_SIZE with hj'
  cases hd : t.pmd j with
  | absent => exact absurd hd ht
  | table f => exact ⟨rfl, rfl, .inr ⟨rfl, rfl, ⟨f, hd⟩, fun _ _ => rfl⟩⟩
  | huge h =>
    dsimp only
    set move := if x = PMD_SIZE then env.moveHugePmd t old new h else (false, t) with hmove
    have hcases :
        (∃ h', h'.clean = h.clean ∧ x = PMD_SIZE ∧ old % PMD_SIZE = 0 ∧ new % PMD_SIZE = 0 ∧
          move = (true, (t.setPmd j .absent).setPmd j' (.huge h'))) ∨ move = (false, t) := by
      rw [hmove]
      split
      next he =>
        rcases hs.move t old new h with hno | ⟨ho, hn, h', hc, hmoved⟩
        · exact .inr hno
        · exact .inl ⟨h', hc, he, ho, hn, hmoved⟩
      next => exact .inr rfl
    rcases hcases with ⟨h', hc, he, ho, hn, h₁⟩ | h₁
    · rw [h₁, if_pos rfl]
      have hold : old/4096 = 512*j := by
        unfold PMD_SIZE at *
        omega
      have hnew : new/4096 = 512*j' := by
        unfold PMD_SIZE at *
        omega
      refine ⟨rfl, rfl, .inl ⟨rfl, he, ho, hn, ?_, ?_⟩⟩
      · rw [hold, hnew]
        exact moves_huge hu hu' hd hc
      · rw [hold]
        intro p hp hr
        refine ⟨hr.1, hr.2.imp (fun hl => ?_) id⟩
        have hu₁ : (t.setPmd j .absent).upper (j'/512) = true := hu'
        rw [look_setPmd hu₁, look_setPmd hu, if_neg (show ¬p/512 = j by omega)]
        split
        next => exact Pmd.noConfusion
        next => exact hl
    · have hset : (t.setPmd j (env.split h)).pmd j = .table fun i => some (h.sub i) := by
        rw [← hs.split h]
        exact Function.update_self ..
      rw [h₁, if_neg Bool.false_ne_true]
      refine ⟨rfl, rfl, .inr
        ⟨congrArg pmdTransUnstable hset, ?_, ⟨_, hset⟩, fun k hk => Function.update_of_ne hk ..⟩⟩
      refine entry_setPmd hu fun i _ => ?_
      rw [hs.split h, hd]
      rfl

/-! One round of the loop. -/

theorem toNextPmd_eq {addr : ℕ} (h : addr < 2^64) : toNextPmd addr = PMD_SIZE-addr % PMD_SIZE := by
  unfold toNextPmd wsub wadd PMD_SIZE
  omega

/-- What the move needs: whole pages, and an empty place apart from the old one. -/
structure MoveRange (t : PageTables) (old new len : ℕ) : Prop where
  old_dvd : 4096 ∣ old
  new_dvd : 4096 ∣ new
  len_dvd : 4096 ∣ len
  old_lt : old+len < 2^64
  new_lt : new+len < 2^64
  apart : Apart (old/4096) (new/4096) (len/4096)
  empty : Empty none t.shows (new/4096) (len/4096)
  bug : t.bug = false

structure Moved (env : PtEnv) (t t' : PageTables) (calls : List PteCall) (old new e : ℕ) :
    Prop where
  dvd : 4096 ∣ e
  moves : Moves none t.shows t'.shows (old/4096) (new/4096) (e/4096)
  ready : KeepsReady env t t' (old/4096) (e/4096)
  bug : t'.bug = false
  calls : ∀ c ∈ calls, c.InPmd

theorem shows_of_entry (h : t'.entry = t.entry) : t'.shows = t.shows := by
  funext p
  rw [PageTables.shows, h, PageTables.shows]

theorem moved_none (hshows : t'.shows = t.shows) (hu : ∀ k, t.upper k = true → t'.upper k = true)
    (hl : ∀ k, t.look k ≠ .absent → t'.look k ≠ .absent) (hbug : t'.bug = false) :
    Moved env t t' [] old new 0 := by
  refine ⟨Nat.dvd_zero _, ?_, KeepsReady.of_look hu hl, hbug,
    fun c hc => absurd hc List.not_mem_nil⟩
  rw [hshows]
  exact BlockMove.moves_zero none t.shows _ _

theorem MoveRange.not_huge (hm : MoveRange t old new len) (hpos : 0 < len) (h : Pte) :
    t.look (new/PMD_SIZE) ≠ .huge h := by
  intro hh
  have hdvd := hm.len_dvd
  have hnone := hm.empty (new/4096) le_rfl (by omega)
  have hj : new/4096/512 = new/PMD_SIZE := by
    unfold PMD_SIZE
    omega
  rw [PageTables.shows, PageTables.entry, hj, hh] at hnone
  exact absurd hnone (Option.some_ne_none _)

/-- The end of the round: both tables are there, and `move_ptes` runs. -/
theorem movePtes_moved {calls : List PteCall} {e : ℕ} (hm : MoveRange t old new len)
    (hshows : t'.shows = t.shows) (hbug : t'.bug = false)
    (htab : HasTables t' (old/PMD_SIZE) (new/PMD_SIZE)) (hdvd : 4096 ∣ e) (he : e ≤ len)
    (ho : old % PMD_SIZE+e ≤ PMD_SIZE) (hn : new % PMD_SIZE+e ≤ PMD_SIZE)
    (hu : ∀ k, t.upper k = true → t'.upper k = true)
    (hl : ∀ k, k ≠ old/PMD_SIZE → k ≠ new/PMD_SIZE → t.look k ≠ .absent → t'.look k ≠ .absent)
    (hc : ∀ c ∈ calls, c.InPmd) :
    Moved env t (movePtes env (old/PMD_SIZE) (new/PMD_SIZE) (e/4096) t' (old/4096 % 512)
      (new/4096 % 512)) calls old new e := by
  have hold := hm.old_dvd
  have hnew := hm.new_dvd
  have hpage : 512*(old/PMD_SIZE)+old/4096 % 512 = old/4096 := by
    unfold PMD_SIZE
    omega
  have hpage' : 512*(new/PMD_SIZE)+new/4096 % 512 = new/4096 := by
    unfold PMD_SIZE
    omega
  have hle : e/4096 ≤ len/4096 := Nat.div_le_div_right he
  have hfits : old/4096 % 512+e/4096 ≤ 512 := by
    unfold PMD_SIZE at ho
    omega
  have hfits' : new/4096 % 512+e/4096 ≤ 512 := by
    unfold PMD_SIZE at hn
    omega
  have hsh := movePtes_spec env htab hfits hfits' (by rw [hpage, hpage']; exact hm.apart.le hle)
    (by rw [hpage', hshows]; exact hm.empty.le hle)
  refine ⟨hdvd, ?_, KeepsReady.of_look (fun k hk => ?_) (fun k hk => ?_), hsh.bug.trans hbug, hc⟩
  · have hmoves := hsh.moves
    rwa [hpage, hpage', hshows] at hmoves
  · rw [hsh.upper]
    exact hu k hk
  · -- the two tables stay, and so does every other entry
    by_cases ho : k = old/PMD_SIZE
    · obtain ⟨f, hf⟩ := hsh.tables.table
      rw [ho, look_of_upper hsh.tables.upper, hf]
      exact Pmd.noConfusion
    by_cases hn : k = new/PMD_SIZE
    · obtain ⟨f, hf⟩ := hsh.tables.table'
      rw [hn, look_of_upper hsh.tables.upper', hf]
      exact Pmd.noConfusion
    have hk' := hl k ho hn hk
    rw [PageTables.look, hsh.upper, hsh.others k ho hn]
    exact hk'

structure Extent (old len x : ℕ) : Prop where
  pos : 0 < x
  le : x ≤ len
  dvd : 4096 ∣ x
  fits : old % PMD_SIZE+x ≤ PMD_SIZE

theorem MoveRange.extent (hm : MoveRange t old new len) (hpos : 0 < len) :
    Extent old len (min (toNextPmd old) len) := by
  have hold := hm.old_dvd
  have hlen := hm.len_dvd
  have hlt := hm.old_lt
  rw [toNextPmd_eq (by omega)]
  constructor <;> (unfold PMD_SIZE; omega)

theorem page_div (a : ℕ) : a/4096/512 = a/PMD_SIZE := Nat.div_div_eq_div_mul a 4096 512

/-- Where the old directory entry is absent, there is nothing to move up to the next one. -/
theorem moved_absent (hm : MoveRange t old new len) (hx : Extent old len x)
    (habs : t.look (old/PMD_SIZE) = .absent) : Moved env t t [] old new x := by
  have hold := hm.old_dvd
  refine ⟨hx.dvd, moves_empty (fun p h₁ h₂ => ?_) ?_, fun _ _ h => h, hm.bug,
    fun c hc => absurd hc List.not_mem_nil⟩
  · have hp : p/512 = old/PMD_SIZE := by
      have hdvd := hx.dvd
      have hfits := hx.fits
      unfold PMD_SIZE at *
      omega
    rw [PageTables.shows, PageTables.entry, hp, habs]
    rfl
  · exact hm.empty.le (Nat.div_le_div_right hx.le)

theorem moveExtent_spec (hs : HugeKeeps env) (hm : MoveRange t old new len) (hx : Extent old len x)
    (hpres : t.look (old/PMD_SIZE) ≠ .absent) :
    let r := moveExtent env t old new x
    (r.1 = none ∧ Moved env t r.2.1 r.2.2 old new 0 ∧ ¬Ready env r.2.1 (new/4096)) ∨
      ∃ e, r.1 = some e ∧ 0 < e ∧ e ≤ len ∧ Moved env t r.2.1 r.2.2 old new e := by
  have hpos : 0 < len := hx.pos.trans_le hx.le
  have hupper := upper_of_look hpres
  dsimp only
  unfold moveExtent
  dsimp only
  -- the directory at the new address
  rcases allocNewPmd_spec env t new with ⟨h₁, h₂, hu, ha⟩ | ⟨h₁, hlook, hu', hmono, hbug⟩
  · rw [if_pos h₁, h₂]
    refine .inl ⟨rfl, moved_none rfl (fun _ hk => hk) (fun _ hk => hk) hm.bug, fun hr => ?_⟩
    have hr := hr.1
    rw [page_div, hu, ha] at hr
    exact hr.elim Bool.false_ne_true Bool.false_ne_true
  rw [if_neg (by rw [h₁]; decide)]
  generalize (allocNewPmd env t new).2 = t₁ at hlook hu' hmono hbug ⊢
  have hbug₁ := (hbug (hm.not_huge hpos)).trans hm.bug
  have hshows₁ := shows_of_entry (entry_of_look hlook)
  have hpmd : t₁.pmd (old/PMD_SIZE) ≠ .absent := by
    rw [← look_of_upper (hmono _ hupper), hlook]
    exact hpres
  -- the huge page
  have hhuge := clearHuge_spec x hs (hmono _ hupper) hu' hpmd
  generalize clearHuge env t₁ old new x = r₂ at hhuge ⊢
  obtain ⟨hup₂, hbug₂, ⟨hgo, hxp, -, -, hmoves, hready⟩ | ⟨hgo, hent₂, htab₂, hoth₂⟩⟩ := hhuge
  · rw [if_pos hgo]
    have hx512 : x/4096 = 512 := by
      rw [hxp]
      rfl
    refine .inr ⟨x, rfl, hx.pos, hx.le, hx.dvd, ?_, ?_, hbug₂.trans hbug₁,
      fun c hc => absurd hc List.not_mem_nil⟩
    · rw [hx512, ← hshows₁]
      exact hmoves
    · rw [hx512]
      intro q hq hr
      exact hready q hq ⟨hr.1.imp (hmono _) id, by rw [hlook]; exact hr.2⟩
  rw [if_neg (by rw [hgo]; decide)]
  -- the table at the new address
  have hupper₂ : ∀ k, t.upper k = true → r₂.2.upper k = true := by
    intro k hk
    rw [hup₂]
    exact hmono k hk
  have hnothuge : ∀ h, r₂.2.pmd (new/PMD_SIZE) ≠ .huge h := by
    intro h hh
    by_cases hj : new/PMD_SIZE = old/PMD_SIZE
    · obtain ⟨f, hf⟩ := htab₂
      rw [hj, hf] at hh
      exact Pmd.noConfusion hh
    · rw [hoth₂ _ hj, ← look_of_upper hu', hlook] at hh
      exact hm.not_huge hpos h hh
  rcases pteAlloc_spec env new (by rw [hup₂]; exact hu') hnothuge with
    ⟨h₃, h₄, hd, ha⟩ | ⟨h₃, hent₃, htab₃, hup₃, hoth₃, hbug₃⟩
  · rw [if_pos h₃, h₄]
    refine .inl ⟨rfl, moved_none ((shows_of_entry hent₂).trans hshows₁) hupper₂ (fun k hk => ?_)
      (hbug₂.trans hbug₁), fun hr => ?_⟩
    · by_cases hj : k = old/PMD_SIZE
      · obtain ⟨f, hf⟩ := htab₂
        rw [hj, look_of_upper (hupper₂ _ hupper), hf]
        exact Pmd.noConfusion
      · rw [PageTables.look, hup₂, hoth₂ k hj, ← PageTables.look, hlook]
        exact hk
    · have hr := hr.2
      rw [page_div, look_of_upper (by rw [hup₂]; exact hu'), ha] at hr
      exact hr.elim (fun hl => hl hd) Bool.false_ne_true
  rw [if_neg (by rw [h₃]; decide)]
  generalize (pteAlloc env r₂.2 new).2 = t₃ at hent₃ htab₃ hup₃ hoth₃ hbug₃ ⊢
  have hlt := hm.new_lt
  rw [toNextPmd_eq (by omega)]
  obtain ⟨e, he⟩ : ∃ e, e = min (min x (PMD_SIZE-new % PMD_SIZE)) LATENCY_LIMIT := ⟨_, rfl⟩
  have he₀ : 0 < e ∧ e ≤ len ∧ 4096 ∣ e ∧ old % PMD_SIZE+e ≤ PMD_SIZE ∧
      new % PMD_SIZE+e ≤ PMD_SIZE := by
    obtain ⟨hx₁, hx₂, hx₃, hx₄⟩ := hx
    have hdvd := hm.new_dvd
    unfold PMD_SIZE LATENCY_LIMIT at *
    omega
  rw [← he]
  have hupper₃ : ∀ k, t.upper k = true → t₃.upper k = true := by
    intro k hk
    rw [hup₃]
    exact hupper₂ k hk
  have hsame : ∀ k, k ≠ old/PMD_SIZE → k ≠ new/PMD_SIZE → t₃.look k = t.look k := by
    intro k ho hn
    rw [PageTables.look, hup₃, hup₂, hoth₃ k hn, hoth₂ k ho, ← hlook, PageTables.look]
  have htables : HasTables t₃ (old/PMD_SIZE) (new/PMD_SIZE) := by
    refine ⟨hupper₃ _ hupper, by rw [hup₃, hup₂]; exact hu', ?_, htab₃⟩
    by_cases hj : old/PMD_SIZE = new/PMD_SIZE
    · rw [hj]
      exact htab₃
    · rw [hoth₃ _ hj]
      exact htab₂
  have hshows₃ := ((shows_of_entry hent₃).trans (shows_of_entry hent₂)).trans hshows₁
  refine .inr ⟨e, rfl, he₀.1, he₀.2.1, ?_⟩
  refine movePtes_moved hm hshows₃ (hbug₃.trans (hbug₂.trans hbug₁)) htables he₀.2.2.1
    he₀.2.1 he₀.2.2.2.1 he₀.2.2.2.2 hupper₃ (fun k ho hn hk => ?_) fun c hc => ?_
  · rw [hsame k ho hn]
    exact hk
  · obtain rfl := List.mem_singleton.1 hc
    exact he₀.2.2.2

theorem moveRound_spec (hs : HugeKeeps env) (hm : MoveRange t old new len) (hpos : 0 < len) :
    let r := moveRound env t old new (min (toNextPmd old) len)
    (r.1 = none ∧ Moved env t r.2.1 r.2.2 old new 0 ∧ ¬Ready env r.2.1 (new/4096)) ∨
      ∃ e, r.1 = some e ∧ 0 < e ∧ e ≤ len ∧ Moved env t r.2.1 r.2.2 old new e := by
  have hx := hm.extent hpos
  unfold moveRound getOldPmd
  cases hd : t.look (old/PMD_SIZE) with
  | absent => exact .inr ⟨_, rfl, hx.pos, hx.le, moved_absent hm hx hd⟩
  | table f => exact moveExtent_spec hs hm hx (by rw [hd]; exact Pmd.noConfusion)
  | huge h => exact moveExtent_spec hs hm hx (by rw [hd]; exact Pmd.noConfusion)

/-! The loop. -/

theorem Moved.append {t'' : PageTables} {calls calls' : List PteCall} {e e' : ℕ}
    (hm : MoveRange t old new len) (h : Moved env t t' calls old new e)
    (h' : Moved env t' t'' calls' (old+e) (new+e) e') (hle : e+e' ≤ len) :
    Moved env t t'' (calls ++ calls') old new (e+e') := by
  have hold := hm.old_dvd
  have hnew := hm.new_dvd
  have hd := h.dvd
  have hd' := h'.dvd
  have hadd : (e+e')/4096 = e/4096+e'/4096 := by omega
  have hmoves := h'.moves
  have hready := h'.ready
  rw [show (old+e)/4096 = old/4096+e/4096 by omega] at hmoves hready
  rw [show (new+e)/4096 = new/4096+e/4096 by omega] at hmoves
  refine ⟨dvd_add hd hd', ?_, fun q hq hr => ?_, h'.bug, fun c hc => ?_⟩
  · rw [hadd]
    exact h.moves.append hmoves (hm.apart.le (by omega))
  · rw [hadd] at hq
    exact hready q (by omega) (h.ready q (by omega) hr)
  · rcases List.mem_append.1 hc with hc | hc
    · exact h.calls c hc
    · exact h'.calls c hc

/-- What is left after a round. -/
theorem MoveRange.rest {calls : List PteCall} {e : ℕ} (hm : MoveRange t old new len)
    (h : Moved env t t' calls old new e) (hle : e ≤ len) :
    MoveRange t' (old+e) (new+e) (len-e) := by
  obtain ⟨hold, hnew, hlen, hlt, hlt', ha, hempty, -⟩ := hm
  have hd := h.dvd
  have hsplit : len/4096 = e/4096+(len-e)/4096 := by omega
  have hold' : (old+e)/4096 = old/4096+e/4096 := by omega
  have hnew' : (new+e)/4096 = new/4096+e/4096 := by omega
  rw [hsplit] at ha hempty
  refine ⟨dvd_add hold hd, dvd_add hnew hd, Nat.dvd_sub hlen hd, by omega, by omega, ?_, ?_, h.bug⟩
  · rw [hold', hnew']
    unfold Apart at ha ⊢
    omega
  · rw [hnew']
    exact h.moves.empty_behind hempty ha

theorem movePageTablesLoop_break {calls : List PteCall} (hpos : 0 < len)
    (hr : moveRound env t old new (min (toNextPmd old) len) = (none, t', calls)) (fuel : ℕ) :
    movePageTablesLoop env (old+len) (fuel+1) t old new = some (old, t', calls) := by
  rewrite [movePageTablesLoop, if_pos (by omega), Nat.add_sub_cancel_left, hr]
  rfl

theorem movePageTablesLoop_next {calls : List PteCall} {e : ℕ} (hpos : 0 < len)
    (hr : moveRound env t old new (min (toNextPmd old) len) = (some e, t', calls)) (fuel : ℕ) :
    movePageTablesLoop env (old+len) (fuel+1) t old new =
      (movePageTablesLoop env (old+len) fuel t' (old+e) (new+e)).map fun r =>
        (r.1, r.2.1, calls ++ r.2.2) := by
  rewrite [movePageTablesLoop, if_pos (by omega), Nat.add_sub_cancel_left, hr]
  rfl

theorem movePageTablesLoop_spec (hs : HugeKeeps env) (hm : MoveRange t old new len)
    (hn : len/4096 ≤ n) :
    ∃ m t' calls,
      (∀ fuel, n < fuel → movePageTablesLoop env (old+len) fuel t old new = some (old+m, t', calls))
        ∧
      m ≤ len ∧ Moved env t t' calls old new m ∧ (m = len ∨ ¬Ready env t' ((new+m)/4096)) := by
  induction n generalizing t old new len with
  | zero =>
    have hlen := hm.len_dvd
    obtain rfl : len = 0 := by omega
    refine ⟨0, t, [],
      fun fuel hf => ?_, le_rfl, moved_none rfl (fun _ hk => hk) (fun _ hk => hk) hm.bug, .inl rfl⟩
    obtain ⟨fuel, rfl⟩ := Nat.exists_eq_succ_of_ne_zero hf.ne'
    rw [movePageTablesLoop, if_neg (by omega)]
    rfl
  | succ n ih =>
    rcases Nat.eq_zero_or_pos len with rfl | hpos
    · obtain ⟨m, t', calls, hrun, hrest⟩ := ih hm (Nat.zero_le n)
      exact ⟨m, t', calls, fun fuel hf => hrun fuel (by omega), hrest⟩
    have hround := moveRound_spec hs hm hpos
    generalize hr : moveRound env t old new (min (toNextPmd old) len) = r at hround
    obtain ⟨r₁, t₁, calls₁⟩ := r
    rcases hround with ⟨rfl, hmoved, hready⟩ | ⟨e, rfl, he, hle, hmoved⟩
    · -- the loop breaks
      refine ⟨0, t₁, calls₁, fun fuel hf => ?_, Nat.zero_le _, hmoved, .inr hready⟩
      obtain ⟨fuel, rfl⟩ := Nat.exists_eq_succ_of_ne_zero (by omega : fuel ≠ 0)
      exact movePageTablesLoop_break hpos hr fuel
    · have hdvd := hmoved.dvd
      have hlen := hm.len_dvd
      obtain ⟨m, t', calls, hrun, hm', hmoved', hend⟩ := ih (hm.rest hmoved hle) (by omega)
      refine ⟨e+m, t', calls₁ ++ calls,
        fun fuel hf => ?_, by omega, hmoved.append hm hmoved' (by omega), ?_⟩
      · obtain ⟨fuel, rfl⟩ := Nat.exists_eq_succ_of_ne_zero (by omega : fuel ≠ 0)
        have hrun := hrun fuel (by omega)
        rw [show old+e+(len-e) = old+len by omega] at hrun
        rw [movePageTablesLoop_next hpos hr, hrun, Nat.add_assoc]
        rfl
      · rw [← Nat.add_assoc new e m]
        exact hend.imp (fun h => by omega) id

/-- `move_page_tables` ends, having moved the first `m` bytes; it ends early only where a table
cannot be had. -/
theorem movePageTables_moved (hs : HugeKeeps env) (hm : MoveRange t old new len) :
    ∃ m t' calls,
      (∀ fuel, len/4096 < fuel → movePageTables env fuel t old new len = some (m, t', calls)) ∧
      m ≤ len ∧ Moved env t t' calls old new m ∧ (m = len ∨ ¬Ready env t' ((new+m)/4096)) := by
  obtain ⟨m, t', calls, hrun, hle, hmoved, hend⟩ := movePageTablesLoop_spec hs hm le_rfl
  refine ⟨m, t', calls, fun fuel hf => ?_, hle, hmoved, hend⟩
  rw [movePageTables, hrun fuel hf, Option.map_some, show len+(old+m)-(old+len) = m by omega]

/-- The way back. -/
theorem MoveRange.reverse {calls : List PteCall} {m : ℕ} (hm : MoveRange t old new len)
    (h : Moved env t t' calls old new m) (hle : m ≤ len) : MoveRange t' new old m := by
  have ha := hm.apart.le (Nat.div_le_div_right hle : m/4096 ≤ len/4096)
  have hlt := hm.old_lt
  have hlt' := hm.new_lt
  exact ⟨hm.new_dvd, hm.old_dvd, h.dvd, by omega, by omega, ha.symm, h.moves.empty_src ha, h.bug⟩

/-- Moving page tables is exact and can be undone: `move_page_tables` ends with the entries of the
first `m` bytes moved and all others in place, by calls that do not leave a table on either side,
and `m` falls short of `len` only where a table cannot be had. Where `move_vma` moves them back and
the tables of the old range are there, or can be had, all entries are those of the start. -/
theorem moveVmaTables_exact (hs : HugeKeeps env) (hb : HugeKeeps back)
    (hm : MoveRange t old new len) (mremapErr : Fin 4096) :
    ∃ m t' calls m' t'' calls',
      (∀ fuel, len/4096 < fuel → movePageTables env fuel t old new len = some (m, t', calls) ∧
        movePageTables back fuel t' new old m = some (m', t'', calls') ∧
        moveVmaTables env back fuel t old new len mremapErr = some (if m < len then (-ENOMEM, t'')
          else if mremapErr.val = 0 then (0, t') else (-(mremapErr.val : ℤ), t''))) ∧
      (m ≤ len ∧ 4096 ∣ m ∧ Moves none t.shows t'.shows (old/4096) (new/4096) (m/4096) ∧
        t'.bug = false ∧ (∀ c ∈ calls, c.InPmd) ∧ (m < len → ¬Ready env t' ((new+m)/4096))) ∧
      (m' ≤ m ∧ t''.bug = false ∧ (∀ c ∈ calls', c.InPmd) ∧
        (m' < m → ¬Ready back t'' ((old+m')/4096)) ∧
        ((∀ p, old/4096 ≤ p → p < old/4096+m/4096 → Ready back t' p) → m' = m) ∧
        (m' = m → t''.shows = t.shows)) := by
  obtain ⟨m, t', calls, hrun, hle, hmoved, hend⟩ := movePageTables_moved hs hm
  have hback := hm.reverse hmoved hle
  obtain ⟨m', t'', calls', hrun', hle', hmoved', hend'⟩ := movePageTables_moved hb hback
  have hpages : m/4096 ≤ len/4096 := Nat.div_le_div_right hle
  refine ⟨m, t', calls, m', t'', calls',
    fun fuel hf => ?_, ⟨hle, hmoved.dvd, hmoved.moves, hmoved.bug, hmoved.calls,
    fun h => hend.resolve_left h.ne⟩, hle', hmoved'.bug, hmoved'.calls,
    fun h => hend'.resolve_left h.ne, fun hp => ?_,
    fun h => ?_⟩
  · have h₁ := hrun fuel hf
    have h₂ := hrun' fuel (hpages.trans_lt hf)
    refine ⟨h₁, h₂, ?_⟩
    unfold moveVmaTables
    rw [h₁]
    dsimp only
    -- a short move is -ENOMEM, and after an error the tables are moved back
    by_cases hshort : m < len
    · rw [if_pos hshort, if_pos hshort, if_pos (by decide), h₂]
      rfl
    · rw [if_neg hshort, if_neg hshort]
      by_cases herr : mremapErr.val = 0
      · rw [if_pos herr, if_neg (by omega)]
      · rw [if_neg herr, if_pos (by omega), h₂]
        rfl
  · -- a table that is ready stays so, since the way back takes nothing from the old range
    by_contra hne
    have hnot := hend'.resolve_left hne
    have hlt : m'/4096 < m/4096 :=
      Nat.div_lt_div_of_lt_of_dvd hmoved.dvd (lt_of_le_of_ne hle' hne)
    have ha := hback.apart
    unfold Apart at ha
    rw [Nat.add_div_of_dvd_right hm.old_dvd] at hnot
    exact hnot
      (hmoved'.ready (old/4096+m'/4096) (by omega) (hp (old/4096+m'/4096) (by omega) (by omega)))
  · subst h
    exact hmoved.moves.back hmoved'.moves (hm.empty.le hpages)

/-- The default does what is asked of it. -/
theorem takeHuge_keeps : MoveHugeKeeps {} := by
  intro t old new h
  change t.takeHuge old new h = _ ∨ _ ∧ _ ∧ ∃ h', _ ∧ t.takeHuge old new h = _
  unfold PageTables.takeHuge
  split
  next =>
    split
    next hc => exact .inr ⟨hc.1, hc.2, h, rfl, rfl⟩
    next => exact .inl rfl
  next => exact .inl rfl

def twoPages : PageTables where
  pmd j := if j = 1 then .table fun i => if i = 0 then some ⟨7, false⟩ else none else .absent
  upper k := k == 0

theorem moveRange_twoPages : MoveRange twoPages PMD_SIZE (2*PMD_SIZE+4096) 8192 := by
  refine ⟨by decide, by decide, by decide, by decide, by decide, .inl (by decide),
    fun p h₁ h₂ => ?_, rfl⟩
  have hp : p/512 = 2 := by
    unfold PMD_SIZE at h₁ h₂
    omega
  rw [PageTables.shows, PageTables.entry, hp]
  rfl

theorem moveVmaTables_exact_twoPages :
    ∃ t', (∀ fuel, 2 < fuel → moveVmaTables {} {} fuel twoPages PMD_SIZE (2*PMD_SIZE+4096) 8192 0 =
      some (0, t')) ∧ t'.shows 512 = none ∧ t'.shows 1025 = some ⟨7, false⟩ := by
  have hs : HugeKeeps {} := ⟨fun _ => rfl, takeHuge_keeps⟩
  obtain ⟨m, t', _, _, _, _, hrun, ⟨hle, -, hmoves, -, -, hready⟩, -⟩ :=
    moveVmaTables_exact hs hs moveRange_twoPages 0
  obtain rfl : m = 8192 := by
    by_contra hne
    exact hready (by omega) ⟨.inr rfl, .inr rfl⟩
  exact ⟨t', fun fuel hf => (hrun fuel hf).2.2, hmoves 512, hmoves 1025⟩

end PtraceRemote
