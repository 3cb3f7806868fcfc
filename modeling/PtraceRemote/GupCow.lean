import PtraceRemote.GupPins
import PtraceRemote.Runs

/-! Pages that are asked for to be written to, while other tasks change the page table between any
two looks at it. With `FOLL_FORCE` a page of a private area is given out although its entry is not
writable, which must not happen before the page has been copied. -/
namespace PtraceRemote.Pin

def Outcome.state : Outcome → Gup
  | .go s => s
  | .ret _ s => s

inductive Walk.Has (e : Entry) : Walk → Prop
  | table : Walk.Has e (.table (.present e))
  | huge {p : PageId} {split : HugeSplit} : Walk.Has e (.huge e p split)
  | split {e' : Entry} {p : PageId} : Walk.Has e (.huge e' p (.done (.present e)))

theorem World.Shows.has {w : World} {addr : ℕ} {e : Entry} {p : PageId} (h : w.Shows addr e p) :
    (w.walk addr).Has e := by
  cases h with
  | table hw _ => exact hw ▸ .table
  | huge hw => exact hw ▸ .huge
  | split hw _ => exact hw ▸ .split

def Walk.Stale (t : Walk) : Prop := ∃ e, t.Has e ∧ e.dirty = true ∧ e.own = false

def VmFault.Broke (f : VmFault) : Prop := ∃ major retry, f = .done major retry true

/-! One look. -/

section Look

variable {c : Call} {s s' : Gup} {w : World} {p : PageId}

theorem nextPage_state (s : Gup) (o : Option PageId) (mask : ℕ) :
    (nextPage c s o mask).state = s.next c o mask := by
  unfold nextPage
  dsimp only
  split <;> rfl

theorem nextPage_go {o : Option PageId} {mask : ℕ} (h : nextPage c s o mask = .go s') :
    s' = s.next c o mask := by
  rw [← nextPage_state, h]
  rfl

structure Gup.Same (s s' : Gup) : Prop where
  pages : s'.pages = s.pages
  start : s'.start = s.start
  vma : s'.vma = s.vma

inductive Looked (c : Call) (s : Gup) (w : World) : Outcome → Prop
  | next {s' : Gup} {o : Option PageId} {mask : ℕ} (hs : s.Same s')
    (hpage : ∀ p, o = some p → ∃ e,
      w.Shows s.start e p ∧ (s.foll.write = true → canFollowWritePte s.foll e = true)) :
    Looked c s w (nextPage c s' o mask)
  | ret {r : ℤ} {s' : Gup} (hs : s.Same s') : Looked c s w (.ret r s')
  | again {s' : Gup} (hs : s.Same s') (hpc : s'.pc ≠ .top)
      (hfoll : s'.foll = { s.foll with cow := s'.foll.cow })
    (hcow : s'.foll.cow = true →
      s.foll.cow = true ∨ w.handled.Broke ∧ s.area.vmFlags.has VM_WRITE = false) :
    Looked c s w (.go s')

theorem faultinPage_cow {foll : Foll} {vmFlags : VmFlags} {nonblocking guard : Bool}
    {handled : VmFault} (h : (faultinPage foll vmFlags nonblocking guard handled).foll.cow = true) :
    foll.cow = true ∨ handled.Broke ∧ vmFlags.has VM_WRITE = false := by
  unfold faultinPage at h
  split at h
  · exact .inl h
  · split at h
    · exact .inl h
    · split at h
      · exact .inl h
      · exact .inl h
      · exact .inl h
      · next major retry write =>
        split at h
        · exact .inl h
        · dsimp only at h
          split at h
          · next hw =>
            simp only [Bool.and_eq_true, Bool.not_eq_true'] at hw
            obtain ⟨rfl, hflags⟩ := hw
            exact .inr ⟨⟨major, retry, rfl⟩, hflags⟩
          · exact .inl h

theorem lookAt_looked (c : Call) (s : Gup) (w : World) (hh : TransHugeOk w.transHuge) :
    Looked c s w (lookAt c s w) := by
  have hrefs := followPageMask_refs s.foll s.area.hasFault w hh s.start s.refs
  unfold lookAt
  dsimp only
  split
  · exact .again ⟨rfl, rfl, rfl⟩ (by simp) rfl fun h => .inl h
  · next mask hnull =>
    rw [hrefs, hnull]
    set f := faultinPage s.foll s.area.vmFlags c.nonblocking (w.guard s.start) w.handled with hf
    have hok : f.Ok s.foll c.nonblocking := faultinPage_ok _ _ _ _ _
    obtain ⟨a, b, hcount⟩ := Gup.count_eq s f.counted
    have hsame : s.refs.getAll ((Followed.null mask).pinned s.foll.get) = s.refs := rfl
    rw [hsame, hcount]
    split
    · exact .again ⟨rfl, rfl, rfl⟩ (by simp) hok.foll faultinPage_cow
    · split
      · exact .ret ⟨rfl, rfl, rfl⟩
      · split
        · exact .next ⟨rfl, rfl, rfl⟩ nofun
        · exact .ret ⟨rfl, rfl, rfl⟩
  · split
    · exact .next ⟨rfl, rfl, rfl⟩ nofun
    · exact .ret ⟨rfl, rfl, rfl⟩
  · next q mask hq =>
    refine .next ⟨rfl, rfl, rfl⟩ fun p hp => ?_
    split at hp
    · cases hp
      exact followPageMask_page hh hq
    · cases hp

end Look

/-! The loop among other tasks. -/

/-- The loop and the page table. -/
structure CowSys where
  gup : Gup
  walk : ℕ → Walk
  done : Bool := false

/-- Other tasks change the page table, or the loop makes a round, with the page table behind its
fault. -/
inductive CowEvent where
  | others (walk : ℕ → Walk)
  | round (w : World) (walk : ℕ → Walk)

def CowSys.after (walk : ℕ → Walk) : Outcome → CowSys
  | .go g => { gup := g, walk := walk }
  | .ret _ g => { gup := g, walk := walk, done := true }

theorem CowSys.after_gup (walk : ℕ → Walk) (out : Outcome) :
    (CowSys.after walk out).gup = out.state := by
  cases out <;> rfl

def CowSys.step (c : Call) (s : CowSys) : CowEvent → CowSys
  | .others walk => { s with walk := walk }
  | .round w walk => if s.done then s else .after walk (Pin.round c s.gup { w with walk := s.walk })

section System

variable (flagsAt : ℕ → VmFlags)

/-- In a private area only a page of one's own is writable. -/
def TableOk (t : ℕ → Walk) : Prop :=
  ∀ x, (flagsAt x).has VM_SHARED = false → ∀ e, (t x).Has e → e.write = true → e.own = true

structure Changes (t t' : ℕ → Walk) : Prop where
  ok : TableOk flagsAt t'
  stale : ∀ x, (flagsAt x).has VM_SHARED = false → (t' x).Stale → (t x).Stale

def AreasOk (w : World) : Prop :=
  ∀ x a, w.vma x = some a → x < a.vmEnd ∧ ∀ y, x ≤ y → y < a.vmEnd → flagsAt y = a.vmFlags

def CowAllowed (s : CowSys) : CowEvent → Prop
  | .others walk => Changes flagsAt s.walk walk
  | .round w walk => Changes flagsAt s.walk walk ∧ AreasOk flagsAt w ∧ TransHugeOk w.transHuge ∧
      ((flagsAt s.gup.start).has VM_SHARED = false → w.handled.Broke → ¬(walk s.gup.start).Stale)

structure MayWrite (x : ℕ) (e : Entry) : Prop where
  own : (flagsAt x).has VM_SHARED = false → e.own = true
  write : (flagsAt x).has VM_SHARED = true → (flagsAt x).has VM_WRITE = true ∧ e.write = true

def GivesWritable (c : Call) (s : CowSys) : CowEvent → Prop
  | .others _ => True
  | .round w walk => s.done = false → (flagsAt s.gup.start).has VM_HUGETLB = false →
      ∀ p, (s.step c (.round w walk)).gup.pages = s.gup.pages ++ [some p] →
        ∃ e, World.Shows { w with walk := s.walk } s.gup.start e p ∧ MayWrite flagsAt s.gup.start e

structure InArea (c : Call) (g : Gup) : Prop where
  flags : ∀ y, g.start ≤ y → y < g.area.vmEnd → flagsAt y = g.area.vmFlags
  check : checkVmaFlags g.area.vmFlags ⟨c.flags.populate, c.flags.write, c.flags.force⟩ true = 0

structure LookOk (c : Call) (g : Gup) (t : ℕ → Walk) : Prop where
  lt : g.start < g.area.vmEnd
  area : InArea flagsAt c g
  foll : g.foll = { c.flags with cow := g.foll.cow }
  write : g.foll.cow = true → (flagsAt g.start).has VM_WRITE = false
  cow : g.foll.cow = true → (flagsAt g.start).has VM_SHARED = false → ¬(t g.start).Stale

structure CowOk (c : Call) (s : CowSys) : Prop where
  table : TableOk flagsAt s.walk
  look : s.done = false → s.gup.pc ≠ .top → LookOk flagsAt c s.gup s.walk
  area : s.done = false → s.gup.vma ≠ none → s.gup.start < s.gup.area.vmEnd → InArea flagsAt c s.gup

end System

section Steps

variable {flagsAt : ℕ → VmFlags} {c : Call} {s : CowSys} {g g' : Gup} {w : World} {t t' : ℕ → Walk}
  {out : Outcome} {p : PageId}

/-- The check lets a shared area pass only if it is writable. -/
theorem check_write {flags : VmFlags} {populate force : Bool}
    (h : checkVmaFlags flags ⟨populate, true, force⟩ true = 0) (hs : flags.has VM_SHARED = true) :
    flags.has VM_WRITE = true := by
  by_contra hw
  have hcow : isCowMapping flags = false := by
    by_contra hne
    rw [Bool.not_eq_false] at hne
    have hbits := congrArg (BitVec.getLsbD · 3) (beq_iff_eq.1 hne)
    rw [show VM_SHARED = BitVec.twoPow 64 3 by decide, has_twoPow,
      BitVec.getLsbD_eq_getElem (by decide)] at hs
    simp [hs, VM_MAYWRITE, VM_SHARED] at hbits
  rw [Bool.not_eq_true] at hw
  unfold checkVmaFlags at h
  simp [hw, hcow, EFAULT] at h

theorem LookOk.mayWrite {e : Entry} (h : LookOk flagsAt c g t) (hwrite : c.flags.write = true)
    (htable : TableOk flagsAt t) (he : (t g.start).Has e)
    (hfollow : g.foll.write = true → canFollowWritePte g.foll e = true) :
    MayWrite flagsAt g.start e := by
  have hflags : flagsAt g.start = g.area.vmFlags := h.area.flags g.start le_rfl h.lt
  have hcheck := h.area.check
  rw [hwrite, ← hflags] at hcheck
  have hcan := hfollow (by rw [h.foll]; exact hwrite)
  simp only [canFollowWritePte, Bool.or_eq_true, Bool.and_eq_true] at hcan
  rcases hcan with hw | ⟨⟨-, hcow⟩, hdirty⟩
  · exact ⟨fun hp => htable _ hp e he hw, fun hs => ⟨check_write hcheck hs, hw⟩⟩
  · -- the page has been copied since, and it is still that copy
    refine ⟨fun hp => ?_, fun hs => ?_⟩
    · by_contra hown
      exact h.cow hcow hp ⟨e, he, hdirty, Bool.not_eq_true _ ▸ hown⟩
    · have hno := h.write hcow
      rw [check_write hcheck hs] at hno
      cases hno

structure Stepped (flagsAt : ℕ → VmFlags) (c : Call) (g : Gup) (w : World) (t' : ℕ → Walk)
    (out : Outcome) : Prop where
  gives : (flagsAt g.start).has VM_HUGETLB = false → ∀ p, out.state.pages = g.pages ++ [some p] →
    ∃ e, w.Shows g.start e p ∧ MayWrite flagsAt g.start e
  look : ∀ g', out = .go g' → g'.pc ≠ .top → LookOk flagsAt c g' t'
  area : ∀ g', out = .go g' → g'.vma ≠ none → g'.start < g'.area.vmEnd → InArea flagsAt c g'

theorem Stepped.ret {r : ℤ} (h : g'.pages = g.pages) : Stepped flagsAt c g w t' (.ret r g') where
  gives _ p hp := by
    have hlen := congrArg List.length (h.symm.trans hp)
    simp at hlen
  look _ hg := by cases hg
  area _ hg := by cases hg

/-- Farther on in the same area. -/
theorem InArea.mono (h : InArea flagsAt c g) (hvma : g'.vma = g.vma) (hle : g.start ≤ g'.start) :
    InArea flagsAt c g' := by
  have harea : g'.area = g.area := by rw [Gup.area, Gup.area, hvma]
  refine ⟨fun y hy hlt => ?_, ?_⟩
  · rw [harea] at hlt ⊢
    exact h.flags y (hle.trans hy) hlt
  · rw [harea]
    exact h.check

theorem Looked.stepped (h : Looked c g w out) (hok : LookOk flagsAt c g w.walk)
    (hwrite : c.flags.write = true) (htable : TableOk flagsAt w.walk)
    (hchange : Changes flagsAt w.walk t')
    (hbroke : (flagsAt g.start).has VM_SHARED = false → w.handled.Broke → ¬(t' g.start).Stale) :
    Stepped flagsAt c g w t' out := by
  cases h with
  | next hs hpage =>
    next g1 o mask =>
    refine ⟨fun _ p hp => ?_, fun g' hg hpc => ?_, fun g' hg _ _ => ?_⟩
    · rw [nextPage_state] at hp
      have hcons :
          o :: List.replicate (pageIncrem g1.start (if c.vmas then 0 else mask) g1.nrPages-1) none =
            [some p] := by
        apply (List.append_right_inj g.pages).1
        rw [← hp, ← hs.pages]
        rfl
      obtain ⟨e, hshows, hfollow⟩ := hpage p (List.cons.inj hcons).1
      exact ⟨e, hshows, hok.mayWrite hwrite htable hshows.has hfollow⟩
    · rw [nextPage_go hg] at hpc
      exact absurd rfl hpc
    · have hle : g.start ≤ (g1.next c o mask).start := by
        show g.start ≤ g1.start+_
        rw [hs.start]
        exact Nat.le_add_right _ _
      rw [nextPage_go hg]
      exact hok.area.mono hs.vma hle
  | ret hs => exact .ret hs.pages
  | again hs hpc hfoll hcow =>
    next g1 =>
    have hflags : flagsAt g.start = g.area.vmFlags := hok.area.flags g.start le_rfl hok.lt
    have harea : InArea flagsAt c g1 := hok.area.mono hs.vma hs.start.ge
    refine ⟨fun _ p hp => ?_, fun g' hg _ => ?_, fun g' hg _ _ => ?_⟩
    · have hlen := congrArg List.length (hs.pages.symm.trans hp)
      simp at hlen
    · cases hg
      refine ⟨?_, harea, ?_, fun hc => ?_, fun hc hp hstale => ?_⟩
      · rw [hs.start, Gup.area, hs.vma]
        exact hok.lt
      · rw [hfoll, hok.foll]
      · rw [hs.start]
        rcases hcow hc with hc | ⟨-, hw⟩
        · exact hok.write hc
        · rw [hflags]
          exact hw
      · rw [hs.start] at hp hstale
        rcases hcow hc with hc | ⟨hb, -⟩
        · exact hok.cow hc hp (hchange.stale _ hp hstale)
        · exact hbroke hp hb hstale
    · cases hg
      exact harea

theorem atRetry_stepped (hh : TransHugeOk w.transHuge) (hok : LookOk flagsAt c g w.walk)
    (hwrite : c.flags.write = true) (htable : TableOk flagsAt w.walk)
    (hchange : Changes flagsAt w.walk t')
    (hbroke : (flagsAt g.start).has VM_SHARED = false → w.handled.Broke → ¬(t' g.start).Stale) :
    Stepped flagsAt c g w t' (atRetry c g w) := by
  unfold atRetry
  split
  · exact .ret rfl
  · exact (lookAt_looked c g w hh).stepped hok hwrite htable hchange hbroke

/-- A gate page is never given out for writing. -/
theorem gatePage_stepped (hwrite : c.flags.write = true) :
    Stepped flagsAt c g w t' (gatePage c g w) := by
  unfold gatePage
  split
  · exact .ret rfl
  · exact .ret rfl
  · rw [if_pos hwrite]
    exact .ret rfl

theorem hugePages_stepped (hhuge : (flagsAt g.start).has VM_HUGETLB = true)
    (harea : InArea flagsAt c g) :
    Stepped flagsAt c g w t' (hugePages c g w) := by
  have hgives {out : Outcome} (hlook : ∀ g', out = .go g' → g'.pc = .top ∧ InArea flagsAt c g') :
      Stepped flagsAt c g w t' out :=
    ⟨fun hne => absurd hhuge (by simp [hne]), fun g' hg hpc => absurd (hlook g' hg).1 hpc,
      fun g' hg _ _ => (hlook g' hg).2⟩
  apply hgives
  intro g' hg
  have hg' : g' = g.huge c w := by
    unfold hugePages at hg
    dsimp only at hg
    split at hg
    · cases hg
    · exact (Outcome.go.inj hg).symm
  rw [hg']
  exact ⟨rfl, harea.mono rfl (Nat.le_add_right _ _)⟩

/-- At the first look at a page `FOLL_COW` is not set. -/
theorem InArea.look (h : InArea flagsAt c g) (hlt : g.start < g.area.vmEnd)
    (hfoll : g.foll = c.flags) (hcow : c.flags.cow = false) : LookOk flagsAt c g t := by
  refine ⟨hlt, h, ?_, fun hc => ?_, fun hc => ?_⟩
  · rw [hfoll]
  · rw [hfoll, hcow] at hc
    cases hc
  · rw [hfoll, hcow] at hc
    cases hc

theorem round_stepped (hlook : g.pc ≠ .top → LookOk flagsAt c g w.walk)
    (harea : g.vma ≠ none → g.start < g.area.vmEnd → InArea flagsAt c g)
    (hwrite : c.flags.write = true) (hcow : c.flags.cow = false) (htable : TableOk flagsAt w.walk)
    (hchange : Changes flagsAt w.walk t') (hareas : AreasOk flagsAt w)
    (hh : TransHugeOk w.transHuge)
    (hbroke : (flagsAt g.start).has VM_SHARED = false → w.handled.Broke → ¬(t' g.start).Stale) :
    Stepped flagsAt c g w t' (Pin.round c g w) := by
  unfold Pin.round
  split
  · next hpc =>
      exact (lookAt_looked c g w hh).stepped (hlook (by simp [hpc])) hwrite htable hchange hbroke
  · next hpc => exact atRetry_stepped hh (hlook (by simp [hpc])) hwrite htable hchange hbroke
  · dsimp only
    split
    · next hany =>
      obtain ⟨a, ha, hlt⟩ := (Option.any_eq_true _ _).1 hany
      have hne : g.vma ≠ none := by simp [ha]
      have hlt : g.start < g.area.vmEnd := by
        rw [Gup.area, ha]
        exact of_decide_eq_true hlt
      have hin : InArea flagsAt c { g with foll := c.flags } := (harea hne hlt).mono rfl le_rfl
      have hstep := atRetry_stepped hh (hin.look hlt rfl hcow) hwrite htable hchange hbroke
      exact { hstep with }
    · split
      · exact { gatePage_stepped hwrite with }
      · next a ha =>
        obtain ⟨hlt, hflags⟩ := hareas _ a ha
        split
        · exact .ret rfl
        · next hcheck =>
          have hin : InArea flagsAt c { g with foll := c.flags, vma := some a } :=
            ⟨hflags, checkVmaFlags_permitted (not_not.1 hcheck)⟩
          split
          · next hhuge =>
            have hh : (flagsAt g.start).has VM_HUGETLB = true := by
              rw [hflags g.start le_rfl hlt]
              exact hhuge
            have hstep : Stepped flagsAt c { g with foll := c.flags, vma := some a } w t' _ :=
              hugePages_stepped hh hin
            exact { hstep with }
          · have hstep := atRetry_stepped hh (hin.look hlt rfl hcow) hwrite htable hchange hbroke
            exact { hstep with }

theorem CowOk.step {event : CowEvent} (h : CowOk flagsAt c s) (hwrite : c.flags.write = true)
    (hcow : c.flags.cow = false) (hallowed : CowAllowed flagsAt s event) :
    GivesWritable flagsAt c s event ∧ CowOk flagsAt c (s.step c event) := by
  cases event with
  | others walk =>
    refine ⟨trivial, hallowed.ok, fun hd hpc => ?_, h.area⟩
    have hlook := h.look hd hpc
    exact { hlook with cow := fun hc hp hstale => hlook.cow hc hp (hallowed.stale _ hp hstale) }
  | round w walk =>
    obtain ⟨hchange, hareas, hh, hbroke⟩ := hallowed
    by_cases hd : s.done = true
    · have hsame : s.step c (.round w walk) = s := if_pos hd
      refine ⟨fun hnot => absurd hd (by simp [hnot]), ?_⟩
      rw [hsame]
      exact h
    · have hd' : s.done = false := Bool.eq_false_of_not_eq_true hd
      have hstep := round_stepped (w := { w with walk := s.walk }) (h.look hd') (h.area hd') hwrite
        hcow h.table hchange hareas hh hbroke
      set out := Pin.round c s.gup { w with walk := s.walk }
      have hafter : s.step c (.round w walk) = .after walk out := if_neg hd
      clear_value out
      constructor
      · intro _ hhuge p hp
        rw [hafter, CowSys.after_gup] at hp
        exact hstep.gives hhuge p hp
      · rw [hafter]
        cases out with
        | go g => exact ⟨hchange.ok, fun _ => hstep.look g rfl, fun _ => hstep.area g rfl⟩
        | ret r g => exact ⟨hchange.ok, nofun, nofun⟩

end Steps

/-- Other tasks may change the page table between any two looks at it, as long as in a private area
only a page of one's own becomes writable, and none but such a page becomes dirty. Then each page
that `__get_user_pages` gives out for writing outside of hugetlb areas may be written to when it is
given out: in a private area it is the task's own copy, never a page of the file or of another task,
also if it is `FOLL_FORCE` that allows the access. -/
theorem gup_givesWritable (flagsAt : ℕ → VmFlags) (c : Call) (start nrPages : ℕ) (refs : Refs)
    (walk : ℕ → Walk) (events : List CowEvent) (hwrite : c.flags.write = true)
    (hcow : c.flags.cow = false) (hwalk : TableOk flagsAt walk)
    (hevents : Runs.Every (CowSys.step c) (CowAllowed flagsAt)
      { gup := { start := start, nrPages := nrPages, refs := refs }, walk := walk } events) :
    Runs.Every (CowSys.step c) (GivesWritable flagsAt c)
      { gup := { start := start, nrPages := nrPages, refs := refs }, walk := walk } events := by
  have hstart : CowOk flagsAt c
      { gup := { start := start, nrPages := nrPages, refs := refs }, walk := walk } :=
    ⟨hwalk, fun _ hpc => absurd rfl hpc, fun _ hvma => absurd rfl hvma⟩
  exact (hevents.under hstart fun s a hs ha => hs.step hwrite hcow ha).1

def filePage (p : PageId) : ℕ → Walk := fun _ =>
  .table (.present { target := .normal p false, write := false, dirty := false, own := false })
def ownCopy (p : PageId) : ℕ → Walk := fun _ =>
  .table (.present { target := .normal p false, write := false, dirty := true, own := true })

def forcedWorld : World where
  vma x := if x < 0x2000 then some ⟨0x1000, 0x2000, VM_READ ||| VM_MAYWRITE, true⟩ else none
  handled := .done false false true

def raceEvents : List CowEvent :=
  [.round forcedWorld (ownCopy ⟨8, 0⟩), .others fun _ => .missing, .others (filePage ⟨3, 0⟩),
    .round forcedWorld (ownCopy ⟨9, 0⟩), .round forcedWorld (ownCopy ⟨9, 0⟩)]

def forcedCall : Call := { flags := { write := true, force := true, get := true } }

def raceStart : CowSys := { gup := { start := 0x1000, nrPages := 1 }, walk := filePage ⟨3, 0⟩ }

/-- If nothing is writable or dirty but one's own pages, nothing can be stale. -/
theorem changes_of_own {flagsAt : ℕ → VmFlags} {t t' : ℕ → Walk}
    (h : ∀ x e, (t' x).Has e → e.write = true ∨ e.dirty = true → e.own = true) :
    Changes flagsAt t t' ∧ ∀ x, ¬(t' x).Stale := by
  have hstale (x : ℕ) : ¬(t' x).Stale := by
    rintro ⟨e, he, hdirty, hown⟩
    rw [h x e he (.inr hdirty)] at hown
    cases hown
  exact ⟨⟨fun x _ e he hw => h x e he (.inl hw), fun x _ hs => absurd hs (hstale x)⟩, hstale⟩

theorem allowed_raceEvents :
    Runs.Every (CowSys.step forcedCall) (CowAllowed fun _ => VM_READ ||| VM_MAYWRITE) raceStart
      raceEvents := by
  have hfile {t : ℕ → Walk} : Changes (fun _ => VM_READ ||| VM_MAYWRITE) t (filePage ⟨3, 0⟩) := by
    refine (changes_of_own fun x e he hor => ?_).1
    cases he
    simp at hor
  have hnone {t : ℕ → Walk} : Changes (fun _ => VM_READ ||| VM_MAYWRITE) t fun _ => .missing :=
    (changes_of_own fun x e he _ => by cases he).1
  have hround {s : CowSys} {p : PageId} :
      CowAllowed (fun _ => VM_READ ||| VM_MAYWRITE) s (.round forcedWorld (ownCopy p)) := by
    have hown : Changes (fun _ => VM_READ ||| VM_MAYWRITE) s.walk (ownCopy p) ∧ ∀ x,
        ¬(ownCopy p x).Stale := by
      apply changes_of_own
      intro x e he _
      cases he
      rfl
    obtain ⟨hchange, hstale⟩ := hown
    refine ⟨hchange, fun x a ha => ?_, transHugeOk_null, fun _ _ => hstale _⟩
    unfold forcedWorld at ha
    dsimp only at ha
    split at ha
    · next hlt =>
      cases ha
      exact ⟨hlt, fun _ _ _ => rfl⟩
    · cases ha
  exact ⟨hround, hnone, hfile, hround, hround, trivial⟩

/-- The page that is given out in the end is the second copy. -/
theorem gup_givesWritable_race :
    (Runs.run (CowSys.step forcedCall) raceStart raceEvents).gup.pages = [some ⟨9, 0⟩] ∧
    Runs.Every (CowSys.step forcedCall)
      (GivesWritable (fun _ => VM_READ ||| VM_MAYWRITE) forcedCall) raceStart
      raceEvents := by
  refine ⟨by decide +kernel, gup_givesWritable _ forcedCall 0x1000 1 {} (filePage ⟨3, 0⟩)
    raceEvents rfl rfl ?_ allowed_raceEvents⟩
  intro x _ e he hw
  cases he
  cases hw

end PtraceRemote.Pin
