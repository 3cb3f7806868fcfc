import PtraceRemote.GupWalk

/-! What the steps of `__get_user_pages` do: the page and the references that `follow_page_mask`
gives, and what `faultin_page` makes of the flags and of `mmap_sem`. -/
namespace PtraceRemote.Pin

namespace Refs

def getAll (r : Refs) (ps : List PageId) : Refs := ps.foldl getPage r

theorem putPage_getPage (r : Refs) (p : PageId) : (r.getPage p).putPage p = r := by
  simp [getPage, putPage, add]

theorem putDevPagemap_getPage (r : Refs) (p : PageId) : (r.getDevPagemap.getPage p).putDevPagemap =
    r.getPage p := by
  simp [getPage, add, putDevPagemap, getDevPagemap]

end Refs

def Followed.pinned (get : Bool) : Followed → List PageId
  | .page p _ => if get then [p] else []
  | _ => []

/-- What is assumed of `follow_trans_huge_pmd` of mm/huge_memory.c: it returns the page that the
entry maps, if at all, then takes a reference with `FOLL_GET` and no other, and it obeys
`FOLL_WRITE` as `follow_page_pte` does. -/
structure TransHugeOk (follow : Foll → Entry → PageId → Refs → TransHuge × Refs) : Prop where
  page : ∀ foll e p r q, (follow foll e p r).1 = .page q →
    q = p ∧ (foll.write = true → canFollowWritePte foll e = true) ∧
      (follow foll e p r).2 = if foll.get then r.getPage q else r
  refs : ∀ foll e p r, (∀ q, (follow foll e p r).1 ≠ .page q) → (follow foll e p r).2 = r
  error : ∀ foll e p r err, (follow foll e p r).1 = .error err → -((err.val : ℤ)+1) ≠ -EEXIST

theorem transHugeOk_null : TransHugeOk fun _ _ _ r => (.null, r) where
  page _ _ _ _ _ h := by cases h
  refs _ _ _ _ _ := rfl
  error _ _ _ _ _ h := by cases h

section Follow

variable (foll : Foll) (hasFault : Bool) (w : World) (look : Look) (r : Refs)

theorem noPageTable_pinned (get : Bool) : (noPageTable foll hasFault).pinned get = [] := by
  unfold noPageTable
  split <;> rfl

theorem takePage_refs (p : PageId) (compound : Bool) :
    (takePage foll w p compound false r).2 =
      r.getAll ((takePage foll w p compound false r).1.pinned foll.get) := by
  unfold takePage
  rw [Refs.putPage_getPage]
  split
  · cases w.split <;> rfl
  · split
    · next hget => simp [Followed.pinned, hget, Refs.getAll]
    · next hget => simp [Followed.pinned, hget, Refs.getAll]

/-- The reference to the map of a device lasts until the page has one. -/
theorem takePage_device (p : PageId) (hget : foll.get = true) :
    (takePage foll w p false true r.getDevPagemap).2 =
      r.getAll ((takePage foll w p false true r.getDevPagemap).1.pinned foll.get) := by
  simp [takePage, hget, Followed.pinned, Refs.putDevPagemap_getPage, Refs.getAll]

theorem followPagePte_refs :
    (followPagePte foll hasFault w look r).2 =
      r.getAll ((followPagePte foll hasFault w look r).1.pinned foll.get) := by
  have hspecial :
      (followSpecial foll r).2 = r.getAll ((followSpecial foll r).1.pinned foll.get) := by
    unfold followSpecial
    split <;> rfl
  unfold followPagePte
  split
  · rw [noPageTable_pinned]
    rfl
  · rfl
  · split <;> rfl
  · next e =>
    split
    · rfl
    · split
      · rfl
      · split
        · exact takePage_refs foll w r _ _
        · split
          · rfl
          · exact takePage_refs foll w r _ _
        · split
          · next hget =>
            split
            · exact takePage_device foll w r _ hget
            · rfl
          · exact hspecial
        · exact hspecial

theorem followHuge_refs (hh : TransHugeOk w.transHuge) (e : Entry) (p : PageId) :
    (followHuge foll w e p r).2 = r.getAll ((followHuge foll w e p r).1.pinned foll.get) := by
  unfold followHuge
  dsimp only
  split
  · next hnull => exact hh.refs foll e p r (by rw [hnull]; nofun)
  · next herr => exact hh.refs foll e p r (by rw [herr]; nofun)
  · next q hpage =>
    rw [(hh.page foll e p r q hpage).2.2, Followed.pinned]
    split <;> rfl

theorem followPageMask_refs (hh : TransHugeOk w.transHuge) (addr : ℕ) (r : Refs) :
    (followPageMask foll hasFault w addr r).2 =
      r.getAll ((followPageMask foll hasFault w addr r).1.pinned foll.get) := by
  unfold followPageMask
  split
  · rw [noPageTable_pinned]
    rfl
  · exact followPagePte_refs foll hasFault w _ r
  · split
    · rw [noPageTable_pinned]
      rfl
    · split
      · rw [Refs.putPage_getPage]
        dsimp only
        split
        · rfl
        · rw [noPageTable_pinned]
          rfl
        · exact followPagePte_refs foll hasFault w _ r
      · exact followHuge_refs foll w r hh _ _

end Follow

def Target.page : Target → Option PageId
  | .normal p _ => some p
  | .zero p => some p
  | .device p => some p
  | .frame => none

inductive World.Shows (w : World) (addr : ℕ) (e : Entry) (p : PageId) : Prop
  | table (h : w.walk addr = .table (.present e)) (hp : e.target.page = some p)
  | huge {split : HugeSplit} (h : w.walk addr = .huge e p split)
  | split {e' : Entry} {q : PageId} (h : w.walk addr = .huge e' q (.done (.present e)))
      (hp : e.target.page = some p)

section Shows

variable {foll : Foll} {hasFault : Bool} {w : World} {look : Look} {r : Refs} {p : PageId}
  {mask : ℕ}

theorem noPageTable_page : noPageTable foll hasFault ≠ .page p mask := by
  unfold noPageTable
  split <;> nofun

theorem takePage_page {q : PageId} {compound pgmap : Bool}
    (h : (takePage foll w q compound pgmap r).1 = .page p mask) :
    p = q := by
  unfold takePage at h
  split at h
  · dsimp only at h
    split at h <;> cases h
  · split at h <;> cases h <;> rfl

/-- A page comes from an entry that is present, and that may be followed for writing if that is
asked for. -/
theorem followPagePte_page (h : (followPagePte foll hasFault w look r).1 = .page p mask) :
    ∃ e, look = .present e ∧ e.target.page = some p ∧
      (foll.write = true → canFollowWritePte foll e = true) := by
  unfold followPagePte at h
  split at h
  · exact absurd h noPageTable_page
  · cases h
  · split at h <;> cases h
  · next e =>
    split at h
    · cases h
    · split at h
      · cases h
      · next hw =>
        refine ⟨e, rfl, ?_, fun hfw => by simpa [hfw] using hw⟩
        have hspecial : (followSpecial foll r).1 ≠ .page p mask := by
          unfold followSpecial
          split <;> nofun
        split at h
        · next ht => rw [ht, takePage_page h, Target.page]
        · next ht =>
          split at h
          · cases h
          · rw [ht, takePage_page h, Target.page]
        · next ht =>
          split at h
          · split at h
            · rw [ht, takePage_page h, Target.page]
            · cases h
          · exact absurd h hspecial
        · exact absurd h hspecial

theorem followPageMask_page {addr : ℕ} (hh : TransHugeOk w.transHuge)
    (h : (followPageMask foll hasFault w addr r).1 = .page p mask) :
    ∃ e, w.Shows addr e p ∧ (foll.write = true → canFollowWritePte foll e = true) := by
  unfold followPageMask at h
  split at h
  · exact absurd h noPageTable_page
  · next hwalk =>
    obtain ⟨e, rfl, hp, hw⟩ := followPagePte_page h
    exact ⟨e, .table hwalk hp, hw⟩
  · next e q split hwalk =>
    split at h
    · exact absurd h noPageTable_page
    · split at h
      · dsimp only at h
        split at h
        · cases h
        · exact absurd h noPageTable_page
        · obtain ⟨e', rfl, hp, hw⟩ := followPagePte_page h
          exact ⟨e', .split hwalk hp, hw⟩
      · unfold followHuge at h
        dsimp only at h
        split at h
        · cases h
        · cases h
        · next hpage =>
          cases h
          obtain ⟨rfl, hw, -⟩ := hh.page _ _ _ _ _ hpage
          exact ⟨e, .huge hwalk, hw⟩

end Shows

/-- What `faultin_page` does to the flags, and what it says about `mmap_sem`. -/
structure Faultin.Ok (foll : Foll) (nonblocking : Bool) (f : Faultin) : Prop where
  noent : f.ret = -ENOENT → foll.mlock = true ∨ foll.populate = true
  dropped : foll.nowait = false → f.dropped = f.busy
  quiet : f.ret ≠ -EBUSY → f.busy = false ∧ f.dropped = false
  busy : f.busy = true → nonblocking = true
  ebusy : foll.nowait = false → f.ret = -EBUSY → f.busy = true
  ret : f.ret ≤ 0
  foll : f.foll = { foll with cow := f.foll.cow }

/-- The errors of `faultin_page`. -/
theorem Faultin.Ok.error {foll : Foll} {nonblocking : Bool} {err : ℤ} (hle : err ≤ 0)
    (hne : err ≠ -EBUSY) (h : err = -ENOENT → foll.mlock = true ∨ foll.populate = true) :
    Faultin.Ok foll nonblocking { ret := err, foll := foll } where
  noent := h
  dropped _ := rfl
  quiet _ := ⟨rfl, rfl⟩
  busy := nofun
  ebusy _ he := absurd he hne
  ret := hle
  foll := rfl

theorem faultinPage_ok (foll : Foll) (vmFlags : VmFlags) (nonblocking guard : Bool)
    (handled : VmFault) :
    (faultinPage foll vmFlags nonblocking guard handled).Ok foll nonblocking := by
  have hne {err : ℤ} (h : err ≠ -ENOENT) :
      err = -ENOENT → foll.mlock = true ∨ foll.populate = true :=
    fun he => absurd he h
  unfold faultinPage
  split
  · next h =>
    simp only [Bool.and_eq_true, Bool.not_eq_true'] at h
    exact .error (by decide) (by decide) fun _ => .inl h.1
  · split
    · next h =>
      simp only [Bool.and_eq_true] at h
      exact .error (by decide) (by decide) fun _ => .inr h.1
    · cases handled with
      | oom => exact .error (by decide) (by decide) (hne (by decide))
      | hwpoison =>
        cases foll.hwpoison with
        | false => exact .error (by decide) (by decide) (hne (by decide))
        | true => exact .error (by decide) (by decide) (hne (by decide))
      | sigbus => exact .error (by decide) (by decide) (hne (by decide))
      | done major retry write =>
        dsimp only
        split
        · next h =>
          have hnb (hn : foll.nowait = false) : nonblocking = true := by
            simp only [hn, Bool.or_false, Bool.and_eq_true] at h
            exact h.2
          refine ⟨hne (by decide : -EBUSY ≠ -ENOENT), fun hn => ?_,
            fun h => absurd rfl h, fun h => h, fun hn _ => hnb hn, (by decide : -EBUSY ≤ 0), rfl⟩
          simp [hn, hnb hn]
        · refine ⟨hne (by decide : (0 : ℤ) ≠ -ENOENT), fun _ => rfl, fun _ => ⟨rfl, rfl⟩, nofun,
            fun _ he => absurd he (by decide : (0 : ℤ) ≠ -EBUSY), le_refl (0 : ℤ), ?_⟩
          dsimp only
          split <;> rfl

theorem Gup.count_eq (s : Gup) (o : Option Bool) :
    ∃ a b, s.count o = { s with majFlt := a, minFlt := b } := by
  match o with
  | none => exact ⟨_, _, rfl⟩
  | some true => exact ⟨_, _, rfl⟩
  | some false => exact ⟨_, _, rfl⟩

end PtraceRemote.Pin
