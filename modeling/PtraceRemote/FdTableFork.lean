import PtraceRemote.FdTableInv

/-! `dup_fd`: the table of a forked child. -/
namespace PtraceRemote
open Bitmap

theorem lastOpenWord_spec (fdt : Fdtable) (n : ℕ) :
    (∀ w, lastOpenWord fdt n < w → w < n → wordZero fdt.openFds w) ∧
    (lastOpenWord fdt n < n ∨ lastOpenWord fdt n = 0) := by
  induction n with
  | zero => exact ⟨fun w _ h => absurd h (Nat.not_lt_zero w), Or.inr rfl⟩
  | succ n ih =>
    unfold lastOpenWord
    split
    · rename_i hz
      refine ⟨fun w h1 h2 => ?_, by omega⟩
      rcases Nat.lt_succ_iff_lt_or_eq.mp h2 with h2 | rfl
      · exact ih.1 w h1 h2
      · exact hz
    · exact ⟨fun w h1 h2 => absurd h2 (by omega), Or.inl (by omega)⟩

theorem countOpenFiles_pos (fdt : Fdtable) : 0 < countOpenFiles fdt := by
  unfold countOpenFiles
  omega

/-- The copied part ends behind the last word with an open descriptor. -/
theorem countOpenFiles_spec {fdt : Fdtable} (h : FdtableOk fdt) :
    64 ∣ countOpenFiles fdt ∧ countOpenFiles fdt ≤ fdt.maxFds ∧
    (∀ w, countOpenFiles fdt/64 ≤ w → w < fdt.maxFds/64 → wordZero fdt.openFds w) := by
  obtain ⟨h1, h2⟩ := lastOpenWord_spec fdt (fdt.maxFds/64)
  have hp := h.max_pos
  have hd := h.max_dvd
  unfold countOpenFiles
  exact ⟨Dvd.intro_left _ rfl, by omega, fun w hw hw' => h1 w (by omega) hw'⟩

structure DupLoop (old start cur : Fdtable) (n : ℕ) : Prop where
  max_eq : cur.maxFds = start.maxFds
  slot : ∀ i, cur.fd i = if i < n then old.fd i else start.fd i
  bit : ∀ i, cur.openFds i = if i < n ∧ old.fd i = none then false else start.openFds i
  full_iff : ∀ w, w < cur.maxFds/64 → (cur.fullFdsBits w = true ↔ wordFull cur.openFds w)
  full_tail : ∀ w, cur.maxFds/64 ≤ w → w < 64*bitbitNr cur.maxFds → cur.fullFdsBits w = false

theorem dupLoop_foldl {old start : Fdtable} (n : ℕ) (acc : List FileId)
    (hfull : ∀ w, w < start.maxFds/64 → (start.fullFdsBits w = true ↔ wordFull start.openFds w))
    (htail : ∀ w, start.maxFds/64 ≤ w → w < 64*bitbitNr start.maxFds →
      start.fullFdsBits w = false) :
    DupLoop old start ((List.range n).foldl (dupSlot old) (start, acc)).1 n := by
  induction n with
  | zero => exact ⟨rfl, fun i => by simp, fun i => by simp, hfull, htail⟩
  | succ n ih =>
    rw [List.range_succ, List.foldl_append, List.foldl_cons, List.foldl_nil]
    generalize (List.range n).foldl (dupSlot old) (start, acc) = cur at ih ⊢
    have hslot (v : Option FileId) (hv : v = old.fd n) (i : ℕ) :
        Function.update cur.1.fd n v i = if i < n+1 then old.fd i else start.fd i := by
      by_cases hi : i = n
      · rw [hi, Function.update_self, if_pos (Nat.lt_succ_self n), hv]
      · rw [Function.update_of_ne hi, ih.slot i]
        exact if_congr (by omega) rfl rfl
    unfold dupSlot
    split
    · rename_i f hf
      refine ⟨ih.max_eq, hslot _ hf.symm, fun i => ?_, ih.full_iff, ih.full_tail⟩
      rw [ih.bit i]
      refine if_congr ⟨fun h => ⟨by omega, h.2⟩, fun h => ⟨?_, h.2⟩⟩ rfl rfl
      rcases Nat.lt_succ_iff_lt_or_eq.mp h.1 with h1 | rfl
      · exact h1
      · exact absurd h.2 (by rw [hf]; exact Option.some_ne_none f)
    · rename_i hf
      obtain ⟨h1, h2⟩ := summary_clearOpenFd n ih.full_iff ih.full_tail
      refine ⟨ih.max_eq, hslot _ hf.symm, fun i => ?_, h1, h2⟩
      change Function.update cur.1.openFds n false i = _
      by_cases hi : i = n
      · rw [hi, Function.update_self, if_pos ⟨Nat.lt_succ_self n, hf⟩]
      · rw [Function.update_of_ne hi, ih.bit i]
        exact if_congr (by constructor <;> rintro ⟨ha, hb⟩ <;> exact ⟨by omega, hb⟩) rfl rfl

/-- The bitmaps copied by `dup_fd` are exact: the words behind the copied part are empty in the old
table, so the summary bits copied along with it are clear. -/
theorem copyFdBitmaps_summary {nfdt ofdt : Fdtable} (h : FdtableOk ofdt) (hn : 64 ∣ nfdt.maxFds)
    (hle : countOpenFiles ofdt ≤ nfdt.maxFds) (hlt : nfdt.maxFds < 2^32) :
    let c := copyFdBitmaps nfdt ofdt (countOpenFiles ofdt)
    (∀ w, w < c.maxFds/64 → (c.fullFdsBits w = true ↔ wordFull c.openFds w)) ∧
    (∀ w, c.maxFds/64 ≤ w → w < 64*bitbitNr c.maxFds → c.fullFdsBits w = false) := by
  obtain ⟨hd, hmax, hzero⟩ := countOpenFiles_spec h
  obtain ⟨hopen, -, hfull⟩ := @copyFdBitmaps_bits nfdt ofdt _ hd hn hle hlt
  have hb := bitbitNr_mono hle
  have hbo := bitbitNr_mono hmax
  have hlate (w : ℕ) (hw : countOpenFiles ofdt/64 ≤ w) (hw' : w < 64*bitbitNr nfdt.maxFds) :
      (copyFdBitmaps nfdt ofdt (countOpenFiles ofdt)).fullFdsBits w = false := by
    rw [hfull]
    by_cases hlong : w < 64*bitbitNr (countOpenFiles ofdt)
    · rw [copyClear_copied hlong]
      by_cases hold : w < ofdt.maxFds/64
      · refine Bool.eq_false_iff.mpr fun hf => ?_
        have h1 := (h.full_iff w hold).mp hf 0 (by decide)
        rw [hzero w hw hold 0 (by decide)] at h1
        exact absurd h1 (by decide)
      · exact h.full_tail w (by omega) (by omega)
    · exact copyClear_cleared (by omega) (by omega)
  have hlong (w : ℕ) (hw : w < nfdt.maxFds/64) : w < 64*bitbitNr nfdt.maxFds := by
    unfold bitbitNr bitsToLongs; omega
  refine ⟨fun w hw => ?_, fun w hw hw' => hlate w ?_ hw'⟩
  · change w < nfdt.maxFds/64 at hw
    by_cases hwo : w < countOpenFiles ofdt/64
    · have hl : w < 64*bitbitNr (countOpenFiles ofdt) := by unfold bitbitNr bitsToLongs; omega
      rw [hfull, copyClear_copied hl, h.full_iff w (by omega), hopen]
      apply wordFull_congr
      intro j hj
      rw [copyClear_copied (by omega)]
    · rw [hlate w (by omega) (hlong w hw), hopen]
      refine iff_of_false (by decide) fun hf => ?_
      have := hf 0 (by decide)
      rw [copyClear_cleared (by omega) (by omega)] at this
      exact absurd this (by decide)
  · change nfdt.maxFds/64 ≤ w at hw
    omega

theorem filesOk_dupFill {oldf : FilesStruct} {nfdt : Fdtable} (h : FilesOk oldf)
    (hpos : 0 < nfdt.maxFds) (hn : 64 ∣ nfdt.maxFds) (hle : countOpenFiles oldf.fdt ≤ nfdt.maxFds)
    (hlt : nfdt.maxFds < 2^32) : FilesOk (dupFill oldf nfdt).1 := by
  obtain ⟨hd, hmax, -⟩ := countOpenFiles_spec h.fdt
  obtain ⟨hfull, htail⟩ := copyFdBitmaps_summary h.fdt hn hle hlt
  have ht := @dupLoop_foldl oldf.fdt _ (countOpenFiles oldf.fdt) [] hfull htail
  unfold dupFill
  dsimp only
  generalize (List.range (countOpenFiles oldf.fdt)).foldl (dupSlot oldf.fdt) _ = r at ht
  have hm : r.1.maxFds = nfdt.maxFds := ht.max_eq
  refine ⟨⟨hm ▸ hpos, hm ▸ hn, fun i hi hs => ?_, ht.full_iff, ht.full_tail⟩,
    Nat.zero_le _, fun i hi => absurd hi (Nat.not_lt_zero i)⟩
  change i < r.1.maxFds at hi
  change copyClear r.1.fd r.1.fd none _ (nfdt.maxFds-_) i ≠ none at hs
  by_cases hio : i < countOpenFiles oldf.fdt
  · rw [copyClear_copied hio, ht.slot i, if_pos hio] at hs
    change r.1.openFds i = true
    rw [ht.bit i, if_neg (fun hc => hs hc.2), (copyFdBitmaps_bits hd hn hle hlt).1,
      copyClear_copied hio]
    exact h.fdt.slot_open i (by omega) hs
  · rw [copyClear_cleared (by omega) (by omega)] at hs
    exact absurd rfl hs

theorem foldl_dupSlot_maxFds (old : Fdtable) (l : List ℕ) (acc : Fdtable × List FileId) :
    (l.foldl (dupSlot old) acc).1.maxFds = acc.1.maxFds := by
  induction l generalizing acc with
  | nil => rfl
  | cons i l ih =>
    rw [List.foldl_cons, ih]
    unfold dupSlot
    split <;> rfl

theorem dupFill_maxFds (oldf : FilesStruct) (t : Fdtable) :
    (dupFill oldf t).1.fdt.maxFds = t.maxFds := foldl_dupSlot_maxFds _ _ _

/-- What `dup_fd` can do: run out of memory, meet the limit, or fill a table with room for the
copied part. -/
theorem dupFd_cases (nrOpen : ℕ) (newf mem : Option RawMem) (oldf : FilesStruct) :
    ((newf = none ∨ nrOpenDefault < countOpenFiles oldf.fdt ∧ mem = none) ∧
      dupFd nrOpen newf mem oldf = .error (-ENOMEM)) ∨
    (fdtableSize nrOpen (countOpenFiles oldf.fdt-1) < countOpenFiles oldf.fdt ∧
      dupFd nrOpen newf mem oldf = .error (-EMFILE)) ∨
    ∃ t : Fdtable, 64 ∣ t.maxFds ∧ countOpenFiles oldf.fdt ≤ t.maxFds ∧ t.maxFds < 2^32 ∧
      dupFd nrOpen newf mem oldf = .ok (dupFill oldf t) := by
  cases newf with
  | none => exact .inl ⟨.inl rfl, rfl⟩
  | some m =>
    unfold dupFd
    dsimp only
    by_cases hbig : countOpenFiles oldf.fdt > nrOpenDefault
    · rw [if_pos hbig]
      cases mem with
      | none => exact .inl ⟨.inr ⟨hbig, rfl⟩, rfl⟩
      | some m' =>
        simp only [allocFdtable, Option.map_some]
        by_cases hle : (m'.table (fdtableSize nrOpen (countOpenFiles oldf.fdt-1))).maxFds <
          countOpenFiles oldf.fdt
        · rw [if_pos hle]
          exact .inr (.inl ⟨hle, rfl⟩)
        · rw [if_neg hle]
          exact .inr (.inr ⟨_, fdtableSize_dvd _ _, not_lt.1 hle, fdtableSize_lt _ _, rfl⟩)
    · rw [if_neg hbig]
      refine .inr (.inr ⟨m.table nrOpenDefault, ?_, not_lt.1 hbig, ?_, rfl⟩)
      · show 64 ∣ 64
        exact dvd_rfl
      · show 64 < 2^32
        decide

/-- A forked table satisfies the invariant, whatever the memory it was built in contained. -/
theorem filesOk_dupFd {oldf newf : FilesStruct} {gets : List FileId} (h : FilesOk oldf) (nrOpen : ℕ)
    (m mem : Option RawMem) (hr : dupFd nrOpen m mem oldf = .ok (newf, gets)) : FilesOk newf := by
  rcases dupFd_cases nrOpen m mem oldf with ⟨-, he⟩ | ⟨-, he⟩ | ⟨t, hd, hle, hlt, hok⟩
  · cases he.symm.trans hr
  · cases he.symm.trans hr
  · obtain rfl : (dupFill oldf t).1 = newf := congrArg Prod.fst (Except.ok.inj (hok.symm.trans hr))
    have hpos := countOpenFiles_pos oldf.fdt
    exact filesOk_dupFill h (by omega) hd hle hlt

end PtraceRemote
