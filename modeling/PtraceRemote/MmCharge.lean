import PtraceRemote.MmCalm
import PtraceRemote.MmView

/-! The charge of an area that `move_vma` hides from `do_munmap` and restores: the books at the end
of a move. -/
namespace PtraceRemote

open AugTree (Balance)

variable {mm : Mm} {s s' s'' : MmSys} {rb : Balance VmaId} {conf : MmConf} {env : MmEnv}
  {L L' L'' A B P : List VmaId} {x y n : VmaId} {core core' : VmaId → Vma} {start end_ len addr : ℕ}
  {v : Vma}

structure Acts (s : MmSys) (L : List VmaId) (s' : MmSys) (L' : List VmaId) (P : Pages)
    (k : Ledger) : Prop where
  wf : Wf s'.mm L'
  pages : pages s'.mm.core L' = P
  books : ledger s' L' = ledger s L + k
  fixed : s'.mm.fixed = s.mm.fixed

theorem Acts.trans {P Q : Pages} {k k' : Ledger} (h : Acts s L s' L' P k)
    (h' : Acts s' L' s'' L'' Q k') :
    Acts s L s'' L'' Q (k+k') :=
  ⟨h'.wf, h'.pages, by rw [h'.books, h.books, add_assoc], h'.fixed.trans h.fixed⟩

theorem Does.acts {G : Prop} {P : Pages} {c : ℤ} (h : Does G s L s' L' P c) :
    ∃ d, Acts s L s' L' P (lockVec d + acctVec c) ∧ (G → d = 0) := by
  obtain ⟨d, hd, hg⟩ := h.kept
  exact ⟨d, ⟨h.wf, h.pages, by rw [hd, add_assoc], h.fixed⟩, hg⟩

theorem Acts.does {G : Prop} {P : Pages} {d : BitVec 64} {c : ℤ}
    (h : Acts s L s' L' P (lockVec d + acctVec c)) (hd : G → d = 0) : Does G s L s' L' P c :=
  ⟨h.wf, h.pages, ⟨d, by rw [h.books, add_assoc], hd⟩, h.fixed⟩

/-! The charge of an area, hidden and shown. -/

def Vma.uncharged (v : Vma) : Vma := { v with vmFlags := v.vmFlags &&& ~~~VM_ACCOUNT }

def Vma.charged (v : Vma) : Vma := { v with vmFlags := v.vmFlags ||| VM_ACCOUNT }

theorem charged_uncharged (h : v.vmFlags.has VM_ACCOUNT = true) : v.uncharged.charged = v := by
  have hbit : v.vmFlags.getLsbD 20 = true := by rw [← has_twoPow]; exact h
  have hflags : v.vmFlags &&& ~~~VM_ACCOUNT ||| VM_ACCOUNT = v.vmFlags := by
    refine BitVec.eq_of_getLsbD_eq fun i hi => ?_
    have hm : VM_ACCOUNT.getLsbD i = decide (20 = i) := by
      rw [show VM_ACCOUNT = BitVec.twoPow 64 20 by decide, BitVec.getLsbD_twoPow]
      simp
    rw [BitVec.getLsbD_or, BitVec.getLsbD_and, BitVec.getLsbD_not, hm]
    by_cases h20 : 20 = i
    · subst h20
      simp [hbit]
    · simp [h20, hi]
  show ({ v with vmFlags := v.vmFlags &&& ~~~VM_ACCOUNT ||| VM_ACCOUNT } : Vma) = v
  rw [hflags]

theorem uncharged_has (v : Vma) : v.uncharged.vmFlags.has VM_ACCOUNT = false := by
  show VmFlags.has (v.vmFlags &&& ~~~VM_ACCOUNT) VM_ACCOUNT = false
  rw [VmFlags.has, BitVec.and_assoc, show ~~~VM_ACCOUNT &&& VM_ACCOUNT = 0#64 by decide,
    BitVec.and_zero]
  rfl

/-- Showing the charge of an area adds its pages to what is charged, and nothing else. -/
theorem charge_charged (h : v.vmFlags.has VM_ACCOUNT = false) :
    charge (v.charged.weight single) = charge (v.weight single) + acctVec v.pages := by
  have hacct : v.charged.vmFlags.has VM_ACCOUNT = true := has_or_self (by decide)
  have hlock : v.charged.vmFlags.has VM_LOCKED = v.vmFlags.has VM_LOCKED :=
    has_or_of_disjoint (by decide)
  have hclass : v.charged.vmFlags &&& VM_CLASS = v.vmFlags &&& VM_CLASS := by
    show (v.vmFlags ||| VM_ACCOUNT) &&& VM_CLASS = _
    rw [BitVec.and_comm, BitVec.and_or_distrib_left, show VM_CLASS &&& VM_ACCOUNT = 0#64 by decide,
      BitVec.or_zero, BitVec.and_comm]
  rw [charge_weight, charge_weight, h, hacct, hlock, statVec_congr hclass]
  simp [acctVec_zero, Vma.pages, Vma.charged]

theorem outside_weight_self (hv : AreaOk v) (hs : 4096 ∣ start) (he : 4096 ∣ end_)
    (h : v.vmEnd ≤ start ∨ end_ ≤ v.vmStart) :
    outside start end_ (v.weight single) = v.weight single := by
  refine Multiset.filter_eq_self.2 fun e hmem => ?_
  obtain ⟨hlo, hhi⟩ := mem_weight hmem
  have := hv.lt
  have := hv.start_dvd
  have := hv.end_dvd
  unfold Vma.pages at hhi
  omega

theorem outside_weight_nil (hv : AreaOk v) (hs : 4096 ∣ start) (he : 4096 ∣ end_)
    (h : start ≤ v.vmStart ∧ v.vmEnd ≤ end_) : outside start end_ (v.weight single) = 0 := by
  refine Multiset.filter_eq_nil.2 fun e hmem => ?_
  obtain ⟨hlo, hhi⟩ := mem_weight hmem
  have := hv.lt
  have := hv.start_dvd
  have := hv.end_dvd
  unfold Vma.pages at hhi
  omega

theorem areaOk_lower (hv : AreaOk v) (h : v.vmStart < addr) (he : addr ≤ v.vmEnd)
    (hd : 4096 ∣ addr) :
    AreaOk (v.lower addr) :=
  ⟨h, hv.start_dvd, hd, he.trans_lt hv.end_lt⟩

theorem areaOk_upper (hv : AreaOk v) (h : addr < v.vmEnd) (hd : 4096 ∣ addr) :
    AreaOk (v.upper addr) :=
  ⟨h, hd, hv.end_dvd, hv.end_lt⟩

/-- The pages of an area below the end of a range that starts in front of it. -/
theorem outside_front (hv : AreaOk v) (hr : RangeOk start end_) (hs : start = v.vmStart)
    (he : end_ < v.vmEnd) :
    outside start end_ (v.weight single) = (v.upper end_).weight single := by
  have hlt : v.vmStart < end_ := hs ▸ hr.lt
  rw [← weight_lower_upper hv hlt.le he.le hr.end_dvd, outside_add,
    outside_weight_nil (areaOk_lower hv hlt he.le hr.end_dvd) hr.start_dvd hr.end_dvd
    ⟨hs.le, le_rfl⟩,
    outside_weight_self (areaOk_upper hv he hr.end_dvd) hr.start_dvd hr.end_dvd (.inr le_rfl),
      zero_add]

/-- The pieces that are left of an area are its pages outside of the range. -/
theorem Left.pages_eq (h : Left v core x start end_ P) (hv : AreaOk v) (hr : RangeOk start end_) :
    pages core P = outside start end_ (v.weight single) := by
  have hone : ∀ y, pages core [y] = (core y).weight single := fun y => by
    rw [pages, total_cons, total_nil, add_zero]
  cases h with
  | nothing hs he =>
    rw [outside_weight_nil hv hr.start_dvd hr.end_dvd ⟨hs.ge, he.le⟩]
    rfl
  | lower hs he hx =>
    have hlt : start < v.vmEnd := he ▸ hr.lt
    rw [hone, hx, ← weight_lower_upper hv hs.le hlt.le hr.start_dvd, outside_add,
      outside_weight_self (areaOk_lower hv hs hlt.le hr.start_dvd) hr.start_dvd hr.end_dvd
      (.inl le_rfl),
      outside_weight_nil (areaOk_upper hv hlt hr.start_dvd) hr.start_dvd hr.end_dvd ⟨le_rfl, he.le⟩,
        add_zero]
  | upper hs he hx => rw [hone, hx, outside_front hv hr hs.symm he]
  | both hs he hx hn =>
    have hlt : start < v.vmEnd := hr.lt.trans he
    rw [← weight_lower_upper hv hs.le hlt.le hr.start_dvd, outside_add,
      outside_weight_self (areaOk_lower hv hs hlt.le hr.start_dvd) hr.start_dvd hr.end_dvd
      (.inl le_rfl), outside_front (areaOk_upper hv hlt hr.start_dvd) hr rfl he,
      upper_upper hs.le hr.lt.le hr.start_dvd hr.end_dvd, ← hx, ← hn, pages, total_cons, total_cons,
        total_nil, add_zero]

/-- The books know of the pieces what they knew of the area. -/
theorem Left.pages_sum (h : Left v core x start end_ P) (hv : AreaOk v) (hr : RangeOk start end_) :
    (P.map fun y => (core y).pages).sum = (v.vmEnd-v.vmStart-(end_-start))/4096 := by
  have := hr.lt
  have := hr.start_dvd
  have := hr.end_dvd
  have := hv.start_dvd
  have := hv.end_dvd
  cases h with
  | nothing hs he => simp [hs, he]
  | lower hs he hx =>
    simp only [List.map_cons, List.map_nil, List.sum_cons, List.sum_nil, hx, Vma.pages, Vma.lower]
    omega
  | upper hs he hx =>
    simp only [List.map_cons, List.map_nil, List.sum_cons, List.sum_nil, hx, Vma.pages, Vma.upper]
    omega
  | both hs he hx hn =>
    simp only [List.map_cons, List.map_nil, List.sum_cons, List.sum_nil, hx, hn, Vma.pages,
      Vma.lower, Vma.upper]
    omega

/-- Showing the charge of the pieces is showing that of the area. -/
theorem Left.charged {core' : VmaId → Vma} (h : Left v core x start end_ P)
    (hcore : ∀ y ∈ P, core' y = (core y).charged) : Left v.charged core' x start end_ P := by
  cases h with
  | nothing hs he => exact .nothing hs he
  | lower hs he hx => exact .lower hs he (by rw [hcore x (by simp), hx]; rfl)
  | upper hs he hx => exact .upper hs he (by rw [hcore x (by simp), hx]; rfl)
  | both hs he hx hn =>
    exact .both hs he (by rw [hcore x (by simp), hx]; rfl) (by rw [hcore _ (by simp), hn]; rfl)

theorem Left.flags (h : Left v core x start end_ P) : ∀ y ∈ P, (core y).vmFlags = v.vmFlags := by
  cases h with
  | nothing hs he => simp
  | lower hs he hx => simp [hx, Vma.lower]
  | upper hs he hx => simp [hx, Vma.upper]
  | both hs he hx hn => simp [hx, hn, Vma.lower, Vma.upper]

theorem core_restoreAcct (mm : Mm) (x : VmaId) :
    (restoreAcct mm x).core = Function.update mm.core x (mm.core x).charged :=
  core_modVma _

theorem Wf.restoreAcct (h : Wf mm L) (x : VmaId) : Wf (restoreAcct mm x) L := h.modVma ⟨rfl, rfl⟩

/-- The charge of one or two pieces is shown again. -/
theorem restorePieces_spec (h : Wf mm (A ++ (P ++ B))) (hl : Left v mm.core x start end_ P)
    (hP : P ≠ []) :
    let mm' := restorePieces mm x (decide (v.vmStart < start) && decide (end_ < v.vmEnd))
    Wf mm' (A ++ (P ++ B)) ∧ (∀ y ∈ A ++ B, mm'.core y = mm.core y) ∧
      (∀ y ∈ P, mm'.core y = (mm.core y).charged) ∧ mm'.rest = mm.rest := by
  have hnd := h.rep.nodup
  have hone : Wf (PtraceRemote.restoreAcct mm x) (A ++ (P ++ B)) := h.restoreAcct x
  have hxP : ∀ y ∈ A ++ B, x ∈ P → y ≠ x := by
    intro y hy hx hyx
    subst hyx
    rw [List.nodup_append, List.nodup_append] at hnd
    rcases List.mem_append.1 hy with hy | hy
    · exact hnd.2.2 y hy y (by simp [hx]) rfl
    · exact hnd.2.1.2.2 y hx y hy rfl
  have hsingle : P = [x] → (∀ y ∈ A ++ B, (PtraceRemote.restoreAcct mm x).core y = mm.core y) ∧
      ∀ y ∈ P, (PtraceRemote.restoreAcct mm x).core y = (mm.core y).charged := by
    rintro rfl
    rw [core_restoreAcct]
    refine ⟨fun y hy => Function.update_of_ne (hxP y hy (by simp)) .., fun y hy => ?_⟩
    rw [List.mem_singleton.1 hy, Function.update_self]
  dsimp only
  cases hl with
  | nothing hs he => exact absurd rfl hP
  | lower hs he hx =>
    have hsplit : (decide (v.vmStart < start) && decide (end_ < v.vmEnd)) = false := by simp [he]
    rw [hsplit]
    exact ⟨hone, (hsingle rfl).1, (hsingle rfl).2, rfl⟩
  | upper hs he hx =>
    have hsplit : (decide (v.vmStart < start) && decide (end_ < v.vmEnd)) = false := by simp [hs]
    rw [hsplit]
    exact ⟨hone, (hsingle rfl).1, (hsingle rfl).2, rfl⟩
  | @both n hs he hx hn =>
    have hsplit : (decide (v.vmStart < start) && decide (end_ < v.vmEnd)) = true := by simp [hs, he]
    have hw : Wf mm (A ++ x :: (n :: B)) := h
    have hnext : (PtraceRemote.restoreAcct mm x).vmNext x = some n := hw.rep.next_eq
    have hxn : n ≠ x := fun hnx => hw.rep.notMem.2 (by simp [hnx])
    have hdef :
        restorePieces mm x true = PtraceRemote.restoreAcct (PtraceRemote.restoreAcct mm x) n := by
      unfold restorePieces
      dsimp only
      rw [if_pos rfl, hnext]
    rw [hsplit, hdef]
    have hcore : (PtraceRemote.restoreAcct (PtraceRemote.restoreAcct mm x) n).core =
        Function.update (Function.update mm.core x (mm.core x).charged) n (mm.core n).charged := by
      rw [core_restoreAcct, core_restoreAcct, Function.update_of_ne hxn]
    rw [hcore]
    refine ⟨hone.restoreAcct n, fun y hy => ?_, fun y hy => ?_, rfl⟩
    · have hyn : y ≠ n := by
        rintro rfl
        rw [List.nodup_append, List.nodup_append] at hnd
        rcases List.mem_append.1 hy with hy | hy
        · exact hnd.2.2 y hy y (by simp) rfl
        · exact hnd.2.1.2.2 y (by simp) y hy rfl
      rw [Function.update_of_ne hyn, Function.update_of_ne (hxP y hy (by simp))]
    · rcases List.mem_cons.1 hy with rfl | hy
      · rw [Function.update_of_ne hxn.symm, Function.update_self]
      · rw [List.mem_singleton.1 hy, Function.update_self]

/-- What a carved address space shows, with the area `x` read as `w`. -/
theorem pages_carved {core' : VmaId → Vma} {w : Vma} (h : Wf mm (A ++ x :: B))
    (hr : RangeOk start end_) (hs : (mm.core x).vmStart ≤ start) (he : end_ ≤ (mm.core x).vmEnd)
    (hw : AreaOk w) (hother : ∀ y ∈ A ++ B, core' y = mm.core y)
    (hl : Left w core' x start end_ P) :
    pages core' (A ++ (P ++ B)) =
      outside start end_ (pages (Function.update mm.core x w) (A ++ x :: B)) := by
  have hA : outside start end_ (pages mm.core A) = pages mm.core A :=
    outside_of_free (h.ordered.sublist (List.sublist_append_left ..))
      (fun a ha => .inl ((h.below a ha).trans hs)) hr.start_dvd hr.end_dvd
  have hB : outside start end_ (pages mm.core B) = pages mm.core B :=
    outside_of_free
      (h.ordered.sublist ((List.sublist_cons_self x B).trans (List.sublist_append_right ..)))
      (fun b hb => .inr (he.trans (h.above b hb))) hr.start_dvd hr.end_dvd
  have hupdate : pages (Function.update mm.core x w) (A ++ x :: B) =
      pages mm.core A + (w.weight single + pages mm.core B) := total_update h.rep.notMem w
  have hsplit : pages core' (A ++ (P ++ B)) = pages core' A + (pages core' P + pages core' B) := by
    rw [pages, total_append, total_append]
    rfl
  have hA' : pages core' A = pages mm.core A := total_congr fun a ha => hother a (by simp [ha])
  have hB' : pages core' B = pages mm.core B := total_congr fun b hb => hother b (by simp [hb])
  rw [hupdate, hsplit, hA', hB', outside_add, outside_add, hA, hB, hl.pages_eq hw hr]

theorem charge_pages_charged {core' : VmaId → Vma} (hcore : ∀ y ∈ P, core' y = (core y).charged)
    (hf : ∀ y ∈ P, (core y).vmFlags.has VM_ACCOUNT = false) :
    charge (pages core' P) =
      charge (pages core P) + acctVec ((P.map fun y => (core y).pages).sum : ℕ) := by
  induction P with
  | nil => rfl
  | cons y P ih =>
    have ih := ih (fun z hz => hcore z (by simp [hz])) fun z hz => hf z (by simp [hz])
    rw [pages, total_cons, charge_add, pages, total_cons, charge_add, hcore y (by simp),
      charge_charged (hf y (by simp)), List.map_cons, List.sum_cons, Nat.cast_add, acctVec_add]
    rw [pages, pages] at ih
    rw [ih]
    abel

/-- The state after `do_munmap` and the restoring of the charge, when there was something to
restore. -/
theorem Carved.restored (h : Carved s s' A x B start end_ P) (hr : RangeOk start end_) :
    let v := s.mm.core x
    let t := if v.vmEnd-v.vmStart-(end_-start) ≠ 0 then
      s'.setMm (restorePieces s'.mm x (decide (v.vmStart < start) && decide (end_ < v.vmEnd)))
        else s'
    Wf t.mm (A ++ (P ++ B)) ∧ (∀ y ∈ A ++ B, t.mm.core y = s.mm.core y) ∧
      (∀ y ∈ P, t.mm.core y = (s'.mm.core y).charged) ∧ t.mm.rest = s'.mm.rest ∧
        t.fCount = s'.fCount ∧
      t.committed = s'.committed := by
  dsimp only
  have hlt := hr.lt
  split
  next hne =>
    have hP : P ≠ [] := by
      rintro rfl
      obtain ⟨hs, he⟩ : (s.mm.core x).vmStart = start ∧ (s.mm.core x).vmEnd = end_ := by
        cases h.left with
        | nothing hs he => exact ⟨hs, he⟩
      omega
    obtain ⟨hwf, hother, hcharged, hrest⟩ := restorePieces_spec h.wf h.left hP
    exact ⟨hwf, fun y hy => (hother y hy).trans (h.other y hy), hcharged, hrest, rfl, rfl⟩
  next hz =>
    have hP : P = [] := by
      cases h.left with
      | nothing hs he => rfl
      | lower hs he hx => omega
      | upper hs he hx => omega
      | both hs he hx hn => omega
    subst hP
    exact ⟨h.wf, h.other, by simp, rfl, rfl, rfl⟩

/-- Unmapping a part of an area whose charge is hidden: the rest of the area gets its charge back,
or the area stays and is not charged any more. -/
theorem unmapCharged_spec (rb : Balance VmaId) (conf : MmConf) (h : Wf s.mm (A ++ x :: B))
    (hs : (s.mm.core x).vmStart ≤ addr) (he : addr+len ≤ (s.mm.core x).vmEnd) (hd : 4096 ∣ len)
    (hf : (s.mm.core x).vmFlags.has VM_ACCOUNT = false) :
    let v := s.mm.core x
    let r := unmapCharged rb conf s x addr len (v.vmEnd-v.vmStart-len)
      (decide (v.vmStart < addr) && decide (addr+len < v.vmEnd))
    ((doMunmap rb conf s addr len).1 = 0 ∧ ∃ L',
      Does (LockGuard s (pages s.mm.core (A ++ x :: B))) s (A ++ x :: B) r L'
      (outside addr (addr+len) (pages (Function.update s.mm.core x v.charged) (A ++ x :: B)))
      (-((v.vmEnd-v.vmStart-len)/4096 : ℕ))) ∨
    (doMunmap rb conf s addr len).1 ≠ 0 ∧ ∃ L',
      Does True s (A ++ x :: B) r L' (pages s.mm.core (A ++ x :: B))
      (-((v.vmEnd-v.vmStart-len)/4096 : ℕ)) := by
  dsimp only
  have hv := h.ordered.area x (by simp)
  unfold unmapCharged
  dsimp only
  rcases doMunmap_spec rb conf addr len h with ⟨hne, L', hdoes⟩ | ⟨hz, L', hdoes⟩
  · rw [if_pos (lt_of_le_of_ne doMunmap_nonpos hne)]
    have hun := hdoes.unacct (((s.mm.core x).vmEnd-(s.mm.core x).vmStart-len)/4096 : ℕ)
    rw [zero_sub] at hun
    exact .inr ⟨hne, L', hun⟩
  · have hlen : pageAlign len = len := pageAlign_of_dvd hd (by have := hv.end_lt; omega)
    have hr : RangeOk addr (addr+len) := by
      have := doMunmap_rangeOk hz
      rwa [hlen] at this
    obtain ⟨P, hcut⟩ := doMunmap_carves rb conf h hr hs he hz
    obtain rfl : L' = A ++ (P ++ B) := hdoes.wf.unique hcut.wf
    have hres := hcut.restored hr
    rw [if_neg (by rw [hz]; exact lt_irrefl 0)]
    dsimp only at hres
    rw [Nat.add_sub_cancel_left] at hres
    set r := doMunmap rb conf s addr len
    set t := if (s.mm.core x).vmEnd-(s.mm.core x).vmStart-len ≠ 0 then
      r.2.setMm (restorePieces r.2.mm x
      (decide ((s.mm.core x).vmStart < addr) && decide (addr+len < (s.mm.core x).vmEnd))) else r.2
    obtain ⟨hwf, hother, hcharged, hrest, hfc, hcm⟩ := hres
    have hleft := hcut.left.charged hcharged
    have hflags : ∀ y ∈ P, (r.2.mm.core y).vmFlags.has VM_ACCOUNT = false := fun y hy => by
      rw [hcut.left.flags y hy]
      exact hf
    refine .inl ⟨hz, _, ⟨hwf, pages_carved h hr hs he hv hother hleft, ?_, ?_⟩⟩
    · obtain ⟨d, hbooks, hlock⟩ := hdoes.kept
      refine ⟨d, ?_, hlock⟩
      have hcount : counters t = counters r.2 := counters_eq hrest hfc hcm
      have hP := charge_pages_charged hcharged hflags
      rw [hcut.left.pages_sum hv hr, Nat.add_sub_cancel_left] at hP
      have hAB : ∀ y ∈ A ++ B, t.mm.core y = r.2.mm.core y := fun y hy =>
        (hother y hy).trans (hcut.other y hy).symm
      have hrefs : references t.mm.core (A ++ (P ++ B)) = references r.2.mm.core (A ++ (P ++ B)) :=
        references_congr fun y hy => by
          rcases List.mem_append.1 hy with hy | hy
          · rw [hAB y (by simp [hy])]
          rcases List.mem_append.1 hy with hy | hy
          · rw [hcharged y hy]
            rfl
          · rw [hAB y (by simp [hy])]
      have hpages : charge (pages t.mm.core (A ++ (P ++ B))) =
        charge (pages r.2.mm.core (A ++ (P ++ B))) +
          acctVec (((s.mm.core x).vmEnd-(s.mm.core x).vmStart-len)/4096 : ℕ) := by
        have happ : ∀ core, charge (pages core (A ++ (P ++ B))) =
            charge (pages core A) + (charge (pages core P) + charge (pages core B)) :=
                fun core => by
          rw [pages, total_append, total_append, charge_add, charge_add]
          rfl
        have hA : pages t.mm.core A = pages r.2.mm.core A :=
          total_congr fun y hy => hAB y (by simp [hy])
        have hB : pages t.mm.core B = pages r.2.mm.core B :=
          total_congr fun y hy => hAB y (by simp [hy])
        rw [happ, happ, hP, hA, hB]
        abel
      have hledger : ledger t (A ++ (P ++ B)) = ledger r.2 (A ++ (P ++ B)) -
          acctVec (((s.mm.core x).vmEnd-(s.mm.core x).vmStart-len)/4096 : ℕ) := by
        rw [ledger, hcount, hpages, hrefs, ledger]
        abel
      rw [hledger, hbooks, acctVec_zero, acctVec_neg]
      abel
    · exact (fixed_of_rest hrest).trans hdoes.fixed

/-! The end of a move. -/

theorem acts_stat (h : Wf s.mm L) (flags : VmFlags) (k : BitVec 64) :
    Acts s L (s.setMm (vmStatAccount s.mm flags k)) L (pages s.mm.core L) (statVec flags k) := by
  have hshape : (vmStatAccount s.mm flags k).shape = s.mm.shape := shape_vmStatAccount flags k
  have hcore : (vmStatAccount s.mm flags k).core = s.mm.core := core_of_shape hshape
  refine ⟨h.of_shape hshape, congrArg (pages · L) hcore, ?_, ?_⟩
  · rw [ledger, counters_vmStatAccount, ledger]
    show counters s + statVec flags k - charge (pages (vmStatAccount s.mm flags k).core L) -
      references (vmStatAccount s.mm flags k).core L = _
    rw [hcore]
    abel
  · exact (congrArg Mm.rest hshape :)

theorem acts_lock (h : Wf s.mm L) (k : BitVec 64) :
    Acts s L (s.setMm { s.mm with lockedVm := s.mm.lockedVm+k }) L (pages s.mm.core L)
      (lockVec k) := by
  refine ⟨h.of_shape rfl, rfl, ?_, rfl⟩
  have hc : counters (s.setMm { s.mm with lockedVm := s.mm.lockedVm+k }) =
      counters s + lockVec k := by
    simp [counters, lockVec, MmSys.setMm]
  rw [ledger, hc, ledger]
  show counters s + lockVec k - charge (pages s.mm.core L) - references s.mm.core L = _
  abel

theorem acts_conceal (h : Wf s.mm (A ++ x :: B))
    (ha : (s.mm.core x).vmFlags.has VM_ACCOUNT = true) :
    Acts s (A ++ x :: B) (s.setMm (concealAcct s.mm x)) (A ++ x :: B)
      (pages (Function.update s.mm.core x (s.mm.core x).uncharged) (A ++ x :: B))
        (acctVec (s.mm.core x).pages) := by
  have hcore : (concealAcct s.mm x).core = Function.update s.mm.core x (s.mm.core x).uncharged :=
    core_modVma _
  have hwf : Wf (concealAcct s.mm x) (A ++ x :: B) := h.modVma ⟨rfl, rfl⟩
  refine ⟨hwf, congrArg (pages · _) hcore, ?_, rfl⟩
  have hcharge := charge_charged (uncharged_has (s.mm.core x))
  rw [charged_uncharged ha] at hcharge
  have hcore' : (s.setMm (concealAcct s.mm x)).mm.core =
    Function.update s.mm.core x (s.mm.core x).uncharged := hcore
  have hcount : counters (s.setMm (concealAcct s.mm x)) = counters s + 0 := (add_zero _).symm
  rw [ledger_update h.rep.notMem hcore' rfl hcount, hcharge, add_zero]
  show _ = ledger s (A ++ x :: B) + acctVec (s.mm.core x).uncharged.pages
  abel

/-- Hiding a charge does not touch locks. -/
theorem locked_uncharged (x : VmaId) :
    pagesOf (·.has VM_LOCKED) (pages (Function.update core x (core x).uncharged) L) =
    pagesOf (·.has VM_LOCKED) (pages core L) := by
  rw [pagesOf_pages has_locked_clean, pagesOf_pages has_locked_clean]
  congr 2
  refine funext fun y => ?_
  by_cases hy : y = x
  · subst hy
    rw [Function.update_self]
    have hl : (core y).uncharged.vmFlags.has VM_LOCKED = (core y).vmFlags.has VM_LOCKED :=
      has_and (by decide)
    rw [hl]
    rfl
  · rw [Function.update_of_ne hy]

def stuckCore (core : VmaId → Vma) (x : VmaId) (vmFlags : VmFlags) : VmaId → Vma :=
  if vmFlags.has VM_ACCOUNT then Function.update core x (core x).uncharged else core

structure CanUnmap (conf : MmConf) (s : MmSys) (v : Vma) (addr len : ℕ) : Prop where
  calm : Calm s
  range : RangeOk addr (addr+len)
  task : addr+len ≤ TASK_SIZE
  ordinary : v.vmFlags.has VM_HUGETLB = false
  room : s.mm.mapCount < conf.maxMapCount

/-- Unmapping a part of an area that is not charged. -/
theorem unmapUncharged_spec (rb : Balance VmaId) (conf : MmConf) (x : VmaId) (addr : ℕ)
    (h : Wf s.mm L) (hlen : pageAlign len = len) :
    let r := unmapCharged rb conf s x addr len 0 false
    ((doMunmap rb conf s addr len).1 = 0 ∧ ∃ L', Does (LockGuard s (pages s.mm.core L)) s L r L'
      (outside addr (addr+len) (pages s.mm.core L)) 0) ∨
    (doMunmap rb conf s addr len).1 ≠ 0 ∧ ∃ L', Does True s L r L' (pages s.mm.core L) 0 := by
  dsimp only
  unfold unmapCharged
  dsimp only
  rcases doMunmap_spec rb conf addr len h with ⟨hne, L', hdoes⟩ | ⟨hz, L', hdoes⟩
  · rw [if_pos (lt_of_le_of_ne doMunmap_nonpos hne)]
    exact .inr ⟨hne, L', hdoes.unacct 0⟩
  · rw [if_neg (by rw [hz]; exact lt_irrefl 0), if_neg (not_not.2 rfl)]
    rw [hlen] at hdoes
    exact .inl ⟨hz, L', hdoes⟩

theorem CanUnmap.zero (hc : CanUnmap conf s (s.mm.core x) addr len) (h : Wf s.mm (A ++ x :: B))
    (hs : (s.mm.core x).vmStart ≤ addr) (he : addr+len ≤ (s.mm.core x).vmEnd) :
    (doMunmap rb conf s addr len).1 = 0 :=
  hc.calm.doMunmap_inside h hc.range hs he hc.ordinary hc.task hc.room

/-- Counting pages leaves what `do_munmap` depends on. -/
theorem CanUnmap.stat {v w : Vma} {flags : VmFlags} {k : BitVec 64}
    (hc : CanUnmap conf s v addr len) (hw : w.vmFlags.has VM_HUGETLB = v.vmFlags.has VM_HUGETLB)
    (hm : mm.mapCount = s.mm.mapCount) :
    CanUnmap conf (s.setMm (vmStatAccount mm flags k)) w addr len := by
  refine ⟨hc.calm, hc.range, hc.task, hw.trans hc.ordinary, ?_⟩
  have hcount : (vmStatAccount mm flags k).mapCount = mm.mapCount :=
    (congrArg Mm.mapCount (@shape_vmStatAccount mm flags k) :)
  show (vmStatAccount mm flags k).mapCount < _
  rw [hcount, hm]
  exact hc.room

/-- The end of a move of a charged area, before the locked pages are counted. -/
theorem unmapMoved_charged (rb : Balance VmaId) (conf : MmConf) (n : BitVec 64)
    (h : Wf s.mm (A ++ x :: B)) (hs : (s.mm.core x).vmStart ≤ addr)
    (he : addr+len ≤ (s.mm.core x).vmEnd) (hd : 4096 ∣ len)
    (ha : (s.mm.core x).vmFlags.has VM_ACCOUNT = true) :
    let v := s.mm.core x
    let mm := concealAcct s.mm x
    let t := s.setMm (vmStatAccount mm (mm.vma x).vmFlags n)
    let r := unmapCharged rb conf t x addr len (v.vmEnd-v.vmStart-len)
      (decide (v.vmStart < addr) && decide (addr+len < v.vmEnd))
    ∃ L' P d,
      Acts s (A ++ x :: B) r L' P (statVec v.vmFlags n + lockVec d + acctVec (len/4096 : ℕ)) ∧
      (LockGuard s (pages s.mm.core (A ++ x :: B)) → d = 0) ∧
      ((doMunmap rb conf t addr len).1 = 0 ∧
        P = outside addr (addr+len) (pages s.mm.core (A ++ x :: B)) ∨
        (doMunmap rb conf t addr len).1 ≠ 0 ∧
          P = pages (Function.update s.mm.core x v.uncharged) (A ++ x :: B) ∧
          ¬CanUnmap conf s v addr len) := by
  have hv := h.ordered.area x (by simp)
  dsimp only
  have h₁ := acts_conceal h ha
  have hx₁ : (concealAcct s.mm x).core = Function.update s.mm.core x (s.mm.core x).uncharged :=
    core_modVma _
  have hflags : ((concealAcct s.mm x).vma x).vmFlags = (s.mm.core x).uncharged.vmFlags :=
    (congrArg Vma.vmFlags (congrFun hx₁ x) :).trans (by rw [Function.update_self])
  rw [hflags]
  have h₂ : Acts s (A ++ x :: B)
    (s.setMm (vmStatAccount (concealAcct s.mm x) (s.mm.core x).uncharged.vmFlags n))
      (A ++ x :: B) (pages (Function.update s.mm.core x (s.mm.core x).uncharged) (A ++ x :: B))
      (acctVec (s.mm.core x).pages + statVec (s.mm.core x).uncharged.vmFlags n) := by
    have := h₁.trans (acts_stat h₁.wf (s.mm.core x).uncharged.vmFlags n)
    rwa [h₁.pages] at this
  set s₂ := s.setMm (vmStatAccount (concealAcct s.mm x) (s.mm.core x).uncharged.vmFlags n)
  have hcore₂ : s₂.mm.core = Function.update s.mm.core x (s.mm.core x).uncharged :=
    (core_of_shape (shape_vmStatAccount _ _)).trans hx₁
  have hx₂ : s₂.mm.core x = (s.mm.core x).uncharged := by rw [hcore₂, Function.update_self]
  have hstat : statVec (s.mm.core x).uncharged.vmFlags n = statVec (s.mm.core x).vmFlags n :=
    statVec_congr (and_and_of_sub (by decide)) n
  have hlock₂ : s₂.mm.lockedVm = s.mm.lockedVm := lockedVm_vmStatAccount _ _ _
  have hback : Function.update s₂.mm.core x (s.mm.core x) = s.mm.core := by
    rw [hcore₂, Function.update_idem, Function.update_eq_self]
  have hs₂ : (s₂.mm.core x).vmStart ≤ addr := by rw [hx₂]; exact hs
  have he₂ : addr+len ≤ (s₂.mm.core x).vmEnd := by rw [hx₂]; exact he
  have hun := unmapCharged_spec rb conf h₂.wf hs₂ he₂ hd (by rw [hx₂]; exact uncharged_has _)
  dsimp only at hun
  rw [hx₂, charged_uncharged ha, hback] at hun
  -- what was shown as charged before is the hidden part of the rest and the unmapped range
  have hsum : acctVec (s.mm.core x).pages + statVec (s.mm.core x).uncharged.vmFlags n =
    statVec (s.mm.core x).vmFlags n +
      acctVec (len/4096 : ℕ) + acctVec
      (((s.mm.core x).vmEnd-(s.mm.core x).vmStart-len)/4096 : ℕ) := by
    have hpages :
        (s.mm.core x).pages = len/4096+((s.mm.core x).vmEnd-(s.mm.core x).vmStart-len)/4096 := by
      have := hv.start_dvd
      have := hv.end_dvd
      unfold Vma.pages
      omega
    rw [hstat, hpages, Nat.cast_add, acctVec_add]
    abel
  rw [hsum] at h₂
  have hjoin : ∀ (L' : List VmaId) (Q : Pages) (r : MmSys) (d : BitVec 64),
      Acts s₂ (A ++ x :: B) r L' Q
        (lockVec d + acctVec (-(((s.mm.core x).vmEnd-(s.mm.core x).vmStart-len)/4096 : ℕ))) →
      Acts s (A ++ x :: B) r L' Q
          (statVec (s.mm.core x).vmFlags n + lockVec d + acctVec (len/4096 : ℕ)) := by
    intro L' Q r d hr
    have := h₂.trans hr
    rw [acctVec_neg] at this
    convert this using 1
    abel
  rcases hun with ⟨hz, L', hdoes⟩ | ⟨hne, L', hdoes⟩
  · obtain ⟨d, hacts, hd0⟩ := hdoes.acts
    refine ⟨L', _, d, hjoin _ _ _ _ hacts, fun hg => hd0 ?_, .inl ⟨hz, rfl⟩⟩
    rw [LockGuard, hlock₂, hcore₂, locked_uncharged]
    exact hg
  · obtain ⟨d, hacts, hd0⟩ := hdoes.acts
    refine ⟨L', _, d, hjoin _ _ _ _ hacts,
      fun _ => hd0 trivial, .inr ⟨hne, by rw [hcore₂], fun hc => hne ?_⟩⟩
    have hc₂ : CanUnmap conf s₂ (s₂.mm.core x) addr len :=
      hc.stat (by rw [hx₂]; exact has_and (by decide)) rfl
    exact hc₂.zero h₂.wf hs₂ he₂

theorem unmapMoved_uncharged (rb : Balance VmaId) (conf : MmConf) (n : BitVec 64)
    (h : Wf s.mm (A ++ x :: B)) (hs : (s.mm.core x).vmStart ≤ addr)
    (he : addr+len ≤ (s.mm.core x).vmEnd) (hd : 4096 ∣ len) :
    let v := s.mm.core x
    let t := s.setMm (vmStatAccount s.mm v.vmFlags n)
    let r := unmapCharged rb conf t x addr len 0 false
    ∃ L' P d, Acts s (A ++ x :: B) r L' P (statVec v.vmFlags n + lockVec d) ∧
      (LockGuard s (pages s.mm.core (A ++ x :: B)) → d = 0) ∧
      ((doMunmap rb conf t addr len).1 = 0 ∧
        P = outside addr (addr+len) (pages s.mm.core (A ++ x :: B)) ∨
        (doMunmap rb conf t addr len).1 ≠ 0 ∧ P = pages s.mm.core (A ++ x :: B) ∧
          ¬CanUnmap conf s v addr len) := by
  have hv := h.ordered.area x (by simp)
  have hlen : pageAlign len = len := pageAlign_of_dvd hd (by have := hv.end_lt; omega)
  dsimp only
  have h₁ := acts_stat h (s.mm.core x).vmFlags n
  set s₁ := s.setMm (vmStatAccount s.mm (s.mm.core x).vmFlags n)
  have hcore : s₁.mm.core = s.mm.core := core_of_shape (shape_vmStatAccount _ _)
  have hlock : s₁.mm.lockedVm = s.mm.lockedVm := lockedVm_vmStatAccount _ _ _
  have hun := unmapUncharged_spec rb conf x addr h₁.wf hlen
  dsimp only at hun
  rw [hcore] at hun
  have hjoin : ∀ (L' : List VmaId) (Q : Pages) (r : MmSys) (d : BitVec 64),
      Acts s₁ (A ++ x :: B) r L' Q (lockVec d + acctVec 0) →
      Acts s (A ++ x :: B) r L' Q (statVec (s.mm.core x).vmFlags n + lockVec d) := by
    intro L' Q r d hr
    have := h₁.trans hr
    rwa [acctVec_zero, add_zero] at this
  rcases hun with ⟨hz, L', hdoes⟩ | ⟨hne, L', hdoes⟩
  · obtain ⟨d, hacts, hd0⟩ := hdoes.acts
    refine ⟨L', _, d, hjoin _ _ _ _ hacts, fun hg => hd0 ?_, .inl ⟨hz, rfl⟩⟩
    rw [LockGuard, hlock]
    exact hg
  · obtain ⟨d, hacts, hd0⟩ := hdoes.acts
    refine ⟨L', _, d, hjoin _ _ _ _ hacts, fun _ => hd0 trivial, .inr ⟨hne, rfl, fun hc => hne ?_⟩⟩
    have hc₁ : CanUnmap conf s₁ (s₁.mm.core x) addr len := hc.stat (by rw [hcore]) rfl
    exact hc₁.zero h₁.wf (by rw [hcore]; exact hs) (by rw [hcore]; exact he)

/-- The state in which `move_vma` unmaps a range of the area `x`. -/
def moveCounted (s : MmSys) (x : VmaId) (newLen : ℕ) (vmFlags : VmFlags) : MmSys :=
  let mm := if vmFlags.has VM_ACCOUNT then concealAcct s.mm x else s.mm
  s.setMm (vmStatAccount mm (mm.vma x).vmFlags (BitVec.ofNat 64 (newLen/4096)))

/-- The end of a move: the new pages are counted, and the charge of the unmapped range is kept. -/
theorem moveDone_spec (rb : Balance VmaId) (conf : MmConf) (newLen : ℕ) {vmFlags : VmFlags}
    (h : Wf s.mm (A ++ x :: B)) (hs : (s.mm.core x).vmStart ≤ addr)
    (he : addr+len ≤ (s.mm.core x).vmEnd) (hd : 4096 ∣ len)
    (hfl : cleanFlags (s.mm.core x).vmFlags = cleanFlags vmFlags) :
    let k := BitVec.ofNat 64 (newLen/4096)
    let z := (doMunmap rb conf (moveCounted s x newLen vmFlags) addr len).1
    ∃ L' P d, Acts s (A ++ x :: B) (moveDone rb conf s x addr len newLen vmFlags) L' P
        (statVec vmFlags k + lockVec (if vmFlags.has VM_LOCKED then k else 0) + lockVec d +
          acctVec (if vmFlags.has VM_ACCOUNT then (len/4096 : ℕ) else 0)) ∧
      (LockGuard s (pages s.mm.core (A ++ x :: B)) → d = 0) ∧
      (z = 0 ∧ P = outside addr (addr+len) (pages s.mm.core (A ++ x :: B)) ∨
        z ≠ 0 ∧ P = pages (stuckCore s.mm.core x vmFlags) (A ++ x :: B) ∧
          ¬CanUnmap conf s (s.mm.core x) addr len) := by
  dsimp only
  have hacct : (s.mm.core x).vmFlags.has VM_ACCOUNT = vmFlags.has VM_ACCOUNT :=
    has_of_clean hfl (by decide)
  have hmask : ~~~VM_SOFTDIRTY &&& VM_CLASS = VM_CLASS := by decide
  have hstat : ∀ k, statVec (s.mm.core x).vmFlags k = statVec vmFlags k :=
    statVec_congr (by rw [← cleanFlags_and hmask, hfl, cleanFlags_and hmask])
  unfold moveDone stuckCore moveCounted
  dsimp only
  generalize BitVec.ofNat 64 (newLen/4096) = k
  set r := if vmFlags.has VM_ACCOUNT then
      unmapCharged rb conf (s.setMm
        (vmStatAccount (concealAcct s.mm x) ((concealAcct s.mm x).vma x).vmFlags k)) x addr len
        ((s.mm.vma x).vmEnd-(s.mm.vma x).vmStart-len)
        (decide ((s.mm.vma x).vmStart < addr) && decide (addr+len < (s.mm.vma x).vmEnd))
    else unmapCharged rb conf (s.setMm (vmStatAccount s.mm (s.mm.vma x).vmFlags k)) x addr len 0
      false with hr
  set z :=
    (doMunmap rb conf
      (s.setMm (vmStatAccount (if vmFlags.has VM_ACCOUNT then concealAcct s.mm x else s.mm)
    ((if vmFlags.has VM_ACCOUNT then concealAcct s.mm x else s.mm).vma x).vmFlags k)) addr
      len).1 with hz
  obtain ⟨L', P, d, hacts, hguard, hP⟩ : ∃ L' P d, Acts s (A ++ x :: B) r L' P
        (statVec vmFlags k + lockVec d + acctVec
          (if vmFlags.has VM_ACCOUNT then (len/4096 : ℕ) else 0)) ∧
      (LockGuard s (pages s.mm.core (A ++ x :: B)) → d = 0) ∧
      (z = 0 ∧ P = outside addr (addr+len) (pages s.mm.core (A ++ x :: B)) ∨
        z ≠ 0 ∧ P = pages
        (if vmFlags.has VM_ACCOUNT then Function.update s.mm.core x (s.mm.core x).uncharged else
          s.mm.core) (A ++ x :: B) ∧ ¬CanUnmap conf s (s.mm.core x) addr len) := by
    by_cases ha : vmFlags.has VM_ACCOUNT = true
    · rw [if_pos ha] at hr hz
      rw [hr, hz, if_pos ha, if_pos ha, ← hstat]
      exact unmapMoved_charged rb conf k h hs he hd (hacct.trans ha)
    · rw [if_neg ha] at hr hz
      rw [hr, hz, if_neg ha, if_neg ha, acctVec_zero, ← hstat]
      obtain ⟨L', P, d, hacts, hrest⟩ := unmapMoved_uncharged rb conf k h hs he hd
      exact ⟨L', P, d, by rw [add_zero]; exact hacts, hrest⟩
  refine ⟨L', P, d, ?_, hguard, hP⟩
  split
  · have hlock := hacts.trans (acts_lock hacts.wf k)
    rw [hacts.pages] at hlock
    convert hlock using 1
    abel
  · rw [lockVec_zero, add_zero]
    exact hacts

end PtraceRemote
