import PtraceRemote.MmProt
import PtraceRemote.MmMapInv

/-! `mprotect`: the pages of the range change their flags, the books stay balanced. -/
namespace PtraceRemote

open AugTree (Balance)

variable {mm : Mm} {s s' : MmSys} {rb : Balance VmaId} {env : MmEnv} {L L' A B : List VmaId}
  {x y : VmaId} {q : MergeReq} {start end_ addr len : ℕ} {G : Prop} {flags : VmFlags}

theorem splitVma_spec (rb : Balance VmaId) (conf : MmConf) (newBelow : Bool)
    (h : Wf s.mm (A ++ x :: B)) (hs : (s.mm.core x).vmStart < addr)
    (he : addr < (s.mm.core x).vmEnd) (hd : 4096 ∣ addr) :
    let r := splitVma rb conf s x addr newBelow
    (r.1 ≠ 0 ∧ Same s r.2 (A ++ x :: B)) ∨ r.1 = 0 ∧ ∃ n, SplitAt s r.2 A x B addr newBelow n := by
  dsimp only
  unfold splitVma
  split
  next => exact .inl ⟨show -ENOMEM ≠ 0 by decide, Same.refl h⟩
  next => exact splitVmaNoLimit_spec rb newBelow h hs he hd

def Vma.cut (v : Vma) (start end_ : ℕ) : Vma :=
  { v with
    vmStart := start, vmEnd := end_
    vmPgoff := v.vmPgoff+BitVec.ofNat 64 ((start-v.vmStart)/4096) }

theorem cut_weight (v : Vma) : (v.cut start end_).weight single = v.part single start end_ := rfl

/-- Cutting a range out of an area: afterwards `x` is that range. -/
theorem protSplit_spec (rb : Balance VmaId) (conf : MmConf) (h : Wf s.mm (A ++ x :: B))
    (hr : RangeOk start end_) (hs : (s.mm.core x).vmStart ≤ start)
    (he : end_ ≤ (s.mm.core x).vmEnd) :
    let r := protSplit rb conf s x start end_
    (r.1 ≠ 0 ∧ ∃ L', Does G s (A ++ x :: B) r.2 L' (pages s.mm.core (A ++ x :: B)) 0) ∨
      r.1 = 0 ∧ ∃ A' B',
        Does G s (A ++ x :: B) r.2 (A' ++ x :: B') (pages s.mm.core (A ++ x :: B)) 0 ∧
        r.2.mm.core x = (s.mm.core x).cut start end_ ∧ (end_ = (s.mm.core x).vmEnd → B' = B) := by
  dsimp only
  unfold protSplit
  dsimp only
  have hxo := h.ordered.area x (by simp)
  -- the cut at the start leaves `x` in front of `B`
  have hfirst : let r :=
    if start ≠ (s.mm.vma x).vmStart then splitVma rb conf s x start true else (0, s)
      (r.1 ≠ 0 ∧ Does G s (A ++ x :: B) r.2 (A ++ x :: B) (pages s.mm.core (A ++ x :: B)) 0) ∨
      r.1 = 0 ∧ ∃ A', Does G s (A ++ x :: B) r.2 (A' ++ x :: B) (pages s.mm.core (A ++ x :: B)) 0 ∧
        r.2.mm.core x = (s.mm.core x).cut start (s.mm.core x).vmEnd := by
    dsimp only
    split
    next hne =>
      have hlt : (s.mm.core x).vmStart < start := lt_of_le_of_ne hs (Ne.symm hne)
      have hlt' : start < (s.mm.core x).vmEnd := hr.lt.trans_le he
      rcases splitVma_spec rb conf true h hlt hlt' hr.start_dvd with ⟨hz, hsame⟩ | ⟨hz, n, hsplit⟩
      · exact .inl ⟨hz, hsame.does⟩
      · have hdoes := hsplit.does (G := G) hxo hlt hlt' hr.start_dvd
        have hlist : A ++ (halves x n true ++ B) = (A ++ [n]) ++ x :: B := by simp [halves]
        rw [hlist] at hdoes
        exact .inr ⟨hz, A ++ [n], hdoes, hsplit.kept⟩
    next heq =>
      refine .inr ⟨rfl, A, (Same.refl h).does, ?_⟩
      have heq : start = (s.mm.core x).vmStart := not_not.1 heq
      rw [Vma.cut, heq, Nat.sub_self, Nat.zero_div, BitVec.add_zero]
  dsimp only at hfirst
  set first := if start ≠ (s.mm.vma x).vmStart then splitVma rb conf s x start true else (0, s)
  rcases hfirst with ⟨hz, hdoes⟩ | ⟨hz, A', hdoes, hcore⟩
  · rw [if_pos hz]
    exact .inl ⟨hz, _, hdoes⟩
  · rw [if_neg (not_not.2 hz)]
    have hxend : (first.2.mm.vma x).vmEnd = (s.mm.core x).vmEnd := (congrArg Vma.vmEnd hcore :)
    rw [hxend]
    split
    next hne =>
      have hlt : (first.2.mm.core x).vmStart < end_ := by rw [hcore]; exact hr.lt
      have hlt' : end_ < (first.2.mm.core x).vmEnd := by rw [hcore]; exact lt_of_le_of_ne he hne
      rcases splitVma_spec rb conf false hdoes.wf hlt hlt' hr.end_dvd with
        ⟨hz', hsame⟩ | ⟨hz', n, hsplit⟩
      · have hd := hsame.does (G := G)
        rw [hdoes.pages] at hd
        exact .inl ⟨hz', _, by simpa using hdoes.trans hd id⟩
      · have hd := hsplit.does (G := G) (hdoes.wf.ordered.area x (by simp)) hlt hlt' hr.end_dvd
        have hlist : A' ++ (halves x n false ++ B) = A' ++ x :: (n :: B) := by simp [halves]
        rw [hlist, hdoes.pages] at hd
        refine .inr ⟨hz', A', n :: B, by simpa using hdoes.trans hd id, ?_,
          fun heq => absurd heq hne⟩
        rw [hsplit.kept, hcore]
        rfl
    next heq =>
      have heq : end_ = (s.mm.core x).vmEnd := not_not.1 heq
      exact .inr ⟨rfl, A', B, hdoes, by rw [hcore, heq], fun _ => rfl⟩

/-- The area that has taken over the request: where it is, what it shows and how far it reaches. -/
theorem InsideMerge.merged {core core' : VmaId → Vma} {v : VmaId} {k : ℤ}
    (h : InsideMerge core q A x B v L' core' k) (ho : Ordered core (A ++ x :: B))
    (hnd : (A ++ x :: B).Nodup) :
    ∃ A' B', L' = A' ++ v :: B' ∧ cleanFlags (core' v).vmFlags = cleanFlags q.vmFlags ∧
      (core' v).vmStart ≤ q.addr ∧ q.end_ ≤ (core' v).vmEnd ∧
      (q.end_ = (core x).vmEnd → B'.length ≤ B.length) := by
  have hx := notMem_of_nodup hnd
  cases h with
  | @case4 B' _ hB hs he hj =>
    subst hB
    have hn := (ho.area v (by simp)).lt
    refine ⟨A ++ [x], B', by simp, ?_⟩
    rw [shifted, Function.update_self]
    refine ⟨hj.flags, le_rfl, ?_, fun _ => by simp⟩
    show q.end_ ≤ (core v).vmEnd
    rw [hj.at_end]
    exact hn.le
  | @case5 A' _ hA hs he hj =>
    subst hA
    have hne : v ≠ x := fun hvx => hx.1 (by simp [hvx])
    have hv := (ho.area v (by simp)).lt
    refine ⟨A', x :: B, by simp, ?_⟩
    rw [shifted, Function.update_of_ne hne, Function.update_self]
    exact ⟨hj.flags, (hj.at_addr ▸ hv).le, le_rfl, fun heq => absurd heq he.ne⟩
  | @case6 A' B' _ n hA hB hs he hj hj' =>
    subst hA hB
    have hn := (ho.area n (by simp)).lt
    have hv := (ho.area v (by simp)).lt
    refine ⟨A', B', by simp, ?_⟩
    rw [Function.update_self]
    refine ⟨hj.flags, (hj.at_addr ▸ hv).le, ?_, fun _ => by simp⟩
    show q.end_ ≤ (core n).vmEnd
    rw [hj'.at_end]
    exact hn.le
  | @case7 A' _ hA hs he hj =>
    subst hA
    have hv := (ho.area v (by simp)).lt
    refine ⟨A', B, by simp, ?_⟩
    rw [Function.update_self]
    exact ⟨hj.flags, (hj.at_addr ▸ hv).le, he.le, fun _ => le_rfl⟩
  | @case8 B' _ hB hs he hj =>
    subst hB
    have hn := (ho.area v (by simp)).lt
    refine ⟨A, B', rfl, ?_⟩
    rw [Function.update_self]
    refine ⟨hj.flags, le_rfl, ?_, fun _ => by simp⟩
    show q.end_ ≤ (core v).vmEnd
    rw [hj.at_end]
    exact hn.le

theorem InsideMerge.ledger {core' : VmaId → Vma} {v : VmaId} {k : ℤ}
    (h : InsideMerge s.mm.core q A x B v L' core' k) (hw : Wf s.mm (A ++ x :: B))
    (hr : RangeOk q.addr q.end_) (hf : (s.mm.core x).vmFile = q.file)
    (hadj : Adjusted s s' L' core' q.file k) : PtraceRemote.ledger s' L' =
      PtraceRemote.ledger s (A ++ x :: B) + charge ((s.mm.core x).part single q.addr q.end_) -
        charge (q.weight single) := by
  have hpages : pages core' L' + (s.mm.core x).part single q.addr q.end_ =
      pages s.mm.core (A ++ x :: B) + q.weight single := h.total hw.ordered hw.rep.nodup hr
  have hch := congrArg charge hpages
  rw [charge_add, charge_add] at hch
  have hrefs : references core' L' = references s.mm.core (A ++ x :: B) - refVec q.file k := by
    simp only [references, refVec, Prod.mk_sub_mk, sub_zero]
    congr 6
    funext f
    exact h.refs hw.rep.nodup hf
  rw [PtraceRemote.ledger, hadj.core, hrefs, counters_dropRefs hadj.rest hadj.fCount hadj.committed,
    eq_sub_of_add_eq hch, PtraceRemote.ledger]
  abel

theorem protDone_spec (oldflags newflags : VmFlags) (h : Wf s.mm (A ++ y :: B)) (n : BitVec 64) :
    let s' := protDone s y oldflags newflags n
    Wf s'.mm (A ++ y :: B) ∧
      s'.mm.core = Function.update s.mm.core y { s.mm.core y with vmFlags := newflags } ∧
      counters s' = counters s + (statVec newflags n - statVec oldflags n) ∧
        s'.mm.fixed = s.mm.fixed := by
  dsimp only
  unfold protDone
  dsimp only
  set mm₁ := s.mm.modVma y fun v => { v with vmFlags := newflags }
  have hshape : (vmStatAccount (vmStatAccount mm₁ oldflags (-n)) newflags n).shape = mm₁.shape := by
    rw [shape_vmStatAccount, shape_vmStatAccount]
  refine ⟨?_, ?_, ?_, ?_⟩
  · have hwf : Wf mm₁ (A ++ y :: B) := h.modVma ⟨rfl, rfl⟩
    exact hwf.of_shape hshape
  · exact (core_of_shape hshape).trans (core_modVma _)
  · have h₁ := counters_vmStatAccount (s.setMm mm₁) oldflags (-n)
    have h₂ := counters_vmStatAccount (s.setMm (vmStatAccount mm₁ oldflags (-n))) newflags n
    refine h₂.trans ?_
    have h₃ : counters (s.setMm (vmStatAccount mm₁ oldflags (-n))) =
      counters s + statVec oldflags (-n) := h₁
    rw [h₃, statVec_neg]
    abel
  · exact (congrArg (fun m : Mm => m.rest) hshape : _)

/-- The place of the area before a range in `x`, as `mprotect` keeps track of it. -/
def PrevOf (core : VmaId → Vma) (A : List VmaId) (x : VmaId) (start : ℕ) (prev : Option VmaId) :
    Prop :=
  start = (core x).vmStart ∧ prev = A.getLast? ∨ (core x).vmStart < start ∧ prev = some x

def Vma.repaint (v : Vma) (start end_ : ℕ) (flags : VmFlags) : Pages :=
  blockPages start end_ v.vmFile (v.vmPgoff+BitVec.ofNat 64 ((start-v.vmStart)/4096)) flags

structure Spans (v : Vma) (start end_ : ℕ) (flags : VmFlags) : Prop where
  start_le : v.vmStart ≤ start
  le_end : end_ ≤ v.vmEnd
  flags : cleanFlags v.vmFlags = cleanFlags flags

def Protects (G : Prop) (s : MmSys) (A : List VmaId) (x : VmaId) (B : List VmaId) (start end_ : ℕ)
    (flags : VmFlags) (r : ℤ × Option VmaId × MmSys) (c : ℤ) : Prop :=
  (r.1 ≠ 0 ∧ ∃ L', Does G s (A ++ x :: B) r.2.2 L' (pages s.mm.core (A ++ x :: B)) c) ∨
    r.1 = 0 ∧ ∃ A' y B' P, r.2.1 = some y ∧ Does G s (A ++ x :: B) r.2.2 (A' ++ y :: B') P c ∧
      P + (s.mm.core x).part single start end_ =
        pages s.mm.core (A ++ x :: B) + (s.mm.core x).repaint start end_ flags ∧
      Spans (r.2.2.mm.core y) start end_ flags ∧ (end_ = (s.mm.core x).vmEnd → B'.length ≤ B.length)

def acctPages (flags : VmFlags) (n : ℕ) : ℤ := if flags.has VM_ACCOUNT then n else 0

/-- The counters are moved from the old flags to the new ones. -/
theorem charge_repaint {v : Vma} (hlock : flags.has VM_LOCKED = v.vmFlags.has VM_LOCKED) :
    charge (v.repaint start end_ flags) - charge (v.part single start end_) =
      statVec flags (BitVec.ofNat 64 ((end_-start)/4096)) - statVec v.vmFlags
        (BitVec.ofNat 64 ((end_-start)/4096)) +
        acctVec
          (acctPages flags ((end_-start)/4096) - acctPages v.vmFlags ((end_-start)/4096)) := by
  have hpart : charge (v.part single start end_) = _ := charge_block
  rw [hpart, Vma.repaint, charge_block, hlock, sub_eq_add_neg (acctPages _ _), acctVec_add,
    acctVec_neg]
  unfold acctPages
  abel

/-- Setting flags that differ in the soft-dirty bit only does not change what is shown. -/
theorem weight_congr {v w : Vma} (h : cleanFlags w.vmFlags = cleanFlags v.vmFlags)
    (hw : w = { v with vmFlags := w.vmFlags }) : w.weight single = v.weight single := by
  rw [hw]
  exact blockSum_congr h

theorem protApply_merged {v : VmaId} {core' : VmaId → Vma} {k : ℤ} (h : Wf s.mm (A ++ x :: B))
    (hr : RangeOk q.addr q.end_) (hf : (s.mm.core x).vmFile = q.file)
    (hp : q.pgoff = (s.mm.core x).vmPgoff+BitVec.ofNat 64 ((q.addr-(s.mm.core x).vmStart)/4096))
    (hlock : q.vmFlags.has VM_LOCKED = (s.mm.core x).vmFlags.has VM_LOCKED)
    (hm : InsideMerge s.mm.core q A x B v L' core' k) (hadj : Adjusted s s' L' core' q.file k) :
    Protects G s A x B q.addr q.end_ q.vmFlags
      (0, some v,
        protDone s' v (s.mm.core x).vmFlags q.vmFlags (BitVec.ofNat 64 ((q.end_-q.addr)/4096)))
      (acctPages (s.mm.core x).vmFlags ((q.end_-q.addr)/4096) - acctPages q.vmFlags
        ((q.end_-q.addr)/4096)) := by
  have hbooks := hm.ledger h hr hf hadj
  have hpages : pages core' L' + (s.mm.core x).part single q.addr q.end_ =
      pages s.mm.core (A ++ x :: B) + q.weight single := hm.total h.ordered h.rep.nodup hr
  have hq : q.weight single = (s.mm.core x).repaint q.addr q.end_ q.vmFlags := by
    rw [MergeReq.weight, ← hf, hp, Vma.repaint, blockPages]
  rw [hq] at hbooks hpages
  obtain ⟨A', B', rfl, hflags, hstart, hend, hlen⟩ := hm.merged h.ordered h.rep.nodup
  rw [← hadj.core] at hflags hstart hend hpages
  have hnot := hadj.wf.rep.notMem
  obtain ⟨hwf, hcore, hcount, hfixed⟩ := protDone_spec (s.mm.core x).vmFlags q.vmFlags
    hadj.wf (BitVec.ofNat 64 ((q.end_-q.addr)/4096))
  -- the merged area has the new flags already, so setting them changes the counters only
  have hsame : ({ s'.mm.core v with vmFlags := q.vmFlags } : Vma).weight single =
      (s'.mm.core v).weight single :=
    weight_congr hflags.symm rfl
  have hpg : pages _ (A' ++ v :: B') + _ = pages s'.mm.core (A' ++ v :: B') + _ :=
    pages_update (w := { s'.mm.core v with vmFlags := q.vmFlags }) hnot
  rw [hsame, add_left_inj, ← hcore] at hpg
  have hled := ledger_update hnot hcore rfl hcount
  rw [hsame, add_sub_cancel_right, hbooks] at hled
  refine .inr ⟨rfl, A', v, B', _, rfl, Does.of_eq hwf rfl ?_ ?_, by rw [hpg, hpages], ?_, hlen⟩
  · have hrep : charge ((s.mm.core x).repaint q.addr q.end_ q.vmFlags) -
        charge ((s.mm.core x).part single q.addr q.end_) = _ := charge_repaint hlock
    rw [hled, add_sub_assoc, ← neg_sub (charge (Vma.repaint ..)), hrep,
      ← neg_sub (acctPages q.vmFlags _), acctVec_neg]
    abel
  · rw [hfixed, fixed_of_rest hadj.rest]
  · rw [hcore, Function.update_self]
    exact ⟨hstart, hend, rfl⟩

/-- Cutting the range out and setting its flags. -/
theorem protApply_split {A' B' : List VmaId}
    (hlock : flags.has VM_LOCKED = (s.mm.core x).vmFlags.has VM_LOCKED)
    (hd : Does G s (A ++ x :: B) s' (A' ++ x :: B') (pages s.mm.core (A ++ x :: B)) 0)
    (hcut : s'.mm.core x = (s.mm.core x).cut start end_)
    (hlen : end_ = (s.mm.core x).vmEnd → B' = B) :
    Protects G s A x B start end_ flags
      (0, some x, protDone s' x (s.mm.core x).vmFlags flags (BitVec.ofNat 64 ((end_-start)/4096)))
      (acctPages (s.mm.core x).vmFlags ((end_-start)/4096) - acctPages flags
        ((end_-start)/4096)) := by
  have hnot := hd.wf.rep.notMem
  obtain ⟨hwf, hcore, hcount, hfixed⟩ := protDone_spec (s.mm.core x).vmFlags flags hd.wf
    (BitVec.ofNat 64 ((end_-start)/4096))
  have hpart : (s'.mm.core x).weight single = (s.mm.core x).part single start end_ := by
    rw [hcut]
    exact cut_weight _
  have hnew : ({ s'.mm.core x with vmFlags := flags } : Vma).weight single =
      (s.mm.core x).repaint start end_ flags := by
    rw [hcut]
    rfl
  have hpg : pages _ (A' ++ x :: B') + _ = pages s'.mm.core (A' ++ x :: B') + _ :=
    pages_update (w := { s'.mm.core x with vmFlags := flags }) hnot
  rw [hpart, hnew, ← hcore, hd.pages] at hpg
  have hled := ledger_update hnot hcore rfl hcount
  rw [hpart, hnew] at hled
  obtain ⟨d, hkept, hG⟩ := hd.kept
  have hrep : charge ((s.mm.core x).repaint start end_ flags) - charge
      ((s.mm.core x).part single start end_) = _ :=
    charge_repaint hlock
  refine .inr ⟨rfl, A', x, B', _, rfl, ⟨hwf, rfl, ⟨d, ?_, hG⟩, hfixed.trans hd.fixed⟩, hpg, ?_, ?_⟩
  · rw [hled, hkept, acctVec_zero, add_sub_assoc, ← neg_sub (charge (Vma.repaint ..)), hrep,
      ← neg_sub (acctPages flags _), acctVec_neg]
    abel
  · rw [hcore, Function.update_self, hcut]
    exact ⟨le_rfl, le_rfl, rfl⟩
  · intro he
    rw [hlen he]

/-- A merge for a part of the area `x`, from the `prev` that the loop keeps. -/
theorem vmaMerge_inside {q : MergeReq} (rb : Balance VmaId) {prev : Option VmaId}
    (h : Wf s.mm (A ++ x :: B)) (hr : RangeOk q.addr q.end_) (he : q.end_ ≤ (s.mm.core x).vmEnd)
    (hprev : PrevOf s.mm.core A x q.addr prev) (hfile : (s.mm.core x).vmFile = q.file) :
    ((vmaMerge rb s prev q).1 = none ∧ Quiet s (vmaMerge rb s prev q).2) ∨
      ∃ v L' core' k, (vmaMerge rb s prev q).1 = some v ∧
        InsideMerge s.mm.core q A x B v L' core' k ∧
        Adjusted s (vmaMerge rb s prev q).2 L' core' q.file k := by
  rcases hprev with ⟨heq, rfl⟩ | ⟨hlt, rfl⟩
  · refine (vmaMerge_front h hr heq he).imp_right ?_
    rintro ⟨v, L', core', k, file, hv, hm, hor, hadj⟩
    obtain rfl : file = q.file := hor.elim id fun hx => hx.trans hfile
    exact ⟨v, L', core', k, hv, hm, hadj⟩
  · exact vmaMerge_behind h hr hlt he

/-- The part of `mprotect_fixup` after the charge. -/
theorem protApply_spec (rb : Balance VmaId) (conf : MmConf) {prev : Option VmaId} (charged : ℤ)
    (h : Wf s.mm (A ++ x :: B)) (hr : RangeOk start end_) (hs : (s.mm.core x).vmStart ≤ start)
    (he : end_ ≤ (s.mm.core x).vmEnd) (hprev : PrevOf s.mm.core A x start prev)
    (hlock : flags.has VM_LOCKED = (s.mm.core x).vmFlags.has VM_LOCKED)
    (hc : charged =
      acctPages flags ((end_-start)/4096) - acctPages (s.mm.core x).vmFlags ((end_-start)/4096)) :
    Protects G s A x B start end_ flags (protApply rb conf s x prev start end_ flags charged)
      (-charged) := by
  unfold protApply
  dsimp only
  set q : MergeReq := ⟨start, end_, flags, (s.mm.vma x).anonVma, (s.mm.vma x).vmFile,
    (s.mm.vma x).vmPgoff+BitVec.ofNat 64 ((start-(s.mm.vma x).vmStart)/4096), (s.mm.vma x).policy,
    (s.mm.vma x).uffdCtx⟩ with hq
  have hmerge := vmaMerge_inside (q := q) rb h hr he hprev rfl
  rcases hmerge with ⟨hnone, hquiet⟩ | ⟨v, L', core', k, hsome, hm, hadj⟩
  · rw [hnone]
    dsimp only
    generalize (vmaMerge rb s prev q).2 = s₁ at hquiet
    have hcore := hquiet.core
    have hx : s₁.mm.core x = s.mm.core x := congrFun hcore x
    have hsame : Does G s (A ++ x :: B) s₁ (A ++ x :: B) (pages s.mm.core (A ++ x :: B)) 0 :=
      (hquiet.same h).does
    rcases protSplit_spec (G := G) rb conf (hquiet.wf h) hr (by rwa [hx]) (by rwa [hx]) with
      ⟨hz, L', hd⟩ | ⟨hz, A', B', hd, hcut, hlen⟩
    · rw [if_pos hz]
      rw [hcore] at hd
      have hfail := (hsame.trans hd id).unacct charged
      rw [add_zero, zero_sub] at hfail
      exact .inl ⟨hz, L', hfail⟩
    · rw [if_neg (not_not.2 hz)]
      rw [hcore] at hd
      rw [hx] at hcut hlen
      have hall := hsame.trans hd id
      rw [add_zero] at hall
      have hprot := protApply_split hlock hall hcut hlen
      rwa [← neg_sub (acctPages flags _), ← hc] at hprot
  · rw [hsome]
    have hfile : (s.mm.core x).vmFile = q.file := rfl
    have hpgoff :
        q.pgoff = (s.mm.core x).vmPgoff+BitVec.ofNat 64 ((q.addr-(s.mm.core x).vmStart)/4096) := rfl
    have hprot := protApply_merged (q := q) (G := G) h hr hfile hpgoff hlock hm hadj
    rwa [← neg_sub (acctPages q.vmFlags _), ← hc] at hprot

theorem has_of_sub {a m k : VmFlags} (hk : k &&& m = k) (h : a.has m = false) :
    a.has k = false := by
  simp only [VmFlags.has, bne_eq_false_iff_eq] at h ⊢
  rw [← hk, BitVec.and_comm k, ← BitVec.and_assoc, h]
  exact BitVec.zero_and

/-- Work that starts from a state with the same address space and other books. -/
theorem Protects.after {r : ℤ × Option VmaId × MmSys} {c c' : ℤ}
    (hd : Does G s (A ++ x :: B) s' (A ++ x :: B) (pages s.mm.core (A ++ x :: B)) c)
    (hmm : s'.mm = s.mm) (hp : Protects G s' A x B start end_ flags r c') :
    Protects G s A x B start end_ flags r (c+c') := by
  unfold Protects at hp
  rw [hmm] at hp
  rcases hp with ⟨hz, L', hd'⟩ | ⟨hz, A', y, B', P, hy, hd', hrest⟩
  · exact .inl ⟨hz, L', hd.trans hd' id⟩
  · exact .inr ⟨hz, A', y, B', P, hy, hd.trans hd' id, hrest⟩

/-- `mprotect_fixup` for flags that agree with the old ones on `VM_LOCKED` and `VM_ACCOUNT`. -/
theorem mprotectFixup_spec (rb : Balance VmaId) (env : MmEnv) {prev : Option VmaId}
    (h : Wf s.mm (A ++ x :: B)) (hr : RangeOk start end_) (hs : (s.mm.core x).vmStart ≤ start)
    (he : end_ ≤ (s.mm.core x).vmEnd) (hprev : PrevOf s.mm.core A x start prev)
    (hlock : flags.has VM_LOCKED = (s.mm.core x).vmFlags.has VM_LOCKED)
    (hacct : flags.has VM_ACCOUNT = (s.mm.core x).vmFlags.has VM_ACCOUNT) :
    ∃ flags', (flags' = flags ∨ flags' = flags ||| VM_ACCOUNT) ∧
      Protects G s A x B start end_ flags' (mprotectFixup rb env s x prev start end_ flags) 0 := by
  have hsame : Does G s (A ++ x :: B) s (A ++ x :: B) (pages s.mm.core (A ++ x :: B)) 0 :=
    (Same.refl h).does
  unfold mprotectFixup
  dsimp only
  split
  next heq =>
    refine ⟨flags, .inl rfl, .inr ⟨rfl, A, x, B, _, rfl, hsame, ?_, ⟨hs, he, ?_⟩, fun _ => le_rfl⟩⟩
    · rw [heq]
      rfl
    · rw [heq]
      rfl
  split
  next => exact ⟨flags, .inl rfl, .inl ⟨show -ENOMEM ≠ 0 by decide, _, hsame⟩⟩
  split
  next hcond =>
    obtain ⟨hmm, hres⟩ := vmEnoughMemory_spec (G := G) h ((end_-start)/4096 : ℕ)
    generalize vmEnoughMemory s ((end_-start)/4096 : ℕ) = t at hmm hres
    refine ⟨flags ||| VM_ACCOUNT, .inr rfl, ?_⟩
    rcases hres with ⟨hz, hfail⟩ | ⟨hz, hdoes⟩
    · rw [if_pos hz]
      exact .inl ⟨show -ENOMEM ≠ 0 by decide, _, hfail.does⟩
    · rw [if_neg (not_not.2 hz)]
      have hcore : t.2.mm.core = s.mm.core := by rw [hmm]
      have hold : (s.mm.core x).vmFlags.has VM_ACCOUNT = false := has_of_sub (by decide) hcond.2
      have hprot : Protects G t.2 A x B start end_ (flags ||| VM_ACCOUNT) _ _ :=
        protApply_spec rb env.conf ((end_-start)/4096 : ℕ) (by rwa [hmm]) hr (by rwa [hcore])
          (by rwa [hcore]) (by rwa [hcore]) (by rw [hcore, has_or_of_disjoint (by decide), hlock])
          (by rw [hcore, acctPages, acctPages, hold, has_or_self (by decide)]; simp)
      have hall := hprot.after hdoes hmm
      rwa [add_neg_cancel] at hall
  next hcond =>
    have hprot : Protects G s A x B start end_ flags _ _ :=
      protApply_spec rb env.conf 0 h hr hs he hprev hlock
      (by rw [acctPages, acctPages, hacct, sub_self])
    rw [neg_zero] at hprot
    exact ⟨flags, .inl rfl, hprot⟩

end PtraceRemote
