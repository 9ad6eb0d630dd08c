import OsSim.MemoryArithmetic
import OsSim.MemoryConstructors
import OsSim.MemoryLedger

/-!
# The free list in memory

`get_free_vmrg_area` works in place on nodes that are linked by pointers: it moves the
start of the first node that is long enough, overwrites a node that fits exactly by its
successor and frees that one, or leaves the last node empty. The head pointer is never
written. In every case the list afterwards is the one the allocator model computes, and
together with the region returned it has the bytes of the list before.
-/

namespace OsSim.MemoryFreeList

open MemoryWords MemoryPageTable MemoryLibrary MemoryConstructors MemoryRegions
open MemoryArithmetic MemoryLedger LinkedHeap SpanCover

/-- The loop of `get_free_vmrg_area` for at most so many turns, `none` if it takes more:
`newrg` and the heap behind it. What a freed node holds is left to the allocator. -/
def freergWalk (left : ℕ → Node VmRg) (size : CInt) :
    ℕ → Option ℕ → VmRg → Heap VmRg → Option (VmRg × Heap VmRg)
  | 0, _, _, _ => none
  | _ + 1, none, newrg, h => some (newrg, h)
  | n + 1, some rgit, newrg, h =>
    let rg := (h.cell rgit).value
    if rg.rgStart + toAddr size ≤ rg.rgEnd then
      let newrg : VmRg := ⟨rg.rgStart, rg.rgStart + toAddr size⟩
      if rg.rgStart + toAddr size < rg.rgEnd then
        some (newrg, h.setValue rgit ⟨rg.rgStart + toAddr size, rg.rgEnd⟩)
      else
        match (h.cell rgit).next with
        | some nextrg =>
          let h := h.setValue rgit (h.cell nextrg).value
          let h := h.setNext rgit (h.cell nextrg).next
          some (newrg, h.free left nextrg)
        | none => some (newrg, (h.setValue rgit ⟨rg.rgEnd, rg.rgEnd⟩).setNext rgit none)
    else freergWalk left size n (h.cell rgit).next newrg h

/-- `get_free_vmrg_area` on the area found: the status, `*newrg` and the heap. -/
def getFreeVmrgArea (left : ℕ → Node VmRg) (n : ℕ) (curVma : VmAreaCell) (size : CInt)
    (newrg : VmRg) (h : Heap VmRg) : Option (Int × VmRg × Heap VmRg) :=
  match curVma.vmFreergList with
  | none => some (-1, newrg, h)
  | some rgit =>
    (freergWalk left size n (some rgit) ⟨-1, -1⟩ h).map fun r =>
      (if r.1.rgStart = -1 then -1 else 0, r.1, r.2)

/-! ## The list the walk leaves -/

/-- At a node that is long enough the walk ends, with one of three edits of the list. -/
theorem freergWalk_fits (left : ℕ → Node VmRg) (size : CInt) {n a : ℕ} (newrg : VmRg)
    {h : Heap VmRg} {as : List ℕ} {l : List VmRg} (hl : Holds h.cell (some a) (a :: as) l)
    (hfit : (h.cell a).value.rgStart + toAddr size ≤ (h.cell a).value.rgEnd) :
    ∃ h' as', freergWalk left size (n + 1) (some a) newrg h =
        some ((MemoryLibrary.freergWalk size l).1, h') ∧
      Holds h'.cell (some a) as' (MemoryLibrary.freergWalk size l).2 ∧
      (∀ b ∈ as', b ∈ a :: as) ∧ ∀ b, b ∉ a :: as → h'.cell b = h.cell b := by
  obtain ⟨_, hnot, rest, rfl, hrest⟩ := hl.uncons
  rw [freergWalk, MemoryLibrary.freergWalk, if_pos hfit, if_pos hfit]
  dsimp only
  by_cases hlt : (h.cell a).value.rgStart + toAddr size < (h.cell a).value.rgEnd
  · -- the node loses its front
    rw [if_pos hlt, if_pos hlt]
    refine ⟨_, a :: as, rfl, hl.setValue _, fun _ hb => hb, fun b hb => ?_⟩
    exact setValue_of_ne _ (List.ne_of_not_mem_cons hb) _
  · rw [if_neg hlt, if_neg hlt]
    cases as with
    | nil =>
      -- the last node is emptied
      obtain ⟨hnull, rfl⟩ := hrest
      have hnext : (h.cell a).next = none := hnull
      rw [hnext]
      refine ⟨_, [a], rfl, (hl.setValue _).setNext_none, fun _ hb => hb, fun b hb => ?_⟩
      rw [setNext_of_ne _ (List.ne_of_not_mem_cons hb),
        setValue_of_ne _ (List.ne_of_not_mem_cons hb)]
    | cons b as =>
      -- the successor is copied into the node and freed
      obtain ⟨hnext, _, rest', rfl, _⟩ := hrest.uncons
      have hba : b ≠ a := ne_of_mem_of_not_mem List.mem_cons_self hnot
      rw [hnext]
      dsimp only
      rw [setValue_of_ne _ hba]
      refine ⟨_, a :: as, rfl, hl.absorb left, fun c hc => ?_, fun c hc => ?_⟩
      · rcases List.mem_cons.mp hc with rfl | hc
        · exact List.mem_cons_self
        · exact List.mem_cons_of_mem _ (List.mem_cons_of_mem _ hc)
      · rw [List.mem_cons, List.mem_cons, not_or, not_or] at hc
        rw [Heap.free]
        dsimp only
        rw [Function.update_of_ne hc.2.1, setNext_of_ne _ hc.1, setValue_of_ne _ hc.1]

/-- What the walk does to a null-terminated list: from the same pointer on, its nodes hold
the list of the allocator model, and no other node is written. -/
theorem freergWalk_refines (left : ℕ → Node VmRg) (size : CInt) {n : ℕ} {p : Option ℕ}
    {h : Heap VmRg} {as : List ℕ} {l : List VmRg} (hl : Holds h.cell p as l)
    (hn : as.length < n) :
    ∃ h' as', freergWalk left size n p ⟨-1, -1⟩ h =
        some ((MemoryLibrary.freergWalk size l).1, h') ∧
      Holds h'.cell p as' (MemoryLibrary.freergWalk size l).2 ∧
      (∀ a ∈ as', a ∈ as) ∧ ∀ a, a ∉ as → h'.cell a = h.cell a := by
  induction as generalizing p n l with
  | nil =>
    obtain ⟨m, rfl⟩ := Nat.exists_eq_succ_of_ne_zero (Nat.ne_of_gt hn)
    obtain ⟨rfl, rfl⟩ := hl
    exact ⟨h, [], rfl, ⟨rfl, rfl⟩, fun _ ha => ha, fun _ _ => rfl⟩
  | cons a as ih =>
    obtain ⟨m, rfl⟩ := Nat.exists_eq_succ_of_ne_zero (Nat.ne_of_gt (Nat.zero_lt_of_lt hn))
    obtain ⟨rfl, hnot, rest, rfl, hrest⟩ := hl.uncons
    by_cases hfit : (h.cell a).value.rgStart + toAddr size ≤ (h.cell a).value.rgEnd
    · exact freergWalk_fits left size ⟨-1, -1⟩ hl hfit
    · -- the node is passed over
      rw [freergWalk, MemoryLibrary.freergWalk, if_neg hfit, if_neg hfit]
      obtain ⟨h', as', hw, hlist, hsub, hframe⟩ := ih hrest (Nat.lt_of_succ_lt_succ hn)
      have hself : h'.cell a = h.cell a := hframe a hnot
      rw [← hself] at hlist
      have hwhole := hlist.cons fun b _ => rfl
      rw [hself] at hwhole
      refine ⟨h', a :: as', hw, hwhole, fun c hc => ?_, fun c hc => ?_⟩
      · rcases List.mem_cons.mp hc with rfl | hc
        · exact List.mem_cons_self
        · exact List.mem_cons_of_mem _ (hsub c hc)
      · exact hframe c fun hmem => hc (List.mem_cons_of_mem _ hmem)

/-- Where no region is long enough, the walk writes nothing. -/
theorem freergWalk_of_none (left : ℕ → Node VmRg) {size : CInt} {n : ℕ} {p : Option ℕ}
    {h : Heap VmRg} {as : List ℕ} {l : List VmRg} (hl : Holds h.cell p as l)
    (hn : as.length < n) (hf : firstFit l size = none) :
    freergWalk left size n p ⟨-1, -1⟩ h = some (⟨-1, -1⟩, h) := by
  induction as generalizing p n l with
  | nil =>
    obtain ⟨m, rfl⟩ := Nat.exists_eq_succ_of_ne_zero (Nat.ne_of_gt hn)
    obtain ⟨rfl, _⟩ := hl
    rfl
  | cons a as ih =>
    obtain ⟨m, rfl⟩ := Nat.exists_eq_succ_of_ne_zero (Nat.ne_of_gt (Nat.zero_lt_of_lt hn))
    obtain ⟨rfl, _, rest, rfl, hrest⟩ := hl.uncons
    have hall := List.find?_eq_none.mp hf
    have hfit := hall _ List.mem_cons_self
    rw [decide_eq_true_eq] at hfit
    have hnext : firstFit rest size = none :=
      List.find?_eq_none.mpr fun rg hrg => hall rg (List.mem_cons_of_mem _ hrg)
    rw [freergWalk, if_neg hfit]
    exact ih hrest (Nat.lt_of_succ_lt_succ hn) hnext

/-- `get_free_vmrg_area` on pointers is that of the allocator model on the list they hold. -/
theorem getFreeVmrgArea_refines (left : ℕ → Node VmRg) (size : CInt) {n : ℕ} {vma : VmAreaCell}
    {h : Heap VmRg} {as : List ℕ} {l : List VmRg} (newrg : VmRg)
    (hl : Holds h.cell vma.vmFreergList as l) (hn : l.length < n) :
    ∃ status newrg' h' as', getFreeVmrgArea left n vma size newrg h = some (status, newrg', h') ∧
      (MemoryLibrary.getFreeVmrgArea l size).1 = (if status = 0 then some newrg' else none) ∧
      (status = 0 ∨ status = -1) ∧
      Holds h'.cell vma.vmFreergList as' (MemoryLibrary.getFreeVmrgArea l size).2 := by
  rw [← hl.length_eq] at hn
  unfold getFreeVmrgArea
  cases hhead : vma.vmFreergList with
  | none =>
    rw [hhead] at hl
    cases as with
    | nil =>
      obtain ⟨_, rfl⟩ := hl
      exact ⟨-1, newrg, h, [], rfl, rfl, Or.inr rfl, rfl, rfl⟩
    | cons a as => cases hl.1.1
  | some rgit =>
    rw [hhead] at hl
    obtain ⟨h', as', hw, hlist, _, _⟩ := freergWalk_refines left size hl hn
    cases as with
    | nil => cases hl.1
    | cons a as =>
      obtain ⟨_, _, rest, rfl, _⟩ := hl.uncons
      dsimp only
      rw [hw, MemoryLibrary.getFreeVmrgArea, Option.map_some]
      dsimp only
      split
      · exact ⟨_, _, h', as', rfl, rfl, Or.inr rfl, hlist⟩
      · exact ⟨_, _, h', as', rfl, rfl, Or.inl rfl, hlist⟩

/-! ## What a search promises -/

/-- A region is long enough for a size. -/
def LongEnough (size : CInt) (rg : VmRg) : Prop :=
  size.toNat ≤ rg.rgEnd.toNat - rg.rgStart.toNat

/-- The bytes of the regions of a list. -/
def listBytes (l : List VmRg) : Set ℕ := {a | ∃ rg ∈ l, a ∈ regionBytes rg}

/-- A free list as the allocator means it: regions below the sign bit, none of them
backwards and no two of them overlapping. -/
structure WellFormed (l : List VmRg) : Prop where
  /-- No region ends before its start. -/
  ordered : ∀ rg ∈ l, rg.rgStart ≤ rg.rgEnd
  /-- Regions end below the sign bit. -/
  bounded : ∀ rg ∈ l, rg.rgEnd.toNat < 2 ^ 63
  /-- No byte is in two regions. -/
  disjoint : l.Pairwise fun r s => Disjoint (regionBytes r) (regionBytes s)

/-- A first-fit search that conserves bytes: its status, the region it returns, and the
list before and behind it. -/
structure FirstFitConserves (l : List VmRg) (size : CInt) (status : Int) (newrg : VmRg)
    (l' : List VmRg) : Prop where
  /-- The answer is 0 or -1. -/
  answer : status = 0 ∨ status = -1
  /-- The search succeeds exactly if some region is long enough. -/
  succeeds : status = 0 ↔ ∃ rg ∈ l, LongEnough size rg
  /-- The region returned is the front of the first one that is long enough. -/
  first : status = 0 → ∃ before rg behind, l = before ++ rg :: behind ∧
    (∀ r ∈ before, ¬LongEnough size r) ∧ LongEnough size rg ∧
    newrg.rgStart = rg.rgStart ∧ newrg.rgEnd.toNat = rg.rgStart.toNat + size.toNat
  /-- The bytes returned are not on the list any more. -/
  disjoint : status = 0 → Disjoint (listBytes l') (regionBytes newrg)
  /-- No other byte is taken off the list, and none is added. -/
  union : status = 0 → listBytes l' ∪ regionBytes newrg = listBytes l
  /-- A search that fails leaves the list as it was. -/
  unchanged : status = -1 → l' = l

/-- The sum of the test does not wrap on a well-formed list. -/
theorem longEnough_iff {size : CInt} {rg : VmRg} (hs : size.toNat < 2 ^ 31)
    (ho : rg.rgStart ≤ rg.rgEnd) (hb : rg.rgEnd.toNat < 2 ^ 63) :
    rg.rgStart + toAddr size ≤ rg.rgEnd ↔ LongEnough size rg := by
  rw [BitVec.le_def] at ho ⊢
  rw [BitVec.toNat_add, toAddr_toNat hs]
  unfold LongEnough
  omega

/-- The walk finds nothing exactly if no region is long enough. -/
theorem firstFit_eq_none {l : List VmRg} {size : CInt} (hl : WellFormed l)
    (hs : size.toNat < 2 ^ 31) : firstFit l size = none ↔ ∀ rg ∈ l, ¬LongEnough size rg := by
  unfold firstFit
  rw [List.find?_eq_none]
  refine forall₂_congr fun rg hrg => ?_
  rw [decide_eq_true_eq, longEnough_iff hs (hl.ordered rg hrg) (hl.bounded rg hrg)]

/-- The walk stops at the first region that is long enough, and those before it are not. -/
theorem firstFit_eq_some {l : List VmRg} {size : CInt} {rg : VmRg} (hl : WellFormed l)
    (hs : size.toNat < 2 ^ 31) (h : firstFit l size = some rg) :
    ∃ before behind, l = before ++ rg :: behind ∧ (∀ r ∈ before, ¬LongEnough size r) ∧
      LongEnough size rg := by
  obtain ⟨hfit, before, behind, rfl, hbefore⟩ := List.find?_eq_some_iff_append.mp h
  have hmem : rg ∈ before ++ rg :: behind := List.mem_append_right _ List.mem_cons_self
  refine ⟨before, behind, rfl, fun r hr => ?_, ?_⟩
  · have hin : r ∈ before ++ rg :: behind := List.mem_append_left _ hr
    have hno := hbefore r hr
    rw [Bool.not_eq_true', decide_eq_false_iff_not,
      longEnough_iff hs (hl.ordered r hin) (hl.bounded r hin)] at hno
    exact hno
  · rw [decide_eq_true_eq, longEnough_iff hs (hl.ordered rg hmem) (hl.bounded rg hmem)] at hfit
    exact hfit

/-- A region that is cut out of a list of disjoint ones shares no byte with the rest. -/
theorem cutOut_bytes {l l' : List VmRg} {brk : Addr} {size : CInt} {rg : VmRg}
    (hc : CutOut l brk size rg l')
    (hd : l.Pairwise fun r s => Disjoint (regionBytes r) (regionBytes s)) :
    Disjoint (listBytes l') (regionBytes rg) ∧ listBytes l' ∪ regionBytes rg = listBytes l := by
  have honce : ∀ a, freeCover l a ≤ 1 :=
    (cover_le_one_iff (l.map span)).mpr (List.pairwise_map.mpr hd)
  have hlist : ∀ (l : List VmRg) (a : ℕ), a ∈ listBytes l ↔ 0 < freeCover l a :=
    fun l a => exists_regionBytes_iff l a
  have hrg : ∀ a, a ∈ regionBytes rg ↔ 0 < hit (span rg) a := fun a =>
    (@hit_pos ℕ _ (span rg) a).symm
  constructor
  · rw [Set.disjoint_left]
    intro a hl hr
    have h1 := honce a
    have h2 := hc.bytes a
    rw [hlist] at hl
    rw [hrg] at hr
    omega
  · ext a
    have h2 := hc.bytes a
    rw [Set.mem_union, hlist, hrg, hlist]
    omega

/-- The search of the allocator model conserves bytes. -/
theorem getFreeVmrgArea_conserves {l : List VmRg} {size : CInt} (hl : WellFormed l)
    (hs : size.toNat < 2 ^ 31) {status : Int} {newrg : VmRg}
    (hstatus : status = 0 ∨ status = -1)
    (hres : (MemoryLibrary.getFreeVmrgArea l size).1 = if status = 0 then some newrg else none) :
    FirstFitConserves l size status newrg (MemoryLibrary.getFreeVmrgArea l size).2 := by
  have hwithin : ∀ rg ∈ l, Within rg (BitVec.ofNat 64 (2 ^ 63 - 1)) := fun rg hrg =>
    ⟨BitVec.le_def.mp (hl.ordered rg hrg), Nat.le_of_lt_succ (hl.bounded rg hrg)⟩
  have hne : ∀ rg ∈ l, rg.rgStart ≠ -1 := by
    intro rg hrg he
    have ho := BitVec.le_def.mp (hl.ordered rg hrg)
    have hb := hl.bounded rg hrg
    have hm : (-1 : Addr).toNat = 2 ^ 64 - 1 := by decide
    rw [he] at ho
    omega
  obtain ⟨hnone, hsome⟩ := getFreeVmrgArea_firstFit hne size
  cases hf : firstFit l size with
  | none =>
    have hall := (firstFit_eq_none hl hs).mp hf
    have hfail : ¬status = 0 := fun h0 => by
      rw [hnone hf, if_pos h0] at hres
      cases hres
    rw [hnone hf]
    exact ⟨hstatus, ⟨fun h0 => absurd h0 hfail, fun ⟨rg, hrg, hfit⟩ => absurd hfit (hall rg hrg)⟩,
      fun h0 => absurd h0 hfail, fun h0 => absurd h0 hfail, fun h0 => absurd h0 hfail,
      fun _ => rfl⟩
  | some rg =>
    obtain ⟨before, behind, hsplit, hbefore, hfit⟩ := firstFit_eq_some hl hs hf
    have h0 : status = 0 := by
      by_contra hno
      rw [hsome rg hf, if_neg hno] at hres
      cases hres
    rw [hsome rg hf, if_pos h0, Option.some.injEq] at hres
    have hrg : rg ∈ l := hsplit ▸ List.mem_append_right _ List.mem_cons_self
    rcases getFreeVmrgArea_spec hs (by decide) hwithin with he | ⟨r, hr, hcut⟩
    · have hfound := hsome rg hf
      rw [he] at hfound
      cases hfound
    · rw [hsome rg hf, Option.some.injEq] at hr
      rw [← hr, hres] at hcut
      obtain ⟨hdis, hunion⟩ := cutOut_bytes hcut hl.disjoint
      have hstart : newrg.rgStart = rg.rgStart := by rw [← hres]
      have hend := hcut.size
      rw [hstart] at hend
      exact ⟨hstatus, ⟨fun _ => ⟨rg, hrg, hfit⟩, fun _ => h0⟩,
        fun _ => ⟨before, rg, behind, hsplit, hbefore, hfit, hstart, hend⟩,
        fun _ => hdis, fun _ => hunion, fun hm => by rw [h0] at hm; cases hm⟩

/-- On every well-formed list and for every size that is not negative, the search returns,
finds the first region that is long enough and conserves bytes; without one it writes to
no node. -/
theorem search_conserves (left : ℕ → Node VmRg) {size : CInt} {n : ℕ} {vma : VmAreaCell}
    {h : Heap VmRg} {as : List ℕ} {l : List VmRg} (newrg : VmRg)
    (hl : Holds h.cell vma.vmFreergList as l) (hw : WellFormed l) (hs : 0 ≤ size.toInt)
    (hn : l.length < n) :
    ∃ status newrg' h' as' l',
      getFreeVmrgArea left n vma size newrg h = some (status, newrg', h') ∧
      Holds h'.cell vma.vmFreergList as' l' ∧
      FirstFitConserves l size status newrg' l' ∧ (status = -1 → h' = h) := by
  have hs' : size.toNat < 2 ^ 31 := by
    rw [BitVec.toInt_eq_toNat_cond] at hs
    have hlt := size.isLt
    omega
  obtain ⟨status, newrg', h', as', hget, hres, hstatus, hlist⟩ :=
    getFreeVmrgArea_refines left size newrg hl hn
  have hcons := getFreeVmrgArea_conserves hw hs' hstatus hres
  refine ⟨status, newrg', h', as', _, hget, hlist, hcons, fun hm => ?_⟩
  have hnone : firstFit l size = none := by
    refine (firstFit_eq_none hw hs').mpr fun rg hrg hfit => ?_
    have h0 := hcons.succeeds.mpr ⟨rg, hrg, hfit⟩
    rw [hm] at h0
    cases h0
  rw [← hl.length_eq] at hn
  unfold getFreeVmrgArea at hget
  cases hhead : vma.vmFreergList with
  | none =>
    rw [hhead] at hget
    cases hget
    rfl
  | some rgit =>
    rw [hhead] at hget hl
    dsimp only at hget
    rw [freergWalk_of_none left hl hn hnone] at hget
    cases hget
    rfl

/-- Two free regions in two nodes. -/
def twoNodes : Heap VmRg :=
  ⟨fun a => if a = 0 then ⟨⟨0, 4096⟩, some 1⟩ else ⟨⟨8192, 12288⟩, none⟩, 2⟩

/-- An area whose free regions are the two nodes. -/
def twoNodesArea : VmAreaCell := ⟨0, 0, 12288, 12288, some 0⟩

/-- The first of two free regions fits exactly, so the second one moves into its node. -/
theorem search_conserves_twoNodes : ∃ status newrg h' as' l',
    getFreeVmrgArea (fun _ => ⟨⟨1, 1⟩, some 7⟩) 3 twoNodesArea 4096 ⟨5, 5⟩ twoNodes =
        some (status, newrg, h') ∧
      Holds h'.cell twoNodesArea.vmFreergList as' l' ∧
      FirstFitConserves [⟨0, 4096⟩, ⟨8192, 12288⟩] 4096 status newrg l' ∧
      (status = -1 → h' = twoNodes) := by
  have hl : Holds twoNodes.cell twoNodesArea.vmFreergList [0, 1] [⟨0, 4096⟩, ⟨8192, 12288⟩] :=
    ⟨⟨rfl, rfl, rfl⟩, rfl⟩
  have hapart : Disjoint (regionBytes ⟨0, 4096⟩) (regionBytes ⟨8192, 12288⟩) :=
    Set.disjoint_left.mpr fun a h1 h2 => absurd (h2.1.trans_lt h1.2) (by decide)
  have hw : WellFormed [⟨0, 4096⟩, ⟨8192, 12288⟩] :=
    ⟨by decide, by decide, List.pairwise_pair.mpr hapart⟩
  exact search_conserves _ _ hl hw (by decide) (by decide)

end OsSim.MemoryFreeList
