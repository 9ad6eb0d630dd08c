import Mathlib.Data.List.Nodup
import Mathlib.Data.Finset.Card
import Mathlib.Order.Interval.Finset.Nat
import Mathlib.Logic.Function.Basic

/-!
# Singly linked lists in a heap

Nodes at addresses, `none` for the null pointer, and an allocation that leaves a node
with the contents its memory had. A list is given by the addresses on the way from its
head to a pointer; that way is unique, and only writes to its own nodes can change it.
-/

namespace OsSim.LinkedHeap

/-- A node of a singly linked list. -/
structure Node (α : Type*) where
  /-- The data of the node. -/
  value : α
  /-- The next node. -/
  next : Option ℕ

/-- A heap of nodes; memory that is not allocated has contents too. -/
structure Heap (α : Type*) where
  /-- The contents of every address. -/
  cell : ℕ → Node α
  /-- The first address that is not allocated. -/
  top : ℕ

variable {α : Type*}

/-- `malloc` of a node: its address, with the contents left as they are. -/
def Heap.malloc (h : Heap α) : ℕ × Heap α := (h.top, {h with top := h.top + 1})

/-- A write to the data of a node. -/
def Heap.setValue (h : Heap α) (p : ℕ) (value : α) : Heap α :=
  {h with cell := Function.update h.cell p {h.cell p with value := value}}

/-- A write to the link of a node. -/
def Heap.setNext (h : Heap α) (p : ℕ) (next : Option ℕ) : Heap α :=
  {h with cell := Function.update h.cell p {h.cell p with next := next}}

@[simp] theorem setValue_top (h : Heap α) (p : ℕ) (value : α) :
    (h.setValue p value).top = h.top := rfl

@[simp] theorem setNext_top (h : Heap α) (p : ℕ) (next : Option ℕ) :
    (h.setNext p next).top = h.top := rfl

@[simp] theorem setValue_self (h : Heap α) (p : ℕ) (value : α) :
    (h.setValue p value).cell p = ⟨value, (h.cell p).next⟩ := by
  simp [Heap.setValue]

@[simp] theorem setNext_self (h : Heap α) (p : ℕ) (next : Option ℕ) :
    (h.setNext p next).cell p = ⟨(h.cell p).value, next⟩ := by
  simp [Heap.setNext]

theorem setValue_of_ne (h : Heap α) {p q : ℕ} (hne : q ≠ p) (value : α) :
    (h.setValue p value).cell q = h.cell q := by
  simp [Heap.setValue, hne]

theorem setNext_of_ne (h : Heap α) {p q : ℕ} (hne : q ≠ p) (next : Option ℕ) :
    (h.setNext p next).cell q = h.cell q := by
  simp [Heap.setNext, hne]

/-- `free` of a node: what its memory holds afterwards is left to the allocator. -/
def Heap.free (h : Heap α) (left : ℕ → Node α) (p : ℕ) : Heap α :=
  {h with cell := Function.update h.cell p (left p)}

/-- Following the links from a pointer leads through these nodes to another pointer. -/
def Path (cell : ℕ → Node α) : Option ℕ → List ℕ → Option ℕ → Prop
  | p, [], q => p = q
  | p, a :: as, q => p = some a ∧ Path cell (cell a).next as q

/-- A way that goes on. -/
theorem Path.append {cell : ℕ → Node α} {p q r : Option ℕ} {as bs : List ℕ}
    (h : Path cell p as q) (h' : Path cell q bs r) : Path cell p (as ++ bs) r := by
  induction as generalizing p with
  | nil =>
    cases h
    exact h'
  | cons a as ih => exact ⟨h.1, ih h.2⟩

/-- A way has a pointer between any two parts of it. -/
theorem Path.split {cell : ℕ → Node α} {p q : Option ℕ} {as bs : List ℕ}
    (h : Path cell p (as ++ bs) q) : ∃ r, Path cell p as r ∧ Path cell r bs q := by
  induction as generalizing p with
  | nil => exact ⟨p, rfl, h⟩
  | cons a as ih =>
    obtain ⟨r, hr, hq⟩ := ih h.2
    exact ⟨r, ⟨h.1, hr⟩, hq⟩

/-- A way through two nodes and more has a first node and a second one. -/
theorem Path.first_two {cell : ℕ → Node α} {p q : Option ℕ} {as : List ℕ} {a b : ℕ}
    (h : Path cell p (as ++ [a, b]) q) : ∃ c d, p = some c ∧ (cell c).next = some d := by
  cases as with
  | nil => exact ⟨a, b, h.1, h.2.1⟩
  | cons c as =>
    cases as with
    | nil => exact ⟨c, a, h.1, h.2.1⟩
    | cons d as => exact ⟨c, d, h.1, h.2.1⟩

/-- A way only depends on its own nodes. -/
theorem Path.congr {cell cell' : ℕ → Node α} {p q : Option ℕ} {as : List ℕ}
    (h : Path cell p as q) (hcell : ∀ a ∈ as, (cell' a).next = (cell a).next) :
    Path cell' p as q := by
  induction as generalizing p with
  | nil => exact h
  | cons a as ih =>
    rw [List.forall_mem_cons] at hcell
    refine ⟨h.1, ?_⟩
    rw [hcell.1]
    exact ih h.2 hcell.2

/-- From a pointer to null there is only one way. -/
theorem Path.unique {cell : ℕ → Node α} {p : Option ℕ} {as bs : List ℕ}
    (h : Path cell p as none) (h' : Path cell p bs none) : as = bs := by
  induction as generalizing p bs with
  | nil =>
    cases h
    cases bs with
    | nil => rfl
    | cons b bs => cases h'.1
  | cons a as ih =>
    cases bs with
    | nil =>
      cases h'
      cases h.1
    | cons b bs =>
      have hab : b = a := Option.some.inj (h'.1.symm.trans h.1)
      subst hab
      rw [ih h.2 h'.2]

/-- A way can be entered at any of its nodes. -/
theorem Path.drop {cell : ℕ → Node α} {p q : Option ℕ} {as bs : List ℕ} {a : ℕ}
    (h : Path cell p (as ++ a :: bs) q) : Path cell (some a) (a :: bs) q := by
  induction as generalizing p with
  | nil => exact ⟨rfl, h.2⟩
  | cons b as ih => exact ih h.2

/-- A way to null visits no node twice. -/
theorem Path.nodup {cell : ℕ → Node α} {p : Option ℕ} {as : List ℕ}
    (h : Path cell p as none) : as.Nodup := by
  induction as generalizing p with
  | nil => exact List.nodup_nil
  | cons a as ih =>
    refine List.nodup_cons.mpr ⟨fun hmem => ?_, ih h.2⟩
    obtain ⟨bs, cs, rfl⟩ := List.append_of_mem hmem
    have hshort : Path cell (some a) (a :: cs) none := h.2.drop
    have hlong : Path cell (some a) (a :: (bs ++ a :: cs)) none := ⟨rfl, h.2⟩
    have hlen := congrArg List.length (hshort.unique hlong)
    simp only [List.length_cons, List.length_append] at hlen
    omega

/-- Distinct addresses of a range are no more than the range is long. -/
theorem length_le_of_range {as : List ℕ} {lo n : ℕ} (hnd : as.Nodup)
    (hmem : ∀ a ∈ as, lo ≤ a ∧ a < lo + n) : as.length ≤ n := by
  rw [← List.toFinset_card_of_nodup hnd]
  have hsub : as.toFinset ⊆ Finset.Ico lo (lo + n) := by
    intro a ha
    exact Finset.mem_Ico.mpr (hmem a (List.mem_toFinset.mp ha))
  have hcard := Finset.card_le_card hsub
  rw [Nat.card_Ico] at hcard
  omega

/-- A null-terminated list of these values, in nodes of an allocated range. -/
def Lists (cell : ℕ → Node α) (lo hi : ℕ) (head : Option ℕ) (values : List α) : Prop :=
  ∃ as, Path cell head as none ∧ as.map (fun a => (cell a).value) = values ∧
    ∀ a ∈ as, lo ≤ a ∧ a < hi

/-- A null-terminated list of these values, in these nodes. -/
def Holds (cell : ℕ → Node α) (head : Option ℕ) (as : List ℕ) (values : List α) : Prop :=
  Path cell head as none ∧ as.map (fun a => (cell a).value) = values

/-- A list in an allocated range is a list in some nodes of it. -/
theorem lists_iff {cell : ℕ → Node α} {lo hi : ℕ} {head : Option ℕ} {values : List α} :
    Lists cell lo hi head values ↔
      ∃ as, Holds cell head as values ∧ ∀ a ∈ as, lo ≤ a ∧ a < hi :=
  exists_congr fun _ => and_assoc.symm

/-- As many nodes as values. -/
theorem Holds.length_eq {cell : ℕ → Node α} {head : Option ℕ} {as : List ℕ} {values : List α}
    (h : Holds cell head as values) : as.length = values.length := by
  rw [← h.2, List.length_map]

/-- The first node holds the first value and leads to the rest, which is elsewhere. -/
theorem Holds.uncons {cell : ℕ → Node α} {head : Option ℕ} {a : ℕ} {as : List ℕ}
    {values : List α} (h : Holds cell head (a :: as) values) : head = some a ∧ a ∉ as ∧
      ∃ rest, values = (cell a).value :: rest ∧ Holds cell (cell a).next as rest :=
  ⟨h.1.1, (List.nodup_cons.mp h.1.nodup).1, _, h.2.symm, h.1.2, rfl⟩

/-- Writes elsewhere keep a list. -/
theorem Holds.congr {cell cell' : ℕ → Node α} {head : Option ℕ} {as : List ℕ} {values : List α}
    (h : Holds cell head as values) (hcell : ∀ b ∈ as, cell' b = cell b) :
    Holds cell' head as values := by
  refine ⟨h.1.congr fun b hb => congrArg Node.next (hcell b hb), ?_⟩
  rw [← h.2]
  exact List.map_congr_left fun b hb => congrArg Node.value (hcell b hb)

/-- A node in front of a list, if the heap has kept the nodes of that list. -/
theorem Holds.cons {cell cell' : ℕ → Node α} {a : ℕ} {as : List ℕ} {values : List α}
    (h : Holds cell (cell' a).next as values) (hcell : ∀ b ∈ as, cell' b = cell b) :
    Holds cell' (some a) (a :: as) ((cell' a).value :: values) := by
  obtain ⟨hpath, hvalues⟩ := h.congr hcell
  refine ⟨⟨rfl, hpath⟩, ?_⟩
  rw [List.map_cons, hvalues]

/-! ## Edits in place -/

section Edits

variable {h : Heap α} {head : Option ℕ} {a b : ℕ} {as : List ℕ} {v w : α} {values : List α}

/-- The first value is replaced. -/
theorem Holds.setValue (hl : Holds h.cell head (a :: as) (v :: values)) (value : α) :
    Holds (h.setValue a value).cell head (a :: as) (value :: values) := by
  obtain ⟨rfl, hnot, rest, heq, hrest⟩ := hl.uncons
  obtain ⟨_, rfl⟩ := List.cons.inj heq
  have hself := setValue_self h a value
  have hkeep : ∀ c ∈ as, (h.setValue a value).cell c = h.cell c :=
    fun c hc => setValue_of_ne h (ne_of_mem_of_not_mem hc hnot) value
  have hnext : ((h.setValue a value).cell a).next = (h.cell a).next := by rw [hself]
  rw [← hnext] at hrest
  have hlist := hrest.cons hkeep
  rw [hself] at hlist
  exact hlist

/-- The list is cut off behind its first node. -/
theorem Holds.setNext_none (hl : Holds h.cell head (a :: as) (v :: values)) :
    Holds (h.setNext a none).cell head [a] [v] := by
  obtain ⟨rfl, _, rest, heq, _⟩ := hl.uncons
  obtain ⟨rfl, _⟩ := List.cons.inj heq
  have hself := setNext_self h a none
  refine ⟨⟨rfl, ?_⟩, ?_⟩
  · rw [hself]
    rfl
  · rw [List.map_singleton, hself]

/-- The second node is copied into the first one and freed. -/
theorem Holds.absorb (hl : Holds h.cell head (a :: b :: as) (v :: w :: values))
    (left : ℕ → Node α) :
    Holds (((h.setValue a (h.cell b).value).setNext a (h.cell b).next).free left b).cell head
      (a :: as) (w :: values) := by
  obtain ⟨rfl, hnot, rest, heq, hrest⟩ := hl.uncons
  obtain ⟨_, rfl⟩ := List.cons.inj heq
  obtain ⟨_, hnot', rest', heq', hrest'⟩ := hrest.uncons
  obtain ⟨rfl, rfl⟩ := List.cons.inj heq'
  have hab : b ≠ a := ne_of_mem_of_not_mem List.mem_cons_self hnot
  set h' := ((h.setValue a (h.cell b).value).setNext a (h.cell b).next).free left b with hh
  have hself : h'.cell a = h.cell b := by
    rw [hh, Heap.free]
    dsimp only
    rw [Function.update_of_ne hab.symm, setNext_self, setValue_self]
  have hkeep : ∀ c ∈ as, h'.cell c = h.cell c := by
    intro c hc
    have hca : c ≠ a := ne_of_mem_of_not_mem (List.mem_cons_of_mem b hc) hnot
    have hcb : c ≠ b := ne_of_mem_of_not_mem hc hnot'
    rw [hh, Heap.free]
    dsimp only
    rw [Function.update_of_ne hcb, setNext_of_ne _ hca, setValue_of_ne _ hca]
  rw [← hself] at hrest' ⊢
  exact hrest'.cons hkeep

/-- The last node of several is cut off and freed. -/
theorem Holds.dropLast (hl : Holds h.cell head (as ++ [a, b]) values) (left : ℕ → Node α) :
    Holds ((h.setNext a none).free left b).cell head (as ++ [a]) values.dropLast ∧
      values.getLast? = some (h.cell b).value := by
  obtain ⟨hpath, rfl⟩ := hl
  have hnd := hpath.nodup
  rw [List.nodup_append] at hnd
  obtain ⟨_, hnd', hapart⟩ := hnd
  have hab : a ≠ b := fun he => (List.nodup_cons.mp hnd').1 (he ▸ List.mem_cons_self)
  have hkeep : ∀ c ∈ as, ((h.setNext a none).free left b).cell c = h.cell c := by
    intro c hc
    have hca : c ≠ a := hapart c hc a List.mem_cons_self
    have hcb : c ≠ b := hapart c hc b (List.mem_cons_of_mem _ List.mem_cons_self)
    rw [Heap.free]
    dsimp only
    rw [Function.update_of_ne hcb, setNext_of_ne _ hca]
  have hself : ((h.setNext a none).free left b).cell a = ⟨(h.cell a).value, none⟩ := by
    rw [Heap.free]
    dsimp only
    rw [Function.update_of_ne hab, setNext_self]
  obtain ⟨r, hfront, hback⟩ := hpath.split
  obtain ⟨rfl, _⟩ := hback
  have hlast : as ++ [a, b] = (as ++ [a]) ++ [b] := by rw [List.append_assoc]; rfl
  have hend : Path ((h.setNext a none).free left b).cell (some a) [a] none :=
    ⟨rfl, congrArg Node.next hself⟩
  rw [hlast, List.map_append, List.map_singleton, List.dropLast_concat, List.getLast?_concat]
  refine ⟨⟨?_, ?_⟩, rfl⟩
  · exact (hfront.congr fun c hc => congrArg Node.next (hkeep c hc)).append hend
  · rw [List.map_append, List.map_append, List.map_singleton, List.map_singleton, hself]
    refine congrArg (· ++ _) (List.map_congr_left fun c hc => congrArg Node.value (hkeep c hc))

end Edits

/-- A node that `malloc` returns, in front of a list of other nodes. -/
theorem Holds.malloc {h : Heap α} {head : Option ℕ} {as : List ℕ} {values : List α}
    (hl : Holds h.cell head as values) (hlt : ∀ a ∈ as, a < h.top) (value : α) :
    Holds ((h.malloc.2.setValue h.top value).setNext h.top head).cell (some h.top)
      (h.top :: as) (value :: values) := by
  set h' := (h.malloc.2.setValue h.top value).setNext h.top head with hh
  have hself : h'.cell h.top = ⟨value, head⟩ := by rw [hh, setNext_self, setValue_self]
  have hkeep : ∀ c ∈ as, h'.cell c = h.cell c := by
    intro c hc
    have hne : c ≠ h.top := Nat.ne_of_lt (hlt c hc)
    rw [hh, setNext_of_ne _ hne, setValue_of_ne _ hne, Heap.malloc]
  have hnext : (h'.cell h.top).next = head := by rw [hself]
  rw [← hnext] at hl
  have hlist := hl.cons hkeep
  rw [hself] at hlist
  exact hlist

/-- The empty list is the one that the null pointer heads. -/
theorem lists_nil {cell : ℕ → Node α} {lo hi : ℕ} {head : Option ℕ} :
    Lists cell lo hi head [] ↔ head = none := by
  constructor
  · rintro ⟨as, hp, hv, _⟩
    rw [List.map_eq_nil_iff] at hv
    subst hv
    exact hp
  · rintro rfl
    exact ⟨[], rfl, rfl, fun a ha => absurd ha List.not_mem_nil⟩

/-- A list is as long as its range at most. -/
theorem Lists.length_le {cell : ℕ → Node α} {lo n : ℕ} {head : Option ℕ} {values : List α}
    (h : Lists cell lo (lo + n) head values) : values.length ≤ n := by
  obtain ⟨as, hl, hr⟩ := lists_iff.mp h
  rw [← hl.length_eq]
  exact length_le_of_range hl.1.nodup hr

/-- A list with a first value is a node of the range and the list behind it, which lies
outside of that node. -/
theorem lists_cons {cell : ℕ → Node α} {lo hi : ℕ} {head : Option ℕ} {value : α}
    {values : List α} (h : Lists cell lo hi head (value :: values)) :
    ∃ a, head = some a ∧ (cell a).value = value ∧
      ∀ cell', (∀ b, b ≠ a → cell' b = cell b) → Lists cell' lo hi (cell a).next values := by
  obtain ⟨as, hl, hr⟩ := lists_iff.mp h
  cases as with
  | nil => cases hl.2
  | cons a as =>
    obtain ⟨hhead, hnot, rest, heq, hrest⟩ := hl.uncons
    obtain ⟨rfl, rfl⟩ := List.cons.inj heq
    refine ⟨a, hhead, rfl, fun cell' hcell => lists_iff.mpr ⟨as, ?_, ?_⟩⟩
    · exact hrest.congr fun b hb => hcell b (ne_of_mem_of_not_mem hb hnot)
    · exact fun b hb => hr b (List.mem_cons_of_mem _ hb)

/-- A list of one node at an address: the node holds the value and no link. -/
theorem lists_singleton {cell : ℕ → Node α} {lo hi p : ℕ} {value : α} (hlo : lo ≤ p)
    (hhi : p < hi) : Lists cell lo hi (some p) [value] ↔ cell p = ⟨value, none⟩ := by
  constructor
  · rintro ⟨as, hp, hv, _⟩
    cases as with
    | nil => cases hp
    | cons a as =>
      have ha : p = a := Option.some.inj hp.1
      subst ha
      simp only [List.map_cons, List.cons.injEq, List.map_eq_nil_iff] at hv
      obtain ⟨hval, rfl⟩ := hv
      have hnext : (cell p).next = none := hp.2
      rw [← hval, ← hnext]
  · intro h
    refine ⟨[p], ⟨rfl, by rw [h]; rfl⟩, by simp [h], ?_⟩
    simp only [List.mem_singleton, forall_eq]
    exact ⟨hlo, hhi⟩

end OsSim.LinkedHeap
