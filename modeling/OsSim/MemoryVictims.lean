import OsSim.MemoryEffects
import OsSim.LinkedHeap
import OsSim.RunSteps

/-!
# The replacement list in memory

A page is enlisted in a new node at the head of `fifo_pgn`, and `find_victim_page` walks
to the tail with a second pointer behind the first, cuts the last node off and frees it; a
single node is treated apart. Over any calls the victims are the enlisted pages in the
order of their enlisting.
-/

namespace OsSim.MemoryVictims

open MemoryWords MemoryPageTable MemoryEffects LinkedHeap RunSteps

/-- `enlist_pgn_node`: `*plist` and the heap behind it. -/
def enlistPgnNode (plist : Option ℕ) (pgn : Addr) (h : Heap Addr) : Option ℕ × Heap Addr :=
  let pnode := h.malloc.1
  let h := h.malloc.2.setValue pnode pgn
  (some pnode, h.setNext pnode plist)

/-- The loop of `find_victim_page` for at most so many turns, `none` if it takes more:
`prev` and `pg` behind it. -/
def victimWalk (h : Heap Addr) : ℕ → Option ℕ → ℕ → Option (Option ℕ × ℕ)
  | 0, _, _ => none
  | n + 1, prev, pg =>
    match (h.cell pg).next with
    | none => some (prev, pg)
    | some next => victimWalk h n (some pg) next

/-- `find_victim_page`: `*retpgn`, or `none` for -1, with `fifo_pgn` and the heap behind
it. What a freed node holds is left to the allocator. -/
def findVictimPage (left : ℕ → Node Addr) (n : ℕ) (fifoPgn : Option ℕ) (h : Heap Addr) :
    Option (Option Addr × Option ℕ × Heap Addr) :=
  match fifoPgn with
  | none => some (none, none, h)
  | some pg =>
    match (h.cell pg).next with
    | none => some (some (h.cell pg).value, none, h.free left pg)
    | some _ => (victimWalk h n none pg).map fun r =>
      let retpgn := (h.cell r.2).value
      let h := r.1.elim h fun prev => h.setNext prev none
      (some retpgn, some pg, h.free left r.2)

/-! ## The walk to the tail -/

/-- The walk ends at the last node, with the one before it behind. -/
theorem victimWalk_path {h : Heap Addr} {n pg b : ℕ} {prev : Option ℕ} {as : List ℕ}
    (hp : Path h.cell (some pg) (as ++ [b]) none) (hn : as.length < n) :
    victimWalk h n prev pg = some (as.getLast?.or prev, b) := by
  induction as generalizing n pg prev with
  | nil =>
    obtain ⟨m, rfl⟩ := Nat.exists_eq_succ_of_ne_zero (Nat.ne_of_gt hn)
    obtain ⟨hb, hnull⟩ := hp
    obtain rfl := Option.some.inj hb
    have hnext : (h.cell pg).next = none := hnull
    rw [victimWalk, hnext]
    rfl
  | cons a as ih =>
    obtain ⟨m, rfl⟩ := Nat.exists_eq_succ_of_ne_zero (Nat.ne_of_gt (Nat.zero_lt_of_lt hn))
    obtain ⟨ha, hrest⟩ := hp
    obtain rfl := Option.some.inj ha
    cases hnext : (h.cell pg).next with
    | none =>
      rw [hnext] at hrest
      cases as with
      | nil => cases hrest.1
      | cons c as => cases hrest.1
    | some next =>
      rw [hnext] at hrest
      rw [victimWalk, hnext]
      dsimp only
      rw [ih hrest (Nat.lt_of_succ_lt_succ hn), List.getLast?_cons]
      cases as.getLast? <;> rfl

/-- Further turns change nothing once the walk has ended. -/
theorem victimWalk_mono {h : Heap Addr} {n m pg : ℕ} {prev : Option ℕ} {r : Option ℕ × ℕ}
    (hr : victimWalk h n prev pg = some r) (hle : n ≤ m) : victimWalk h m prev pg = some r := by
  induction n generalizing m prev pg with
  | zero => cases hr
  | succ n ih =>
    obtain ⟨m, rfl⟩ := Nat.exists_eq_succ_of_ne_zero (Nat.ne_of_gt (Nat.zero_lt_of_lt hle))
    rw [victimWalk] at hr ⊢
    cases hnext : (h.cell pg).next with
    | none =>
      rw [hnext] at hr
      exact hr
    | some next =>
      rw [hnext] at hr
      exact ih hr (Nat.le_of_succ_le_succ hle)

/-- With more iterations to spend `find_victim_page` has the same result. -/
theorem findVictimPage_mono {left : ℕ → Node Addr} {n m : ℕ} {fifo : Option ℕ} {h : Heap Addr}
    {r : Option Addr × Option ℕ × Heap Addr} (hr : findVictimPage left n fifo h = some r)
    (hle : n ≤ m) : findVictimPage left m fifo h = some r := by
  unfold findVictimPage at hr ⊢
  cases fifo with
  | none => exact hr
  | some pg =>
    dsimp only at hr ⊢
    cases hnext : (h.cell pg).next with
    | none =>
      rw [hnext] at hr
      exact hr
    | some next =>
      rw [hnext] at hr
      obtain ⟨w, hw, hf⟩ := Option.map_eq_some_iff.mp hr
      dsimp only
      rw [victimWalk_mono hw hle, Option.map_some, hf]

/-- The page at the tail is returned, and the list without it remains. -/
theorem findVictimPage_holds (left : ℕ → Node Addr) {fifo : Option ℕ} {h : Heap Addr}
    {as : List ℕ} {l : List Addr} (hl : Holds h.cell fifo as l) :
    ∃ fifo' h' as', (∀ n, l.length ≤ n →
        findVictimPage left n fifo h = some (l.getLast?, fifo', h')) ∧
      Holds h'.cell fifo' as' l.dropLast ∧ (∀ a ∈ as', a ∈ as) ∧ h'.top = h.top := by
  rw [← hl.length_eq]
  unfold findVictimPage
  rcases List.eq_nil_or_concat as with rfl | ⟨front, b, rfl⟩
  · obtain ⟨rfl, rfl⟩ := hl
    exact ⟨none, h, [], fun _ _ => rfl, ⟨rfl, rfl⟩, fun _ ha => ha, rfl⟩
  · rcases List.eq_nil_or_concat front with rfl | ⟨front, a, rfl⟩
    · -- a single node
      obtain ⟨rfl, _, rest, rfl, hnull, rfl⟩ := hl.uncons
      have hnext : (h.cell b).next = none := hnull
      dsimp only
      rw [hnext]
      exact ⟨none, _, [], fun _ _ => rfl, ⟨rfl, rfl⟩, fun _ ha => absurd ha List.not_mem_nil, rfl⟩
    · -- the node before the last one becomes the last one
      simp only [List.concat_eq_append] at hl ⊢
      have hpath := hl.1
      have hassoc : front ++ [a] ++ [b] = front ++ [a, b] := by
        rw [List.append_assoc]
        rfl
      rw [hassoc] at hl
      obtain ⟨pg, next, rfl, hnext⟩ := hl.1.first_two
      obtain ⟨hcut, hlast⟩ := hl.dropLast left
      refine ⟨some pg, _, front ++ [a], fun n hn => ?_, hcut, fun c hc => ?_, rfl⟩
      · rw [List.length_append] at hn
        dsimp only
        rw [hnext, victimWalk_path hpath (Nat.lt_of_succ_le hn), hlast, List.getLast?_concat]
        rfl
      · exact List.mem_append_left _ hc

/-- `enlist_pgn_node` on pointers is that of the list model. -/
theorem enlistPgnNode_holds {plist : Option ℕ} {h : Heap Addr} {as : List ℕ} {l : List Addr}
    (hl : Holds h.cell plist as l) (hlt : ∀ a ∈ as, a < h.top) (pgn : Addr) :
    Holds (enlistPgnNode plist pgn h).2.cell (enlistPgnNode plist pgn h).1 (h.top :: as)
        (MemoryPageTable.enlistPgnNode l pgn) ∧
      ∀ a ∈ h.top :: as, a < (enlistPgnNode plist pgn h).2.top := by
  refine ⟨hl.malloc hlt pgn, fun a ha => ?_⟩
  rcases List.mem_cons.mp ha with rfl | ha
  · exact Nat.lt_succ_self _
  · exact Nat.lt_succ_of_lt (hlt a ha)

/-- On the nodes `find_victim_page` takes the page that it takes on the list. -/
theorem findVictimPage_refines (left : ℕ → Node Addr) {fifo : Option ℕ} {h : Heap Addr}
    {as : List ℕ} {l : List Addr} (hl : Holds h.cell fifo as l) :
    ∃ fifo' h' as', (∀ n, l.length ≤ n → findVictimPage left n fifo h =
        some ((MemoryPaging.findVictimPage l).map Prod.fst, fifo', h')) ∧
      Holds h'.cell fifo' as' ((MemoryPaging.findVictimPage l).elim [] Prod.snd) := by
  obtain ⟨fifo', h', as', hfind, hrest, _⟩ := findVictimPage_holds left hl
  refine ⟨fifo', h', as', ?_⟩
  rcases List.eq_nil_or_concat l with rfl | ⟨front, v, rfl⟩
  · exact ⟨hfind, hrest⟩
  · rw [List.concat_eq_append] at hfind hrest ⊢
    rw [findVictimPage_eq_some.mpr rfl]
    rw [List.getLast?_concat] at hfind
    rw [List.dropLast_concat] at hrest
    exact ⟨hfind, hrest⟩

/-! ## The calls and their order -/

/-- The list, with the pages enlisted and the victims returned so far. -/
structure PgnLog where
  /-- `fifo_pgn`. -/
  fifoPgn : Option ℕ
  /-- The memory of the nodes. -/
  heap : Heap Addr
  /-- The arguments of `enlist_pgn_node`, oldest first. -/
  enlisted : List Addr
  /-- The results of `find_victim_page`, oldest first. -/
  victims : List Addr

/-- The calls that enlist a page and that select a victim. -/
inductive PgnCall
  /-- `enlist_pgn_node`. -/
  | enlist (pgn : Addr)
  /-- `find_victim_page`. -/
  | victim

/-- An empty list, with no call made yet. -/
def Fresh (s : PgnLog) : Prop := s.fifoPgn = none ∧ s.enlisted = [] ∧ s.victims = []

/-- One call that returns. -/
def PgnStep (s : PgnLog) (call : PgnCall) (s' : PgnLog) : Prop :=
  match call with
  | .enlist pgn =>
    let r := enlistPgnNode s.fifoPgn pgn s.heap
    s' = ⟨r.1, r.2, s.enlisted ++ [pgn], s.victims⟩
  | .victim => ∃ left n r fifo heap, findVictimPage left n s.fifoPgn s.heap = some (r, fifo, heap) ∧
      s' = ⟨fifo, heap, s.enlisted, s.victims ++ r.toList⟩

/-- The enlisted pages that have not been returned, oldest first. -/
def PgnLog.waiting (s : PgnLog) : List Addr := s.enlisted.drop s.victims.length

/-- What every call keeps: victims first, and the pages that wait in the nodes of the
list, newest first. -/
structure PgnInv (s : PgnLog) : Prop where
  /-- The victims come first among the enlisted pages. -/
  order : s.enlisted = s.victims ++ s.waiting
  /-- The nodes of the list are allocated and hold the others. -/
  nodes : ∃ as, Holds s.heap.cell s.fifoPgn as s.waiting.reverse ∧ ∀ a ∈ as, a < s.heap.top

/-- The pages behind the victims are those that wait. -/
theorem pgnInv_of_append {s : PgnLog} {l : List Addr} {as : List ℕ}
    (he : s.enlisted = s.victims ++ l) (hl : Holds s.heap.cell s.fifoPgn as l.reverse)
    (hlt : ∀ a ∈ as, a < s.heap.top) : PgnInv s := by
  have hwait : s.waiting = l := by
    unfold PgnLog.waiting
    rw [he, List.drop_left]
  rw [← hwait] at he hl
  exact ⟨he, as, hl, hlt⟩

/-- The next victim and what remains behind it, however long the walk may take. -/
theorem PgnInv.victim {s : PgnLog} (hs : PgnInv s) (left : ℕ → Node Addr) :
    ∃ fifo heap as, (∀ n, s.enlisted.length ≤ n →
        findVictimPage left n s.fifoPgn s.heap = some (s.waiting.head?, fifo, heap)) ∧
      Holds heap.cell fifo as s.waiting.tail.reverse ∧ ∀ a ∈ as, a < heap.top := by
  obtain ⟨as, hl, hlt⟩ := hs.nodes
  obtain ⟨fifo, heap, as', hfind, hrest, hsub, htop⟩ := findVictimPage_holds left hl
  rw [List.dropLast_reverse] at hrest
  refine ⟨fifo, heap, as', fun n hn => ?_, hrest, fun a ha => ?_⟩
  · have hlen : s.waiting.reverse.length ≤ n := by
      rw [List.length_reverse, PgnLog.waiting, List.length_drop]
      omega
    rw [hfind n hlen, List.getLast?_reverse]
  · rw [htop]
    exact hlt a (hsub a ha)

/-- Every call keeps the log in order. -/
theorem pgnInv_step {s s' : PgnLog} {call : PgnCall} (hs : PgnInv s)
    (h : PgnStep s call s') : PgnInv s' := by
  cases call with
  | enlist pgn =>
    obtain ⟨as, hl, hlt⟩ := hs.nodes
    obtain ⟨hnew, hlt'⟩ := enlistPgnNode_holds hl hlt pgn
    subst h
    have he : s.enlisted ++ [pgn] = s.victims ++ (s.waiting ++ [pgn]) := by
      rw [← List.append_assoc, ← hs.order]
    refine pgnInv_of_append he ?_ hlt'
    rw [List.reverse_append]
    exact hnew
  | victim =>
    obtain ⟨left, n, r, fifo, heap, hfind, rfl⟩ := h
    obtain ⟨fifo', heap', as, hall, hrest, hlt⟩ := hs.victim left
    -- the call has returned what it returns for any larger number of turns
    have hmono := findVictimPage_mono hfind (Nat.le_max_left n s.enlisted.length)
    rw [hall _ (Nat.le_max_right n s.enlisted.length)] at hmono
    cases hmono
    refine pgnInv_of_append ?_ hrest hlt
    have he : s.waiting.head?.toList ++ s.waiting.tail = s.waiting := by
      cases s.waiting <;> rfl
    dsimp only
    rw [List.append_assoc, he]
    exact hs.order

/-- Victim selection is a FIFO queue: after any calls the victims are the first of the
enlisted pages, and a further call returns the oldest of the others, or -1 if there are
none, and takes exactly that one off the list. -/
theorem victims_fifo {s : PgnLog} (h : Reachable Fresh PgnStep s) :
    s.victims <+: s.enlisted ∧
      (∃ as, Holds s.heap.cell s.fifoPgn as s.waiting.reverse) ∧
      ∀ left, ∃ r fifo heap as,
        (∀ n, s.enlisted.length ≤ n →
          findVictimPage left n s.fifoPgn s.heap = some (r, fifo, heap)) ∧
        (r = none ↔ s.victims = s.enlisted) ∧ r = s.waiting.head? ∧
        Holds heap.cell fifo as s.waiting.tail.reverse := by
  have hs : PgnInv s := by
    refine h.invariant PgnInv (fun s hs => ?_) fun _ _ _ hI hstep => pgnInv_step hI hstep
    obtain ⟨hnull, hnone, hnil⟩ := hs
    have he : s.enlisted = s.victims ++ [] := by rw [hnone, hnil, List.append_nil]
    have hl : Holds s.heap.cell s.fifoPgn [] ([] : List Addr).reverse := ⟨hnull, rfl⟩
    exact pgnInv_of_append he hl fun a ha => absurd ha List.not_mem_nil
  obtain ⟨as, hl, _⟩ := hs.nodes
  refine ⟨⟨s.waiting, hs.order.symm⟩, ⟨as, hl⟩, fun left => ?_⟩
  obtain ⟨fifo, heap, as', hfind, hrest, _⟩ := hs.victim left
  refine ⟨_, fifo, heap, as', hfind, ?_, rfl, hrest⟩
  rw [List.head?_eq_none_iff]
  constructor
  · intro hnil
    have he := hs.order
    rw [hnil, List.append_nil] at he
    exact he.symm
  · intro he
    unfold PgnLog.waiting
    rw [he, List.drop_length]

/-- Two pages enlisted and one of them returned. -/
theorem victims_fifo_twoPages : ∃ s : PgnLog, s.enlisted = [5, 6] ∧ s.victims = [5] ∧
    s.victims <+: s.enlisted ∧
      (∃ as, Holds s.heap.cell s.fifoPgn as s.waiting.reverse) ∧
      ∀ left, ∃ r fifo heap as,
        (∀ n, s.enlisted.length ≤ n →
          findVictimPage left n s.fifoPgn s.heap = some (r, fifo, heap)) ∧
        (r = none ↔ s.victims = s.enlisted) ∧ r = s.waiting.head? ∧
        Holds heap.cell fifo as s.waiting.tail.reverse := by
  have hrun : Run PgnStep ⟨none, ⟨fun _ => ⟨0, none⟩, 0⟩, [], []⟩
      [.enlist 5, .enlist 6, .victim] _ :=
    .cons rfl (.cons rfl (.cons ⟨fun _ => ⟨0, none⟩, 2, some 5, _, _, rfl, rfl⟩ (.nil _)))
  exact ⟨_, rfl, rfl, victims_fifo ⟨_, _, ⟨rfl, rfl, rfl⟩, hrun⟩⟩

end OsSim.MemoryVictims
