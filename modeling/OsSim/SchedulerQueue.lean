import Mathlib.Data.List.Basic
import Mathlib.Logic.Function.Basic
import Mathlib.Tactic.Common

/-!
# Bounded array queues

The array of 50 pointers with its size, and the three operations with their
shift loops. Each operation is matched with the operation on the list of
members it stands for: append unless full, drop the head, erase the first
match.
-/

namespace OsSim.SchedulerQueue

variable {α : Type*}

/-- `MAX_QUEUE_SIZE`. -/
def maxQueueSize : ℕ := 50

/-- `struct queue_t`. Cells past the size may hold stale pointers; a queue with a
`NULL` member or more members than cells cannot be built. -/
structure Queue (α : Type*) where
  /-- The cells of `proc`. -/
  proc : ℕ → Option α
  /-- Number of members. -/
  size : ℕ
  /-- The members fit the array. -/
  size_le : size ≤ maxQueueSize
  /-- No member is `NULL`. -/
  filled : ∀ i < size, (proc i).isSome

/-- A queue of a zeroed static variable. -/
def Queue.init : Queue α := ⟨fun _ => none, 0, Nat.zero_le _, fun _ h => absurd h (Nat.not_lt_zero _)⟩

/-- `empty`. -/
def empty (q : Queue α) : Bool := q.size = 0

/-- Another member behind the last one is no hole. -/
theorem filled_update {cells : ℕ → Option α} {n : ℕ} (h : ∀ i < n, (cells i).isSome) (a : α) :
    ∀ i < n + 1, (Function.update cells n (some a) i).isSome := by
  intro i hi
  by_cases he : i = n
  · rw [he, Function.update_self]
    rfl
  · rw [Function.update_of_ne he]
    exact h i (by omega)

/-- `enqueue`: a full queue prints a warning and stays as it is. -/
def enqueue (q : Queue α) (proc : α) : Queue α :=
  if h : maxQueueSize ≤ q.size then q
  else ⟨Function.update q.proc q.size (some proc), q.size + 1, Nat.not_le.mp h,
    filled_update q.filled proc⟩

/-- The shift loop from cell `i`, for `n` iterations. -/
def shiftLoop (cells : ℕ → Option α) : ℕ → ℕ → ℕ → Option α
  | _, 0 => cells
  | i, n + 1 => shiftLoop (Function.update cells i (cells (i + 1))) (i + 1) n

/-- Every shifted cell holds what its successor held. -/
theorem shiftLoop_apply (cells : ℕ → Option α) (i n k : ℕ) : shiftLoop cells i n k =
    if i ≤ k ∧ k < i + n then cells (k + 1) else cells k := by
  induction n generalizing cells i with
  | zero => rw [shiftLoop, if_neg (by omega)]
  | succ n ih =>
    rw [shiftLoop, ih]
    by_cases hlt : i + 1 ≤ k ∧ k < i + 1 + n
    · rw [if_pos hlt, if_pos (by omega), Function.update_of_ne (by omega)]
    · rw [if_neg hlt]
      by_cases he : k = i
      · rw [he, Function.update_self, if_pos (by omega)]
      · rw [Function.update_of_ne he, if_neg (by omega)]

/-- Removal of the member in cell `i`, as both removing operations do it. -/
def removeAt (q : Queue α) (i : ℕ) : Queue α :=
  ⟨shiftLoop q.proc i (q.size - 1 - i), q.size - 1, Nat.le_trans (Nat.sub_le _ _) q.size_le, by
    intro k hk
    rw [shiftLoop_apply]
    split
    · exact q.filled _ (by omega)
    · exact q.filled _ (by omega)⟩

/-- `dequeue` of the MLQ build. -/
def dequeue (q : Queue α) : Option α × Queue α :=
  if q.size = 0 then (none, q) else (q.proc 0, removeAt q 0)

/-- The search loop from cell `i`, for `n` iterations. -/
def findFrom (p : α → Bool) (cells : ℕ → Option α) : ℕ → ℕ → Option ℕ
  | _, 0 => none
  | i, n + 1 => if (cells i).any p then some i else findFrom p cells (i + 1) n

/-- `purgequeue`, for the test that compares pids. -/
def purgequeue (q : Queue α) (p : α → Bool) : Option α × Queue α :=
  match findFrom p q.proc 0 q.size with
  | none => (none, q)
  | some i => (q.proc i, removeAt q i)

/-- The member a search loop over the whole queue stops at. -/
def findProc (q : Queue α) (p : α → Bool) : Option α :=
  (findFrom p q.proc 0 q.size).bind q.proc

/-! ## The list of members -/

/-- The contents of `n` cells from cell `i` on. -/
def contents (cells : ℕ → Option α) : ℕ → ℕ → List α
  | _, 0 => []
  | i, n + 1 => (cells i).toList ++ contents cells (i + 1) n

/-- The members of a queue, head first. -/
def Queue.toList (q : Queue α) : List α := contents q.proc 0 q.size

/-- Contents depend only on the cells they come from. -/
theorem contents_congr {cells cells' : ℕ → Option α} {i j n : ℕ}
    (h : ∀ k < n, cells (i + k) = cells' (j + k)) : contents cells i n = contents cells' j n := by
  induction n generalizing i j with
  | zero => rfl
  | succ n ih =>
    have h0 := h 0 (Nat.succ_pos n)
    rw [Nat.add_zero, Nat.add_zero] at h0
    rw [contents, contents, h0]
    refine congrArg _ (ih fun k hk => ?_)
    have hk' := h (k + 1) (by omega)
    rw [Nat.add_assoc, Nat.add_assoc, Nat.add_comm 1 k]
    exact hk'

/-- Contents of adjacent ranges. -/
theorem contents_append (cells : ℕ → Option α) (i m n : ℕ) :
    contents cells i (m + n) = contents cells i m ++ contents cells (i + m) n := by
  induction m generalizing i with
  | zero => rw [Nat.zero_add, contents, List.nil_append, Nat.add_zero]
  | succ m ih =>
    rw [Nat.succ_add, contents, contents, ih, List.append_assoc, Nat.succ_add_eq_add_succ]

/-- A filled range begins with a member, and goes on filled. -/
theorem filled_uncons {cells : ℕ → Option α} {i n : ℕ}
    (h : ∀ k < n + 1, (cells (i + k)).isSome) :
    ∃ a, cells i = some a ∧ ∀ k < n, (cells (i + 1 + k)).isSome := by
  obtain ⟨a, ha⟩ := Option.isSome_iff_exists.mp (h 0 (Nat.succ_pos n))
  rw [Nat.add_zero] at ha
  refine ⟨a, ha, fun k hk => ?_⟩
  have hk' := h (k + 1) (Nat.succ_lt_succ hk)
  rwa [Nat.add_assoc, Nat.add_comm 1 k]

/-- The members of a queue are a filled range. -/
theorem Queue.filled_range (q : Queue α) : ∀ k < q.size, (q.proc (0 + k)).isSome := by
  intro k hk
  rw [Nat.zero_add]
  exact q.filled k hk

/-- A filled range has as many members as cells. -/
theorem contents_length {cells : ℕ → Option α} {i n : ℕ}
    (h : ∀ k < n, (cells (i + k)).isSome) : (contents cells i n).length = n := by
  induction n generalizing i with
  | zero => rfl
  | succ n ih =>
    obtain ⟨a, ha, hnext⟩ := filled_uncons h
    rw [contents, ha, List.length_append, ih hnext, Option.toList_some, List.length_singleton,
      Nat.add_comm]

@[simp] theorem Queue.length_toList (q : Queue α) : q.toList.length = q.size :=
  contents_length q.filled_range

@[simp] theorem Queue.toList_init : (Queue.init : Queue α).toList = [] := rfl

theorem empty_eq_true {q : Queue α} : empty q = true ↔ q.toList = [] := by
  rw [← List.length_eq_zero_iff, Queue.length_toList]
  exact decide_eq_true_iff

/-- Inserting appends, unless the queue is full. -/
theorem toList_enqueue (q : Queue α) (a : α) : (enqueue q a).toList =
    if q.size < maxQueueSize then q.toList ++ [a] else q.toList := by
  unfold enqueue
  split
  · next h => rw [if_neg (Nat.not_lt.mpr h)]
  · next h =>
    rw [if_pos (Nat.not_le.mp h)]
    dsimp only [Queue.toList]
    rw [contents_append, Nat.zero_add]
    refine congrArg₂ _ (contents_congr fun k hk => ?_) ?_
    · rw [Nat.zero_add, Function.update_of_ne (by omega)]
    · rw [contents, Function.update_self]
      rfl

/-- Removing cell `i` leaves the members before and behind it. -/
theorem toList_removeAt (q : Queue α) {i : ℕ} (hi : i < q.size) : (removeAt q i).toList =
    contents q.proc 0 i ++ contents q.proc (i + 1) (q.size - 1 - i) := by
  have hsize : q.size - 1 = i + (q.size - 1 - i) := by omega
  dsimp only [Queue.toList, removeAt]
  conv_lhs => rw [hsize, contents_append, Nat.zero_add]
  refine congrArg₂ _ (contents_congr fun k hk => ?_) (contents_congr fun k hk => ?_)
  · rw [shiftLoop_apply, if_neg (by omega)]
  · rw [shiftLoop_apply, if_pos (by omega), Nat.add_right_comm]

/-- The members around cell `i`. -/
theorem toList_split (q : Queue α) {i : ℕ} (hi : i < q.size) : ∃ a, q.proc i = some a ∧
    q.toList = contents q.proc 0 i ++ a :: contents q.proc (i + 1) (q.size - 1 - i) := by
  obtain ⟨a, ha⟩ := Option.isSome_iff_exists.mp (q.filled i hi)
  have hsize : q.size = i + (q.size - 1 - i + 1) := by omega
  refine ⟨a, ha, ?_⟩
  unfold Queue.toList
  conv_lhs => rw [hsize, contents_append, Nat.zero_add, contents, ha]
  rfl

/-- Taking the head is taking the head of the members. -/
theorem dequeue_spec (q : Queue α) :
    (dequeue q).1 = q.toList.head? ∧ (dequeue q).2.toList = q.toList.tail := by
  unfold dequeue
  split
  · next h =>
    have hnil := List.length_eq_zero_iff.mp (q.length_toList.trans h)
    rw [hnil]
    exact ⟨rfl, rfl⟩
  · next h =>
    obtain ⟨a, ha, hl⟩ := toList_split q (Nat.pos_of_ne_zero h)
    rw [hl, toList_removeAt q (Nat.pos_of_ne_zero h)]
    exact ⟨ha, rfl⟩

/-- A search loop stops at the first match. -/
theorem findFrom_spec (p : α → Bool) {cells : ℕ → Option α} {i n : ℕ}
    (h : ∀ k < n, (cells (i + k)).isSome) :
    (findFrom p cells i n = none ∧ ∀ a ∈ contents cells i n, ¬p a = true) ∨
    ∃ j a, findFrom p cells i n = some (i + j) ∧ j < n ∧ cells (i + j) = some a ∧ p a = true ∧
      ∀ b ∈ contents cells i j, ¬p b = true := by
  induction n generalizing i with
  | zero => exact Or.inl ⟨rfl, fun a ha => nomatch ha⟩
  | succ n ih =>
    obtain ⟨a, ha, hnext⟩ := filled_uncons h
    rw [findFrom, ha, Option.any_some]
    by_cases hp : p a = true
    · rw [if_pos hp]
      exact Or.inr ⟨0, a, rfl, Nat.succ_pos n, ha, hp, fun b hb => nomatch hb⟩
    · rw [if_neg hp]
      rcases ih hnext with ⟨hf, hall⟩ | ⟨j, b, hf, hj, hb, hpb, hall⟩
      · refine Or.inl ⟨hf, fun b hb => ?_⟩
        rw [contents, ha, Option.toList_some, List.singleton_append] at hb
        rcases List.mem_cons.mp hb with rfl | hb
        · exact hp
        · exact hall b hb
      · have hsucc : i + 1 + j = i + (j + 1) := by omega
        rw [hsucc] at hf hb
        refine Or.inr ⟨j + 1, b, hf, by omega, hb, hpb, fun c hc => ?_⟩
        rw [contents, ha, Option.toList_some, List.singleton_append] at hc
        rcases List.mem_cons.mp hc with rfl | hc
        · exact hp
        · exact hall c hc

/-- Purging erases the first match. -/
theorem toList_purgequeue (q : Queue α) (p : α → Bool) :
    (purgequeue q p).2.toList = q.toList.eraseP p := by
  unfold purgequeue
  rcases findFrom_spec p q.filled_range with ⟨hf, hall⟩ | ⟨j, a, hf, hj, ha, hp, hall⟩
  · rw [hf]
    exact (List.eraseP_of_forall_not hall).symm
  · rw [Nat.zero_add] at hf ha
    obtain ⟨b, hb, hl⟩ := toList_split q hj
    obtain rfl := Option.some.inj (ha.symm.trans hb)
    rw [hf, hl]
    dsimp only
    rw [toList_removeAt q hj, List.eraseP_append_right _ hall, List.eraseP_cons_of_pos hp]

/-- Searching finds the first match of the members. -/
theorem findProc_eq (q : Queue α) (p : α → Bool) : findProc q p = q.toList.find? p := by
  unfold findProc
  rcases findFrom_spec p q.filled_range with ⟨hf, hall⟩ | ⟨j, a, hf, hj, ha, hp, hall⟩
  · rw [hf]
    exact (List.find?_eq_none.mpr hall).symm
  · rw [Nat.zero_add] at hf ha
    obtain ⟨b, hb, hl⟩ := toList_split q hj
    obtain rfl := Option.some.inj (ha.symm.trans hb)
    rw [hf, hl, List.find?_append, List.find?_eq_none.mpr hall, Option.none_or,
      List.find?_cons_of_pos hp]
    exact ha

end OsSim.SchedulerQueue
