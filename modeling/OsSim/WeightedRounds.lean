import OsSim.RunSteps
import Mathlib.Algebra.Order.BigOperators.Group.List
import Mathlib.Algebra.BigOperators.Group.Finset.Basic
import Mathlib.Algebra.Ring.Nat
import Mathlib.Data.List.Flatten
import Mathlib.Tactic.Common

/-!
# Weighted round robin

The members of a list are served in turn. A turn of a member lasts as many services
as the member weighs, and behind its turn the member is the last of the list. So
services come in rounds, and in each round every member has its weight.
-/

namespace OsSim.WeightedRounds

open RunSteps

variable {α : Type*} (w : α → ℕ)

/-- One service. The state is the list in the order of the coming turns, and how often
the first member has been served in its turn. -/
def serve : List α × ℕ → List α × ℕ
  | ([], c) => ([], c)
  | (a :: rest, c) => if c + 1 < w a then (a :: rest, c + 1) else (rest ++ [a], 0)

/-- Whom the next services serve. -/
def served : ℕ → List α × ℕ → List α
  | 0, _ => []
  | n + 1, t => t.1.head?.toList ++ served n (serve w t)

/-- One round: each member as often as it weighs. -/
def round (l : List α) : List α := l.flatMap fun a => List.replicate (w a) a

@[simp] theorem round_nil : round w [] = [] := rfl

@[simp] theorem round_cons (a : α) (l : List α) :
    round w (a :: l) = List.replicate (w a) a ++ round w l := rfl

/-- A round lasts as long as its members weigh together. -/
theorem length_round (l : List α) : (round w l).length = (l.map w).sum := by
  induction l with
  | nil => rfl
  | cons a l ih => rw [round_cons, List.length_append, List.length_replicate, ih, List.map_cons,
      List.sum_cons]

variable {w}

/-- What is served in `m + n` services is what is served in the first `m`, and then in `n`
more. -/
theorem served_add (m n : ℕ) (t : List α × ℕ) :
    served w (m + n) t = served w m t ++ served w n ((serve w)^[m] t) := by
  induction m generalizing t with
  | zero => rw [Nat.zero_add, Function.iterate_zero, id, served, List.nil_append]
  | succ m ih => rw [Nat.succ_add, served, ih, served, List.append_assoc, Function.iterate_succ_apply]

/-- The rest of a turn. -/
theorem rest_of_turn {a : α} (rest : List α) {c k : ℕ} (hk : 0 < k) (hw : c + k = w a) :
    served w k (a :: rest, c) = List.replicate k a ∧
      (serve w)^[k] (a :: rest, c) = (rest ++ [a], 0) := by
  induction k generalizing c with
  | zero => exact absurd hk (lt_irrefl 0)
  | succ k ih =>
    rw [served, Function.iterate_succ_apply, List.replicate_succ]
    rcases Nat.eq_zero_or_pos k with rfl | hpos
    · have hlast : serve w (a :: rest, c) = (rest ++ [a], 0) := if_neg (by omega)
      rw [hlast]
      exact ⟨rfl, rfl⟩
    · have hstay : serve w (a :: rest, c) = (a :: rest, c + 1) := if_pos (by omega)
      obtain ⟨hs, ht⟩ := ih (c := c + 1) hpos (by omega)
      rw [hstay, hs, ht]
      exact ⟨rfl, rfl⟩

/-- The turns of the first members of a list. -/
theorem turns {l : List α} (hw : ∀ a ∈ l, 0 < w a) (l' : List α) :
    served w (round w l).length (l ++ l', 0) = round w l ∧
      (serve w)^[(round w l).length] (l ++ l', 0) = (l' ++ l, 0) := by
  induction l generalizing l' with
  | nil => exact ⟨rfl, by rw [List.append_nil]; rfl⟩
  | cons a l ih =>
    obtain ⟨hs, ht⟩ := rest_of_turn (l ++ l') (hw a List.mem_cons_self) (Nat.zero_add (w a))
    obtain ⟨hs', ht'⟩ := ih (fun b hb => hw b (List.mem_cons_of_mem a hb)) (l' ++ [a])
    rw [List.append_assoc] at ht
    rw [round_cons, List.length_append, List.length_replicate, List.cons_append, served_add, hs,
      Nat.add_comm, Function.iterate_add_apply, ht, hs', ht', List.append_assoc,
      List.singleton_append]
    exact ⟨rfl, rfl⟩

/-- Any number of rounds serve the members as often, and end where they started. -/
theorem rounds {l : List α} (hw : ∀ a ∈ l, 0 < w a) (m : ℕ) :
    served w (m * (round w l).length) (l, 0) = (List.replicate m (round w l)).flatten ∧
      (serve w)^[m * (round w l).length] (l, 0) = (l, 0) := by
  induction m with
  | zero => rw [Nat.zero_mul]; exact ⟨rfl, rfl⟩
  | succ m ih =>
    obtain ⟨hs, ht⟩ := turns hw []
    rw [List.append_nil, List.nil_append] at *
    rw [Nat.succ_mul, Nat.add_comm, served_add, hs, ht, ih.1, Function.iterate_add_apply, ih.2, ht,
      List.replicate_succ, List.flatten_cons]
    exact ⟨rfl, rfl⟩

/-- Fewer services serve the first ones of more services. -/
theorem served_mono {m n : ℕ} (h : m ≤ n) (t : List α × ℕ) : served w m t <+: served w n t := by
  obtain ⟨k, rfl⟩ := Nat.exists_eq_add_of_le h
  rw [served_add]
  exact List.prefix_append _ _

/-- A run serves in rounds if each of its steps serves whose turn it is, or nobody. -/
theorem served_of_run {σ ι : Type*} {next : σ → ι → σ → Prop} (I : σ → Prop)
    (turn : σ → List α × ℕ) (whom : ι → Option α)
    (hstep : ∀ s i s', I s → next s i s' → I s' ∧
      (whom i = none ∧ turn s' = turn s ∨
        ∃ a, whom i = some a ∧ (turn s).1.head? = some a ∧ turn s' = serve w (turn s)))
    {s s' : σ} {is : List ι} (h : Run next s is s') (hs : I s) :
    is.filterMap whom = served w (is.filterMap whom).length (turn s) := by
  induction h with
  | nil s => rfl
  | cons hn _ ih =>
    obtain ⟨hI, ⟨hnone, hturn⟩ | ⟨a, hsome, hhead, hturn⟩⟩ := hstep _ _ _ hs hn
    · rw [List.filterMap_cons_none hnone, ← hturn]
      exact ih hI
    · rw [List.filterMap_cons_some hsome, List.length_cons, served, hhead, Option.toList_some,
        List.singleton_append, ← hturn, ← ih hI]

variable [DecidableEq α]

/-- In one round a member has its weight. -/
theorem count_round {l : List α} (hl : l.Nodup) {a : α} (ha : a ∈ l) :
    (round w l).count a = w a := by
  induction l with
  | nil => exact absurd ha List.not_mem_nil
  | cons b l ih =>
    obtain ⟨hb, hnodup⟩ := List.nodup_cons.mp hl
    rw [round_cons, List.count_append]
    rcases List.mem_cons.mp ha with rfl | hmem
    · have hzero : (round w l).count a = 0 := by
        refine List.count_eq_zero.mpr fun hin => hb ?_
        obtain ⟨c, hc, hac⟩ := List.mem_flatMap.mp hin
        exact List.eq_of_mem_replicate hac ▸ hc
      rw [List.count_replicate_self, hzero, Nat.add_zero]
    · have hne : b ≠ a := fun h => hb (h ▸ hmem)
      rw [List.count_replicate, if_neg (by simpa using hne), ih hnodup hmem, Nat.zero_add]

/-- In some rounds it has as many times its weight. -/
theorem count_rounds {l : List α} (hl : l.Nodup) {a : α} (ha : a ∈ l) (m : ℕ) :
    (List.replicate m (round w l)).flatten.count a = m * w a := by
  rw [List.count_flatten, List.map_replicate, count_round hl ha, List.sum_replicate_nat]

/-- Of any number of services each member has its share: its weight in every whole round,
and at most its weight in the round that is not over. -/
theorem share {l : List α} (hw : ∀ a ∈ l, 0 < w a) (hl : l.Nodup) {a : α} (ha : a ∈ l) (n : ℕ) :
    n / (round w l).length * w a ≤ (served w n (l, 0)).count a ∧
      (served w n (l, 0)).count a ≤ (n / (round w l).length + 1) * w a := by
  have hpos : 0 < (round w l).length := by
    have hone : 0 < (round w l).count a := (count_round hl ha).symm ▸ hw a ha
    exact hone.trans_le List.count_le_length
  have hcount : ∀ m, (served w (m * (round w l).length) (l, 0)).count a = m * w a := fun m => by
    rw [(rounds hw m).1, count_rounds hl ha]
  rw [← hcount (n / _), ← hcount (n / _ + 1)]
  refine ⟨(served_mono (Nat.div_mul_le_self n _) _).sublist.count_le a,
    (served_mono ?_ _).sublist.count_le a⟩
  rw [Nat.succ_mul]
  exact Nat.le_of_lt (Nat.lt_div_mul_add hpos)

end OsSim.WeightedRounds
