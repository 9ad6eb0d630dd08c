import Mathlib.Algebra.BigOperators.Fin
import Mathlib.Order.Interval.Set.Basic
import Mathlib.Order.CompletePartialOrder
import Mathlib.Order.Disjoint

/-!
# How often a family of half-open spans covers a point

Counting the spans over each point turns disjointness of a family into an upper
bound, and turns splitting, moving and replacing spans into addition. A family is
pairwise disjoint exactly when no point is covered twice.
-/

namespace OsSim.SpanCover

variable {α : Type*} [LinearOrder α]

/-- One if the span contains the point, zero otherwise. -/
def hit (s : α × α) (a : α) : ℕ := if s.1 ≤ a ∧ a < s.2 then 1 else 0

/-- Number of spans of the list that contain the point. -/
def cover (l : List (α × α)) (a : α) : ℕ := (l.map (hit · a)).sum

@[simp] theorem cover_nil (a : α) : cover ([] : List (α × α)) a = 0 := rfl

@[simp] theorem cover_cons (s : α × α) (l : List (α × α)) (a : α) :
    cover (s :: l) a = hit s a + cover l a := by
  simp only [cover, List.map_cons, List.sum_cons]

@[simp] theorem cover_append (l m : List (α × α)) (a : α) :
    cover (l ++ m) a = cover l a + cover m a := by
  simp only [cover, List.map_append, List.sum_append]

theorem hit_le_one (s : α × α) (a : α) : hit s a ≤ 1 := by
  unfold hit
  split <;> decide

theorem hit_pos {s : α × α} {a : α} : 0 < hit s a ↔ a ∈ Set.Ico s.1 s.2 := by
  unfold hit
  rw [Set.mem_Ico]
  split
  · next h => exact ⟨fun _ => h, fun _ => Nat.one_pos⟩
  · next h => exact ⟨fun h' => absurd h' (Nat.lt_irrefl 0), fun h' => absurd h' h⟩

/-- An empty span contains nothing. -/
theorem hit_eq_zero_of_le {s : α × α} (h : s.2 ≤ s.1) (a : α) : hit s a = 0 := by
  unfold hit
  rw [if_neg]
  exact fun ha => absurd (ha.1.trans_lt ha.2) h.not_gt

/-- A point past the end of a span is not in it. -/
theorem hit_eq_zero_of_end_le {s : α × α} {a : α} (h : s.2 ≤ a) : hit s a = 0 := by
  unfold hit
  rw [if_neg]
  exact fun ha => absurd ha.2 h.not_gt

/-- Cutting a span in two conserves its points. -/
theorem hit_split {lo mid hi : α} (h1 : lo ≤ mid) (h2 : mid ≤ hi) (a : α) :
    hit (lo, mid) a + hit (mid, hi) a = hit (lo, hi) a := by
  dsimp only [hit]
  by_cases hlo : lo ≤ a
  · by_cases hmid : a < mid
    · rw [if_pos ⟨hlo, hmid⟩, if_neg (fun h => absurd h.1 hmid.not_ge),
        if_pos ⟨hlo, hmid.trans_le h2⟩]
    · have hm := not_lt.mp hmid
      rw [if_neg (fun h => hmid h.2), Nat.zero_add]
      by_cases hhi : a < hi
      · rw [if_pos ⟨hm, hhi⟩, if_pos ⟨hlo, hhi⟩]
      · rw [if_neg (fun h => hhi h.2), if_neg (fun h => hhi h.2)]
  · rw [if_neg (fun h => hlo h.1), if_neg (fun h => hlo (h1.trans h.1)),
      if_neg (fun h => hlo h.1)]

/-- A member of the family counts for its own points. -/
theorem hit_le_cover {s : α × α} {l : List (α × α)} (h : s ∈ l) (a : α) :
    hit s a ≤ cover l a := by
  induction l with
  | nil => cases h
  | cons t l ih =>
    rw [cover_cons]
    rcases List.mem_cons.mp h with rfl | hm
    · exact Nat.le_add_right _ _
    · exact (ih hm).trans (Nat.le_add_left _ _)

/-- Some member of the family contains every covered point. -/
theorem exists_mem_of_cover_pos {l : List (α × α)} {a : α} (h : 0 < cover l a) :
    ∃ s ∈ l, 0 < hit s a := by
  induction l with
  | nil => exact absurd h (Nat.lt_irrefl 0)
  | cons s l ih =>
    rw [cover_cons] at h
    by_cases hs : 0 < hit s a
    · exact ⟨s, List.mem_cons_self, hs⟩
    · obtain ⟨t, ht, hp⟩ := ih (by omega)
      exact ⟨t, List.mem_cons_of_mem _ ht, hp⟩

/-- A point past every end is not covered. -/
theorem cover_eq_zero_of_end_le {l : List (α × α)} {a : α} (h : ∀ s ∈ l, s.2 ≤ a) :
    cover l a = 0 := by
  by_contra hc
  obtain ⟨s, hs, hp⟩ := exists_mem_of_cover_pos (Nat.pos_of_ne_zero hc)
  rw [hit_eq_zero_of_end_le (h s hs)] at hp
  exact absurd hp (Nat.lt_irrefl 0)

/-- No point is covered twice exactly when the spans are pairwise disjoint. -/
theorem cover_le_one_iff (l : List (α × α)) : (∀ a, cover l a ≤ 1) ↔
    l.Pairwise fun s t => Disjoint (Set.Ico s.1 s.2) (Set.Ico t.1 t.2) := by
  induction l with
  | nil => exact ⟨fun _ => List.Pairwise.nil, fun _ a => Nat.zero_le 1⟩
  | cons s l ih =>
    rw [List.pairwise_cons, ← ih]
    constructor
    · intro h
      refine ⟨fun t ht => ?_, fun a => ?_⟩
      · rw [Set.disjoint_left]
        intro a has hat
        have hs := hit_pos.mpr has
        have hp := (hit_pos.mpr hat).trans_le (hit_le_cover ht a)
        have hle := h a
        rw [cover_cons] at hle
        omega
      · exact (Nat.le_add_left _ _).trans ((cover_cons s l a) ▸ h a)
    · rintro ⟨hd, hl⟩ a
      rw [cover_cons]
      have h1 := hit_le_one s a
      have h2 := hl a
      by_contra hc
      obtain ⟨t, ht, hp⟩ := exists_mem_of_cover_pos (l := l) (a := a) (by omega)
      exact Set.disjoint_left.mp (hd t ht) (hit_pos.mp (by omega)) (hit_pos.mp hp)

/-- A table of spans covers a point as often as its entries contain it. -/
theorem cover_ofFn {n : ℕ} (f : Fin n → α × α) (a : α) :
    cover (List.ofFn f) a = ∑ i, hit (f i) a := by
  unfold cover
  rw [List.map_ofFn, List.sum_ofFn]
  rfl

/-- Replacing one entry of a table trades its points for those of the new one. -/
theorem cover_ofFn_update {n : ℕ} (f : Fin n → α × α) (k : Fin n) (s : α × α) (a : α) :
    cover (List.ofFn (Function.update f k s)) a + hit (f k) a =
      cover (List.ofFn f) a + hit s a := by
  rw [cover_ofFn, cover_ofFn, ← Finset.add_sum_erase _ _ (Finset.mem_univ k),
    ← Finset.add_sum_erase Finset.univ (fun i => hit (f i) a) (Finset.mem_univ k)]
  have hrest : ∑ i ∈ Finset.univ.erase k, hit (Function.update f k s i) a =
      ∑ i ∈ Finset.univ.erase k, hit (f i) a := by
    apply Finset.sum_congr rfl
    intro i hi
    rw [Function.update_of_ne (Finset.ne_of_mem_erase hi)]
  rw [hrest, Function.update_self]
  omega

end OsSim.SpanCover
