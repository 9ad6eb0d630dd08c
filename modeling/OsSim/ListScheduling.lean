import Mathlib.Algebra.BigOperators.Ring.Finset
import Mathlib.Algebra.Order.BigOperators.Group.Finset
import Mathlib.Order.Interval.Finset.Nat

/-!
# List scheduling

Workers that each do one unit of work in a slot, or none. When no slot is without any
worker, the length of a period is bounded by all the work done and by the slots in which
some worker was idle; a job that is worked on whenever a worker is idle is done soon.
-/

namespace OsSim.ListScheduling

variable {κ : Type*} [Fintype κ] {runs runs' : κ → List ℕ} {first last : ℕ}

/-- The slots strictly between two slots. -/
def period (first last : ℕ) : Finset ℕ := Finset.Ioo first last

theorem mem_period {t : ℕ} : t ∈ period first last ↔ first < t ∧ t < last := Finset.mem_Ioo

theorem card_period (first last : ℕ) : (period first last).card = last - first - 1 :=
  Nat.card_Ioo first last

/-- Between a slot and the next one, or an earlier one, there is no slot. -/
theorem period_eq_empty (h : last ≤ first + 1) : period first last = ∅ := by
  refine Finset.eq_empty_of_forall_notMem fun t ht => ?_
  obtain ⟨hfirst, hlast⟩ := mem_period.mp ht
  omega

/-- A period that goes on for one more slot. -/
theorem period_succ (h : first < last) :
    period first (last + 1) = insert last (period first last) := by
  ext t
  rw [Finset.mem_insert, mem_period, mem_period]
  omega

/-- The workers that are busy in a slot. -/
def busyWorkers (runs : κ → List ℕ) (t : ℕ) : Finset κ := Finset.univ.filter fun k => t ∈ runs k

/-- The slots of a period in which some worker is idle. -/
def idleSlots (runs : κ → List ℕ) (first last : ℕ) : Finset ℕ :=
  (period first last).filter fun t => ∃ k, t ∉ runs k

theorem idleSlots_eq_empty (h : last ≤ first + 1) : idleSlots runs first last = ∅ := by
  unfold idleSlots
  rw [period_eq_empty h, Finset.filter_empty]

/-- Only the slots of the period count. -/
theorem idleSlots_congr (h : ∀ t, t < last → ∀ k, t ∈ runs' k ↔ t ∈ runs k) :
    idleSlots runs' first last = idleSlots runs first last := by
  refine Finset.filter_congr fun t ht => ?_
  exact exists_congr fun k => not_congr (h t (mem_period.mp ht).2 k)

/-- One more slot is idle or not. -/
theorem card_idleSlots_succ (runs : κ → List ℕ) (first last : ℕ) :
    (idleSlots runs first (last + 1)).card ≤ (idleSlots runs first last).card +
      if first < last ∧ ∃ k, last ∉ runs k then 1 else 0 := by
  by_cases hfirst : first < last
  · have hsplit : idleSlots runs first (last + 1) =
        if ∃ k, last ∉ runs k then insert last (idleSlots runs first last)
        else idleSlots runs first last := by
      unfold idleSlots
      rw [period_succ hfirst, Finset.filter_insert]
    rw [hsplit]
    by_cases hidle : ∃ k, last ∉ runs k
    · rw [if_pos hidle, if_pos ⟨hfirst, hidle⟩]
      exact Finset.card_insert_le _ _
    · rw [if_neg hidle]
      exact Nat.le_add_right _ _
  · rw [idleSlots_eq_empty (by omega), Finset.card_empty]
    exact Nat.zero_le _

/-- The work done in a period is no more than all the work done. -/
theorem sum_busyWorkers_le (runs : κ → List ℕ) (slots : Finset ℕ) :
    ∑ t ∈ slots, (busyWorkers runs t).card ≤ ∑ k, (runs k).length := by
  have hworker : ∀ k, (slots.filter fun t => t ∈ runs k).card ≤ (runs k).length := by
    intro k
    refine (Finset.card_le_card fun t ht => ?_).trans (List.toFinset_card_le (runs k))
    exact List.mem_toFinset.mpr (Finset.mem_filter.mp ht).2
  calc ∑ t ∈ slots, (busyWorkers runs t).card
      = ∑ t ∈ slots, ∑ k, if t ∈ runs k then 1 else 0 :=
        Finset.sum_congr rfl fun t _ => Finset.card_filter _ _
    _ = ∑ k, ∑ t ∈ slots, if t ∈ runs k then 1 else 0 := Finset.sum_comm
    _ = ∑ k, (slots.filter fun t => t ∈ runs k).card :=
        Finset.sum_congr rfl fun k _ => (Finset.card_filter _ _).symm
    _ ≤ ∑ k, (runs k).length := Finset.sum_le_sum fun k _ => hworker k

/-- In a slot with a busy worker all are busy, or all but one are made up for. -/
theorem card_le_busyWorkers {t : ℕ} (h : ∃ k, t ∈ runs k) :
    Fintype.card κ ≤ (busyWorkers runs t).card +
      (Fintype.card κ - 1) * if ∃ k, t ∉ runs k then 1 else 0 := by
  by_cases hidle : ∃ k, t ∉ runs k
  · obtain ⟨k, hk⟩ := h
    have hbusy : 0 < (busyWorkers runs t).card :=
      Finset.card_pos.mpr ⟨k, Finset.mem_filter.mpr ⟨Finset.mem_univ k, hk⟩⟩
    rw [if_pos hidle]
    omega
  · have hall : busyWorkers runs t = Finset.univ :=
      Finset.filter_true_of_mem fun k _ => not_not.mp (not_exists.mp hidle k)
    rw [if_neg hidle, hall, Finset.card_univ]
    exact Nat.le_add_right _ _

/-- A period without a slot in which all workers are idle is no longer than the work done and
the slots with an idle worker allow. -/
theorem card_mul_period_le (runs : κ → List ℕ) (first last : ℕ)
    (h : ∀ t, first < t → t < last → ∃ k, t ∈ runs k) :
    Fintype.card κ * (last - first - 1) ≤ ∑ k, (runs k).length +
      (Fintype.card κ - 1) * (idleSlots runs first last).card := by
  calc Fintype.card κ * (last - first - 1)
      = ∑ _t ∈ period first last, Fintype.card κ := by
        rw [Finset.sum_const_nat fun _ _ => rfl, card_period, Nat.mul_comm]
    _ ≤ ∑ t ∈ period first last, ((busyWorkers runs t).card +
          (Fintype.card κ - 1) * if ∃ k, t ∉ runs k then 1 else 0) :=
        Finset.sum_le_sum fun t ht =>
          card_le_busyWorkers (h t (mem_period.mp ht).1 (mem_period.mp ht).2)
    _ = ∑ t ∈ period first last, (busyWorkers runs t).card +
          (Fintype.card κ - 1) * (idleSlots runs first last).card := by
        rw [Finset.sum_add_distrib, ← Finset.mul_sum, ← Finset.card_filter]
        rfl
    _ ≤ ∑ k, (runs k).length + (Fintype.card κ - 1) * (idleSlots runs first last).card :=
        Nat.add_le_add_right (sum_busyWorkers_le runs _) _

/-- A job that has been worked on in every slot of the period in which a worker was idle,
and is not done yet, bounds the period by the work of all jobs and its own. -/
theorem card_mul_period_lt {total work job : ℕ}
    (h : ∀ t, first < t → t < last → ∃ k, t ∈ runs k) (htotal : ∑ k, (runs k).length < total)
    (hidle : (idleSlots runs first last).card ≤ work) (hwork : work ≤ job) :
    Fintype.card κ * (last - first - 1) < total + (Fintype.card κ - 1) * job := by
  have hbound := card_mul_period_le runs first last h
  have hjob : (Fintype.card κ - 1) * (idleSlots runs first last).card ≤
      (Fintype.card κ - 1) * job := Nat.mul_le_mul_left _ (hidle.trans hwork)
  omega

end OsSim.ListScheduling
