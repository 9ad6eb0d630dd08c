import Mathlib.Data.List.Nodup
import Mathlib.Logic.Function.Basic
import Mathlib.Tactic.Common

/-!
# Exclusive ownership of pooled resources

Keys own at most one resource each, and a pool lists the resources nobody owns.
Handing the head of the pool to a key, dropping an owned resource and losing
pooled ones all keep ownership exclusive.
-/

namespace OsSim.ResourcePool

variable {κ ρ : Type*}

/-- No resource has two owners, an owner and a place in the pool, or two places
in the pool. -/
structure Exclusive (own : κ → Option ρ) (pool : List ρ) : Prop where
  /-- Owners of the same resource are the same. -/
  unshared : ∀ k k' r, own k = some r → own k' = some r → k = k'
  /-- Owned resources are not in the pool. -/
  unpooled : ∀ k r, own k = some r → r ∉ pool
  /-- The pool has no duplicates. -/
  nodup : pool.Nodup

/-- Without owners, a pool only has to be free of duplicates. -/
theorem exclusive_unowned {pool : List ρ} (h : pool.Nodup) :
    Exclusive (fun _ : κ => none) pool :=
  ⟨fun _ _ _ hk => (nomatch hk), fun _ _ hk => (nomatch hk), h⟩

/-- Resources may get lost from the pool. -/
theorem Exclusive.sublist {own : κ → Option ρ} {pool pool' : List ρ} (h : Exclusive own pool)
    (hs : pool'.Sublist pool) : Exclusive own pool' :=
  ⟨h.unshared, fun k r hk hr => h.unpooled k r hk (hs.subset hr), h.nodup.sublist hs⟩

/-- The head of the pool goes to a key, which drops what it owned. -/
theorem Exclusive.assign [DecidableEq κ] {own : κ → Option ρ} {r : ρ} {pool : List ρ}
    (h : Exclusive own (r :: pool)) (k : κ) :
    Exclusive (Function.update own k (some r)) pool := by
  obtain ⟨hr, hp⟩ := List.nodup_cons.mp h.nodup
  have hown : ∀ j x, Function.update own k (some r) j = some x →
      (j = k ∧ x = r) ∨ (j ≠ k ∧ own j = some x) := by
    intro j x hj
    by_cases he : j = k
    · subst he
      rw [Function.update_self] at hj
      exact Or.inl ⟨rfl, (Option.some.inj hj).symm⟩
    · rw [Function.update_of_ne he] at hj
      exact Or.inr ⟨he, hj⟩
  have hfresh : ∀ j, own j ≠ some r := fun j hj => h.unpooled j r hj List.mem_cons_self
  refine ⟨fun j j' x hj hj' => ?_, fun j x hj hx => ?_, hp⟩
  · obtain ⟨rfl, rfl⟩ | ⟨_, ho⟩ := hown j x hj
    · obtain ⟨rfl, _⟩ | ⟨_, ho'⟩ := hown j' x hj'
      · rfl
      · exact absurd ho' (hfresh j')
    · obtain ⟨rfl, rfl⟩ | ⟨_, ho'⟩ := hown j' x hj'
      · exact absurd ho (hfresh j)
      · exact h.unshared j j' x ho ho'
  · obtain ⟨rfl, rfl⟩ | ⟨_, ho⟩ := hown j x hj
    · exact hr hx
    · exact h.unpooled j x ho (List.mem_cons_of_mem _ hx)

end OsSim.ResourcePool
