import OsSim.RunSteps
import Mathlib.Order.BooleanAlgebra.Set
import Mathlib.Logic.Function.Basic
import Mathlib.Logic.Relation

/-!
# Programs over mutexes

A program locks and unlocks mutexes and branches on values it is told nothing
about. One precondition calculus decides for a program, run with a set of mutexes
held, that it takes locks in the order of their ranks and unlocks only what it
holds. Threads that interleave such programs never wait for themselves or in a
circle, and some thread can always go on.

Fairness and the time a thread waits are outside of the machine.
-/

namespace OsSim.MutexPrograms

open RunSteps

/-- What a thread still has to do: the operations on mutexes in the order of the
control flow, with unknown integers to branch on. -/
inductive Prog (μ α : Type)
  /-- Return a value. -/
  | pure (a : α)
  /-- Take a mutex, then go on. -/
  | lock (m : μ) (k : Prog μ α)
  /-- Give a mutex back, then go on. -/
  | unlock (m : μ) (k : Prog μ α)
  /-- Go on with a value from outside. -/
  | any (k : ℤ → Prog μ α)

variable {μ κ ι α β : Type}

/-- Go on with what a program returns. -/
def Prog.bind : Prog μ α → (α → Prog μ β) → Prog μ β
  | .pure a, f => f a
  | .lock m k, f => .lock m (k.bind f)
  | .unlock m k, f => .unlock m (k.bind f)
  | .any k, f => .any fun v => (k v).bind f

instance : Monad (Prog μ) where
  pure := Prog.pure
  bind := Prog.bind

/-- Take a mutex. -/
def mutexLock (m : μ) : Prog μ Unit := .lock m (.pure ())

/-- Give a mutex back. -/
def mutexUnlock (m : μ) : Prog μ Unit := .unlock m (.pure ())

/-- A value the mutexes do not depend on. -/
def anyInt : Prog μ ℤ := .any .pure

/-! ## Return paths -/

/-- An operation on a mutex. -/
inductive Event (μ : Type)
  /-- The mutex is taken. -/
  | locked (m : μ)
  /-- The mutex is given back. -/
  | unlocked (m : μ)

/-- A path through a program to a return: its events and the value returned. -/
inductive Path : Prog μ α → List (Event μ) → α → Prop
  /-- The return itself. -/
  | pure (a : α) : Path (.pure a) [] a
  /-- Past a lock. -/
  | lock {m : μ} {k : Prog μ α} {es : List (Event μ)} {a : α} (h : Path k es a) :
      Path (.lock m k) (.locked m :: es) a
  /-- Past an unlock. -/
  | unlock {m : μ} {k : Prog μ α} {es : List (Event μ)} {a : α} (h : Path k es a) :
      Path (.unlock m k) (.unlocked m :: es) a
  /-- Past a value. -/
  | any {k : ℤ → Prog μ α} (v : ℤ) {es : List (Event μ)} {a : α} (h : Path (k v) es a) :
      Path (.any k) es a

/-- Some path returns the value. -/
def Returns (p : Prog μ α) (a : α) : Prop := ∃ es, Path p es a

theorem returns_pure (a : α) : Returns (pure a : Prog μ α) a := ⟨[], .pure a⟩

theorem returns_lock {m : μ} {f : Unit → Prog μ α} {a : α} (h : Returns (f ()) a) :
    Returns (mutexLock m >>= f) a :=
  h.elim fun _ hp => ⟨_, .lock hp⟩

theorem returns_unlock {m : μ} {f : Unit → Prog μ α} {a : α} (h : Returns (f ()) a) :
    Returns (mutexUnlock m >>= f) a :=
  h.elim fun _ hp => ⟨_, .unlock hp⟩

theorem returns_any {f : ℤ → Prog μ α} {a : α} (v : ℤ) (h : Returns (f v) a) :
    Returns (anyInt >>= f) a :=
  h.elim fun _ hp => ⟨_, .any v hp⟩

theorem returns_bind {p : Prog μ α} {f : α → Prog μ β} {a : α} {b : β} (hp : Returns p a)
    (hf : Returns (f a) b) : Returns (p >>= f) b := by
  obtain ⟨es, hp⟩ := hp
  change Returns (p.bind f) b
  induction hp with
  | pure a => exact hf
  | lock _ ih => exact returns_lock (f := fun _ => _) (ih hf)
  | unlock _ ih => exact returns_unlock (f := fun _ => _) (ih hf)
  | any v _ ih => exact returns_any (f := fun _ => _) v (ih hf)

/-- On every path to a return, each mutex taken is given back behind it. -/
def Releases (p : Prog μ α) : Prop :=
  ∀ es a, Path p es a → ∀ l₁ l₂ m, es = l₁ ++ .locked m :: l₂ → .unlocked m ∈ l₂

/-- The mutexes held behind some events. -/
def heldAfter (H : Set μ) : List (Event μ) → Set μ
  | [] => H
  | .locked m :: es => heldAfter (insert m H) es
  | .unlocked m :: es => heldAfter (H \ {m}) es

theorem heldAfter_append (H : Set μ) (l₁ l₂ : List (Event μ)) :
    heldAfter H (l₁ ++ l₂) = heldAfter (heldAfter H l₁) l₂ := by
  induction l₁ generalizing H with
  | nil => rfl
  | cons e l₁ ih => cases e <;> exact ih _

/-- A mutex stays held as long as it is not given back. -/
theorem unlocked_mem_of_heldAfter {m : μ} {H : Set μ} {es : List (Event μ)} (hm : m ∈ H)
    (h : m ∉ heldAfter H es) : .unlocked m ∈ es := by
  induction es generalizing H with
  | nil => exact absurd hm h
  | cons e es ih =>
    cases e with
    | locked n => exact List.mem_cons_of_mem _ (ih (Set.mem_insert_of_mem n hm) h)
    | unlocked n =>
      by_cases hn : m = n
      · rw [hn]
        exact List.mem_cons_self
      · exact List.mem_cons_of_mem _ (ih (Set.mem_sdiff_singleton.mpr ⟨hm, hn⟩) h)

/-! ## The precondition of a program -/

section Calculus

variable (rank : μ → ℕ)

/-- Run with the mutexes `H` held, the program takes only mutexes that rank above
all it holds, gives back only what it holds, and returns as `Q` says. -/
def wp : Prog μ α → Set μ → (α → Set μ → Prop) → Prop
  | .pure a, H, Q => Q a H
  | .lock m k, H, Q => (∀ n ∈ H, rank n < rank m) ∧ wp k (insert m H) Q
  | .unlock m k, H, Q => m ∈ H ∧ wp k (H \ {m}) Q
  | .any k, H, Q => ∀ v, wp (k v) H Q

/-- The program returns with the mutexes that it has been called with. -/
def Restores (H : Set μ) (p : Prog μ α) : Prop :=
  wp rank p H fun _ H' => H' = H

variable {rank} {H : Set μ} {Q R : α → Set μ → Prop}

theorem wp_mono {p : Prog μ α} (hQ : ∀ a H', Q a H' → R a H') (h : wp rank p H Q) :
    wp rank p H R := by
  induction p generalizing H with
  | pure a => exact hQ a H h
  | lock m k ih => exact ⟨h.1, ih h.2⟩
  | unlock m k ih => exact ⟨h.1, ih h.2⟩
  | any k ih => exact fun v => ih v (h v)

theorem wp_bind {p : Prog μ α} {f : α → Prog μ β} {Q : β → Set μ → Prop}
    (h : wp rank p H fun a H' => wp rank (f a) H' Q) : wp rank (p >>= f) H Q := by
  change wp rank (p.bind f) H Q
  induction p generalizing H with
  | pure a => exact h
  | lock m k ih => exact ⟨h.1, ih h.2⟩
  | unlock m k ih => exact ⟨h.1, ih h.2⟩
  | any k ih => exact fun v => ih v (h v)

/-- Behind a restoring call the caller holds what it held. -/
theorem wp_call {p : Prog μ α} {f : α → Prog μ β} {Q : β → Set μ → Prop}
    (hp : Restores rank H p) (hf : ∀ a, wp rank (f a) H Q) : wp rank (p >>= f) H Q :=
  wp_bind (wp_mono (fun a H' (hH : H' = H) => hH ▸ hf a) hp)

theorem wp_lock {m : μ} {f : Unit → Prog μ α} (hm : ∀ n ∈ H, rank n < rank m)
    (h : wp rank (f ()) (insert m H) Q) : wp rank (mutexLock m >>= f) H Q :=
  ⟨hm, h⟩

theorem wp_unlock {m : μ} {f : Unit → Prog μ α} (hm : m ∉ H)
    (h : wp rank (f ()) H Q) : wp rank (mutexUnlock m >>= f) (insert m H) Q := by
  refine ⟨Set.mem_insert m H, ?_⟩
  change wp rank (f ()) _ Q
  rwa [Set.insert_sdiff_self_of_notMem hm]

theorem wp_any {f : ℤ → Prog μ α} (h : ∀ v, wp rank (f v) H Q) :
    wp rank (anyInt >>= f) H Q :=
  h

theorem wp_pure {a : α} (h : Q a H) : wp rank (pure a : Prog μ α) H Q := h

/-- A mutex that ranks above all that are held is not held. -/
theorem notMem_of_rank {m : μ} (hm : ∀ n ∈ H, rank n < rank m) : m ∉ H :=
  fun h => Nat.lt_irrefl _ (hm m h)

/-- What is above the new mutex is above the old ones. -/
theorem rank_insert {m n : μ} (hm : ∀ l ∈ H, rank l < rank m) (hmn : rank m < rank n) :
    ∀ l ∈ insert m H, rank l < rank n := by
  intro l hl
  cases hl with
  | inl h => rwa [h]
  | inr h => exact (hm l h).trans hmn

/-- The calculus speaks about every path. -/
theorem Path.sound {p : Prog μ α} {es : List (Event μ)} {a : α} (hp : Path p es a)
    (h : wp rank p H Q) : Q a (heldAfter H es) := by
  induction hp generalizing H with
  | pure a => exact h
  | lock _ ih => exact ih h.2
  | unlock _ ih => exact ih h.2
  | any v _ ih => exact ih (h v)

/-- A restoring program leaks no mutex. -/
theorem Restores.releases {p : Prog μ α} (h : Restores rank ∅ p) : Releases p := by
  rintro es a hp l₁ l₂ m rfl
  have hend : heldAfter ∅ (l₁ ++ .locked m :: l₂) = ∅ := hp.sound h
  rw [heldAfter_append] at hend
  refine unlocked_mem_of_heldAfter (Set.mem_insert m (heldAfter ∅ l₁)) fun hm => ?_
  change m ∈ heldAfter (heldAfter ∅ l₁) (.locked m :: l₂) at hm
  rw [hend] at hm
  exact hm

end Calculus

/-! ## Threads -/

/-- The threads and the mutexes they share. -/
structure Machine (μ κ : Type) where
  /-- The thread that holds a mutex. -/
  owner : μ → Option κ
  /-- What a thread still has to do; between two calls that is nothing. -/
  thread : κ → Prog μ Unit

/-- No call has begun. -/
def Machine.initial : Machine μ κ := ⟨fun _ => none, fun _ => .pure ()⟩

/-- A thread stands in front of a mutex. -/
def Machine.AtLock (s : Machine μ κ) (i : κ) (m : μ) : Prop :=
  ∃ k, s.thread i = .lock m k

/-- A thread waits for a mutex another one, or it itself, holds. -/
def Machine.WaitsFor (s : Machine μ κ) (i j : κ) : Prop :=
  ∃ m, s.AtLock i m ∧ s.owner m = some j

/-- The mutexes of a thread. -/
def Machine.held (s : Machine μ κ) (i : κ) : Set μ := {m | s.owner m = some i}

/-- Each thread, from the mutexes it holds, ends its call in the order of the ranks
and with none. -/
def Ordered (rank : μ → ℕ) (s : Machine μ κ) : Prop :=
  ∀ i, wp rank (s.thread i) (s.held i) fun _ H => H = ∅

section Order

variable {rank : μ → ℕ} {s : Machine μ κ} {i j : κ} {m n : μ}

/-- In front of a mutex a thread holds only mutexes that rank below it. -/
theorem Ordered.rank_lt (hs : Ordered rank s) (hi : s.AtLock i m) (hn : s.owner n = some i) :
    rank n < rank m := by
  obtain ⟨k, hk⟩ := hi
  have h := hs i
  rw [hk] at h
  exact h.1 n hn

/-- No thread takes a mutex it holds. -/
theorem Ordered.not_own (hs : Ordered rank s) (hi : s.AtLock i m) : s.owner m ≠ some i :=
  fun h => Nat.lt_irrefl _ (hs.rank_lt hi h)

/-- What a thread gives back it holds. -/
theorem Ordered.owns_unlock {k : Prog μ Unit} (hs : Ordered rank s)
    (hi : s.thread i = .unlock m k) : s.owner m = some i := by
  have h := hs i
  rw [hi] at h
  exact h.1

/-- Between two calls a thread holds nothing. -/
theorem Ordered.idle_owns {u : Unit} (hs : Ordered rank s) (hi : s.thread i = .pure u) :
    s.owner m ≠ some i := by
  intro hm
  have h := hs i
  rw [hi] at h
  have hempty : s.held i = ∅ := h
  exact Set.notMem_empty m (hempty ▸ hm)

/-- Along a chain of waiting threads the mutexes waited for rise in rank. -/
theorem Ordered.rank_le_of_chain (hs : Ordered rank s) (h : Relation.TransGen s.WaitsFor i j) :
    ∃ m n, s.AtLock i m ∧ s.owner n = some j ∧ rank m ≤ rank n := by
  induction h with
  | single h =>
    obtain ⟨m, hi, hm⟩ := h
    exact ⟨m, m, hi, hm, Nat.le_refl _⟩
  | tail _ h ih =>
    obtain ⟨m, n, hi, hn, hmn⟩ := ih
    obtain ⟨l, hl, hj⟩ := h
    exact ⟨m, l, hi, hj, hmn.trans (hs.rank_lt hl hn).le⟩

/-- No threads wait for each other in a circle. -/
theorem Ordered.no_cycle (hs : Ordered rank s) (i : κ) :
    ¬ Relation.TransGen s.WaitsFor i i := by
  intro h
  obtain ⟨m, n, hi, hn, hmn⟩ := hs.rank_le_of_chain h
  exact absurd (hs.rank_lt hi hn) (Nat.not_lt.mpr hmn)

/-- A step of one thread keeps the order of the mutexes in the code of all threads. -/
theorem Ordered.update [DecidableEq κ] {owner : μ → Option κ} {p : Prog μ Unit} (hs : Ordered rank s)
    (hp : wp rank p {m | owner m = some i} fun _ H => H = ∅)
    (hheld : ∀ j, j ≠ i → {m | owner m = some j} = s.held j) :
    Ordered rank ⟨owner, Function.update s.thread i p⟩ := by
  intro j
  change wp rank (Function.update s.thread i p j) {m | owner m = some j} _
  by_cases hj : j = i
  · subst hj
    rwa [Function.update_self]
  · rw [Function.update_of_ne hj, hheld j hj]
    exact hs j

end Order

/-! ## Steps -/

/-- What a thread does next. -/
inductive Action (ι : Type)
  /-- Begin a call. -/
  | call (c : ι)
  /-- Go on in the call, with this value where it reads one. -/
  | go (v : ℤ)

variable [DecidableEq μ] [DecidableEq κ]

/-- A step of one thread. A mutex is taken only when nobody holds it. -/
def Machine.step (calls : ι → Prog μ Unit) (s : Machine μ κ) (a : κ × Action ι) :
    Option (Machine μ κ) :=
  match a.2, s.thread a.1 with
  | .call c, .pure _ => some ⟨s.owner, Function.update s.thread a.1 (calls c)⟩
  | .call _, _ => none
  | .go _, .pure _ => none
  | .go _, .lock m k =>
    if s.owner m = none then
      some ⟨Function.update s.owner m (some a.1), Function.update s.thread a.1 k⟩
    else none
  | .go _, .unlock m k =>
    some ⟨Function.update s.owner m none, Function.update s.thread a.1 k⟩
  | .go v, .any k => some ⟨s.owner, Function.update s.thread a.1 (k v)⟩

/-- The step relation of the machine. -/
def Next (calls : ι → Prog μ Unit) (s : Machine μ κ) (a : κ × Action ι)
    (t : Machine μ κ) : Prop :=
  s.step calls a = some t

/-- The states the machine runs into. -/
def ReachableMachine (calls : ι → Prog μ Unit) (s : Machine μ κ) : Prop :=
  Reachable (· = Machine.initial) (Next calls) s

section Steps

variable {rank : μ → ℕ} {calls : ι → Prog μ Unit} {s t : Machine μ κ} {i j : κ} {m : μ}

theorem Next.lock {k : Prog μ Unit} (hp : s.thread i = .lock m k) (hm : s.owner m = none)
    (v : ℤ) : Next calls s (i, .go v)
      ⟨Function.update s.owner m (some i), Function.update s.thread i k⟩ := by
  simp [Next, Machine.step, hp, hm]

theorem Next.unlock {k : Prog μ Unit} (hp : s.thread i = .unlock m k) (v : ℤ) :
    Next calls s (i, .go v)
      ⟨Function.update s.owner m none, Function.update s.thread i k⟩ := by
  simp [Next, Machine.step, hp]

theorem Next.any {k : ℤ → Prog μ Unit} (hp : s.thread i = .any k) (v : ℤ) :
    Next calls s (i, .go v) ⟨s.owner, Function.update s.thread i (k v)⟩ := by
  simp [Next, Machine.step, hp]

/-- A step calls, takes a mutex, gives one back or makes a choice. -/
theorem Next.cases {b : Action ι} (h : Next calls s (i, b) t) :
    (∃ c u, s.thread i = .pure u ∧ t = ⟨s.owner, Function.update s.thread i (calls c)⟩) ∨
    (∃ m k, s.thread i = .lock m k ∧ s.owner m = none ∧
      t = ⟨Function.update s.owner m (some i), Function.update s.thread i k⟩) ∨
    (∃ m k, s.thread i = .unlock m k ∧
      t = ⟨Function.update s.owner m none, Function.update s.thread i k⟩) ∨
    ∃ k v, s.thread i = .any k ∧ t = ⟨s.owner, Function.update s.thread i (k v)⟩ := by
  unfold Next Machine.step at h
  cases b with
  | call c =>
    cases hp : s.thread i with
    | pure u =>
      simp only [hp, Option.some.injEq] at h
      exact Or.inl ⟨c, u, rfl, h.symm⟩
    | lock m k => simp [hp] at h
    | unlock m k => simp [hp] at h
    | any k => simp [hp] at h
  | go v =>
    cases hp : s.thread i with
    | pure u => simp [hp] at h
    | lock m k =>
      simp only [hp] at h
      split at h
      · next hm => exact Or.inr (Or.inl ⟨m, k, rfl, hm, (Option.some.inj h).symm⟩)
      · cases h
    | unlock m k =>
      simp only [hp, Option.some.injEq] at h
      exact Or.inr (Or.inr (Or.inl ⟨m, k, rfl, h.symm⟩))
    | any k =>
      simp only [hp, Option.some.injEq] at h
      exact Or.inr (Or.inr (Or.inr ⟨k, v, rfl, h.symm⟩))

/-- The mutexes held once a free one is taken. -/
theorem held_lock (hm : s.owner m = none) :
    {n | Function.update s.owner m (some i) n = some j} =
      if j = i then insert m (s.held j) else s.held j := by
  ext n
  by_cases hn : n = m
  · subst hn
    by_cases hj : j = i
    · simp [Machine.held, hj]
    · simp [Machine.held, hj, hm, Ne.symm hj]
  · by_cases hj : j = i <;> simp [Machine.held, hn, hj]

/-- The mutexes held once one is given back. -/
theorem held_unlock (hm : s.owner m = some i) :
    {n | Function.update s.owner m none n = some j} =
      if j = i then s.held j \ {m} else s.held j := by
  ext n
  by_cases hn : n = m
  · subst hn
    by_cases hj : j = i
    · simp [Machine.held, hj]
    · simp [Machine.held, hj, hm, Ne.symm hj]
  · by_cases hj : j = i <;> simp [Machine.held, hn, hj]

/-- Every step keeps the order. -/
theorem Ordered.next {a : κ × Action ι} (hcalls : ∀ c, Restores rank ∅ (calls c))
    (hs : Ordered rank s) (h : Next calls s a t) : Ordered rank t := by
  obtain ⟨i, b⟩ := a
  have hi := hs i
  rcases h.cases with ⟨c, u, hp, rfl⟩ | ⟨m, k, hp, hm, rfl⟩ | ⟨m, k, hp, rfl⟩ | ⟨k, v, hp, rfl⟩
  · rw [hp] at hi
    have hempty : s.held i = ∅ := hi
    refine hs.update ?_ fun j _ => rfl
    change wp rank (calls c) (s.held i) _
    rw [hempty]
    exact hcalls c
  · rw [hp] at hi
    refine hs.update ?_ fun j hj => ?_
    · rw [held_lock hm, if_pos rfl]
      exact hi.2
    · rw [held_lock hm, if_neg hj]
  · rw [hp] at hi
    refine hs.update ?_ fun j hj => ?_
    · rw [held_unlock hi.1, if_pos rfl]
      exact hi.2
    · rw [held_unlock hi.1, if_neg hj]
  · rw [hp] at hi
    exact hs.update (hi v) fun j _ => rfl

/-- In every state reached the threads hold their mutexes in order. -/
theorem ReachableMachine.ordered (hcalls : ∀ c, Restores rank ∅ (calls c))
    (h : ReachableMachine calls s) : Ordered rank s := by
  refine Reachable.invariant (Ordered rank) ?_ ?_ h
  · rintro s rfl i
    exact Set.eq_empty_of_forall_notMem fun m hm => absurd hm (Option.some_ne_none i).symm
  · exact fun s a t hs hn => hs.next hcalls hn

/-! ## Going on -/

/-- A thread goes on in its call, whatever value it may read. -/
def Machine.CanGo (calls : ι → Prog μ Unit) (s : Machine μ κ) (i : κ) : Prop :=
  ∀ v, ∃ t, Next calls s (i, .go v) t

/-- A thread in a call goes on unless it waits. -/
theorem canGo_or_waitsFor (calls : ι → Prog μ Unit) (hi : ∀ u, s.thread i ≠ .pure u) :
    s.CanGo calls i ∨ ∃ j, s.WaitsFor i j := by
  cases hp : s.thread i with
  | pure u => exact absurd hp (hi u)
  | lock m k =>
    cases hm : s.owner m with
    | none => exact Or.inl fun v => ⟨_, .lock hp hm v⟩
    | some j => exact Or.inr ⟨j, m, ⟨k, hp⟩, hm⟩
  | unlock m k => exact Or.inl fun v => ⟨_, .unlock hp v⟩
  | any k => exact Or.inl fun v => ⟨_, .any hp v⟩

/-- Where the ranks are bounded, a chain of waiting threads ends in one that goes on. -/
theorem Ordered.progress {bound : ℕ} (hbound : ∀ m, rank m < bound) (hs : Ordered rank s)
    (hi : ∀ u, s.thread i ≠ .pure u) :
    ∃ j, Relation.ReflTransGen s.WaitsFor i j ∧ s.CanGo calls j := by
  -- by induction on the ranks left above the mutex waited for
  suffices h : ∀ d i, (∀ u, s.thread i ≠ .pure u) → (∀ m, s.AtLock i m → bound - rank m ≤ d) →
      ∃ j, Relation.ReflTransGen s.WaitsFor i j ∧ s.CanGo calls j from
    h bound i hi fun m _ => Nat.sub_le _ _
  intro d
  induction d with
  | zero =>
    intro i hi hd
    rcases canGo_or_waitsFor calls hi with hgo | ⟨j, m, hm, _⟩
    · exact ⟨i, .refl, hgo⟩
    · have := hbound m
      have := hd m hm
      omega
  | succ d ih =>
    intro i hi hd
    rcases canGo_or_waitsFor calls hi with hgo | ⟨j, m, hm, hj⟩
    · exact ⟨i, .refl, hgo⟩
    · have hbusy : ∀ u, s.thread j ≠ .pure u := fun u hu => hs.idle_owns hu hj
      obtain ⟨l, hl, hgo⟩ := ih j hbusy fun n hn => by
        have := hs.rank_lt hn hj
        have := hbound m
        have := hd m hm
        omega
      exact ⟨l, .head ⟨m, hm, hj⟩ hl, hgo⟩

end Steps

end OsSim.MutexPrograms
