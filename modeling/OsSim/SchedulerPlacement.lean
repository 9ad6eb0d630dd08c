import OsSim.SchedulerMlq
import OsSim.RunSteps
import Mathlib.Algebra.BigOperators.Fin
import Mathlib.Data.Set.Insert
import Mathlib.Data.List.Count

/-!
# Where every process is

A process that was added and has not finished is in the running list while a
CPU holds it and in the ready queue of its priority otherwise, except that a
full queue refuses it. The invariant says exactly which members every list has;
the four scheduler calls keep it.
-/

namespace OsSim.SchedulerPlacement

open SchedulerQueue SchedulerMlq RunSteps

variable {α κ : Type*} {pid prio : α → BitVec 32}

/-- The processes whose last insertion was refused, after one more insertion of
`a` that is refused exactly if the queue is full. -/
def refusedAfter (refused : Set α) (a : α) (q : Queue α) : Set α :=
  {b | (b = a ∧ maxQueueSize ≤ q.size) ∨ (b ≠ a ∧ b ∈ refused)}

/-- The members of every list, given the live processes, those held by a CPU and
those whose last insertion was refused. -/
structure Placed (pid prio : α → BitVec 32) (s : Sched α) (live held refused : Set α) : Prop where
  /-- Live processes have distinct pids. -/
  pid_inj : ∀ a ∈ live, ∀ b ∈ live, pid a = pid b → a = b
  /-- Live processes have valid priorities. -/
  prio_lt : ∀ a ∈ live, (prio a).toNat < 140
  /-- Only live processes are held. -/
  held_live : held ⊆ live
  /-- The running list has the held processes. -/
  running : ∀ a, a ∈ s.runningList.toList ↔ a ∈ held ∧ a ∉ refused
  /-- A ready queue has the live processes of its priority that are not held. -/
  ready : ∀ (i : Fin 140) a, a ∈ (s.mlqReadyQueue i).toList ↔
    a ∈ live ∧ a ∉ held ∧ a ∉ refused ∧ (prio a).toNat = i
  /-- The running list has no duplicates. -/
  running_nodup : s.runningList.toList.Nodup
  /-- No ready queue has duplicates. -/
  ready_nodup : ∀ i, (s.mlqReadyQueue i).toList.Nodup

/-- Inserting a new element, unless the queue is full. -/
theorem mem_enqueue {q : Queue α} {a b : α} : b ∈ (enqueue q a).toList ↔
    b ∈ q.toList ∨ (b = a ∧ q.size < maxQueueSize) := by
  rw [toList_enqueue]
  split
  · next h =>
    rw [List.mem_append, List.mem_singleton]
    exact ⟨Or.imp_right fun he => ⟨he, h⟩, Or.imp_right And.left⟩
  · next h => exact ⟨Or.inl, fun hb => hb.resolve_right fun hn => h hn.2⟩

theorem nodup_enqueue {q : Queue α} {a : α} (h : q.toList.Nodup) (ha : a ∉ q.toList) :
    (enqueue q a).toList.Nodup := by
  rw [toList_enqueue]
  split
  · have hc := h.concat ha
    rwa [List.concat_eq_append] at hc
  · exact h

/-- One more insertion decides only about the inserted process. -/
theorem mem_refusedAfter_of_ne {refused : Set α} {a b : α} {q : Queue α} (h : b ≠ a) :
    b ∈ refusedAfter refused a q ↔ b ∈ refused :=
  ⟨fun hx => (hx.resolve_left fun h' => h h'.1).2, fun hx => Or.inr ⟨h, hx⟩⟩

theorem mem_refusedAfter_self {refused : Set α} {a : α} {q : Queue α} :
    a ∈ refusedAfter refused a q ↔ maxQueueSize ≤ q.size :=
  ⟨fun hx => (hx.resolve_right fun h' => h'.1 rfl).2, fun hx => Or.inl ⟨rfl, hx⟩⟩

/-- The members of a queue that holds what satisfies `P` and was not refused, after one
more insertion. -/
theorem mem_enqueue_accepted {q : Queue α} {a b : α} {P : α → Prop} {refused : Set α}
    (hq : ∀ c, c ∈ q.toList ↔ P c ∧ c ∉ refused) (ha : a ∉ q.toList) :
    b ∈ (enqueue q a).toList ↔ (b = a ∨ P b) ∧ b ∉ refusedAfter refused a q := by
  rw [mem_enqueue]
  by_cases hb : b = a
  · -- the process itself: in the queue unless that is full
    rw [hb, mem_refusedAfter_self, Nat.not_le]
    constructor
    · rintro (hold | ⟨_, hlt⟩)
      · exact absurd hold ha
      · exact ⟨Or.inl rfl, hlt⟩
    · exact fun hx => Or.inr ⟨rfl, hx.2⟩
  · -- every other process stays where it was
    rw [hq, mem_refusedAfter_of_ne hb]
    constructor
    · rintro (⟨h1, h2⟩ | ⟨he, _⟩)
      · exact ⟨Or.inr h1, h2⟩
      · exact absurd he hb
    · exact fun hx => Or.inl ⟨hx.1.resolve_left hb, hx.2⟩

/-- The scheduler of an empty system. -/
theorem placed_init : Placed pid prio (initScheduler : Sched α) ∅ ∅ ∅ := by
  refine ⟨fun a h => absurd h (Set.notMem_empty a), fun a h => absurd h (Set.notMem_empty a),
    Set.empty_subset _, fun a => ?_, fun i a => ?_, List.nodup_nil, fun i => List.nodup_nil⟩
  · exact ⟨fun h => (nomatch h), fun h => absurd h.1 (Set.notMem_empty a)⟩
  · exact ⟨fun h => (nomatch h), fun h => absurd h.1 (Set.notMem_empty a)⟩

/-- A ready queue holds the processes that wait at its priority and were not refused. -/
theorem Placed.ready_accepted {s : Sched α} {live held refused : Set α}
    (h : Placed pid prio s live held refused) (i : Fin 140) (a : α) :
    a ∈ (s.mlqReadyQueue i).toList ↔
      (a ∈ live ∧ a ∉ held ∧ (prio a).toNat = i) ∧ a ∉ refused := by
  rw [h.ready]
  exact ⟨fun ⟨h1, h2, h3, h4⟩ => ⟨⟨h1, h2, h4⟩, h3⟩, fun ⟨⟨h1, h2, h4⟩, h3⟩ => ⟨h1, h2, h3, h4⟩⟩

/-- Insertion of a process that is in no list into the queue of its priority. -/
theorem Placed.insert {s : Sched α} {live held refused : Set α} {a : α}
    (h : Placed pid prio s live held refused) {i : Fin 140} (hi : (prio a).toNat = i)
    (hnew : a ∉ held) (hpid : ∀ b ∈ live, pid a = pid b → a = b)
    (hready : ∀ j, a ∉ (s.mlqReadyQueue j).toList) :
    Placed pid prio (enqueueReady prio s a) (Insert.insert a live) held
      (refusedAfter refused a (s.mlqReadyQueue i)) := by
  obtain ⟨hrun, hq⟩ := enqueueReady_spec prio s hi
  refine ⟨?_, ?_, h.held_live.trans (Set.subset_insert a live), ?_, ?_, ?_, ?_⟩
  · rintro b (rfl | hb) c (rfl | hc) hbc
    · rfl
    · exact hpid c hc hbc
    · exact (hpid b hb hbc.symm).symm
    · exact h.pid_inj b hb c hc hbc
  · rintro b (rfl | hb)
    · exact hi ▸ i.isLt
    · exact h.prio_lt b hb
  · intro b
    rw [hrun, h.running]
    refine and_congr_right fun hb => not_congr (mem_refusedAfter_of_ne ?_).symm
    exact fun he => hnew (he ▸ hb)
  · intro j b
    rw [hq, Set.mem_insert_iff]
    by_cases hj : j = i
    · rw [hj, Function.update_self, mem_enqueue_accepted (h.ready_accepted i) (hready i)]
      constructor
      · rintro ⟨rfl | ⟨h1, h2, h3⟩, hr⟩
        · exact ⟨Or.inl rfl, hnew, hr, hi⟩
        · exact ⟨Or.inr h1, h2, hr, h3⟩
      · rintro ⟨rfl | h1, h2, hr, h3⟩
        · exact ⟨Or.inl rfl, hr⟩
        · exact ⟨Or.inr ⟨h1, h2, h3⟩, hr⟩
    · -- the inserted process does not belong to the other queues
      have hne : (prio b).toNat = j → b ≠ a := fun hp he => hj (Fin.ext (hp ▸ he ▸ hi))
      rw [Function.update_of_ne hj, h.ready]
      constructor
      · rintro ⟨h1, h2, h3, hp⟩
        exact ⟨Or.inr h1, h2, (mem_refusedAfter_of_ne (hne hp)).not.mpr h3, hp⟩
      · rintro ⟨h1, h2, h3, hp⟩
        exact ⟨h1.resolve_left (hne hp), h2, (mem_refusedAfter_of_ne (hne hp)).not.mp h3, hp⟩
  · rw [hrun]
    exact h.running_nodup
  · intro j
    rw [hq]
    by_cases hj : j = i
    · rw [hj, Function.update_self]
      exact nodup_enqueue (h.ready_nodup i) (hready i)
    · rw [Function.update_of_ne hj]
      exact h.ready_nodup j

/-- `add_proc` of a new process. -/
theorem Placed.add {s : Sched α} {live held refused : Set α} {a : α}
    (h : Placed pid prio s live held refused) {i : Fin 140} (hi : (prio a).toNat = i)
    (hpid : ∀ b ∈ live, pid b ≠ pid a) :
    Placed pid prio (addMlqProc prio s a) (Insert.insert a live) held
      (refusedAfter refused a (s.mlqReadyQueue i)) := by
  have hlive : a ∉ live := fun ha => hpid a ha rfl
  exact h.insert hi (fun ha => hlive (h.held_live ha)) (fun b hb he => absurd he.symm (hpid b hb))
    fun j ha => hlive ((h.ready j a).mp ha).1

/-- A held process leaves the running list, whoever comes next. -/
theorem Placed.release {s : Sched α} {live held refused : Set α} {a : α}
    (h : Placed pid prio s live held refused) (ha : a ∈ held) :
    (∀ b, b ∈ (finishProc pid s a).runningList.toList ↔ b ∈ held \ {a} ∧ b ∉ refused) ∧
      (finishProc pid s a).runningList.toList.Nodup := by
  have hrunlive : ∀ b ∈ s.runningList.toList, b ∈ live := fun b hb =>
    h.held_live ((h.running b).mp hb).1
  have hsame : ∀ b ∈ s.runningList.toList, samePid pid (pid a) b = true ↔ b = a := by
    intro b hb
    rw [samePid, decide_eq_true_eq]
    exact ⟨h.pid_inj b (hrunlive b hb) a (h.held_live ha), fun he => he ▸ rfl⟩
  rw [finishProc_runningList]
  refine ⟨fun b => ?_, h.running_nodup.sublist (List.eraseP_sublist)⟩
  by_cases hb : b = a
  · subst hb
    refine ⟨fun hm => ?_, fun hm => absurd rfl hm.1.2⟩
    -- the only match has been erased
    have hin : b ∈ s.runningList.toList := List.mem_of_mem_eraseP hm
    obtain ⟨c, l₁, l₂, hl₁, hc, hl, he⟩ :=
      List.exists_of_eraseP hin ((hsame b hin).mpr rfl)
    have hcb : c = b := (hsame c (hl ▸ List.mem_append_right _ List.mem_cons_self)).mp hc
    rw [hcb] at hl
    have hnd := h.running_nodup
    rw [hl, List.nodup_append] at hnd
    rw [he] at hm
    rcases List.mem_append.mp hm with hm | hm
    · exact absurd rfl (hnd.2.2 b hm b List.mem_cons_self)
    · exact absurd hm (List.nodup_cons.mp hnd.2.1).1
  · rw [Set.mem_sdiff, Set.mem_singleton_iff, and_assoc, and_comm (a := b ≠ a), ← and_assoc,
      ← h.running]
    constructor
    · intro hm
      exact ⟨List.mem_of_mem_eraseP hm, hb⟩
    · rintro ⟨hm, _⟩
      refine (List.mem_eraseP_of_neg ?_).mpr hm
      exact fun hp => hb ((hsame b hm).mp hp)

/-- `finish_proc` of a held process. -/
theorem Placed.finish {s : Sched α} {live held refused : Set α} {a : α}
    (h : Placed pid prio s live held refused) (ha : a ∈ held) :
    Placed pid prio (finishProc pid s a) (live \ {a}) (held \ {a}) refused := by
  obtain ⟨hrun, hnd⟩ := h.release ha
  refine ⟨fun b hb c hc => h.pid_inj b hb.1 c hc.1, fun b hb => h.prio_lt b hb.1,
    Set.sdiff_subset_sdiff_left h.held_live, hrun, fun i b => ?_, hnd, h.ready_nodup⟩
  refine (h.ready i b).trans ?_
  constructor
  · rintro ⟨h1, h2, h3⟩
    have hne : b ≠ a := fun he => h2 (he ▸ ha)
    exact ⟨⟨h1, hne⟩, fun hb => h2 hb.1, h3⟩
  · rintro ⟨h1, h2, h3⟩
    exact ⟨h1.1, fun hb => h2 ⟨hb, h1.2⟩, h3⟩

/-- `put_proc` of a held process. -/
theorem Placed.put {s : Sched α} {live held refused : Set α} {a : α}
    (h : Placed pid prio s live held refused) {i : Fin 140} (hi : (prio a).toNat = i)
    (ha : a ∈ held) :
    Placed pid prio (putMlqProc pid prio s a) live (held \ {a})
      (refusedAfter refused a (s.mlqReadyQueue i)) := by
  have hfin := h.finish ha
  have hins := hfin.insert hi (fun hh => hh.2 rfl)
    (fun b hb he => h.pid_inj a (h.held_live ha) b hb.1 he)
    (fun j hj => ((hfin.ready j a).mp hj).1.2 rfl)
  have hlive : Insert.insert a (live \ {a}) = live := Set.insert_sdiff_self_of_mem (h.held_live ha)
  rw [hlive] at hins
  exact hins

/-- `get_proc` that dispatches a process. -/
theorem Placed.dispatched {s s' : Sched α} {live held refused : Set α} {a : α} {i : Fin 140}
    (h : Placed pid prio s live held refused) (hd : Dispatched s s' a i) :
    Placed pid prio s' live (Insert.insert a held)
      (refusedAfter refused a s.runningList) ∧ a ∈ live ∧ a ∉ held := by
  have hin : a ∈ (s.mlqReadyQueue i).toList := by
    rw [hd.head]
    exact List.mem_cons_self
  obtain ⟨hlive, hnh, hnr, hpi⟩ := (h.ready i a).mp hin
  have hnd := h.ready_nodup i
  rw [hd.head] at hnd
  obtain ⟨hnotin, hnd'⟩ := List.nodup_cons.mp hnd
  have hnotrun : a ∉ s.runningList.toList := fun hm => hnh ((h.running a).mp hm).1
  refine ⟨⟨h.pid_inj, h.prio_lt, Set.insert_subset hlive h.held_live, fun b => ?_, fun j b => ?_,
    ?_, fun j => ?_⟩, hlive, hnh⟩
  · rw [hd.running, Set.mem_insert_iff]
    exact mem_enqueue_accepted h.running hnotrun
  · have hmem : b ∈ (s'.mlqReadyQueue j).toList ↔ b ∈ (s.mlqReadyQueue j).toList ∧ b ≠ a := by
      by_cases hj : j = i
      · rw [hj, hd.head, List.mem_cons]
        exact ⟨fun hb => ⟨Or.inr hb, fun he => hnotin (he ▸ hb)⟩,
          fun hb => hb.1.resolve_left hb.2⟩
      · rw [hd.others j hj]
        refine ⟨fun hb => ⟨hb, fun he => hj ?_⟩, And.left⟩
        subst he
        exact Fin.ext (((h.ready j b).mp hb).2.2.2.symm.trans hpi)
    rw [hmem, h.ready, Set.mem_insert_iff, not_or]
    by_cases hb : b = a
    · exact ⟨fun hx => absurd hb hx.2, fun hx => absurd hb hx.2.1.1⟩
    · rw [mem_refusedAfter_of_ne hb]
      exact ⟨fun ⟨⟨h1, h2, h3⟩, _⟩ => ⟨h1, ⟨hb, h2⟩, h3⟩, fun ⟨h1, ⟨_, h2⟩, h3⟩ => ⟨⟨h1, h2, h3⟩, hb⟩⟩
  · rw [hd.running]
    exact nodup_enqueue h.running_nodup hnotrun
  · by_cases hj : j = i
    · rw [hj]
      exact hnd'
    · rw [hd.others j hj]
      exact h.ready_nodup j

/-- `get_proc` that finds nothing. -/
theorem Placed.congr {s s' : Sched α} {live held refused : Set α}
    (h : Placed pid prio s live held refused) (hr : s'.runningList = s.runningList)
    (hq : s'.mlqReadyQueue = s.mlqReadyQueue) : Placed pid prio s' live held refused := by
  refine ⟨h.pid_inj, h.prio_lt, h.held_live, ?_, ?_, ?_, ?_⟩
  · rw [hr]
    exact h.running
  · rw [hq]
    exact h.ready
  · rw [hr]
    exact h.running_nodup
  · rw [hq]
    exact h.ready_nodup

/-! ## The consequences for one process -/

/-- A search succeeds on the only match. -/
theorem find?_unique {l : List α} {p : α → Bool} {a : α} (ha : a ∈ l) (hp : p a = true)
    (hu : ∀ b ∈ l, p b = true → b = a) : l.find? p = some a := by
  cases hf : l.find? p with
  | none => exact absurd hp (List.find?_eq_none.mp hf a ha)
  | some b => rw [hu b (List.mem_of_find?_eq_some hf) (List.find?_some hf)]

/-- A live process whose last insertion was accepted is found under its pid. -/
theorem Placed.found {s : Sched α} {live held refused : Set α} {a : α}
    (h : Placed pid prio s live held refused) (ha : a ∈ live) (hr : a ∉ refused) :
    findProcessByPid pid s (pid a) = some a := by
  have hrun : ∀ b ∈ s.runningList.toList, samePid pid (pid a) b = true → b = a := by
    intro b hb hp
    rw [samePid, decide_eq_true_eq] at hp
    exact h.pid_inj b (h.held_live ((h.running b).mp hb).1) a ha hp
  have hready : ∀ i, ∀ b ∈ (s.mlqReadyQueue i).toList, samePid pid (pid a) b = true → b = a := by
    intro i b hb hp
    rw [samePid, decide_eq_true_eq] at hp
    exact h.pid_inj b ((h.ready i b).mp hb).1 a ha hp
  have hself : samePid pid (pid a) a = true := decide_eq_true rfl
  unfold findProcessByPid
  rw [findProc_eq]
  by_cases hh : a ∈ held
  · rw [find?_unique ((h.running a).mpr ⟨hh, hr⟩) hself hrun]
  · have hnone : s.runningList.toList.find? (samePid pid (pid a)) = none := by
      refine List.find?_eq_none.mpr fun b hb hp => ?_
      have hba := hrun b hb hp
      exact hh (hba ▸ ((h.running b).mp hb).1)
    rw [hnone]
    dsimp only
    have hin := (h.ready ⟨(prio a).toNat, h.prio_lt a ha⟩ a).mpr ⟨ha, hh, hr, rfl⟩
    cases hf : (List.finRange 140).findSome?
        fun i => findProc (s.mlqReadyQueue i) (samePid pid (pid a)) with
    | none =>
      have hnf := List.findSome?_eq_none_iff.mp hf ⟨(prio a).toNat, h.prio_lt a ha⟩
        (List.mem_finRange _)
      rw [findProc_eq, find?_unique hin hself (hready _)] at hnf
      cases hnf
    | some b =>
      obtain ⟨i, _, hi⟩ := List.exists_of_findSome?_eq_some hf
      rw [findProc_eq] at hi
      rw [hready i b (List.mem_of_find?_eq_some hi) (List.find?_some hi)]

/-- In how many places of the scheduler a process is. -/
def placeCount [DecidableEq α] (s : Sched α) (a : α) : ℕ :=
  s.runningList.toList.count a + ∑ i, (s.mlqReadyQueue i).toList.count a

/-- A live process whose last insertion was accepted is in exactly one place. -/
theorem Placed.placeCount_eq_one [DecidableEq α] {s : Sched α} {live held refused : Set α} {a : α}
    (h : Placed pid prio s live held refused) (ha : a ∈ live) (hr : a ∉ refused) :
    placeCount s a = 1 := by
  unfold placeCount
  by_cases hh : a ∈ held
  · have hready : ∀ i, (s.mlqReadyQueue i).toList.count a = 0 := fun i =>
      List.count_eq_zero.mpr fun hm => ((h.ready i a).mp hm).2.1 hh
    rw [List.count_eq_one_of_mem h.running_nodup ((h.running a).mpr ⟨hh, hr⟩),
      Finset.sum_congr rfl fun i _ => hready i, Finset.sum_const_zero, Nat.add_zero]
  · have hrun : s.runningList.toList.count a = 0 :=
      List.count_eq_zero.mpr fun hm => hh ((h.running a).mp hm).1
    have hone : ∀ i, (s.mlqReadyQueue i).toList.count a =
        if i = ⟨(prio a).toNat, h.prio_lt a ha⟩ then 1 else 0 := by
      intro i
      split
      · next he =>
        subst he
        exact List.count_eq_one_of_mem (h.ready_nodup _) ((h.ready _ a).mpr ⟨ha, hh, hr, rfl⟩)
      · next he =>
        refine List.count_eq_zero.mpr fun hm => he (Fin.ext ?_)
        exact ((h.ready i a).mp hm).2.2.2.symm
    rw [hrun, Finset.sum_congr rfl fun i _ => hone i, Finset.sum_ite_eq' Finset.univ, Nat.zero_add,
      if_pos (Finset.mem_univ _)]

/-! ## A loader and any number of CPUs -/

/-- The scheduler with what the loader and the CPUs know. -/
structure System (α κ : Type*) where
  /-- The scheduler. -/
  sched : Sched α
  /-- The process each CPU last got and has neither put nor finished. -/
  holds : κ → Option α
  /-- The processes added and not finished. -/
  live : Set α
  /-- The processes whose last insertion a full queue refused. -/
  refused : Set α

/-- The calls of a loader and of CPUs. -/
inductive SchedOp (α κ : Type*)
  /-- The loader calls `add_proc`. -/
  | add (a : α)
  /-- A CPU that holds nothing calls `get_proc`. -/
  | get (k : κ)
  /-- A CPU calls `put_proc` on the process it holds. -/
  | put (k : κ)
  /-- A CPU calls `finish_proc` on the process it holds. -/
  | finish (k : κ)

/-- The processes some CPU holds. -/
def System.held (s : System α κ) : Set α := {a | ∃ k, s.holds k = some a}

variable [DecidableEq κ]

/-- The state after a dispatch attempt of a CPU. -/
def System.got (s : System α κ) (k : κ) : Option α × Sched α → System α κ
  | (none, sched) => {s with sched := sched}
  | (some a, sched) => {s with
      sched := sched
      holds := Function.update s.holds k (some a)
      refused := refusedAfter s.refused a s.sched.runningList}

/-- One call of the scheduler: what it asks of the state before it, and the state behind
it. -/
inductive SchedStep (pid prio : α → BitVec 32) : System α κ → SchedOp α κ → System α κ → Prop
  /-- A new process with a pid of its own and a valid priority. -/
  | add {s : System α κ} {a : α} {i : Fin 140} (hi : (prio a).toNat = i)
      (hpid : ∀ b ∈ s.live, pid b ≠ pid a) :
      SchedStep pid prio s (.add a) {s with
        sched := addMlqProc prio s.sched a
        live := insert a s.live
        refused := refusedAfter s.refused a (s.sched.mlqReadyQueue i)}
  /-- A dispatch attempt. -/
  | get {s : System α κ} {k : κ} (hk : s.holds k = none) :
      SchedStep pid prio s (.get k) (s.got k (getMlqProc s.sched))
  /-- A preemption. -/
  | put {s : System α κ} {k : κ} {a : α} {i : Fin 140} (hk : s.holds k = some a)
      (hi : (prio a).toNat = i) :
      SchedStep pid prio s (.put k) {s with
        sched := putMlqProc pid prio s.sched a
        holds := Function.update s.holds k none
        refused := refusedAfter s.refused a (s.sched.mlqReadyQueue i)}
  /-- A completion. -/
  | finish {s : System α κ} {k : κ} {a : α} (hk : s.holds k = some a) :
      SchedStep pid prio s (.finish k) {s with
        sched := finishProc pid s.sched a
        holds := Function.update s.holds k none
        live := s.live \ {a}}

/-- An empty system. -/
def systemInit : System α κ := ⟨initScheduler, fun _ => none, ∅, ∅⟩

/-- What every call keeps. -/
structure SystemInv (pid prio : α → BitVec 32) (s : System α κ) : Prop where
  /-- Every process is where it belongs. -/
  placed : Placed pid prio s.sched s.live s.held s.refused
  /-- No process is held twice. -/
  holds_inj : ∀ k k' a, s.holds k = some a → s.holds k' = some a → k = k'

/-- The processes held after a CPU that held nothing has got one. -/
theorem held_take {s : System α κ} {k : κ} (hk : s.holds k = none) (a : α) :
    {b | ∃ j, Function.update s.holds k (some a) j = some b} = insert a s.held := by
  ext b
  rw [Set.mem_insert_iff]
  constructor
  · rintro ⟨j, hj⟩
    by_cases hjk : j = k
    · rw [hjk, Function.update_self] at hj
      exact Or.inl (Option.some.inj hj).symm
    · rw [Function.update_of_ne hjk] at hj
      exact Or.inr ⟨j, hj⟩
  · rintro (rfl | ⟨j, hj⟩)
    · exact ⟨k, Function.update_self k _ _⟩
    · have hjk : j ≠ k := fun he => by rw [he, hk] at hj; cases hj
      exact ⟨j, by rw [Function.update_of_ne hjk]; exact hj⟩

/-- Getting a process that is not held keeps the processes of the CPUs apart. -/
theorem holds_take_inj {s : System α κ} (k : κ) {a : α} (hnew : a ∉ s.held)
    (hinj : ∀ k k' a, s.holds k = some a → s.holds k' = some a → k = k') :
    ∀ j j' b, Function.update s.holds k (some a) j = some b →
      Function.update s.holds k (some a) j' = some b → j = j' := by
  intro j j' b hj hj'
  by_cases hjk : j = k
  · by_cases hjk' : j' = k
    · rw [hjk, hjk']
    · rw [hjk, Function.update_self] at hj
      rw [Function.update_of_ne hjk'] at hj'
      exact absurd ⟨j', (Option.some.inj hj) ▸ hj'⟩ hnew
  · rw [Function.update_of_ne hjk] at hj
    by_cases hjk' : j' = k
    · rw [hjk', Function.update_self] at hj'
      exact absurd ⟨j, (Option.some.inj hj') ▸ hj⟩ hnew
    · rw [Function.update_of_ne hjk'] at hj'
      exact hinj j j' b hj hj'

/-- The processes held after a CPU has dropped its own. -/
theorem held_drop {s : System α κ} {k : κ} {a : α} (hk : s.holds k = some a)
    (hinj : ∀ k k' a, s.holds k = some a → s.holds k' = some a → k = k') :
    {b | ∃ j, Function.update s.holds k none j = some b} = s.held \ {a} := by
  ext b
  rw [Set.mem_sdiff, Set.mem_singleton_iff]
  constructor
  · rintro ⟨j, hj⟩
    by_cases hjk : j = k
    · rw [hjk, Function.update_self] at hj
      cases hj
    · rw [Function.update_of_ne hjk] at hj
      exact ⟨⟨j, hj⟩, fun he => hjk (hinj j k b hj (he ▸ hk))⟩
  · rintro ⟨⟨j, hj⟩, hne⟩
    have hjk : j ≠ k := fun he => hne (Option.some.inj ((he ▸ hj).symm.trans hk))
    exact ⟨j, by rw [Function.update_of_ne hjk]; exact hj⟩

/-- Dropping keeps the processes of the other CPUs apart. -/
theorem holds_drop_inj {s : System α κ} (k : κ)
    (hinj : ∀ k k' a, s.holds k = some a → s.holds k' = some a → k = k') :
    ∀ j j' b, Function.update s.holds k none j = some b →
      Function.update s.holds k none j' = some b → j = j' := by
  have hold : ∀ j b, Function.update s.holds k none j = some b → s.holds j = some b := by
    intro j b hj
    by_cases hjk : j = k
    · rw [hjk, Function.update_self] at hj
      cases hj
    · rwa [Function.update_of_ne hjk] at hj
  exact fun j j' b hj hj' => hinj j j' b (hold j b hj) (hold j' b hj')

/-- One call keeps the invariant. -/
theorem systemInv_step {s s' : System α κ} {op : SchedOp α κ} (h : SystemInv pid prio s)
    (hstep : SchedStep pid prio s op s') : SystemInv pid prio s' := by
  cases hstep with
  | add hi hpid => exact ⟨h.placed.add hi hpid, h.holds_inj⟩
  | @get k hk =>
    obtain ⟨hn, hr, hq⟩ | ⟨a, i, ha, hd⟩ := getMlqProc_lists s.sched
    · have hres : getMlqProc s.sched = (none, (getMlqProc s.sched).2) := by rw [← hn]
      rw [hres]
      exact ⟨h.placed.congr hr hq, h.holds_inj⟩
    · have hres : getMlqProc s.sched = (some a, (getMlqProc s.sched).2) := by rw [← ha]
      obtain ⟨hp, hlive, hnew⟩ := h.placed.dispatched hd
      rw [hres]
      refine ⟨?_, holds_take_inj k hnew h.holds_inj⟩
      change Placed pid prio _ s.live {b | ∃ j, Function.update s.holds k (some a) j = some b} _
      rw [held_take hk]
      exact hp
  | @put k a i hk hi =>
    refine ⟨?_, holds_drop_inj k h.holds_inj⟩
    change Placed pid prio _ s.live {b | ∃ j, Function.update s.holds k none j = some b} _
    rw [held_drop hk h.holds_inj]
    exact h.placed.put hi ⟨k, hk⟩
  | @finish k a hk =>
    refine ⟨?_, holds_drop_inj k h.holds_inj⟩
    change Placed pid prio _ _ {b | ∃ j, Function.update s.holds k none j = some b} _
    rw [held_drop hk h.holds_inj]
    exact h.placed.finish ⟨k, hk⟩

/-- The invariant holds after any calls. -/
theorem systemInv_of_run {s : System α κ} {ops : List (SchedOp α κ)}
    (h : Run (SchedStep pid prio) systemInit ops s) : SystemInv pid prio s := by
  have hheld : (systemInit : System α κ).held = ∅ := by
    ext a
    exact ⟨fun ⟨_, hk⟩ => (nomatch hk), fun ha => absurd ha (Set.notMem_empty a)⟩
  refine h.invariant (SystemInv pid prio) (fun _ _ _ hI hs => systemInv_step hI hs)
    ⟨?_, fun _ _ _ hk => (nomatch hk)⟩
  rw [hheld]
  exact placed_init

/-- Every process that was added, has not finished and was not refused by a full
queue at its last insertion is in exactly one place, in the running list exactly
while a CPU holds it, and is found under its pid. -/
theorem no_process_lost [DecidableEq α] {s : System α κ} {ops : List (SchedOp α κ)} {a : α}
    (h : Run (SchedStep pid prio) systemInit ops s) (ha : a ∈ s.live) (hr : a ∉ s.refused) :
    placeCount s.sched a = 1 ∧
      (a ∈ s.sched.runningList.toList ↔ ∃ k, s.holds k = some a) ∧
      findProcessByPid pid s.sched (pid a) = some a := by
  have hp := (systemInv_of_run h).placed
  refine ⟨hp.placeCount_eq_one ha hr, (hp.running a).trans ?_, hp.found ha hr⟩
  exact ⟨And.left, fun hk => ⟨hk, hr⟩⟩

/-! ## Numbered processes of one priority -/

/-- The pid of a numbered process. -/
def natPid (a : ℕ) : BitVec 32 := BitVec.ofNat 32 a

/-- All processes have priority 0. -/
def topPrio (_ : ℕ) : BitVec 32 := 0

/-- Numbers that fit a pid have pids of their own. -/
theorem natPid_ne {a b : ℕ} (hab : a < b) (hb : b < 2 ^ 32) : natPid a ≠ natPid b := by
  intro he
  have hv := congrArg BitVec.toNat he
  unfold natPid at hv
  rw [BitVec.toNat_ofNat, BitVec.toNat_ofNat, Nat.mod_eq_of_lt (by omega),
    Nat.mod_eq_of_lt hb] at hv
  omega

/-- Of two processes that have been added the first is dispatched, and the second waits in
its ready queue: each is in one place and is found. -/
theorem no_process_lost_two : ∃ s : System ℕ (Fin 2),
    Run (SchedStep natPid topPrio) systemInit [.add 7, .add 8, .get 0] s ∧
      s.holds 0 = some 7 ∧ (s.sched.mlqReadyQueue 0).toList = [8] ∧
      ∀ a ∈ ({7, 8} : Set ℕ), placeCount s.sched a = 1 ∧
        (a ∈ s.sched.runningList.toList ↔ ∃ k, s.holds k = some a) ∧
        findProcessByPid natPid s.sched (natPid a) = some a := by
  have hpid : ∀ b ∈ (insert 7 ∅ : Set ℕ), natPid b ≠ natPid 8 := by
    rintro b (rfl | hb)
    · exact natPid_ne (by decide) (by decide)
    · exact absurd hb (Set.notMem_empty b)
  have hrun : Run (SchedStep natPid topPrio) (systemInit : System ℕ (Fin 2))
      [.add 7, .add 8, .get 0] _ :=
    .cons (.add (i := 0) rfl fun b hb => absurd hb (Set.notMem_empty b))
      (.cons (.add (i := 0) rfl hpid) (.cons (.get rfl) (.nil _)))
  refine ⟨_, hrun, rfl, rfl, fun a ha => no_process_lost hrun ?_ ?_⟩
  · obtain rfl | rfl := ha
    · exact Or.inr (Or.inl rfl)
    · exact Or.inl rfl
  · -- no insertion found its list full
    rintro (⟨_, hle⟩ | ⟨_, ⟨_, hle⟩ | ⟨_, ⟨_, hle⟩ | ⟨_, hin⟩⟩⟩)
    · exact absurd hle (by decide)
    · exact absurd hle (by decide)
    · exact absurd hle (by decide)
    · exact absurd hin (Set.notMem_empty a)

/-- Another number is appended as long as there is room. -/
theorem take_range_succ (m n : ℕ) : (List.range (n + 1)).take m =
    if min m n < m then (List.range n).take m ++ [n] else (List.range n).take m := by
  rw [List.range_succ]
  split
  · next hlt =>
    have hfit : (List.range n).length ≤ m := by
      rw [List.length_range]
      omega
    have hfit' : (List.range n ++ [n]).length ≤ m := by
      rw [List.length_append, List.length_range, List.length_singleton]
      omega
    rw [List.take_of_length_le hfit, List.take_of_length_le hfit']
  · next hge =>
    have hfull : m ≤ (List.range n).length := by
      rw [List.length_range]
      omega
    rw [List.take_append_of_le_length hfull]

/-- The state after adding the processes below `n`. -/
theorem adds_run {n : ℕ} (hn : n ≤ 2 ^ 32) : ∃ s : System ℕ (Fin 1),
    Run (SchedStep natPid topPrio) systemInit ((List.range n).map .add) s ∧
      s.live = {a | a < n} ∧ s.sched.runningList.toList = [] ∧
      (s.sched.mlqReadyQueue 0).toList = (List.range n).take maxQueueSize ∧
      ∀ i ≠ 0, (s.sched.mlqReadyQueue i).toList = [] := by
  induction n with
  | zero =>
    refine ⟨systemInit, .nil _, ?_, rfl, rfl, fun _ _ => rfl⟩
    ext a
    exact ⟨fun ha => absurd ha (Set.notMem_empty a), fun ha => absurd ha (Nat.not_lt_zero a)⟩
  | succ n ih =>
    obtain ⟨s, hrun, hlive, hr, hq, ho⟩ := ih (by omega)
    have hpid : ∀ b ∈ s.live, natPid b ≠ natPid n := by
      intro b hb
      rw [hlive] at hb
      exact natPid_ne hb (by omega)
    obtain ⟨hr', hq'⟩ := enqueueReady_spec topPrio s.sched (a := n) (i := 0) rfl
    have hsize : (s.sched.mlqReadyQueue 0).size = min maxQueueSize n := by
      rw [← Queue.length_toList, hq, List.length_take, List.length_range]
    have hstep : SchedStep natPid topPrio s (.add n) _ := .add (i := 0) rfl hpid
    have hnext := hrun.snoc hstep
    rw [← List.map_singleton, ← List.map_append, ← List.range_succ] at hnext
    refine ⟨_, hnext, ?_, hr' ▸ hr, ?_, ?_⟩
    · ext a
      change a ∈ insert n s.live ↔ a < n + 1
      rw [hlive, Set.mem_insert_iff]
      change a = n ∨ a < n ↔ a < n + 1
      omega
    · change ((enqueueReady topPrio s.sched n).mlqReadyQueue 0).toList = _
      rw [hq', Function.update_self, toList_enqueue, hsize, hq, take_range_succ]
    · intro i hi
      change ((enqueueReady topPrio s.sched n).mlqReadyQueue i).toList = _
      rw [hq', Function.update_of_ne hi]
      exact ho i hi

/-- The fifty-first process of one priority is in no place at all. -/
theorem fifty_first_process_lost : ∃ s : System ℕ (Fin 1),
    Run (SchedStep natPid topPrio) systemInit ((List.range 51).map .add) s ∧ 50 ∈ s.live ∧
      placeCount s.sched 50 ≠ 1 := by
  obtain ⟨s, hrun, hlive, hr, hq, ho⟩ := adds_run (show 51 ≤ 2 ^ 32 by decide)
  refine ⟨s, hrun, by rw [hlive]; exact Nat.lt_succ_self 50, ?_⟩
  have hall : ∀ i, (s.sched.mlqReadyQueue i).toList.count 50 = 0 := by
    intro i
    by_cases hi : i = 0
    · rw [hi, hq]
      decide
    · rw [ho i hi]
      rfl
  unfold placeCount
  rw [hr, Finset.sum_congr rfl fun i _ => hall i, Finset.sum_const_zero]
  decide

end OsSim.SchedulerPlacement
