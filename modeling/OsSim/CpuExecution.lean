import OsSim.CpuRoutine
import OsSim.SchedulerPlacement

/-!
# Every process is executed once

The threads refine the system of scheduler calls: each step of a CPU or of the
loader is one of the four calls or leaves that system as it is. What the calls
keep therefore holds of the threads, and with the counters of each process it
gives that one CPU at a time executes it, in order, to its end.
-/

namespace OsSim.CpuExecution

open RunSteps SchedulerQueue SchedulerMlq SchedulerPlacement CpuRoutine

variable {κ : Type*}

/-- The processes added with a valid priority that have not finished. -/
def live (cfg : Config) (m : Machine κ) : Set ℕ :=
  {a | a < m.loaded ∧ (cfg.prio a).toNat < 140 ∧ m.finishes a = 0}

/-- The system of scheduler calls the threads are at. -/
def view (cfg : Config) (m : Machine κ) (refused : Set ℕ) : System ℕ κ where
  sched := m.sched
  holds k := (m.cpu k).point.holds
  live := live cfg m
  refused := refused

/-- What is known of one process at any time. -/
structure ProcessInv (cfg : Config) (m : Machine κ) (a : ℕ) : Prop where
  /-- The executed indices are those before `pc`, each once and in order. -/
  executed : m.executed a = List.range (m.pc a)
  /-- `pc` stops at the length of the program. -/
  pc_le : m.pc a ≤ cfg.size a
  /-- A process finishes at most once. -/
  finishes_le : m.finishes a ≤ 1
  /-- Only a finished process is freed, and once. -/
  frees_le : m.frees a ≤ m.finishes a
  /-- A finished process has run to its end. -/
  complete : m.finishes a = 1 → m.pc a = cfg.size a
  /-- A process that is still to come has not finished. -/
  fresh : m.loaded ≤ a → m.finishes a = 0

/-- A CPU between `finish_proc` and `free` is about to free a finished process,
and no other CPU is. -/
structure FinishedInv (m : Machine κ) : Prop where
  /-- The process has finished and is not freed yet. -/
  unfreed : ∀ k a, (m.cpu k).point = .finished a → m.finishes a = 1 ∧ m.frees a = 0
  /-- No two CPUs are about to free the same process. -/
  unique : ∀ k k' a, (m.cpu k).point = .finished a → (m.cpu k').point = .finished a → k = k'

/-- What every step of a CPU or of the loader keeps. -/
structure RoutineInv (cfg : Config) (m : Machine κ) : Prop where
  /-- The scheduler calls are used as they should be. -/
  system : ∃ refused, SystemInv pidOf cfg.prio (view cfg m refused)
  /-- Finished processes. -/
  finished : FinishedInv m
  /-- Every process. -/
  process : ∀ a, ProcessInv cfg m a
  /-- The loader adds the processes of the configuration. -/
  loaded_le : m.loaded ≤ cfg.numProcesses
  /-- `done` is set behind the last process only. -/
  done_loaded : m.done = true → m.loaded = cfg.numProcesses

/-- A process that finishes is not live any more. -/
theorem live_finish (cfg : Config) (m : Machine κ) (sched : Sched ℕ) (a : ℕ) :
    live cfg {m with
      sched := sched
      finishes := Function.update m.finishes a (m.finishes a + 1)} = live cfg m \ {a} := by
  ext b
  rw [Set.mem_sdiff, Set.mem_singleton_iff]
  change b < m.loaded ∧ (cfg.prio b).toNat < 140 ∧
    Function.update m.finishes a (m.finishes a + 1) b = 0 ↔
      (b < m.loaded ∧ (cfg.prio b).toNat < 140 ∧ m.finishes b = 0) ∧ b ≠ a
  by_cases hb : b = a
  · rw [hb, Function.update_self]
    exact ⟨fun hx => absurd hx.2.2 (Nat.succ_ne_zero _), fun hx => absurd rfl hx.2⟩
  · rw [Function.update_of_ne hb]
    exact ⟨fun hx => ⟨hx, hb⟩, And.left⟩

/-- The loader makes a process live if its priority is valid. -/
theorem mem_live_load (cfg : Config) {m : Machine κ} (sched : Sched ℕ)
    (hfresh : m.finishes m.loaded = 0) (b : ℕ) :
    b ∈ live cfg {m with sched := sched, loaded := m.loaded + 1} ↔
      b ∈ live cfg m ∨ (b = m.loaded ∧ (cfg.prio m.loaded).toNat < 140) := by
  change b < m.loaded + 1 ∧ (cfg.prio b).toNat < 140 ∧ m.finishes b = 0 ↔
    (b < m.loaded ∧ (cfg.prio b).toNat < 140 ∧ m.finishes b = 0) ∨ _
  constructor
  · rintro ⟨hb, hx⟩
    rcases Nat.lt_succ_iff_lt_or_eq.mp hb with hb | rfl
    · exact Or.inl ⟨hb, hx⟩
    · exact Or.inr ⟨rfl, hx.1⟩
  · rintro (⟨hb, hx⟩ | ⟨rfl, hx⟩)
    · exact ⟨Nat.lt_succ_of_lt hb, hx⟩
    · exact ⟨Nat.lt_succ_self _, hx, hfresh⟩

/-- The pids of the configuration are distinct. -/
theorem pidOf_ne {cfg : Config} {a b : ℕ} (hb : b < a) (ha : a < cfg.numProcesses) :
    pidOf b ≠ pidOf a := by
  intro he
  have hlt := cfg.numProcesses_lt
  have hv := congrArg BitVec.toNat he
  unfold pidOf at hv
  rw [BitVec.toNat_ofNat, BitVec.toNat_ofNat, Nat.mod_eq_of_lt (by omega),
    Nat.mod_eq_of_lt (by omega)] at hv
  omega

/-- The process a CPU holds is live. -/
theorem RoutineInv.holds_live {cfg : Config} {m : Machine κ} (h : RoutineInv cfg m) {k : κ}
    {a : ℕ} (hk : (m.cpu k).point.holds = some a) : a ∈ live cfg m := by
  obtain ⟨refused, hs⟩ := h.system
  exact hs.placed.held_live ⟨k, hk⟩

/-- Steps that finish and free nothing keep the finished processes. -/
theorem FinishedInv.congr {m m' : Machine κ} (h : FinishedInv m)
    (hcpu : ∀ j a, (m'.cpu j).point = .finished a → (m.cpu j).point = .finished a)
    (hfin : m'.finishes = m.finishes) (hfree : m'.frees = m.frees) : FinishedInv m' := by
  refine ⟨fun k a hk => ?_, fun k k' a hk hk' => h.unique k k' a (hcpu k a hk) (hcpu k' a hk')⟩
  rw [hfin, hfree]
  exact h.unfreed k a (hcpu k a hk)

/-- Running one instruction extends the executed prefix by one. -/
theorem ProcessInv.run {cfg : Config} {m : Machine κ} {b : ℕ} (h : ProcessInv cfg m b) {a : ℕ}
    (hlive : m.finishes a = 0) : ProcessInv cfg (run cfg m a) b := by
  unfold CpuRoutine.run
  split
  · exact h
  · next hlt =>
    by_cases hb : b = a
    · subst hb
      refine ⟨?_, ?_, h.finishes_le, h.frees_le, fun hone => ?_, h.fresh⟩
      · change Function.update m.executed b (m.executed b ++ [m.pc b]) b =
          List.range (Function.update m.pc b (m.pc b + 1) b)
        rw [Function.update_self, Function.update_self, h.executed, List.range_succ]
      · change Function.update m.pc b (m.pc b + 1) b ≤ cfg.size b
        rw [Function.update_self]
        omega
      · change m.finishes b = 1 at hone
        omega
    · refine ⟨?_, ?_, h.finishes_le, h.frees_le, fun hone => ?_, h.fresh⟩
      · change Function.update m.executed a (m.executed a ++ [m.pc a]) b =
          List.range (Function.update m.pc a (m.pc a + 1) b)
        rw [Function.update_of_ne hb, Function.update_of_ne hb]
        exact h.executed
      · change Function.update m.pc a (m.pc a + 1) b ≤ cfg.size b
        rw [Function.update_of_ne hb]
        exact h.pc_le
      · change Function.update m.pc a (m.pc a + 1) b = cfg.size b
        rw [Function.update_of_ne hb]
        exact h.complete hone

variable [DecidableEq κ]

/-! ## What a CPU step does -/

/-- The effects of a step of CPU `k`. -/
inductive CpuEffect (cfg : Config) (m : Machine κ) (k : κ) : Machine κ → Prop
  /-- Nothing. -/
  | skip : CpuEffect cfg m k m
  /-- The CPU keeps what it holds. -/
  | move {c : Cpu} (hholds : c.point.holds = (m.cpu k).point.holds)
      (hold : ∀ a, (m.cpu k).point ≠ .finished a) (hnew : ∀ a, c.point ≠ .finished a) :
      CpuEffect cfg m k (m.setCpu k c)
  /-- `get_proc` by a CPU that holds nothing. -/
  | get {next : Option ℕ → Cpu} (hk : (m.cpu k).point.holds = none)
      (hold : ∀ a, (m.cpu k).point ≠ .finished a) (hholds : ∀ r, (next r).point.holds = r)
      (hnew : ∀ r a, (next r).point ≠ .finished a) : CpuEffect cfg m k (m.getProc k next)
  /-- `finish_proc` of a process that has run to its end. -/
  | finish {a : ℕ} {t : ℤ} (hk : (m.cpu k).point = .top (some a)) (hpc : m.pc a = cfg.size a) :
      CpuEffect cfg m k ({m with
        sched := finishProc pidOf m.sched a
        finishes := Function.update m.finishes a (m.finishes a + 1)}.setCpu k ⟨.finished a, t⟩)
  /-- `put_proc`. -/
  | put {a : ℕ} {t : ℤ} (hk : (m.cpu k).point = .top (some a)) :
      CpuEffect cfg m k
        ({m with sched := putMlqProc pidOf cfg.prio m.sched a}.setCpu k ⟨.putBack a, t⟩)
  /-- `free`. -/
  | free {a : ℕ} {t : ℤ} (hk : (m.cpu k).point = .finished a) :
      CpuEffect cfg m k
        ({m with frees := Function.update m.frees a (m.frees a + 1)}.setCpu k ⟨.freed a, t⟩)
  /-- `run`. -/
  | exec {a : ℕ} {t : ℤ} (hk : (m.cpu k).point = .exec a) :
      CpuEffect cfg m k ((run cfg m a).setCpu k ⟨.slot (some a), t⟩)

/-- Every step of a CPU has an effect of the list. -/
theorem cpuStep_effect (cfg : Config) (m : Machine κ) (k : κ) :
    CpuEffect cfg m k (cpuStep cfg m k) := by
  unfold cpuStep
  split
  · next hk =>
    refine .get (by rw [hk]; rfl) (by rw [hk]; exact fun a h => nomatch h) ?_ ?_
    · rintro (_ | _) <;> rfl
    · rintro (_ | _) a h <;> cases h
  · next hk =>
    split
    · next hpc => exact .finish (by rw [hk]) hpc
    · split
      · exact .put (by rw [hk])
      · exact .move (by rw [hk]; rfl) (by rw [hk]; exact fun a h => nomatch h)
          fun a h => nomatch h
  · next hk => exact .free (by rw [hk])
  · next hk =>
    exact .get (by rw [hk]; rfl) (by rw [hk]; exact fun a h => nomatch h) (fun _ => rfl)
      fun _ _ h => nomatch h
  · next hk =>
    exact .get (by rw [hk]; rfl) (by rw [hk]; exact fun a h => nomatch h) (fun _ => rfl)
      fun _ _ h => nomatch h
  · next hk =>
    refine .move ?_ (by rw [hk]; exact fun a h => nomatch h) ?_
    · rw [hk]
      cases m.done <;> rfl
    · intro a h
      cases hd : m.done <;> rw [hd] at h <;> cases h
  · next hk =>
    exact .move (by rw [hk]; rfl) (by rw [hk]; exact fun a h => nomatch h) fun a h => nomatch h
  · next hk => exact .exec (by rw [hk])
  · next hk =>
    exact .move (by rw [hk]; rfl) (by rw [hk]; exact fun a h => nomatch h) fun a h => nomatch h
  · exact .skip

/-! ## The threads refine the scheduler calls -/

/-- What the CPUs hold when CPU `k` has moved. -/
theorem holds_setCpu (m : Machine κ) (k : κ) (c : Cpu) :
    (fun j => ((m.setCpu k c).cpu j).point.holds) =
      Function.update (fun j => (m.cpu j).point.holds) k c.point.holds := by
  funext j
  by_cases hj : j = k
  · rw [hj, setCpu_self, Function.update_self]
  · rw [setCpu_of_ne _ hj, Function.update_of_ne hj]

/-- The system once CPU `k` has moved: only what that CPU holds may differ. -/
theorem view_setCpu (cfg : Config) (m : Machine κ) (k : κ) (c : Cpu) (refused : Set ℕ) :
    view cfg (m.setCpu k c) refused = {view cfg m refused with
      holds := Function.update (view cfg m refused).holds k c.point.holds} := by
  unfold view
  rw [holds_setCpu]
  rfl

/-- A CPU that keeps what it holds is not seen by the scheduler. -/
theorem view_setCpu_of_holds (cfg : Config) (m : Machine κ) {k : κ} {c : Cpu}
    (h : c.point.holds = (m.cpu k).point.holds) (refused : Set ℕ) :
    view cfg (m.setCpu k c) refused = view cfg m refused := by
  rw [view_setCpu, Function.update_eq_self_iff.mpr]
  exact h

/-- `get_proc` by a CPU that holds nothing. -/
theorem getProc_simulates {cfg : Config} {m : Machine κ} {k : κ} {refused : Set ℕ}
    {next : Option ℕ → Cpu} (hk : (m.cpu k).point.holds = none)
    (hholds : ∀ r, (next r).point.holds = r) : ∃ refused',
      SchedStep pidOf cfg.prio (view cfg m refused) (.get k)
        (view cfg (m.getProc k next) refused') := by
  have hstep : SchedStep pidOf cfg.prio (view cfg m refused) (.get k)
      ((view cfg m refused).got k (getMlqProc m.sched)) := .get hk
  unfold Machine.getProc
  rcases hr : getMlqProc m.sched with ⟨_ | a, sched⟩
  · refine ⟨refused, ?_⟩
    rw [hr] at hstep
    dsimp only
    rw [view_setCpu, hholds, Function.update_eq_self_iff.mpr]
    · exact hstep
    · exact hk.symm
  · refine ⟨refusedAfter refused a m.sched.runningList, ?_⟩
    rw [hr] at hstep
    rw [view_setCpu, hholds]
    exact hstep

/-- Each effect is a scheduler call, or the scheduler does not see it. -/
theorem CpuEffect.simulates {cfg : Config} {m m' : Machine κ} {k : κ} {refused : Set ℕ}
    (h : CpuEffect cfg m k m') (hinv : SystemInv pidOf cfg.prio (view cfg m refused)) :
    (∃ refused', view cfg m' refused' = view cfg m refused) ∨
    ∃ op refused', SchedStep pidOf cfg.prio (view cfg m refused) op (view cfg m' refused') := by
  have hheld : ∀ a, (m.cpu k).point = .top (some a) → (view cfg m refused).holds k = some a := by
    intro a hk
    change (m.cpu k).point.holds = some a
    rw [hk]
    rfl
  cases h with
  | skip => exact Or.inl ⟨refused, rfl⟩
  | move hholds _ _ => exact Or.inl ⟨refused, view_setCpu_of_holds cfg m hholds refused⟩
  | get hk _ hholds _ => exact Or.inr ⟨.get k, getProc_simulates hk hholds⟩
  | @finish a t hk hpc =>
    refine Or.inr ⟨.finish k, refused, ?_⟩
    have hnext := view_setCpu cfg {m with
      sched := finishProc pidOf m.sched a
      finishes := Function.update m.finishes a (m.finishes a + 1)} k ⟨.finished a, t⟩ refused
    unfold view at hnext
    rw [live_finish] at hnext
    unfold view
    rw [hnext]
    exact .finish (hheld a hk)
  | @put a t hk =>
    have hlive := hinv.placed.held_live ⟨k, hheld a hk⟩
    let i : Fin 140 := ⟨(cfg.prio a).toNat, hlive.2.1⟩
    refine Or.inr ⟨.put k, refusedAfter refused a (m.sched.mlqReadyQueue i), ?_⟩
    rw [view_setCpu]
    exact .put (i := i) (hheld a hk) rfl
  | @free a t hk =>
    refine Or.inl ⟨refused, ?_⟩
    have hnone : (m.cpu k).point.holds = none := by
      rw [hk]
      rfl
    exact view_setCpu_of_holds cfg {m with frees := Function.update m.frees a (m.frees a + 1)}
      (k := k) (c := ⟨.freed a, t⟩) hnone.symm refused
  | @exec a t hk =>
    refine Or.inl ⟨refused, ?_⟩
    have hsome : (m.cpu k).point.holds = some a := by
      rw [hk]
      rfl
    rw [view_setCpu_of_holds cfg (run cfg m a) (by rw [run_cpu, hsome]; rfl) refused]
    obtain ⟨hl, _, hf, _⟩ := run_counters cfg m a
    unfold view live
    rw [run_sched, run_cpu, hl, hf]

/-- A step of the loader is at most one call of the scheduler. -/
theorem loader_simulates {cfg : Config} {m : Machine κ} {refused : Set ℕ}
    (hfresh : ∀ a, m.loaded ≤ a → m.finishes a = 0) :
    (∃ refused', view cfg (loaderStep cfg m) refused' = view cfg m refused) ∨
    ∃ op refused', SchedStep pidOf cfg.prio (view cfg m refused) op
      (view cfg (loaderStep cfg m) refused') := by
  unfold loaderStep
  split
  · next hlt =>
    have hmem := mem_live_load cfg (addMlqProc cfg.prio m.sched m.loaded) (hfresh _ le_rfl)
    by_cases hp : (cfg.prio m.loaded).toNat < 140
    · let i : Fin 140 := ⟨(cfg.prio m.loaded).toNat, hp⟩
      refine Or.inr ⟨.add m.loaded, refusedAfter refused m.loaded (m.sched.mlqReadyQueue i), ?_⟩
      have hset : live cfg {m with
          sched := addMlqProc cfg.prio m.sched m.loaded, loaded := m.loaded + 1} =
          insert m.loaded (live cfg m) := by
        ext b
        rw [hmem, Set.mem_insert_iff, or_comm, and_iff_left hp]
      unfold view
      rw [hset]
      exact .add (i := i) rfl fun b hb => pidOf_ne hb.1 hlt
    · refine Or.inl ⟨refused, ?_⟩
      have hset : live cfg {m with
          sched := addMlqProc cfg.prio m.sched m.loaded, loaded := m.loaded + 1} =
          live cfg m := by
        ext b
        rw [hmem]
        exact or_iff_left fun hx => hp hx.2
      have hsched : addMlqProc cfg.prio m.sched m.loaded = m.sched := by
        unfold addMlqProc enqueueReady
        rw [dif_neg hp]
      unfold view
      rw [hset, hsched]
  · exact Or.inl ⟨refused, rfl⟩

/-- A refinement keeps what the calls keep. -/
theorem systemInv_of_simulates {cfg : Config} {s : System ℕ κ} {m' : Machine κ}
    (h : SystemInv pidOf cfg.prio s)
    (hsim : (∃ refused', view cfg m' refused' = s) ∨
      ∃ op refused', SchedStep pidOf cfg.prio s op (view cfg m' refused')) :
    ∃ refused', SystemInv pidOf cfg.prio (view cfg m' refused') := by
  rcases hsim with ⟨r, hr⟩ | ⟨op, r, hstep⟩
  · exact ⟨r, hr ▸ h⟩
  · exact ⟨r, systemInv_step h hstep⟩

/-! ## The counters of the processes -/

/-- A CPU after CPU `k` has moved. -/
theorem point_setCpu {m : Machine κ} {j k : κ} {c : Cpu} {p : Point}
    (h : ((m.setCpu k c).cpu j).point = p) :
    (j = k ∧ c.point = p) ∨ (j ≠ k ∧ (m.cpu j).point = p) := by
  by_cases hj : j = k
  · rw [hj, setCpu_self] at h
    exact Or.inl ⟨hj, h⟩
  · rw [setCpu_of_ne _ hj] at h
    exact Or.inr ⟨hj, h⟩

/-- A CPU that is not about to free anything, before or after its step. -/
theorem FinishedInv.setCpu {m : Machine κ} (h : FinishedInv m) {k : κ} {c : Cpu}
    (hnew : ∀ a, c.point ≠ .finished a) : FinishedInv (m.setCpu k c) := by
  refine h.congr (fun j a hj => ?_) rfl rfl
  rcases point_setCpu hj with ⟨_, hc⟩ | ⟨_, hp⟩
  · exact absurd hc (hnew a)
  · exact hp

/-- `finish_proc`, by a CPU whose process has not finished yet. -/
theorem FinishedInv.finish {m : Machine κ} (h : FinishedInv m) (k : κ) {a : ℕ} {t : ℤ}
    (sched : Sched ℕ) (hzero : m.finishes a = 0) (hfree : m.frees a = 0) :
    FinishedInv ({m with
      sched := sched
      finishes := Function.update m.finishes a (m.finishes a + 1)}.setCpu k ⟨.finished a, t⟩) := by
  -- a CPU that was about to free a process frees another one
  have hother : ∀ j b, (m.cpu j).point = .finished b → b ≠ a := by
    rintro j b hj rfl
    have hone := (h.unfreed j b hj).1
    omega
  refine ⟨fun j b hj => ?_, fun j j' b hj hj' => ?_⟩
  · change Function.update m.finishes a (m.finishes a + 1) b = 1 ∧ m.frees b = 0
    rcases point_setCpu hj with ⟨_, hc⟩ | ⟨_, hp⟩
    · cases hc
      rw [Function.update_self]
      omega
    · rw [Function.update_of_ne (hother j b hp)]
      exact h.unfreed j b hp
  · rcases point_setCpu hj with ⟨hjk, hc⟩ | ⟨_, hp⟩
    · cases hc
      rcases point_setCpu hj' with ⟨hjk', _⟩ | ⟨_, hp'⟩
      · rw [hjk, hjk']
      · exact absurd rfl (hother j' a hp')
    · rcases point_setCpu hj' with ⟨_, hc'⟩ | ⟨_, hp'⟩
      · cases hc'
        exact absurd rfl (hother j a hp)
      · exact h.unique j j' b hp hp'

/-- `free`, by a CPU that is about to. -/
theorem FinishedInv.free {m : Machine κ} (h : FinishedInv m) {k : κ} {a : ℕ} {t : ℤ}
    (hk : (m.cpu k).point = .finished a) :
    FinishedInv
      ({m with frees := Function.update m.frees a (m.frees a + 1)}.setCpu k ⟨.freed a, t⟩) := by
  have hold : ∀ j b, (({m with frees := Function.update m.frees a (m.frees a + 1)}.setCpu k
      ⟨.freed a, t⟩).cpu j).point = .finished b → (m.cpu j).point = .finished b ∧ j ≠ k := by
    intro j b hj
    rcases point_setCpu hj with ⟨_, hc⟩ | ⟨hne, hp⟩
    · cases hc
    · exact ⟨hp, hne⟩
  refine ⟨fun j b hj => ?_, fun j j' b hj hj' => ?_⟩
  · obtain ⟨hp, hne⟩ := hold j b hj
    have hb : b ≠ a := by
      rintro rfl
      exact hne (h.unique j k b hp hk)
    change m.finishes b = 1 ∧ Function.update m.frees a (m.frees a + 1) b = 0
    rw [Function.update_of_ne hb]
    exact h.unfreed j b hp
  · exact h.unique j j' b (hold j b hj).1 (hold j' b hj').1

/-- Each effect keeps track of the finished processes. -/
theorem CpuEffect.finishedInv {cfg : Config} {m m' : Machine κ} {k : κ}
    (h : CpuEffect cfg m k m') (hinv : RoutineInv cfg m) : FinishedInv m' := by
  cases h with
  | skip => exact hinv.finished
  | move _ _ hnew => exact hinv.finished.setCpu hnew
  | get _ _ _ hnew =>
    have hs : FinishedInv {m with sched := (getMlqProc m.sched).2} :=
      hinv.finished.congr (fun _ _ hj => hj) rfl rfl
    exact hs.setCpu (hnew _)
  | @put a _ _ =>
    have hs : FinishedInv {m with sched := putMlqProc pidOf cfg.prio m.sched a} :=
      hinv.finished.congr (fun _ _ hj => hj) rfl rfl
    exact hs.setCpu fun _ hc => nomatch hc
  | @exec a _ _ =>
    obtain ⟨_, _, hfin, hfree⟩ := run_counters cfg m a
    have hs : FinishedInv (run cfg m a) :=
      hinv.finished.congr (fun j a hj => by rwa [run_cpu] at hj) hfin hfree
    exact hs.setCpu fun _ hc => nomatch hc
  | @finish a t hk _ =>
    have hzero : m.finishes a = 0 := (hinv.holds_live (k := k) (by rw [hk]; rfl)).2.2
    have hle := (hinv.process a).frees_le
    exact hinv.finished.finish k _ hzero (by omega)
  | free hk => exact hinv.finished.free hk

/-- Each effect keeps what is known of every process. -/
theorem CpuEffect.processInv {cfg : Config} {m m' : Machine κ} {k : κ}
    (h : CpuEffect cfg m k m') (hinv : RoutineInv cfg m) (b : ℕ) : ProcessInv cfg m' b := by
  have hb := hinv.process b
  cases h with
  | skip => exact hb
  | move _ _ _ => exact ⟨hb.1, hb.2, hb.3, hb.4, hb.5, hb.6⟩
  | get _ _ _ _ => exact ⟨hb.1, hb.2, hb.3, hb.4, hb.5, hb.6⟩
  | put _ => exact ⟨hb.1, hb.2, hb.3, hb.4, hb.5, hb.6⟩
  | exec hk =>
    have hr := hb.run (hinv.holds_live (k := k) (by rw [hk]; rfl)).2.2
    exact ⟨hr.1, hr.2, hr.3, hr.4, hr.5, hr.6⟩
  | @finish a t hk hpc =>
    have hlive := hinv.holds_live (k := k) (a := a) (by rw [hk]; rfl)
    have hzero := hlive.2.2
    have hloaded := hlive.1
    by_cases he : b = a
    · subst he
      have hself : Function.update m.finishes b (m.finishes b + 1) b = 1 := by
        rw [Function.update_self, hzero]
      refine ⟨hb.executed, hb.pc_le, hself.le, ?_, fun _ => hpc, fun hf => ?_⟩
      · change m.frees b ≤ Function.update m.finishes b (m.finishes b + 1) b
        have hle := hb.frees_le
        omega
      · exact absurd hloaded (Nat.not_lt.mpr hf)
    · have hsame : Function.update m.finishes a (m.finishes a + 1) b = m.finishes b :=
        Function.update_of_ne he _ _
      exact ⟨hb.executed, hb.pc_le, hsame.trans_le hb.finishes_le, hb.frees_le.trans_eq hsame.symm,
        fun hone => hb.complete (hsame.symm.trans hone), fun hf => hsame.trans (hb.fresh hf)⟩
  | @free a t hk =>
    obtain ⟨hone, hzero⟩ := hinv.finished.unfreed k a hk
    refine ⟨hb.executed, hb.pc_le, hb.finishes_le, ?_, hb.complete, hb.fresh⟩
    change Function.update m.frees a (m.frees a + 1) b ≤ m.finishes b
    by_cases he : b = a
    · rw [he, Function.update_self]
      omega
    · rw [Function.update_of_ne he]
      exact hb.frees_le

/-- The effects never touch what the loader keeps. -/
theorem CpuEffect.loader {cfg : Config} {m m' : Machine κ} {k : κ} (h : CpuEffect cfg m k m') :
    m'.loaded = m.loaded ∧ m'.done = m.done := by
  cases h with
  | exec _ => exact ⟨(run_counters cfg m _).1, (run_counters cfg m _).2.1⟩
  | _ => exact ⟨rfl, rfl⟩

/-! ## All threads -/

/-- A CPU step keeps the invariant. -/
theorem routineInv_cpu {cfg : Config} {m : Machine κ} (h : RoutineInv cfg m) (k : κ) :
    RoutineInv cfg (cpuStep cfg m k) := by
  have heff := cpuStep_effect cfg m k
  obtain ⟨refused, hs⟩ := h.system
  obtain ⟨hl, hd⟩ := heff.loader
  refine ⟨systemInv_of_simulates hs (heff.simulates hs), heff.finishedInv h,
    heff.processInv h, hl.trans_le h.loaded_le, fun hdone => ?_⟩
  rw [hd] at hdone
  rw [hl]
  exact h.done_loaded hdone

/-- A loader step keeps the invariant. -/
theorem routineInv_loader {cfg : Config} {m : Machine κ} (h : RoutineInv cfg m) :
    RoutineInv cfg (loaderStep cfg m) := by
  obtain ⟨refused, hs⟩ := h.system
  have hsys := systemInv_of_simulates hs (loader_simulates fun a => (h.process a).fresh)
  have hle := h.loaded_le
  have hdone := h.done_loaded
  unfold loaderStep at hsys ⊢
  split at hsys
  · next hlt =>
    rw [if_pos hlt]
    refine ⟨hsys, h.finished.congr (fun _ _ hj => hj) rfl rfl, fun a => ?_, hlt, fun hd => ?_⟩
    · have ha := h.process a
      exact ⟨ha.1, ha.2, ha.3, ha.4, ha.5, fun hf => ha.6 (Nat.le_of_succ_le hf)⟩
    · have heq := hdone hd
      omega
  · next hge =>
    rw [if_neg hge]
    refine ⟨hsys, h.finished.congr (fun _ _ hj => hj) rfl rfl, fun a => ?_, hle, fun _ => ?_⟩
    · have ha := h.process a
      exact ⟨ha.1, ha.2, ha.3, ha.4, ha.5, ha.6⟩
    · change m.loaded = cfg.numProcesses
      omega

/-- Every step keeps the invariant. -/
theorem routineInv_step {cfg : Config} {m : Machine κ} (h : RoutineInv cfg m) :
    ∀ actor, RoutineInv cfg (step cfg m actor)
  | .cpu k => routineInv_cpu h k
  | .loader => routineInv_loader h

/-- The threads start with the invariant. -/
theorem routineInv_boot (cfg : Config) : RoutineInv cfg (boot : Machine κ) := by
  have hinit : view cfg (boot : Machine κ) ∅ = systemInit := by
    unfold view
    have hlive : live cfg (boot : Machine κ) = ∅ := by
      ext a
      exact ⟨fun ha => absurd ha.1 (Nat.not_lt_zero a), fun ha => absurd ha (Set.notMem_empty a)⟩
    rw [hlive]
    rfl
  refine ⟨⟨∅, ?_⟩, ⟨fun _ _ hk => (nomatch hk), fun _ _ _ hk => (nomatch hk)⟩, fun a => ?_,
    Nat.zero_le _, fun hd => (nomatch hd)⟩
  · rw [hinit]
    exact systemInv_of_run (.nil _)
  · exact ⟨rfl, Nat.zero_le _, Nat.zero_le _, Nat.le_refl _, fun hone => (nomatch hone), fun _ => rfl⟩

/-- The invariant holds in every reachable state. -/
theorem routineInv_of_reachable {cfg : Config} {m : Machine κ}
    (h : Reachable (fun m => m = boot) (MachineStep cfg) m) : RoutineInv cfg m := by
  refine h.invariant (RoutineInv cfg) ?_ ?_
  · rintro m rfl
    exact routineInv_boot cfg
  · rintro m actor m' hm rfl
    exact routineInv_step hm actor

/-- A CPU refers to the process it holds or is about to free. -/
theorem refers_cases {p : Point} {a : ℕ} (h : p.refers = some a) :
    p.holds = some a ∨ p = .finished a := by
  cases p with
  | finished b =>
    cases h
    exact Or.inr rfl
  | _ => exact Or.inl h

/-- The execution of every process, at any time. -/
structure ExecutedOnce (cfg : Config) (m : Machine κ) : Prop where
  /-- No two CPUs refer to the same process. -/
  one_cpu : ∀ k k' a, (m.cpu k).point.refers = some a → (m.cpu k').point.refers = some a → k = k'
  /-- The executed indices are a prefix of the program, each once and in order. -/
  in_order : ∀ a, m.executed a = List.range (m.pc a) ∧ m.pc a ≤ cfg.size a
  /-- A process is finished at most once, and freed at most once and only after that. -/
  at_most_once : ∀ a, m.finishes a ≤ 1 ∧ m.frees a ≤ m.finishes a
  /-- A process that was finished has executed all its instructions. -/
  complete : ∀ a, 0 < m.finishes a → m.executed a = List.range (cfg.size a)
  /-- A process that was finished is in no list of the scheduler. -/
  no_list : ∀ a, 0 < m.finishes a →
    a ∉ m.sched.runningList.toList ∧ ∀ i, a ∉ (m.sched.mlqReadyQueue i).toList
  /-- No CPU refers to a process that was freed. -/
  no_cpu : ∀ a, 0 < m.frees a → ∀ k, (m.cpu k).point.refers ≠ some a

/-- Every process is executed once, in order and by one CPU at a time, and a
finished one is left alone. -/
theorem executedOnce {cfg : Config} {m : Machine κ}
    (h : Reachable (fun m => m = boot) (MachineStep cfg) m) : ExecutedOnce cfg m := by
  have hinv := routineInv_of_reachable h
  obtain ⟨refused, hs⟩ := hinv.system
  have hheld : ∀ k a, (m.cpu k).point.holds = some a → m.finishes a = 0 := fun k a hk =>
    (hinv.holds_live hk).2.2
  have hone : ∀ a, 0 < m.finishes a → m.finishes a = 1 := fun a ha => by
    have hle := (hinv.process a).finishes_le
    omega
  refine ⟨fun k k' a hk hk' => ?_, fun a => ⟨(hinv.process a).executed, (hinv.process a).pc_le⟩,
    fun a => ⟨(hinv.process a).finishes_le, (hinv.process a).frees_le⟩, fun a ha => ?_,
    fun a ha => ⟨fun hm => ?_, fun i hm => ?_⟩, fun a ha k hk => ?_⟩
  · rcases refers_cases hk with hx | hx
    · rcases refers_cases hk' with hx' | hx'
      · exact hs.holds_inj k k' a hx hx'
      · have hfin := (hinv.finished.unfreed k' a hx').1
        have hzero := hheld k a hx
        omega
    · rcases refers_cases hk' with hx' | hx'
      · have hfin := (hinv.finished.unfreed k a hx).1
        have hzero := hheld k' a hx'
        omega
      · exact hinv.finished.unique k k' a hx hx'
  · rw [(hinv.process a).executed, (hinv.process a).complete (hone a ha)]
  · obtain ⟨⟨k, hk⟩, _⟩ := (hs.placed.running a).mp hm
    have hzero := hheld k a hk
    omega
  · have hlive := ((hs.placed.ready i a).mp hm).1
    exact absurd hlive.2.2 (Nat.pos_iff_ne_zero.mp ha)
  · have hle := (hinv.process a).frees_le
    rcases refers_cases hk with hx | hx
    · have hzero := hheld k a hx
      omega
    · have hfree := (hinv.finished.unfreed k a hx).2
      omega

/-- One process of two instructions and a time slot of one. -/
def oneProcess : Config where
  numProcesses := 1
  size _ := 2
  prio _ := 0
  timeSlot := 1
  numProcesses_lt := by decide

/-- Each of two CPUs executes one instruction of the only process; the second one frees it.
-/
def oneProcessRun : List (Actor (Fin 2)) :=
  .loader :: (List.replicate 5 (.cpu ⟨0, Nat.two_pos⟩) ++
    List.replicate 6 (.cpu ⟨1, Nat.one_lt_two⟩))

/-- The process migrates between the CPUs and is executed once. -/
theorem executedOnce_migrated : ∃ m : Machine (Fin 2),
    Reachable (fun m => m = boot) (MachineStep oneProcess) m ∧
      m.executed 0 = [0, 1] ∧ m.frees 0 = 1 ∧ ExecutedOnce oneProcess m := by
  have hreach : Reachable (fun m => m = boot) (MachineStep oneProcess)
      (oneProcessRun.foldl (step oneProcess) boot) :=
    ⟨boot, oneProcessRun, rfl, run_foldl (step oneProcess) boot oneProcessRun⟩
  exact ⟨_, hreach, rfl, rfl, executedOnce hreach⟩

end OsSim.CpuExecution
