import Mathlib.Algebra.Group.Nat.Defs
import OsSim.SchedulerMlq

/-!
# The CPU loop and the loader

`cpu_routine` on any number of CPUs and `ld_routine`, over the scheduler calls.
A process is the index of its line in the configuration. Every point of the loop
where another thread may come in between is a state of its own.
-/

namespace OsSim.CpuRoutine

open SchedulerMlq

/-- What `read_config` reads about the schedule, with the length of each program. -/
structure Config where
  /-- `num_processes`. -/
  numProcesses : ℕ
  /-- `code->size` of each process. -/
  size : ℕ → ℕ
  /-- The priority of each process. -/
  prio : ℕ → BitVec 32
  /-- `time_slot`. -/
  timeSlot : ℤ
  /-- `num_processes` is an `int`. -/
  numProcesses_lt : numProcesses < 2 ^ 31

/-- The pid `load` gives: `avail_pid` starts at 1. -/
def pidOf (a : ℕ) : BitVec 32 := BitVec.ofNat 32 (a + 1)

/-- Where a CPU is in `cpu_routine`, with its variable `proc`. -/
inductive Point
  /-- At the top of the loop. -/
  | top (proc : Option ℕ)
  /-- `finish_proc` has returned, `free` comes next. -/
  | finished (proc : ℕ)
  /-- `free` has returned, `get_proc` comes next; the pointer dangles. -/
  | freed (proc : ℕ)
  /-- `put_proc` has returned, `get_proc` comes next. -/
  | putBack (proc : ℕ)
  /-- At the exit test. -/
  | test (proc : Option ℕ)
  /-- Before `run`. -/
  | exec (proc : ℕ)
  /-- In `next_slot`. -/
  | slot (proc : Option ℕ)
  /-- Behind the loop. -/
  | stopped
  deriving DecidableEq

/-- The local variables of a CPU. -/
structure Cpu where
  /-- The point of the loop with `proc`. -/
  point : Point
  /-- `time_left`. -/
  timeLeft : ℤ

/-- The state of all threads. The last three fields record what has happened to
a process; no step reads them. -/
structure Machine (κ : Type*) where
  /-- The scheduler. -/
  sched : Sched ℕ
  /-- The CPUs. -/
  cpu : κ → Cpu
  /-- The variable `i` of the loader: the processes added so far. -/
  loaded : ℕ
  /-- `done`. -/
  done : Bool
  /-- `pc` of each process. -/
  pc : ℕ → ℕ
  /-- The instruction indices executed for a process, in order. -/
  executed : ℕ → List ℕ
  /-- How often `finish_proc` was called for a process. -/
  finishes : ℕ → ℕ
  /-- How often a process was freed. -/
  frees : ℕ → ℕ

variable {κ : Type*}

/-- All threads have just been created. -/
def boot : Machine κ where
  sched := initScheduler
  cpu _ := ⟨.top none, 0⟩
  loaded := 0
  done := false
  pc _ := 0
  executed _ := []
  finishes _ := 0
  frees _ := 0

/-- `run`: the instruction at `pc`, unless `pc` is behind the last one. -/
def run (cfg : Config) (m : Machine κ) (a : ℕ) : Machine κ :=
  if cfg.size a ≤ m.pc a then m
  else {m with
    pc := Function.update m.pc a (m.pc a + 1)
    executed := Function.update m.executed a (m.executed a ++ [m.pc a])}

@[simp] theorem run_sched (cfg : Config) (m : Machine κ) (a : ℕ) :
    (run cfg m a).sched = m.sched := by
  unfold run
  split <;> rfl

@[simp] theorem run_cpu (cfg : Config) (m : Machine κ) (a : ℕ) :
    (run cfg m a).cpu = m.cpu := by
  unfold run
  split <;> rfl

/-- `run` moves nothing of the loader, and in it no process finishes or is freed. -/
theorem run_counters (cfg : Config) (m : Machine κ) (a : ℕ) :
    (run cfg m a).loaded = m.loaded ∧ (run cfg m a).done = m.done ∧
      (run cfg m a).finishes = m.finishes ∧ (run cfg m a).frees = m.frees := by
  unfold run
  split <;> exact ⟨rfl, rfl, rfl, rfl⟩

variable [DecidableEq κ]

/-- CPU `k` goes on with other local variables. -/
def Machine.setCpu (m : Machine κ) (k : κ) (c : Cpu) : Machine κ :=
  {m with cpu := Function.update m.cpu k c}

/-- `proc = get_proc()`, after which CPU `k` is where `next` says. -/
def Machine.getProc (m : Machine κ) (k : κ) (next : Option ℕ → Cpu) : Machine κ :=
  {m with sched := (getMlqProc m.sched).2}.setCpu k (next (getMlqProc m.sched).1)

/-- One step of `cpu_routine` on CPU `k`. -/
def cpuStep (cfg : Config) (m : Machine κ) (k : κ) : Machine κ :=
  match m.cpu k with
  | ⟨.top none, timeLeft⟩ =>
    -- an idle CPU that gets nothing skips the exit test
    m.getProc k fun
      | none => ⟨.slot none, timeLeft⟩
      | some proc => ⟨.test (some proc), timeLeft⟩
  | ⟨.top (some proc), timeLeft⟩ =>
    if m.pc proc = cfg.size proc then
      {m with
        sched := finishProc pidOf m.sched proc
        finishes := Function.update m.finishes proc (m.finishes proc + 1)}.setCpu k
          ⟨.finished proc, timeLeft⟩
    else if timeLeft = 0 then
      {m with sched := putMlqProc pidOf cfg.prio m.sched proc}.setCpu k ⟨.putBack proc, timeLeft⟩
    else m.setCpu k ⟨.test (some proc), timeLeft⟩
  | ⟨.finished proc, timeLeft⟩ =>
    {m with frees := Function.update m.frees proc (m.frees proc + 1)}.setCpu k
      ⟨.freed proc, timeLeft⟩
  | ⟨.freed _, _⟩ => m.getProc k fun proc => ⟨.test proc, 0⟩
  | ⟨.putBack _, timeLeft⟩ => m.getProc k fun proc => ⟨.test proc, timeLeft⟩
  | ⟨.test none, timeLeft⟩ =>
    m.setCpu k ⟨if m.done then .stopped else .slot none, timeLeft⟩
  | ⟨.test (some proc), timeLeft⟩ =>
    m.setCpu k ⟨.exec proc, if timeLeft = 0 then cfg.timeSlot else timeLeft⟩
  | ⟨.exec proc, timeLeft⟩ => (run cfg m proc).setCpu k ⟨.slot (some proc), timeLeft - 1⟩
  | ⟨.slot proc, timeLeft⟩ => m.setCpu k ⟨.top proc, timeLeft⟩
  | ⟨.stopped, _⟩ => m

/-- One step of `ld_routine`. How long it waits for a start time is left open. -/
def loaderStep (cfg : Config) (m : Machine κ) : Machine κ :=
  if m.loaded < cfg.numProcesses then
    {m with sched := addMlqProc cfg.prio m.sched m.loaded, loaded := m.loaded + 1}
  else {m with done := true}

/-- The threads that take steps: the CPUs and the loader. -/
inductive Actor (κ : Type*)
  /-- A CPU. -/
  | cpu (k : κ)
  /-- The loader. -/
  | loader
  deriving DecidableEq

/-- The step of a thread. -/
def step (cfg : Config) (m : Machine κ) : Actor κ → Machine κ
  | .cpu k => cpuStep cfg m k
  | .loader => loaderStep cfg m

/-- One step of any thread. -/
def MachineStep (cfg : Config) (m : Machine κ) (actor : Actor κ) (m' : Machine κ) : Prop :=
  m' = step cfg m actor

/-- The process a CPU has got and has neither put back nor finished. -/
def Point.holds : Point → Option ℕ
  | .top proc => proc
  | .finished _ => none
  | .freed _ => none
  | .putBack _ => none
  | .test proc => proc
  | .exec proc => some proc
  | .slot proc => proc
  | .stopped => none

/-- The process whose control block a CPU may still read or free. The pointer
left behind by `free` or `put_proc` is overwritten before it is read. -/
def Point.refers : Point → Option ℕ
  | .finished proc => some proc
  | point => point.holds

/-! ## Which CPU a step moves -/

@[simp] theorem setCpu_cpu (m : Machine κ) (k : κ) (c : Cpu) :
    (m.setCpu k c).cpu = Function.update m.cpu k c := rfl

theorem setCpu_self (m : Machine κ) (k : κ) (c : Cpu) : (m.setCpu k c).cpu k = c := by
  rw [setCpu_cpu, Function.update_self]

theorem setCpu_of_ne (m : Machine κ) {j k : κ} (h : j ≠ k) (c : Cpu) :
    (m.setCpu k c).cpu j = m.cpu j := by
  rw [setCpu_cpu, Function.update_of_ne h]

/-- A CPU step leaves the other CPUs alone. -/
theorem cpuStep_of_ne (cfg : Config) (m : Machine κ) {j k : κ} (h : j ≠ k) :
    (cpuStep cfg m k).cpu j = m.cpu j := by
  unfold cpuStep
  split
  · exact Function.update_of_ne h _ _
  · split
    · exact Function.update_of_ne h _ _
    · split <;> exact Function.update_of_ne h _ _
  · exact Function.update_of_ne h _ _
  · exact Function.update_of_ne h _ _
  · exact Function.update_of_ne h _ _
  · exact Function.update_of_ne h _ _
  · exact Function.update_of_ne h _ _
  · rw [setCpu_of_ne _ h, run_cpu]
  · exact Function.update_of_ne h _ _
  · rfl

/-! ## Which step executes an instruction -/

/-- The process whose instruction the next step of a thread executes. -/
def executes (m : Machine κ) : Actor κ → Option ℕ
  | .loader => none
  | .cpu k =>
    match (m.cpu k).point with
    | .exec a => some a
    | _ => none

omit [DecidableEq κ] in
/-- A CPU that executes an instruction has the process. -/
theorem holds_of_executes {m : Machine κ} {actor : Actor κ} {a : ℕ}
    (h : executes m actor = some a) : ∃ k, actor = .cpu k ∧ (m.cpu k).point = .exec a := by
  unfold executes at h
  split at h
  · cases h
  · next k =>
    split at h
    · next b hk =>
      cases h
      exact ⟨k, rfl, hk⟩
    · cases h

/-- Only a step that executes an instruction moves `pc`, and only that of its process. -/
theorem step_pc (cfg : Config) (m : Machine κ) (actor : Actor κ) :
    (step cfg m actor).pc = match executes m actor with
      | none => m.pc
      | some a => (run cfg m a).pc := by
  cases actor with
  | loader =>
    dsimp only [executes, step]
    unfold loaderStep
    split <;> rfl
  | cpu k =>
    dsimp only [executes, step]
    unfold cpuStep
    split
    · next hk => rw [hk]; rfl
    · next hk =>
      rw [hk]
      split_ifs <;> rfl
    · next hk => rw [hk]; rfl
    · next hk => rw [hk]; rfl
    · next hk => rw [hk]; rfl
    · next hk => rw [hk]; rfl
    · next hk => rw [hk]; rfl
    · next hk => rw [hk]; rfl
    · next hk => rw [hk]; rfl
    · next hk => rw [hk]

end OsSim.CpuRoutine
