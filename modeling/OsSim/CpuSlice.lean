import OsSim.CpuExecution

/-!
# Time slices

`time_left` is set to `time_slot` at a dispatch and goes down by one for every `run`,
so along the steps of one dispatch the calls of `run` and `time_left` add up to
`time_slot`. Only a slice that has come to zero ends in `put_proc`, and the test for a
finished process comes first.
-/

namespace OsSim.CpuSlice

open RunSteps SchedulerMlq CpuRoutine CpuExecution

variable {κ : Type*}

/-- The variable `proc`, which `finish_proc`, `free` and `put_proc` leave as it is. -/
def Point.proc : Point → Option ℕ
  | .top proc => proc
  | .finished proc => some proc
  | .freed proc => some proc
  | .putBack proc => some proc
  | .test proc => proc
  | .exec proc => some proc
  | .slot proc => proc
  | .stopped => none

variable [DecidableEq κ]

/-! ## The local variables of a CPU -/

/-- The local variables of a CPU after its next step. -/
def nextCpu (cfg : Config) (m : Machine κ) (k : κ) : Cpu :=
  match m.cpu k with
  | ⟨.top none, t⟩ =>
    match (getMlqProc m.sched).1 with
    | none => ⟨.slot none, t⟩
    | some proc => ⟨.test (some proc), t⟩
  | ⟨.top (some proc), t⟩ =>
    if m.pc proc = cfg.size proc then ⟨.finished proc, t⟩
    else if t = 0 then ⟨.putBack proc, t⟩ else ⟨.test (some proc), t⟩
  | ⟨.finished proc, t⟩ => ⟨.freed proc, t⟩
  | ⟨.freed _, _⟩ => ⟨.test (getMlqProc m.sched).1, 0⟩
  | ⟨.putBack _, t⟩ => ⟨.test (getMlqProc m.sched).1, t⟩
  | ⟨.test none, t⟩ => ⟨if m.done then .stopped else .slot none, t⟩
  | ⟨.test (some proc), t⟩ => ⟨.exec proc, if t = 0 then cfg.timeSlot else t⟩
  | ⟨.exec proc, t⟩ => ⟨.slot (some proc), t - 1⟩
  | ⟨.slot proc, t⟩ => ⟨.top proc, t⟩
  | ⟨.stopped, t⟩ => ⟨.stopped, t⟩

/-- The next place and `time_left` of a CPU are what the step of the machine leaves in it.
-/
theorem cpuStep_cpu (cfg : Config) (m : Machine κ) (k : κ) :
    (cpuStep cfg m k).cpu k = nextCpu cfg m k := by
  unfold cpuStep nextCpu
  rcases hk : m.cpu k with ⟨point, t⟩
  cases point with
  | top proc =>
    cases proc with
    | none => exact setCpu_self _ _ _
    | some proc =>
      dsimp only
      split
      · exact setCpu_self _ _ _
      · split <;> exact setCpu_self _ _ _
  | finished proc => exact setCpu_self _ _ _
  | freed proc => exact setCpu_self _ _ _
  | putBack proc => exact setCpu_self _ _ _
  | test proc => cases proc <;> exact setCpu_self _ _ _
  | exec proc => exact setCpu_self _ _ _
  | slot proc => exact setCpu_self _ _ _
  | stopped => exact hk

/-! ## The events of a dispatch -/

/-- A process comes to a CPU: `get_proc` has returned it and no slice is running. -/
def Dispatches (m : Machine κ) (k : κ) (a : ℕ) : Prop := m.cpu k = ⟨.test (some a), 0⟩

/-- The next step of a CPU puts a process back to its ready queue. -/
def PutsBack (cfg : Config) (m : Machine κ) (k : κ) (a : ℕ) : Prop :=
  ((cpuStep cfg m k).cpu k).point = .putBack a

/-- The next step of a CPU finishes a process. -/
def Completes (cfg : Config) (m : Machine κ) (k : κ) (a : ℕ) : Prop :=
  ((cpuStep cfg m k).cpu k).point = .finished a

/-- The state after some steps of the threads. -/
def after (cfg : Config) (m : Machine κ) (as : List (Actor κ)) : Machine κ :=
  as.foldl (step cfg) m

/-- How many times the next step of a thread is `run` on a CPU. -/
def runCall (m : Machine κ) (k : κ) : Actor κ → ℕ
  | .loader => 0
  | .cpu j =>
    if j = k then
      match (m.cpu k).point with
      | .exec _ => 1
      | _ => 0
    else 0

/-- The calls of `run` on a CPU in some steps of the threads. -/
def runCalls (cfg : Config) (k : κ) : Machine κ → List (Actor κ) → ℕ
  | _, [] => 0
  | m, actor :: as => runCall m k actor + runCalls cfg k (step cfg m actor) as

/-- A CPU holds a process after each of some steps. -/
def HeldThroughout (cfg : Config) (k : κ) (a : ℕ) : Machine κ → List (Actor κ) → Prop
  | _, [] => True
  | m, actor :: as => ((step cfg m actor).cpu k).point.holds = some a ∧
      HeldThroughout cfg k a (step cfg m actor) as

/-! ## One slice -/

/-- A CPU in a slice of a process, with the calls of `run` since the dispatch. -/
inductive InSlice (cfg : Config) (a : ℕ) : Cpu → ℕ → Prop
  /-- `get_proc` has just returned. -/
  | got : InSlice cfg a ⟨.test (some a), 0⟩ 0
  /-- At the exit test, in the middle of the slice. -/
  | test {t : ℤ} {n : ℕ} (ht : 0 < t) (hn : n + t = cfg.timeSlot) :
      InSlice cfg a ⟨.test (some a), t⟩ n
  /-- Before `run`. -/
  | exec {t : ℤ} {n : ℕ} (ht : 0 < t) (hn : n + t = cfg.timeSlot) : InSlice cfg a ⟨.exec a, t⟩ n
  /-- In `next_slot`. -/
  | slot {t : ℤ} {n : ℕ} (ht : 0 ≤ t) (hn : n + t = cfg.timeSlot) :
      InSlice cfg a ⟨.slot (some a), t⟩ n
  /-- At the top of the loop. -/
  | top {t : ℤ} {n : ℕ} (ht : 0 ≤ t) (hn : n + t = cfg.timeSlot) :
      InSlice cfg a ⟨.top (some a), t⟩ n

/-- A step of the CPU keeps the slice, as long as it holds the process. -/
theorem InSlice.own {cfg : Config} (hslot : 1 ≤ cfg.timeSlot) {m : Machine κ} {k : κ} {a n : ℕ}
    (h : InSlice cfg a (m.cpu k) n) (hheld : ((cpuStep cfg m k).cpu k).point.holds = some a) :
    InSlice cfg a ((cpuStep cfg m k).cpu k) (n + runCall m k (.cpu k)) := by
  rw [cpuStep_cpu] at hheld ⊢
  unfold nextCpu at hheld ⊢
  generalize hc : m.cpu k = c at h hheld ⊢
  simp only [runCall, if_true, hc]
  cases h with
  | got =>
    simp only [if_true]
    exact .exec (by omega) (by simp)
  | test ht hn =>
    simp only [if_neg (ne_of_gt ht)]
    exact .exec ht (by simpa using hn)
  | exec ht hn => exact .slot (by omega) (by push_cast; omega)
  | slot ht hn => exact .top ht (by simpa using hn)
  | @top t n ht hn =>
    dsimp only at hheld ⊢
    by_cases hpc : m.pc a = cfg.size a
    · rw [if_pos hpc] at hheld
      cases hheld
    · rw [if_neg hpc] at hheld ⊢
      by_cases h0 : t = 0
      · rw [if_pos h0] at hheld
        cases hheld
      · rw [if_neg h0]
        exact .test (by omega) (by simpa using hn)

/-- A step of any thread keeps the slice of a CPU, and counts its calls of `run`. -/
theorem InSlice.any {cfg : Config} (hslot : 1 ≤ cfg.timeSlot) {m : Machine κ} {k : κ} {a n : ℕ}
    {actor : Actor κ} (h : InSlice cfg a (m.cpu k) n)
    (hheld : ((step cfg m actor).cpu k).point.holds = some a) :
    InSlice cfg a ((step cfg m actor).cpu k) (n + runCall m k actor) := by
  cases actor with
  | loader =>
    have hcpu : (loaderStep cfg m).cpu = m.cpu := by
      unfold loaderStep
      split <;> rfl
    change InSlice cfg a ((loaderStep cfg m).cpu k) n
    rw [hcpu]
    exact h
  | cpu j =>
    by_cases hj : j = k
    · subst hj
      exact h.own hslot hheld
    · change InSlice cfg a ((cpuStep cfg m j).cpu k) (n + if j = k then _ else 0)
      rw [cpuStep_of_ne cfg m (Ne.symm hj), if_neg hj]
      exact h

/-- Any number of steps keep the slice of a CPU that holds its process throughout. -/
theorem InSlice.throughout {cfg : Config} (hslot : 1 ≤ cfg.timeSlot) {m : Machine κ} {k : κ} {a n : ℕ}
    {as : List (Actor κ)} (h : InSlice cfg a (m.cpu k) n) (hheld : HeldThroughout cfg k a m as) :
    InSlice cfg a ((after cfg m as).cpu k) (n + runCalls cfg k m as) := by
  induction as generalizing m n with
  | nil => exact h
  | cons actor as ih =>
    have hrest := ih (h.any hslot hheld.1) hheld.2
    rw [Nat.add_assoc] at hrest
    exact hrest

/-! ## Where a slice ends -/

/-- Only from the top of the loop, with no time left and instructions to go, is a process
put back. -/
theorem putsBack_iff {cfg : Config} {m : Machine κ} {k : κ} {a : ℕ} :
    PutsBack cfg m k a ↔ m.cpu k = ⟨.top (some a), 0⟩ ∧ m.pc a ≠ cfg.size a := by
  unfold PutsBack
  rw [cpuStep_cpu]
  unfold nextCpu
  generalize m.cpu k = c
  obtain ⟨point, t⟩ := c
  cases point with
  | top proc =>
    cases proc with
    | none => cases (getMlqProc m.sched).1 <;> simp
    | some proc =>
      dsimp only
      split_ifs with hpc h0
      · simp only [Cpu.mk.injEq, Point.top.injEq, Option.some.injEq, false_iff]
        rintro ⟨⟨rfl, _⟩, hne⟩
        exact hne hpc
      · simp only [Point.putBack.injEq, Cpu.mk.injEq, Point.top.injEq, Option.some.injEq, h0,
          and_true]
        refine ⟨?_, And.left⟩
        rintro rfl
        exact ⟨rfl, hpc⟩
      · simp [h0]
  | test proc =>
    cases proc with
    | none => cases m.done <;> simp
    | some proc => simp
  | finished proc => simp
  | freed proc => simp
  | putBack proc => simp
  | exec proc => simp
  | slot proc => simp
  | stopped => simp

/-- Only from the top of the loop, behind its last instruction, does a process finish. -/
theorem completes_top {cfg : Config} {m : Machine κ} {k : κ} {a : ℕ}
    (h : Completes cfg m k a) : ∃ t, m.cpu k = ⟨.top (some a), t⟩ := by
  unfold Completes at h
  rw [cpuStep_cpu] at h
  unfold nextCpu at h
  generalize m.cpu k = c at h ⊢
  obtain ⟨point, t⟩ := c
  cases point with
  | top proc =>
    cases proc with
    | none => cases hg : (getMlqProc m.sched).1 <;> simp [hg] at h
    | some proc =>
      dsimp only at h
      split_ifs at h
      · cases h
        exact ⟨t, rfl⟩
  | test proc =>
    cases proc with
    | none => cases hd : m.done <;> simp [hd] at h
    | some proc => cases h
  | finished proc => cases h
  | freed proc => cases h
  | putBack proc => cases h
  | exec proc => cases h
  | slot proc => cases h
  | stopped => cases h

/-! ## Between the slices -/

/-- A CPU without a process, or one that has just put its process back, has no time. -/
def Idle (c : Cpu) : Prop :=
  match c.point with
  | .top none => c.timeLeft = 0
  | .test none => c.timeLeft = 0
  | .slot none => c.timeLeft = 0
  | .putBack _ => c.timeLeft = 0
  | .stopped => c.timeLeft = 0
  | _ => True

omit [DecidableEq κ] in
/-- A step of a CPU that has no time left without a process leaves it so. -/
theorem Idle.next {cfg : Config} {m : Machine κ} {k : κ} (h : Idle (m.cpu k)) :
    Idle (nextCpu cfg m k) := by
  unfold nextCpu
  generalize m.cpu k = c at h ⊢
  obtain ⟨point, t⟩ := c
  cases point with
  | top proc =>
    cases proc with
    | none =>
      cases (getMlqProc m.sched).1 with
      | none => exact h
      | some proc => trivial
    | some proc =>
      dsimp only
      split_ifs with hpc h0
      · trivial
      · exact h0
      · trivial
  | finished proc => trivial
  | freed proc => cases (getMlqProc m.sched).1 <;> trivial
  | putBack proc =>
    cases (getMlqProc m.sched).1 with
    | none => exact h
    | some proc => trivial
  | test proc =>
    cases proc with
    | none => cases m.done <;> exact h
    | some proc => trivial
  | exec proc => trivial
  | slot proc => cases proc <;> exact h
  | stopped => exact h

/-- In every reachable state a CPU without a process, or one that has just put its process
back, has no time left. -/
theorem idle_of_reachable {cfg : Config} {m : Machine κ}
    (h : Reachable (fun m => m = boot) (MachineStep cfg) m) (k : κ) : Idle (m.cpu k) := by
  refine h.invariant (fun m => ∀ k, Idle (m.cpu k)) ?_ ?_ k
  · rintro _ rfl k
    exact rfl
  · rintro m actor _ hm rfl k
    cases actor with
    | loader =>
      have hcpu : (loaderStep cfg m).cpu = m.cpu := by
        unfold loaderStep
        split <;> rfl
      change Idle ((loaderStep cfg m).cpu k)
      rw [hcpu]
      exact hm k
    | cpu j =>
      change Idle ((cpuStep cfg m j).cpu k)
      by_cases hj : k = j
      · subst hj
        rw [cpuStep_cpu]
        exact (hm k).next
      · rw [cpuStep_of_ne cfg m hj]
        exact hm k

/-- A CPU that gets a process is at a dispatch. -/
theorem dispatches_of_get {cfg : Config} {m : Machine κ} {k : κ} {a : ℕ} (hidle : Idle (m.cpu k))
    (hold : (m.cpu k).point.holds = none)
    (hnew : ((cpuStep cfg m k).cpu k).point.holds = some a) : Dispatches (cpuStep cfg m k) k a := by
  unfold Dispatches
  rw [cpuStep_cpu] at hnew ⊢
  unfold nextCpu at hnew ⊢
  generalize m.cpu k = c at hidle hold hnew ⊢
  obtain ⟨point, t⟩ := c
  cases point with
  | top proc =>
    cases hold
    have ht : t = 0 := hidle
    dsimp only at hnew ⊢
    cases hg : (getMlqProc m.sched).1 with
    | none => rw [hg] at hnew; cases hnew
    | some b => rw [hg] at hnew; cases hnew; rw [ht]
  | finished proc => cases hnew
  | freed proc =>
    have hg : (getMlqProc m.sched).1 = some a := hnew
    rw [hg]
  | putBack proc =>
    have ht : t = 0 := hidle
    have hg : (getMlqProc m.sched).1 = some a := hnew
    rw [hg, ht]
  | test proc =>
    cases hold
    dsimp only at hnew
    split at hnew <;> cases hnew
  | exec proc => cases hold
  | slot proc =>
    cases hold
    cases hnew
  | stopped => cases hnew

/-- The slices of a CPU are exact, from a state on. -/
structure SlicesExact (cfg : Config) (m : Machine κ) (k : κ) : Prop where
  /-- A CPU without a process has no time left. -/
  idle : Point.proc (m.cpu k).point = none → (m.cpu k).timeLeft = 0
  /-- A CPU that has just put its process back has no time left. -/
  idleBack : ∀ a, (m.cpu k).point = .putBack a → (m.cpu k).timeLeft = 0
  /-- Whenever a CPU gets a process, it dispatches it. -/
  dispatch : ∀ a, (m.cpu k).point.holds = none →
    ((cpuStep cfg m k).cpu k).point.holds = some a → Dispatches (cpuStep cfg m k) k a
  /-- From a dispatch to the moment the process is put back there are `time_slot` calls of
  `run`, whatever the other threads do. -/
  preempted : ∀ a as b, Dispatches m k a → HeldThroughout cfg k a m as →
    PutsBack cfg (after cfg m as) k b → b = a ∧ (runCalls cfg k m as : ℤ) = cfg.timeSlot
  /-- Up to its completion there are at most as many. -/
  completed : ∀ a as b, Dispatches m k a → HeldThroughout cfg k a m as →
    Completes cfg (after cfg m as) k b → b = a ∧ (runCalls cfg k m as : ℤ) ≤ cfg.timeSlot
  /-- A process that has reached the end of its code is not put back. -/
  unfinished : ∀ a, 0 < cfg.size a → cfg.size a ≤ m.pc a → ¬PutsBack cfg m k a

/-- Time slices are exact in every reachable state, for any number of CPUs. -/
theorem slicesExact {cfg : Config} (hslot : 1 ≤ cfg.timeSlot) {m : Machine κ}
    (h : Reachable (fun m => m = boot) (MachineStep cfg) m) (k : κ) : SlicesExact cfg m k := by
  have hidle := idle_of_reachable h k
  have hslice : ∀ a as, Dispatches m k a → HeldThroughout cfg k a m as →
      InSlice cfg a ((after cfg m as).cpu k) (runCalls cfg k m as) := by
    intro a as hd hheld
    have hgot : InSlice cfg a (m.cpu k) 0 := by
      rw [hd]
      exact .got
    have hend := hgot.throughout hslot hheld
    rw [Nat.zero_add] at hend
    exact hend
  refine ⟨fun hp => ?_, fun a hp => ?_, fun a hold hnew => dispatches_of_get hidle hold hnew,
    fun a as b hd hheld hput => ?_, fun a as b hd hheld hdone => ?_, fun a _ hend hput => ?_⟩
  · generalize m.cpu k = c at hidle hp
    obtain ⟨point, t⟩ := c
    cases point with
    | top proc => cases hp; exact hidle
    | test proc => cases hp; exact hidle
    | slot proc => cases hp; exact hidle
    | finished proc => cases hp
    | freed proc => cases hp
    | putBack proc => cases hp
    | exec proc => cases hp
    | stopped => exact hidle
  · unfold Idle at hidle
    rw [hp] at hidle
    exact hidle
  · have hend := hslice a as hd hheld
    rw [(putsBack_iff.mp hput).1] at hend
    cases hend with
    | top ht hn => exact ⟨rfl, by omega⟩
  · have hend := hslice a as hd hheld
    obtain ⟨t, htop⟩ := completes_top hdone
    rw [htop] at hend
    cases hend with
    | top ht hn => exact ⟨rfl, by omega⟩
  · have hle := ((routineInv_of_reachable h).process a).pc_le
    exact (putsBack_iff.mp hput).2 (le_antisymm hle hend)

/-- A CPU dispatches a process of two instructions for one call of `run` and puts it back. -/
theorem slicesExact_oneProcess : ∃ m : Machine Unit,
    Reachable (fun m => m = boot) (MachineStep oneProcess) m ∧ Dispatches m () 0 ∧
      HeldThroughout oneProcess () 0 m (List.replicate 3 (.cpu ())) ∧
      PutsBack oneProcess (after oneProcess m (List.replicate 3 (.cpu ()))) () 0 ∧
      SlicesExact oneProcess m () := by
  have hreach : Reachable (fun m => m = boot) (MachineStep oneProcess)
      ([.loader, .cpu ()].foldl (step oneProcess) (boot : Machine Unit)) :=
    ⟨boot, _, rfl, run_foldl (step oneProcess) boot _⟩
  exact ⟨_, hreach, rfl, ⟨rfl, rfl, rfl, trivial⟩, rfl, slicesExact (by decide) hreach ()⟩

end OsSim.CpuSlice
