import OsSim.OsMachine
import Mathlib.Algebra.BigOperators.Group.Finset.Basic

/-!
# Time sharing is invisible

On a machine that has enough memory for the heaps of all programs, the steps of the
CPUs and of the loader never get stuck, in whatever order they come, and at any time
the registers and the memory of a process are those that its program, executed on
its own up to the same instruction, leaves in them.
-/

namespace OsSim.OsTransparency

open MemoryWords MemoryDevice MemoryPageTable MemoryMapping MemoryPaging MemoryLibrary MemoryBytes
open MemoryInstruction MemoryFrames MemoryDrain MemoryTranslation ProcessRun
open SchedulerQueue SchedulerMlq CpuRoutine CpuExecution CpuCapacity
open VirtualMemory VirtualProgram VirtualFrames OsMachine

/-! ## Memory for all programs -/

/-- The pages that the rest of all programs adds to the heaps. -/
def pagesLeft (cfg : OsConfig) (pc : ℕ → ℕ) : ℕ :=
  ∑ a ∈ Finset.range cfg.numProcesses, heapPages ((cfg.code a).drop (pc a))

/-- The instruction does not call `inc_vma_limit` or `__mm_swap_page` as a system call of
its own, outside `mmvm_lock`. The operations of that call on RAM and on the page table are
not `WellFormed`. -/
def Locked (ins : Inst) : Prop :=
  ins.opcode = .syscall → toCInt ins.arg0 = 17 →
    toCInt ins.arg1 ≠ sysmemIncOp ∧ toCInt ins.arg1 ≠ sysmemSwpOp

/-- Nobody is refused by a queue, no operand leads out of a table, no memory function runs
outside its lock, every heap fits the page table, and RAM has frames for all of them, with
numbers that fit their field. `malloc` gets no negative size, and left `NULL` behind the
first free region of every process. -/
structure Admissible (cfg : OsConfig) : Prop where
  /-- A queue holds all processes. -/
  few : cfg.numProcesses ≤ maxQueueSize
  /-- The operands are in order. -/
  wellFormed : ∀ a < cfg.numProcesses, ∀ ins ∈ cfg.code a, WellFormed ins
  /-- Memory functions hold their lock. -/
  locked : ∀ a < cfg.numProcesses, ∀ ins ∈ cfg.code a, Locked ins
  /-- Every heap fits the page table. -/
  heap : ∀ a < cfg.numProcesses, heapPages (cfg.code a) ≤ 512
  /-- All heaps together fit the frame field. -/
  frames : pagesLeft cfg (fun _ => 0) ≤ 2 ^ 13
  /-- RAM is as large as they are. -/
  ram : (pagesLeft cfg (fun _ => 0) : ℤ) * 4096 ≤ cfg.memramsz.toInt
  /-- The swap devices have sizes. -/
  swap : ∀ size ∈ cfg.memswpsz, 0 ≤ size.toInt
  /-- The lists of free regions end. -/
  null : ∀ a < cfg.numProcesses, cfg.vmFreergList a = 0

/-- An instruction leaves the pages of those behind it. -/
theorem pagesLeft_update {cfg : OsConfig} {pc : ℕ → ℕ} {a : ℕ} {ins : Inst}
    (ha : a < cfg.numProcesses) (hins : (cfg.code a)[pc a]? = some ins) :
    pagesLeft cfg pc = pagesOf ins + pagesLeft cfg (Function.update pc a (pc a + 1)) := by
  have hmem := Finset.mem_range.mpr ha
  obtain ⟨hlt, hget⟩ := List.getElem?_eq_some_iff.mp hins
  have hdrop : heapPages ((cfg.code a).drop (pc a)) =
      pagesOf ins + heapPages ((cfg.code a).drop (pc a + 1)) := by
    rw [List.drop_eq_getElem_cons hlt, hget, heapPages_cons]
  unfold pagesLeft
  rw [← Finset.add_sum_erase _ _ hmem, ← Finset.add_sum_erase _ _ hmem, hdrop,
    Function.update_self, Nat.add_assoc]
  congr 2
  refine Finset.sum_congr rfl fun b hb => ?_
  rw [Function.update_of_ne (Finset.ne_of_mem_erase hb)]

/-- A fresh RAM counts the frames that a positive `int` size has room for. -/
theorem formatNumfp_toInt {memramsz : CInt} (hmsb : memramsz.msb = false) :
    (formatNumfp (toAddr memramsz) (BitVec.ofNat 32 paging64Pagesz)).toInt =
      (memramsz.toNat / 4096 : ℕ) := by
  have hlt := memramsz.isLt
  have hp : toAddr (BitVec.ofNat 32 paging64Pagesz) = 4096#64 := by decide
  have hsize : (toAddr memramsz).toNat = memramsz.toNat := by
    unfold toAddr
    rw [BitVec.signExtend_eq_setWidth_of_msb_false hmsb, BitVec.toNat_setWidth]
    omega
  have hnat : (formatNumfp (toAddr memramsz) (BitVec.ofNat 32 paging64Pagesz)).toNat =
      memramsz.toNat / 4096 := by
    unfold formatNumfp
    rw [hp, toCInt, BitVec.toNat_setWidth, BitVec.toNat_udiv, hsize]
    change memramsz.toNat / 4096 % 2 ^ 32 = _
    omega
  rw [BitVec.toInt_eq_toNat_cond, hnat]
  split
  · rfl
  · omega

/-- The frames of a fresh RAM. -/
theorem framesReady_boot {memramsz : CInt} {n : ℕ} (hn : n ≤ 2 ^ 13)
    (hram : (n : ℤ) * 4096 ≤ memramsz.toInt) :
    FramesReady (initMemphy (toAddr memramsz) true).freeFpList n := by
  have hmsb : memramsz.msb = false := by
    rw [BitVec.msb_eq_toInt]
    simpa using (show 0 ≤ memramsz.toInt by omega)
  have hle : n ≤ memramsz.toNat / 4096 := by
    rw [BitVec.toInt_eq_toNat_of_msb hmsb] at hram
    omega
  have hnum := formatNumfp_toInt hmsb
  dsimp only [initMemphy, memphyFormat]
  split
  · next hzero =>
    rw [BitVec.sle_iff_toInt_le, hnum] at hzero
    have hn0 : n = 0 := by
      have hzero : ((memramsz.toNat / 4096 : ℕ) : ℤ) ≤ 0 := hzero
      omega
    subst hn0
    exact ⟨Nat.zero_le _, fun f hf => by cases hf⟩
  · dsimp only [loopCount]
    rw [hnum, Int.toNat_natCast]
    refine ⟨?_, fun f hf => ?_⟩
    · rw [List.length_map, List.length_range]
      exact hle
    · rw [← List.map_take, List.take_range, Nat.min_eq_left hle] at hf
      obtain ⟨i, hi, rfl⟩ := List.mem_map.mp hf
      have hi := List.mem_range.mp hi
      rw [BitVec.toNat_ofNat]
      omega

/-- A part of a program needs no more pages than all of it. -/
theorem heapPages_take_le (code : List Inst) (n : ℕ) : heapPages (code.take n) ≤ heapPages code := by
  calc heapPages (code.take n)
      ≤ heapPages (code.take n) + heapPages (code.drop n) := Nat.le_add_right _ _
    _ = heapPages code := by rw [← heapPages_append, List.take_append_drop]

/-! ## What every step keeps -/

variable {κ : Type} {uninit : Addr → Byte} {cfg : OsConfig}

/-- Each process is where its own program, executed up to its `pc`, leads to, and the
devices hold the memories of all processes. -/
structure OsInv (cfg : OsConfig) (s : Os κ) (p : ℕ → VirtualProc) : Prop where
  /-- The threads. -/
  capacity : CapacityInv cfg.toConfig s.threads
  /-- The devices and page tables. -/
  represents : Represents s.shared fun a => (p a).mem
  /-- What has been executed. -/
  reached : ∀ a, meaning (cfg.regs a) ((cfg.code a).take (s.threads.pc a)) = .ok (p a)
  /-- The registers. -/
  regs : ∀ a, s.regs a = (p a).regs
  /-- The heap of what has been executed. -/
  confined : ∀ a, Confined (p a).mem (heapPages ((cfg.code a).take (s.threads.pc a)))
  /-- Every page of it is present. -/
  mapped : ∀ a, HeapMapped (s.mm a) (p a).mem
  /-- No entry is in use that is not present. -/
  marked : ∀ a, EntriesMarked (s.mm a)
  /-- Frames for what is left. -/
  frames : FramesReady s.mram.freeFpList (pagesLeft cfg s.threads.pc)

/-- Threads that move without executing leave everything else as it was. -/
theorem OsInv.threads {s : Os κ} {p : ℕ → VirtualProc} (h : OsInv cfg s p) {m : Machine κ}
    (hm : CapacityInv cfg.toConfig m) (hpc : m.pc = s.threads.pc) :
    OsInv cfg {s with threads := m} p where
  capacity := hm
  represents := h.represents
  reached := by
    dsimp only
    rw [hpc]
    exact h.reached
  regs := h.regs
  confined := by
    dsimp only
    rw [hpc]
    exact h.confined
  mapped := h.mapped
  marked := h.marked
  frames := by
    dsimp only
    rw [hpc]
    exact h.frames

/-- What one process sees of the machine. -/
theorem OsInv.hosted {s : Os κ} {p : ℕ → VirtualProc} (h : OsInv cfg s p) (a : ℕ) :
    Hosted (fun b => (s.mm b).entry) (fun b => (p b).mem.byte) a ((s.kernel cfg).mem a) (p a).mem
      (heapPages ((cfg.code a).take (s.threads.pc a))) :=
  ⟨h.represents.view a _, h.confined a, h.mapped a, h.marked a⟩

/-- Two tables that change at one place, seen together. -/
theorem forall_update₂ {α β γ : Type*} [DecidableEq α] {f : α → β} {g : α → γ}
    {P : α → β → γ → Prop} {a : α} {b : β} {c : γ} (h : P a b c)
    (hne : ∀ x, x ≠ a → P x (f x) (g x)) :
    ∀ x, P x (Function.update f a b x) (Function.update g a c x) := by
  intro x
  by_cases hx : x = a
  · subst hx
    rw [Function.update_self, Function.update_self]
    exact h
  · rw [Function.update_of_ne hx, Function.update_of_ne hx]
    exact hne x hx

/-- A process that has executed one more instruction. -/
theorem OsInv.executed {s : Os κ} {p : ℕ → VirtualProc} (h : OsInv cfg s p) {m : Machine κ}
    (hm : CapacityInv cfg.toConfig m) {a : ℕ} {ins : Inst}
    (hpc : m.pc = Function.update s.threads.pc a (s.threads.pc a + 1))
    (hins : (cfg.code a)[s.threads.pc a]? = some ins) {c : ProcMem} {q : VirtualProc}
    (hq : (p a).exec ins = .ok q)
    (hc : Hosted (fun b => (s.mm b).entry) (fun b => (p b).mem.byte) a c q.mem
      (heapPages ((cfg.code a).take (s.threads.pc a)) + pagesOf ins))
    (hf : FramesReady c.mram.freeFpList (pagesLeft cfg m.pc)) {s' : Os κ}
    (ht : s'.threads = m) (hs : s'.shared = s.shared.store a c)
    (hr : s'.regs = Function.update s.regs a q.regs) :
    OsInv cfg s' (Function.update p a q) := by
  have hmm : s'.mm = Function.update s.mm a c.mm := congrArg SharedMem.mm hs
  have hram : s'.mram = c.mram := congrArg SharedMem.mram hs
  have htake : (cfg.code a).take (s.threads.pc a + 1) =
      (cfg.code a).take (s.threads.pc a) ++ [ins] := by
    obtain ⟨hlt, hget⟩ := List.getElem?_eq_some_iff.mp hins
    rw [List.take_succ_eq_append_getElem hlt, hget]
  constructor
  case capacity => rwa [ht]
  case represents =>
    rw [hs]
    convert h.represents.store hc.stands using 1
    funext b
    exact (Function.apply_update (fun _ r => r.mem) p a q b)
  case reached =>
    rw [ht, hpc]
    refine forall_update₂ (P := fun b n r => meaning (cfg.regs b) ((cfg.code b).take n) = .ok r)
      ?_ fun b _ => h.reached b
    rw [htake]
    exact meaning_snoc (h.reached a) hq
  case regs =>
    rw [hr]
    exact forall_update₂ (P := fun _ regs (r : VirtualProc) => regs = r.regs) rfl fun b _ => h.regs b
  case confined =>
    rw [ht, hpc]
    refine forall_update₂
      (P := fun b n (r : VirtualProc) => Confined r.mem (heapPages ((cfg.code b).take n)))
      ?_ fun b _ => h.confined b
    rw [htake, heapPages_append, heapPages_cons, heapPages_nil, Nat.add_zero]
    exact hc.confined
  case mapped =>
    rw [hmm]
    exact forall_update₂ (P := fun _ mm (r : VirtualProc) => HeapMapped mm r.mem) hc.mapped
      fun b _ => h.mapped b
  case marked =>
    rw [hmm]
    exact (Function.forall_update_iff s.mm fun _ mm => EntriesMarked mm).mpr
      ⟨hc.marked, fun b _ => h.marked b⟩
  case frames => rwa [hram, ht]

variable [DecidableEq κ]

/-- The machine starts with every process at the start of its program. -/
theorem osInv_boot (ha : Admissible cfg) :
    OsInv cfg (osBoot cfg : Os κ) fun a => VirtualProc.load (cfg.regs a) where
  capacity := capacityInv_boot cfg.toConfig
  represents := represents_boot ⟨fun _ => rfl, ⟨_, _, rfl⟩, ⟨_, _, rfl⟩⟩ rfl
  reached _ := rfl
  regs _ := rfl
  confined _ := confined_init
  mapped _ _ hx := absurd hx (Nat.not_lt_zero _)
  marked _ := entriesMarked_initMm
  frames := framesReady_boot ha.frames ha.ram

variable (uninit) in
/-- Every step of a thread returns and keeps the machine as the programs say. -/
theorem osInv_step (ha : Admissible cfg) {s : Os κ} {p : ℕ → VirtualProc} (h : OsInv cfg s p)
    (actor : Actor κ) : ∃ s' p', osStep uninit cfg s actor = .ok s' ∧ OsInv cfg s' p' := by
  have hcap := capacityInv_step ha.few h.capacity actor
  have hpc := step_pc cfg.toConfig s.threads actor
  cases hx : executes s.threads actor with
  | none =>
    rw [hx] at hpc
    exact ⟨_, p, osStep_of_none hx, h.threads hcap hpc⟩
  | some a =>
    rw [hx] at hpc
    obtain ⟨k, _, hk⟩ := holds_of_executes hx
    have hlive := h.capacity.routine.holds_live (k := k) (a := a) (by rw [hk]; rfl)
    have hnum : a < cfg.numProcesses := live_lt h.capacity.routine hlive
    have hl : ((s.kernel cfg).mem a).listed = true :=
      Option.isSome_iff_exists.mpr ⟨a, h.capacity.found hlive⟩
    cases hins : (cfg.code a)[s.threads.pc a]? with
    | none =>
      -- a process without instructions is dispatched before it can finish
      have hend : cfg.toConfig.size a ≤ s.threads.pc a := List.getElem?_eq_none_iff.mp hins
      have hr : ProcessRun.run uninit (s.kernel cfg) a = .ok (1, s.kernel cfg) := by
        unfold ProcessRun.run
        rw [kernel_fetch, hins]
      refine ⟨_, p, osStep_of_some hx (ha.null a hnum) hr, h.threads hcap (hpc.trans ?_)⟩
      dsimp only [CpuRoutine.run]
      rw [if_pos hend]
    | some ins =>
      have hlt : ¬cfg.toConfig.size a ≤ s.threads.pc a :=
        Nat.not_le.mpr (List.getElem?_eq_some_iff.mp hins).1
      have hw := ha.wellFormed a hnum ins (List.mem_of_getElem? hins)
      have hn := (heapPages_take_le _ (s.threads.pc a)).trans (ha.heap a hnum)
      dsimp only [CpuRoutine.run] at hpc
      rw [if_neg hlt] at hpc
      have hready := h.frames
      rw [pagesLeft_update hnum hins] at hready
      obtain ⟨status, word, c, v, he, hv, hc, j, hj, hfree⟩ :=
        (h.hosted a).exec uninit hl hw hn (hready.mono (Nat.le_add_right _ _))
      obtain ⟨q, hq, -⟩ := (h.confined a).step hw hn
      obtain ⟨_, _, _, regs, hv', hregs, rfl⟩ := VirtualProc.exec_cases hq
      cases hv.symm.trans hv'
      have hr : ProcessRun.run uninit (s.kernel cfg) a = .ok (status, (s.kernel cfg).store a
          (((s.kernel cfg).pcb a).advance c.mm regs) c) := by
        unfold ProcessRun.run
        rw [kernel_fetch, hins]
        dsimp only
        rw [he]
        change (putReg (s.regs a) ins.arg2 word >>= _) = _
        rw [h.regs a, hregs]
        rfl
      obtain ⟨hshared, hset⟩ := setKernel_store cfg s a c regs
      refine ⟨_, _, osStep_of_some hx (ha.null a hnum) hr,
        h.executed hcap hpc hins hq hc ?_ rfl hshared hset⟩
      rw [hfree, hpc]
      exact hready.drop hj

variable (uninit) in
/-- In whatever order the threads take their steps, every step returns and keeps the
machine as the programs say. -/
theorem osInv_run (ha : Admissible cfg) (actors : List (Actor κ)) :
    ∃ s p, osRun uninit cfg actors = .ok s ∧ OsInv cfg s p ∧
      s.threads = actors.foldl (step cfg.toConfig) boot := by
  induction actors using List.reverseRecOn with
  | nil => exact ⟨_, _, rfl, osInv_boot ha, rfl⟩
  | append_singleton actors actor ih =>
    obtain ⟨s, p, hs, hinv, hthreads⟩ := ih
    obtain ⟨s', p', hs', hinv'⟩ := osInv_step uninit ha hinv actor
    refine ⟨s', p', ?_, hinv', ?_⟩
    · unfold osRun at hs ⊢
      rw [List.foldlM_append, hs]
      change ([actor].foldlM (osStep uninit cfg) s) = .ok s'
      rw [List.foldlM_cons, hs']
      rfl
    · rw [osStep_threads hs', hthreads, List.foldl_append]
      rfl

omit [DecidableEq κ] in
/-- A process that has finished has executed its whole program. -/
theorem OsInv.complete {s : Os κ} {p : ℕ → VirtualProc} (h : OsInv cfg s p) {a : ℕ}
    (hf : 0 < s.threads.finishes a) : meaning (cfg.regs a) (cfg.code a) = .ok (p a) := by
  have hproc := h.capacity.routine.process a
  have hend : s.threads.pc a = (cfg.code a).length :=
    hproc.complete (le_antisymm hproc.finishes_le hf)
  have hreached := h.reached a
  rwa [hend, List.take_length] at hreached

/-- If RAM serves the heaps of all programs, the machine never stops for an error, in
whatever order the threads take their steps, and time sharing cannot be noticed: at any
time the registers, the symbols and every byte of the heap of a process are those that
its own program, executed alone on a fresh memory up to the same instruction, leaves,
and those that the whole program leaves once the process has finished. -/
theorem time_sharing_transparent (uninit : Addr → Byte) {cfg : OsConfig} (ha : Admissible cfg)
    (actors : List (Actor κ)) : ∃ s, osRun uninit cfg actors = .ok s ∧
      s.threads = actors.foldl (step cfg.toConfig) boot ∧
      ∀ a < cfg.numProcesses, ∃ p,
        meaning (cfg.regs a) ((cfg.code a).take (s.threads.pc a)) = .ok p ∧
        s.regs a = p.regs ∧ (s.mm a).symrgtbl = p.mem.symrgtbl ∧
        (∀ addr, addr.toNat < p.mem.sbrk.toNat →
          Present ((s.mm a).entry (pageIndex addr)) ∧
            s.mram.storage (frameAddr ((s.mm a).entry (pageIndex addr)) addr) =
              p.mem.byte (cell addr)) ∧
        (0 < s.threads.finishes a → meaning (cfg.regs a) (cfg.code a) = .ok p) := by
  obtain ⟨s, p, hs, hinv, hthreads⟩ := osInv_run uninit ha actors
  refine ⟨s, hs, hthreads, fun a hnum => ⟨p a, hinv.reached a, hinv.regs a,
    hinv.represents.symrgtbl a, fun addr haddr => ?_, hinv.complete⟩⟩
  have hpages := (heapPages_take_le _ (s.threads.pc a)).trans (ha.heap a hnum)
  have hpres : Present ((s.mm a).entry (pageIndex addr)) :=
    (hinv.mapped a).present haddr
      ((hinv.confined a).sbrk_le.trans (Nat.mul_le_mul_right _ hpages))
  exact ⟨hpres, hinv.represents.storage_eq hpres⟩

/-! ## Two processes that share four frames -/

/-- Two processes that allocate a region, write a byte of their own to its start and read
it back. -/
def twoPrograms : OsConfig where
  numProcesses := 2
  code a := [⟨.alloc, 300, 0, 0, 0⟩, ⟨.write, BitVec.ofNat 64 (a + 7), 0, 0, 0⟩,
    ⟨.read, 0, 0, 0, 0⟩]
  prio _ := 3
  timeSlot := 1
  memramsz := 16384
  memswpsz := [0, 0, 0, 0]
  regs _ _ := 0
  vmFreergList _ := 0
  numProcesses_lt := by decide

/-- An instruction that is no system call stays inside the lock. -/
theorem locked_of_ne {ins : Inst} (h : ins.opcode ≠ .syscall) : Locked ins :=
  fun hop => absurd hop h

/-- The two programs can be run on four frames. -/
theorem admissible_twoPrograms : Admissible twoPrograms where
  few := by decide
  wellFormed := by
    intro a _ ins hins
    obtain rfl | rfl | rfl : ins = _ ∨ ins = _ ∨ ins = _ := by
      simpa only [twoPrograms, List.mem_cons, List.not_mem_nil, or_false] using hins
    · exact ⟨by decide, by decide⟩
    · exact (by decide : toCInt 0 ≠ 30)
    · exact ⟨by decide, by decide⟩
  locked := by
    intro a _ ins hins
    obtain rfl | rfl | rfl : ins = _ ∨ ins = _ ∨ ins = _ := by
      simpa only [twoPrograms, List.mem_cons, List.not_mem_nil, or_false] using hins
    all_goals exact locked_of_ne (by rintro ⟨⟩)
  heap := by decide
  frames := by decide
  ram := by decide
  swap size hsize := by
    obtain rfl : size = 0 := by simpa [twoPrograms] using hsize
    decide
  null _ _ := rfl

/-- The loader adds both, and two CPUs take turns. -/
def takingTurns : List (Actor (Fin 2)) :=
  [.loader, .loader] ++ (List.replicate 22 [.cpu ⟨0, Nat.two_pos⟩, .cpu ⟨1, Nat.one_lt_two⟩]).flatten

/-- Two processes that take turns on two CPUs both finish, each with the registers that its
program leaves alone. -/
theorem time_sharing_transparent_takingTurns : ∃ s : Os (Fin 2),
    osRun (fun _ => 0) twoPrograms takingTurns = .ok s ∧
      ∀ a < 2, ∃ p, meaning (fun _ => 0) (twoPrograms.code a) = .ok p ∧ s.regs a = p.regs := by
  obtain ⟨s, hs, hthreads, h⟩ :=
    time_sharing_transparent (fun _ => 0) admissible_twoPrograms takingTurns
  have hfin : ∀ a < 2,
      0 < (takingTurns.foldl (step twoPrograms.toConfig) boot).finishes a := by decide +kernel
  refine ⟨s, hs, fun a ha => ?_⟩
  obtain ⟨p, -, hregs, -, -, hp⟩ := h a ha
  rw [hthreads] at hp
  exact ⟨p, hp (hfin a ha), hregs⟩

end OsSim.OsTransparency
