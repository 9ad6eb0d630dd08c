import OsSim.MutexPrograms
import OsSim.MemoryInstruction
import OsSim.SchedulerMlq

/-!
# The locks of the system

The functions of the memory library, of the system calls and of the scheduler,
as far as they lock and unlock. A value that comes from the memory, from a list
or from the process table is any integer; `NULL` and "false" are 0.

`free_pcb_memph` and `get_proc_by_pid` are called nowhere and left out, as are the
locks of the timer, which no function below is called under or takes.
-/

namespace OsSim.SystemLocks

open MutexPrograms MemoryWords MemoryPageTable MemoryMapping MemoryPaging
  MemoryInstruction RunSteps SchedulerMlq

/-- The mutexes. -/
inductive Mutex
  /-- `mmvm_lock` of `libmem.c`. -/
  | mmvmLock
  /-- `queue_lock` of `sched.c`. -/
  | queueLock
  /-- `dispatch_lock` of `sched.c`. -/
  | dispatchLock
  deriving DecidableEq

/-! ## Scheduler -/

/-- `find_process_by_pid`: both searches leave through `found_pid`. -/
def findProcessByPid (krnl : ℤ) : Prog Mutex ℤ := do
  if krnl = 0 then
    return 0
  mutexLock .queueLock
  let proc ← anyInt
  mutexUnlock .queueLock
  return proc

/-- What `finish_proc`, `put_mlq_proc` and `add_mlq_proc` do with the locks: nothing
for `NULL`, else their work on the queues in one section. -/
def queueSection (proc : ℤ) : Prog Mutex Unit := do
  if proc = 0 then
    return
  mutexLock .queueLock
  mutexUnlock .queueLock

/-- `finish_proc`. -/
def finishProc (proc : ℤ) : Prog Mutex Unit := queueSection proc

/-- The loop of `get_mlq_proc`, for the attempts left, and what follows it. -/
def getMlqProcLoop : ℕ → Prog Mutex ℤ
  | 0 => do
    mutexUnlock .queueLock
    mutexUnlock .dispatchLock
    return 0
  | n + 1 => do
    let ready ← anyInt
    if ready ≠ 0 then
      let proc ← anyInt
      if proc ≠ 0 then
        mutexUnlock .queueLock
        mutexUnlock .dispatchLock
        return proc
    getMlqProcLoop n

/-- `get_mlq_proc`. -/
def getMlqProc : Prog Mutex ℤ := do
  mutexLock .dispatchLock
  mutexLock .queueLock
  getMlqProcLoop maxPrio

/-- `put_mlq_proc`. -/
def putMlqProc (proc : ℤ) : Prog Mutex Unit := queueSection proc

/-- `add_mlq_proc`: either branch of the check of `prio` comes to the unlock. -/
def addMlqProc (proc : ℤ) : Prog Mutex Unit := queueSection proc

/-- `get_proc`. -/
def getProc : Prog Mutex ℤ := getMlqProc

/-- `put_proc`. -/
def putProc (proc : ℤ) : Prog Mutex Unit := putMlqProc proc

/-- `add_proc`. -/
def addProc (proc : ℤ) : Prog Mutex Unit := addMlqProc proc

/-! ## System calls -/

/-- `__sys_memmap`, for the operation in `regs->a1`. -/
def sysMemmap (krnl : ℤ) (memop : CInt) : Prog Mutex ℤ := do
  let caller ← findProcessByPid krnl
  if caller = 0 then
    return -1
  if memop ∈ [sysmemMapOp, sysmemIncOp, sysmemSwpOp, sysmemIoRead, sysmemIoWrite] then
    anyInt
  else
    return -1

/-- `syscall`: the listing call and the default entry take no lock and return 0. -/
def syscall (krnl : ℤ) (nr : UInt) (memop : CInt) : Prog Mutex ℤ :=
  if nr = 17 then sysMemmap krnl memop else pure 0

/-- `libsyscall`, with `a1` as the operation. -/
def libsyscall (syscallIdx : UInt) (a1 : CInt) : Prog Mutex ℤ := do
  let krnl ← anyInt
  syscall krnl syscallIdx a1

/-! ## Memory library -/

/-- `__alloc`. -/
def alloc : Prog Mutex ℤ := do
  mutexLock .mmvmLock
  let freeArea ← anyInt
  if freeArea = 0 then
    mutexUnlock .mmvmLock
    return 0
  let krnl ← anyInt
  let status ← syscall krnl 17 sysmemIncOp
  if status = -1 then
    mutexUnlock .mmvmLock
    return -1
  mutexUnlock .mmvmLock
  return 0

/-- `__free`. -/
def free (rgid : CInt) : Prog Mutex ℤ := do
  mutexLock .mmvmLock
  if rgid.slt 0 || (BitVec.ofNat 32 pagingMaxSymtblSz).slt rgid then
    mutexUnlock .mmvmLock
    return -1
  let unused ← anyInt
  if unused ≠ 0 then
    mutexUnlock .mmvmLock
    return -1
  mutexUnlock .mmvmLock
  return 0

/-- `pg_getpage`: the swap calls, and the returns without a victim or a swap frame. -/
def pgGetpage : Prog Mutex ℤ := do
  let krnl ← anyInt
  let present ← anyInt
  if present = 0 then
    let freefp ← anyInt
    if freefp = 0 then
      let swapped ← anyInt
      if swapped ≠ 0 then
        let _ ← syscall krnl 17 sysmemSwpOp
    else
      let victim ← anyInt
      if victim = -1 then
        return -1
      let swpfpn ← anyInt
      if swpfpn = -1 then
        return -1
      let _ ← syscall krnl 17 sysmemSwpOp
      let swapped ← anyInt
      if swapped ≠ 0 then
        let _ ← syscall krnl 17 sysmemSwpOp
  return 0

/-- `pg_getval` and `pg_setval`, which differ in the operation. -/
def pgAccess (memop : CInt) : Prog Mutex ℤ := do
  let page ← pgGetpage
  if page ≠ 0 then
    return -1
  let krnl ← anyInt
  let status ← syscall krnl 17 memop
  if status = 0 then
    return 0
  return -1

/-- `pg_getval`. -/
def pgGetval : Prog Mutex ℤ := pgAccess sysmemIoRead

/-- `pg_setval`. -/
def pgSetval : Prog Mutex ℤ := pgAccess sysmemIoWrite

/-- `__read` and `__write`, which differ in the access they make. -/
def access (pgVal : Prog Mutex ℤ) : Prog Mutex ℤ := do
  mutexLock .mmvmLock
  let currg ← anyInt
  let curVma ← anyInt
  if currg = 0 ∨ curVma = 0 then
    mutexUnlock .mmvmLock
    return -1
  let outside ← anyInt
  if outside ≠ 0 then
    mutexUnlock .mmvmLock
    return -1
  let _ ← pgVal
  mutexUnlock .mmvmLock
  return 0

/-- `__read`. -/
def read : Prog Mutex ℤ := access pgGetval

/-- `__write`. -/
def write : Prog Mutex ℤ := access pgSetval

/-- The calls of the library pass the status on. -/
def libCall (p : Prog Mutex ℤ) : Prog Mutex ℤ := do
  let val ← p
  if val = -1 then
    return -1
  return val

/-- `liballoc`. -/
def liballoc : Prog Mutex ℤ := libCall alloc

/-- `libfree`. -/
def libfree (regIndex : CInt) : Prog Mutex ℤ := libCall (free regIndex)

/-- `libread`. -/
def libread : Prog Mutex ℤ := libCall read

/-- `libwrite`. -/
def libwrite : Prog Mutex ℤ := libCall write

/-! ## The order of the mutexes -/

/-- `queue_lock` comes last; `mmvm_lock` and `dispatch_lock` are never held together. -/
def rank : Mutex → ℕ
  | .mmvmLock => 0
  | .dispatchLock => 0
  | .queueLock => 1

section Restore

variable {H : Set Mutex}

theorem findProcessByPid_restores (krnl : ℤ) (hH : ∀ n ∈ H, rank n < rank .queueLock) :
    Restores rank H (findProcessByPid krnl) := by
  unfold findProcessByPid Restores
  split
  · exact wp_pure rfl
  · refine wp_lock hH (wp_any fun proc => ?_)
    exact wp_unlock (notMem_of_rank hH) (wp_pure rfl)

theorem queueSection_restores (proc : ℤ) (hH : ∀ n ∈ H, rank n < rank .queueLock) :
    Restores rank H (queueSection proc) := by
  unfold queueSection Restores
  split
  · exact wp_pure rfl
  · exact wp_lock hH (wp_unlock (notMem_of_rank hH) (wp_pure rfl))

/-- The loop runs under both locks and gives them back at either end. -/
theorem getMlqProcLoop_wp (n : ℕ) (hH : ∀ m ∈ H, rank m < rank .dispatchLock) :
    wp rank (getMlqProcLoop n) (insert .queueLock (insert .dispatchLock H))
      fun _ H' => H' = H := by
  have hq : .queueLock ∉ insert Mutex.dispatchLock H :=
    notMem_of_rank (rank_insert hH (by decide))
  have hd : .dispatchLock ∉ H := notMem_of_rank hH
  induction n with
  | zero => exact wp_unlock hq (wp_unlock hd (wp_pure rfl))
  | succ n ih =>
    refine wp_any fun ready => ?_
    split
    · refine wp_any fun proc => ?_
      split
      · exact wp_unlock hq (wp_unlock hd (wp_pure rfl))
      · exact ih
    · exact ih

theorem getMlqProc_restores (hH : ∀ n ∈ H, rank n < rank .dispatchLock) :
    Restores rank H getMlqProc := by
  refine wp_lock hH (wp_lock (rank_insert hH (by decide)) ?_)
  exact getMlqProcLoop_wp maxPrio hH

theorem sysMemmap_restores (krnl : ℤ) (memop : CInt) (hH : ∀ n ∈ H, rank n < rank .queueLock) :
    Restores rank H (sysMemmap krnl memop) := by
  unfold sysMemmap Restores
  refine wp_call (findProcessByPid_restores krnl hH) fun caller => ?_
  split
  · exact wp_pure rfl
  · split
    · exact fun ret => wp_pure rfl
    · exact wp_pure rfl

theorem syscall_restores (krnl : ℤ) (nr : UInt) (memop : CInt)
    (hH : ∀ n ∈ H, rank n < rank .queueLock) : Restores rank H (syscall krnl nr memop) := by
  unfold syscall
  split
  · exact sysMemmap_restores krnl memop hH
  · exact wp_pure rfl

theorem libsyscall_restores (syscallIdx : UInt) (a1 : CInt)
    (hH : ∀ n ∈ H, rank n < rank .queueLock) : Restores rank H (libsyscall syscallIdx a1) :=
  wp_any fun krnl => syscall_restores krnl syscallIdx a1 hH

theorem alloc_restores (hH : ∀ n ∈ H, rank n < rank .mmvmLock) : Restores rank H alloc := by
  have hm : .mmvmLock ∉ H := notMem_of_rank hH
  refine wp_lock hH (wp_any fun freeArea => ?_)
  split
  · exact wp_unlock hm (wp_pure rfl)
  · refine wp_any fun krnl => ?_
    have hq := rank_insert (n := .queueLock) hH (by decide)
    refine wp_call (syscall_restores krnl 17 sysmemIncOp hq) fun status => ?_
    split
    · exact wp_unlock hm (wp_pure rfl)
    · exact wp_unlock hm (wp_pure rfl)

theorem free_restores (rgid : CInt) (hH : ∀ n ∈ H, rank n < rank .mmvmLock) :
    Restores rank H (free rgid) := by
  have hm : .mmvmLock ∉ H := notMem_of_rank hH
  refine wp_lock hH ?_
  split
  · exact wp_unlock hm (wp_pure rfl)
  · refine wp_any fun unused => ?_
    split
    · exact wp_unlock hm (wp_pure rfl)
    · exact wp_unlock hm (wp_pure rfl)

theorem pgGetpage_restores (hH : ∀ n ∈ H, rank n < rank .queueLock) :
    Restores rank H pgGetpage := by
  unfold pgGetpage Restores
  refine wp_any fun krnl => wp_any fun present => ?_
  split
  · refine wp_any fun freefp => ?_
    split
    · refine wp_any fun swapped => ?_
      split
      · refine wp_call (syscall_restores krnl 17 sysmemSwpOp hH) fun _ => ?_
        exact wp_pure rfl
      · exact wp_pure rfl
    · refine wp_any fun victim => ?_
      split
      · exact wp_pure rfl
      · refine wp_any fun swpfpn => ?_
        split
        · exact wp_pure rfl
        · refine wp_call (syscall_restores krnl 17 sysmemSwpOp hH) fun _ => ?_
          refine wp_any fun swapped => ?_
          split
          · refine wp_call (syscall_restores krnl 17 sysmemSwpOp hH) fun _ => ?_
            exact wp_pure rfl
          · exact wp_pure rfl
  · exact wp_pure rfl

theorem pgAccess_restores (memop : CInt) (hH : ∀ n ∈ H, rank n < rank .queueLock) :
    Restores rank H (pgAccess memop) := by
  unfold pgAccess Restores
  refine wp_call (pgGetpage_restores hH) fun page => ?_
  split
  · exact wp_pure rfl
  · refine wp_any fun krnl => ?_
    refine wp_call (syscall_restores krnl 17 memop hH) fun status => ?_
    split
    · exact wp_pure rfl
    · exact wp_pure rfl

/-- An access under `mmvm_lock` restores the mutexes held, since `queue_lock` ranks above
it. -/
theorem access_restores {pgVal : Prog Mutex ℤ} (hH : ∀ n ∈ H, rank n < rank .mmvmLock)
    (hp : Restores rank (insert .mmvmLock H) pgVal) : Restores rank H (access pgVal) := by
  have hm : .mmvmLock ∉ H := notMem_of_rank hH
  refine wp_lock hH (wp_any fun currg => wp_any fun curVma => ?_)
  split
  · exact wp_unlock hm (wp_pure rfl)
  · refine wp_any fun outside => ?_
    split
    · exact wp_unlock hm (wp_pure rfl)
    · exact wp_call hp fun _ => wp_unlock hm (wp_pure rfl)

theorem read_restores (hH : ∀ n ∈ H, rank n < rank .mmvmLock) : Restores rank H read :=
  access_restores hH (pgAccess_restores sysmemIoRead (rank_insert hH (by decide)))

theorem write_restores (hH : ∀ n ∈ H, rank n < rank .mmvmLock) : Restores rank H write :=
  access_restores hH (pgAccess_restores sysmemIoWrite (rank_insert hH (by decide)))

theorem libCall_restores {p : Prog Mutex ℤ} (hp : Restores rank H p) :
    Restores rank H (libCall p) := by
  unfold libCall Restores
  refine wp_call hp fun val => ?_
  split
  · exact wp_pure rfl
  · exact wp_pure rfl

end Restore

/-! ## The statuses of the memory model -/

section Statuses

-- what the model returns is returned on some path, so that no exit is left out above
variable (uninit : Addr → Byte) (c : ProcMem)

theorem findProcessByPid_returns (proc : ℤ) : Returns (findProcessByPid 1) proc :=
  returns_lock (returns_any proc (returns_unlock (returns_pure proc)))

/-- The process is found where the model has it listed. -/
theorem sysMemmap_returns (regs : ScRegs) :
    Returns (sysMemmap 1 (toCInt regs.a1)) (MemoryPaging.sysMemmap uninit c regs).1 := by
  cases hl : c.listed with
  | false =>
    refine returns_bind (findProcessByPid_returns 0) ?_
    rw [MemoryPaging.sysMemmap, if_pos hl]
    exact returns_pure (-1)
  | true =>
    refine returns_bind (findProcessByPid_returns 1) ?_
    rw [if_neg (by decide)]
    split
    · exact ⟨[], .any _ (.pure _)⟩
    · next hop =>
      simp only [List.mem_cons, List.not_mem_nil, or_false, not_or] at hop
      obtain ⟨h1, h2, h3, h4, h5⟩ := hop
      simp only [MemoryPaging.sysMemmap, hl, h1, h2, h3, h4, h5, if_false, Bool.true_eq_false]
      exact returns_pure (-1)

theorem syscall_returns (nr : UInt) (regs : ScRegs) :
    Returns (syscall 1 nr (toCInt regs.a1)) (MemoryPaging.syscall uninit c nr regs).1 := by
  unfold syscall MemoryPaging.syscall
  split
  · exact sysMemmap_returns uninit c regs
  · exact returns_pure 0

theorem libsyscall_returns (syscallIdx : UInt) (a1 a2 a3 : Addr) :
    Returns (libsyscall syscallIdx (toCInt a1))
      (MemoryLibrary.libsyscall uninit c syscallIdx a1 a2 a3).1 :=
  returns_any 1 (syscall_returns uninit c syscallIdx ⟨a1, a2, a3⟩)

theorem syscall_refused (memop : CInt) : Returns (syscall 0 17 memop) (-1) :=
  returns_bind (returns_pure 0) (returns_pure (-1))

theorem pgGetpage_returns : Returns pgGetpage 0 :=
  returns_any 1 (returns_any 1 (returns_pure 0))

theorem pgAccess_returns (memop : CInt) : Returns (pgAccess memop) (-1) :=
  returns_bind pgGetpage_returns
    (returns_any 0 (returns_bind (syscall_refused memop) (returns_pure (-1))))

theorem alloc_returns (refused : Bool) : Returns alloc (if refused then -1 else 0) := by
  refine returns_lock ?_
  cases refused with
  | false => exact returns_any 0 (returns_unlock (returns_pure 0))
  | true =>
    refine returns_any 1 (returns_any 0 (returns_bind (syscall_refused sysmemIncOp) ?_))
    exact returns_unlock (returns_pure (-1))

/-- The access is made or refused; what it returns is dropped. -/
theorem access_returns {pgVal : Prog Mutex ℤ} {v : ℤ} (hp : Returns pgVal v) (refused : Bool) :
    Returns (access pgVal) (if refused then -1 else 0) := by
  refine returns_lock (returns_any 1 (returns_any 1 ?_))
  rw [if_neg (by decide)]
  cases refused with
  | false => exact returns_any 0 (returns_bind hp (returns_unlock (returns_pure 0)))
  | true => exact returns_any 1 (returns_unlock (returns_pure (-1)))

theorem free_returns {rgid : CInt} {r : Int × ProcMem} (h : MemoryLibrary.free c rgid = .ok r) :
    Returns (free rgid) r.1 := by
  unfold MemoryLibrary.free at h
  unfold free
  refine returns_lock ?_
  split at h
  · next hr =>
    cases h
    rw [if_pos hr]
    exact returns_unlock (returns_pure (-1))
  · next hr =>
    rw [if_neg hr]
    obtain ⟨k, _, h⟩ := ok_of_bind h
    dsimp only at h
    split at h
    · cases h
      exact returns_any 1 (returns_unlock (returns_pure (-1)))
    · obtain ⟨_, _, h⟩ := ok_of_bind h
      cases h
      exact returns_any 0 (returns_unlock (returns_pure 0))

theorem libCall_returns {p : Prog Mutex ℤ} {v : ℤ} (h : Returns p v) :
    Returns (libCall p) v := by
  refine returns_bind h ?_
  split
  · next hv =>
    rw [hv]
    exact returns_pure (-1)
  · exact returns_pure v

theorem liballoc_returns {size : Addr} {regIndex : UInt} {r : Int × ProcMem}
    (h : MemoryLibrary.liballoc uninit c size regIndex = .ok r) : Returns liballoc r.1 := by
  obtain ⟨⟨o, c'⟩, _, h⟩ := ok_of_bind h
  cases h
  exact libCall_returns (alloc_returns o.isNone)

theorem libfree_returns {regIndex : UInt} {r : Int × ProcMem}
    (h : MemoryLibrary.libfree c regIndex = .ok r) : Returns (libfree regIndex) r.1 :=
  libCall_returns (free_returns c h)

theorem libread_returns {source : UInt} {offset : Addr} {r : Int × Option UInt × ProcMem}
    (h : MemoryLibrary.libread uninit c source offset = .ok r) : Returns libread r.1 := by
  obtain ⟨q, hq, h⟩ := ok_of_bind h
  rcases read_cases hq with ⟨_, rfl⟩ | ⟨addr, _, rfl⟩
  · cases h
    exact libCall_returns (access_returns (pgAccess_returns sysmemIoRead) true)
  · cases h
    exact libCall_returns (access_returns (pgAccess_returns sysmemIoRead) false)

theorem libwrite_returns {data : Byte} {destination : UInt} {offset : Addr}
    {r : Int × ProcMem} (h : MemoryLibrary.libwrite uninit c data destination offset = .ok r) :
    Returns libwrite r.1 := by
  rcases write_cases h with ⟨_, rfl⟩ | ⟨addr, _, rfl⟩
  · exact libCall_returns (access_returns (pgAccess_returns sysmemIoWrite) true)
  · exact libCall_returns (access_returns (pgAccess_returns sysmemIoWrite) false)

/-- The process dispatched, by the address it has, or `NULL`. -/
theorem getMlqProcLoop_returns {α : Type*} (addr : α → ℤ) (haddr : ∀ a, addr a ≠ 0) (n : ℕ)
    (prio : Fin 140) (s : Sched α) :
    Returns (getMlqProcLoop n) (((scan n prio s).1.map addr).getD 0) := by
  induction n generalizing prio s with
  | zero => exact returns_unlock (returns_unlock (returns_pure 0))
  | succ n ih =>
    unfold scan getMlqProcLoop
    split
    · refine returns_any 1 ?_
      rw [if_pos (by decide)]
      split
      · next proc q hq =>
        refine returns_any (addr proc) ?_
        rw [if_pos (haddr proc)]
        exact returns_unlock (returns_unlock (returns_pure (addr proc)))
      · next q hq => exact returns_any 0 (ih _ _)
    · exact returns_any 0 (ih _ _)

theorem getProc_returns {α : Type*} (addr : α → ℤ) (haddr : ∀ a, addr a ≠ 0) (s : Sched α) :
    Returns getProc (((SchedulerMlq.getMlqProc s).1.map addr).getD 0) :=
  returns_lock (returns_lock (getMlqProcLoop_returns addr haddr maxPrio s.currentPrio s))

end Statuses

/-! ## Threads -/

/-- A call that a CPU thread or the loader makes. -/
inductive Call
  | liballoc
  | libfree (regIndex : CInt)
  | libread
  | libwrite
  | libsyscall (syscallIdx : UInt) (a1 : CInt)
  | addProc (proc : ℤ)
  | getProc
  | putProc (proc : ℤ)
  | finishProc (proc : ℤ)

/-- The function called; what it returns is the caller's. -/
def Call.body : Call → Prog Mutex Unit
  | .liballoc => do let _ ← SystemLocks.liballoc
  | .libfree regIndex => do let _ ← SystemLocks.libfree regIndex
  | .libread => do let _ ← SystemLocks.libread
  | .libwrite => do let _ ← SystemLocks.libwrite
  | .libsyscall syscallIdx a1 => do let _ ← SystemLocks.libsyscall syscallIdx a1
  | .addProc proc => SystemLocks.addProc proc
  | .getProc => do let _ ← SystemLocks.getProc
  | .putProc proc => SystemLocks.putProc proc
  | .finishProc proc => SystemLocks.finishProc proc

theorem rank_none (m : Mutex) : ∀ n ∈ (∅ : Set Mutex), rank n < rank m :=
  fun n hn => absurd hn (Set.notMem_empty n)

/-- Each call, made with no mutex held, takes them in order and returns with none. -/
theorem Call.body_restores (c : Call) : Restores rank ∅ c.body := by
  cases c with
  | liballoc =>
    exact wp_call (libCall_restores (alloc_restores (rank_none _))) fun _ => wp_pure rfl
  | libfree regIndex =>
    exact wp_call (libCall_restores (free_restores regIndex (rank_none _))) fun _ => wp_pure rfl
  | libread =>
    exact wp_call (libCall_restores (read_restores (rank_none _))) fun _ => wp_pure rfl
  | libwrite =>
    exact wp_call (libCall_restores (write_restores (rank_none _))) fun _ => wp_pure rfl
  | libsyscall syscallIdx a1 =>
    exact wp_call (libsyscall_restores syscallIdx a1 (rank_none _)) fun _ => wp_pure rfl
  | addProc proc => exact queueSection_restores proc (rank_none _)
  | getProc => exact wp_call (getMlqProc_restores (rank_none _)) fun _ => wp_pure rfl
  | putProc proc => exact queueSection_restores proc (rank_none _)
  | finishProc proc => exact queueSection_restores proc (rank_none _)

/-- The functions that lock, called or inside of a call, give back what they take. -/
structure NoLeak : Prop where
  /-- Each call of a thread. -/
  call : ∀ c : Call, Releases c.body
  /-- `find_process_by_pid`. -/
  findProcessByPid : ∀ krnl, Releases (findProcessByPid krnl)
  /-- `finish_proc`, `put_mlq_proc` and `add_mlq_proc`. -/
  queueSection : ∀ proc, Releases (queueSection proc)
  /-- `get_mlq_proc`. -/
  getMlqProc : Releases getMlqProc
  /-- `__alloc`. -/
  alloc : Releases alloc
  /-- `__free`. -/
  free : ∀ rgid, Releases (free rgid)
  /-- `__read`. -/
  read : Releases read
  /-- `__write`. -/
  write : Releases write

theorem noLeak : NoLeak where
  call c := c.body_restores.releases
  findProcessByPid krnl := (findProcessByPid_restores krnl (rank_none _)).releases
  queueSection proc := (queueSection_restores proc (rank_none _)).releases
  getMlqProc := (getMlqProc_restores (rank_none _)).releases
  alloc := (alloc_restores (rank_none _)).releases
  free rgid := (free_restores rgid (rank_none _)).releases
  read := (read_restores (rank_none _)).releases
  write := (write_restores (rank_none _)).releases

/-- What holds of the mutexes and of the threads that wait for them. -/
structure LocksSafe {κ : Type} [DecidableEq κ] (s : Machine Mutex κ) : Prop where
  /-- No thread takes a mutex it holds. -/
  no_relock : ∀ i m, s.AtLock i m → s.owner m ≠ some i
  /-- No thread gives back a mutex it does not hold. -/
  unlock_own : ∀ i m k, s.thread i = .unlock m k → s.owner m = some i
  /-- A thread between two calls holds no mutex. -/
  idle_free : ∀ i u m, s.thread i = .pure u → s.owner m ≠ some i
  /-- No threads wait for each other in a circle. -/
  no_cycle : ∀ i, ¬ Relation.TransGen s.WaitsFor i i
  /-- A thread in a call goes on, or waits in the end for one that does. -/
  progress : ∀ i, (∀ u, s.thread i ≠ .pure u) →
    ∃ j, Relation.ReflTransGen s.WaitsFor i j ∧ s.CanGo Call.body j

/-- No call leaks a mutex, and in no interleaving of any threads' calls do the
mutexes lead to a deadlock. -/
theorem locks_safe {κ : Type} [DecidableEq κ] :
    NoLeak ∧ ∀ s : Machine Mutex κ, ReachableMachine Call.body s → LocksSafe s := by
  refine ⟨noLeak, fun s hs => ?_⟩
  have ho : Ordered rank s := hs.ordered Call.body_restores
  have hbound : ∀ m : Mutex, rank m < 2 := by
    intro m
    cases m <;> decide
  exact {
    no_relock := fun i m hm => ho.not_own hm
    unlock_own := fun i m k hk => ho.owns_unlock hk
    idle_free := fun i u m hu => ho.idle_owns hu
    no_cycle := ho.no_cycle
    progress := fun i hi => ho.progress hbound hi }

/-- The third thread waits in `libread` for the first one, which waits in
`liballoc`, under `mmvm_lock`, for the second one in `add_proc`. -/
theorem locks_safe_threeThreads :
    ∃ s : Machine Mutex (Fin 3), ReachableMachine Call.body s ∧
      s.WaitsFor 2 0 ∧ s.WaitsFor 0 1 ∧ LocksSafe s := by
  have hrun : ∃ s : Machine Mutex (Fin 3), ReachableMachine Call.body s ∧
      s.WaitsFor 2 0 ∧ s.WaitsFor 0 1 :=
    ⟨_, ⟨_, [(0, .call .liballoc), (0, .go 0), (0, .go 1), (0, .go 1),
        (1, .call (.addProc 1)), (1, .go 0), (2, .call .libread)], rfl,
        .cons rfl (.cons rfl (.cons rfl (.cons rfl (.cons rfl (.cons rfl
          (.cons rfl (.nil _)))))))⟩,
      ⟨.mmvmLock, ⟨_, rfl⟩, rfl⟩, ⟨.queueLock, ⟨_, rfl⟩, rfl⟩⟩
  obtain ⟨s, hs, h20, h01⟩ := hrun
  exact ⟨s, hs, h20, h01, locks_safe.2 s hs⟩

end OsSim.SystemLocks
