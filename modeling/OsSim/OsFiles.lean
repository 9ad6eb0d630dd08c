import OsSim.ConfigFile
import OsSim.LoaderFormat
import OsSim.OsTransparency

/-!
# From the files to the registers

The machine that reads its configuration and its programs from files. If the files say
what a description says, in any layout, and the memory it declares serves its programs,
then whatever uninitialised memory held, in whatever order the threads take their steps,
the machine runs the programs of the description. One word only has to be `NULL`: the one
that `malloc` leaves in `vm_freerg_list`.
-/

namespace OsSim.OsFiles

open MemoryWords MemoryLibrary TextScanning FormatScanning Loader LoaderFormat ConfigFile
open MemoryInstruction ProcessRun CpuRoutine CpuExecution
open VirtualMemory VirtualProgram OsMachine OsTransparency

/-! ## Reading the files -/

/-- What uninitialised memory holds. -/
structure MachineGarbage where
  /-- In `read_config`. -/
  config : ConfigGarbage
  /-- In `load` of each process. -/
  load : ℕ → Garbage
  /-- In `regs` of each process. -/
  regs : ℕ → Fin 10 → Addr
  /-- In `vma0->vm_freerg_list` of each process. -/
  vmFreergList : ℕ → Addr

/-- The processes that `ld_routine` loads, in order. -/
def loadAll (g : ℕ → Garbage) (files : List Char → Option (List Char)) :
    ℕ → List LdProcess → Except LoadStop (List Loaded)
  | _, [] => .ok []
  | i, ld :: lds => do
    let proc ← load (g i) (pidOf i) ld.path (files ld.path)
    let procs ← loadAll g files (i + 1) lds
    .ok (proc :: procs)

/-- The machine with what has been read. `prio` is an `uint32_t` in a process. -/
def osConfig (g : MachineGarbage) (settings : OsSettings) (procs : List Loaded) : OsConfig where
  numProcesses := settings.numProcesses.toInt.toNat
  code a := (procs[a]?.map (·.text)).getD []
  prio a := (settings.ldProcesses[a]?.map (·.prio.setWidth 32)).getD 0
  timeSlot := settings.timeSlot.toInt
  memramsz := settings.memramsz
  memswpsz := settings.memswpsz
  regs := g.regs
  vmFreergList := g.vmFreergList
  numProcesses_lt := by
    have hlt := BitVec.toInt_lt (x := settings.numProcesses)
    omega

/-- `read_config`, and the files that it names. -/
def readMachine (g : MachineGarbage) (files : List Char → Option (List Char))
    (path : List Char) : Except LoadStop OsConfig := do
  let settings ← readConfig g.config (files path)
  let procs ← loadAll g.load files 0 settings.ldProcesses
  .ok (osConfig g settings procs)

/-! ## Descriptions -/

/-- A configuration with the programs that it names. -/
structure MachineImage where
  /-- What the configuration file says. -/
  config : Configuration
  /-- The program of each process, with the priority that its file names. -/
  programs : List (UInt × List Statement)
  /-- Every process that is listed has one. -/
  complete : programs.length = config.lines.length
  /-- Every process that is declared is listed. -/
  declared : config.numProcesses.toInt = config.lines.length

/-- A statement as an instruction whose other fields are 0. -/
def instruction (st : Statement) : Inst := assign ⟨st.opcode, 0, 0, 0, 0⟩ st.args

/-- The program of a process. -/
def MachineImage.code (m : MachineImage) (a : ℕ) : List Inst :=
  (m.programs[a]?.map fun p => p.2.map instruction).getD []

/-- The machine that is described. -/
def MachineImage.machine (m : MachineImage) (g : MachineGarbage) : OsConfig where
  numProcesses := m.config.lines.length
  code := m.code
  prio a := (m.config.lines[a]?.map (·.prio.setWidth 32)).getD 0
  timeSlot := m.config.timeSlot.toInt
  memramsz := m.config.memramsz
  memswpsz := m.config.memswpsz
  regs := g.regs
  vmFreergList := g.vmFreergList
  numProcesses_lt := by
    have hlt := BitVec.toInt_lt (x := m.config.numProcesses)
    rw [m.declared] at hlt
    omega

/-- Every path fits its buffer in `read_config`. -/
def MachineImage.FitsPaths (m : MachineImage) : Prop := ∀ l ∈ m.config.lines, FitsPath l.name

/-- The text of a process, in any layout, with this priority and these instructions. -/
def Describes (text : List Char) (program : UInt × List Statement) : Prop :=
  ∃ size body, Header text program.1 size body ∧ Listed program.2 body ∧
    program.2.length = size.toNat

/-- The files say what the description says, each in any layout. -/
structure Stores (files : List Char → Option (List Char)) (path : List Char) (m : MachineImage) :
    Prop where
  /-- The configuration. -/
  config : ∃ text rest, files path = some text ∧ Lists m.config.rows.flatten text rest
  /-- The programs, where the configuration names them. -/
  programs : ∀ x ∈ m.config.lines.zip m.programs,
    ∃ text, files x.1.ldProcess.path = some text ∧ Describes text x.2

/-! ## Programs that differ in unused fields -/

/-- The instruction made for a statement has that statement. -/
theorem statement_instruction (st : Statement) : statement (instruction st) = st :=
  statement_assign ⟨st.opcode, 0, 0, 0, 0⟩ st

/-- Only a `READ` delivers a word. -/
theorem exec_word {v v' : VirtualMem} {ins : Inst} {status : Int} {word : Option UInt}
    (h : v.exec ins = .ok (status, word, v')) (hop : ins.opcode ≠ .read) : word = none := by
  unfold VirtualMem.exec at h
  split at h
  · cases h
    rfl
  · obtain ⟨_, _, he⟩ := RunSteps.ok_of_map h
    cases he
    rfl
  · obtain ⟨_, _, he⟩ := RunSteps.ok_of_map h
    cases he
    rfl
  · next hread => exact absurd hread hop
  · obtain ⟨r, _, he⟩ := RunSteps.ok_of_map h
    cases r <;> cases he <;> rfl
  · cases h
    rfl

/-- Instructions with the same statement do the same to the memory. -/
theorem memExec_congr {ins ins' : Inst} (h : statement ins = statement ins') (v : VirtualMem) :
    v.exec ins = v.exec ins' := by
  obtain ⟨op, a0, a1, a2, a3⟩ := ins
  obtain ⟨op', b0, b1, b2, b3⟩ := ins'
  simp only [statement, Statement.mk.injEq] at h
  obtain ⟨rfl, h⟩ := h
  cases op <;> simp_all [operandCount, VirtualMem.exec]

/-- Instructions with the same statement do the same to a process. -/
theorem exec_congr {ins ins' : Inst} (h : statement ins = statement ins') (p : VirtualProc) :
    p.exec ins = p.exec ins' := by
  have hop : ins.opcode = ins'.opcode := congrArg Statement.opcode h
  unfold VirtualProc.exec
  rw [memExec_congr h]
  cases hexec : p.mem.exec ins' with
  | error e => rfl
  | ok r =>
    dsimp only [bind, Except.bind]
    by_cases hread : ins'.opcode = .read
    · have hargs := congrArg Statement.args h
      simp only [statement, hop, hread, operandCount, List.take_succ_cons, List.cons.injEq] at hargs
      rw [hargs.2.2.1]
    · obtain ⟨status, word, v⟩ := r
      obtain rfl := exec_word hexec hread
      rfl

/-- Programs with the same statements mean the same. -/
theorem meaning_congr {code code' : List Inst} (h : code.map statement = code'.map statement)
    (regs : Fin 10 → Addr) : meaning regs code = meaning regs code' := by
  have hfold : ∀ p : VirtualProc,
      code.foldlM VirtualProc.exec p = code'.foldlM VirtualProc.exec p := by
    induction code generalizing code' with
    | nil =>
      obtain rfl := List.map_eq_nil_iff.mp h.symm
      exact fun p => rfl
    | cons ins code ih =>
      cases code' with
      | nil => cases h
      | cons ins' code' =>
        obtain ⟨hins, hcode⟩ := List.cons.inj h
        intro p
        rw [List.foldlM_cons, List.foldlM_cons, exec_congr hins]
        exact congrArg _ (funext (ih hcode))
  exact hfold _

/-- Whether an instruction is well formed, whether it stays inside the lock and how many
pages it needs depends on its statement only. -/
theorem wellFormed_congr {ins ins' : Inst} (h : statement ins = statement ins') :
    (WellFormed ins ↔ WellFormed ins') ∧ (Locked ins ↔ Locked ins') ∧
      pagesOf ins = pagesOf ins' := by
  obtain ⟨op, a0, a1, a2, a3⟩ := ins
  obtain ⟨op', b0, b1, b2, b3⟩ := ins'
  simp only [statement, Statement.mk.injEq] at h
  obtain ⟨rfl, h⟩ := h
  cases op <;> simp_all [operandCount, WellFormed, Locked, pagesOf]

/-- A function of instructions that depends on their statements only maps programs with the
same statements to the same list. -/
theorem map_congr_of_statement {β : Type*} {f : Inst → β}
    (hf : ∀ ins ins', statement ins = statement ins' → f ins = f ins') {code code' : List Inst}
    (h : code.map statement = code'.map statement) : code.map f = code'.map f := by
  induction code generalizing code' with
  | nil =>
    obtain rfl := List.map_eq_nil_iff.mp h.symm
    rfl
  | cons ins code ih =>
    cases code' with
    | nil => cases h
    | cons ins' code' =>
      obtain ⟨hins, hcode⟩ := List.cons.inj h
      rw [List.map_cons, List.map_cons, hf _ _ hins, ih hcode]

/-- Two machines that differ in unused fields of instructions only. -/
structure SamePrograms (cfg cfg' : OsConfig) : Prop where
  /-- As many processes. -/
  numProcesses : cfg'.numProcesses = cfg.numProcesses
  /-- The same statements. -/
  code : ∀ a, (cfg'.code a).map statement = (cfg.code a).map statement
  /-- The same priorities. -/
  prio : cfg'.prio = cfg.prio
  /-- The same time slice. -/
  timeSlot : cfg'.timeSlot = cfg.timeSlot
  /-- The same RAM. -/
  memramsz : cfg'.memramsz = cfg.memramsz
  /-- The same swap devices. -/
  memswpsz : cfg'.memswpsz = cfg.memswpsz
  /-- The same initial registers. -/
  regs : cfg'.regs = cfg.regs
  /-- The same ends of the lists of free regions. -/
  vmFreergList : cfg'.vmFreergList = cfg.vmFreergList

/-- The threads see the same machine. -/
theorem SamePrograms.toConfig {cfg cfg' : OsConfig} (h : SamePrograms cfg cfg') :
    cfg'.toConfig = cfg.toConfig := by
  obtain ⟨n, code, prio, slot, ram, swp, regs, ends, hn⟩ := cfg
  obtain ⟨n', code', prio', slot', ram', swp', regs', ends', hn'⟩ := cfg'
  obtain ⟨rfl, hcode, rfl, rfl, -, -, -, -⟩ := h
  have hsize : (fun a => (code' a).length) = fun a => (code a).length := funext fun a => by
    have hlen := congrArg List.length (hcode a)
    rw [List.length_map, List.length_map] at hlen
    exact hlen
  unfold OsConfig.toConfig
  dsimp only
  rw [hsize]

/-- The memory that serves one machine serves the other, if they differ in unused fields
only. -/
theorem SamePrograms.admissible {cfg cfg' : OsConfig} (h : SamePrograms cfg cfg')
    (ha : Admissible cfg) : Admissible cfg' := by
  have hpages : ∀ a, heapPages (cfg'.code a) = heapPages (cfg.code a) := fun a =>
    congrArg List.sum (map_congr_of_statement (fun _ _ hs => (wellFormed_congr hs).2.2) (h.code a))
  have hall : pagesLeft cfg' (fun _ => 0) = pagesLeft cfg fun _ => 0 := by
    unfold pagesLeft
    rw [h.numProcesses]
    exact Finset.sum_congr rfl fun a _ => hpages a
  have hlt : ∀ {a}, a < cfg'.numProcesses → a < cfg.numProcesses := fun ha' => by
    rwa [← h.numProcesses]
  have hcode : ∀ a, ∀ ins ∈ cfg'.code a, ∃ ins' ∈ cfg.code a, statement ins' = statement ins := by
    intro a ins hins
    have hmem : statement ins ∈ (cfg.code a).map statement := by
      rw [← h.code a]
      exact List.mem_map_of_mem hins
    exact List.mem_map.mp hmem
  constructor
  case few =>
    rw [h.numProcesses]
    exact ha.few
  case wellFormed =>
    intro a ha' ins hins
    obtain ⟨ins', hins', hst⟩ := hcode a ins hins
    exact (wellFormed_congr hst).1.mp (ha.wellFormed a (hlt ha') ins' hins')
  case locked =>
    intro a ha' ins hins
    obtain ⟨ins', hins', hst⟩ := hcode a ins hins
    exact (wellFormed_congr hst).2.1.mp (ha.locked a (hlt ha') ins' hins')
  case heap =>
    intro a ha'
    rw [hpages]
    exact ha.heap a (hlt ha')
  case frames =>
    rw [hall]
    exact ha.frames
  case ram =>
    rw [hall, h.memramsz]
    exact ha.ram
  case swap =>
    rw [h.memswpsz]
    exact ha.swap
  case null =>
    intro a ha'
    rw [h.vmFreergList]
    exact ha.null a (hlt ha')

/-! ## Stored machines -/

/-- The programs that are stored are loaded. -/
theorem loadAll_stored {files : List Char → Option (List Char)} {lines : List ProcessLine}
    {programs : List (UInt × List Statement)} (hlen : programs.length = lines.length)
    (hfiles : ∀ x ∈ lines.zip programs,
      ∃ text, files x.1.ldProcess.path = some text ∧ Describes text x.2)
    (g : ℕ → Garbage) (i : ℕ) :
    ∃ procs, loadAll g files i (lines.map ProcessLine.ldProcess) = .ok procs ∧
      procs.map (fun proc => proc.text.map statement) = programs.map Prod.snd := by
  induction lines generalizing programs i with
  | nil =>
    obtain rfl := List.eq_nil_of_length_eq_zero hlen
    exact ⟨[], rfl, rfl⟩
  | cons l lines ih =>
    cases programs with
    | nil => cases hlen
    | cons prog programs =>
      obtain ⟨text, hfile, size, body, hh, hl, hsize⟩ := hfiles (l, prog) List.mem_cons_self
      obtain ⟨proc, hload, -, -, hsts⟩ :=
        load_listed hh hl hsize (g i) (pidOf i) l.ldProcess.path
      obtain ⟨procs, hall, hmap⟩ := ih (Nat.succ.inj hlen)
        (fun x hx => hfiles x (List.mem_cons_of_mem _ hx)) (i + 1)
      refine ⟨proc :: procs, ?_, ?_⟩
      · rw [List.map_cons, loadAll, hfile, hload]
        dsimp only [bind, Except.bind]
        rw [hall]
      · rw [List.map_cons, List.map_cons, hsts, hmap]

/-- Two lists that agree under two maps agree under them at every place. -/
theorem getElem?_of_map_eq {α β γ : Type*} {f : α → γ} {g : β → γ} {l : List α} {l' : List β}
    (h : l.map f = l'.map g) (a : ℕ) : l[a]?.map f = l'[a]?.map g := by
  rw [← List.getElem?_map, h, List.getElem?_map]

/-- The machine that is read is the one described. -/
theorem readMachine_stored {m : MachineImage} (hfit : m.FitsPaths)
    {files : List Char → Option (List Char)} {path : List Char} (hs : Stores files path m)
    (g : MachineGarbage) :
    ∃ cfg, readMachine g files path = .ok cfg ∧ SamePrograms (m.machine g) cfg := by
  have hn : m.config.numProcesses.toInt.toNat = m.config.lines.length := by
    rw [m.declared]
    rfl
  obtain ⟨text, rest, htext, hlists⟩ := hs.config
  have hconfig := (readConfig_lists hlists hn g.config).1 hfit
  obtain ⟨procs, hload, hmap⟩ := loadAll_stored m.complete hs.programs g.load 0
  refine ⟨osConfig g m.config.settings procs, ?_, hn, fun a => ?_, ?_, rfl, rfl, rfl, rfl, rfl⟩
  · unfold readMachine
    rw [htext, hconfig]
    dsimp only [bind, Except.bind, Configuration.settings]
    rw [hload]
  · have hat := getElem?_of_map_eq hmap a
    dsimp only [osConfig, MachineImage.machine, MachineImage.code]
    cases hproc : procs[a]? with
    | none =>
      rw [hproc] at hat
      rw [Option.map_eq_none_iff.mp hat.symm]
      rfl
    | some proc =>
      rw [hproc] at hat
      obtain ⟨prog, hprog, hsts⟩ := Option.map_eq_some_iff.mp hat.symm
      rw [hprog]
      have hsts' : proc.text.map statement = prog.2 := hsts.symm
      dsimp only [Option.map_some, Option.getD_some]
      rw [hsts', List.map_map]
      exact ((List.map_congr_left fun st _ => statement_instruction st).trans (List.map_id _)).symm
  · funext a
    dsimp only [osConfig, MachineImage.machine, Configuration.settings]
    rw [List.getElem?_map, Option.map_map]
    rfl

variable {κ : Type} [DecidableEq κ]

/-- A machine whose files say what a description says, in any layout, and whose memory
serves the programs of it: whatever uninitialised memory held, but for a `NULL` in
`vm_freerg_list`, its files are read, and in whatever order its threads take their steps it
never stops for an error; and a process that has finished has the registers that its
program, as described, leaves when it is executed alone. -/
theorem written_machine_runs {m : MachineImage} (hfit : m.FitsPaths)
    {files : List Char → Option (List Char)} {path : List Char} (hs : Stores files path m)
    (g : MachineGarbage) (ha : Admissible (m.machine g)) (uninit : Addr → Byte)
    (actors : List (Actor κ)) :
    ∃ cfg s, readMachine g files path = .ok cfg ∧ osRun uninit cfg actors = .ok s ∧
      s.threads = actors.foldl (step (m.machine g).toConfig) boot ∧
      ∀ a < m.config.lines.length, 0 < s.threads.finishes a →
        ∃ p, meaning (g.regs a) (m.code a) = .ok p ∧ s.regs a = p.regs := by
  obtain ⟨cfg, hread, hsame⟩ := readMachine_stored hfit hs g
  obtain ⟨s, p, hrun, hinv, hthreads⟩ := osInv_run uninit (hsame.admissible ha) actors
  rw [hsame.toConfig] at hthreads
  refine ⟨cfg, s, hread, hrun, hthreads, fun a _ hfin => ⟨p a, ?_, hinv.regs a⟩⟩
  have hdone := hinv.complete hfin
  rw [hsame.regs, meaning_congr (hsame.code a)] at hdone
  exact hdone

/-! ## Two processes in three files -/

/-- The process allocates a region, writes a byte of its own to its start and reads it
back. -/
def ownByte (byte : Addr) : List Statement :=
  [⟨.alloc, [300, 0], rfl⟩, ⟨.write, [byte, 0, 0], rfl⟩, ⟨.read, [0, 0, 0], rfl⟩]

/-- Two processes that read their own bytes back share four frames of RAM. -/
def twoFiles : MachineImage where
  config := ⟨1, 2, 2, 16384, [0, 0, 0, 0], [⟨0, "a".toList, 3⟩, ⟨0, "b".toList, 3⟩], rfl⟩
  programs := [(1, ownByte 7), (1, ownByte 8)]
  complete := rfl
  declared := rfl

/-- The configuration and the two programs, written to files. -/
def threeFiles (path : List Char) : Option (List Char) :=
  if path = "input/two".toList then some (writeConfig twoFiles.config)
  else if path = procDir ++ "a".toList then some (writeText 1 (ownByte 7))
  else if path = procDir ++ "b".toList then some (writeText 1 (ownByte 8))
  else none

/-- A program in the file format is a text that describes it. -/
theorem describes_writeText (prio : UInt) (sts : List Statement) (hlen : sts.length < 2 ^ 32) :
    Describes (writeText prio sts) (prio, sts) := by
  refine ⟨_, _, header_writeText prio sts, listed_writeStatements sts (blank_singleton rfl), ?_⟩
  rw [BitVec.toNat_ofNat]
  exact (Nat.mod_eq_of_lt hlen).symm

/-- The three files say what the description says. -/
theorem stores_threeFiles : Stores threeFiles "input/two".toList twoFiles where
  config := ⟨_, _, if_pos rfl, writeConfig_lists (by decide)⟩
  programs x hx := by
    obtain rfl | rfl : x = _ ∨ x = _ := by
      simpa only [twoFiles, List.zip_cons_cons, List.zip_nil_left, List.mem_cons, List.not_mem_nil,
        or_false] using hx
    · exact ⟨_, rfl, describes_writeText 1 (ownByte 7) (by decide)⟩
    · exact ⟨_, rfl, describes_writeText 1 (ownByte 8) (by decide)⟩

/-- Memory that held something, but for the ends of the lists of free regions. -/
def usedMemory : MachineGarbage :=
  ⟨sameStart 5, fun _ => used, fun a i => BitVec.ofNat 64 (a + i), fun _ => 0⟩

/-- Four frames are enough for the machine of the three files. -/
theorem admissible_twoFiles : Admissible (twoFiles.machine usedMemory) := by
  have hall : ∀ a < 2, ∀ ins ∈ twoFiles.code a, ins = ⟨.alloc, 300, 0, 0, 0⟩ ∨
      (∃ byte, ins = ⟨.write, byte, 0, 0, 0⟩) ∨ ins = ⟨.read, 0, 0, 0, 0⟩ := by
    intro a ha ins hins
    obtain ⟨byte, hcode⟩ : ∃ byte, twoFiles.code a =
        [⟨.alloc, 300, 0, 0, 0⟩, ⟨.write, byte, 0, 0, 0⟩, ⟨.read, 0, 0, 0, 0⟩] := by
      obtain rfl | rfl : a = 0 ∨ a = 1 := by omega
      · exact ⟨7, rfl⟩
      · exact ⟨8, rfl⟩
    rw [hcode] at hins
    simp only [List.mem_cons, List.not_mem_nil, or_false] at hins
    exact hins.imp id (Or.imp_left fun h => ⟨byte, h⟩)
  constructor
  case few => decide
  case wellFormed =>
    intro a ha ins hins
    obtain rfl | ⟨byte, rfl⟩ | rfl := hall a ha ins hins
    · exact ⟨by decide, by decide⟩
    · exact (by decide : toCInt 0 ≠ 30)
    · exact ⟨by decide, by decide⟩
  case locked =>
    intro a ha ins hins
    obtain rfl | ⟨byte, rfl⟩ | rfl := hall a ha ins hins
    all_goals exact locked_of_ne (by rintro ⟨⟩)
  case heap => decide
  case frames => decide
  case ram => decide
  case swap =>
    intro size hsize
    obtain rfl : size = 0 := by simpa [MachineImage.machine, twoFiles] using hsize
    decide
  case null => exact fun _ _ => rfl

/-- From the three files both processes run to their ends. -/
theorem written_machine_runs_twoFiles : ∃ cfg s,
    readMachine usedMemory threeFiles "input/two".toList = .ok cfg ∧
      osRun (fun _ => 0) cfg takingTurns = .ok s ∧
      ∀ a < 2, ∃ p, meaning (usedMemory.regs a) (twoFiles.code a) = .ok p ∧
        s.regs a = p.regs := by
  have hfit : twoFiles.FitsPaths := by
    unfold MachineImage.FitsPaths
    decide
  obtain ⟨cfg, s, hread, hrun, hthreads, h⟩ := written_machine_runs hfit
    stores_threeFiles usedMemory admissible_twoFiles (fun _ => 0) takingTurns
  have hfin : ∀ a < 2, 0 < (takingTurns.foldl (step (twoFiles.machine usedMemory).toConfig)
      boot).finishes a := by decide +kernel
  refine ⟨cfg, s, hread, hrun, fun a ha => h a ha ?_⟩
  rw [hthreads]
  exact hfin a ha

end OsSim.OsFiles
