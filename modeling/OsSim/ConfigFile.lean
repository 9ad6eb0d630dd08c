import OsSim.FormatScanning
import OsSim.Loader

/-!
# The configuration file

`read_config` scans the sizes of the machine and, for each declared process, its start
time, its file and its priority. No result of a scan is looked at, so that what a scan
leaves unread keeps what its memory held. A path is put together in a buffer of 100
bytes.
-/

namespace OsSim.ConfigFile

open MemoryWords TextScanning FormatScanning Loader

/-- What uninitialised memory holds. -/
structure ConfigGarbage where
  /-- `ld_processes.start_time`. -/
  startTime : ℕ → BitVec 64
  /-- `ld_processes.prio`. -/
  prio : ℕ → BitVec 64
  /-- `proc` in each turn of the loop, as `strcat` sees it. -/
  proc : ℕ → List Char

/-- One entry of `ld_processes`. -/
structure LdProcess where
  /-- `start_time[i]`. -/
  startTime : BitVec 64
  /-- `path[i]`. -/
  path : List Char
  /-- `prio[i]`. -/
  prio : BitVec 64

/-- What `read_config` sets. -/
structure OsSettings where
  /-- `time_slot`. -/
  timeSlot : CInt
  /-- `num_cpus`. -/
  numCpus : CInt
  /-- `num_processes`. -/
  numProcesses : CInt
  /-- `memramsz`. -/
  memramsz : CInt
  /-- `memswpsz`. -/
  memswpsz : List CInt
  /-- `ld_processes`. -/
  ldProcesses : List LdProcess

/-- `PAGING_MAX_MMSWP`. -/
def pagingMaxMmswp : ℕ := 4

/-- The size of the buffers for a name and for a path. -/
def pathSize : ℕ := 100

/-- The directory of the processes. -/
def procDir : List Char := "input/proc/".toList

/-- One `fscanf`. -/
def scan (fmt : List Item) (file : List Char) : Except LoadStop (List Field × List Char) :=
  match scanItems fmt file with
  | none => .error .undefined
  | some r => .ok r

/-- The format of the first line. -/
def headFormat : List Item := [.signed, .space, .signed, .space, .signed, .space]

/-- The format of a process. -/
def processFormat : List Item := [.unsigned, .space, .word, .space, .unsigned, .space]

/-- The word fits `proc`, and the path with it its buffer, each with the null character. -/
def FitsPath (word : List Char) : Prop :=
  word.length < pathSize ∧ (procDir ++ cString word).length < pathSize

instance (word : List Char) : Decidable (FitsPath word) := inferInstanceAs (Decidable (_ ∧ _))

/-- The loop over the swap sizes, with so many turns left. They are static and start as 0. -/
def readSwaps : ℕ → List Char → Except LoadStop (List CInt × List Char)
  | 0, file => .ok ([], file)
  | n + 1, file => do
    let r ← scan [.signed] file
    let rest ← readSwaps n r.2
    .ok (signedAt r.1 0 0 :: rest.1, rest.2)

/-- One turn of the loop over the processes. -/
def readProcess (g : ConfigGarbage) (i : ℕ) (file : List Char) :
    Except LoadStop (LdProcess × List Char) := do
  let r ← scan processFormat file
  let word := wordAt r.1 1 (g.proc i)
  if FitsPath word then
    .ok (⟨unsignedAt r.1 0 (g.startTime i), procDir ++ cString word,
      unsignedAt r.1 2 (g.prio i)⟩, r.2)
  else .error .undefined

/-- The loop over the processes, with so many turns left. -/
def readProcesses (g : ConfigGarbage) : ℕ → ℕ → List Char → Except LoadStop (List LdProcess)
  | 0, _, _ => .ok []
  | n + 1, i, file => do
    let r ← readProcess g i file
    let rest ← readProcesses g n (i + 1) r.2
    .ok (r.1 :: rest)

/-- `read_config`, for the file under the path, if there is one. -/
def readConfig (g : ConfigGarbage) (file : Option (List Char)) : Except LoadStop OsSettings :=
  match file with
  | none => .error .exit
  | some file => do
    let head ← scan headFormat file
    let ram ← scan [.signed, .space] head.2
    let swap ← readSwaps pagingMaxMmswp ram.2
    let line ← scan [.space] swap.2
    let numProcesses := signedAt head.1 2 0
    let ldProcesses ← readProcesses g numProcesses.toInt.toNat 0 line.2
    .ok { timeSlot := signedAt head.1 0 0
          numCpus := signedAt head.1 1 0
          numProcesses := numProcesses
          memramsz := signedAt ram.1 0 0
          memswpsz := swap.1
          ldProcesses := ldProcesses }

/-! ## Configurations -/

/-- A process of a configuration. -/
structure ProcessLine where
  /-- When it is to be loaded. -/
  startTime : BitVec 64
  /-- The name of its file. -/
  name : List Char
  /-- The priority of the process. -/
  prio : BitVec 64

/-- What a configuration says. -/
structure Configuration where
  /-- `time_slot`. -/
  timeSlot : CInt
  /-- `num_cpus`. -/
  numCpus : CInt
  /-- `num_processes`. -/
  numProcesses : CInt
  /-- `memramsz`. -/
  memramsz : CInt
  /-- `memswpsz`. -/
  memswpsz : List CInt
  /-- The processes it lists. -/
  lines : List ProcessLine
  /-- All swap sizes are there. -/
  swaps : memswpsz.length = pagingMaxMmswp

/-- The fields of a process. -/
def ProcessLine.fields (l : ProcessLine) : List Field :=
  [.unsigned l.startTime, .word l.name, .unsigned l.prio]

/-- The rows of a configuration. -/
def Configuration.rows (c : Configuration) : List (List Field) :=
  [.signed c.timeSlot, .signed c.numCpus, .signed c.numProcesses] ::
    (.signed c.memramsz :: c.memswpsz.map .signed) :: c.lines.map ProcessLine.fields

/-- What `read_config` makes of a process. -/
def ProcessLine.ldProcess (l : ProcessLine) : LdProcess :=
  ⟨l.startTime, procDir ++ cString l.name, l.prio⟩

/-- What `read_config` makes of a configuration. -/
def Configuration.settings (c : Configuration) : OsSettings :=
  ⟨c.timeSlot, c.numCpus, c.numProcesses, c.memramsz, c.memswpsz, c.lines.map ProcessLine.ldProcess⟩

/-- A configuration in the file format. -/
def writeConfig (c : Configuration) : List Char := writeRows c.rows

/-! ## Reading -/

/-- A scan reads the fields that its format is for. -/
theorem scan_lists (fmt : List Item) {fs : List Field} {s rest : List Char}
    (h : Lists fs s rest) (hfmt : fmt.filter (· ≠ .space) = fs.map Field.item) :
    ∃ t, scan fmt s = .ok (fs, t) ∧ skipSpace t = skipSpace rest := by
  obtain ⟨t, ht, hskip⟩ := scanItems_fields h hfmt
  exact ⟨t, by rw [scan, ht], hskip⟩

/-- The swap sizes are read. -/
theorem readSwaps_lists {vs : List CInt} {s rest : List Char}
    (h : Lists (vs.map .signed) s rest) :
    ∃ t, readSwaps vs.length s = .ok (vs, t) ∧ skipSpace t = skipSpace rest := by
  induction vs generalizing s with
  | nil =>
    obtain ⟨ops, hops, -, hs⟩ := h
    cases hops
    exact ⟨s, rfl, hs⟩
  | cons v vs ih =>
    have hcons : Lists ([.signed v] ++ vs.map .signed) s rest := h
    obtain ⟨mid, hfirst, hothers⟩ := hcons.split
    obtain ⟨t, ht, hskip⟩ := scan_lists [.signed] hfirst rfl
    obtain ⟨t', ht', hskip'⟩ := ih (hothers.congr hskip)
    refine ⟨t', ?_, hskip'⟩
    rw [List.length_cons, readSwaps, ht]
    dsimp only [bind, Except.bind]
    rw [ht']
    rfl

/-- A process is read if its path fits. -/
theorem readProcess_lists {l : ProcessLine} {s rest : List Char} (h : Lists l.fields s rest)
    (g : ConfigGarbage) (i : ℕ) :
    (FitsPath l.name → ∃ t, readProcess g i s = .ok (l.ldProcess, t) ∧
        skipSpace t = skipSpace rest) ∧
      (¬FitsPath l.name → readProcess g i s = .error .undefined) := by
  obtain ⟨t, ht, hskip⟩ := scan_lists processFormat h rfl
  unfold readProcess
  rw [ht]
  exact ⟨fun hfit => ⟨t, if_pos hfit, hskip⟩, fun hfit => if_neg hfit⟩

/-- The processes that a text lists are read, if their paths fit, and else the behaviour is
undefined. -/
theorem readProcesses_lists {ls : List ProcessLine} {s rest : List Char}
    (h : Lists (ls.flatMap ProcessLine.fields) s rest) (g : ConfigGarbage) (n i : ℕ) :
    ((∀ l ∈ ls, FitsPath l.name) → ∃ t, skipSpace t = skipSpace rest ∧
        readProcesses g (ls.length + n) i s =
          (readProcesses g n (i + ls.length) t).map (ls.map ProcessLine.ldProcess ++ ·)) ∧
      (¬(∀ l ∈ ls, FitsPath l.name) →
        readProcesses g (ls.length + n) i s = .error .undefined) := by
  induction ls generalizing s i with
  | nil =>
    obtain ⟨ops, hops, -, hs⟩ := h
    cases hops
    refine ⟨fun _ => ⟨s, hs, ?_⟩, fun hno => absurd (fun l hl => nomatch hl) hno⟩
    rw [List.length_nil, Nat.zero_add, Nat.add_zero]
    cases readProcesses g n i s <;> rfl
  | cons l ls ih =>
    rw [List.flatMap_cons] at h
    obtain ⟨mid, hfirst, hothers⟩ := h.split
    obtain ⟨hok, herr⟩ := readProcess_lists hfirst g i
    rw [List.length_cons, Nat.succ_add, readProcesses]
    by_cases hfit : FitsPath l.name
    · obtain ⟨t, ht, hskip⟩ := hok hfit
      obtain ⟨hall, hnot⟩ := ih (hothers.congr hskip) (i + 1)
      rw [ht]
      dsimp only [bind, Except.bind]
      refine ⟨fun hfits => ?_, fun hno => ?_⟩
      · obtain ⟨t', hskip', ht'⟩ := hall fun m hm => hfits m (List.mem_cons_of_mem l hm)
        refine ⟨t', hskip', ?_⟩
        rw [ht', Nat.add_right_comm, Nat.add_assoc i]
        cases readProcesses g n (i + (ls.length + 1)) t' <;> rfl
      · rw [hnot fun hfits => hno fun m hm => ?_]
        rcases List.mem_cons.mp hm with rfl | hm
        · exact hfit
        · exact hfits m hm
    · rw [herr hfit]
      exact ⟨fun hfits => absurd (hfits l List.mem_cons_self) hfit, fun _ => rfl⟩

/-- The sizes are read, and the processes stand where the loop over them starts. -/
theorem readConfig_sizes {c : Configuration} {text rest : List Char}
    (h : Lists c.rows.flatten text rest) (g : ConfigGarbage) :
    ∃ body, Lists (c.lines.flatMap ProcessLine.fields) body rest ∧
      readConfig g (some text) = (readProcesses g c.numProcesses.toInt.toNat 0 body).map
        fun ps => {c.settings with ldProcesses := ps} := by
  have hrows : c.rows.flatten = [.signed c.timeSlot, .signed c.numCpus, .signed c.numProcesses] ++
      ([.signed c.memramsz] ++ (c.memswpsz.map .signed ++ c.lines.flatMap ProcessLine.fields)) := by
    rw [Configuration.rows, List.flatten_cons, List.flatten_cons, List.flatMap_def]
    rfl
  rw [hrows] at h
  obtain ⟨s₁, hhead, h⟩ := h.split
  obtain ⟨s₂, hram, h⟩ := h.split
  obtain ⟨s₃, hswap, hlines⟩ := h.split
  obtain ⟨t₁, ht₁, hskip₁⟩ := scan_lists headFormat hhead rfl
  obtain ⟨t₂, ht₂, hskip₂⟩ := scan_lists [.signed, .space] (hram.congr hskip₁) rfl
  obtain ⟨t₃, ht₃, hskip₃⟩ := readSwaps_lists (hswap.congr hskip₂)
  rw [c.swaps] at ht₃
  refine ⟨skipSpace t₃, hlines.congr ((skipSpace_skipSpace t₃).trans hskip₃), ?_⟩
  have hspace : scan [.space] t₃ = .ok ([], skipSpace t₃) := rfl
  unfold readConfig
  dsimp only
  rw [ht₁]
  dsimp only [bind, Except.bind]
  rw [ht₂]
  dsimp only
  rw [ht₃]
  dsimp only
  rw [hspace]
  dsimp only [signedAt, List.getElem?_cons_zero, List.getElem?_cons_succ]
  cases readProcesses g c.numProcesses.toInt.toNat 0 (skipSpace t₃) <;> rfl

/-- A text that lists the processes it declares is read if every path fits its buffer, and
else the behaviour is undefined. -/
theorem readConfig_lists {c : Configuration} {text rest : List Char}
    (h : Lists c.rows.flatten text rest) (hn : c.numProcesses.toInt.toNat = c.lines.length)
    (g : ConfigGarbage) :
    ((∀ l ∈ c.lines, FitsPath l.name) → readConfig g (some text) = .ok c.settings) ∧
      (¬(∀ l ∈ c.lines, FitsPath l.name) → readConfig g (some text) = .error .undefined) := by
  obtain ⟨body, hbody, hread⟩ := readConfig_sizes h g
  obtain ⟨hok, herr⟩ := readProcesses_lists hbody g 0 0
  rw [hread, hn, ← Nat.add_zero c.lines.length]
  refine ⟨fun hfit => ?_, fun hno => ?_⟩
  · obtain ⟨t, _, ht⟩ := hok hfit
    rw [ht]
    change Except.ok {c.settings with ldProcesses := c.lines.map ProcessLine.ldProcess ++ []} = _
    rw [List.append_nil]
    rfl
  · rw [herr hno]
    rfl

/-! ## Declared and listed processes -/

/-- The first lines of a configuration. -/
def Configuration.firstLines (c : Configuration) (n : ℕ) : Configuration :=
  {c with lines := c.lines.take n}

/-- A text that lists the processes of a configuration also lists any first few of them. -/
theorem lists_firstLines {c : Configuration} {text rest : List Char}
    (h : Lists c.rows.flatten text rest) (n : ℕ) :
    ∃ rest', Lists (c.firstLines n).rows.flatten text rest' := by
  have hrows : c.rows.flatten =
      (c.firstLines n).rows.flatten ++ (c.lines.drop n).flatMap ProcessLine.fields := by
    have hlines : c.lines.flatMap ProcessLine.fields = (c.lines.take n).flatMap ProcessLine.fields ++
        (c.lines.drop n).flatMap ProcessLine.fields := by
      rw [← List.flatMap_append, List.take_append_drop]
    rw [List.flatMap_def, List.flatMap_def] at hlines
    rw [Configuration.rows, Configuration.rows, List.flatten_cons, List.flatten_cons, hlines,
      List.flatten_cons, List.flatten_cons, List.append_assoc, List.append_assoc]
    rfl
  rw [hrows] at h
  obtain ⟨rest', hfirst, _⟩ := h.split
  exact ⟨rest', hfirst⟩

/-- Behind the end of the text the entries keep what their memory held. -/
theorem readProcesses_blank {g : ConfigGarbage} (hproc : ∀ i, g.proc i = []) (n i : ℕ)
    {s : List Char} (hs : skipSpace s = []) : ∃ ps, readProcesses g n i s = .ok ps ∧
      ps.map LdProcess.startTime = (List.range' i n).map g.startTime := by
  induction n generalizing i s with
  | zero => exact ⟨[], rfl, rfl⟩
  | succ n ih =>
    obtain ⟨t, ht, hskip⟩ := scanItems_blank processFormat hs (by decide) (by decide)
    obtain ⟨ps, hps, hstart⟩ := ih (i + 1) hskip
    have hone : readProcess g i s = .ok (⟨g.startTime i, procDir, g.prio i⟩, t) := by
      unfold readProcess scan
      rw [ht]
      dsimp only [bind, Except.bind, wordAt, unsignedAt, List.getElem?_nil]
      rw [hproc]
      exact if_pos (by decide)
    refine ⟨⟨g.startTime i, procDir, g.prio i⟩ :: ps, ?_, ?_⟩
    · rw [readProcesses, hone]
      dsimp only [bind, Except.bind]
      rw [hps]
    · rw [List.map_cons, hstart]
      rfl

/-- Uninitialised memory in which every start time is `startTime`. -/
def sameStart (startTime : BitVec 64) : ConfigGarbage := ⟨fun _ => startTime, fun _ => 0, fun _ => []⟩

/-- A text that declares more processes than it lists takes their start times from
uninitialised memory. -/
theorem readConfig_short {c : Configuration} {text rest : List Char}
    (h : Lists c.rows.flatten text rest) (hrest : Blank rest)
    (hfit : ∀ l ∈ c.lines, FitsPath l.name) {k : ℕ}
    (hn : c.numProcesses.toInt.toNat = c.lines.length + k) (startTime : BitVec 64) :
    ∃ settings, readConfig (sameStart startTime) (some text) = .ok settings ∧
      settings.ldProcesses.map LdProcess.startTime =
        c.lines.map ProcessLine.startTime ++ List.replicate k startTime := by
  obtain ⟨body, hbody, hread⟩ := readConfig_sizes h (sameStart startTime)
  obtain ⟨t, hskip, ht⟩ := (readProcesses_lists hbody (sameStart startTime) k 0).1 hfit
  have hend : skipSpace t = [] := by
    rw [hskip, skipSpace, List.dropWhile_eq_nil_iff]
    exact hrest
  obtain ⟨ps, hps, hstart⟩ := readProcesses_blank (g := sameStart startTime) (fun _ => rfl) k
    (0 + c.lines.length) hend
  rw [hn, ht, hps] at hread
  refine ⟨_, hread, ?_⟩
  dsimp only
  rw [List.map_append, List.map_map, hstart]
  refine congrArg₂ (· ++ ·) rfl ?_
  exact List.map_const'.trans (by rw [List.length_range'])

/-- What a text says does not depend on uninitialised memory exactly if it lists all the
processes that it declares. -/
theorem readConfig_determined_iff {c : Configuration} {text rest : List Char}
    (h : Lists c.rows.flatten text rest) (hrest : Blank rest)
    (hfit : ∀ l ∈ c.lines, FitsPath l.name) :
    (∀ g g', readConfig g (some text) = readConfig g' (some text)) ↔
      c.numProcesses.toInt ≤ c.lines.length := by
  refine ⟨fun hsame => ?_, fun hle g g' => ?_⟩
  · by_contra hlt
    obtain ⟨k, hk⟩ : ∃ k, c.numProcesses.toInt.toNat = c.lines.length + (k + 1) :=
      ⟨c.numProcesses.toInt.toNat - c.lines.length - 1, by omega⟩
    obtain ⟨settings, hread, hstart⟩ := readConfig_short h hrest hfit hk 0
    obtain ⟨settings', hread', hstart'⟩ := readConfig_short h hrest hfit hk 1
    rw [hsame (sameStart 0) (sameStart 1), hread'] at hread
    rw [Except.ok.inj hread, hstart, List.append_cancel_left_eq, List.replicate_succ,
      List.replicate_succ] at hstart'
    exact absurd (List.cons.inj hstart').1 (by decide)
  · obtain ⟨rest', hfirst⟩ := lists_firstLines h c.numProcesses.toInt.toNat
    have hn : (c.firstLines c.numProcesses.toInt.toNat).numProcesses.toInt.toNat =
        (c.firstLines c.numProcesses.toInt.toNat).lines.length := by
      dsimp only [Configuration.firstLines]
      rw [List.length_take]
      omega
    have hfits : ∀ l ∈ (c.firstLines c.numProcesses.toInt.toNat).lines, FitsPath l.name :=
      fun l hl => hfit l (List.mem_of_mem_take hl)
    rw [(readConfig_lists hfirst hn g).1 hfits, (readConfig_lists hfirst hn g').1 hfits]

/-! ## Writing -/

/-- A written configuration lists what it says. -/
theorem writeConfig_lists {c : Configuration}
    (hword : ∀ l ∈ c.lines, Writable (.word l.name)) :
    Lists c.rows.flatten (writeConfig c) ['\n'] := by
  refine writeRows_lists (fun fs hfs => ?_) (fun fs hfs f hf => ?_)
  · rcases List.mem_cons.mp hfs with rfl | hfs
    · exact List.cons_ne_nil _ _
    rcases List.mem_cons.mp hfs with rfl | hfs
    · exact List.cons_ne_nil _ _
    · obtain ⟨l, _, rfl⟩ := List.mem_map.mp hfs
      exact List.cons_ne_nil _ _
  · rcases List.mem_cons.mp hfs with rfl | hfs
    · simp only [List.mem_cons, List.not_mem_nil, or_false] at hf
      rcases hf with rfl | rfl | rfl <;> trivial
    rcases List.mem_cons.mp hfs with rfl | hfs
    · rcases List.mem_cons.mp hf with rfl | hf
      · trivial
      · obtain ⟨v, _, rfl⟩ := List.mem_map.mp hf
        trivial
    · obtain ⟨l, hl, rfl⟩ := List.mem_map.mp hfs
      simp only [ProcessLine.fields, List.mem_cons, List.not_mem_nil, or_false] at hf
      rcases hf with rfl | rfl | rfl
      · trivial
      · exact hword l hl
      · trivial

/-- Every text that lists what a configuration says, in whatever layout, is read as the
configuration if every path fits its buffer, and else the behaviour is undefined; and a
configuration that has been written is read back. -/
theorem config_read_back {c : Configuration} (hn : c.numProcesses.toInt = c.lines.length) :
    (∀ text rest, Lists c.rows.flatten text rest → ∀ g, readConfig g (some text) =
      if ∀ l ∈ c.lines, FitsPath l.name then .ok c.settings else .error .undefined) ∧
    ((∀ l ∈ c.lines, Writable (.word l.name) ∧ FitsPath l.name) →
      ∀ g, readConfig g (some (writeConfig c)) = .ok c.settings) := by
  have hn' : c.numProcesses.toInt.toNat = c.lines.length := by omega
  refine ⟨fun text rest h g => ?_, fun h g => ?_⟩
  · obtain ⟨hok, herr⟩ := readConfig_lists h hn' g
    split
    · next hfit => exact hok hfit
    · next hno => exact herr hno
  · exact (readConfig_lists (writeConfig_lists fun l hl => (h l hl).1) hn' g).1 fun l hl =>
      (h l hl).2

/-- The configuration of `input/os_syscall`. -/
def osSyscall : Configuration where
  timeSlot := 2
  numCpus := 1
  numProcesses := 1
  memramsz := 2048
  memswpsz := [16777216, 0, 0, 0]
  lines := [⟨9, "sc2".toList, 15⟩]
  swaps := rfl

/-- The configuration of `input/os_syscall` is read from every text that lists it, and from
the one that is written for it. -/
theorem config_read_back_osSyscall :
    (∀ text rest, Lists osSyscall.rows.flatten text rest → ∀ g, readConfig g (some text) =
      if ∀ l ∈ osSyscall.lines, FitsPath l.name then .ok osSyscall.settings else .error .undefined) ∧
    ∀ g, readConfig g (some (writeConfig osSyscall)) = .ok osSyscall.settings := by
  obtain ⟨hread, hwritten⟩ := config_read_back (c := osSyscall) rfl
  exact ⟨hread, hwritten (by decide)⟩

/-- The configuration of `input/os_syscall` with a second process declared, which is not
listed. -/
def twoDeclared : Configuration := {osSyscall with numProcesses := 2}

/-- The file of `input/os_syscall` lists the process that it declares, and what is read from
it is determined; with a second process declared it is not. -/
theorem readConfig_determined_iff_osSyscall :
    (∀ g g', readConfig g (some (writeConfig osSyscall)) =
        readConfig g' (some (writeConfig osSyscall))) ∧
      ¬∀ g g', readConfig g (some (writeConfig twoDeclared)) =
        readConfig g' (some (writeConfig twoDeclared)) := by
  refine ⟨?_, fun h => ?_⟩
  · exact (readConfig_determined_iff (writeConfig_lists (c := osSyscall) (by decide))
      (blank_singleton rfl) (by decide)).mpr (by decide)
  · have hle := (readConfig_determined_iff (writeConfig_lists (c := twoDeclared) (by decide))
      (blank_singleton rfl) (by decide)).mp h
    exact absurd hle (by decide)

end OsSim.ConfigFile
