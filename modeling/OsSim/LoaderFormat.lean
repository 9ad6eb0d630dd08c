import OsSim.Loader
import OsSim.RunSteps

/-!
# The file format of a process

A text is a header with the priority and the number of instructions, and then the
instructions: the word of an opcode with its operands, each behind white space. The
operands of a `SYSCALL` stand alone on its line. The loader reads such a text back, and
refuses one that has another word in the place of an opcode; every other text that it
returns from is one it has not understood.
-/

namespace OsSim.LoaderFormat

open MemoryWords MemoryLibrary TextScanning Loader RunSteps

/-! ## Texts -/

/-- The operands that `run` passes on. -/
def operandCount : Opcode → ℕ
  | .calc => 0
  | .alloc => 2
  | .free => 1
  | .read => 3
  | .write => 3
  | .syscall => 4

/-- An instruction with its operands. -/
@[ext] structure Statement where
  /-- Operation. -/
  opcode : Opcode
  /-- Operands. -/
  args : List Addr
  /-- No operand is missing. -/
  complete : args.length = operandCount opcode

/-- What an instruction of `code->text` tells `run` to do. -/
def statement (ins : Inst) : Statement where
  opcode := ins.opcode
  args := [ins.arg0, ins.arg1, ins.arg2, ins.arg3].take (operandCount ins.opcode)
  complete := by cases ins.opcode <;> rfl

/-- The first line: a priority and a size, and the text behind it. -/
inductive Header : List Char → UInt → UInt → List Char → Prop
  /-- Two numbers. -/
  | numbers {sp num ops body : List Char} {prio size : UInt} (hsp : Blank sp)
      (hn : Numeral 32 num prio) (ho : Operands 32 [size] ops) (hend : Ends body) :
      Header (sp ++ (num ++ (ops ++ body))) prio size body

/-- No further number stands here. -/
def NoOperand (s : List Char) : Prop := ∃ rest, scanUnsigned 64 s = .failed rest

/-- A text starts with these instructions, each with all the operands written for it. -/
inductive Listed : List Statement → List Char → Prop
  /-- None: any text. -/
  | nil (s : List Char) : Listed [] s
  /-- An instruction and its operands, up to white space and what is no operand. -/
  | word {sp ops rest : List Char} {sts : List Statement} (st : Statement)
      (hop : st.opcode ≠ .syscall) (hsp : Blank sp) (ho : Operands 64 st.args ops)
      (hend : Ends rest) (hno : NoOperand rest) (h : Listed sts rest) :
      Listed (st :: sts) (sp ++ (opt st.opcode ++ (ops ++ rest)))
  /-- A system call, whose operands fit the line buffer and stand alone on its line. -/
  | line {sp ops pad rest : List Char} {sts : List Statement} (st : Statement)
      (hop : st.opcode = .syscall) (hsp : Blank sp) (ho : Operands 64 st.args ops)
      (hone : '\n' ∉ ops) (hfit : ops.length ≤ bufLine) (hpad : Blank pad)
      (hend : ∀ c ∈ rest.head?, c = '\n') (h : Listed sts rest) :
      Listed (st :: sts) (sp ++ (opt st.opcode ++ (ops ++ (pad ++ rest))))

/-- A text that lists as many instructions as it declares. -/
def Complete (text : List Char) : Prop :=
  ∃ prio size body sts, Header text prio size body ∧ Listed sts body ∧
    sts.length = size.toNat

/-- Where the operands of an opcode end, when they are in range. -/
def argsEnd : Opcode → List Char → Option (List Char)
  | .syscall, s =>
    (scanf 64 (argFormat .syscall) (cString (fgets bufLine s).1)).map
      fun _ => (fgets bufLine s).2
  | op, s => (scanf 64 (argFormat op) s).map Prod.snd

/-- In the place of one of so many instructions there is a word that is no opcode. -/
inductive Refuses : ℕ → List Char → Prop
  /-- The next word is no opcode. -/
  | unknown {n : ℕ} {s word rest : List Char} (hw : scanWord s = some (word, rest))
      (hlen : word.length < 10) (hop : getOpcode word = .error .exit) : Refuses (n + 1) s
  /-- The next word is one, and a later one is not. -/
  | later {n : ℕ} {s word rest rest' : List Char} {op : Opcode}
      (hw : scanWord s = some (word, rest)) (hlen : word.length < 10)
      (hop : getOpcode word = .ok op) (hargs : argsEnd op rest = some rest')
      (h : Refuses n rest') : Refuses (n + 1) s

/-- A text with a word that is no opcode in the place of a declared instruction. -/
def Refused (text : List Char) : Prop :=
  ∃ vals body size, scanf 32 headerFormat text = some (vals, body) ∧ vals[1]? = some size ∧
    Refuses size.toNat body

/-! ## What the loader does with them -/

/-- From a text that `load` returns from it has read the declared size and every declared
instruction with its operands, whatever uninitialised memory held. -/
def Reproduces (text : List Char) : Prop :=
  ∀ g availPid path,
    match load g availPid path (some text) with
    | .error .exit => True
    | .error .undefined => False
    | .ok proc => ∃ prio size body sts, Header text prio size body ∧ Listed sts body ∧
        sts.length = size.toNat ∧ proc.size = size ∧ proc.text.map statement = sts

/-- A text loads as these instructions, under this priority. -/
def LoadsAs (text : List Char) (prio : UInt) (sts : List Statement) : Prop :=
  ∀ g availPid path, ∃ proc, load g availPid path (some text) = .ok proc ∧
    proc.priority = prio ∧ proc.size.toNat = sts.length ∧ proc.text.map statement = sts

/-- An instruction in the file format. -/
def writeStatement (st : Statement) : List Char := opt st.opcode ++ writeOperands st.args

/-- Instructions in the file format, one on a line. -/
def writeStatements : List Statement → List Char
  | [] => []
  | st :: sts => writeStatement st ++ '\n' :: writeStatements sts

/-- A process in the file format. -/
def writeText (prio : UInt) (sts : List Statement) : List Char :=
  writeUnsigned prio ++ (writeOperands [BitVec.ofNat 32 sts.length] ++
    '\n' :: writeStatements sts)

/-! ## Reading an instruction -/

/-- The word of an opcode is its name. -/
theorem getOpcode_opt (op : Opcode) : getOpcode (opt op) = .ok op := by
  cases op <;> rfl

/-- The word of an opcode fits the buffer of the loader, and is a word. -/
theorem opt_word (op : Opcode) :
    (opt op).length < 10 ∧ opt op ≠ [] ∧ ∀ c ∈ opt op, isSpace c = false := by
  have hall : (opt op).all (fun c => !isSpace c) = true := by cases op <;> rfl
  refine ⟨by cases op <;> decide, by cases op <;> decide, fun c hc => ?_⟩
  have hc' := List.all_eq_true.mp hall c hc
  rw [Bool.not_eq_true'] at hc'
  exact hc'

/-- The format of the operands has a conversion for every operand. -/
theorem argFormat_count (op : Opcode) : (argFormat op).count .unsigned = operandCount op := by
  cases op <;> decide

/-- The operands that were assigned are those of the instruction. -/
theorem statement_assign (ins : Inst) (st : Statement) :
    statement (assign {ins with opcode := st.opcode} st.args) = st := by
  obtain ⟨op, args, hlen⟩ := st
  have htake : ∀ n, args.length = n → n ≤ 4 →
      [args.getD 0 ins.arg0, args.getD 1 ins.arg1, args.getD 2 ins.arg2,
        args.getD 3 ins.arg3].take n = args := by
    rintro n rfl hn
    match args with
    | [] => rfl
    | [_] => rfl
    | [_, _] => rfl
    | [_, _, _] => rfl
    | [_, _, _, _] => rfl
    | _ :: _ :: _ :: _ :: _ :: _ => exact absurd hn (by simp)
  ext1
  · rfl
  · exact htake (operandCount op) hlen (by cases op <;> decide)

/-- Away from system calls, the operands are scanned where the word ends. -/
theorem scanInst_of_ne {ins : Inst} (hop : ins.opcode ≠ .syscall) (buf file : List Char) :
    scanInst ins buf file =
      (scanArgs ins (argFormat ins.opcode) file).map fun r => (r.1, buf, r.2) := by
  unfold scanInst
  split
  · next hcalc =>
    rw [hcalc]
    rfl
  · next hsys => exact absurd hsys hop
  · rfl

/-- The operands of a word are read, and what is left is the text behind them. -/
theorem scanInst_word {st : Statement} {ops rest : List Char} (hop : st.opcode ≠ .syscall)
    (ho : Operands 64 st.args ops) (hend : Ends rest) (ins : Inst) (buf : List Char) :
    ∃ t, scanInst {ins with opcode := st.opcode} buf (ops ++ rest) =
        .ok (assign {ins with opcode := st.opcode} st.args, buf, t) ∧
      skipSpace t = skipSpace rest := by
  have hcount : (argFormat st.opcode).count .unsigned = st.args.length := by
    rw [argFormat_count, st.complete]
  obtain ⟨t, ht, hskip⟩ := scanf_operands ho hend hcount (s := ops ++ rest) rfl
  refine ⟨t, ?_, hskip⟩
  rw [@scanInst_of_ne {ins with opcode := st.opcode} hop]
  unfold scanArgs
  rw [ht]
  rfl

/-- The operands of a line are read, and what is left is the text behind it. -/
theorem scanInst_line {st : Statement} {ops pad rest : List Char}
    (hop : st.opcode = .syscall) (ho : Operands 64 st.args ops) (hone : '\n' ∉ ops)
    (hfit : ops.length ≤ bufLine) (hpad : Blank pad) (hend : ∀ c ∈ rest.head?, c = '\n')
    (ins : Inst) (buf : List Char) :
    ∃ buf' t, scanInst {ins with opcode := st.opcode} buf (ops ++ (pad ++ rest)) =
        .ok (assign {ins with opcode := st.opcode} st.args, buf', t) ∧
      skipSpace t = skipSpace rest := by
  obtain ⟨hblank, hskip⟩ := fgets_blank hpad hend (bufLine - ops.length)
  have hline := fgets_append hone hfit (s := pad ++ rest)
  have hargs : st.args ≠ [] := by
    intro hnil
    have hlen := st.complete
    rw [hop, hnil] at hlen
    exact absurd hlen (by decide)
  have hnull : '\x00' ∉ ops ++ (fgets (bufLine - ops.length) (pad ++ rest)).1 := by
    rw [List.mem_append, not_or]
    exact ⟨ho.null_not_mem, fun hc => absurd (hblank _ hc) (by decide)⟩
  have hcount : (argFormat .syscall).count .unsigned = st.args.length := by
    rw [argFormat_count, st.complete, hop]
  obtain ⟨t, ht, -⟩ := scanf_operands ho hblank.ends hcount rfl
  refine ⟨ops ++ (fgets (bufLine - ops.length) (pad ++ rest)).1, _, ?_, hskip⟩
  unfold scanInst
  dsimp only
  rw [hop]
  dsimp only
  rw [hline]
  dsimp only
  rw [if_neg (fun h => ho.ne_nil hargs (List.append_eq_nil_iff.mp h).1), cString_of_not_mem hnull]
  unfold scanArgs
  rw [ht]
  rfl

/-- A turn of the loop that finds a word which fits the buffer. -/
theorem loadLoop_succ {file word rest : List Char} (hw : scanWord file = some (word, rest))
    (hlen : word.length < 10) (g : Garbage) (n i : ℕ) (opcode buf : List Char) :
    loadLoop g (n + 1) i opcode buf file = (do
      let op ← getOpcode word
      let r ← scanInst {g.text i with opcode := op} buf rest
      let text ← loadLoop g n (i + 1) word r.2.1 r.2.2
      .ok (r.1 :: text)) := by
  have hword : scanOpcode opcode file = .ok (word, rest) := by
    unfold scanOpcode
    rw [hw]
    exact if_pos hlen
  rw [loadLoop, hword]
  rfl

/-- A turn of the loop that finds the word of an opcode. -/
theorem loadLoop_turn {g : Garbage} {n i : ℕ} {opcode buf file rest buf' t : List Char}
    {op : Opcode} {ins : Inst} {text : List Inst} (hw : scanWord file = some (opt op, rest))
    (hi : scanInst {g.text i with opcode := op} buf rest = .ok (ins, buf', t))
    (hl : loadLoop g n (i + 1) (opt op) buf' t = .ok text) :
    loadLoop g (n + 1) i opcode buf file = .ok (ins :: text) := by
  rw [loadLoop_succ hw (opt_word op).1, getOpcode_opt]
  dsimp only [bind, Except.bind]
  rw [hi]
  dsimp only
  rw [hl]

/-- The loop reads the instructions that a text lists. -/
theorem loadLoop_listed {sts : List Statement} {s : List Char} (h : Listed sts s)
    (g : Garbage) (i : ℕ) (opcode buf : List Char) {file : List Char}
    (hfile : skipSpace file = skipSpace s) :
    ∃ text, loadLoop g sts.length i opcode buf file = .ok text ∧
      text.map statement = sts := by
  induction h generalizing i opcode buf file with
  | nil s => exact ⟨[], rfl, rfl⟩
  | @word sp ops rest sts st hop hsp ho hend hno h ih =>
    have hends : Ends (ops ++ rest) := ho.ends.append fun _ => hend
    have hw := scanWord_append hsp (opt_word st.opcode).2.1 (opt_word st.opcode).2.2 hends
    obtain ⟨t, hi, hskip⟩ := scanInst_word hop ho hend (g.text i) buf
    obtain ⟨text, hl, htext⟩ := ih (i + 1) (opt st.opcode) buf hskip
    refine ⟨_, loadLoop_turn ((scanWord_congr hfile).trans hw) hi hl, ?_⟩
    rw [List.map_cons, statement_assign, htext]
  | @line sp ops pad rest sts st hop hsp ho hone hfit hpad hend h ih =>
    have hends : Ends (ops ++ (pad ++ rest)) := by
      refine ho.ends.append fun _ => hpad.ends.append fun _ c hc => ?_
      rw [hend c hc]
      rfl
    have hw := scanWord_append hsp (opt_word st.opcode).2.1 (opt_word st.opcode).2.2 hends
    obtain ⟨buf', t, hi, hskip⟩ :=
      scanInst_line hop ho hone hfit hpad hend (g.text i) buf
    obtain ⟨text, hl, htext⟩ := ih (i + 1) (opt st.opcode) buf' hskip
    refine ⟨_, loadLoop_turn ((scanWord_congr hfile).trans hw) hi hl, ?_⟩
    rw [List.map_cons, statement_assign, htext]

/-- The two numbers of a header are read. -/
theorem scanf_header {text body : List Char} {prio size : UInt}
    (h : Header text prio size body) :
    ∃ t, scanf 32 headerFormat text = some ([prio, size], t) ∧
      skipSpace t = skipSpace body := by
  cases h with
  | numbers hsp hn ho hend =>
    -- a blank in front makes an operand of the first number too
    have hone : Blank [' '] := blank_singleton rfl
    have hops := Operands.cons (List.cons_ne_nil _ _) hone hn ho
    refine scanf_operands hops hend rfl ?_
    rw [skipSpace_append hsp, List.append_assoc, List.append_assoc, skipSpace_append hone]

/-- `load` behind a header that could be scanned. -/
theorem load_scanned {text body : List Char} {vals : List UInt}
    (h : scanf 32 headerFormat text = some (vals, body)) (g : Garbage) (availPid : UInt)
    (path : List Char) : load g availPid path (some text) = (do
      let code ← loadLoop g (vals.getD 1 g.size).toNat 0 g.opcode g.buf body
      .ok ⟨availPid, pageSize, 0, path.take 16, vals.getD 0 g.priority, vals.getD 1 g.size,
        code⟩) := by
  unfold load
  dsimp only
  rw [h]

/-- `load` returns what a complete text lists. -/
theorem load_listed {text body : List Char} {prio size : UInt} {sts : List Statement}
    (hh : Header text prio size body) (hl : Listed sts body) (hlen : sts.length = size.toNat)
    (g : Garbage) (availPid : UInt) (path : List Char) :
    ∃ proc, load g availPid path (some text) = .ok proc ∧ proc.priority = prio ∧
      proc.size = size ∧ proc.text.map statement = sts := by
  obtain ⟨t, ht, hskip⟩ := scanf_header hh
  obtain ⟨code, hcode, hsts⟩ := loadLoop_listed hl g 0 g.opcode g.buf hskip
  have hsize : ([prio, size].getD 1 g.size).toNat = sts.length := hlen.symm
  rw [load_scanned ht, hsize, hcode]
  exact ⟨_, rfl, rfl, rfl, hsts⟩

/-! ## Refused texts -/

/-- At the end of a text there is no word that could be refused. -/
theorem not_refuses_nil (n : ℕ) : ¬Refuses n [] := by
  intro h
  cases h with
  | unknown hw => cases hw
  | later hw => cases hw

/-- At the end of a text the operands of an opcode end. -/
theorem argsEnd_nil (op : Opcode) : argsEnd op [] = some [] := by
  have hplain : (scanf 64 (argFormat op) []).map Prod.snd = some [] := by
    rw [scanf_nil]
    rfl
  cases op
  case syscall => rfl
  all_goals exact hplain

/-- Where the operands of a word end. -/
theorem argsEnd_of_ne {op : Opcode} (hop : op ≠ .syscall) (s : List Char) :
    argsEnd op s = (scanf 64 (argFormat op) s).map Prod.snd := by
  unfold argsEnd
  split
  · exact absurd rfl hop
  · rfl

/-- The switch stops where the operands end, as far as there is anything left; it never
makes `load` exit. -/
theorem scanInst_cases (ins : Inst) (buf file : List Char) :
    scanInst ins buf file = .error .undefined ∨
      ∃ ins' buf' rest, scanInst ins buf file = .ok (ins', buf', rest) ∧
        (argsEnd ins.opcode file = some rest ∨ rest = []) := by
  by_cases hop : ins.opcode = .syscall
  · unfold scanInst scanArgs argsEnd
    rw [hop]
    dsimp only
    by_cases hline : (fgets bufLine file).1 = []
    · -- the end of the file: the operands come from an older line
      rw [if_pos hline]
      cases scanf 64 (argFormat .syscall) (cString buf) with
      | none => exact Or.inl rfl
      | some r => exact Or.inr ⟨_, _, _, rfl, Or.inr (fgets_eq_nil hline)⟩
    · rw [if_neg hline]
      cases scanf 64 (argFormat .syscall) (cString (fgets bufLine file).1) with
      | none => exact Or.inl rfl
      | some r => exact Or.inr ⟨_, _, _, rfl, Or.inl rfl⟩
  · rw [scanInst_of_ne hop, argsEnd_of_ne hop]
    unfold scanArgs
    cases scanf 64 (argFormat ins.opcode) file with
    | none => exact Or.inl rfl
    | some r => exact Or.inr ⟨_, _, _, rfl, Or.inl rfl⟩

/-- Where the operands end and something is left, the switch stops. -/
theorem scanInst_of_argsEnd {ins : Inst} {file rest : List Char}
    (h : argsEnd ins.opcode file = some rest) (hrest : rest ≠ []) (buf : List Char) :
    ∃ ins' buf', scanInst ins buf file = .ok (ins', buf', rest) := by
  by_cases hop : ins.opcode = .syscall
  · rw [hop] at h
    dsimp only [argsEnd] at h
    obtain ⟨r, hr, rfl⟩ := Option.map_eq_some_iff.mp h
    have hline : (fgets bufLine file).1 ≠ [] := fun hnil => hrest (fgets_eq_nil hnil)
    refine ⟨assign ins r.1, (fgets bufLine file).1, ?_⟩
    unfold scanInst scanArgs
    rw [hop]
    dsimp only
    rw [if_neg hline, hr]
    rfl
  · rw [argsEnd_of_ne hop] at h
    obtain ⟨r, hr, rfl⟩ := Option.map_eq_some_iff.mp h
    refine ⟨assign ins r.1, buf, ?_⟩
    rw [scanInst_of_ne hop]
    unfold scanArgs
    rw [hr]
    rfl

/-- A word that is no opcode makes the loop exit. -/
theorem loadLoop_refuses {n : ℕ} {file : List Char} (h : Refuses n file) (g : Garbage)
    (i : ℕ) (opcode buf : List Char) : loadLoop g n i opcode buf file = .error .exit := by
  induction h generalizing i opcode buf with
  | unknown hw hlen hop =>
    rw [loadLoop_succ hw hlen, hop]
    rfl
  | @later n file word rest rest' op hw hlen hop hargs h ih =>
    have hrest : rest' ≠ [] := by
      rintro rfl
      exact not_refuses_nil _ h
    have hend : argsEnd ({g.text i with opcode := op} : Inst).opcode rest = some rest' := hargs
    obtain ⟨ins', buf', hi⟩ := scanInst_of_argsEnd hend hrest buf
    rw [loadLoop_succ hw hlen, hop]
    dsimp only [bind, Except.bind]
    rw [hi]
    dsimp only
    rw [ih]

/-- If the loop exits behind the operands of an instruction, it exits in a later turn. -/
theorem exit_behind {g : Garbage} {n i : ℕ} {word buf rest : List Char} {ins : Inst}
    (h : (do
      let r ← scanInst ins buf rest
      let text ← loadLoop g n (i + 1) word r.2.1 r.2.2
      .ok (r.1 :: text)) = .error .exit) :
    ∃ buf' rest', loadLoop g n (i + 1) word buf' rest' = .error .exit ∧
      (argsEnd ins.opcode rest = some rest' ∨ rest' = []) := by
  rcases scanInst_cases ins buf rest with hu | ⟨ins', buf', rest', hi, hend⟩
  · rw [hu] at h
    cases h
  · rw [hi] at h
    dsimp only [bind, Except.bind] at h
    exact ⟨buf', rest', error_of_bind (fun _ => by simp) h, hend⟩

/-- Once the buffer holds an opcode, the loader exits only for a word that is no opcode. -/
theorem refuses_of_exit {g : Garbage} {n i : ℕ} {opcode buf file : List Char} {op : Opcode}
    (hop : getOpcode opcode = .ok op)
    (h : loadLoop g n i opcode buf file = .error .exit) : Refuses n file := by
  induction n generalizing i opcode buf file op with
  | zero => cases h
  | succ n ih =>
    cases hw : scanWord file with
    | none =>
      -- the end of the text: the old opcode is taken again, and again
      rw [loadLoop, scanOpcode, hw] at h
      dsimp only [bind, Except.bind] at h
      rw [hop] at h
      obtain ⟨buf', rest', hl, hend⟩ := exit_behind h
      have hnil : rest' = [] := by
        rcases hend with hend | hend
        · rw [argsEnd_nil] at hend
          exact (Option.some.inj hend).symm
        · exact hend
      rw [hnil] at hl
      exact absurd (ih hop hl) (not_refuses_nil n)
    | some r =>
      obtain ⟨word, rest⟩ := r
      by_cases hlen : word.length < 10
      · rw [loadLoop_succ hw hlen] at h
        cases hword : getOpcode word with
        | error e =>
          rw [hword] at h
          cases h
          exact .unknown hw hlen hword
        | ok op' =>
          rw [hword] at h
          obtain ⟨buf', rest', hl, hend⟩ := exit_behind h
          have hr := ih hword hl
          rcases hend with hend | rfl
          · exact .later hw hlen hword hend hr
          · exact absurd hr (not_refuses_nil n)
      · rw [loadLoop, scanOpcode, hw] at h
        dsimp only [bind, Except.bind] at h
        rw [if_neg hlen] at h
        cases h

/-- `load` exits from a refused text. -/
theorem load_refused {text : List Char} (h : Refused text) (g : Garbage) (availPid : UInt)
    (path : List Char) : load g availPid path (some text) = .error .exit := by
  obtain ⟨vals, body, size, hscan, hsize, hr⟩ := h
  have hget : vals.getD 1 g.size = size := by
    rw [List.getD_eq_getElem?_getD, hsize]
    rfl
  rw [load_scanned hscan, hget, loadLoop_refuses hr]
  rfl

/-- Uninitialised memory from which nothing is refused. -/
def benign : Garbage where
  priority := 0
  size := 0
  opcode := opt .calc
  buf := []
  text := fun _ => ⟨.calc, 0, 0, 0, 0⟩

/-- Where even that makes `load` exit, the text is refused. -/
theorem refused_of_exit {text : List Char} {availPid : UInt} {path : List Char}
    (h : load benign availPid path (some text) = .error .exit) : Refused text := by
  cases hscan : scanf 32 headerFormat text with
  | none =>
    unfold load at h
    dsimp only at h
    rw [hscan] at h
    cases h
  | some r =>
    obtain ⟨vals, body⟩ := r
    rw [load_scanned hscan] at h
    have hloop := error_of_bind (fun _ => by simp) h
    rw [List.getD_eq_getElem?_getD] at hloop
    cases hsize : vals[1]? with
    | none =>
      -- without a size there is no turn of the loop
      rw [hsize] at hloop
      cases hloop
    | some size =>
      rw [hsize] at hloop
      exact ⟨vals, body, size, hscan, hsize, refuses_of_exit (getOpcode_opt .calc) hloop⟩

/-! ## Written texts -/

/-- Behind a line there is no operand, but the next instruction. -/
theorem noOperand_writeStatements (sts : List Statement) :
    NoOperand ('\n' :: writeStatements sts) := by
  cases sts with
  | nil => exact ⟨[], rfl⟩
  | cons st sts =>
    rw [writeStatements, writeStatement]
    cases st.opcode <;> exact ⟨_, rfl⟩

/-- Written instructions are listed. -/
theorem listed_writeStatements (sts : List Statement) {sp : List Char} (hsp : Blank sp) :
    Listed sts (sp ++ writeStatements sts) := by
  induction sts generalizing sp with
  | nil => exact .nil _
  | cons st sts ih =>
    have ho := writeOperands_operands st.args
    have hrest : Listed sts ('\n' :: writeStatements sts) := ih (blank_singleton rfl)
    have hends : Ends ('\n' :: writeStatements sts) := ends_cons rfl _
    rw [writeStatements, writeStatement, List.append_assoc]
    by_cases hop : st.opcode = .syscall
    · have hone : '\n' ∉ writeOperands st.args := by
        intro hc
        rcases mem_writeOperands hc with hc | hc
        · exact absurd hc (by decide)
        · exact absurd hc (by decide)
      have hfit : (writeOperands st.args).length ≤ bufLine := by
        have hlen := writeOperands_length st.args
        rw [st.complete, hop] at hlen
        exact hlen.trans (by decide)
      have hend : ∀ c ∈ ('\n' :: writeStatements sts).head?, c = '\n' :=
        fun c hc => (Option.some.inj hc).symm
      exact .line st hop hsp ho hone hfit blank_nil hend hrest
    · exact .word st hop hsp ho hends (noOperand_writeStatements sts) hrest

/-- A written process has the header that was written. -/
theorem header_writeText (prio : UInt) (sts : List Statement) :
    Header (writeText prio sts) prio (BitVec.ofNat 32 sts.length)
      ('\n' :: writeStatements sts) :=
  .numbers blank_nil (writeUnsigned_numeral prio)
    (writeOperands_operands [BitVec.ofNat 32 sts.length]) (ends_cons rfl _)

/-- Writing a process and loading it gives its instructions back. -/
theorem load_writeText (prio : UInt) {sts : List Statement} (hlen : sts.length < 2 ^ 32) :
    LoadsAs (writeText prio sts) prio sts := by
  have hsize : (BitVec.ofNat 32 sts.length).toNat = sts.length := by
    rw [BitVec.toNat_ofNat]
    exact Nat.mod_eq_of_lt hlen
  intro g availPid path
  obtain ⟨proc, hl, hprio, hs, hsts⟩ := load_listed (header_writeText prio sts)
    (listed_writeStatements sts (blank_singleton rfl)) hsize.symm g availPid path
  refine ⟨proc, hl, hprio, ?_, hsts⟩
  rw [hs, hsize]

/-! ## Which texts are reproduced -/

/-- A text that is reproduced loads alike from every memory. -/
theorem Reproduces.unique {text : List Char} (h : Reproduces text) {g g' : Garbage}
    {availPid : UInt} {path : List Char} {proc proc' : Loaded}
    (hg : load g availPid path (some text) = .ok proc)
    (hg' : load g' availPid path (some text) = .ok proc') :
    proc'.text.map statement = proc.text.map statement := by
  have hr := h g availPid path
  rw [hg] at hr
  obtain ⟨prio, size, body, sts, hh, hl, hlen, -, hsts⟩ := hr
  obtain ⟨proc₂, hl₂, -, -, hsts₂⟩ := load_listed hh hl hlen g' availPid path
  rw [hg'] at hl₂
  cases hl₂
  rw [hsts, hsts₂]

/-- The loader reproduces exactly the texts that list the instructions they declare, and
those that have another word in the place of one; and what is written is read back. -/
theorem reproduces_iff (text : List Char) :
    (Reproduces text ↔ Complete text ∨ Refused text) ∧
      ∀ prio sts, sts.length < 2 ^ 32 → LoadsAs (writeText prio sts) prio sts := by
  refine ⟨⟨fun h => ?_, ?_⟩, fun prio sts hlen => load_writeText prio hlen⟩
  · have hb := h benign 0 []
    split at hb
    · next hexit => exact Or.inr (refused_of_exit hexit)
    · exact hb.elim
    · obtain ⟨prio, size, body, sts, hh, hl, hlen, -, -⟩ := hb
      exact Or.inl ⟨prio, size, body, sts, hh, hl, hlen⟩
  · rintro (⟨prio, size, body, sts, hh, hl, hlen⟩ | hr) g availPid path
    · obtain ⟨proc, hproc, -, hsize, hsts⟩ := load_listed hh hl hlen g availPid path
      rw [hproc]
      exact ⟨prio, size, body, sts, hh, hl, hlen, hsize, hsts⟩
    · rw [load_refused hr]
      trivial

/-- The process of `input/proc/sc2`: its system call has two operands. -/
def sc2 : List Char :=
  "20 5\nalloc 100 1\nwrite 80 1 0\nwrite 48 1 1\nwrite -1 1 2\nsyscall 101 1\n".toList

/-- Memory that held something. -/
def used : Garbage := {benign with text := fun _ => ⟨.calc, 7, 7, 7, 7⟩}

/-- The other two operands are whatever fresh memory held. -/
theorem not_reproduces_sc2 : ¬Reproduces sc2 := by
  intro h
  obtain ⟨proc, hl, hargs⟩ : ∃ proc, load benign 1 [] (some sc2) = .ok proc ∧
      (proc.text.map statement).map (·.args) =
        [[100, 1], [80, 1, 0], [48, 1, 1], [-1, 1, 2], [101, 1, 0, 0]] := ⟨_, rfl, rfl⟩
  obtain ⟨proc', hl', hargs'⟩ : ∃ proc, load used 1 [] (some sc2) = .ok proc ∧
      (proc.text.map statement).map (·.args) =
        [[100, 1], [80, 1, 0], [48, 1, 1], [-1, 1, 2], [101, 1, 7, 7]] := ⟨_, rfl, rfl⟩
  have heq := congrArg (List.map (·.args)) (h.unique hl hl')
  rw [hargs, hargs'] at heq
  exact absurd heq (by decide)

end OsSim.LoaderFormat
