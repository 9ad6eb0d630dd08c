import OsSim.TextScanning
import OsSim.MemoryLibrary

/-!
# The loader

`load` scans the text of a process by words and numbers, and a `SYSCALL` by its line. No
result of a scan is looked at, so that whatever a scan leaves unread keeps the contents
it had: the buffers on the stack those of an earlier turn, and the fields of fresh memory
those that `malloc` returned.
-/

namespace OsSim.Loader

open MemoryWords MemoryLibrary TextScanning

/-- Why `load` does not return. -/
inductive LoadStop
  /-- `exit(1)`. -/
  | exit
  /-- The behaviour is undefined: a word that overflows `opcode`, or a number out of range. -/
  | undefined

/-- What uninitialised memory holds. -/
structure Garbage where
  /-- `proc->priority`. -/
  priority : UInt
  /-- `proc->code->size`. -/
  size : UInt
  /-- `opcode`, as `strcmp` sees it. -/
  opcode : List Char
  /-- `buf`, as `sscanf` sees it. -/
  buf : List Char
  /-- `proc->code->text`. -/
  text : ℕ → Inst

/-- The fields of `struct pcb_t` that `load` sets, without the page table. -/
structure Loaded where
  /-- `pid`. -/
  pid : UInt
  /-- `bp`. -/
  bp : UInt
  /-- `pc`. -/
  pc : UInt
  /-- `path`. -/
  path : List Char
  /-- `priority`. -/
  priority : UInt
  /-- `code->size`. -/
  size : UInt
  /-- `code->text`. -/
  text : List Inst

/-- `PAGE_SIZE`. -/
def pageSize : UInt := 1#32 <<< 10

/-- `OPT_CALC` and the other words for opcodes. -/
def opt : Opcode → List Char
  | .calc => "calc".toList
  | .alloc => "alloc".toList
  | .free => "free".toList
  | .read => "read".toList
  | .write => "write".toList
  | .syscall => "syscall".toList

/-- `get_opcode`. -/
def getOpcode (word : List Char) : Except LoadStop Opcode :=
  if cString word = opt .calc then .ok .calc
  else if cString word = opt .alloc then .ok .alloc
  else if cString word = opt .free then .ok .free
  else if cString word = opt .read then .ok .read
  else if cString word = opt .write then .ok .write
  else if cString word = opt .syscall then .ok .syscall
  else .error .exit

/-- The operands of an instruction, in the order of its fields. -/
def argFormat : Opcode → List Directive
  | .calc => []
  | .alloc => [.unsigned, .space, .unsigned, .space]
  | .free => [.unsigned, .space]
  | .read => [.unsigned, .space, .unsigned, .space, .unsigned, .space]
  | .write => [.unsigned, .space, .unsigned, .space, .unsigned, .space]
  | .syscall => [.unsigned, .unsigned, .unsigned, .unsigned]

/-- `fscanf(file, "%s", opcode)`: the buffer afterwards, and the rest of the file. -/
def scanOpcode (opcode file : List Char) : Except LoadStop (List Char × List Char) :=
  match scanWord file with
  | none => .ok (opcode, [])
  | some (word, rest) => if word.length < 10 then .ok (word, rest) else .error .undefined

/-- The fields that a scan has assigned; the others stay. -/
def assign (ins : Inst) (vals : List Addr) : Inst :=
  {ins with
    arg0 := vals.getD 0 ins.arg0
    arg1 := vals.getD 1 ins.arg1
    arg2 := vals.getD 2 ins.arg2
    arg3 := vals.getD 3 ins.arg3}

/-- A scan of the operands of an instruction. -/
def scanArgs (ins : Inst) (fmt : List Directive) (s : List Char) :
    Except LoadStop (Inst × List Char) :=
  match scanf 64 fmt s with
  | none => .error .undefined
  | some (vals, rest) => .ok (assign ins vals, rest)

/-- `sizeof(buf) - 1`: the characters of a line that `fgets` takes. -/
def bufLine : ℕ := 199

/-- The opcode switch of `load`: the instruction, the line buffer and the rest of the file.
When `fgets` finds the end of the file, the buffer keeps its line. -/
def scanInst (ins : Inst) (buf file : List Char) :
    Except LoadStop (Inst × List Char × List Char) :=
  match ins.opcode with
  | .calc => .ok (ins, buf, file)
  | .syscall => do
    let line := fgets bufLine file
    let buf := if line.1 = [] then buf else line.1
    let r ← scanArgs ins (argFormat .syscall) (cString buf)
    .ok (r.1, buf, line.2)
  | opcode => do
    let r ← scanArgs ins (argFormat opcode) file
    .ok (r.1, buf, r.2)

/-- The loop of `load`, with so many turns left. -/
def loadLoop (g : Garbage) : ℕ → ℕ → List Char → List Char → List Char →
    Except LoadStop (List Inst)
  | 0, _, _, _, _ => .ok []
  | n + 1, i, opcode, buf, file => do
    let word ← scanOpcode opcode file
    let op ← getOpcode word.1
    let r ← scanInst {g.text i with opcode := op} buf word.2
    let text ← loadLoop g n (i + 1) word.1 r.2.1 r.2.2
    .ok (r.1 :: text)

/-- The format of the first line. -/
def headerFormat : List Directive := [.unsigned, .space, .unsigned]

/-- `load`, for the file under the path, if there is one. -/
def load (g : Garbage) (availPid : UInt) (path : List Char) (file : Option (List Char)) :
    Except LoadStop Loaded :=
  match file with
  | none => .error .exit
  | some file =>
    match scanf 32 headerFormat file with
    | none => .error .undefined
    | some (vals, file) => do
      let size := vals.getD 1 g.size
      let text ← loadLoop g size.toNat 0 g.opcode g.buf file
      .ok { pid := availPid
            bp := pageSize
            pc := 0
            path := path.take 16
            priority := vals.getD 0 g.priority
            size := size
            text := text }

end OsSim.Loader
