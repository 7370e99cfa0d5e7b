import SpimCompiler.Mips.Fragment

/-!
# Templates

The code of each construct around the code of its parts. The code of an expression leaves its value
in the accumulator `$t0`. While the right operand of a binary operation runs, the left one is kept
on the stack, which grows downwards and whose last word in use `$sp` points at.
-/

namespace SpimCompiler.Mips

inductive Service where
  | printInt
  | printString
  | allocate
  | exit
deriving DecidableEq, Repr

def Service.code : Service → Nat
  | printInt => 1
  | printString => 4
  | allocate => 9
  | exit => 10

structure ConcatLabels where
  measureLeft : String
  measureRight : String
  allocate : String
  copyLeft : String
  copyRight : String
deriving DecidableEq, Repr

namespace Template

def call (code : Nat) : Fragment := [.instr (.li .v0 code), .instr .syscall]

def program (cells strings main : Fragment) : Fragment :=
  ([.directive "data", .asciiz "bool_true" "true", .asciiz "bool_false" "false"] : Fragment) ++
    cells ++ strings ++ ([.directive "text", .label "main"] : Fragment) ++ main ++
    call Service.exit.code ++ ([.verbatim ""] : Fragment)

def loadImmediate (value : Int) : Fragment := [.instr (.li .t0 value)]

def loadAddress (label : String) : Fragment := [.instr (.la .t0 label)]

def loadVariable (cell : String) : Fragment := [.instr (.lw .t0 (.cell cell))]

def storeVariable (value : Fragment) (cell : String) : Fragment :=
  value ++ ([.instr (.sw .t0 (.cell cell))] : Fragment)

def printBool (operand : Fragment) : Fragment :=
  operand ++
    ([.instr (.la .a0 "bool_false"), .instr (.la .t1 "bool_true"),
      .instr (.movn .a0 .t1 .t0)] : Fragment) ++
    call Service.printString.code

def printBy (operand : Fragment) (code : Nat) : Fragment :=
  operand ++ ([.instr (.move .a0 .t0)] : Fragment) ++ call code

def ifThen (condition thenBody : Fragment) (endLabel : String) : Fragment :=
  condition ++ ([.instr (.beqz .t0 endLabel)] : Fragment) ++ thenBody ++
    ([.label endLabel] : Fragment)

def ifElse (condition thenBody elseBody : Fragment) (elseLabel endLabel : String) : Fragment :=
  condition ++ ([.instr (.beqz .t0 elseLabel)] : Fragment) ++ thenBody ++
    ([.instr (.j endLabel), .label elseLabel] : Fragment) ++ elseBody ++
    ([.label endLabel] : Fragment)

def whileLoop (condition body : Fragment) (startLabel endLabel : String) : Fragment :=
  ([.label startLabel] : Fragment) ++ condition ++ ([.instr (.beqz .t0 endLabel)] : Fragment) ++
    body ++ ([.instr (.j startLabel), .label endLabel] : Fragment)

/-- Runs both operands and leaves the left value in `$t1` and the right one in `$t0`. -/
def operands (left right : Fragment) : Fragment :=
  left ++ ([.instr (.addiu .sp .sp (-4)), .instr (.sw .t0 (.offset 0 .sp))] : Fragment) ++ right ++
    ([.instr (.lw .t1 (.offset 0 .sp)), .instr (.addiu .sp .sp 4)] : Fragment)

def binary (mnemonic : String) (left right : Fragment) : Fragment :=
  operands left right ++ ([.instr (.arith mnemonic .t0 .t1 .t0)] : Fragment)

def unaryMinus (operand : Fragment) : Fragment :=
  operand ++ ([.instr (.arith "sub" .t0 .zero .t0)] : Fragment)

def logicalNot (operand : Fragment) : Fragment :=
  operand ++ ([.instr (.xori .t0 .t0 1)] : Fragment)

/-- Counts the bytes of the string at `cursor` into `$t4` and goes on at the label `done`. -/
def measure (start done : String) (cursor : Reg) : Fragment :=
  [.label start, .instr (.lb .t5 (.offset 0 cursor)), .instr (.beqz .t5 done),
    .instr (.addiu .t4 .t4 1), .instr (.addiu cursor cursor 1), .instr (.j start)]

/-- Joins two strings in a fresh buffer: measures both, allocates their length and one byte more,
copies the left one without its final zero and the right one with it. -/
def concatStrings (left right : Fragment) (labels : ConcatLabels) : Fragment :=
  operands left right ++
    ([.instr (.move .t2 .t1), .instr (.move .t3 .t0), .instr (.li .t4 1)] : Fragment) ++
    measure labels.measureLeft labels.measureRight .t2 ++
    measure labels.measureRight labels.allocate .t3 ++
    ([.label labels.allocate, .instr (.move .a0 .t4)] : Fragment) ++ call Service.allocate.code ++
    ([.instr (.move .t2 .v0), .label labels.copyLeft, .instr (.lb .t5 (.offset 0 .t1)),
      .instr (.beqz .t5 labels.copyRight), .instr (.sb .t5 (.offset 0 .t2)),
      .instr (.addiu .t1 .t1 1), .instr (.addiu .t2 .t2 1), .instr (.j labels.copyLeft),
      .label labels.copyRight, .instr (.lb .t5 (.offset 0 .t0)), .instr (.sb .t5 (.offset 0 .t2)),
      .instr (.addiu .t0 .t0 1), .instr (.addiu .t2 .t2 1), .instr (.bnez .t5 labels.copyRight),
      .instr (.move .t0 .v0)] : Fragment)

end Template

end SpimCompiler.Mips
