import Mathlib.Logic.Relation
import SpimCompiler.Mips.Template

/-!
# The machine

What the instructions of generated programs do. The data of a program, the heap and the stack are
three regions without a common address; an address is a region and an offset in it, and each region
is as large as it has to be. A register or a word of memory holds a number of 32 bits or an address.
The machine has no next state where the simulator would stop with an error.
-/

namespace SpimCompiler.Mips

abbrev Word := BitVec 32

inductive Region where
  | data
  | heap
  | stack
deriving DecidableEq, Repr

structure Place where
  region : Region
  offset : Int
deriving DecidableEq, Repr

def Place.shift (p : Place) (n : Int) : Place := ⟨p.region, p.offset + n⟩

inductive Value where
  | word (w : Word)
  | address (p : Place)
deriving DecidableEq, Repr

/-- What a byte of memory holds: a number, or one of the four bytes of an address. -/
inductive Byte where
  | number (n : UInt8)
  | part (p : Place) (k : Nat)
deriving DecidableEq, Repr

namespace Value

def word? : Value → Option Word
  | word w => some w
  | address _ => none

def place? : Value → Option Place
  | word _ => none
  | address p => some p

def byte : Value → Nat → Byte
  | word w, k => .number (UInt8.ofNat (w.toNat >>> (8 * k)))
  | address p, k => .part p k

def ofBytes : Byte → Byte → Byte → Byte → Option Value
  | .number a, .number b, .number c, .number d =>
    some (word (BitVec.ofNat 32
      (a.toNat + 256 * b.toNat + 65536 * c.toNat + 16777216 * d.toNat)))
  | .part p 0, .part q 1, .part r 2, .part s 3 =>
    if p = q ∧ p = r ∧ p = s then some (address p) else none
  | _, _, _, _ => none

theorem ofBytes_byte (v : Value) : ofBytes (v.byte 0) (v.byte 1) (v.byte 2) (v.byte 3) = some v := by
  cases v with
  | address p => simp [byte, ofBytes]
  | word w =>
    have hw : w.toNat < 4294967296 := w.isLt
    simp only [byte, ofBytes, UInt8.toNat_ofNat', Option.some.injEq, word.injEq]
    apply BitVec.eq_of_toNat_eq
    rw [BitVec.toNat_ofNat]
    omega

end Value

inductive Location where
  | code (index : Nat)
  | data (offset : Nat)
deriving DecidableEq, Repr

structure Image where
  code : List Instr := []
  data : List UInt8 := []
  symbols : List (String × Location) := []
deriving DecidableEq, Repr

namespace Image

def target? (m : Image) (label : String) : Option Nat :=
  match m.symbols.lookup label with
  | some (.code index) => some index
  | _ => none

def place? (m : Image) (label : String) : Option Place :=
  match m.symbols.lookup label with
  | some (.data offset) => some ⟨.data, offset⟩
  | _ => none

end Image

def utf8 (s : String) : List UInt8 := s.toList.flatMap String.utf8EncodeChar

/-- A state of the machine. The heap has `brk` bytes in use. `output` has one item for each call of
a service that prints. -/
structure State where
  pc : Nat
  regs : Reg → Value
  memory : Place → Byte
  brk : Nat := 0
  output : List (List UInt8) := []

namespace State

variable (m : Image) (s : State)

def reg (r : Reg) : Value := if r = .zero then .word 0 else s.regs r

def advance : State := { s with pc := s.pc + 1 }

def set (r : Reg) (v : Value) : State :=
  { s with pc := s.pc + 1, regs := fun q ↦ if q = r then v else s.regs q }

/-- Whether a place is in use: the stack ends at offset 0 and reaches as far down as needed. -/
def mapped (p : Place) : Bool :=
  match p.region with
  | .data => 0 ≤ p.offset && p.offset < m.data.length
  | .heap => 0 ≤ p.offset && p.offset < s.brk
  | .stack => p.offset < 0

def wordMapped (p : Place) : Bool :=
  p.offset % 4 = 0 && s.mapped m p && s.mapped m (p.shift 3)

def loadWord (p : Place) : Option Value :=
  if s.wordMapped m p then
    Value.ofBytes (s.memory p) (s.memory (p.shift 1)) (s.memory (p.shift 2)) (s.memory (p.shift 3))
  else none

def putWord (p : Place) (v : Value) (q : Place) : Byte :=
  if q.region = p.region ∧ p.offset ≤ q.offset ∧ q.offset < p.offset + 4 then
    v.byte (q.offset - p.offset).toNat
  else s.memory q

def storeWord (p : Place) (v : Value) : Option State :=
  if s.wordMapped m p then some { s with memory := s.putWord p v } else none

/-- A byte of memory as a number, with its sign. -/
def loadByte (p : Place) : Option Value :=
  if s.mapped m p then
    match s.memory p with
    | .number n => some (.word (n.toBitVec.signExtend 32))
    | .part .. => none
  else none

def storeByte (p : Place) (w : Word) : Option State :=
  if s.mapped m p then
    some { s with memory := fun q ↦ if q = p then .number (UInt8.ofNat w.toNat) else s.memory q }
  else none

/-- The bytes from a place on to the next zero, of which at most `fuel` are read. -/
def bytesFrom (fuel : Nat) (p : Place) : Option (List UInt8) :=
  match fuel with
  | 0 => none
  | fuel + 1 =>
    match s.memory p with
    | .number n => if n = 0 then some [] else (n :: ·) <$> bytesFrom fuel (p.shift 1)
    | .part .. => none

/-- The string at a place, which ends inside the region of the place. -/
def string? (p : Place) : Option (List UInt8) :=
  if s.mapped m p then
    match p.region with
    | .data => s.bytesFrom (m.data.length - p.offset.toNat) p
    | .heap => s.bytesFrom (s.brk - p.offset.toNat) p
    | .stack => s.bytesFrom (-p.offset).toNat p
  else none

def operand : Address → Option Place
  | .cell label => m.place? label
  | .offset n base => (s.reg base).place?.map (·.shift n)

def jump (label : String) : Option State := (m.target? label).map fun pc ↦ { s with pc }

end State

def Service.word (s : Service) : Word := BitVec.ofNat 32 s.code

def flag (b : Bool) : Word := if b then 1 else 0

/-- What an operation on two registers gives. Sums and differences must fit, and the divisor must
not be zero. -/
def arithmetic (mnemonic : String) (a b : Word) : Option Word :=
  match mnemonic with
  | "add" => if a.saddOverflow b then none else some (a + b)
  | "sub" => if a.ssubOverflow b then none else some (a - b)
  | "mul" => some (a * b)
  | "div" => if b = 0 then none else some (a.sdiv b)
  | "slt" => some (flag (a.slt b))
  | "sle" => some (flag (a.sle b))
  | "seq" => some (flag (a = b))
  | "sne" => some (flag (a ≠ b))
  | "sgt" => some (flag (b.slt a))
  | "sge" => some (flag (b.sle a))
  | _ => none

namespace State

variable (m : Image) (s : State)

def callService : Option State := do
  let code ← (s.reg .v0).word?
  if code = Service.printInt.word then
    let w ← (s.reg .a0).word?
    return { s.advance with output := s.output ++ [utf8 (toString w.toInt)] }
  else if code = Service.printString.word then
    let bytes ← s.string? m (← (s.reg .a0).place?)
    return { s.advance with output := s.output ++ [bytes] }
  else if code = Service.allocate.word then
    let size ← (s.reg .a0).word?
    return { s.set .v0 (.address ⟨.heap, s.brk⟩) with brk := s.brk + size.toNat }
  else none

def exec : Instr → Option State
  | .li rd value => some (s.set rd (.word (BitVec.ofInt 32 value)))
  | .la rd label => (m.place? label).map fun p ↦ s.set rd (.address p)
  | .lw rd source => do return s.set rd (← s.loadWord m (← s.operand m source))
  | .sw rs target => do return (← s.storeWord m (← s.operand m target) (s.reg rs)).advance
  | .lb rd source => do return s.set rd (← s.loadByte m (← s.operand m source))
  | .sb rs target => do
    return (← s.storeByte m (← s.operand m target) (← (s.reg rs).word?)).advance
  | .move rd rs => some (s.set rd (s.reg rs))
  | .movn rd rs rt => do
    return if (← (s.reg rt).word?) = 0 then s.advance else s.set rd (s.reg rs)
  | .arith mnemonic rd rs rt => do
    let w ← arithmetic mnemonic (← (s.reg rs).word?) (← (s.reg rt).word?)
    return s.set rd (.word w)
  | .addiu rd rs value =>
    match s.reg rs with
    | .word w => some (s.set rd (.word (w + BitVec.ofInt 32 value)))
    | .address p => some (s.set rd (.address (p.shift value)))
  | .xori rd rs value => do
    return s.set rd (.word ((← (s.reg rs).word?) ^^^ BitVec.ofInt 32 value))
  | .beqz rs label => do if (← (s.reg rs).word?) = 0 then s.jump m label else return s.advance
  | .bnez rs label => do if (← (s.reg rs).word?) = 0 then return s.advance else s.jump m label
  | .j label => s.jump m label
  | .syscall => s.callService m

end State

namespace Image

variable (m : Image)

def step (s : State) : Option State := (m.code[s.pc]?).bind (s.exec m)

def Steps : State → State → Prop := Relation.ReflTransGen fun s s' ↦ m.step s = some s'

def AtExit (s : State) : Prop :=
  m.code[s.pc]? = some .syscall ∧ s.reg .v0 = .word Service.exit.word

/-- The program can start in this state: the machine is at the label `main`, the data are in place,
the stack is empty and nothing is printed yet. The other registers and the rest of the stack hold
anything. -/
structure Starts (s : State) : Prop where
  pc : m.target? "main" = some s.pc
  sp : s.regs .sp = .address ⟨.stack, 0⟩
  data (k : Nat) : k < m.data.length → s.memory ⟨.data, k⟩ = .number (m.data.getD k 0)
  brk : s.brk = 0
  output : s.output = []

end Image

end SpimCompiler.Mips
