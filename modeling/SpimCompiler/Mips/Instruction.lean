
namespace SpimCompiler.Mips

inductive Reg where
  | zero
  | v0
  | a0
  | t0
  | t1
  | t2
  | t3
  | t4
  | t5
  | sp
deriving DecidableEq, Repr

def Reg.text : Reg → String
  | zero => "$zero"
  | v0 => "$v0"
  | a0 => "$a0"
  | t0 => "$t0"
  | t1 => "$t1"
  | t2 => "$t2"
  | t3 => "$t3"
  | t4 => "$t4"
  | t5 => "$t5"
  | sp => "$sp"

inductive Address where
  | cell (label : String)
  | offset (n : Int) (base : Reg)
deriving DecidableEq, Repr

def Address.text : Address → String
  | cell label => label
  | offset n base => s!"{n}({base.text})"

/-- An instruction. `arith` combines two registers by the operation with the given mnemonic. -/
inductive Instr where
  | li (rd : Reg) (value : Int)
  | la (rd : Reg) (label : String)
  | lw (rd : Reg) (source : Address)
  | sw (rs : Reg) (target : Address)
  | lb (rd : Reg) (source : Address)
  | sb (rs : Reg) (target : Address)
  | move (rd rs : Reg)
  | movn (rd rs rt : Reg)
  | arith (mnemonic : String) (rd rs rt : Reg)
  | addiu (rd rs : Reg) (value : Int)
  | xori (rd rs : Reg) (value : Int)
  | beqz (rs : Reg) (label : String)
  | bnez (rs : Reg) (label : String)
  | j (label : String)
  | syscall
deriving DecidableEq, Repr

def padRight (width : Nat) (s : String) : String :=
  s ++ String.ofList (List.replicate (width - s.length) ' ')

def instruction (mnemonic operands : String) : String :=
  padRight 6 mnemonic ++ " " ++ operands

def Instr.text : Instr → String
  | li rd value => instruction "li" s!"{rd.text} {value}"
  | la rd label => instruction "la" s!"{rd.text} {label}"
  | lw rd source => instruction "lw" s!"{rd.text} {source.text}"
  | sw rs target => instruction "sw" s!"{rs.text} {target.text}"
  | lb rd source => instruction "lb" s!"{rd.text} {source.text}"
  | sb rs target => instruction "sb" s!"{rs.text} {target.text}"
  | move rd rs => instruction "move" s!"{rd.text} {rs.text}"
  | movn rd rs rt => instruction "movn" s!"{rd.text} {rs.text} {rt.text}"
  | arith mnemonic rd rs rt => instruction mnemonic s!"{rd.text} {rs.text} {rt.text}"
  | addiu rd rs value => instruction "addiu" s!"{rd.text} {rs.text} {value}"
  | xori rd rs value => instruction "xori" s!"{rd.text} {rs.text} {value}"
  | beqz rs label => instruction "beqz" s!"{rs.text} {label}"
  | bnez rs label => instruction "bnez" s!"{rs.text} {label}"
  | j label => instruction "j" label
  | syscall => "syscall"

end SpimCompiler.Mips
