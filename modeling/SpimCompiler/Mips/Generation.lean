import SpimCompiler.Analysis.Result
import SpimCompiler.Mips.Storage
import SpimCompiler.Mips.Template

namespace SpimCompiler

open Mips

def MulDivOp.mnemonic : MulDivOp → String
  | mul => "mul"
  | div => "div"

def AddSubOp.mnemonic : AddSubOp → String
  | add => "add"
  | sub => "sub"

def CompareOp.mnemonic : CompareOp → String
  | lt => "slt"
  | le => "sle"
  | eq => "seq"
  | ne => "sne"
  | gt => "sgt"
  | ge => "sge"

abbrev CodeTable (α : Type) := NodeTable α

def CodeTable.write {α : Type} (t : CodeTable α) (id : NodeId) (code : α) :
    CodeTable α × Option Record :=
  (NodeTable.write t id code, if t.contains id then some (.recoded id) else none)

structure Generation where
  code : CodeTable Fragment := {}
  pool : Pool := {}
  storage : Storage := {}
  labels : Labels := {}
  current : ScopeId := ScopeTree.globalScope

structure Assembly where
  text : String
  code : CodeTable Fragment
  pool : Pool
  cells : Array Cell

namespace Generation

def emit (id : NodeId) (code : Fragment) : Pass Generation Unit := do
  Pass.log (.coded id code)
  let (table, again) := CodeTable.write (← Pass.state).code id code
  Pass.update fun g => { g with code := table }
  again.forM Pass.log

def fragment (id : NodeId) : Pass Generation Fragment := do
  Pass.ofOption (.missingCode id) ((← Pass.state).code.get? id)

def fragments (ids : List NodeId) : Pass Generation Fragment := do
  return (← ids.mapM fragment).flatten

def mint (base : String) : Pass Generation String := do
  let (label, labels) := (← Pass.state).labels.mint base
  Pass.update fun g => { g with labels }
  return label

def cellFor (scopes : ScopeTree) (name : String) : Pass Generation String := do
  let g ← Pass.state
  let scope ← Pass.ofOption (.undefinedVariable name) (scopes.definingScope? g.current name)
  let (label, storage) := g.storage.allocate (scopes.qualifiedName scope) name
  Pass.update fun g => { g with storage }
  return label

def typeOf (types : TypeTable) (id : NodeId) : Pass Generation Ty :=
  Pass.ofOption (.missingType id) (types.get? id)

def enterScope (scopes : ScopeTree) : Pass Generation Unit := do
  let g ← Pass.state
  let main ← Pass.ofOption (.missingScope ScopeTree.mainName)
    (scopes.childNamed? g.current ScopeTree.mainName)
  Pass.update fun g => { g with current := main }

def leaveScope (scopes : ScopeTree) : Pass Generation Unit :=
  Pass.update fun g => { g with current := scopes.leave g.current }

def mintConcat : Pass Generation ConcatLabels := do
  let measureLeft ← mint "concat_measure_left"
  let measureRight ← mint "concat_measure_right"
  let allocate ← mint "concat_allocate"
  let copyLeft ← mint "concat_copy_left"
  let copyRight ← mint "concat_copy_right"
  return { measureLeft, measureRight, allocate, copyLeft, copyRight }

def binary (mnemonic : String) (lhs rhs : NodeId) : Pass Generation Fragment := do
  let l ← fragment lhs
  let r ← fragment rhs
  return Template.binary mnemonic l r

/-- A truth value is printed by its name, so it has a template of its own. -/
def printed (types : TypeTable) (value : NodeId) : Pass Generation Fragment := do
  let operand ← fragment value
  match ← typeOf types value with
  | .bool => return Template.printBool operand
  | .int => return Template.printBy operand Service.printInt.code
  | .string => return Template.printBy operand Service.printString.code
  | type => throw (.unprintable type)

def programCode (main : NodeId) : Pass Generation Fragment := do
  let g ← Pass.state
  let cells := g.storage.cells.toList.map fun c => Line.word c.label
  let strings := g.pool.entries.toList.map fun c => Line.asciiz c.label c.value
  return Template.program cells strings (← fragment main)

def ifCode (condition thenBlock : NodeId) : Option NodeId → Pass Generation Fragment
  | none => do
    let endLabel ← mint "endif"
    let c ← fragment condition
    let t ← fragment thenBlock
    return Template.ifThen c t endLabel
  | some elseBlock => do
    let elseLabel ← mint "else"
    let endLabel ← mint "endif"
    let c ← fragment condition
    let t ← fragment thenBlock
    let e ← fragment elseBlock
    return Template.ifElse c t e elseLabel endLabel

def whileCode (condition body : NodeId) : Pass Generation Fragment := do
  let startLabel ← mint "loop_start"
  let endLabel ← mint "loop_end"
  let c ← fragment condition
  let b ← fragment body
  return Template.whileLoop c b startLabel endLabel

def addSubCode (types : TypeTable) (id : NodeId) (op : AddSubOp) (lhs rhs : NodeId) :
    Pass Generation Fragment := do
  if (← typeOf types id) = .string then
    let labels ← mintConcat
    let l ← fragment lhs
    let r ← fragment rhs
    return Template.concatStrings l r labels
  else
    binary op.mnemonic lhs rhs

/-- A cell starts as zero, so a declaration without a value needs no code. -/
def declarationCode (scopes : ScopeTree) (name : String) (init : Option NodeId) :
    Pass Generation Fragment := do
  let cell ← cellFor scopes name
  match init with
  | some value => return Template.storeVariable (← fragment value) cell
  | none => return []

def stringCode (value : String) : Pass Generation Fragment := do
  let label ← mint "string"
  Pass.update fun g => { g with pool := g.pool.push label value }
  return Template.loadAddress label

def codeOf (r : Analysis) (id : NodeId) : Node NodeId → Pass Generation (Option Fragment)
  | .program _ main => some <$> programCode main
  | .executableBlock vars statements => some <$> fragments (vars.toList ++ [statements])
  | .variableBlock declarations => some <$> fragments declarations
  | .variableDeclaration name _ init => some <$> declarationCode r.scopes name init
  | .statementBlock statements => some <$> fragments statements
  | .assignment name value => do
    let cell ← cellFor r.scopes name
    return some (Template.storeVariable (← fragment value) cell)
  | .ifStatement condition thenBlock elseBlock => some <$> ifCode condition thenBlock elseBlock
  | .whileStatement condition body => some <$> whileCode condition body
  | .printStatement value => some <$> printed r.types value
  | .intLiteral value => return some (Template.loadImmediate value.toInt)
  | .boolLiteral value => return some (Template.loadImmediate (if value then 1 else 0))
  | .stringLiteral value => some <$> stringCode value
  | .parenthesized expression => some <$> fragment expression
  | .unary .minus operand => do return some (Template.unaryMinus (← fragment operand))
  | .unary .not operand => do return some (Template.logicalNot (← fragment operand))
  | .mulDiv op lhs rhs => some <$> binary op.mnemonic lhs rhs
  | .addSub op lhs rhs => some <$> addSubCode r.types id op lhs rhs
  | .compare op lhs rhs => some <$> binary op.mnemonic lhs rhs
  | .variableRef name => do return some (Template.loadVariable (← cellFor r.scopes name))
  | .functionDefinition .. | .functionCall .. | .returnStatement .. => return none

def enter (r : Analysis) : Node NodeId → Pass Generation Bool
  | .executableBlock .. => do
    enterScope r.scopes
    return true
  | .functionDefinition .. => return false
  | _ => return true

def exit (r : Analysis) (id : NodeId) (n : Node NodeId) : Pass Generation Unit := do
  (← codeOf r id n).forM (emit id)
  if n.kind = .executableBlock then
    leaveScope r.scopes

def visitor (r : Analysis) : Visitor Generation := ⟨fun _ => enter r, exit r⟩

end Generation

structure GenerationError where
  errors : Nat
deriving DecidableEq, Repr

def GenerationError.message (e : GenerationError) : String :=
  s!"refusing to generate code for a program with {e.errors} semantic error(s)"

def Arena.generate (a : Arena) (root : NodeId) (r : Analysis) :
    Pass Unit (Except GenerationError Assembly) := do
  if r.isOk then
    let ((), g) ← Pass.inside {} (a.walk (Generation.visitor r) root)
    return .ok ⟨((g.code.get? root).getD []).text, g.code, g.pool, g.storage.cells⟩
  else
    return .error ⟨r.report.size⟩

end SpimCompiler
