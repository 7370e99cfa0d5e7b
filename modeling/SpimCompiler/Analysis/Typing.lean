import SpimCompiler.Diagnostic
import SpimCompiler.NodeTable
import SpimCompiler.Scope
import SpimCompiler.Tree.Phrase
import SpimCompiler.Tree.Walk

namespace SpimCompiler

def UnaryOp.resultType : UnaryOp → Ty → Ty
  | minus, .int => .int
  | not, .bool => .bool
  | _, _ => .error

def MulDivOp.resultType : Ty → Ty → Ty
  | .int, .int => .int
  | _, _ => .error

def AddSubOp.resultType : AddSubOp → Ty → Ty → Ty
  | _, .int, .int => .int
  | add, .string, .string => .string
  | _, _, _ => .error

def CompareOp.resultType : Ty → Ty → Ty
  | .int, .int => .bool
  | _, _ => .error

abbrev TypeTable := NodeTable Ty

namespace TypeTable

def write (t : TypeTable) (id : NodeId) (type : Ty) : TypeTable × Option Record :=
  (NodeTable.write t id type, (t.get? id).map fun existing => .retyped id existing type)

def toJson (t : TypeTable) : Json :=
  .obj (t.toList.map fun (id, type) => (toString id.index, .str type.name))

end TypeTable

structure Typing where
  scopes : ScopeTree
  current : ScopeId := ScopeTree.globalScope
  types : TypeTable := {}
  report : Report := #[]

namespace Typing

def complain (id : NodeId) (c : Complaint) : Pass Typing Unit :=
  Pass.update fun t => { t with report := t.report.push (.of id c) }

/-- The type of a node, `error` if it has none. -/
def typeOf (id : NodeId) : Pass Typing Ty := do
  return ((← Pass.state).types.get? id).getD .error

def resolve? (name : String) : Pass Typing (Option Symbol) := do
  let t ← Pass.state
  return t.scopes.resolve? t.current name

def assign (kind : Kind) (id : NodeId) (type : Ty) : Pass Typing Unit := do
  Pass.log (.typed kind id type)
  let (types, again) := (← Pass.state).types.write id type
  Pass.update fun t => { t with types }
  again.forM Pass.log

def assignOrComplain (kind : Kind) (id : NodeId) (type : Ty) (c : Complaint) :
    Pass Typing Unit := do
  assign kind id type
  if type.isError then
    complain id c

def enterScope : Pass Typing Unit := do
  let t ← Pass.state
  let main ← Pass.ofOption (.missingScope ScopeTree.mainName)
    (t.scopes.childNamed? t.current ScopeTree.mainName)
  Pass.update fun t => { t with current := main }

def leaveScope : Pass Typing Unit :=
  Pass.update fun t => { t with current := t.scopes.leave t.current }

def checkDeclaration (id : NodeId) (name : String) (declared : Ty) (init : Option NodeId) :
    Pass Typing Unit := do
  let t ← Pass.state
  match t.scopes.local? t.current name with
  | some existing => complain id (.redeclared name existing.type)
  | none =>
    Pass.update fun t => { t with scopes := (t.scopes.define t.current name declared).2 }
    Pass.log (.defined name declared (t.scopes.nameOf t.current))
    init.forM fun value => do
      let type ← typeOf value
      if type ≠ declared then
        complain id (.wrongType type name declared)

def checkAssignment (id : NodeId) (name : String) (value : NodeId) : Pass Typing Unit := do
  match ← resolve? name with
  | some x =>
    let type ← typeOf value
    if x.type ≠ type then
      complain id (.wrongType type name x.type)
  | none => complain id (.undeclaredTarget name)

def checkCondition (a : Arena) (id : NodeId) (statement : String) (condition : NodeId) :
    Pass Typing Unit := do
  let type ← typeOf condition
  if type ≠ .bool then
    complain id (.conditionNotBool statement (← Pass.ofExcept (a.phrase condition)) type)

def checkPrint (a : Arena) (id : NodeId) (value : NodeId) : Pass Typing Unit := do
  if (← typeOf value).isError then
    complain id (.unprintable (← Pass.ofExcept (a.phrase value)))

def checkVariable (id : NodeId) (name : String) : Pass Typing Unit := do
  match ← resolve? name with
  | some x => assign .variableRef id x.type
  | none =>
    assign .variableRef id .error
    complain id (.undeclaredVariable name)

def enter : Node NodeId → Pass Typing Bool
  | .executableBlock .. => do
    enterScope
    return true
  | .functionDefinition .. => return false
  | _ => return true

def exit (a : Arena) (id : NodeId) : Node NodeId → Pass Typing Unit
  | .executableBlock .. => leaveScope
  | .variableDeclaration name type init => checkDeclaration id name type.toTy init
  | .assignment name value => checkAssignment id name value
  | .ifStatement condition .. => checkCondition a id "If" condition
  | .whileStatement condition _ => checkCondition a id "While" condition
  | .printStatement value => checkPrint a id value
  | .functionCall .. => assign .functionCall id .error
  | .intLiteral _ => assign .intLiteral id .int
  | .boolLiteral _ => assign .boolLiteral id .bool
  | .stringLiteral _ => assign .stringLiteral id .string
  | .parenthesized expression => do assign .parenthesized id (← typeOf expression)
  | .unary op operand => do
    let type ← typeOf operand
    assignOrComplain .unary id (op.resultType type) (.unary op.sign type)
  | .mulDiv op lhs rhs => do
    let l ← typeOf lhs
    let r ← typeOf rhs
    assignOrComplain .mulDiv id (MulDivOp.resultType l r) (.binary op.sign l r)
  | .addSub op lhs rhs => do
    let l ← typeOf lhs
    let r ← typeOf rhs
    assignOrComplain .addSub id (op.resultType l r) (.binary op.sign l r)
  | .compare op lhs rhs => do
    let l ← typeOf lhs
    let r ← typeOf rhs
    assignOrComplain .compare id (CompareOp.resultType l r) (.binary op.sign l r)
  | .variableRef name => checkVariable id name
  | .program .. | .variableBlock .. | .statementBlock .. | .functionDefinition ..
  | .returnStatement .. => return ()

def visitor (a : Arena) : Visitor Typing := ⟨fun _ => enter, exit a⟩

end Typing

end SpimCompiler
