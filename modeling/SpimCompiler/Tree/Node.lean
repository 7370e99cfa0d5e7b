
namespace SpimCompiler

/-- A finite set of alternatives, each with the name it has in written programs and in messages.
No two have the same name. -/
class Named (α : Type) where
  all : List α
  name : α → String
  find?_name (a : α) : all.find? (fun b => name b == name a) = some a

namespace Named

variable {α : Type} [Named α]

def ofName? (s : String) : Option α := (all : List α).find? fun a => name a == s

@[simp]
theorem ofName?_name (a : α) : ofName? (name a) = some a := find?_name a

end Named

structure NodeId where
  val : UInt32
deriving DecidableEq, Hashable, Repr

namespace NodeId

def index (id : NodeId) : Nat := id.val.toNat

def ofIndex (i : Nat) : NodeId := ⟨UInt32.ofNat i⟩

def text (id : NodeId) : String := "#" ++ toString id.index

instance : Ord NodeId := ⟨fun a b => compare a.val b.val⟩

end NodeId

inductive TypeName where
  | int
  | bool
  | string
deriving DecidableEq, Repr

namespace TypeName

def name : TypeName → String
  | int => "Int"
  | bool => "Bool"
  | string => "String"

instance : Named TypeName := ⟨[int, bool, string], name, fun a => by cases a <;> rfl⟩

end TypeName

inductive UnaryOp where
  | minus
  | not
deriving DecidableEq, Repr

namespace UnaryOp

def name : UnaryOp → String
  | minus => "Minus"
  | not => "Not"

instance : Named UnaryOp := ⟨[minus, not], name, fun a => by cases a <;> rfl⟩

def sign : UnaryOp → String
  | minus => "-"
  | not => "!"

end UnaryOp

inductive MulDivOp where
  | mul
  | div
deriving DecidableEq, Repr

namespace MulDivOp

def name : MulDivOp → String
  | mul => "Mul"
  | div => "Div"

instance : Named MulDivOp := ⟨[mul, div], name, fun a => by cases a <;> rfl⟩

def sign : MulDivOp → String
  | mul => "*"
  | div => "/"

end MulDivOp

inductive AddSubOp where
  | add
  | sub
deriving DecidableEq, Repr

namespace AddSubOp

def name : AddSubOp → String
  | add => "Add"
  | sub => "Sub"

instance : Named AddSubOp := ⟨[add, sub], name, fun a => by cases a <;> rfl⟩

def sign : AddSubOp → String
  | add => "+"
  | sub => "-"

end AddSubOp

inductive CompareOp where
  | lt
  | le
  | eq
  | ne
  | gt
  | ge
deriving DecidableEq, Repr

namespace CompareOp

def name : CompareOp → String
  | lt => "Lt"
  | le => "Le"
  | eq => "Eq"
  | ne => "Ne"
  | gt => "Gt"
  | ge => "Ge"

instance : Named CompareOp := ⟨[lt, le, eq, ne, gt, ge], name, fun a => by cases a <;> rfl⟩

def sign : CompareOp → String
  | lt => "<"
  | le => "<="
  | eq => "=="
  | ne => "!="
  | gt => ">"
  | ge => ">="

end CompareOp

structure Parameter where
  name : String
  type : TypeName
deriving DecidableEq, Repr

inductive Kind where
  | program
  | executableBlock
  | variableBlock
  | variableDeclaration
  | statementBlock
  | assignment
  | ifStatement
  | whileStatement
  | printStatement
  | functionDefinition
  | functionCall
  | returnStatement
  | intLiteral
  | boolLiteral
  | stringLiteral
  | parenthesized
  | unary
  | mulDiv
  | addSub
  | compare
  | variableRef
deriving DecidableEq, Repr

namespace Kind

def name : Kind → String
  | program => "Program"
  | executableBlock => "ExecutableBlock"
  | variableBlock => "VariableBlock"
  | variableDeclaration => "VariableDeclaration"
  | statementBlock => "StatementBlock"
  | assignment => "Assignment"
  | ifStatement => "IfStatement"
  | whileStatement => "WhileStatement"
  | printStatement => "PrintStatement"
  | functionDefinition => "FunctionDefinition"
  | functionCall => "FunctionCall"
  | returnStatement => "Return"
  | intLiteral => "IntLiteral"
  | boolLiteral => "BoolLiteral"
  | stringLiteral => "StringLiteral"
  | parenthesized => "Parenthesized"
  | unary => "UnaryOp"
  | mulDiv => "MulDiv"
  | addSub => "AddSub"
  | compare => "Compare"
  | variableRef => "VariableRef"

instance : Named Kind where
  all := [program, executableBlock, variableBlock, variableDeclaration, statementBlock, assignment,
    ifStatement, whileStatement, printStatement, functionDefinition, functionCall, returnStatement,
    intLiteral, boolLiteral, stringLiteral, parenthesized, unary, mulDiv, addSub, compare,
    variableRef]
  name := name
  find?_name a := by cases a <;> rfl

def isExpression : Kind → Bool
  | intLiteral | boolLiteral | stringLiteral | parenthesized | unary | mulDiv | addSub | compare
  | variableRef | functionCall => true
  | _ => false

end Kind

/-- A node whose children are named by `ι`. The text of a string literal is kept as it stands
between its quotes, escape sequences included. -/
inductive Node (ι : Type) where
  | program (functions : List ι) (main : ι)
  | executableBlock (vars : Option ι) (statements : ι)
  | variableBlock (declarations : List ι)
  | variableDeclaration (name : String) (type : TypeName) (init : Option ι)
  | statementBlock (statements : List ι)
  | assignment (name : String) (value : ι)
  | ifStatement (condition thenBlock : ι) (elseBlock : Option ι)
  | whileStatement (condition body : ι)
  | printStatement (value : ι)
  | functionDefinition (name : String) (parameters : List Parameter)
      (returnType : Option TypeName) (body : ι)
  | functionCall (name : String) (arguments : List ι)
  | returnStatement (value : Option ι)
  | intLiteral (value : Int32)
  | boolLiteral (value : Bool)
  | stringLiteral (value : String)
  | parenthesized (expression : ι)
  | unary (op : UnaryOp) (operand : ι)
  | mulDiv (op : MulDivOp) (lhs rhs : ι)
  | addSub (op : AddSubOp) (lhs rhs : ι)
  | compare (op : CompareOp) (lhs rhs : ι)
  | variableRef (name : String)
deriving DecidableEq

namespace Node

variable {ι κ : Type}

def kind : Node ι → Kind
  | program .. => .program
  | executableBlock .. => .executableBlock
  | variableBlock .. => .variableBlock
  | variableDeclaration .. => .variableDeclaration
  | statementBlock .. => .statementBlock
  | assignment .. => .assignment
  | ifStatement .. => .ifStatement
  | whileStatement .. => .whileStatement
  | printStatement .. => .printStatement
  | functionDefinition .. => .functionDefinition
  | functionCall .. => .functionCall
  | returnStatement .. => .returnStatement
  | intLiteral .. => .intLiteral
  | boolLiteral .. => .boolLiteral
  | stringLiteral .. => .stringLiteral
  | parenthesized .. => .parenthesized
  | unary .. => .unary
  | mulDiv .. => .mulDiv
  | addSub .. => .addSub
  | compare .. => .compare
  | variableRef .. => .variableRef

def isExpression (n : Node ι) : Bool := n.kind.isExpression

def children : Node ι → List ι
  | program functions main => functions ++ [main]
  | executableBlock vars statements => vars.toList ++ [statements]
  | variableBlock declarations => declarations
  | variableDeclaration _ _ init => init.toList
  | statementBlock statements => statements
  | assignment _ value => [value]
  | ifStatement condition thenBlock elseBlock => condition :: thenBlock :: elseBlock.toList
  | whileStatement condition body => [condition, body]
  | printStatement value => [value]
  | functionDefinition _ _ _ body => [body]
  | functionCall _ arguments => arguments
  | returnStatement value => value.toList
  | parenthesized expression => [expression]
  | unary _ operand => [operand]
  | mulDiv _ lhs rhs | addSub _ lhs rhs | compare _ lhs rhs => [lhs, rhs]
  | intLiteral _ | boolLiteral _ | stringLiteral _ | variableRef _ => []

def map (f : ι → κ) : Node ι → Node κ
  | program functions main => program (functions.map f) (f main)
  | executableBlock vars statements => executableBlock (vars.map f) (f statements)
  | variableBlock declarations => variableBlock (declarations.map f)
  | variableDeclaration name type init => variableDeclaration name type (init.map f)
  | statementBlock statements => statementBlock (statements.map f)
  | assignment name value => assignment name (f value)
  | ifStatement condition thenBlock elseBlock =>
    ifStatement (f condition) (f thenBlock) (elseBlock.map f)
  | whileStatement condition body => whileStatement (f condition) (f body)
  | printStatement value => printStatement (f value)
  | functionDefinition name parameters returnType body =>
    functionDefinition name parameters returnType (f body)
  | functionCall name arguments => functionCall name (arguments.map f)
  | returnStatement value => returnStatement (value.map f)
  | intLiteral value => intLiteral value
  | boolLiteral value => boolLiteral value
  | stringLiteral value => stringLiteral value
  | parenthesized expression => parenthesized (f expression)
  | unary op operand => unary op (f operand)
  | mulDiv op lhs rhs => mulDiv op (f lhs) (f rhs)
  | addSub op lhs rhs => addSub op (f lhs) (f rhs)
  | compare op lhs rhs => compare op (f lhs) (f rhs)
  | variableRef name => variableRef name

@[simp]
theorem children_map (f : ι → κ) (n : Node ι) : (n.map f).children = n.children.map f := by
  cases n <;> simp [map, children] <;> cases ‹Option ι› <;> rfl

@[simp]
theorem kind_map (f : ι → κ) (n : Node ι) : (n.map f).kind = n.kind := by
  cases n <;> rfl

@[simp]
theorem isExpression_map (f : ι → κ) (n : Node ι) : (n.map f).isExpression = n.isExpression := by
  simp [isExpression]

end Node

end SpimCompiler
