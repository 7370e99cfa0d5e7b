import SpimCompiler.Json.Record
import SpimCompiler.Json.Writer
import SpimCompiler.Tree.Arena

namespace SpimCompiler

open Json (Field)

class Encoding (α : Type) where
  toJson : α → Json
  ofJson? : Json → Option α

namespace Encoding

instance : Encoding String where
  toJson := .str
  ofJson?
    | .str s => some s
    | _ => none

instance : Encoding Bool where
  toJson := .bool
  ofJson?
    | .bool b => some b
    | _ => none

instance : Encoding Int32 where
  toJson n := .int n.toInt
  ofJson?
    | .int n =>
      if Int32.minValue.toInt ≤ n ∧ n ≤ Int32.maxValue.toInt then some (Int32.ofInt n) else none
    | _ => none

instance : Encoding NodeId where
  toJson id := .int id.index
  ofJson?
    | .int n => if 0 ≤ n ∧ n < UInt32.size then some (NodeId.ofIndex n.toNat) else none
    | _ => none

instance {α : Type} [Encoding α] : Encoding (Option α) where
  toJson
    | none => .null
    | some a => toJson a
  ofJson?
    | .null => some none
    | v => (ofJson? v).map some

instance {α : Type} [Encoding α] : Encoding (List α) where
  toJson as := .arr (as.map toJson)
  ofJson?
    | .arr vs => vs.mapM ofJson?
    | _ => none

@[reducible]
def ofNamed (α : Type) [Named α] : Encoding α where
  toJson a := .str (Named.name a)
  ofJson? v := v.variantName?.bind Named.ofName?

instance : Encoding TypeName := ofNamed TypeName

instance : Encoding UnaryOp := ofNamed UnaryOp

instance : Encoding MulDivOp := ofNamed MulDivOp

instance : Encoding AddSubOp := ofNamed AddSubOp

instance : Encoding CompareOp := ofNamed CompareOp

instance : Encoding Parameter where
  toJson p := Json.record [⟨"name", false⟩, ⟨"type_name", false⟩] [toJson p.name, toJson p.type]
  ofJson? v := do
    match ← Json.fieldValues? [⟨"name", false⟩, ⟨"type_name", false⟩] v with
    | [name, type] => return ⟨← ofJson? name, ← ofJson? type⟩
    | _ => none

end Encoding

open Encoding

def Kind.fields : Kind → List Field
  | .program => [⟨"functions", false⟩, ⟨"main", false⟩]
  | .executableBlock => [⟨"variables", true⟩, ⟨"statements", false⟩]
  | .variableBlock => [⟨"declarations", false⟩]
  | .variableDeclaration => [⟨"name", false⟩, ⟨"type_name", false⟩, ⟨"init", true⟩]
  | .statementBlock => [⟨"statements", false⟩]
  | .assignment => [⟨"name", false⟩, ⟨"value", false⟩]
  | .ifStatement => [⟨"condition", false⟩, ⟨"then_block", false⟩, ⟨"else_block", true⟩]
  | .whileStatement => [⟨"condition", false⟩, ⟨"body", false⟩]
  | .printStatement => [⟨"value", false⟩]
  | .functionDefinition =>
    [⟨"name", false⟩, ⟨"parameters", false⟩, ⟨"return_type", true⟩, ⟨"body", false⟩]
  | .functionCall => [⟨"name", false⟩, ⟨"arguments", false⟩]
  | .returnStatement => [⟨"value", true⟩]
  | .intLiteral => [⟨"value", false⟩]
  | .boolLiteral => [⟨"value", false⟩]
  | .stringLiteral => [⟨"value", false⟩]
  | .parenthesized => [⟨"expression", false⟩]
  | .unary => [⟨"operator", false⟩, ⟨"operand", false⟩]
  | .mulDiv => [⟨"operator", false⟩, ⟨"lhs", false⟩, ⟨"rhs", false⟩]
  | .addSub => [⟨"operator", false⟩, ⟨"lhs", false⟩, ⟨"rhs", false⟩]
  | .compare => [⟨"operator", false⟩, ⟨"lhs", false⟩, ⟨"rhs", false⟩]
  | .variableRef => [⟨"name", false⟩]

namespace Node

variable {ι : Type} [Encoding ι]

def values : Node ι → List Json
  | program functions main => [toJson functions, toJson main]
  | executableBlock vars statements => [toJson vars, toJson statements]
  | variableBlock declarations => [toJson declarations]
  | variableDeclaration name type init => [toJson name, toJson type, toJson init]
  | statementBlock statements => [toJson statements]
  | assignment name value => [toJson name, toJson value]
  | ifStatement condition thenBlock elseBlock =>
    [toJson condition, toJson thenBlock, toJson elseBlock]
  | whileStatement condition body => [toJson condition, toJson body]
  | printStatement value => [toJson value]
  | functionDefinition name parameters returnType body =>
    [toJson name, toJson parameters, toJson returnType, toJson body]
  | functionCall name arguments => [toJson name, toJson arguments]
  | returnStatement value => [toJson value]
  | intLiteral value => [toJson value]
  | boolLiteral value => [toJson value]
  | stringLiteral value => [toJson value]
  | parenthesized expression => [toJson expression]
  | unary op operand => [toJson op, toJson operand]
  | mulDiv op lhs rhs => [toJson op, toJson lhs, toJson rhs]
  | addSub op lhs rhs => [toJson op, toJson lhs, toJson rhs]
  | compare op lhs rhs => [toJson op, toJson lhs, toJson rhs]
  | variableRef name => [toJson name]

def ofValues? : Kind → List Json → Option (Node ι)
  | .program, [functions, main] => return program (← ofJson? functions) (← ofJson? main)
  | .executableBlock, [vars, statements] =>
    return executableBlock (← ofJson? vars) (← ofJson? statements)
  | .variableBlock, [declarations] => return variableBlock (← ofJson? declarations)
  | .variableDeclaration, [name, type, init] =>
    return variableDeclaration (← ofJson? name) (← ofJson? type) (← ofJson? init)
  | .statementBlock, [statements] => return statementBlock (← ofJson? statements)
  | .assignment, [name, value] => return assignment (← ofJson? name) (← ofJson? value)
  | .ifStatement, [condition, thenBlock, elseBlock] =>
    return ifStatement (← ofJson? condition) (← ofJson? thenBlock) (← ofJson? elseBlock)
  | .whileStatement, [condition, body] =>
    return whileStatement (← ofJson? condition) (← ofJson? body)
  | .printStatement, [value] => return printStatement (← ofJson? value)
  | .functionDefinition, [name, parameters, returnType, body] =>
    return functionDefinition (← ofJson? name) (← ofJson? parameters) (← ofJson? returnType)
      (← ofJson? body)
  | .functionCall, [name, arguments] =>
    return functionCall (← ofJson? name) (← ofJson? arguments)
  | .returnStatement, [value] => return returnStatement (← ofJson? value)
  | .intLiteral, [value] => return intLiteral (← ofJson? value)
  | .boolLiteral, [value] => return boolLiteral (← ofJson? value)
  | .stringLiteral, [value] => return stringLiteral (← ofJson? value)
  | .parenthesized, [expression] => return parenthesized (← ofJson? expression)
  | .unary, [op, operand] => return unary (← ofJson? op) (← ofJson? operand)
  | .mulDiv, [op, lhs, rhs] => return mulDiv (← ofJson? op) (← ofJson? lhs) (← ofJson? rhs)
  | .addSub, [op, lhs, rhs] => return addSub (← ofJson? op) (← ofJson? lhs) (← ofJson? rhs)
  | .compare, [op, lhs, rhs] => return compare (← ofJson? op) (← ofJson? lhs) (← ofJson? rhs)
  | .variableRef, [name] => return variableRef (← ofJson? name)
  | _, _ => none

def toJson (n : Node ι) : Json :=
  Json.record (⟨"kind", false⟩ :: n.kind.fields) (.str n.kind.name :: n.values)

def ofRecord? (k : Kind) (fields : Json) : Option (Node ι) :=
  (Json.fieldValues? k.fields fields).bind (ofValues? k)

def ofJson? : Json → Option (Node ι)
  | .obj members =>
    match members.filter (fun m => m.1 == "kind") with
    | [(_, .str k)] => do
      ofRecord? (← Named.ofName? k) (.obj (members.filter fun m => m.1 != "kind"))
    | _ => none
  | .arr (.str k :: values) => do ofRecord? (← Named.ofName? k) (.arr values)
  | _ => none

end Node

namespace Arena

def toJson (a : Arena) : Json :=
  .obj [("nodes", .arr (a.nodes.toList.map Node.toJson)), ("root", Encoding.toJson a.root)]

def text (a : Arena) : String := a.toJson.compactText

end Arena

end SpimCompiler
