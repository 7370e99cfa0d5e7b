import SpimCompiler.Json.Writer
import SpimCompiler.Tree.Encoding
import SpimCompiler.Ty

namespace SpimCompiler

inductive Category where
  | unsupportedLanguageFeature
  | duplicateName
  | undefinedName
  | assignToWrongType
  | conditionNotBool
  | invalidNegation
  | invalidBinaryOp
  | unprintableExpression
deriving DecidableEq, Repr

namespace Category

def name : Category → String
  | unsupportedLanguageFeature => "UNSUPPORTED_LANGUAGE_FEATURE"
  | duplicateName => "DUPLICATE_NAME"
  | undefinedName => "UNDEFINED_NAME"
  | assignToWrongType => "ASSIGN_TO_WRONG_TYPE"
  | conditionNotBool => "CONDITION_NOT_BOOL"
  | invalidNegation => "INVALID_NEGATION"
  | invalidBinaryOp => "INVALID_BINARY_OP"
  | unprintableExpression => "UNPRINTABLE_EXPRESSION"

instance : Named Category where
  all := [unsupportedLanguageFeature, duplicateName, undefinedName, assignToWrongType,
    conditionNotBool, invalidNegation, invalidBinaryOp, unprintableExpression]
  name := name
  find?_name a := by cases a <;> rfl

end Category

/-- What a program does wrong. A phrase is the source text of the expression in question. -/
inductive Complaint where
  | functionDefinition
  | functionCall
  | returnStatement
  | redeclared (name : String) (existing : Ty)
  | undeclaredTarget (name : String)
  | undeclaredVariable (name : String)
  | wrongType (value : Ty) (name : String) (declared : Ty)
  | conditionNotBool (statement phrase : String) (type : Ty)
  | unprintable (phrase : String)
  | unary (sign : String) (operand : Ty)
  | binary (sign : String) (lhs rhs : Ty)
deriving DecidableEq, Repr

namespace Complaint

def category : Complaint → Category
  | functionDefinition | functionCall | returnStatement => .unsupportedLanguageFeature
  | redeclared .. => .duplicateName
  | undeclaredTarget .. | undeclaredVariable .. => .undefinedName
  | wrongType .. => .assignToWrongType
  | conditionNotBool .. => .conditionNotBool
  | unprintable .. => .unprintableExpression
  | unary .. => .invalidNegation
  | binary .. => .invalidBinaryOp

def message : Complaint → String
  | functionDefinition => "this implementation does not support function definitions"
  | functionCall => "this implementation does not support function calls"
  | returnStatement => "this implementation does not support return statements"
  | redeclared name existing => s!"Can't redeclare {name}; already declared as {existing.name}"
  | undeclaredTarget name => s!"Assignment target {name} not declared"
  | undeclaredVariable name => s!"Variable {name} is not declared"
  | wrongType value name declared =>
    s!"Can't assign {value.name} expression to variable {name} of type {declared.name}"
  | conditionNotBool statement phrase type =>
    s!"{statement} condition {phrase} has type {type.name} not Bool"
  | unprintable phrase => s!"Can't print expression {phrase} as it has type Error"
  | unary sign operand => s!"Can't apply {sign} to {operand.name}"
  | binary sign lhs rhs => s!"Can't apply {sign} to {lhs.name} and {rhs.name}"

end Complaint

structure Diagnostic where
  node : NodeId
  category : Category
  message : String
deriving DecidableEq, Repr

namespace Diagnostic

def of (node : NodeId) (c : Complaint) : Diagnostic := ⟨node, c.category, c.message⟩

def text (d : Diagnostic) : String := s!"{d.category.name} at node {d.node.text}: {d.message}"

def toJson (d : Diagnostic) : Json :=
  .obj [("node", Encoding.toJson d.node), ("category", .str d.category.name),
    ("message", .str d.message)]

end Diagnostic

abbrev Report := Array Diagnostic

namespace Report

def text (r : Report) : String :=
  r.foldl (fun s d => s ++ "\n  " ++ d.text) s!"found {r.size} semantic error(s)"

def toJson (r : Report) : Json := .arr (r.toList.map Diagnostic.toJson)

end Report

end SpimCompiler
