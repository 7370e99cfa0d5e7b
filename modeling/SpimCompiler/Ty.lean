import SpimCompiler.Tree.Node

namespace SpimCompiler

/-- The types of expressions. `error` is the type of an expression that has none. -/
inductive Ty where
  | int
  | bool
  | string
  | void
  | error
deriving DecidableEq, Repr

namespace Ty

def name : Ty → String
  | int => "Int"
  | bool => "Bool"
  | string => "String"
  | void => "Void"
  | error => "Error"

instance : Named Ty := ⟨[int, bool, string, void, error], name, fun a => by cases a <;> rfl⟩

def isError : Ty → Bool
  | error => true
  | _ => false

end Ty

def TypeName.toTy : TypeName → Ty
  | int => .int
  | bool => .bool
  | string => .string

end SpimCompiler
