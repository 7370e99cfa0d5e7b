import SpimCompiler.Tree.Arena
import SpimCompiler.Ty

namespace SpimCompiler

inductive Fault where
  | missingNode (size : Nat) (id : NodeId)
  | endless (id : NodeId)
  | missingScope (name : String)
  | undefinedVariable (name : String)
  | missingCode (id : NodeId)
  | missingType (id : NodeId)
  | unprintable (type : Ty)
deriving DecidableEq, Repr

def Fault.message : Fault → String
  | missingNode size id => s!"index out of bounds: the len is {size} but the index is {id.index}"
  | endless id => s!"node {id.text} is below itself"
  | missingScope name => s!"scope `{name}` must be created by the binder"
  | undefinedVariable name => s!"variable `{name}` is not defined"
  | missingCode id => s!"no code generated for node {id.text}"
  | missingType id => s!"expression {id.text} has no type"
  | unprintable type => s!"can't print an expression of type {type.name}"

def Arena.node (a : Arena) (id : NodeId) : Except Fault (Node NodeId) :=
  match a.get? id with
  | some n => .ok n
  | none => .error (.missingNode a.size id)

/-- A bound on the number of nodes on a path downwards that does not run in a circle, one more
place included for a child that does not exist. -/
def Arena.maxDepth (a : Arena) : Nat := a.size + 1

end SpimCompiler
