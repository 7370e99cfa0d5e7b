import SpimCompiler.Tree.Node

namespace SpimCompiler

structure Arena where
  nodes : Array (Node NodeId) := #[]
  root : Option NodeId := none
deriving DecidableEq

namespace Arena

def size (a : Arena) : Nat := a.nodes.size

def isEmpty (a : Arena) : Bool := a.nodes.isEmpty

def get? (a : Arena) (id : NodeId) : Option (Node NodeId) := a.nodes[id.index]?

def toList (a : Arena) : List (NodeId × Node NodeId) :=
  a.nodes.toList.zipIdx.map fun (n, i) => (NodeId.ofIndex i, n)

def nextId (a : Arena) : NodeId := NodeId.ofIndex a.size

def push (a : Arena) (n : Node NodeId) : Arena where
  nodes := a.nodes.push n
  root := if n.kind = .program then some a.nextId else a.root

@[simp]
theorem size_push (a : Arena) (n : Node NodeId) : (a.push n).size = a.size + 1 := by
  simp [size, push]

end Arena

abbrev Builder := StateM Arena

namespace Builder

def push (n : Node NodeId) : Builder NodeId := fun a => (a.nextId, a.push n)

/-- A program that has a main block and no functions. Without declarations it has no variable
block. -/
def mainProgram (declarations statements : List NodeId) : Builder NodeId := do
  let vars ←
    if declarations.isEmpty then pure none else some <$> push (.variableBlock declarations)
  let statements ← push (.statementBlock statements)
  let main ← push (.executableBlock vars statements)
  push (.program [] main)

end Builder

end SpimCompiler
