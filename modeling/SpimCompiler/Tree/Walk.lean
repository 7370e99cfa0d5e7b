import SpimCompiler.Pass

namespace SpimCompiler

/-- What a walk does at a node; `enter` answers whether to go on below it. -/
structure Visitor (σ : Type) where
  enter : NodeId → Node NodeId → Pass σ Bool := fun _ _ => pure true
  exit : NodeId → Node NodeId → Pass σ Unit := fun _ _ => pure ()

namespace Arena

variable {σ : Type}

/-- Walks the part of the tree below a node that is less than `depth` deep. -/
def walkWithin (a : Arena) (v : Visitor σ) : (depth : Nat) → NodeId → Pass σ Unit
  | 0, id => throw (.endless id)
  | depth + 1, id => do
    let n ← Pass.ofExcept (a.node id)
    if ← v.enter id n then
      n.children.forM (a.walkWithin v depth)
      v.exit id n

def walk (a : Arena) (v : Visitor σ) (id : NodeId) : Pass σ Unit :=
  a.walkWithin v a.maxDepth id

end Arena

end SpimCompiler
