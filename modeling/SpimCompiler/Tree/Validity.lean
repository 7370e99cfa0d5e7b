import Std.Data.HashSet.Basic
import SpimCompiler.Tree.Arena

namespace SpimCompiler

inductive Defect where
  | danglingChild (parent child : NodeId)
  | forwardReference (parent child : NodeId)
  | sharedNode (node : NodeId)
  | misplacedNode (parent child : NodeId) (kind : Kind)
  | missingRoot
  | rootNotProgram (kind : Kind)
deriving DecidableEq, Repr

def Defect.message : Defect → String
  | danglingChild parent child =>
    s!"node {parent.text} refers to missing child {child.text}"
  | forwardReference parent child =>
    s!"node {parent.text} refers to child {child.text} that was not created before it"
  | sharedNode node => s!"node {node.text} has more than one parent"
  | misplacedNode parent child kind =>
    s!"node {parent.text} can't contain {kind.name} node {child.text}"
  | missingRoot => "the tree has no program node"
  | rootNotProgram kind => s!"the root node must be a Program, but was {kind.name}"

def Node.accepts (n : Node NodeId) (id : NodeId) (c : Node NodeId) : Bool :=
  match c with
  | .program .. => false
  | .executableBlock .. =>
    match n with
    | .program _ main => main = id
    | .functionDefinition _ _ _ body => body = id
    | _ => false
  | _ => true

/-- A place where a node names a child. -/
structure Edge where
  parent : NodeId
  node : Node NodeId
  child : NodeId

namespace Arena

def edges (a : Arena) : List Edge :=
  a.toList.flatMap fun (id, n) => n.children.map fun c => ⟨id, n, c⟩

/-- The defect at one place, if the children named before are `seen`. -/
def defectAt? (a : Arena) (seen : Std.HashSet NodeId) (e : Edge) : Option Defect :=
  match a.get? e.child with
  | none => some (.danglingChild e.parent e.child)
  | some c =>
    if e.child.val ≥ e.parent.val then some (.forwardReference e.parent e.child)
    else if seen.contains e.child then some (.sharedNode e.child)
    else if e.node.accepts e.child c then none
    else some (.misplacedNode e.parent e.child c.kind)

def firstDefect? (a : Arena) : Std.HashSet NodeId → List Edge → Option Defect
  | _, [] => none
  | seen, e :: es =>
    match a.defectAt? seen e with
    | some d => some d
    | none => a.firstDefect? (seen.insert e.child) es

def programRoot (a : Arena) : Except Defect NodeId :=
  match a.root with
  | none => .error .missingRoot
  | some r =>
    match a.get? r with
    | none => .error .missingRoot
    | some n => if n.kind = .program then .ok r else .error (.rootNotProgram n.kind)

def validate (a : Arena) : Except Defect NodeId :=
  match a.firstDefect? ∅ a.edges with
  | some d => .error d
  | none => a.programRoot

end Arena

end SpimCompiler
