import SpimCompiler.Diagnostic
import SpimCompiler.Scope
import SpimCompiler.Tree.Walk

namespace SpimCompiler

structure Binding where
  scopes : ScopeTree := .initial
  current : ScopeId := ScopeTree.globalScope
  report : Report := #[]

namespace Binding

def complain (id : NodeId) (c : Complaint) : Pass Binding Unit :=
  Pass.update fun b => { b with report := b.report.push (.of id c) }

def openScope (b : Binding) : Binding :=
  let (child, scopes) := b.scopes.addChild b.current ScopeTree.mainName .void
  { b with scopes, current := child }

def enter (id : NodeId) : Node NodeId → Pass Binding Bool
  | .executableBlock .. => do
    Pass.update openScope
    let b ← Pass.state
    Pass.log (.enterScope (b.scopes.nameOf b.current))
    return true
  | .functionDefinition name .. => do
    Pass.log (.rejectDefinition name)
    complain id .functionDefinition
    return false
  | .functionCall name _ => do
    Pass.log (.rejectCall name)
    complain id .functionCall
    return true
  | .returnStatement _ => do
    complain id .returnStatement
    return true
  | _ => return true

def exit : Node NodeId → Pass Binding Unit
  | .executableBlock .. => do
    let b ← Pass.state
    Pass.log (.exitScope (b.scopes.nameOf b.current))
    Pass.update fun b => { b with current := b.scopes.leave b.current }
  | _ => return ()

def visitor : Visitor Binding := ⟨enter, fun _ => exit⟩

end Binding

end SpimCompiler
