import SpimCompiler.Analysis.Binding
import SpimCompiler.Analysis.Typing

namespace SpimCompiler

structure Analysis where
  scopes : ScopeTree
  types : TypeTable
  report : Report

def Analysis.isOk (r : Analysis) : Bool := r.report.isEmpty

def Arena.analyze (a : Arena) (root : NodeId) : Pass Unit Analysis := do
  let ((), b) ← Pass.inside {} (a.walk Binding.visitor root)
  Pass.log (.bound b.report.size)
  let ((), t) ← Pass.inside { scopes := b.scopes, report := b.report }
    (a.walk (Typing.visitor a) root)
  Pass.log (.inferred t.types.size t.report.size)
  return ⟨t.scopes, t.types, t.report⟩

end SpimCompiler
