import SpimCompiler.Mips.Fragment
import SpimCompiler.Ty

namespace SpimCompiler

inductive Level where
  | debug
  | info
  | warn
deriving DecidableEq, Repr

def Level.name : Level → String
  | debug => "DEBUG"
  | info => "INFO"
  | warn => "WARN"

inductive Record where
  | enterScope (name : String)
  | exitScope (name : String)
  | rejectDefinition (name : String)
  | rejectCall (name : String)
  | bound (errors : Nat)
  | typed (kind : Kind) (id : NodeId) (type : Ty)
  | retyped (id : NodeId) (existing ignored : Ty)
  | defined (name : String) (type : Ty) (scope : String)
  | inferred (nodes errors : Nat)
  | coded (id : NodeId) (code : Mips.Fragment)
  | recoded (id : NodeId)
  | refused (errors : Nat)
deriving DecidableEq

namespace Record

def level : Record → Level
  | retyped .. | recoded .. => .warn
  | refused .. => .info
  | _ => .debug

def message : Record → String
  | enterScope name => s!"[binder] enter scope {name}"
  | exitScope name => s!"[binder] exit scope {name}"
  | rejectDefinition name => s!"[binder] reject function definition `{name}`"
  | rejectCall name => s!"[binder] reject function call `{name}`"
  | bound errors => s!"[analyze] binder: {errors} error(s)"
  | typed kind id type => s!"[inference] {kind.name} {id.text} : {type.name}"
  | retyped id existing ignored =>
    s!"[types] node {id.text} already typed as {existing.name}, ignoring {ignored.name}"
  | defined name type scope => s!"[inference] define {name} : {type.name} in {scope}"
  | inferred nodes errors => s!"[analyze] inference: {nodes} typed node(s), {errors} error(s)"
  | coded id code => s!"[codegen] {id.text}: {Mips.lineCount code.text} line(s)"
  | recoded id => s!"[codegen] node {id.text} already has code, ignoring new fragment"
  | refused errors => s!"[compile] {errors} semantic error(s)"

def text (r : Record) : String := r.level.name ++ " " ++ r.message

end Record

abbrev Trace := Array Record

end SpimCompiler
