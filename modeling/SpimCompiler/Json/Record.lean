import SpimCompiler.Json.Basic

namespace SpimCompiler.Json

structure Field where
  name : String
  isOptional : Bool := false
deriving DecidableEq, Repr

def Field.lookup? (f : Field) (members : List (String × Json)) : Option Json :=
  match members.filter (fun m => m.1 == f.name) with
  | [] => if f.isOptional then some .null else none
  | [m] => some m.2
  | _ => none

def fieldValues? (fields : List Field) : Json → Option (List Json)
  | obj members => fields.mapM fun f => f.lookup? members
  | arr items => if items.length = fields.length then some items else none
  | _ => none

def record (fields : List Field) (values : List Json) : Json :=
  obj ((fields.map Field.name).zip values)

/-- The name of an alternative: a string, or an object with one empty member. -/
def variantName? : Json → Option String
  | str s => some s
  | obj [(s, null)] => some s
  | obj [(s, obj [])] => some s
  | _ => none

end SpimCompiler.Json
