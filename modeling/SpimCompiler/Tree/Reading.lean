import SpimCompiler.Json.Reader
import SpimCompiler.Tree.Encoding

namespace SpimCompiler

open Json

/-- How deep brackets may nest in a text, and so how deep inside a node: the arena, the array of
nodes and the node are three levels. -/
def Json.maxDepth : Nat := 127

def Node.maxDepth : Nat := Json.maxDepth - 3

def Node.ofRecord (k : Kind) (fields : Json) : Except ReadError (Node NodeId) :=
  match Node.ofRecord? k fields with
  | some n => .ok n
  | none => .error .unexpected

namespace Kind

def read (cs : List Char) : Except ReadError (Kind × List Char) :=
  match skipBlanks cs with
  | [] => .error .truncated
  | '"' :: cs => do
    let (s, rest) ← stringBody [] cs
    match Named.ofName? s with
    | some k => .ok (k, rest)
    | none => .error .unexpected
  | cs => mismatch cs

end Kind

namespace Node

/-- The part of a node's object read so far: its kind, if it has come, and the other members, last
first. -/
structure Draft where
  kind : Option Kind
  fields : List (String × Json)

def readMember (d : Draft) (k : String) (cs : List Char) :
    Except ReadError (Draft × List Char) :=
  if k = "kind" then
    if d.kind.isSome then .error .unexpected
    else do
      let (kind, rest) ← Kind.read (← colon cs)
      .ok ({ d with kind := some kind }, rest)
  else do
    let (fields, rest) ← pushMember (value maxDepth) d.fields k cs
    .ok ({ d with fields }, rest)

def readObject (cs : List Char) : Except ReadError (Node NodeId × List Char) := do
  let (d, rest) ← members readMember ⟨none, []⟩ cs
  match d.kind with
  | some k => .ok (← ofRecord k (.obj d.fields.reverse), rest)
  | none => .error .unexpected

def readArray (cs : List Char) : Except ReadError (Node NodeId × List Char) := do
  match ← nextItem true cs with
  | .close _ => .error .unexpected
  | .more _ cs =>
    let (k, cs) ← Kind.read cs
    let (vs, rest) ← items (pushItem (value maxDepth)) false [] cs
    .ok (← ofRecord k (.arr vs.reverse), rest)

def read (cs : List Char) : Except ReadError (Node NodeId × List Char) :=
  match skipBlanks cs with
  | [] => .error .truncated
  | '{' :: cs => readObject cs
  | '[' :: cs => readArray cs
  | cs => mismatch cs

end Node

namespace Arena

def pushRead (nodes : Array (Node NodeId)) (cs : List Char) :
    Except ReadError (Array (Node NodeId) × List Char) := do
  let (n, rest) ← Node.read cs
  .ok (nodes.push n, rest)

def readNodes (cs : List Char) : Except ReadError (Array (Node NodeId) × List Char) :=
  match skipBlanks cs with
  | [] => .error .truncated
  | '[' :: cs => items pushRead true #[] cs
  | cs => mismatch cs

def readRoot (cs : List Char) : Except ReadError (Option NodeId × List Char) :=
  match skipBlanks cs with
  | [] => .error .truncated
  | '[' :: _ | '{' :: _ => .error .unexpected
  | cs => do
    let (v, rest) ← scalar cs
    match Encoding.ofJson? v with
    | some root => .ok (root, rest)
    | none => .error .unexpected

structure Draft where
  nodes : Option (Array (Node NodeId))
  root : Option (Option NodeId)

def readMember (d : Draft) (k : String) (cs : List Char) :
    Except ReadError (Draft × List Char) :=
  if k = "nodes" then
    if d.nodes.isSome then .error .unexpected
    else do
      let (nodes, rest) ← readNodes (← colon cs)
      .ok ({ d with nodes := some nodes }, rest)
  else if k = "root" then
    if d.root.isSome then .error .unexpected
    else do
      let (root, rest) ← readRoot (← colon cs)
      .ok ({ d with root := some root }, rest)
  else do
    .ok (d, ← skipValue (← colon cs))

def readObject (cs : List Char) : Except ReadError (Arena × List Char) := do
  let (d, rest) ← members readMember ⟨none, none⟩ cs
  match d.nodes with
  | some nodes => .ok (⟨nodes, d.root.join⟩, rest)
  | none => .error .unexpected

def closeArray (cs : List Char) : Except ReadError (List Char) :=
  match skipBlanks cs with
  | [] => .error .truncated
  | c :: cs => if c = ']' then .ok cs else .error .malformed

def readArray (cs : List Char) : Except ReadError (Arena × List Char) := do
  match ← nextItem true cs with
  | .close _ => .error .unexpected
  | .more _ cs =>
    let (nodes, cs) ← readNodes cs
    match ← nextItem false cs with
    | .close _ => .error .unexpected
    | .more _ cs =>
      let (root, cs) ← readRoot cs
      .ok (⟨nodes, root⟩, ← closeArray cs)

def readDocument (cs : List Char) : Except ReadError (Arena × List Char) :=
  match skipBlanks cs with
  | [] => .error .truncated
  | '{' :: cs => readObject cs
  | '[' :: cs => readArray cs
  | cs => mismatch cs

def read (text : String) : Except ReadError Arena := do
  let (a, rest) ← readDocument text.toList
  if (skipBlanks rest).isEmpty then .ok a else .error .malformed

end Arena

end SpimCompiler
