import SpimCompiler.Json.Number
import SpimCompiler.Json.Text

namespace SpimCompiler.Json

variable {σ : Type}

def literal : List Char → List Char → Except ReadError (List Char)
  | [], cs => .ok cs
  | _ :: _, [] => .error .truncated
  | w :: ws, c :: cs => if w = c then literal ws cs else .error .malformed

def scalar : List Char → Except ReadError (Json × List Char)
  | [] => .error .truncated
  | 'n' :: cs => (literal ['u', 'l', 'l'] cs).map (null, ·)
  | 't' :: cs => (literal ['r', 'u', 'e'] cs).map (bool true, ·)
  | 'f' :: cs => (literal ['a', 'l', 's', 'e'] cs).map (bool false, ·)
  | '"' :: cs => (stringBody [] cs).map fun (s, rest) => (str s, rest)
  | c :: cs => if c = '-' || isDigit c then number (c :: cs) else .error .malformed

/-- The failure to find a value of the right type: a value without brackets is read first. -/
def mismatch {α : Type} : List Char → Except ReadError α
  | '[' :: _ | '{' :: _ => .error .unexpected
  | cs => do
    let _ ← scalar cs
    .error .unexpected

inductive Next (α : Type) where
  | close (rest : List Char)
  | more (a : α) (rest : List Char)

def nextItem (first : Bool) (cs : List Char) : Except ReadError (Next Unit) :=
  match skipBlanks cs with
  | [] => .error .truncated
  | c :: cs =>
    if c = ']' then .ok (.close cs)
    else if first then .ok (.more () (c :: cs))
    else if c = ',' then
      match skipBlanks cs with
      | [] => .error .truncated
      | c :: cs => if c = ']' then .error .malformed else .ok (.more () (c :: cs))
    else .error .malformed

def key (cs : List Char) : Except ReadError (Next String) :=
  match skipBlanks cs with
  | [] => .error .truncated
  | c :: cs =>
    if c = '"' then (stringBody [] cs).map fun (k, rest) => .more k rest
    else .error .malformed

def nextKey (first : Bool) (cs : List Char) : Except ReadError (Next String) :=
  match skipBlanks cs with
  | [] => .error .truncated
  | c :: cs =>
    if c = '}' then .ok (.close cs)
    else if first then key (c :: cs)
    else if c = ',' then key cs
    else .error .malformed

def colon (cs : List Char) : Except ReadError (List Char) :=
  match skipBlanks cs with
  | [] => .error .truncated
  | c :: cs => if c = ':' then .ok cs else .error .malformed

/-- Goes through the elements of an array with `step`. An element takes at least one character, so
the text itself bounds their number. -/
def itemsLoop (step : σ → List Char → Except ReadError (σ × List Char)) :
    (bound : List Char) → (first : Bool) → σ → List Char → Except ReadError (σ × List Char)
  | [], _, _, _ => .error .truncated
  | _ :: bound, first, s, cs => do
    match ← nextItem first cs with
    | .close rest => .ok (s, rest)
    | .more _ rest =>
      let (s, rest) ← step s rest
      itemsLoop step bound false s rest

def items (step : σ → List Char → Except ReadError (σ × List Char)) (first : Bool) (s : σ)
    (cs : List Char) : Except ReadError (σ × List Char) :=
  itemsLoop step cs first s cs

def membersLoop (step : σ → String → List Char → Except ReadError (σ × List Char)) :
    (bound : List Char) → (first : Bool) → σ → List Char → Except ReadError (σ × List Char)
  | [], _, _, _ => .error .truncated
  | _ :: bound, first, s, cs => do
    match ← nextKey first cs with
    | .close rest => .ok (s, rest)
    | .more k rest =>
      let (s, rest) ← step s k rest
      membersLoop step bound false s rest

def members (step : σ → String → List Char → Except ReadError (σ × List Char)) (s : σ)
    (cs : List Char) : Except ReadError (σ × List Char) :=
  membersLoop step cs true s cs

def pushItem (read : List Char → Except ReadError (Json × List Char)) (vs : List Json)
    (cs : List Char) : Except ReadError (List Json × List Char) := do
  let (v, rest) ← read cs
  .ok (v :: vs, rest)

def pushMember (read : List Char → Except ReadError (Json × List Char))
    (ms : List (String × Json)) (k : String) (cs : List Char) :
    Except ReadError (List (String × Json) × List Char) := do
  let (v, rest) ← read (← colon cs)
  .ok ((k, v) :: ms, rest)

def value : (depth : Nat) → List Char → Except ReadError (Json × List Char)
  | 0, cs =>
    match skipBlanks cs with
    | '[' :: _ | '{' :: _ => .error .malformed
    | cs => scalar cs
  | depth + 1, cs =>
    match skipBlanks cs with
    | '[' :: cs => do
      let (vs, rest) ← items (pushItem (value depth)) true [] cs
      .ok (arr vs.reverse, rest)
    | '{' :: cs => do
      let (ms, rest) ← members (pushMember (value depth)) [] cs
      .ok (obj ms.reverse, rest)
    | cs => scalar cs

inductive Bracket where
  | square
  | curly
deriving DecidableEq, Repr

def Bracket.closing : Bracket → Char
  | .square => ']'
  | .curly => '}'

def skipNumber (cs : List Char) : Except ReadError (List Char) :=
  match Numeral.read cs with
  | .ok (_, rest) => .ok rest
  | .error _ => .error .malformed

def skipScalar : List Char → Except ReadError (List Char)
  | [] => .error .truncated
  | 'n' :: cs => literal ['u', 'l', 'l'] cs
  | 't' :: cs => literal ['r', 'u', 'e'] cs
  | 'f' :: cs => literal ['a', 'l', 's', 'e'] cs
  | '"' :: cs => skipString cs
  | c :: cs => if c = '-' || isDigit c then skipNumber (c :: cs) else .error .malformed

def skipKey (cs : List Char) : Except ReadError (List Char) :=
  match skipBlanks cs with
  | [] => .error .truncated
  | c :: cs => if c = '"' then do colon (← skipString cs) else .error .malformed

/-- A place between two tokens of a value that is passed over: the brackets that are open, and
whether the last of them has just been opened. -/
structure Place where
  isFirst : Bool
  stack : List Bracket
deriving DecidableEq, Repr

def skipHead (stack : List Bracket) (cs : List Char) : Except ReadError (Place × List Char) :=
  match skipBlanks cs with
  | '[' :: cs => .ok (⟨true, .square :: stack⟩, cs)
  | '{' :: cs => .ok (⟨true, .curly :: stack⟩, cs)
  | cs => do .ok (⟨false, stack⟩, ← skipScalar cs)

def skipElement (b : Bracket) (stack : List Bracket) (cs : List Char) :
    Except ReadError (Place × List Char) := do
  match b with
  | .square => skipHead (b :: stack) cs
  | .curly => skipHead (b :: stack) (← skipKey cs)

def skipLoop : (bound : List Char) → Place → List Char → Except ReadError (List Char)
  | _, ⟨_, []⟩, cs => .ok cs
  | [], ⟨_, _ :: _⟩, _ => .error .truncated
  | _ :: bound, ⟨isFirst, b :: stack⟩, cs =>
    match skipBlanks cs with
    | [] => .error .truncated
    | c :: cs =>
      if c = b.closing then skipLoop bound ⟨false, stack⟩ cs
      else if isFirst then do
        let (place, rest) ← skipElement b stack (c :: cs)
        skipLoop bound place rest
      else if c = ',' then do
        let (place, rest) ← skipElement b stack cs
        skipLoop bound place rest
      else .error .malformed

/-- Passes a value of any kind: nested to any depth, with numbers of any size and characters that
are not checked. -/
def skipValue (cs : List Char) : Except ReadError (List Char) := do
  let (place, rest) ← skipHead [] cs
  skipLoop rest place rest

end SpimCompiler.Json
