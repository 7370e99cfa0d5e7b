import SpimCompiler.Json.Basic

namespace SpimCompiler.Json

def hexDigit (n : Nat) : Char := Nat.digitChar n

def escape (c : Char) : List Char :=
  if c = '"' then ['\\', '"']
  else if c = '\\' then ['\\', '\\']
  else if c = '\x08' then ['\\', 'b']
  else if c = '\t' then ['\\', 't']
  else if c = '\n' then ['\\', 'n']
  else if c = '\x0c' then ['\\', 'f']
  else if c = '\r' then ['\\', 'r']
  else if c.toNat < 0x20 then
    ['\\', 'u', '0', '0', hexDigit (c.toNat / 16), hexDigit (c.toNat % 16)]
  else [c]

def quoted (s : String) : List Char := '"' :: s.toList.flatMap escape ++ ['"']

def integer (n : Int) : List Char := (toString n).toList

mutual

def compact : Json → List Char
  | null => "null".toList
  | bool b => (if b then "true" else "false").toList
  | int n => integer n
  | real spelling => spelling.toList
  | str s => quoted s
  | arr [] => ['[', ']']
  | arr (v :: vs) => '[' :: compact v ++ compactItems vs
  | obj [] => ['{', '}']
  | obj ((k, v) :: ms) => '{' :: quoted k ++ ':' :: compact v ++ compactMembers ms

def compactItems : List Json → List Char
  | [] => [']']
  | v :: vs => ',' :: compact v ++ compactItems vs

def compactMembers : List (String × Json) → List Char
  | [] => ['}']
  | (k, v) :: ms => ',' :: quoted k ++ ':' :: compact v ++ compactMembers ms

end

def newline (level : Nat) : List Char := '\n' :: List.replicate (2 * level) ' '

mutual

def pretty (level : Nat) : Json → List Char
  | null => "null".toList
  | bool b => (if b then "true" else "false").toList
  | int n => integer n
  | real spelling => spelling.toList
  | str s => quoted s
  | arr [] => ['[', ']']
  | arr (v :: vs) => '[' :: newline (level + 1) ++ pretty (level + 1) v ++ prettyItems level vs
  | obj [] => ['{', '}']
  | obj ((k, v) :: ms) =>
    '{' :: newline (level + 1) ++ quoted k ++ ':' :: ' ' :: pretty (level + 1) v ++
      prettyMembers level ms

def prettyItems (level : Nat) : List Json → List Char
  | [] => newline level ++ [']']
  | v :: vs => ',' :: newline (level + 1) ++ pretty (level + 1) v ++ prettyItems level vs

def prettyMembers (level : Nat) : List (String × Json) → List Char
  | [] => newline level ++ ['}']
  | (k, v) :: ms =>
    ',' :: newline (level + 1) ++ quoted k ++ ':' :: ' ' :: pretty (level + 1) v ++
      prettyMembers level ms

end

def compactText (v : Json) : String := String.ofList v.compact

def prettyText (v : Json) : String := String.ofList (v.pretty 0)

end SpimCompiler.Json
