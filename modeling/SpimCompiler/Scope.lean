import SpimCompiler.Ty

namespace SpimCompiler

structure Symbol where
  name : String
  type : Ty
deriving DecidableEq, Repr

def Symbol.text (s : Symbol) : String := s.name ++ " : " ++ s.type.name

/-- The number of a scope in order of creation. -/
abbrev ScopeId := Nat

structure Scope where
  name : String
  returnType : Ty
  /-- The scopes around this one, nearest first. -/
  outer : List ScopeId := []
  symbols : List Symbol := []
deriving DecidableEq, Repr

def Scope.find? (s : Scope) (name : String) : Option Symbol :=
  s.symbols.find? fun x => x.name == name

def Scope.insert (s : Scope) (x : Symbol) : Scope := { s with symbols := s.symbols ++ [x] }

theorem Scope.find?_insert (s : Scope) (x : Symbol) (name : String) :
    (s.insert x).find? name = (s.find? name).or (if x.name = name then some x else none) := by
  simp [insert, find?, List.find?_append, List.find?_singleton]

structure ScopeTree where
  scopes : Array Scope
deriving DecidableEq, Repr

namespace ScopeTree

def initial : ScopeTree := ⟨#[{ name := "$global", returnType := .void }]⟩

def globalScope : ScopeId := 0

def mainName : String := "$main"

variable (t : ScopeTree) (s : ScopeId) (name : String)

def get? : Option Scope := t.scopes[s]?

def nameOf : String := (t.get? s).elim "" Scope.name

def returnTypeOf : Ty := (t.get? s).elim .void Scope.returnType

def outerOf : List ScopeId := (t.get? s).elim [] Scope.outer

def enclosing? : Option ScopeId := (t.outerOf s).head?

def local? : Option Symbol := (t.get? s).bind fun x => x.find? name

/-- The scopes in which a name is looked up, in this order. -/
def chain : List ScopeId := s :: t.outerOf s

def definingScope? : Option ScopeId := (t.chain s).find? fun u => (t.local? u name).isSome

def resolve? : Option Symbol := (t.chain s).findSome? fun u => t.local? u name

def childrenOf : List ScopeId :=
  (List.range t.scopes.size).filter fun c => t.enclosing? c == some s

def childNamed? : Option ScopeId := (t.childrenOf s).find? fun c => t.nameOf c == name

def addChild (returnType : Ty) : ScopeId × ScopeTree :=
  (t.scopes.size, ⟨t.scopes.push { name, returnType, outer := t.chain s }⟩)

/-- Binds a name in a scope, unless it is bound there, and answers with the variable. -/
def define (type : Ty) : Symbol × ScopeTree :=
  match t.local? s name with
  | some x => (x, t)
  | none => (⟨name, type⟩, ⟨t.scopes.modify s fun x => x.insert ⟨name, type⟩⟩)

theorem get?_define (type : Ty) (u : ScopeId) :
    (t.define s name type).2.get? u =
      if s = u ∧ t.local? s name = none then (t.get? u).map fun x => x.insert ⟨name, type⟩
      else t.get? u := by
  cases hx : t.local? s name with
  | none => simp [get?, define, hx, Array.getElem?_modify]
  | some x => simp [define, hx]

theorem local?_define (type : Ty) (u : ScopeId) (other : String) :
    (t.define s name type).2.local? u other =
      (t.local? u other).or
        (if s = u ∧ name = other ∧ (t.get? u).isSome then some ⟨name, type⟩ else none) := by
  cases hx : t.local? s name with
  | some x =>
    by_cases h : s = u ∧ name = other
    · simp [define, hx, ← h.1, ← h.2]
    · rw [if_neg fun h' => h ⟨h'.1, h'.2.1⟩, Option.or_none, define, hx]
  | none =>
    by_cases h : s = u
    · subst u
      rw [local?, get?_define, if_pos ⟨rfl, hx⟩, local?]
      cases t.get? s <;> simp [Scope.find?_insert]
    · simp [local?, get?_define, h]

@[simp]
theorem outerOf_define (type : Ty) (u : ScopeId) :
    (t.define s name type).2.outerOf u = t.outerOf u := by
  rw [outerOf, get?_define, outerOf]
  split <;> cases t.get? u <;> rfl

@[simp]
theorem chain_define (type : Ty) (u : ScopeId) : (t.define s name type).2.chain u = t.chain u := by
  simp [chain]

@[simp]
theorem size_define (type : Ty) : (t.define s name type).2.scopes.size = t.scopes.size := by
  unfold define
  split <;> simp

theorem get?_addChild (returnType : Ty) (u : ScopeId) :
    (t.addChild s name returnType).2.get? u =
      if u = t.scopes.size then some { name, returnType, outer := t.chain s } else t.get? u := by
  simp [get?, addChild, Array.getElem?_push]

/-- A new scope binds nothing, so a name stands there for what it stands for outside. -/
theorem local?_addChild (returnType : Ty) (u : ScopeId) (other : String) :
    (t.addChild s name returnType).2.local? u other = t.local? u other := by
  by_cases h : u = t.scopes.size
  · subst h
    have hn : t.get? t.scopes.size = none := by simp [get?]
    simp [local?, get?_addChild, hn, Scope.find?]
  · simp [local?, get?_addChild, h]

def leave : ScopeId := (t.enclosing? s).getD s

/-- The name of a scope after those of the scopes around it, without the global scope and without
leading dollar signs. -/
def qualifiedName : String :=
  let named := (t.chain s).filter fun u => (t.enclosing? u).isSome
  String.intercalate "_" (named.reverse.map fun u =>
    String.ofList ((t.nameOf u).toList.dropWhile (· == '$')))

def quotedName (name : String) : String := "\"" ++ name ++ "\""

def describeSymbol (x : Symbol) : String :=
  s!"{quotedName x.name}: Symbol \x7b name: {quotedName x.name}, type: {x.type.name} \x7d"

def describe : String :=
  let enclosing := (t.enclosing? s).elim "None" fun u => s!"Some({quotedName (t.nameOf u)})"
  let symbols := String.intercalate ", " (((t.get? s).elim [] Scope.symbols).map describeSymbol)
  let children := String.intercalate ", " ((t.childrenOf s).map fun c => quotedName (t.nameOf c))
  s!"Scope \x7b name: {quotedName (t.nameOf s)}, return_type: {(t.returnTypeOf s).name}, " ++
    s!"enclosing: {enclosing}, symbols: \x7b{symbols}\x7d, children: [{children}] \x7d"

end ScopeTree

end SpimCompiler
