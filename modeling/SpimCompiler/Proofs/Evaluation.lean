import SpimCompiler.Proofs.TypingRules

/-!
# The meaning of programs

What a program of numbers and truth values does, as a big-step semantics. Numbers have 32 bits. A
sum, a difference, a negation or a quotient that does not fit has no value, and neither has a
quotient by zero; a product is taken modulo `2 ^ 32`. A program that gets to an expression without a
value has no run.
-/

namespace SpimCompiler

inductive Datum where
  | int (n : Int32)
  | bool (b : Bool)
deriving DecidableEq, Repr

namespace Datum

def type : Datum → TypeName
  | int _ => .int
  | bool _ => .bool

def initial : TypeName → Option Datum
  | .int => some (int 0)
  | .bool => some (bool false)
  | .string => none

def text : Datum → String
  | int n => toString n.toInt
  | bool true => "true"
  | bool false => "false"

end Datum

/-- The number of 32 bits that is equal to an integer. -/
def Int32.fit (n : Int) : Option Int32 :=
  if Int32.minValue.toInt ≤ n ∧ n ≤ Int32.maxValue.toInt then some (Int32.ofInt n) else none

def MulDivOp.apply (op : MulDivOp) (a b : Int32) : Option Int32 :=
  match op with
  | mul => some (Int32.ofInt (a.toInt * b.toInt))
  | div => if b = 0 then none else Int32.fit (a.toInt.tdiv b.toInt)

def AddSubOp.apply (op : AddSubOp) (a b : Int32) : Option Int32 :=
  match op with
  | add => Int32.fit (a.toInt + b.toInt)
  | sub => Int32.fit (a.toInt - b.toInt)

def CompareOp.apply (op : CompareOp) (a b : Int32) : Bool :=
  match op with
  | lt => a.toInt < b.toInt
  | le => a.toInt ≤ b.toInt
  | eq => a.toInt = b.toInt
  | ne => a.toInt ≠ b.toInt
  | gt => a.toInt > b.toInt
  | ge => a.toInt ≥ b.toInt

abbrev Store := String → Option Datum

def Store.set (σ : Store) (name : String) (v : Datum) : Store :=
  fun x ↦ if x = name then some v else σ x

inductive Evaluates (σ : Store) : Tree → Datum → Prop
  | intLiteral {i : NodeId} {n : Int32} : Evaluates σ (.mk i (.intLiteral n)) (.int n)
  | boolLiteral {i : NodeId} {b : Bool} : Evaluates σ (.mk i (.boolLiteral b)) (.bool b)
  | parenthesized {i : NodeId} {e : Tree} {v : Datum} :
      Evaluates σ e v → Evaluates σ (.mk i (.parenthesized e)) v
  | minus {i : NodeId} {e : Tree} {a n : Int32} :
      Evaluates σ e (.int a) → Int32.fit (-a.toInt) = some n →
      Evaluates σ (.mk i (.unary .minus e)) (.int n)
  | not {i : NodeId} {e : Tree} {b : Bool} :
      Evaluates σ e (.bool b) → Evaluates σ (.mk i (.unary .not e)) (.bool !b)
  | mulDiv {i : NodeId} {op : MulDivOp} {l r : Tree} {a b n : Int32} :
      Evaluates σ l (.int a) → Evaluates σ r (.int b) → op.apply a b = some n →
      Evaluates σ (.mk i (.mulDiv op l r)) (.int n)
  | addSub {i : NodeId} {op : AddSubOp} {l r : Tree} {a b n : Int32} :
      Evaluates σ l (.int a) → Evaluates σ r (.int b) → op.apply a b = some n →
      Evaluates σ (.mk i (.addSub op l r)) (.int n)
  | compare {i : NodeId} {op : CompareOp} {l r : Tree} {a b : Int32} :
      Evaluates σ l (.int a) → Evaluates σ r (.int b) →
      Evaluates σ (.mk i (.compare op l r)) (.bool (op.apply a b))
  | variableRef {i : NodeId} {name : String} {v : Datum} :
      σ name = some v → Evaluates σ (.mk i (.variableRef name)) v

/-- The statements, run one after the other, lead from one store to the other and print the
values. -/
inductive Executes : Store → List Tree → Store → List Datum → Prop
  | nil {σ : Store} : Executes σ [] σ []
  | cons {σ σ' σ'' : Store} {t : Tree} {ts : List Tree} {o o' : List Datum} :
      Executes σ [t] σ' o → Executes σ' ts σ'' o' → Executes σ (t :: ts) σ'' (o ++ o')
  | statementBlock {σ σ' : Store} {i : NodeId} {ts : List Tree} {o : List Datum} :
      Executes σ ts σ' o → Executes σ [.mk i (.statementBlock ts)] σ' o
  | assignment {σ : Store} {i : NodeId} {name : String} {e : Tree} {v : Datum} :
      Evaluates σ e v → Executes σ [.mk i (.assignment name e)] (σ.set name v) []
  | printStatement {σ : Store} {i : NodeId} {e : Tree} {v : Datum} :
      Evaluates σ e v → Executes σ [.mk i (.printStatement e)] σ [v]
  | ifTrue {σ σ' : Store} {i : NodeId} {c t : Tree} {f : Option Tree} {o : List Datum} :
      Evaluates σ c (.bool true) → Executes σ [t] σ' o →
      Executes σ [.mk i (.ifStatement c t f)] σ' o
  | ifFalse {σ σ' : Store} {i : NodeId} {c t : Tree} {f : Option Tree} {o : List Datum} :
      Evaluates σ c (.bool false) → Executes σ f.toList σ' o →
      Executes σ [.mk i (.ifStatement c t f)] σ' o
  | whileTrue {σ σ' σ'' : Store} {i : NodeId} {c b : Tree} {o o' : List Datum} :
      Evaluates σ c (.bool true) → Executes σ [b] σ' o →
      Executes σ' [.mk i (.whileStatement c b)] σ'' o' →
      Executes σ [.mk i (.whileStatement c b)] σ'' (o ++ o')
  | whileFalse {σ : Store} {i : NodeId} {c b : Tree} :
      Evaluates σ c (.bool false) → Executes σ [.mk i (.whileStatement c b)] σ []

inductive Initialises : Store → List Tree → Store → Prop
  | nil {σ : Store} : Initialises σ [] σ
  | bare {σ σ' : Store} {i : NodeId} {name : String} {τ : TypeName} {ds : List Tree} :
      Initialises σ ds σ' → Initialises σ (.mk i (.variableDeclaration name τ none) :: ds) σ'
  | value {σ σ' : Store} {i : NodeId} {name : String} {τ : TypeName} {e : Tree} {v : Datum}
      {ds : List Tree} :
      Evaluates σ e v → Initialises (σ.set name v) ds σ' →
      Initialises σ (.mk i (.variableDeclaration name τ (some e)) :: ds) σ'

def Store.start (Γ : Env) : Store := fun x ↦ (Γ.lookup x).bind Datum.initial

inductive Runs : Tree → List Datum → Prop
  | program {i j : NodeId} {functions : List Tree} {vars : Option Tree} {body : Tree}
      {σ σ' : Store} {o : List Datum} :
      Initialises (.start ((vars.toList.flatMap Tree.declarations).filterMap Tree.binding?))
        (vars.toList.flatMap Tree.declarations) σ →
      Executes σ [body] σ' o →
      Runs (.mk i (.program functions (.mk j (.executableBlock vars body)))) o

def Store.Typed (σ : Store) (Γ : Env) : Prop :=
  ∀ x v, σ x = some v → Γ.lookup x = some v.type

variable {Γ : Env} {σ σ' : Store}

theorem Store.Typed.set (h : σ.Typed Γ) {name : String} {v : Datum}
    (hn : Γ.lookup name = some v.type) : (σ.set name v).Typed Γ := by
  intro x w hx
  by_cases he : x = name
  · subst he
    obtain rfl : v = w := by simpa [Store.set] using hx
    exact hn
  · exact h x w (by simpa [Store.set, he] using hx)

theorem Store.typed_start (Γ : Env) : (Store.start Γ).Typed Γ := by
  intro x v hx
  obtain ⟨τ, hτ, hv⟩ := Option.bind_eq_some_iff.1 hx
  rw [hτ]
  cases τ <;> simp [Datum.initial] at hv <;> subst hv <;> rfl

theorem Evaluates.type_eq {e : Tree} {v : Datum} {τ : TypeName} (h : Evaluates σ e v)
    (hσ : σ.Typed Γ) (hτ : HasType Γ e τ) : v.type = τ := by
  induction h generalizing τ with
  | parenthesized _ ih =>
    cases hτ with
    | parenthesized hτ => exact ih hτ
  | addSub _ _ _ ihl _ =>
    cases hτ with
    | addSub => rfl
    | concat hl _ => exact ihl hl
  | variableRef hx =>
    cases hτ with
    | variableRef hτ => exact Option.some.inj ((hσ _ _ hx).symm.trans hτ)
  | intLiteral | boolLiteral | minus | not | mulDiv | compare =>
    cases hτ
    rfl

theorem Executes.typed {ts : List Tree} {o : List Datum} (h : Executes σ ts σ' o)
    (hσ : σ.Typed Γ) (hts : ∀ t ∈ ts, Checks Γ t) : σ'.Typed Γ := by
  induction h with
  | nil | printStatement | whileFalse => exact hσ
  | cons _ _ ih ih' =>
    simp only [List.mem_cons, forall_eq_or_imp] at hts
    exact ih' (ih hσ (by simpa using hts.1)) hts.2
  | statementBlock _ ih =>
    obtain ⟨h⟩ := hts _ (List.mem_singleton_self _)
    exact ih hσ h
  | assignment he =>
    obtain _ | ⟨hx, hv⟩ := hts _ (List.mem_singleton_self _)
    exact hσ.set (hx.trans (congrArg some (he.type_eq hσ hv).symm))
  | ifTrue _ _ ih =>
    obtain _ | _ | ⟨_, ht, _⟩ := hts _ (List.mem_singleton_self _)
    exact ih hσ (by simpa using ht)
  | ifFalse _ _ ih =>
    obtain _ | _ | ⟨_, _, hf⟩ := hts _ (List.mem_singleton_self _)
    exact ih hσ (by simpa using hf)
  | whileTrue _ _ _ ih ih' =>
    have hw := hts _ (List.mem_singleton_self _)
    obtain _ | _ | _ | ⟨_, hb⟩ := hw
    exact ih' (ih hσ (by simpa using hb)) hts

end SpimCompiler
