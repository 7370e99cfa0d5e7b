import SpimCompiler.Analysis.Typing
import SpimCompiler.Proofs.PassLogic

namespace SpimCompiler.Typing

structure Verdict where
  type : Option Ty := none
  complaint : Option Complaint := none
  binding : Option Symbol := none

namespace Verdict

def operation (type : Ty) (c : Complaint) : Verdict where
  type := some type
  complaint := if type.isError then some c else none

def expected (isOk : Bool) (c : Complaint) : Verdict where
  complaint := if isOk then none else some c

end Verdict

variable (s : Typing)

def type (id : NodeId) : Ty := (s.types.get? id).getD .error

def lookup (name : String) : Option Symbol := s.scopes.resolve? s.current name

def declarationVerdict (name : String) (declared : Ty) (init : Option NodeId) :
    Option Symbol → Verdict
  | some x => { complaint := some (.redeclared name x.type) }
  | none =>
    { binding := some ⟨name, declared⟩
      complaint := init.bind fun value ↦
        if s.type value = declared then none
        else some (.wrongType (s.type value) name declared) }

def assignmentVerdict (name : String) (value : NodeId) : Option Symbol → Verdict
  | some x => .expected (x.type = s.type value) (.wrongType (s.type value) name x.type)
  | none => { complaint := some (.undeclaredTarget name) }

def variableVerdict (name : String) : Option Symbol → Verdict
  | some x => { type := some x.type }
  | none => { type := some .error, complaint := some (.undeclaredVariable name) }

def verdict (phrase : NodeId → String) : Node NodeId → Verdict
  | .variableDeclaration name declared init =>
    s.declarationVerdict name declared.toTy init (s.scopes.local? s.current name)
  | .assignment name value => s.assignmentVerdict name value (s.lookup name)
  | .ifStatement condition .. =>
    .expected (s.type condition = .bool)
      (.conditionNotBool "If" (phrase condition) (s.type condition))
  | .whileStatement condition _ =>
    .expected (s.type condition = .bool)
      (.conditionNotBool "While" (phrase condition) (s.type condition))
  | .printStatement value => .expected (!(s.type value).isError) (.unprintable (phrase value))
  | .functionCall .. => { type := some .error }
  | .intLiteral _ => { type := some .int }
  | .boolLiteral _ => { type := some .bool }
  | .stringLiteral _ => { type := some .string }
  | .parenthesized expression => { type := some (s.type expression) }
  | .unary op operand =>
    .operation (op.resultType (s.type operand)) (.unary op.sign (s.type operand))
  | .mulDiv op lhs rhs =>
    .operation (MulDivOp.resultType (s.type lhs) (s.type rhs))
      (.binary op.sign (s.type lhs) (s.type rhs))
  | .addSub op lhs rhs =>
    .operation (op.resultType (s.type lhs) (s.type rhs))
      (.binary op.sign (s.type lhs) (s.type rhs))
  | .compare op lhs rhs =>
    .operation (CompareOp.resultType (s.type lhs) (s.type rhs))
      (.binary op.sign (s.type lhs) (s.type rhs))
  | .variableRef name => variableVerdict name (s.lookup name)
  | .program .. | .executableBlock .. | .variableBlock .. | .statementBlock ..
  | .functionDefinition .. | .returnStatement .. => {}

def give (id : NodeId) (v : Verdict) : Typing where
  scopes := v.binding.elim s.scopes fun x ↦ (s.scopes.define s.current x.name x.type).2
  current := s.current
  types := v.type.elim s.types (NodeTable.write s.types id)
  report := v.complaint.elim s.report fun c ↦ s.report.push (.of id c)

variable {s}

theorem ends_assign {kind : Kind} {id : NodeId} {type : Ty} {run : Run Typing}
    {Q : Unit → Run Typing → Prop}
    (h : ∀ trace, Q () ⟨run.state.give id { type := some type }, trace⟩) :
    (assign kind id type).Ends run Q := by
  simp only [assign, Pass.ends_bind, Pass.ends_log, Pass.ends_state, Pass.ends_update,
    TypeTable.write]
  cases run.state.types.get? id with
  | none => exact h _
  | some existing => exact h _

theorem ends_assignOrComplain {kind : Kind} {id : NodeId} {type : Ty} {c : Complaint}
    {run : Run Typing} {Q : Unit → Run Typing → Prop}
    (h : ∀ trace, Q () ⟨run.state.give id (.operation type c), trace⟩) :
    (assignOrComplain kind id type c).Ends run Q := by
  simp only [assignOrComplain, Pass.ends_bind]
  refine ends_assign fun trace ↦ ?_
  cases hc : type.isError with
  | true => simpa [complain, give, Verdict.operation, hc] using h trace
  | false => simpa [give, Verdict.operation, hc] using h trace

theorem ends_checkDeclaration {id : NodeId} {name : String} {declared : Ty} {init : Option NodeId}
    {run : Run Typing} {Q : Unit → Run Typing → Prop}
    (h : ∀ trace, Q () ⟨run.state.give id (run.state.declarationVerdict name declared init
      (run.state.scopes.local? run.state.current name)), trace⟩) :
    (checkDeclaration id name declared init).Ends run Q := by
  simp only [checkDeclaration, Pass.ends_bind, Pass.ends_state]
  cases hx : run.state.scopes.local? run.state.current name with
  | some x => simpa [complain, give, declarationVerdict, hx] using h run.trace
  | none =>
    cases init with
    | none => simpa [give, declarationVerdict, hx] using h _
    | some value =>
      simp only [Pass.ends_bind, Pass.ends_update, Pass.ends_log, Pass.ends_option_forM_some,
        typeOf, Pass.ends_state, Pass.ends_pure]
      by_cases ht : run.state.type value = declared
      · simp_all [give, declarationVerdict, type]
      · simp_all [give, declarationVerdict, type, complain]

theorem ends_checkAssignment {id : NodeId} {name : String} {value : NodeId} {run : Run Typing}
    {Q : Unit → Run Typing → Prop}
    (h : Q () ⟨run.state.give id (run.state.assignmentVerdict name value (run.state.lookup name)),
      run.trace⟩) :
    (checkAssignment id name value).Ends run Q := by
  simp only [checkAssignment, resolve?, Pass.ends_bind, Pass.ends_state, Pass.ends_pure]
  cases hx : run.state.scopes.resolve? run.state.current name with
  | none => simpa [complain, give, assignmentVerdict, lookup, hx] using h
  | some x =>
    by_cases ht : x.type = run.state.type value
    · simp_all [typeOf, give, assignmentVerdict, lookup, Verdict.expected, type]
    · simp_all [typeOf, give, assignmentVerdict, lookup, Verdict.expected, type, complain]

theorem ends_checkCondition {a : Arena} {id condition : NodeId} {statement phrase : String}
    (hp : a.phrase condition = .ok phrase) {run : Run Typing} {Q : Unit → Run Typing → Prop}
    (h : Q () ⟨run.state.give id (.expected (run.state.type condition = .bool)
      (.conditionNotBool statement phrase (run.state.type condition))), run.trace⟩) :
    (checkCondition a id statement condition).Ends run Q := by
  by_cases ht : run.state.type condition = .bool
  · simp_all [checkCondition, typeOf, give, Verdict.expected, type]
  · simp_all [checkCondition, typeOf, give, Verdict.expected, type, complain]

theorem ends_checkPrint {a : Arena} {id value : NodeId} {phrase : String}
    (hp : a.phrase value = .ok phrase) {run : Run Typing} {Q : Unit → Run Typing → Prop}
    (h : Q () ⟨run.state.give id (.expected (!(run.state.type value).isError)
      (.unprintable phrase)), run.trace⟩) :
    (checkPrint a id value).Ends run Q := by
  cases ht : (run.state.type value).isError <;>
    simp_all [checkPrint, typeOf, give, Verdict.expected, type, complain]

theorem ends_checkVariable {id : NodeId} {name : String} {run : Run Typing}
    {Q : Unit → Run Typing → Prop}
    (h : ∀ trace, Q () ⟨run.state.give id (variableVerdict name (run.state.lookup name)), trace⟩) :
    (checkVariable id name).Ends run Q := by
  simp only [checkVariable, resolve?, Pass.ends_bind, Pass.ends_state, Pass.ends_pure]
  simp only [lookup] at h
  cases hx : run.state.scopes.resolve? run.state.current name with
  | none =>
    simp only [Pass.ends_bind]
    refine ends_assign fun trace ↦ ?_
    simpa [complain, give, variableVerdict, hx] using h trace
  | some x => exact ends_assign fun trace ↦ by simpa [variableVerdict, hx] using h trace

/-- Every node but a block is left with its verdict given. -/
theorem ends_exit {a : Arena} {phrase : NodeId → String} {id : NodeId} {n : Node NodeId}
    (hp : ∀ c ∈ n.children, a.phrase c = .ok (phrase c)) (hn : n.kind ≠ .executableBlock)
    {run : Run Typing} {Q : Unit → Run Typing → Prop}
    (h : ∀ trace, Q () ⟨run.state.give id (run.state.verdict phrase n), trace⟩) :
    (exit a id n).Ends run Q := by
  cases n with
  | executableBlock => simp [Node.kind] at hn
  | variableDeclaration name type init => exact ends_checkDeclaration h
  | assignment name value => exact ends_checkAssignment (h _)
  | ifStatement condition _ _ => exact ends_checkCondition (hp _ (by simp [Node.children])) (h _)
  | whileStatement condition _ => exact ends_checkCondition (hp _ (by simp [Node.children])) (h _)
  | printStatement value => exact ends_checkPrint (hp _ (by simp [Node.children])) (h _)
  | functionCall | intLiteral | boolLiteral | stringLiteral => exact ends_assign h
  | parenthesized =>
    simp only [exit, typeOf, Pass.ends_bind, Pass.ends_state, Pass.ends_pure]
    exact ends_assign h
  | unary | mulDiv | addSub | compare =>
    simp only [exit, typeOf, Pass.ends_bind, Pass.ends_state, Pass.ends_pure]
    exact ends_assignOrComplain h
  | variableRef => exact ends_checkVariable h
  | program | variableBlock | statementBlock | functionDefinition | returnStatement => exact h _

theorem ends_enter {n : Node NodeId} (hn : n.kind ≠ .executableBlock) {run : Run Typing}
    {Q : Bool → Run Typing → Prop} (h : Q (n.kind ≠ .functionDefinition) run) :
    (enter n).Ends run Q := by
  cases n <;> simp_all [enter, Node.kind]

end SpimCompiler.Typing
