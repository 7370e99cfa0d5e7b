import SpimCompiler.Tree.Walk

namespace SpimCompiler

inductive Hook where
  | enter (kind : Kind)
  | exit (kind : Kind)
  | enterExpression
  | exitExpression
deriving DecidableEq, Repr

def Kind.hookName : Kind → String
  | program => "program"
  | executableBlock => "executable_block"
  | variableBlock => "variable_block"
  | variableDeclaration => "variable_declaration"
  | statementBlock => "statement_block"
  | assignment => "assignment"
  | ifStatement => "if_statement"
  | whileStatement => "while_statement"
  | printStatement => "print_statement"
  | functionDefinition => "function_definition"
  | functionCall => "function_call"
  | returnStatement => "return"
  | intLiteral => "int_literal"
  | boolLiteral => "bool_literal"
  | stringLiteral => "string_literal"
  | parenthesized => "parenthesized"
  | unary => "unary_op"
  | mulDiv => "mul_div"
  | addSub => "add_sub"
  | compare => "compare"
  | variableRef => "variable_ref"

namespace Hook

def name : Hook → String
  | enter kind => "enter_" ++ kind.hookName
  | exit kind => "exit_" ++ kind.hookName
  | enterExpression => "enter_expression"
  | exitExpression => "exit_expression"

end Hook

/-- One call of a hook, and whether the node is to be skipped after it. -/
structure Visit where
  hook : Hook
  node : NodeId
  skipped : Bool
deriving DecidableEq, Repr

def Visit.text (v : Visit) : String :=
  v.hook.name ++ " " ++ v.node.text ++ (if v.skipped then " skipped" else "")

abbrev Skips := Hook → NodeId → Bool

namespace Visit

def record (v : Visit) : Pass (Array Visit) Unit := Pass.update (·.push v)

/-- Calls the entry hooks of a node; the second one only if the first does not skip it. -/
def enter (skips : Skips) (id : NodeId) (n : Node NodeId) : Pass (Array Visit) Bool := do
  if n.isExpression then
    let skipped := skips .enterExpression id
    record ⟨.enterExpression, id, skipped⟩
    if skipped then
      return false
  let skipped := skips (.enter n.kind) id
  record ⟨.enter n.kind, id, skipped⟩
  return !skipped

def exit (skips : Skips) (id : NodeId) (n : Node NodeId) : Pass (Array Visit) Unit := do
  let skipped := skips (.exit n.kind) id
  record ⟨.exit n.kind, id, skipped⟩
  if n.isExpression then
    record ⟨.exitExpression, id, skipped || skips .exitExpression id⟩

def visitor (skips : Skips) : Visitor (Array Visit) := ⟨enter skips, exit skips⟩

end Visit

def Arena.visits (a : Arena) (skips : Skips) (id : NodeId) : Pass Unit (Array Visit) := do
  let ((), visits) ← Pass.inside #[] (a.walk (Visit.visitor skips) id)
  return visits

end SpimCompiler
