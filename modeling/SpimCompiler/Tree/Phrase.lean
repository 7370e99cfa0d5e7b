import SpimCompiler.Fault

namespace SpimCompiler

def Parameter.phrase (p : Parameter) : String := p.name ++ " : " ++ p.type.name

namespace Arena

def block : String := "\x7b ... \x7d"

def binaryPhrase (lhs : Except Fault String) (sign : String) (rhs : Except Fault String) :
    Except Fault String := do
  let l ← lhs
  let r ← rhs
  return l ++ " " ++ sign ++ " " ++ r

/-- The phrase of a node whose phrases below it nest less than `depth` deep. -/
def phraseWithin (a : Arena) : (depth : Nat) → NodeId → Except Fault String
  | 0, id => .error (.endless id)
  | depth + 1, id => do
    match ← a.node id with
    | .program .. | .executableBlock .. | .variableBlock .. | .statementBlock .. => return block
    | .variableDeclaration name type none => return s!"var {name} : {type.name}"
    | .variableDeclaration name type (some init) =>
      return s!"var {name} : {type.name} = " ++ (← a.phraseWithin depth init)
    | .assignment name value => return name ++ " = " ++ (← a.phraseWithin depth value)
    | .ifStatement condition _ elseBlock =>
      let c ← a.phraseWithin depth condition
      return "if " ++ c ++ " " ++ block ++ (if elseBlock.isSome then " else " ++ block else "")
    | .whileStatement condition _ =>
      return "while " ++ (← a.phraseWithin depth condition) ++ " " ++ block
    | .printStatement value => return "print " ++ (← a.phraseWithin depth value)
    | .functionDefinition name parameters returnType _ =>
      let ps := String.intercalate ", " (parameters.map Parameter.phrase)
      let result := returnType.elim "" fun t => " : " ++ t.name
      return s!"func {name}({ps}){result} " ++ block
    | .functionCall name arguments =>
      let as ← arguments.mapM (a.phraseWithin depth)
      return name ++ "(" ++ String.intercalate ", " as ++ ")"
    | .returnStatement none => return "return"
    | .returnStatement (some value) => return "return " ++ (← a.phraseWithin depth value)
    | .intLiteral value => return toString value.toInt
    | .boolLiteral value => return if value then "true" else "false"
    | .stringLiteral value => return "\"" ++ value ++ "\""
    | .parenthesized expression => return "(" ++ (← a.phraseWithin depth expression) ++ ")"
    | .unary op operand => return op.sign ++ (← a.phraseWithin depth operand)
    | .mulDiv op lhs rhs =>
      binaryPhrase (a.phraseWithin depth lhs) op.sign (a.phraseWithin depth rhs)
    | .addSub op lhs rhs =>
      binaryPhrase (a.phraseWithin depth lhs) op.sign (a.phraseWithin depth rhs)
    | .compare op lhs rhs =>
      binaryPhrase (a.phraseWithin depth lhs) op.sign (a.phraseWithin depth rhs)
    | .variableRef name => return name

def phrase (a : Arena) (id : NodeId) : Except Fault String := a.phraseWithin a.maxDepth id

end Arena

end SpimCompiler
