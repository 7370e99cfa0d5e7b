import SpimCompiler.Compilation
import SpimCompiler.Tree.Reading

namespace SpimCompiler

structure Options where
  emit : Emit := .asm
  input : Option String := none
deriving DecidableEq, Repr

namespace Options

structure Draft where
  emit : Option Emit := none
  input : Option String := none

namespace Draft

def addInput (d : Draft) (name : String) : Option Draft :=
  if d.input.isSome then none else some { d with input := some name }

def addEmit (d : Draft) (value : String) : Option Draft :=
  if d.emit.isSome then none
  else (Named.ofName? value).map fun e => { d with emit := some e }

end Draft

/-- Whether an argument is an option. A single dash is not. -/
def isOption (arg : String) : Bool :=
  match arg.toList with
  | '-' :: _ :: _ => true
  | _ => false

/-- A long option: its name without dashes and the value behind an equals sign, if there is one. -/
def splitLong (arg : String) : String × Option String :=
  let body := arg.toList.dropWhile (· == '-')
  let value := body.dropWhile (· != '=')
  (String.ofList (body.takeWhile (· != '=')),
    if value.isEmpty then none else some (String.ofList (value.dropWhile (· == '='))))

def isLong (arg : String) : Bool :=
  match arg.toList with
  | '-' :: '-' :: _ => true
  | _ => false

/-- Takes the arguments one by one. Behind `--` all of them name inputs. -/
def scan (d : Draft) : List String → Option Draft
  | [] => some d
  | arg :: args =>
    if arg = "--" then args.foldlM Draft.addInput d
    else if isLong arg then
      match splitLong arg, args with
      | ("emit", some value), args => do scan (← d.addEmit value) args
      | ("emit", none), value :: args =>
        if isOption value then none else do scan (← d.addEmit value) args
      | _, _ => none
    else if isOption arg then none
    else do scan (← d.addInput arg) args

def parse? (args : List String) : Option Options := do
  let d ← scan {} args
  return ⟨d.emit.getD .asm, d.input⟩

end Options

inductive InputError where
  | notFound
  | isDirectory
  | notDirectory
  | notText
deriving DecidableEq, Repr

def InputError.message : InputError → String
  | notFound => "No such file or directory (os error 2)"
  | isDirectory => "Is a directory (os error 21)"
  | notDirectory => "Not a directory (os error 20)"
  | notText => "stream did not contain valid UTF-8"

inductive CommandError where
  | invalidOption
  | input (error : InputError)
  | format (error : ReadError)
  | compile (error : CompileError)

def CommandError.message : CommandError → String
  | invalidOption => "invalid option"
  | input error => error.message
  | format .truncated => "invalid AST input: the text ends too early"
  | format .malformed => "invalid AST input: the text is not JSON"
  | format .unexpected => "invalid AST input: the text is not a syntax tree"
  | compile error => error.message

namespace Command

def decode (bytes : ByteArray) : Except InputError String :=
  match String.fromUTF8? bytes with
  | some s => .ok s
  | none => .error .notText

def source (file : String → Except InputError ByteArray) (stdin : ByteArray) :
    Option String → Except InputError String
  | some name => file name >>= decode
  | none => decode stdin

def run (args : List String) (file : String → Except InputError ByteArray) (stdin : ByteArray) :
    Pass Unit (Except CommandError String) :=
  match Options.parse? args with
  | none => return .error .invalidOption
  | some options =>
    match source file stdin options.input with
    | .error e => return .error (.input e)
    | .ok text =>
      match Arena.read text with
      | .error e => return .error (.format e)
      | .ok a => do
        match ← a.compile options.emit with
        | .ok output => return .ok output
        | .error e => return .error (.compile e)

end Command

end SpimCompiler
