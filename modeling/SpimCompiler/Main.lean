import SpimCompiler.Command

namespace SpimCompiler

def readInput (name : String) : IO (Except InputError ByteArray) := do
  try
    return .ok (← IO.FS.readBinFile name)
  catch
    | .inappropriateType _ 20 _ => return .error .notDirectory
    | .inappropriateType _ _ _ => return .error .isDirectory
    | _ => return .error .notFound

def readStdin : Option Options → IO ByteArray
  | some { input := none, .. } => do (← IO.getStdin).readBinToEnd
  | _ => return .empty

end SpimCompiler

open SpimCompiler in
def main (args : List String) : IO UInt32 := do
  let options := Options.parse? args
  let file ← match options.bind Options.input with
    | some name => readInput name
    | none => pure (.error .notFound)
  let stdin ← readStdin options
  match (Command.run args (fun _ => file) stdin).outcome.result with
  | .ok (.ok output) =>
    IO.println output.trimAsciiEnd.copy
    return 0
  | .ok (.error e) =>
    IO.eprintln ("error: " ++ e.message)
    return 1
  | .error fault =>
    IO.eprintln fault.message
    return 101
