import SpimCompiler.Tree.Node
import SpimCompiler.Json.Basic
import SpimCompiler.Json.Writer
import SpimCompiler.Json.Number
import SpimCompiler.Json.Text
import SpimCompiler.Json.Reader
import SpimCompiler.Json.Record
import SpimCompiler.Tree.Arena
import SpimCompiler.Tree.Encoding
import SpimCompiler.Tree.Reading
import SpimCompiler.Ty
import SpimCompiler.Tree.Validity
import SpimCompiler.Mips.Instruction
import SpimCompiler.Mips.Fragment
import SpimCompiler.Mips.Template
import SpimCompiler.Fault
import SpimCompiler.Trace
import SpimCompiler.Pass
import SpimCompiler.Tree.Phrase
import SpimCompiler.Tree.Walk
import SpimCompiler.Tree.Hook
import SpimCompiler.NodeTable
import SpimCompiler.Analysis.Binding
import SpimCompiler.Analysis.Result
import SpimCompiler.Command
import SpimCompiler.Main
import SpimCompiler.Proofs.TypingCorrectness
import SpimCompiler.Proofs.StatementCode
import SpimCompiler.Proofs.Preservation
import SpimCompiler.Proofs.Occurrences
import SpimCompiler.Proofs.StorageLabels
import SpimCompiler.Proofs.NameResolution
import SpimCompiler.Proofs.JumpTargets
import SpimCompiler.Proofs.DiagnosticOrder
import SpimCompiler.Proofs.UntypedNodes
import SpimCompiler.Proofs.CodePlacement
import SpimCompiler.Proofs.FirstDefect
import SpimCompiler.Proofs.Confinement
import SpimCompiler.Proofs.MemoryFrame
import SpimCompiler.Proofs.ProgramImage
import SpimCompiler.Proofs.StackDiscipline
import SpimCompiler.Proofs.Concatenation
import SpimCompiler.Proofs.PlacedStrings
import SpimCompiler.Proofs.StringVariables
import SpimCompiler.Proofs.HookOrder
import SpimCompiler.Proofs.ScopeHistories
import SpimCompiler.Proofs.VariableCells
import SpimCompiler.Proofs.StringPool
import SpimCompiler.Proofs.StorageHistories
import SpimCompiler.Proofs.BuilderHistories
import SpimCompiler.Proofs.Renaming
import SpimCompiler.Proofs.ArenaSpellings
import SpimCompiler.Proofs.LabelHistories
