import MiniLisp.Value.Inspect
import MiniLisp.Main
import MiniLisp.Proofs.RoundTrip
import MiniLisp.Proofs.Approximation
import MiniLisp.Proofs.Recursive
import MiniLisp.Proofs.Trampoline
import MiniLisp.Proofs.Stepping
import MiniLisp.Proofs.FailFast
import MiniLisp.Proofs.Handling
import MiniLisp.Proofs.Clean
import MiniLisp.Proofs.CleanNatives
import MiniLisp.Proofs.Keeping
import MiniLisp.Proofs.CleanEvaluation
import MiniLisp.Proofs.Watched
import MiniLisp.Proofs.GlobalScope
import MiniLisp.Proofs.DepthLimit
import MiniLisp.Proofs.ScopeChain
import MiniLisp.Proofs.Discipline
import MiniLisp.Proofs.Confinement
import MiniLisp.Proofs.SessionScopes
import MiniLisp.Proofs.Filling
import MiniLisp.Proofs.Grammar
import MiniLisp.Proofs.Recognition
import MiniLisp.Proofs.Wrapping
import MiniLisp.Proofs.Layers
import MiniLisp.Proofs.FileLoading
import MiniLisp.Proofs.StandardNames
import MiniLisp.Proofs.ErrorFreeData
import MiniLisp.Proofs.Scripts
import MiniLisp.Proofs.Environments
import MiniLisp.Proofs.Metadata
import MiniLisp.Proofs.MapLiterals
import MiniLisp.Proofs.CallingWays
import MiniLisp.Proofs.TailLoops
import MiniLisp.Proofs.TakenForms
import MiniLisp.Proofs.MalformedFiles
import MiniLisp.Proofs.LexicalScope
import MiniLisp.Proofs.Transparency
import MiniLisp.Proofs.Clauses
import MiniLisp.Proofs.Connectives
import MiniLisp.Proofs.Threading
import MiniLisp.Proofs.Decomposition
import MiniLisp.Proofs.QuotedData
import MiniLisp.Proofs.DistinctNames
import MiniLisp.Proofs.FirstForm
import MiniLisp.Proofs.Elision
import MiniLisp.Proofs.StructuralEquality
import MiniLisp.Proofs.EqualInPrint
import MiniLisp.Proofs.ExactArithmetic
import MiniLisp.Proofs.ScopeWrites
import MiniLisp.Proofs.Parameters
import MiniLisp.Proofs.FiniteMaps
import MiniLisp.Proofs.ScopeQueries
import MiniLisp.Proofs.FailedWrites
import MiniLisp.Proofs.ErrorTexts
import MiniLisp.Proofs.PrintDepth
import MiniLisp.Proofs.Respacing
import MiniLisp.Proofs.LiteralEnds
import MiniLisp.Proofs.NativeDepth
