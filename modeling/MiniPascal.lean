import MiniPascal.Main
import MiniPascal.Proofs.Grammar
import MiniPascal.Proofs.Grammar.Numbering
import MiniPascal.Proofs.Grammar.Soundness
import MiniPascal.Proofs.Grammar.Completeness
import MiniPascal.Proofs.Grammar.Tracking
import MiniPascal.Proofs.Grammar.FirstFault
import MiniPascal.Proofs.Scoping
import MiniPascal.Proofs.Scoping.Tables
import MiniPascal.Proofs.Scoping.Resolution
import MiniPascal.Proofs.Scoping.Enclosure
import MiniPascal.Proofs.Moments
import MiniPascal.Proofs.StaticChain
import MiniPascal.Proofs.StaticLinks
import MiniPascal.Proofs.LexicalScoping
import MiniPascal.Proofs.DepthLimit
import MiniPascal.Proofs.Reuse
import MiniPascal.Proofs.Termination
import MiniPascal.Proofs.UnboundNames
import MiniPascal.Proofs.OwnVariables
import MiniPascal.Proofs.Scoping.PostOrder
import MiniPascal.Proofs.Scoping.Coverage
import MiniPascal.Proofs.Nesting
import MiniPascal.Proofs.Lexical.Patterns
import MiniPascal.Proofs.Lexical.MaximalMunch
import MiniPascal.Proofs.Lexical.Separation
import MiniPascal.Proofs.Lexical.Offsets
import MiniPascal.Proofs.Rendering
import MiniPascal.Proofs.Rendering.Spelling
import MiniPascal.Proofs.Rendering.RoundTrip
import MiniPascal.Proofs.Grammar.Landmarks
import MiniPascal.Proofs.Lexical.Coordinates
import MiniPascal.Proofs.Diagnostics
import MiniPascal.Proofs.Executions
import MiniPascal.Proofs.Footprint
import MiniPascal.Proofs.Noninterference
import MiniPascal.Proofs.Lockstep
import MiniPascal.Proofs.Likeness
import MiniPascal.Proofs.Likeness.Checks
import MiniPascal.Proofs.Likeness.Runs
import MiniPascal.Proofs.Likeness.Readers
import MiniPascal.Proofs.Layout
import MiniPascal.Proofs.Evaluation.Exactness
import MiniPascal.Proofs.Evaluation.Kinds
import MiniPascal.Proofs.Renaming
import MiniPascal.Proofs.Grammar.Names
import MiniPascal.Proofs.Scoping.Checkpoints
import MiniPascal.Proofs.Scoping.BuiltinTypes
import MiniPascal.Proofs.Grammar.Progress
import MiniPascal.Proofs.Grammar.Cursor
import MiniPascal.Proofs.Grammar.Demand
import MiniPascal.Proofs.Checks
import MiniPascal.Proofs.Balance
import MiniPascal.Proofs.Scoping.Chain
import MiniPascal.Proofs.Retyping
