import FieldScript.Chunk.Artifact
import FieldScript.Chunk.Listing
import FieldScript.Command
import FieldScript.Compiler
import FieldScript.Expr.Outline
import FieldScript.Expr.Parser
import FieldScript.Expr.Printer
import FieldScript.Machine
import FieldScript.Main
import FieldScript.Proofs.Acceptance
import FieldScript.Proofs.Artifacts
import FieldScript.Proofs.Backpatching
import FieldScript.Proofs.Balance
import FieldScript.Proofs.Blanks
import FieldScript.Proofs.Bookkeeping
import FieldScript.Proofs.Clamping
import FieldScript.Proofs.CodeBuffer
import FieldScript.Proofs.Completions
import FieldScript.Proofs.Computations
import FieldScript.Proofs.Conditions
import FieldScript.Proofs.Correctness
import FieldScript.Proofs.Derivations
import FieldScript.Proofs.Descent
import FieldScript.Proofs.Emission
import FieldScript.Proofs.EmittedRuns
import FieldScript.Proofs.Evaluator
import FieldScript.Proofs.FieldTable
import FieldScript.Proofs.Forward
import FieldScript.Proofs.Grammar
import FieldScript.Proofs.InstrRow
import FieldScript.Proofs.Invocations
import FieldScript.Proofs.Journal
import FieldScript.Proofs.Layout
import FieldScript.Proofs.LexFaults
import FieldScript.Proofs.Lexemes
import FieldScript.Proofs.Lines
import FieldScript.Proofs.Listings
import FieldScript.Proofs.Lockstep
import FieldScript.Proofs.Lookahead
import FieldScript.Proofs.Miscalls
import FieldScript.Proofs.Numerals
import FieldScript.Proofs.Paths
import FieldScript.Proofs.Period
import FieldScript.Proofs.Pieces
import FieldScript.Proofs.Places
import FieldScript.Proofs.Presets
import FieldScript.Proofs.Progress
import FieldScript.Proofs.Relocation
import FieldScript.Proofs.Renaming
import FieldScript.Proofs.RoundTrip
import FieldScript.Proofs.Sessions
import FieldScript.Proofs.Simulation
import FieldScript.Proofs.Soundness
import FieldScript.Proofs.Spelling
import FieldScript.Proofs.Stepping
import FieldScript.Proofs.StoredFields
import FieldScript.Proofs.SurfaceTrees
import FieldScript.Proofs.TaggedNumbers
import FieldScript.Proofs.Walk
import FieldScript.Proofs.Worklist
import FieldScript.Proofs.Writing
import FieldScript.Token.Listing
