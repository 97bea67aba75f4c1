import SignalLang.Cli.Run
import SignalLang.Compiler
import SignalLang.Conformance.Load
import SignalLang.Decimal.Read
import SignalLang.Engine.Basic
import SignalLang.Main
import SignalLang.Proofs.Compiler
import SignalLang.Session
import SignalLang.Text.Resemblance
import SignalLang.Tree.Outline
import SignalLang.Ty.Promotion
import SignalLang.Proofs.Staged.Known
import SignalLang.Proofs.Broadcast
import SignalLang.Proofs.Flat.Machine
import SignalLang.Proofs.Flat.Safety
import SignalLang.Proofs.Ir.Blocks
import SignalLang.Proofs.Ir.Execution
import SignalLang.Proofs.Ir.Simulation
import SignalLang.Proofs.Token.Scanning
import SignalLang.Proofs.Tree.Faithful
import SignalLang.Proofs.Tree.Grammar
import SignalLang.Proofs.Tree.Literals
import SignalLang.Proofs.Tree.Printing
import SignalLang.Proofs.Tree.Reading
import SignalLang.Proofs.Tree.RoundTrip
import SignalLang.Proofs.Scoped.Flow
import SignalLang.Proofs.Staged.Depth
import SignalLang.Proofs.Staged.Outcomes
import SignalLang.Proofs.Staged.MacroFlow
import SignalLang.Proofs.Staged.Nesting
import SignalLang.Proofs.Staged.Termination
import SignalLang.Proofs.Staged.KeptLoops
import SignalLang.Proofs.Resolved
import SignalLang.Proofs.Scoped.Blocks
import SignalLang.Proofs.Scoped.Direct
import SignalLang.Proofs.Staged.Safe
import SignalLang.Proofs.Staged.Entering
import SignalLang.Proofs.Staged.Faultless
import SignalLang.Proofs.Engine
import SignalLang.Proofs.Ir.Words
import SignalLang.Proofs.Scoped.Renaming
import SignalLang.Proofs.Token.Lossless
import SignalLang.Proofs.Token.Places
import SignalLang.Proofs.Tree.Nesting
import SignalLang.Proofs.Tree.Climbing
import SignalLang.Proofs.Scoped.Including
import SignalLang.Proofs.Flat.Expressions
import SignalLang.Proofs.Flat.Assignments
import SignalLang.Proofs.Flat.Loops
import SignalLang.Proofs.Flat.Branches
import SignalLang.Proofs.Staged.Laws
import SignalLang.Proofs.Staged.Framing
import SignalLang.Proofs.Staged.Statics
import SignalLang.Proofs.Staged.Pruning
import SignalLang.Proofs.Staged.Activations
import SignalLang.Proofs.Staged.Evaluation
import SignalLang.Proofs.Staged.Tracking
import SignalLang.Proofs.Staged.InStep
import SignalLang.Proofs.Staged.WriteSets
import SignalLang.Proofs.Flat.Numbering
import SignalLang.Proofs.Flat.Restretching
import SignalLang.Proofs.Odometer
import SignalLang.Proofs.Staged.Arithmetic
import SignalLang.Proofs.Session
import SignalLang.Proofs.Underlining
