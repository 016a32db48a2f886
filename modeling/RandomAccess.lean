import RandomAccess.Program.Builder
import RandomAccess.Derive.Display
import RandomAccess.Main
import RandomAccess.Proofs.Memory.Storage
import RandomAccess.Proofs.InPlace.Action
import RandomAccess.Proofs.InPlace.Registers
import RandomAccess.Proofs.Memory.History
import RandomAccess.Proofs.Execution.Stepping
import RandomAccess.Proofs.Execution.Abstract
import RandomAccess.Proofs.Execution.Refinement
import RandomAccess.Proofs.InPlace.Step
import RandomAccess.Proofs.InPlace.Atomicity
import RandomAccess.Proofs.InPlace.Safety
import RandomAccess.Proofs.Execution.Making
import RandomAccess.Proofs.Execution.Returning
import RandomAccess.Proofs.Execution.Causes
import RandomAccess.Proofs.Execution.Truncation
import RandomAccess.Proofs.Cost.Totals
import RandomAccess.Proofs.Cost.Profile
import RandomAccess.Proofs.Cost.Terms
import RandomAccess.Proofs.Cost.Bounds
import RandomAccess.Proofs.Trace.Path
import RandomAccess.Proofs.Memory.Equality
import RandomAccess.Proofs.Text.Decimal
import RandomAccess.Proofs.Program.Listing
import RandomAccess.Proofs.Program.Building
import RandomAccess.Proofs.Memory.Observation
import RandomAccess.Proofs.Memory.Ladder
import RandomAccess.Proofs.Trace.Tapes
import RandomAccess.Proofs.Comparison.Simulation
import RandomAccess.Proofs.Comparison.Capacity
import RandomAccess.Proofs.Trace.Failure
import RandomAccess.Proofs.Execution.ControlFlow
import RandomAccess.Proofs.Execution.Forward
import RandomAccess.Proofs.Comparison.UnreadInput
import RandomAccess.Proofs.Comparison.UnvisitedInstructions
import RandomAccess.Proofs.Trace.Footprint
import RandomAccess.Proofs.Comparison.TargetModes
import RandomAccess.Proofs.Trace.Charges
import RandomAccess.Proofs.Execution.Derivation
import RandomAccess.Proofs.Samples.AbsoluteValue
import RandomAccess.Proofs.Samples.Sum
import RandomAccess.Proofs.Samples.Selection
import RandomAccess.Proofs.Samples.Bounds
import RandomAccess.Proofs.Template.Scanner
import RandomAccess.Proofs.Template.Grammar
import RandomAccess.Proofs.Template.Lockstep
import RandomAccess.Proofs.CommandLine.Session
import RandomAccess.Proofs.CommandLine.Arguments
import RandomAccess.Proofs.CommandLine.Verdict
import RandomAccess.Proofs.CommandLine.Invocation
import RandomAccess.Proofs.CommandLine.Logging
import RandomAccess.Proofs.Derive.Scope
import RandomAccess.Proofs.Derive.Positions
