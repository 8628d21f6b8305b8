import NesCore.Main
import NesCore.Proofs.Memory.History
import NesCore.Proofs.Memory.Unreachable
import NesCore.Proofs.RomIntegrity
import NesCore.Proofs.StepErrors
import NesCore.Proofs.Composed
import NesCore.Proofs.Course.Success
import NesCore.Proofs.Course.Wraps
import NesCore.Proofs.Lifecycle
import NesCore.Proofs.Ledger
import NesCore.Proofs.CycleCount
import NesCore.Proofs.InterruptLatches
import NesCore.Proofs.CutRuns
import NesCore.Proofs.Comparison
import NesCore.Proofs.PolicyIndependence
import NesCore.Proofs.StackChecks
import NesCore.Proofs.Noninterference
import NesCore.Proofs.StatusDiscipline
import NesCore.Proofs.ConsoleReset
import NesCore.Proofs.CommandLine.Session
import NesCore.Proofs.CommandLine.Run
import NesCore.Proofs.CommandLine.Arguments
import NesCore.Proofs.CommandLine.ExitStatus
import NesCore.Proofs.CommandLine.Trace
import NesCore.Proofs.StackPage
import NesCore.Proofs.Addressing
import NesCore.Proofs.InterruptReturn
import NesCore.Proofs.FailedSteps
import NesCore.Proofs.MultiByte
import NesCore.Proofs.StepCycles
import NesCore.Proofs.Footprint
import NesCore.Proofs.OperandByte
import NesCore.Proofs.Subroutine
import NesCore.Proofs.Branches
import NesCore.Proofs.Ordering
import NesCore.Proofs.TraceDecoding
import NesCore.Proofs.AssemblerText
import NesCore.Proofs.LoadedProgram
import NesCore.Proofs.RejectedDumps
import NesCore.Proofs.MappedCartridge
import NesCore.Proofs.CommandLine.ColouredTrace
import NesCore.Proofs.HeaderBits
import NesCore.Proofs.StackOrder
import NesCore.Proofs.ShiftChains
