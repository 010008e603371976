import Intcode.CommandLine.Desk
import Intcode.Main
import Intcode.Memory.Lemmas
import Intcode.Memory.Printer
import Intcode.Proofs.Checkpoint.ReadBack
import Intcode.Proofs.Instruction.Agreement
import Intcode.Proofs.Machine.Arrival
import Intcode.Proofs.Machine.Failure
import Intcode.Proofs.Machine.Interchange
import Intcode.Proofs.Machine.Transparency
import Intcode.Proofs.Memory.LastStore
import Intcode.Proofs.Pipeline.TurnBudget
import Intcode.Proofs.Machine.Emission
import Intcode.Proofs.Pipeline.Deadlock
import Intcode.Proofs.Pipeline.Meter
import Intcode.Proofs.Pipeline.HandOff
import Intcode.Proofs.Pipeline.Results
import Intcode.Proofs.Pipeline.Series
import Intcode.Proofs.Machine.Policy
import Intcode.Proofs.Machine.Waiting
import Intcode.Proofs.Pipeline.Resumption
import Intcode.Proofs.Machine.Replay
import Intcode.Proofs.Session.Conversation
import Intcode.Proofs.Session.Branch
import Intcode.Proofs.Machine.Halted
import Intcode.Proofs.Machine.Reset
import Intcode.Proofs.Machine.Traffic
import Intcode.Proofs.Machine.Budget
import Intcode.Proofs.Machine.Bounded
import Intcode.Proofs.Machine.Frame
import Intcode.Proofs.Instruction.Digits
import Intcode.Proofs.Memory.Reading
import Intcode.Proofs.Memory.Extent
import Intcode.Proofs.Machine.Counter
import Intcode.Proofs.Strict.Session
import Intcode.Proofs.Text.Numeral
import Intcode.Proofs.Program.Canonical
import Intcode.Proofs.Program.Tiling
import Intcode.Proofs.Text.Answer
import Intcode.Proofs.Program.Listing
