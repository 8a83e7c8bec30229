import Wordcode.Calling.Diagnostic
import Wordcode.Circuit.Search
import Wordcode.Main
import Wordcode.Proofs.Circuit.Deadlock
import Wordcode.Proofs.Circuit.Fuel
import Wordcode.Proofs.Circuit.Confluence
import Wordcode.Proofs.Debugger.Drive
import Wordcode.Proofs.Debugger.Refresh
import Wordcode.Proofs.Debugger.Pause
import Wordcode.Proofs.Machine.Alike
import Wordcode.Proofs.Machine.Conservation
import Wordcode.Proofs.Machine.Delivery
import Wordcode.Proofs.Machine.Drivers
import Wordcode.Proofs.Machine.Ended
import Wordcode.Proofs.Machine.Refinement
import Wordcode.Proofs.Program.Language
import Wordcode.Proofs.Machine.Control
import Wordcode.Proofs.Program.RoundTrip
import Wordcode.Proofs.Circuit.Chain
import Wordcode.Proofs.Circuit.Feedforward
import Wordcode.Proofs.Circuit.Search
import Wordcode.Proofs.Instruction.Words
import Wordcode.Proofs.Listing.Text
import Wordcode.Proofs.Listing.Tiling
import Wordcode.Proofs.Program.Refusal
import Wordcode.Proofs.Machine.Trace
import Wordcode.Proofs.Machine.Extends
import Wordcode.Proofs.Machine.Dialogue
import Wordcode.Proofs.Computation
import Wordcode.Proofs.Calling.Padded
import Wordcode.Proofs.Circuit.Padded
import Wordcode.Proofs.TrailingZeros
import Wordcode.Proofs.Machine.Counters
import Wordcode.Proofs.Calling.Search
import Wordcode.Proofs.CommandLine.Run
import Wordcode.Proofs.Debugger.Account
import Wordcode.Proofs.Memory.Calls
import Wordcode.Proofs.Program.Overrides
import Wordcode.Proofs.Debugger.Panels
