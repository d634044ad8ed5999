import Accumulator.Main
import Accumulator.Proofs.Arrival.Listing
import Accumulator.Proofs.FileError
import Accumulator.Proofs.Layout.Blame
import Accumulator.Proofs.Layout.Integers
import Accumulator.Proofs.Layout.QuotedText
import Accumulator.Proofs.Layout.Renaming
import Accumulator.Proofs.Layout.Respacing
import Accumulator.Proofs.Layout.Suggestion
import Accumulator.Proofs.Machine.Bracketing
import Accumulator.Proofs.Machine.Encoding
import Accumulator.Proofs.Machine.Interrupt
import Accumulator.Proofs.Programs.Echo
import Accumulator.Proofs.Programs.PrintingSource
import Accumulator.Proofs.Run.Accounting
import Accumulator.Proofs.Run.Counters
import Accumulator.Proofs.Run.Noninterference
import Accumulator.Proofs.Run.Trace
import Accumulator.Proofs.Source.Tiling
