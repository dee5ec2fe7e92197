import Curried.Main
import Curried.Proofs.Cli.InertLines
import Curried.Proofs.Cli.JoinedLines
import Curried.Proofs.Eval.Alike
import Curried.Proofs.Eval.Arithmetic
import Curried.Proofs.Eval.BigStep
import Curried.Proofs.Eval.Currying
import Curried.Proofs.Eval.Frame
import Curried.Proofs.Eval.Provenance
import Curried.Proofs.Eval.Replay
import Curried.Proofs.Eval.Scoped
import Curried.Proofs.Eval.Valued
import Curried.Proofs.Parse.Backtracks
import Curried.Proofs.Parse.Completion
import Curried.Proofs.Parse.Correspondence
import Curried.Proofs.Parse.Descent
import Curried.Proofs.Parse.Layout
import Curried.Proofs.Parse.Leftover
import Curried.Proofs.Parse.Overflow
import Curried.Proofs.Parse.Progress
import Curried.Proofs.Parse.Reports
import Curried.Proofs.Text.Faults
import Curried.Proofs.Text.Partition
import Curried.Proofs.Text.RoundTrip
import Curried.Proofs.Text.Unambiguous
