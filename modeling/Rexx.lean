import Rexx.Sample.Modules
import Rexx.Main
import Rexx.Proofs.Replay.Statements
import Rexx.Proofs.Structured.Refinement
import Rexx.Proofs.Token.Heredoc
import Rexx.Proofs.Grammar.Blocks
import Rexx.Proofs.Module.Registrations
import Rexx.Proofs.Session.Expiry
import Rexx.Proofs.Machine.Ban
import Rexx.Proofs.Machine.Numeric
import Rexx.Proofs.Machine.Tracing
import Rexx.Proofs.Template.Columns
import Rexx.Proofs.Variable.Interpolation
import Rexx.Proofs.Number.Truncation
import Rexx.Proofs.Text.Words
import Rexx.Proofs.Text.Order
