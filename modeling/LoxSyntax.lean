import LoxSyntax.Main
import LoxSyntax.Tree.Agreement
import LoxSyntax.Tree.Rows
import LoxSyntax.Proofs.Blame.Program
import LoxSyntax.Proofs.Canonical.Program
import LoxSyntax.Proofs.Command.Output
import LoxSyntax.Proofs.Command.Prompt
import LoxSyntax.Proofs.Layout.Session
import LoxSyntax.Proofs.Misfit.Program
import LoxSyntax.Proofs.Munch.Scan
import LoxSyntax.Proofs.Number.Printed
import LoxSyntax.Proofs.Operand.Missing
import LoxSyntax.Proofs.Reading.Maximal
import LoxSyntax.Proofs.Recovery.Block
import LoxSyntax.Proofs.Recovery.Boundary
import LoxSyntax.Proofs.Recovery.Semicolon
import LoxSyntax.Proofs.SExpression.Program
import LoxSyntax.Proofs.Session.Ceiling
import LoxSyntax.Proofs.Session.Loop
import LoxSyntax.Proofs.Session.Progress
import LoxSyntax.Proofs.Session.Range
import LoxSyntax.Proofs.Session.Renewal
import LoxSyntax.Proofs.Session.Unwinding
import LoxSyntax.Proofs.Source.Acceptance
import LoxSyntax.Proofs.Source.Concatenation
import LoxSyntax.Proofs.Source.RoundTrip
import LoxSyntax.Proofs.Token.Spaced
import LoxSyntax.Proofs.Traversal.Program
