import MonkeySyntax.Grammar.Parser
import MonkeySyntax.Tree.Debug
import MonkeySyntax.Shell.Command
import MonkeySyntax.Main
import MonkeySyntax.Proofs.Derivation
import MonkeySyntax.Proofs.RoundTrip
import MonkeySyntax.Proofs.Mirroring
import MonkeySyntax.Proofs.Reflecting
import MonkeySyntax.Proofs.Breaking
import MonkeySyntax.Proofs.Earliest
import MonkeySyntax.Proofs.Joining
import MonkeySyntax.Proofs.Containment
import MonkeySyntax.Proofs.Diagnosis
import MonkeySyntax.Proofs.Printing
import MonkeySyntax.Proofs.Calls
import MonkeySyntax.Proofs.Reparsing
import MonkeySyntax.Proofs.Settling
import MonkeySyntax.Proofs.Accounting
import MonkeySyntax.Proofs.Ordering
import MonkeySyntax.Proofs.Blanking
import MonkeySyntax.Proofs.Semicolons
import MonkeySyntax.Proofs.Gaps
import MonkeySyntax.Proofs.Munching
import MonkeySyntax.Proofs.Spacing
import MonkeySyntax.Proofs.Nesting
import MonkeySyntax.Proofs.Rendering
import MonkeySyntax.Proofs.Anatomy
import MonkeySyntax.Proofs.Decoding
import MonkeySyntax.Proofs.Window
import MonkeySyntax.Proofs.Dialogue
import MonkeySyntax.Proofs.Seams
import MonkeySyntax.Proofs.Scanning
import MonkeySyntax.Proofs.Sessions
import MonkeySyntax.Proofs.Flat
import MonkeySyntax.Proofs.Uniqueness
import MonkeySyntax.Proofs.Climbing
import MonkeySyntax.Proofs.Returns
import MonkeySyntax.Proofs.Lines
import MonkeySyntax.Proofs.Tabulating
import MonkeySyntax.Proofs.Wording
import MonkeySyntax.Proofs.Presenting
import MonkeySyntax.Proofs.Agreeing
import MonkeySyntax.Proofs.Limits
import MonkeySyntax.Proofs.Comparing
