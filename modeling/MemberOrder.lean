import MemberOrder.Check
import MemberOrder.CommandLine.Arguments
import MemberOrder.CommandLine.Escapes
import MemberOrder.CommandLine.Program
import MemberOrder.Declaration.Rule
import MemberOrder.Declaration.File
import MemberOrder.Declaration.Member
import MemberOrder.Declaration.Tree
import MemberOrder.Files.Glob
import MemberOrder.Files.Ignore
import MemberOrder.Files.Path
import MemberOrder.Files.Tree
import MemberOrder.Files.Walk
import MemberOrder.Json
import MemberOrder.Main
import MemberOrder.Order.Kind
import MemberOrder.Order.Traversal
import MemberOrder.Report
import MemberOrder.Settings
import MemberOrder.Text.Character
import MemberOrder.Text.Span
import MemberOrder.Token.Tokens
import MemberOrder.Token.Piece
import MemberOrder.Token.Symbol
import MemberOrder.Proofs.Order.Findings
import MemberOrder.Proofs.Order.History
import MemberOrder.Proofs.Declaration.Balanced
import MemberOrder.Proofs.Declaration.Closers
import MemberOrder.Proofs.Declaration.Accepted
import MemberOrder.Proofs.Token.Apart
import MemberOrder.Proofs.Written.Lexeme
import MemberOrder.Proofs.Written.Tree
import MemberOrder.Proofs.Written.Modifiers
import MemberOrder.Proofs.Written.Members
import MemberOrder.Proofs.Written.RoundTrip
import MemberOrder.Proofs.Text.Place
import MemberOrder.Proofs.Token.Trivia
import MemberOrder.Proofs.Token.Forms
import MemberOrder.Proofs.Token.Lossless
import MemberOrder.Proofs.Token.Spacing
import MemberOrder.Proofs.Declaration.Drops
import MemberOrder.Proofs.Declaration.Layout
import MemberOrder.Proofs.Declaration.Parts
import MemberOrder.Proofs.Declaration.Bodies
import MemberOrder.Proofs.Declaration.Spans
import MemberOrder.Proofs.Order.Gather
import MemberOrder.Proofs.Order.Sorted
import MemberOrder.Proofs.Order.Tidy
import MemberOrder.Proofs.Token.Seam
import MemberOrder.Proofs.Declaration.Stretches
import MemberOrder.Proofs.Declaration.Near
import MemberOrder.Proofs.Declaration.Ends
import MemberOrder.Proofs.Declaration.Fronts
import MemberOrder.Proofs.Declaration.Leaves
import MemberOrder.Proofs.Declaration.Edits
import MemberOrder.Proofs.Check.Concatenation
import MemberOrder.Proofs.Check.Payloads
import MemberOrder.Proofs.Check.Blocks
import MemberOrder.Proofs.Check.Removal
import MemberOrder.Proofs.Declaration.Origins
import MemberOrder.Proofs.Declaration.Progress
import MemberOrder.Proofs.Order.InPlace
import MemberOrder.Proofs.Declaration.Headers
import MemberOrder.Proofs.Files.Components
import MemberOrder.Proofs.Files.Places
import MemberOrder.Proofs.Files.Found
import MemberOrder.Proofs.Files.Untouched
import MemberOrder.Proofs.Files.Flat
import MemberOrder.Proofs.Report.Accounts
import MemberOrder.Proofs.Report.Once
import MemberOrder.Proofs.Order.Disorder
import MemberOrder.Proofs.CommandLine.Endings
import MemberOrder.Proofs.Written.Surroundings
import MemberOrder.Proofs.Written.Creations
import MemberOrder.Proofs.Token.Escape
import MemberOrder.Proofs.Token.Unclosed
import MemberOrder.Proofs.Token.Literals
import MemberOrder.Proofs.Token.Words
import MemberOrder.Proofs.Files.Ordered
import MemberOrder.Proofs.Files.Collected
import MemberOrder.Proofs.Token.Numbers
import MemberOrder.Proofs.Text.Bytes
import MemberOrder.Proofs.Settings.Given
import MemberOrder.Proofs.Settings.Entries
import MemberOrder.Proofs.Settings.Overrides
import MemberOrder.Proofs.Settings.Spellings
import MemberOrder.Proofs.Settings.Extensions
import MemberOrder.Proofs.Declaration.Groups
import MemberOrder.Proofs.Json.RoundTrip
import MemberOrder.Proofs.Report.Rows
import MemberOrder.Proofs.Report.Lines
