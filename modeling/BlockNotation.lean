import BlockNotation.Main
import BlockNotation.Proofs.Script.Faithful
import BlockNotation.Proofs.Script.Ranges
import BlockNotation.Proofs.Script.Predicates
import BlockNotation.Proofs.Script.Spans
import BlockNotation.Proofs.Script.Walk
import BlockNotation.Proofs.Script.Attachment
import BlockNotation.Proofs.Script.Completion
import BlockNotation.Proofs.Token.Lossless
import BlockNotation.Proofs.Token.Cutting
import BlockNotation.Proofs.Grammar.Expansion
import BlockNotation.Proofs.Grammar.Recursion
import BlockNotation.Proofs.Grammar.Validation
import BlockNotation.Proofs.Token.Lookahead
import BlockNotation.Proofs.Token.Replacing
import BlockNotation.Proofs.Token.Separation
import BlockNotation.Proofs.Token.Lines
import BlockNotation.Proofs.Token.LineEnds
import BlockNotation.Proofs.Script.Accord
import BlockNotation.Proofs.Script.Abreast
import BlockNotation.Proofs.Script.Newlines
import BlockNotation.Proofs.Grammar.Leads
import BlockNotation.Proofs.Grammar.Cycles
import BlockNotation.Proofs.Token.Positions
import BlockNotation.Proofs.Modifier.Log
import BlockNotation.Proofs.Modifier.Extension
import BlockNotation.Proofs.Modifier.Patterns
import BlockNotation.Proofs.Token.Keywords
import BlockNotation.Proofs.Script.Faults
import BlockNotation.Proofs.Script.Kinds
import BlockNotation.Proofs.Fixture.Categories
import BlockNotation.Proofs.Fixture.FrontMatter
import BlockNotation.Proofs.Report.Records
import BlockNotation.Proofs.Fixture.Selection
import BlockNotation.Proofs.Token.LongestLabel
import BlockNotation.Proofs.Token.SafeCuts
import BlockNotation.Proofs.Script.Unlimited
