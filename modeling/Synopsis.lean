import Synopsis.Grammar.Variants
import Synopsis.Help.Compiled
import Synopsis.Json.Help
import Synopsis.Lexeme.Kind
import Synopsis.OptionRecord.Parse
import Synopsis.Proofs.Acceptance
import Synopsis.Proofs.Accounts
import Synopsis.Proofs.Advance
import Synopsis.Proofs.AlignedLines
import Synopsis.Proofs.Alternatives
import Synopsis.Proofs.Appended
import Synopsis.Proofs.AppendedOptions
import Synopsis.Proofs.Blocks
import Synopsis.Proofs.Cardinality
import Synopsis.Proofs.Choices
import Synopsis.Proofs.Composition
import Synopsis.Proofs.Conservation
import Synopsis.Proofs.Decisions
import Synopsis.Proofs.Defaults
import Synopsis.Proofs.Definitions
import Synopsis.Proofs.Ends
import Synopsis.Proofs.Expansion
import Synopsis.Proofs.Faults
import Synopsis.Proofs.Flatness
import Synopsis.Proofs.Forms
import Synopsis.Proofs.Headings
import Synopsis.Proofs.Limits
import Synopsis.Proofs.Lines
import Synopsis.Proofs.Linked
import Synopsis.Proofs.Links
import Synopsis.Proofs.LongestCuts
import Synopsis.Proofs.Mates
import Synopsis.Proofs.OpenGroups
import Synopsis.Proofs.Openings
import Synopsis.Proofs.OptionLayout
import Synopsis.Proofs.Padding
import Synopsis.Proofs.Paragraphs
import Synopsis.Proofs.PartialLinks
import Synopsis.Proofs.Places
import Synopsis.Proofs.Pushes
import Synopsis.Proofs.Reading
import Synopsis.Proofs.Reparse
import Synopsis.Proofs.Repeats
import Synopsis.Proofs.RoundTrip
import Synopsis.Proofs.SectionCut
import Synopsis.Proofs.Sections
import Synopsis.Proofs.Separators
import Synopsis.Proofs.Spelling
import Synopsis.Proofs.Tokens
import Synopsis.Proofs.Tree
import Synopsis.Proofs.Trimming
import Synopsis.Proofs.Untouched
import Synopsis.Proofs.Worklist
import Synopsis.Usage.Parse
