import MapStyle.Cascade
import MapStyle.Function
import MapStyle.Cql.Reading
import MapStyle.Watcher
import MapStyle.Lexeme.Written
import MapStyle.Proofs.Selector.Merge
import MapStyle.Proofs.Selector.Choice
import MapStyle.Proofs.Cascade.Flatten
import MapStyle.Proofs.Cascade.Passes
import MapStyle.Proofs.Locality.Resolver
import MapStyle.Proofs.Cascade.Declaration
import MapStyle.Proofs.Cascade.Selection
import MapStyle.Proofs.Cascade.Layer
import MapStyle.Proofs.Reading.Concatenation
import MapStyle.Proofs.Reading.Sheets
import MapStyle.Proofs.Accumulation.Policies
import MapStyle.Proofs.Printing.Rules
import MapStyle.Proofs.Balance.Sheets
import MapStyle.Proofs.Cascade.Drawing
import MapStyle.Proofs.Expressions.Acceptance
import MapStyle.Proofs.Comments.Sheets
import MapStyle.Proofs.Accumulation.WellFormed
import MapStyle.Proofs.Coverage.Tokens
import MapStyle.Proofs.FilterTexts.Groups
import MapStyle.Proofs.Nesting.Depth
import MapStyle.Proofs.Reading.Duration
import MapStyle.Proofs.Reading.Finality
import MapStyle.Proofs.Reloading.Places
import MapStyle.Proofs.Reloading.Effects
import MapStyle.Proofs.Reloading.Order
import MapStyle.Proofs.Cascade.Overlay
import MapStyle.Proofs.Reloading.Watching
import MapStyle.Proofs.Evaluation.Stability
import MapStyle.Proofs.Reading.FilterRuns
import MapStyle.Proofs.Locality.Closure
import MapStyle.Proofs.Selector.Grouping
import MapStyle.Proofs.Cascade.Fields
import MapStyle.Proofs.Numbers.Warnings
import MapStyle.Proofs.Numbers.Brackets
import MapStyle.Proofs.Numbers.Entries
import MapStyle.Proofs.Blanks.Insertion
import MapStyle.Proofs.Cascade.Collapse
import MapStyle.Proofs.Cascade.Idempotence
import MapStyle.Proofs.Printing.Strings
import MapStyle.Proofs.Expressions.Gaps
import MapStyle.Proofs.Decimals.Integral
import MapStyle.Proofs.Equality.Filters
import MapStyle.Proofs.Colors.Cuts
