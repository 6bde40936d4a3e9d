import StyleValue.Catalogue
import StyleValue.Position
import StyleValue.Parse
import StyleValue.Proofs.Tiling
import StyleValue.Proofs.Separation
import StyleValue.Proofs.Frontier
import StyleValue.Proofs.Trailing
import StyleValue.Proofs.Untrimmed
import StyleValue.Proofs.Rebuilding
import StyleValue.Proofs.Behind
import StyleValue.Proofs.Counting
import StyleValue.Proofs.Rounding
import StyleValue.Proofs.TrialOrder
import StyleValue.Proofs.Wrapping
import StyleValue.Proofs.Longest
import StyleValue.Proofs.Lookahead
import StyleValue.Proofs.Ownership
import StyleValue.Proofs.Quoting
import StyleValue.Proofs.Margins
import StyleValue.Proofs.Nested
import StyleValue.Proofs.Progress
