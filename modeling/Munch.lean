import Munch.Main
import Munch.Proofs.Pattern.Completeness
import Munch.Proofs.Tokenize
import Munch.Proofs.Stream
import Munch.Proofs.Cursor
import Munch.Proofs.Dfa.Exactness
import Munch.Proofs.Scan.Attempt
import Munch.Proofs.Scan.Course
import Munch.Proofs.Scan.Failure
import Munch.Proofs.Scan.Termination
import Munch.Proofs.Scan.Progress
import Munch.Proofs.Pattern.WellFormed
import Munch.Proofs.Pattern.Printing
import Munch.Proofs.Lifecycle
import Munch.Proofs.Scan.Builtin
import Munch.Proofs.Scan.Tiling
import Munch.Proofs.Nfa.Viability
import Munch.Proofs.Merging
import Munch.Proofs.Pattern.Completion
import Munch.Proofs.FailureOffset
import Munch.Proofs.Scan.Literal
import Munch.Proofs.Scan.Displacement
import Munch.Proofs.Scan.Nullability
import Munch.Proofs.Pattern.Blame
import Munch.Proofs.Dfa.Numbering
import Munch.Proofs.Lines
import Munch.Proofs.Inverse
import Munch.Proofs.SymbolTable
import Munch.Proofs.Utf8
import Munch.Proofs.Scan.Unconsumed
import Munch.Proofs.Escaping
import Munch.Proofs.Caret
import Munch.Proofs.Bitmap
import Munch.Proofs.Nfa.Canonical
import Munch.Proofs.Pattern.Advance
