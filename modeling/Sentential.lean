import Sentential.Checked
import Sentential.Formula.Semantics
import Sentential.Formula.Substitution
import Sentential.Formula.Text
import Sentential.Formula.Yield
import Sentential.Grammar
import Sentential.Item.Balance
import Sentential.Item.Part
import Sentential.Outline
import Sentential.Proofs.MainConnective
import Sentential.Proofs.Nesting
import Sentential.Proofs.Reading
import Sentential.Proofs.Strictness
import Sentential.Proofs.Grammar
import Sentential.Proofs.RoundTrip
import Sentential.Proofs.Evaluation
import Sentential.Proofs.Balance
import Sentential.Proofs.Counting
import Sentential.Proofs.Checks
import Sentential.Proofs.Equivalence
import Sentential.Proofs.Substitution
import Sentential.Proofs.LenientReading
import Sentential.Proofs.Mismatch
import Sentential.Proofs.TableFailure
import Sentential.Proofs.Completeness
import Sentential.Proofs.Dependence
import Sentential.Proofs.Laws
import Sentential.Proofs.Instances
import Sentential.Proofs.Spacing
import Sentential.Proofs.LoneParentheses
import Sentential.Proofs.History
import Sentential.Proofs.AssignmentText
import Sentential.Proofs.Repetition
