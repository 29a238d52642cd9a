import Abacus.Main
import Abacus.Proofs.Dialogue
import Abacus.Proofs.Evaluation.Dependency
import Abacus.Proofs.Evaluation.Limit
import Abacus.Proofs.Evaluation.LongestRun
import Abacus.Proofs.Evaluation.Meaning
import Abacus.Proofs.Evaluation.Promotion
import Abacus.Proofs.Evaluation.Quotient
import Abacus.Proofs.Evaluation.Substitution
import Abacus.Proofs.Evaluation.Wrapping
import Abacus.Proofs.History
import Abacus.Proofs.Influence
import Abacus.Proofs.Line.Blame
import Abacus.Proofs.Line.Caret
import Abacus.Proofs.Line.GroupLimit
import Abacus.Proofs.Line.Rendering
import Abacus.Proofs.Line.Spacing
import Abacus.Proofs.Number.Arithmetic
import Abacus.Proofs.Number.Text
import Abacus.Proofs.Session
import Abacus.Proofs.Settings
