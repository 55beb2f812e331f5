import TensorEquations.CommandLine.Directory
import TensorEquations.Expression.PlainData
import TensorEquations.Main
import TensorEquations.Proofs.Equation.Exchange
import TensorEquations.Proofs.Equation.Uncommented
import TensorEquations.Proofs.Expression.Composition
import TensorEquations.Proofs.Expression.Division
import TensorEquations.Proofs.Expression.Multiplication
import TensorEquations.Proofs.Expression.SyntaxError
import TensorEquations.Proofs.Expression.Wrapping
import TensorEquations.Proofs.LinearSystem.Coefficient
import TensorEquations.Proofs.LinearSystem.ColumnOrder
import TensorEquations.Proofs.Session.Completion
import TensorEquations.Proofs.Session.Counting
import TensorEquations.Proofs.Session.Elimination
import TensorEquations.Proofs.Session.Identity
import TensorEquations.Proofs.Session.Independence
import TensorEquations.Proofs.Session.LockOrder
import TensorEquations.Proofs.Session.Naming
import TensorEquations.Proofs.Session.Solutions
import TensorEquations.Proofs.Session.Wholeness
import TensorEquations.Proofs.Substitution.Merging
import TensorEquations.Proofs.Substitution.Simultaneous
import TensorEquations.Proofs.Substitution.Truncation
import TensorEquations.Proofs.Tensor.Blocks
import TensorEquations.Proofs.Tensor.Parity
import TensorEquations.Proofs.Text.Location
import TensorEquations.Text.Hex
