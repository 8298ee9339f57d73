import NumericArrays.Concat
import NumericArrays.Elementwise.Arithmetic
import NumericArrays.Elementwise.Comparison
import NumericArrays.Elementwise.Logic
import NumericArrays.Elementwise.Sign
import NumericArrays.Engine.Operators
import NumericArrays.Range
import NumericArrays.Proofs.Shape.Count
import NumericArrays.Proofs.Shape.Place
import NumericArrays.Proofs.Shape.Growth
import NumericArrays.Proofs.NDArray.Elements
import NumericArrays.Proofs.NDArray.Resize
import NumericArrays.Proofs.NDArray.WellFormed
import NumericArrays.Proofs.NDArray.Growth
import NumericArrays.Proofs.NDArray.Write
import NumericArrays.Proofs.Shape.Address
import NumericArrays.Proofs.Shape.Grid
import NumericArrays.Proofs.Sheet.Basic
import NumericArrays.Proofs.Sheet.Write
import NumericArrays.Proofs.Sheet.Contents
import NumericArrays.InPlace.Basic
import NumericArrays.InPlace.Copy
import NumericArrays.InPlace.Write
import NumericArrays.Proofs.InPlace.Runs
import NumericArrays.Proofs.InPlace.Copy
import NumericArrays.Proofs.InPlace.Write
import NumericArrays.Proofs.InPlace.Outcome
import NumericArrays.Proofs.InPlace.Locate
import NumericArrays.Proofs.InPlace.Resize
import NumericArrays.Proofs.NDArray.Trim
import NumericArrays.Proofs.NDArray.Capacity
import NumericArrays.Proofs.Elementwise.Operators
import NumericArrays.Proofs.Concat.Join
import NumericArrays.Proofs.Engine.Contract
import NumericArrays.Proofs.Engine.Dense
import NumericArrays.Proofs.Engine.Operators
import NumericArrays.Workspace
import NumericArrays.Proofs.Workspace.Change
import NumericArrays.Proofs.Workspace.WellFormed
import NumericArrays.Proofs.Workspace.Capacity
import NumericArrays.Proofs.NDArray.Faithful
import NumericArrays.Proofs.Workspace.Faithful
import NumericArrays.Proofs.Workspace.Contents
import NumericArrays.Proofs.Sheet.Commute
import NumericArrays.Proofs.Elementwise.Law
import NumericArrays.Proofs.Elementwise.ZeroPower
import NumericArrays.Proofs.Elementwise.Promotion
import NumericArrays.Proofs.Engine.Mismatch
import NumericArrays.Concat.Turns
import NumericArrays.Proofs.Concat.Beside
import NumericArrays.Proofs.Engine.Columns
import NumericArrays.Proofs.Engine.RealData
import NumericArrays.Proofs.Mat.Elimination
import NumericArrays.Proofs.Mat.LeastSquares
import NumericArrays.Proofs.Mat.Solution
import NumericArrays.Proofs.Mat.Factors
import NumericArrays.Proofs.Mat.Diagonal
import NumericArrays.Proofs.Elementwise.Boolean
import NumericArrays.Proofs.Engine.Unary
import NumericArrays.Proofs.Concat.Blocks
import NumericArrays.Proofs.Engine.RightDivision
import NumericArrays.Proofs.Engine.Product
import NumericArrays.Proofs.Engine.Adjoint
import NumericArrays.Proofs.Scalar.Product
import NumericArrays.Proofs.Scalar.Quotient
import NumericArrays.Proofs.NDArray.Text
import NumericArrays.Proofs.NDArray.Appending
import NumericArrays.Proofs.Workspace.Appending
import NumericArrays.Proofs.Range.Steps
import NumericArrays.Proofs.NDArray.Countable
import NumericArrays.Proofs.Mat.Negligible
import NumericArrays.Kernel.Solve
import NumericArrays.Proofs.Kernel.InBounds
