import QasmValues.Builtin.Evaluation
import QasmValues.Policy.Document
import QasmValues.Policy.Environment
import QasmValues.Program.Action
import QasmValues.Scalar.Literal
import QasmValues.Proofs.Outcome
import QasmValues.Proofs.Scalar.Cast
import QasmValues.Proofs.Overwrite
import QasmValues.Proofs.Program.Action
import QasmValues.Proofs.Storage
import QasmValues.Proofs.Bits
import QasmValues.Proofs.Register
import QasmValues.Proofs.Scope
import QasmValues.Proofs.Program.Declaration
import QasmValues.Proofs.Program.Operation
import QasmValues.Proofs.Program.Step
import QasmValues.Proofs.Program.Ownership
import QasmValues.Proofs.NdArray.RowMajor
import QasmValues.Proofs.NdArray.Selection
import QasmValues.Proofs.NdArray.Part
import QasmValues.Proofs.NdArray.Assignment
import QasmValues.Proofs.NdArray.Chain
import QasmValues.Proofs.Scalar.Bits
import QasmValues.Proofs.Program.ArrayAssignment
import QasmValues.Proofs.Program.Typing
import QasmValues.Proofs.Program.BitWrite
import QasmValues.Proofs.Scalar.Legality
import QasmValues.Proofs.Scalar.Payload
import QasmValues.Proofs.Scalar.Wrapping
import QasmValues.Proofs.Scalar.Reinterpretation
import QasmValues.Proofs.Builtin.Call
import QasmValues.Proofs.NdArray.View
import QasmValues.Proofs.Program.Form
import QasmValues.Proofs.Program.Coherence
import QasmValues.Proofs.Program.Stability
import QasmValues.Proofs.Program.Block
import QasmValues.Proofs.NdArray.Obtained
import QasmValues.Proofs.Program.BoundArrays
import QasmValues.Proofs.Bits.Rotation
import QasmValues.Proofs.Builtin.Power
import QasmValues.Proofs.Builtin.Rotation
import QasmValues.Proofs.Program.Allocation
import QasmValues.Proofs.Index.Range
import QasmValues.Proofs.Rounding
import QasmValues.Proofs.Angle.Resize
import QasmValues.Proofs.Binary.Significant
import QasmValues.Proofs.Binary.Normal
import QasmValues.Proofs.Binary.Value
import QasmValues.Proofs.Binary.Arithmetic
import QasmValues.Proofs.Scalar.FloatCast
import QasmValues.Proofs.Angle.Radians
import QasmValues.Proofs.Bits.Slice
import QasmValues.Proofs.Scope.History
import QasmValues.Proofs.Storage.History
import QasmValues.Proofs.Register.Join
import QasmValues.Proofs.NdArray.InPlace
import QasmValues.Proofs.NdArray.ElementBits
import QasmValues.Proofs.NdArray.Rows
import QasmValues.Proofs.Bits.Text
import QasmValues.Proofs.Builtin.Remainder
import QasmValues.Proofs.Scalar.Literal
import QasmValues.Proofs.Program.InPlace
import QasmValues.Proofs.NdArray.Strides
import QasmValues.Yaml.Block
import QasmValues.Yaml.Layout
import QasmValues.Yaml.Mapping
import QasmValues.Yaml.Policy
