import CapLisp.Decimal
import CapLisp.Env
import CapLisp.Layout
import CapLisp.Literal
import CapLisp.Value.Basic
import CapLisp.Value.Equality
import CapLisp.Value.Comparison
import CapLisp.Value.Text
import CapLisp.Value.Inspect
import CapLisp.Value.Parts
import CapLisp.Value.Identity
import CapLisp.Value.Search
import CapLisp.Dict
import CapLisp.Value.Hash
import CapLisp.Sequence
import CapLisp.Store
import CapLisp.Signature
import CapLisp.Error
import CapLisp.Number
import CapLisp.Reader.Token
import CapLisp.Reader.Form
import CapLisp.Json.Range
import CapLisp.Json.Text
import CapLisp.Json.Basic
import CapLisp.Json.Document
import CapLisp.Json.Reader
import CapLisp.Wire.Envelope
import CapLisp.Wire.Document
import CapLisp.Wire.Library
import CapLisp.Wire.Reading
import CapLisp.Wire.Transport
import CapLisp.Bindings
import CapLisp.Primitive.Arguments
import CapLisp.Primitive.Operation
import CapLisp.Primitive.Table
import CapLisp.Eval.Action
import CapLisp.Eval.Call
import CapLisp.Eval.SpecialForm
import CapLisp.Eval.Evaluator
import CapLisp.Interpreter
import CapLisp.Proofs.Frames
import CapLisp.Proofs.Everywhere
import CapLisp.Proofs.Arguments
import CapLisp.Proofs.Resolve
import CapLisp.Proofs.Applications
import CapLisp.Proofs.Metadata
import CapLisp.Proofs.Invariant.Basic
import CapLisp.Proofs.Invariant.Operation
import CapLisp.Proofs.Invariant.Call
import CapLisp.Proofs.Invariant.SpecialForm
import CapLisp.Proofs.Invariant.Evaluator
import CapLisp.Proofs.Confinement
import CapLisp.Proofs.WellFormed
import CapLisp.Proofs.View.Basic
import CapLisp.Proofs.View.Equality
import CapLisp.Proofs.Equivalence
import CapLisp.Proofs.Hashing
import CapLisp.Proofs.View.Text
import CapLisp.Proofs.View.Encode
import CapLisp.Proofs.RoundTrip
import CapLisp.Proofs.Pointwise
import CapLisp.Proofs.Likeness
import CapLisp.Proofs.Simulation.Basic
import CapLisp.Proofs.Simulation.Operation
import CapLisp.Proofs.Simulation.Call
import CapLisp.Proofs.Simulation.SpecialForm
import CapLisp.Proofs.Simulation.Evaluator
import CapLisp.Proofs.Simulation.Similar
import CapLisp.Proofs.Simulation.SimilarRuns
import CapLisp.Proofs.Isolation
import CapLisp.Proofs.Continuation
import CapLisp.Proofs.Congruence
import CapLisp.Proofs.Growth
import CapLisp.Proofs.Headroom
import CapLisp.Proofs.Reader.Token
import CapLisp.Proofs.Syntax
import CapLisp.Proofs.References
import CapLisp.Proofs.Simulation.Related
import CapLisp.Proofs.Variants
import CapLisp.Proofs.Reader.Layout
import CapLisp.Proofs.Reader.ReadBack
import CapLisp.Proofs.Reader.PrintBack
import CapLisp.Proofs.Json.Literal
import CapLisp.Proofs.Json.Spelling
import CapLisp.Proofs.Json.Completeness
import CapLisp.Proofs.Wire.Reading
import CapLisp.Proofs.Wire.Transport
import CapLisp.Proofs.Wire.DenseStores
import CapLisp.Proofs.Invariant.Hosts
import CapLisp.Proofs.Invariant.Session
import CapLisp.Proofs.Numbering
import CapLisp.Proofs.Reader.Concatenation
import CapLisp.Proofs.Reader.Program
import CapLisp.Proofs.Reader.Strictness
import CapLisp.Proofs.Reader.Completion
import CapLisp.Proofs.Reader.Progress
import CapLisp.Proofs.Handles
import CapLisp.Proofs.Batching
import CapLisp.Proofs.Threading
import CapLisp.Proofs.DictLiteral
import CapLisp.Proofs.Machine.CallTree
import CapLisp.Proofs.Machine.Halting
import CapLisp.Proofs.Aliasing
import CapLisp.Proofs.Transparency
import CapLisp.Proofs.ModuleForm
import CapLisp.Proofs.Signatures
import CapLisp.Proofs.Machine.Requests
import CapLisp.Proofs.Machine.Restored
import CapLisp.Proofs.Machine.Nesting
import CapLisp.Proofs.Sequences
import CapLisp.Proofs.EqualArguments
import CapLisp.Proofs.ApplyForm
