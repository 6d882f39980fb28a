import NameInference.Main
import NameInference.Proofs.Call.Keywords
import NameInference.Proofs.Call.Limits
import NameInference.Proofs.Call.Unpacking
import NameInference.Proofs.Class.Order
import NameInference.Proofs.Class.Preorder
import NameInference.Proofs.Command.Excerpt
import NameInference.Proofs.Descriptor.Listing
import NameInference.Proofs.Descriptor.RoundTrip
import NameInference.Proofs.Expression.Strings
import NameInference.Proofs.Flow.Execution
import NameInference.Proofs.Inference.Occurrence
import NameInference.Proofs.Inference.Selection
import NameInference.Proofs.Inference.Subscripts
import NameInference.Proofs.Memo.Protocol
import NameInference.Proofs.Memo.Recursion
import NameInference.Proofs.Scope.RedirectionTable
import NameInference.Proofs.Signature.RoundTrip
import NameInference.Proofs.Span.SourceOrder
import NameInference.Proofs.Star.Modules
import NameInference.Proofs.Syntax.Blocks
import NameInference.Syntax.Outline
