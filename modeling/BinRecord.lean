import BinRecord.Command.Run
import BinRecord.Main
import BinRecord.Proofs.Payload.Decode
import BinRecord.Proofs.Record.Iteration
import BinRecord.Proofs.Schema.RoundTrip
import BinRecord.Schema.Compile
import BinRecord.Schema.Outline
import BinRecord.Snippet
import BinRecord.Value.Json
import BinRecord.Proofs.Payload.Translation
import BinRecord.Proofs.Header.TextForm
import BinRecord.Proofs.Header.Translation
import BinRecord.Proofs.Header.Extension
import BinRecord.Proofs.Record.Concatenation
import BinRecord.Proofs.Record.Memory
import BinRecord.Proofs.Schema.Reordering
import BinRecord.Proofs.Json.Compact
import BinRecord.Proofs.Json.Scalar
import BinRecord.Proofs.Json.Writer
import BinRecord.Proofs.Schema.Cycle
import BinRecord.Proofs.Schema.Derivation
import BinRecord.Proofs.Bytes.Integer
import BinRecord.Proofs.Payload.Shape
import BinRecord.Proofs.Payload.Encode
import BinRecord.Proofs.Payload.Inverse
import BinRecord.Proofs.Record.Compressed
import BinRecord.Proofs.Command.Arguments
import BinRecord.Proofs.Command.Outcome
import BinRecord.Proofs.Payload.Guarded
import BinRecord.Proofs.Payload.Safety
import BinRecord.Proofs.Text.Malformed
import BinRecord.Proofs.Payload.Extent
import BinRecord.Proofs.Payload.Leaves
import BinRecord.Proofs.Payload.Blame
import BinRecord.Proofs.Payload.TextFault
import BinRecord.Proofs.Header.BinaryForm
import BinRecord.Proofs.Header.Cut
import BinRecord.Proofs.Header.TextFault
import BinRecord.Proofs.Payload.Content
import BinRecord.Proofs.Payload.Padding
import BinRecord.Proofs.Schema.Division
import BinRecord.Proofs.Snippet
import BinRecord.Proofs.Schema.Blame
import BinRecord.Proofs.Float.Fewest
import BinRecord.Proofs.Schema.Outline
import BinRecord.Proofs.Header.Json
