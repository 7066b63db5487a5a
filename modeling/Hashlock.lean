import Hashlock.Fulfillment.Nodes
import Hashlock.Policy
import Hashlock.Samples.Fulfillments
import Hashlock.Samples.Vectors
import Hashlock.Proofs.Bytes.Order
import Hashlock.Proofs.Condition.Codec
import Hashlock.Proofs.Condition.Derivation
import Hashlock.Proofs.Fulfillment.Codec
import Hashlock.Proofs.Fulfillment.Paths
import Hashlock.Proofs.Fulfillment.RoundTrip
import Hashlock.Proofs.Policy.Acceptance
import Hashlock.Proofs.Condition.Contents
import Hashlock.Proofs.Fulfillment.Commitment
import Hashlock.Proofs.Fulfillment.Nodes
import Hashlock.Proofs.Policy.Coverage
import Hashlock.Proofs.Fulfillment.Work
import Hashlock.Proofs.Fulfillment.Obtainable
import Hashlock.Proofs.Fulfillment.Published
import Hashlock.Proofs.Condition.Order
import Hashlock.Proofs.Der.LengthForm
import Hashlock.Proofs.Policy.Widening
import Hashlock.Proofs.Fulfillment.Size
import Hashlock.Proofs.Fulfillment.Stability
import Hashlock.Proofs.Condition.Plan
import Hashlock.Proofs.Fulfillment.Plan
import Hashlock.Proofs.Fulfillment.Arrangement
import Hashlock.Proofs.Fulfillment.Subtypes
import Hashlock.Proofs.Der.Order
import Hashlock.Proofs.Condition.FieldOrder
import Hashlock.Proofs.Decoding
import Hashlock.Proofs.Der.Loop
import Hashlock.Proofs.Fulfillment.Calls
import Hashlock.Proofs.Integer.Canonical
import Hashlock.Proofs.Samples.Parties
import Hashlock.Proofs.Der.Cursor
import Hashlock.Proofs.Der.Refusal
import Hashlock.Proofs.Der.Session
import Hashlock.Proofs.Decoding.Bounds
import Hashlock.Proofs.Kind.BitString
