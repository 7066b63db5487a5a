import Hashlock.Fulfillment.Basic

/-!
# Encoding fulfillments

The outer tag gives the kind, and inside are the fields. A threshold node writes its fulfilled
branches and then the conditions of the others; the threshold is the number of the former. The
conditions that the nodes hold are not written.
-/

namespace Hashlock.Fulfillment

mutual

/-- The fields inside the outer tag. -/
def fields : Fulfillment → Bytes
  | preimage p _ => Der.encodeTlv (.context 0) p
  | prefixed p max sub _ =>
    Der.encodeTlv (.context 0) p
      ++ Der.encodeTlv (.context 1) (Integer.encodeUInt64 max)
      ++ Der.encodeTlv (.contextConstructed 2) (Der.encodeTlv sub.kind.tag (fields sub))
  | threshold _ subs subconditions _ =>
    Der.encodeTlv (.contextConstructed 0) (encodeAll subs)
      ++ Der.encodeTlv (.contextConstructed 1) (subconditions.flatMap Condition.encode)
  | rsa modulus signature _ =>
    Der.encodeTlv (.context 0) modulus ++ Der.encodeTlv (.context 1) signature
  | ed25519 key signature _ =>
    Der.encodeTlv (.context 0) key.bytes ++ Der.encodeTlv (.context 1) signature.bytes

/-- The encodings of fulfillments, one after the other. -/
def encodeAll : List Fulfillment → Bytes
  | [] => []
  | f :: fs => Der.encodeTlv f.kind.tag (fields f) ++ encodeAll fs

end

/-- The encoding of a fulfillment. -/
def encode (f : Fulfillment) : Bytes := Der.encodeTlv f.kind.tag f.fields

theorem encodeAll_eq_flatMap (fs : List Fulfillment) : encodeAll fs = fs.flatMap encode := by
  induction fs with
  | nil => rfl
  | cons f fs ih => simp [encodeAll, encode, ih]

end Hashlock.Fulfillment
