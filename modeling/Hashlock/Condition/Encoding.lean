import Hashlock.Condition.Basic
import Hashlock.Der.Writer
import Hashlock.Kind.Tag

/-!
# Encoding conditions

The outer tag gives the kind. Inside are the fingerprint, the cost as an integer, and on compound
conditions the subtypes as a bit string. Conditions are ordered by their encodings.
-/

namespace Hashlock.Condition

/-- The fields inside the outer tag. -/
def fields (c : Condition) : Bytes :=
  Der.encodeTlv (.context 0) c.fingerprint.bytes
    ++ Der.encodeTlv (.context 1) (Integer.encodeUInt64 c.cost)
    ++ if c.isCompound then Der.encodeTlv (.context 2) c.subtypes.encode else []

/-- The encoding of a condition. -/
def encode (c : Condition) : Bytes := Der.encodeTlv c.kind.tag c.fields

/-- The canonical order of conditions: that of their encodings. -/
protected def compare (a b : Condition) : Ordering := Bytes.compare a.encode b.encode

/-- Conditions in canonical order. -/
def sort (cs : List Condition) : List Condition := Bytes.sortOn encode cs

/-- The encodings of conditions in canonical order. -/
def sortedEncodings (cs : List Condition) : List Bytes := sortBy Bytes.le (cs.map encode)

end Hashlock.Condition
