import Hashlock.Error

/-!
# The tags of kinds

Encodings of conditions and of fulfillments start alike: with a constructed, context-specific tag
whose number is that of the kind.
-/

namespace Hashlock.Kind

/-- The outer tag of encodings of a kind. -/
def tag (k : Kind) : Der.Tag := .contextConstructed k.id

/-- The kind that an outer tag stands for. -/
def ofTag (tag : Der.Tag) : Except DecodeError Kind :=
  if tag.isContextSpecific && tag.isConstructed then
    match ofId? tag.number with
    | some kind => .ok kind
    | none => .error (.unknownKind tag.number)
  else .error (.unsupportedTag tag)

@[simp] theorem ofTag_tag (k : Kind) : ofTag k.tag = .ok k := by cases k <;> rfl

end Hashlock.Kind
