import Mathlib.Tactic
import Zatestil.Library.Codec

/-!
# Serialisable types

`serializable_as` and `inherited_serializable_as` give a class a function `serialize`, for
writing and for reading, and a comparison. A declared type is modelled by its shape, and a value
by the listed members, which are all that `serialize` and `operator==` look at; what else an
object holds takes no part. Members of floating point are left out, whose comparison is not an
equality.

The archive library is a parameter: `Yas` has the codecs of the types it knows itself, and
`SelfDelimiting` says that each of them reads exactly what it wrote.
-/
namespace Zatestil.Serde
open Library

/-- A string or a vector: its size is a `size_t`. -/
abbrev Sequence (α : Type) := { l : List α // l.length < 2 ^ 64 }

/-! ## Shapes -/

mutual

/-- The type of a member. -/
inductive Shape
  | integer (size : Nat)
  | bool
  | enumeration (size : Nat)
  | string
  | array (length : Nat)
  | vector (element : Shape)
  | object (type : Class)

/-- A class declared with one of the macros. -/
inductive Class
  | serializableAs (members : Members)
  | inheritedSerializableAs (base : Class) (members : Members)

/-- The members that a macro lists. -/
inductive Members
  | nil
  | cons (first : Shape) (rest : Members)

end

mutual

def Shape.Value : Shape → Type
  | .integer size => BitVec (8 * size)
  | .bool => Bool
  | .enumeration size => BitVec (8 * size)
  | .string => Sequence UInt8
  | .array length => Vector UInt8 length
  | .vector element => Sequence element.Value
  | .object type => type.Value

def Class.Value : Class → Type
  | .serializableAs members => members.Value
  | .inheritedSerializableAs base members => base.Value × members.Value

def Members.Value : Members → Type
  | .nil => Unit
  | .cons first rest => first.Value × rest.Value

end

/-! ## The archive -/

/-- The encodings of the library, with the options `binary | no_header`. -/
structure Yas where
  integer (size : Nat) : Codec UInt8 (BitVec (8 * size))
  bool : Codec UInt8 Bool
  enumeration (size : Nat) : Codec UInt8 (BitVec (8 * size))
  string : Codec UInt8 (Sequence UInt8)
  array (length : Nat) : Codec UInt8 (Vector UInt8 length)
  vector (element : Shape) : Codec UInt8 element.Value → Codec UInt8 (Sequence element.Value)

structure Yas.SelfDelimiting (yas : Yas) : Prop where
  integer : ∀ size, (yas.integer size).Inverts
  bool : yas.bool.Inverts
  enumeration : ∀ size, (yas.enumeration size).Inverts
  string : yas.string.Inverts
  array : ∀ length, (yas.array length).Inverts
  vector : ∀ element c, c.Inverts → (yas.vector element c).Inverts

mutual

/-- `archive & member`. -/
def Shape.process (yas : Yas) : (s : Shape) → Codec UInt8 s.Value
  | .integer size => yas.integer size
  | .bool => yas.bool
  | .enumeration size => yas.enumeration size
  | .string => yas.string
  | .array length => yas.array length
  | .vector element => yas.vector element (element.process yas)
  | .object type => type.serialize yas

/-- The function `serialize` that a macro writes: the base comes behind the members. -/
def Class.serialize (yas : Yas) : (type : Class) → Codec UInt8 type.Value
  | .serializableAs members => members.object yas
  | .inheritedSerializableAs base members =>
    ((members.object yas).pair (base.serialize yas)).via Prod.swap Prod.swap

/-- `YAS_OBJECT(nullptr, members...)`. -/
def Members.object (yas : Yas) : (members : Members) → Codec UInt8 members.Value
  | .nil => Codec.unit
  | .cons first rest => (first.process yas).pair (rest.object yas)

end

def toBinary (yas : Yas) (s : Shape) (value : s.Value) : List UInt8 := (s.process yas).save value

/-- `from_binary`: what follows the encoding is not read; `none` is an exception. -/
def fromBinary (yas : Yas) (s : Shape) (buffer : List UInt8) : Option s.Value :=
  ((s.process yas).load buffer).map Prod.fst

/-! ## Comparison -/

mutual

/-- `compare(lv, rv)`. -/
def Shape.compare : (s : Shape) → s.Value → s.Value → Bool
  | .integer size => fun (lv rv : BitVec (8 * size)) => lv == rv
  | .bool => fun (lv rv : Bool) => lv == rv
  | .enumeration size => fun (lv rv : BitVec (8 * size)) => lv == rv
  | .string => fun (lv rv : Sequence UInt8) => lv.1 == rv.1
  | .array length => fun (lv rv : Vector UInt8 length) => lv == rv
  | .vector element => fun (lv rv : Sequence element.Value) => lv.1.isEqv rv.1 element.compare
  | .object type => type.equal

/-- `operator==`. -/
def Class.equal : (type : Class) → type.Value → type.Value → Bool
  | .serializableAs members => members.compare true
  | .inheritedSerializableAs base members =>
    fun (lv rv : base.Value × members.Value) => members.compare (base.equal lv.1 rv.1) lv.2 rv.2

/-- `result &= compare(member, other.member)`, for one member after the other. -/
def Members.compare (result : Bool) : (members : Members) → members.Value → members.Value → Bool
  | .nil => fun _ _ => result
  | .cons first rest => fun (lv rv : first.Value × rest.Value) =>
    rest.compare (result && first.compare lv.1 rv.1) lv.2 rv.2

end

/-! ## There and back -/

mutual

/-- Every member is read as it was written. -/
theorem Shape.process_inverts {yas : Yas} (h : yas.SelfDelimiting) :
    (s : Shape) → (s.process yas).Inverts
  | .integer size => h.integer size
  | .bool => h.bool
  | .enumeration size => h.enumeration size
  | .string => h.string
  | .array length => h.array length
  | .vector element => h.vector element _ (element.process_inverts h)
  | .object type => type.serialize_inverts h

theorem Class.serialize_inverts {yas : Yas} (h : yas.SelfDelimiting) :
    (type : Class) → (type.serialize yas).Inverts
  | .serializableAs members => members.object_inverts h
  | .inheritedSerializableAs base members =>
    ((members.object_inverts h).pair (base.serialize_inverts h)).via Prod.swap_swap

theorem Members.object_inverts {yas : Yas} (h : yas.SelfDelimiting) :
    (members : Members) → (members.object yas).Inverts
  | .nil => Codec.inverts_unit
  | .cons first rest => (first.process_inverts h).pair (rest.object_inverts h)

end

theorem isEqv_iff {α : Type} {eqv : α → α → Bool} (heqv : ∀ a b, eqv a b = true ↔ a = b)
    (as bs : List α) : as.isEqv bs eqv = true ↔ as = bs := by
  induction as generalizing bs with
  | nil => cases bs <;> simp
  | cons a as ih => cases bs <;> simp [List.isEqv, heqv, ih]

mutual

/-- Comparison decides whether all members are equal. -/
theorem Shape.compare_iff : (s : Shape) → ∀ v w : s.Value, s.compare v w = true ↔ v = w
  | .integer _ => fun _ _ => beq_iff_eq
  | .bool => fun _ _ => beq_iff_eq
  | .enumeration _ => fun _ _ => beq_iff_eq
  | .string => fun _ _ => beq_iff_eq.trans Subtype.ext_iff.symm
  | .array _ => fun _ _ => beq_iff_eq
  | .vector element => fun v w =>
    (isEqv_iff element.compare_iff v.1 w.1).trans Subtype.ext_iff.symm
  | .object type => type.equal_iff

theorem Class.equal_iff : (type : Class) → ∀ v w : type.Value, type.equal v w = true ↔ v = w
  | .serializableAs members => fun v w => by
    rw [Class.equal, members.compare_iff true v w]
    exact ⟨And.right, fun heq => ⟨rfl, heq⟩⟩
  | .inheritedSerializableAs base members => fun (v w : base.Value × members.Value) => by
    rw [Class.equal, members.compare_iff, base.equal_iff]
    exact Prod.ext_iff.symm

/-- The result so far, and the members from here on. -/
theorem Members.compare_iff : (members : Members) → ∀ (result : Bool) (v w : members.Value),
    members.compare result v w = true ↔ result = true ∧ v = w
  | .nil => fun result _ _ => by
    rw [Members.compare]
    exact ⟨fun hresult => ⟨hresult, rfl⟩, And.left⟩
  | .cons first rest => fun result (v w : first.Value × rest.Value) => by
    rw [Members.compare, rest.compare_iff, Bool.and_eq_true, first.compare_iff, and_assoc]
    exact and_congr_right' Prod.ext_iff.symm

end

/-- The members, in the order in which a macro lists them. -/
def Members.ofList (shapes : List Shape) : Members := shapes.foldr .cons .nil

def Status : Class := .serializableAs (.ofList [.bool, .string])

def Message : Class :=
  .serializableAs (.ofList [.integer 8, .enumeration 4, .enumeration 4, .object Status, .string])

def Account.Name : Class := .serializableAs (.ofList [.string, .string, .string])

def Account : Class :=
  .serializableAs (.ofList [.integer 8, .enumeration 4, .object Account.Name])

def Hash (size : Nat) : Class := .serializableAs (.ofList [.array size])

def Block : Class := .serializableAs (.ofList [.object (Hash 32)])

/-! ## The encodings on a little-endian machine -/

namespace Yas

def bytesOf {size : Nat} (v : BitVec (8 * size)) : Vector UInt8 size :=
  Vector.ofFn fun i => UInt8.ofBitVec (v.extractLsb' (8 * i) 8)

def ofBytes {size : Nat} (bytes : Vector UInt8 size) : BitVec (8 * size) :=
  let bits := List.ofFn fun j : Fin (8 * size) => bytes[j.val / 8].toBitVec.getLsbD (j.val % 8)
  (BitVec.ofBoolListLE bits).setWidth (8 * size)

theorem ofBytes_bytesOf {size : Nat} (v : BitVec (8 * size)) : ofBytes (bytesOf v) = v := by
  refine BitVec.eq_of_getLsbD_eq fun j hj => ?_
  have hmod : j % 8 < 8 := Nat.mod_lt j (by omega)
  simp only [ofBytes, bytesOf, BitVec.getLsbD_setWidth, BitVec.getLsbD_ofBoolListLE,
    List.getD_eq_getElem?_getD, List.getElem?_ofFn, Vector.getElem_ofFn, BitVec.getLsbD_extractLsb']
  simp [hj, hmod, Nat.div_add_mod]

def word (size : Nat) : Codec UInt8 (BitVec (8 * size)) := (Codec.block size).via ofBytes bytesOf

def byte : Codec UInt8 UInt8 := (Codec.block 1).via (fun bytes => bytes[0]) fun b => #v[b]

def boolean : Codec UInt8 Bool := byte.via (· != 0) fun b => if b then 1 else 0

/-- Sizes are written as eight bytes. -/
def seqSize : Codec UInt8 (Fin (2 ^ 64)) := (word 8).via BitVec.toFin BitVec.ofFin

def reference : Yas where
  integer := word
  bool := boolean
  enumeration := word
  string := seqSize.counted byte
  array := Codec.block
  vector _ c := seqSize.counted c

theorem word_inverts (size : Nat) : (word size).Inverts :=
  (Codec.inverts_block size).via ofBytes_bytesOf

theorem byte_inverts : byte.Inverts := (Codec.inverts_block 1).via fun _ => rfl

theorem boolean_inverts : boolean.Inverts := byte_inverts.via (by decide)

theorem seqSize_inverts : seqSize.Inverts := (word_inverts 8).via fun _ => rfl

theorem reference_selfDelimiting : reference.SelfDelimiting where
  integer := word_inverts
  bool := boolean_inverts
  enumeration := word_inverts
  string := seqSize_inverts.counted byte_inverts
  array := Codec.inverts_block
  vector _ _ hc := seqSize_inverts.counted hc

end Yas

end Zatestil.Serde
