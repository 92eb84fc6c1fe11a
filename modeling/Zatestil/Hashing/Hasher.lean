import Mathlib.Tactic
import Mathlib.Data.PNat.Basic
import Zatestil.Hashing.Hash

/-!
# Hashing the members of a struct

`hashable_as(T, members...)` gives a class a function `hash` that feeds the members to a
`Hasher`, one after the other. No `update` says where a member ends, so what SHA-256 sees is
the bytes of all members in one piece. Whether the members can be told from them depends on
their kinds only.
-/
namespace Zatestil.Hashing

/-! ## The hash function -/

/-- `crypto_hash_sha256_init`, `crypto_hash_sha256_update` and `crypto_hash_sha256_final`. -/
structure Sodium where
  State : Type
  init : State
  update : State → Bytes → State
  final : State → Vector UInt8 32

/-- A message may be hashed in pieces. -/
def Sodium.Documented (sodium : Sodium) (digest : Bytes → Vector UInt8 32) : Prop :=
  ∀ pieces : List Bytes,
    sodium.final (pieces.foldl sodium.update sodium.init) = digest pieces.flatten

/-- Keeps the bytes until the end. -/
def Sodium.reference (digest : Bytes → Vector UInt8 32) : Sodium where
  State := Bytes
  init := []
  update := (· ++ ·)
  final := digest

theorem Sodium.reference_documented (digest : Bytes → Vector UInt8 32) :
    (reference digest).Documented digest := by
  have hfold : ∀ (pieces : List Bytes) (fed : Bytes),
      pieces.foldl (· ++ ·) fed = fed ++ pieces.flatten := by
    intro pieces
    induction pieces with
    | nil => simp
    | cons piece pieces ih =>
      intro fed
      simp [ih]
  intro pieces
  exact congrArg digest (hfold pieces [])

/-! ## Members -/

inductive ByteOrder
  | little
  | big
  deriving DecidableEq

/-- The types of members that have an `update` of their own, integers and hashes. -/
inductive Kind
  | uint8
  | string
  | vector
  | integer (size : Nat)
  | hash (size : ℕ+)
  deriving DecidableEq

namespace Kind

def Value : Kind → Type
  | uint8 => UInt8
  | string => Bytes
  | vector => Bytes
  | integer size => BitVec (8 * size)
  | hash size => Hash size

/-- Strings and vectors have no fixed number of bytes. -/
def IsVariable (kind : Kind) : Prop := kind = string ∨ kind = vector

instance : DecidablePred IsVariable := fun _ => inferInstanceAs (Decidable (_ ∨ _))

end Kind

/-- The values of a struct with members of these kinds. -/
inductive Members : List Kind → Type
  | nil : Members []
  | cons {kind : Kind} {kinds : List Kind} (v : kind.Value) (vs : Members kinds) :
    Members (kind :: kinds)

/-- The object representation of an integer. -/
def integerBytes (order : ByteOrder) {size : Nat} (v : BitVec (8 * size)) : Bytes :=
  let bytes := List.ofFn fun i : Fin size => UInt8.ofBitVec (v.extractLsb' (8 * i) 8)
  match order with
  | .little => bytes
  | .big => bytes.reverse

/-! ## The class -/

structure Hasher (sodium : Sodium) where
  m_state : sodium.State

namespace Hasher

variable {sodium : Sodium}

def new : Hasher sodium := ⟨sodium.init⟩

/-- `update(const uint8_t*, size_t)`. -/
def update (h : Hasher sodium) (bytes : Bytes) : Hasher sodium :=
  ⟨sodium.update h.m_state bytes⟩

def updateVector (h : Hasher sodium) (vector : Bytes) : Hasher sodium :=
  ⟨sodium.update h.m_state vector⟩

def updateString (h : Hasher sodium) (str : Bytes) : Hasher sodium :=
  ⟨sodium.update h.m_state str⟩

def updateByte (h : Hasher sodium) (byte : UInt8) : Hasher sodium :=
  ⟨sodium.update h.m_state [byte]⟩

/-- `update(T const&)` on the object representation. -/
def updateObject (h : Hasher sodium) (object : Bytes) : Hasher sodium :=
  h.update object

/-- The overload for a member: inside `hash() const` a member is constant, so a hash does not
go to `update(Hash<size>&)`. -/
def updateMember (order : ByteOrder) (h : Hasher sodium) :
    (kind : Kind) → kind.Value → Hasher sodium
  | .uint8, byte => h.updateByte byte
  | .string, str => h.updateString str
  | .vector, vector => h.updateVector vector
  | .integer _, v => h.updateObject (integerBytes order v)
  | .hash _, v => h.updateObject v.m_data.toList

def hash (h : Hasher sodium) : Hash 32 := ⟨sodium.final h.m_state⟩

end Hasher

variable (order : ByteOrder)

def updateMembers {sodium : Sodium} (h : Hasher sodium) :
    {kinds : List Kind} → Members kinds → Hasher sodium
  | [], .nil => h
  | kind :: _, .cons v vs => updateMembers (h.updateMember order kind v) vs

/-- The `hash` that `hashable_as` writes. -/
def hash (sodium : Sodium) {kinds : List Kind} (v : Members kinds) : Hash 32 :=
  (updateMembers order (Hasher.new : Hasher sodium) v).hash

/-! ## What is fed -/

/-- The bytes of one call of `update`. -/
def fed : (kind : Kind) → kind.Value → Bytes
  | .uint8, byte => [byte]
  | .string, str => str
  | .vector, vector => vector
  | .integer _, v => integerBytes order v
  | .hash _, v => v.m_data.toList

/-- The pieces, one for each member. -/
def pieces : {kinds : List Kind} → Members kinds → List Bytes
  | [], .nil => []
  | kind :: _, .cons v vs => fed order kind v :: pieces vs

/-- The bytes fed to SHA-256. -/
def stream {kinds : List Kind} (v : Members kinds) : Bytes := (pieces order v).flatten

@[simp] theorem stream_nil : stream order .nil = [] := rfl

@[simp] theorem stream_cons {kind : Kind} {kinds : List Kind} (v : kind.Value)
    (vs : Members kinds) :
    stream order (.cons v vs) = fed order kind v ++ stream order vs := rfl

theorem updateMember_eq {sodium : Sodium} (h : Hasher sodium) (kind : Kind) (v : kind.Value) :
    h.updateMember order kind v = ⟨sodium.update h.m_state (fed order kind v)⟩ := by
  cases kind <;> rfl

theorem updateMembers_eq {sodium : Sodium} (h : Hasher sodium) {kinds : List Kind}
    (v : Members kinds) :
    (updateMembers order h v).m_state = (pieces order v).foldl sodium.update h.m_state := by
  induction v generalizing h with
  | nil => rfl
  | cons v vs ih => rw [updateMembers, ih, updateMember_eq, pieces, List.foldl_cons]

theorem hash_eq {sodium : Sodium} {digest : Bytes → Vector UInt8 32}
    (hdoc : sodium.Documented digest) {kinds : List Kind} (v : Members kinds) :
    hash order sodium v = ⟨digest (stream order v)⟩ := by
  rw [hash, Hasher.hash, updateMembers_eq, Hasher.new]
  exact congrArg Hash.mk (hdoc _)

/-! ## Fixed sizes -/

/-- `sizeof`, of the kinds that have it. -/
def Kind.size : Kind → Nat
  | .uint8 => 1
  | .string => 0
  | .vector => 0
  | .integer size => size
  | .hash size => size

theorem length_integerBytes {size : Nat} (v : BitVec (8 * size)) :
    (integerBytes order v).length = size := by
  cases order <;> simp [integerBytes]

/-- Each bit is in one of the bytes. -/
theorem integerBytes_injective (size : Nat) :
    Function.Injective (integerBytes order : BitVec (8 * size) → Bytes) := by
  intro v w heq
  have hbytes : ∀ i : Fin size, v.extractLsb' (8 * i) 8 = w.extractLsb' (8 * i) 8 := by
    have hlist : List.ofFn (fun i : Fin size => UInt8.ofBitVec (v.extractLsb' (8 * i) 8)) =
        List.ofFn fun i : Fin size => UInt8.ofBitVec (w.extractLsb' (8 * i) 8) := by
      cases order with
      | little => exact heq
      | big => exact List.reverse_injective heq
    intro i
    exact UInt8.ofBitVec.inj (congrFun (List.ofFn_injective hlist) i)
  refine BitVec.eq_of_getLsbD_eq fun j hj => ?_
  have hbit := congrArg (BitVec.getLsbD · (j % 8)) (hbytes ⟨j / 8, by omega⟩)
  simpa [BitVec.getLsbD_extractLsb', Nat.mod_lt, Nat.div_add_mod] using hbit

theorem length_fed {kind : Kind} (hkind : ¬ kind.IsVariable) (v : kind.Value) :
    (fed order kind v).length = kind.size := by
  cases kind with
  | uint8 => rfl
  | string => exact absurd (.inl rfl) hkind
  | vector => exact absurd (.inr rfl) hkind
  | integer size => exact length_integerBytes order v
  | hash size => exact v.m_data.length_toList

theorem fed_injective (kind : Kind) : Function.Injective (fed order kind) := by
  intro v w heq
  cases kind with
  | uint8 => exact List.singleton_injective heq
  | string => exact heq
  | vector => exact heq
  | integer size => exact integerBytes_injective order size heq
  | hash size =>
    obtain ⟨v⟩ := v
    obtain ⟨w⟩ := w
    exact congrArg Hash.mk (Vector.toList_inj.mp heq)

theorem length_stream {kinds : List Kind} (hkinds : ∀ kind ∈ kinds, ¬ kind.IsVariable)
    (v : Members kinds) : (stream order v).length = (kinds.map Kind.size).sum := by
  induction v with
  | nil => rfl
  | cons v vs ih =>
    rw [List.forall_mem_cons] at hkinds
    rw [stream_cons, List.length_append, length_fed order hkinds.1, ih hkinds.2, List.map_cons,
      List.sum_cons]

/-! ## Separation -/

/-- The streams of different values differ, so that only two messages with one digest can give
them one hash. -/
def Separates (sodium : Sodium) (digest : Bytes → Vector UInt8 32) (kinds : List Kind) : Prop :=
  (∀ v w : Members kinds, stream order v = stream order w → v = w) ∧
  ∀ v w : Members kinds, v ≠ w → hash order sodium v = hash order sodium w →
    stream order v ≠ stream order w ∧
      digest (stream order v) = digest (stream order w)

/-- At most one member is a string or a vector. -/
def AtMostOneVariable (kinds : List Kind) : Prop := kinds.countP (·.IsVariable) ≤ 1

instance (kinds : List Kind) : Decidable (AtMostOneVariable kinds) :=
  inferInstanceAs (Decidable (_ ≤ 1))

theorem stream_injective {kinds : List Kind} (hkinds : AtMostOneVariable kinds)
    {v w : Members kinds} (heq : stream order v = stream order w) : v = w := by
  unfold AtMostOneVariable at hkinds
  induction v with
  | nil =>
    cases w
    rfl
  | @cons kind kinds v vs ih =>
    cases w with
    | cons w ws =>
    rw [List.countP_cons] at hkinds
    rw [stream_cons, stream_cons] at heq
    -- the first member ends at the same place in both
    have hparts : fed order kind v = fed order kind w ∧ stream order vs = stream order ws := by
      by_cases hkind : kind.IsVariable
      · have hrest : ∀ kind ∈ kinds, ¬ kind.IsVariable := by
          simp only [hkind, decide_true, if_true] at hkinds
          simpa using List.countP_eq_zero.mp (show kinds.countP (·.IsVariable) = 0 by omega)
        apply List.append_inj' heq
        rw [length_stream order hrest, length_stream order hrest]
      · apply List.append_inj heq
        rw [length_fed order hkind, length_fed order hkind]
    rw [fed_injective order kind hparts.1, ih (by omega) hparts.2]

/-! ## Two values with one stream -/

/-- Zeros, and nothing where there may be nothing. -/
def Kind.blank : (kind : Kind) → kind.Value
  | .uint8 => (0 : UInt8)
  | .string => ([] : Bytes)
  | .vector => ([] : Bytes)
  | .integer _ => (0 : BitVec _)
  | .hash _ => ⟨Vector.replicate _ 0⟩

def blank : (kinds : List Kind) → Members kinds
  | [] => .nil
  | kind :: kinds => .cons kind.blank (blank kinds)

theorem fed_blank (kind : Kind) : fed order kind kind.blank = List.replicate kind.size 0 := by
  cases kind with
  | uint8 => rfl
  | string => rfl
  | vector => rfl
  | integer size =>
    refine List.eq_replicate_iff.mpr ⟨length_integerBytes order _, ?_⟩
    cases order <;> simp [fed, Kind.blank, integerBytes]
  | hash size => exact Vector.toList_replicate

/-- A byte more, in a string or a vector. -/
theorem exists_fed_zero {kind : Kind} (hkind : kind.IsVariable) :
    ∃ v, fed order kind v = [0] ∧ fed order kind kind.blank = [] := by
  rcases hkind with rfl | rfl
  · exact ⟨([0] : Bytes), rfl, rfl⟩
  · exact ⟨([0] : Bytes), rfl, rfl⟩

theorem exists_stream_zero {kinds : List Kind} (hkinds : ∃ kind ∈ kinds, kind.IsVariable) :
    ∃ v : Members kinds, stream order v = 0 :: stream order (blank kinds) := by
  induction kinds with
  | nil => simp at hkinds
  | cons kind kinds ih =>
    by_cases hkind : kind.IsVariable
    · obtain ⟨v, hv, hblank⟩ := exists_fed_zero order hkind
      refine ⟨.cons v (blank kinds), ?_⟩
      rw [blank, stream_cons, stream_cons, hv, hblank]
      rfl
    · have hrest : ∃ kind ∈ kinds, kind.IsVariable := by
        obtain ⟨other, hmem, hother⟩ := hkinds
        rcases List.mem_cons.mp hmem with rfl | hmem
        · exact absurd hother hkind
        · exact ⟨other, hmem, hother⟩
      obtain ⟨v, hv⟩ := ih hrest
      refine ⟨.cons kind.blank v, ?_⟩
      -- the zero may stand before the zeros of the first member or behind them
      rw [blank, stream_cons, stream_cons, hv, fed_blank, List.append_cons,
        ← List.replicate_succ', List.replicate_succ, List.cons_append]

theorem exists_same_stream {kinds : List Kind} (hkinds : ¬ AtMostOneVariable kinds) :
    ∃ v w : Members kinds, v ≠ w ∧ stream order v = stream order w := by
  unfold AtMostOneVariable at hkinds
  induction kinds with
  | nil => simp at hkinds
  | cons kind kinds ih =>
    rw [List.countP_cons] at hkinds
    by_cases hkind : kind.IsVariable
    · simp only [hkind, decide_true, if_true] at hkinds
      have hrest : ∃ kind ∈ kinds, kind.IsVariable := by
        simpa using List.countP_pos_iff.mp (show 0 < kinds.countP (·.IsVariable) by omega)
      obtain ⟨first, hfirst, hblank⟩ := exists_fed_zero order hkind
      obtain ⟨rest, hrest⟩ := exists_stream_zero order hrest
      -- the same byte at the end of this member, or in a later one
      refine ⟨.cons first (blank kinds), .cons kind.blank rest, fun heq => ?_, ?_⟩
      · rw [Members.cons.injEq] at heq
        rw [heq.1, hblank] at hfirst
        simp at hfirst
      · rw [stream_cons, stream_cons, hfirst, hblank, hrest]
        rfl
    · simp only [hkind, decide_false, Bool.false_eq_true, if_false] at hkinds
      obtain ⟨v, w, hne, heq⟩ := ih hkinds
      refine ⟨.cons kind.blank v, .cons kind.blank w, fun h => hne (Members.cons.inj h).2, ?_⟩
      rw [stream_cons, stream_cons, heq]

/-- The hash of a struct separates its values exactly if at most one of the members is a string
or a vector. -/
theorem separates_iff {sodium : Sodium} {digest : Bytes → Vector UInt8 32}
    (hdoc : sodium.Documented digest) (kinds : List Kind) :
    Separates order sodium digest kinds ↔ AtMostOneVariable kinds := by
  constructor
  · intro hsep
    by_contra hkinds
    obtain ⟨v, w, hne, heq⟩ := exists_same_stream order hkinds
    exact hne (hsep.1 v w heq)
  · intro hkinds
    refine ⟨fun v w => stream_injective order hkinds, fun v w hne hhash => ⟨?_, ?_⟩⟩
    · exact fun heq => hne (stream_injective order hkinds heq)
    · rw [hash_eq order hdoc, hash_eq order hdoc] at hhash
      exact Hash.mk.inj hhash

/-! ## SHA-256

What the three functions compute; nothing above depends on it. -/

namespace Sha256

def constants : List UInt32 := [
    0x428a2f98, 0x71374491, 0xb5c0fbcf, 0xe9b5dba5, 0x3956c25b, 0x59f111f1, 0x923f82a4, 0xab1c5ed5,
    0xd807aa98, 0x12835b01, 0x243185be, 0x550c7dc3, 0x72be5d74, 0x80deb1fe, 0x9bdc06a7, 0xc19bf174,
    0xe49b69c1, 0xefbe4786, 0x0fc19dc6, 0x240ca1cc, 0x2de92c6f, 0x4a7484aa, 0x5cb0a9dc, 0x76f988da,
    0x983e5152, 0xa831c66d, 0xb00327c8, 0xbf597fc7, 0xc6e00bf3, 0xd5a79147, 0x06ca6351, 0x14292967,
    0x27b70a85, 0x2e1b2138, 0x4d2c6dfc, 0x53380d13, 0x650a7354, 0x766a0abb, 0x81c2c92e, 0x92722c85,
    0xa2bfe8a1, 0xa81a664b, 0xc24b8b70, 0xc76c51a3, 0xd192e819, 0xd6990624, 0xf40e3585, 0x106aa070,
    0x19a4c116, 0x1e376c08, 0x2748774c, 0x34b0bcb5, 0x391c0cb3, 0x4ed8aa4a, 0x5b9cca4f, 0x682e6ff3,
    0x748f82ee, 0x78a5636f, 0x84c87814, 0x8cc70208, 0x90befffa, 0xa4506ceb, 0xbef9a3f7, 0xc67178f2
  ]

def initial : List UInt32 := [
    0x6a09e667, 0xbb67ae85, 0x3c6ef372, 0xa54ff53a, 0x510e527f, 0x9b05688c, 0x1f83d9ab, 0x5be0cd19
  ]

def rotr (x n : UInt32) : UInt32 := x >>> n ||| x <<< (32 - n)

/-- Whole blocks: a one bit, zeros and the number of bits follow the message. -/
def pad (message : Bytes) : Bytes :=
  message ++ 0x80 :: List.replicate ((119 - message.length % 64) % 64) 0 ++
    integerBytes .big (BitVec.ofNat (8 * 8) (8 * message.length))

def words (block : Bytes) : List UInt32 :=
  (block.toChunks 4).map fun bytes => bytes.foldl (fun word byte => word <<< 8 ||| byte.toUInt32) 0

/-- `n` more words of the schedule; the last word comes first. -/
def schedule : Nat → List UInt32 → List UInt32
  | 0, ws => ws
  | n + 1, ws =>
    let s0 := rotr ws[14]! 7 ^^^ rotr ws[14]! 18 ^^^ ws[14]! >>> 3
    let s1 := rotr ws[1]! 17 ^^^ rotr ws[1]! 19 ^^^ ws[1]! >>> 10
    schedule n ((ws[15]! + s0 + ws[6]! + s1) :: ws)

def round (h : List UInt32) (kw : UInt32 × UInt32) : List UInt32 :=
  match h with
  | [a, b, c, d, e, f, g, h] =>
    let s1 := rotr e 6 ^^^ rotr e 11 ^^^ rotr e 25
    let t1 := h + s1 + (e &&& f ^^^ ~~~e &&& g) + kw.1 + kw.2
    let s0 := rotr a 2 ^^^ rotr a 13 ^^^ rotr a 22
    let t2 := s0 + (a &&& b ^^^ a &&& c ^^^ b &&& c)
    [t1 + t2, a, b, c, d + t1, e, f, g]
  | _ => h

def compress (h : List UInt32) (block : Bytes) : List UInt32 :=
  let ws := (schedule 48 (words block).reverse).reverse
  h.zipWith (· + ·) ((constants.zip ws).foldl round h)

end Sha256

def sha256 (message : Bytes) : Vector UInt8 32 :=
  let h := ((Sha256.pad message).toChunks 64).foldl Sha256.compress Sha256.initial
  Vector.ofFn fun i => (h[i.val / 4]! >>> (24 - 8 * UInt32.ofNat (i.val % 4))).toUInt8

example : sha256 [97, 98, 99] = #v[
    0xba, 0x78, 0x16, 0xbf, 0x8f, 0x01, 0xcf, 0xea, 0x41, 0x41, 0x40, 0xde, 0x5d, 0xae, 0x22, 0x23,
    0xb0, 0x03, 0x61, 0xa3, 0x96, 0x17, 0x7a, 0x9c, 0xb4, 0x10, 0xff, 0x61, 0xf2, 0x00, 0x15, 0xad
  ] := by decide +kernel

theorem separates_prev_and_data :
    (Sodium.reference sha256).Documented sha256 ∧
      Separates .little (Sodium.reference sha256) sha256 [.hash 32, .string] :=
  ⟨Sodium.reference_documented sha256,
    (separates_iff .little (Sodium.reference_documented sha256) [.hash 32, .string]).mpr
      (by decide)⟩

/-- `{"ab", "c"}` and `{"a", "bc"}`. -/
theorem two_strings_one_stream :
    let v : Members [.string, .string] := .cons ([97, 98] : Bytes) (.cons ([99] : Bytes) .nil)
    let w : Members [.string, .string] := .cons ([97] : Bytes) (.cons ([98, 99] : Bytes) .nil)
    stream .little v = stream .little w ∧ v ≠ w ∧
      hash .little (Sodium.reference sha256) v = hash .little (Sodium.reference sha256) w ∧
      ¬ Separates .little (Sodium.reference sha256) sha256 [.string, .string] := by
  intro v w
  have hstream : stream .little v = stream .little w := rfl
  have hne : v ≠ w := by
    intro heq
    have hfirst : ([97, 98] : Bytes) = [97] := (Members.cons.inj heq).1
    simp at hfirst
  exact ⟨hstream, hne, rfl, fun hsep => hne (hsep.1 v w hstream)⟩

end Zatestil.Hashing
