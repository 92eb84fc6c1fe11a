import Mathlib.Tactic

/-!
# Hashes and their text form

`Hash<size>` is an array of bytes; `string` prints it in hexadecimal and `parse` reads it back.
Both are loops over the bytes. `parseTurns` and `stringTurns` are the array and the buffer
after some turns of these loops, and the lemmas about them say what has been done so far.

Whether a `char` is signed is left to the implementation, so it is a parameter.
-/
namespace Zatestil.Hashing

/-- The bytes of a `std::string`, or of a vector. -/
abbrev Bytes := List UInt8

/-! ## Hexadecimal characters -/

/-- The value of a `char` with the given bits. -/
def charValue (signed : Bool) (c : UInt8) : Int :=
  if signed then c.toInt8.toInt else c.toNat

/-- `char_from_hex(c, value)`: the value, or nothing if the result is `false`. -/
def charFromHex (signed : Bool) (c : UInt8) : Option UInt8 :=
  let c := charValue signed c
  -- the ranges '0' to '9', 'a' to 'f' and 'A' to 'F'
  if 48 ≤ c ∧ c ≤ 57 then some (UInt8.ofInt (c - 48))
  else if 97 ≤ c ∧ c ≤ 102 then some (UInt8.ofInt (c - 97 + 10))
  else if 65 ≤ c ∧ c ≤ 70 then some (UInt8.ofInt (c - 65 + 10))
  else none

/-- `char_from_hex(c)`. -/
def charFromHexOrThrow (signed : Bool) (c : UInt8) : Except String UInt8 :=
  match charFromHex signed c with
  | some value => .ok value
  | none => .error "invalid hex character"

/-- What `sprintf` prints for `"%02x"`. -/
def hex02 (value : Nat) : Bytes :=
  ((Nat.toDigits 16 value).map fun c => c.toNat.toUInt8).leftpad 2 48

def IsLowerHex (c : UInt8) : Prop := 48 ≤ c ∧ c ≤ 57 ∨ 97 ≤ c ∧ c ≤ 102

def IsHex (c : UInt8) : Prop := IsLowerHex c ∨ 65 ≤ c ∧ c ≤ 70

instance (c : UInt8) : Decidable (IsLowerHex c) := inferInstanceAs (Decidable (_ ∨ _))
instance (c : UInt8) : Decidable (IsHex c) := inferInstanceAs (Decidable (_ ∨ _))

def lower (c : UInt8) : UInt8 := if 65 ≤ c ∧ c ≤ 70 then c + 32 else c

/-- The lower-case digit of a value below sixteen. -/
def digit (value : UInt8) : UInt8 := if value < 10 then 48 + value else 87 + value

theorem forall_byte {p : UInt8 → Prop} (h : ∀ i : Fin 256, p (UInt8.ofNat i)) : ∀ c, p c := by
  intro c
  have hc := h ⟨c.toNat, c.toNat_lt⟩
  rwa [UInt8.ofNat_toNat] at hc

theorem charFromHex_isSome (signed : Bool) :
    ∀ c, (charFromHex signed c).isSome = true ↔ IsHex c := by
  cases signed <;> exact forall_byte (by decide +kernel)

theorem charFromHex_digit (signed : Bool) :
    ∀ value, value < 16 → charFromHex signed (digit value) = some value := by
  cases signed <;> exact forall_byte (by decide +kernel)

theorem digit_of_charFromHex (signed : Bool) :
    ∀ c, ∀ value ∈ charFromHex signed c, value < 16 ∧ digit value = lower c := by
  cases signed <;> exact forall_byte (by decide +kernel)

theorem isLowerHex_digit : ∀ value, value < 16 → IsLowerHex (digit value) :=
  forall_byte (by decide +kernel)

theorem hex02_eq : ∀ b : UInt8, hex02 b.toNat = [digit (b / 16), digit (b % 16)] :=
  forall_byte (by decide +kernel)

theorem halves_lt : ∀ b : UInt8, b / 16 < 16 ∧ b % 16 < 16 :=
  forall_byte (by decide +kernel)

/-- `(hi << 4) + lo`, computed as an `int` and stored in a byte. -/
def join (hi lo : UInt8) : UInt8 := UInt8.ofNat (hi.toNat <<< 4 + lo.toNat)

theorem join_halves : ∀ b : UInt8, join (b / 16) (b % 16) = b :=
  forall_byte (by decide +kernel)

theorem halves_join {hi lo : UInt8} (hhi : hi < 16) (hlo : lo < 16) :
    join hi lo / 16 = hi ∧ join hi lo % 16 = lo := by
  have hhi : hi.toNat < 16 := hhi
  have hlo : lo.toNat < 16 := hlo
  have hjoin : (join hi lo).toNat = 16 * hi.toNat + lo.toNat := by
    simp [join, Nat.shiftLeft_eq]
    omega
  constructor
  · apply UInt8.toNat.inj
    simp [hjoin]
    omega
  · apply UInt8.toNat.inj
    simp [hjoin]
    omega

/-! ## The class -/

/-- `Hash<size>`. -/
structure Hash (size : Nat) where
  m_data : Vector UInt8 size
  deriving DecidableEq

namespace Hash

variable {size : Nat} (signed : Bool)

/-- `data` after the first `i` turns of the loop of `parse`. -/
def parseTurns (size : Nat) (hash : Bytes) : Nat → Except String (Vector UInt8 size)
  | 0 => .ok (Vector.replicate size 0)
  | i + 1 => do
    let data ← parseTurns size hash i
    let hi ← charFromHexOrThrow signed hash[2 * i]!
    let lo ← charFromHexOrThrow signed hash[2 * i + 1]!
    .ok (data.setIfInBounds i (join hi lo))

def parse (size : Nat) (hash : Bytes) : Except String (Hash size) :=
  if hash.length ≠ size * 2 then .error "invalid hash string length"
  else do
    let data ← parseTurns signed size hash size
    .ok ⟨data⟩

/-- `sprintf` into a buffer: the text and a terminator take the place of what was there. -/
def sprintf (buf : Bytes) (pos : Nat) (text : Bytes) : Bytes :=
  buf.take pos ++ text ++ 0 :: buf.drop (pos + text.length + 1)

/-- The buffer, with the terminator behind its end, after the first `i` turns of the loop of
`string`. -/
def stringTurns (h : Hash size) : Nat → Bytes
  | 0 => List.replicate (2 * size) 0 ++ [0]
  | i + 1 => sprintf (h.stringTurns i) (2 * i) (hex02 h.m_data[i]!.toNat)

def string (h : Hash size) : Bytes := (h.stringTurns size).take (2 * size)

/-! ## Printing -/

/-- The `k`-th character of the text: two digits for each byte, the upper half first. -/
def digitAt (h : Hash size) (k : Nat) : UInt8 :=
  if k % 2 = 0 then digit (h.m_data[k / 2]! / 16) else digit (h.m_data[k / 2]! % 16)

theorem digitAt_even (h : Hash size) (i : Nat) :
    h.digitAt (2 * i) = digit (h.m_data[i]! / 16) := by
  simp [digitAt]

theorem digitAt_odd (h : Hash size) (i : Nat) :
    h.digitAt (2 * i + 1) = digit (h.m_data[i]! % 16) := by
  simp [digitAt, show (2 * i + 1) / 2 = i by omega]

theorem getElem?_sprintf {buf text : Bytes} {i : Nat} (h : i + text.length < buf.length) (k : Nat) :
    (sprintf buf i text)[k]? =
      if k < i then buf[k]? else if k < i + text.length then text[k - i]?
      else if k = i + text.length then some 0 else buf[k]? := by
  unfold sprintf
  have hi : (buf.take i).length = i := by
    rw [List.length_take]
    omega
  grind

theorem length_stringTurns (h : Hash size) {i : Nat} (hi : i ≤ size) :
    (h.stringTurns i).length = 2 * size + 1 := by
  induction i with
  | zero => simp [stringTurns]
  | succ i ih =>
    have ih := ih (by omega)
    simp only [stringTurns, sprintf, hex02_eq]
    grind

/-- The characters of the bytes so far, and zeros. -/
theorem getElem?_stringTurns (h : Hash size) {i : Nat} (hi : i ≤ size) (k : Nat) :
    (h.stringTurns i)[k]? =
      if k < 2 * i then some (h.digitAt k) else if k ≤ 2 * size then some 0 else none := by
  induction i with
  | zero =>
    simp only [stringTurns]
    grind
  | succ i ih =>
    have ih := ih (by omega)
    have hlen := h.length_stringTurns (show i ≤ size by omega)
    -- the terminator of this turn is the place where the next turn starts
    rw [stringTurns, hex02_eq, getElem?_sprintf (by simp; omega), ih]
    have heven := h.digitAt_even i
    have hodd := h.digitAt_odd i
    grind

theorem length_string (h : Hash size) : h.string.length = 2 * size := by
  simp [string, h.length_stringTurns le_rfl]

theorem getElem?_string (h : Hash size) {k : Nat} (hk : k < 2 * size) :
    h.string[k]? = some (h.digitAt k) := by
  rw [string, List.getElem?_take_of_lt hk, h.getElem?_stringTurns le_rfl, if_pos hk]

theorem isLowerHex_of_mem_string (h : Hash size) : ∀ c ∈ h.string, IsLowerHex c := by
  intro c hc
  obtain ⟨k, hk⟩ := List.mem_iff_getElem?.mp hc
  have hlt : k < 2 * size := by
    rw [← h.length_string]
    exact (List.getElem?_eq_some_iff.mp hk).1
  rw [h.getElem?_string hlt] at hk
  cases hk
  unfold digitAt
  split_ifs
  · exact isLowerHex_digit _ (halves_lt _).1
  · exact isLowerHex_digit _ (halves_lt _).2

/-! ## Parsing -/

/-- The byte that a turn makes of two characters. -/
def byteAt (hash : Bytes) (i : Nat) : UInt8 :=
  join ((charFromHex signed hash[2 * i]!).getD 0) ((charFromHex signed hash[2 * i + 1]!).getD 0)

theorem charFromHexOrThrow_eq (c : UInt8) :
    charFromHexOrThrow signed c =
      if IsHex c then .ok ((charFromHex signed c).getD 0) else .error "invalid hex character" := by
  have hsome := charFromHex_isSome signed c
  unfold charFromHexOrThrow
  cases h : charFromHex signed c with
  | none => rw [if_neg (by simp [← hsome, h])]
  | some value => rw [if_pos (by simp [← hsome, h])]; rfl

theorem parseTurns_succ (hash : Bytes) (i : Nat) :
    parseTurns signed size hash (i + 1) = (parseTurns signed size hash i).bind fun data =>
      if IsHex hash[2 * i]! ∧ IsHex hash[2 * i + 1]! then
        .ok (data.setIfInBounds i (byteAt signed hash i))
      else .error "invalid hex character" := by
  rw [parseTurns]
  refine congrArg (Except.bind _) (funext fun data => ?_)
  simp only [charFromHexOrThrow_eq]
  by_cases hhi : IsHex hash[2 * i]!
  · by_cases hlo : IsHex hash[2 * i + 1]!
    · simp only [hhi, hlo, and_self, if_true]
      rfl
    · simp only [hhi, hlo, and_false, if_true, if_false]
      rfl
  · simp only [hhi, false_and, if_false]
    rfl

/-- The bytes so far, and zeros, if all characters so far are digits. -/
theorem parseTurns_eq (hash : Bytes) (i : Nat) :
    parseTurns signed size hash i =
      if ∀ k < 2 * i, IsHex hash[k]! then
        .ok (Vector.ofFn fun j => if j < i then byteAt signed hash j else 0)
      else .error "invalid hex character" := by
  induction i with
  | zero =>
    rw [parseTurns, if_pos (by simp)]
    congr 1
    ext j hj
    simp
  | succ i ih =>
    rw [parseTurns_succ, ih]
    by_cases hold : ∀ k < 2 * i, IsHex hash[k]!
    · have hall : (∀ k < 2 * (i + 1), IsHex hash[k]!) ↔
          IsHex hash[2 * i]! ∧ IsHex hash[2 * i + 1]! := by grind
      rw [if_pos hold]
      by_cases hnew : IsHex hash[2 * i]! ∧ IsHex hash[2 * i + 1]!
      · rw [if_pos (hall.mpr hnew)]
        simp only [Except.bind, if_pos hnew, Except.ok.injEq]
        ext j hj
        simp only [Vector.getElem_setIfInBounds, Vector.getElem_ofFn]
        grind
      · rw [if_neg (mt hall.mp hnew)]
        simp only [Except.bind, if_neg hnew]
    · rw [if_neg hold, if_neg fun h => hold fun k hk => h k (by omega)]
      rfl

theorem parse_eq_ok {hash : Bytes} {h : Hash size} :
    parse signed size hash = .ok h ↔ hash.length = 2 * size ∧ (∀ c ∈ hash, IsHex c) ∧
      h = ⟨Vector.ofFn fun j => byteAt signed hash j⟩ := by
  unfold parse
  by_cases hlen : hash.length = 2 * size
  · have hmem : (∀ k < 2 * size, IsHex hash[k]!) ↔ ∀ c ∈ hash, IsHex c := by
      rw [List.forall_mem_iff_getElem, ← hlen]
      refine forall₂_congr fun k hk => ?_
      rw [getElem!_pos hash k hk]
    rw [if_neg (by omega), parseTurns_eq]
    by_cases hhex : ∀ c ∈ hash, IsHex c
    · rw [if_pos (hmem.mpr hhex)]
      simp only [bind, Except.bind, hlen, Fin.is_lt, if_true, Except.ok.injEq, true_and]
      exact ⟨fun h => ⟨hhex, h.symm⟩, fun h => h.2.symm⟩
    · rw [if_neg (mt hmem.mp hhex)]
      simp [bind, Except.bind, hhex]
  · rw [if_pos (by omega)]
    simp [hlen]

/-! ## There and back -/

theorem digit_halves_byteAt {hash : Bytes} {i : Nat} (hhi : IsHex hash[2 * i]!)
    (hlo : IsHex hash[2 * i + 1]!) :
    digit (byteAt signed hash i / 16) = lower hash[2 * i]! ∧
      digit (byteAt signed hash i % 16) = lower hash[2 * i + 1]! := by
  obtain ⟨hi, hi_eq⟩ := Option.isSome_iff_exists.mp ((charFromHex_isSome signed _).mpr hhi)
  obtain ⟨lo, lo_eq⟩ := Option.isSome_iff_exists.mp ((charFromHex_isSome signed _).mpr hlo)
  obtain ⟨hi_lt, hi_digit⟩ := digit_of_charFromHex signed _ _ hi_eq
  obtain ⟨lo_lt, lo_digit⟩ := digit_of_charFromHex signed _ _ lo_eq
  have hbyte : byteAt signed hash i = join hi lo := by
    rw [byteAt, hi_eq, lo_eq]
    rfl
  obtain ⟨hupper, hlower⟩ := halves_join hi_lt lo_lt
  rw [hbyte, hupper, hlower]
  exact ⟨hi_digit, lo_digit⟩

theorem getElem!_ofFn (f : Nat → UInt8) {i : Nat} (hi : i < size) :
    (Vector.ofFn fun j : Fin size => f j)[i]! = f i := by
  rw [getElem!_pos _ i hi, Vector.getElem_ofFn]

theorem string_of_parse {hash : Bytes} {h : Hash size} (hparse : parse signed size hash = .ok h) :
    h.string = hash.map lower := by
  obtain ⟨hlen, hhex, rfl⟩ := (parse_eq_ok signed).mp hparse
  have hat : ∀ k < 2 * size, IsHex hash[k]! := by
    intro k hk
    rw [getElem!_pos hash k (by omega)]
    exact hhex _ (List.getElem_mem _)
  refine List.ext_getElem? fun k => ?_
  by_cases hk : k < 2 * size
  · obtain ⟨i, hi⟩ : ∃ i, k = 2 * i ∨ k = 2 * i + 1 := ⟨k / 2, by omega⟩
    obtain ⟨hupper, hlower⟩ :=
      digit_halves_byteAt signed (hat (2 * i) (by omega)) (hat (2 * i + 1) (by omega))
    rw [getElem?_string _ hk, List.getElem?_map, List.getElem?_eq_getElem (by omega),
      ← getElem!_pos hash k (by omega), Option.map_some]
    rcases hi with rfl | rfl
    · rw [digitAt_even, getElem!_ofFn _ (by omega), hupper]
    · rw [digitAt_odd, getElem!_ofFn _ (by omega), hlower]
  · rw [List.getElem?_eq_none (by rw [length_string]; omega),
      List.getElem?_eq_none (by rw [List.length_map]; omega)]

theorem parse_string (h : Hash size) : parse signed size h.string = .ok h := by
  refine (parse_eq_ok signed).mpr ⟨h.length_string, fun c hc => ?_, ?_⟩
  · exact .inl (h.isLowerHex_of_mem_string c hc)
  · have hat : ∀ k < 2 * size, h.string[k]! = h.digitAt k := by
      intro k hk
      rw [List.getElem!_eq_getElem?_getD, h.getElem?_string hk]
      rfl
    obtain ⟨data⟩ := h
    congr 1
    ext i hi
    obtain ⟨hhi, hlo⟩ := halves_lt data[i]!
    rw [Vector.getElem_ofFn, byteAt, hat _ (by omega), hat _ (by omega), digitAt_even, digitAt_odd,
      charFromHex_digit signed _ hhi, charFromHex_digit signed _ hlo, Option.getD_some,
      Option.getD_some, join_halves, getElem!_pos data i hi]

end Hash

/-- The text form of hashes of every size. `parse` takes the texts of twice as many characters,
all of them hexadecimal digits, and throws on all others; `string` gives back what was parsed,
in lower case; and it prints every hash as lower-case digits that parse to it. -/
theorem hash_text_codec (signed : Bool) (size : Nat) :
    (∀ s, (∃ h, Hash.parse signed size s = .ok h) ↔ s.length = 2 * size ∧ ∀ c ∈ s, IsHex c) ∧
    (∀ s h, Hash.parse signed size s = .ok h → h.string = s.map lower) ∧
    (∀ h : Hash size, h.string.length = 2 * size ∧ (∀ c ∈ h.string, IsLowerHex c) ∧
      Hash.parse signed size h.string = .ok h) ∧
    Function.Injective (Hash.string : Hash size → Bytes) := by
  refine ⟨fun s => ⟨?_, ?_⟩, fun s h => Hash.string_of_parse signed, fun h => ?_,
    fun h h' heq => ?_⟩
  · rintro ⟨h, hparse⟩
    obtain ⟨hlen, hhex, -⟩ := (Hash.parse_eq_ok signed).mp hparse
    exact ⟨hlen, hhex⟩
  · rintro ⟨hlen, hhex⟩
    exact ⟨_, (Hash.parse_eq_ok signed).mpr ⟨hlen, hhex, rfl⟩⟩
  · exact ⟨h.length_string, h.isLowerHex_of_mem_string, Hash.parse_string signed h⟩
  · have hback := Hash.parse_string signed h
    rw [heq, Hash.parse_string signed h'] at hback
    exact (Except.ok.inj hback).symm

end Zatestil.Hashing
