import Mathlib.Tactic

/-!
# Codecs

A codec writes values as symbols and reads them back from the front of a text. `Inverts` says
that it reads exactly what it wrote, whatever follows; the combinators below keep it, so that a
format is shown to be readable part by part.
-/
namespace Zatestil.Library

structure Codec (β α : Type*) where
  save : α → List β
  load : List β → Option (α × List β)

namespace Codec

variable {α γ β : Type*}

/-- Reading what was written gives the value and leaves the rest. -/
def Inverts (c : Codec β α) : Prop := ∀ a rest, c.load (c.save a ++ rest) = some (a, rest)

def unit : Codec β Unit where
  save _ := []
  load text := some ((), text)

/-- One value behind the other. -/
def pair (c : Codec β α) (d : Codec β γ) : Codec β (α × γ) where
  save v := c.save v.1 ++ d.save v.2
  load text :=
    (c.load text).bind fun (a, text) => (d.load text).map fun (g, text) => ((a, g), text)

/-- The same symbols for values of another type. -/
def via (c : Codec β α) (pack : α → γ) (unpack : γ → α) : Codec β γ where
  save v := c.save (unpack v)
  load text := (c.load text).map fun (a, text) => (pack a, text)

/-- `n` symbols as they are. -/
def block (n : Nat) : Codec β (Vector β n) where
  save v := v.toList
  load text :=
    if h : n ≤ text.length then some (⟨(text.take n).toArray, by simp [h]⟩, text.drop n) else none

def loadMany (c : Codec β α) : Nat → List β → Option (List α × List β)
  | 0, text => some ([], text)
  | n + 1, text =>
    (c.load text).bind fun (a, text) => (loadMany c n text).map fun (as, text) => (a :: as, text)

/-- The number of the values, and then the values. -/
def counted {bound : Nat} (size : Codec β (Fin bound)) (c : Codec β α) :
    Codec β { l : List α // l.length < bound } where
  save l := size.save ⟨l.1.length, l.2⟩ ++ l.1.flatMap c.save
  load text :=
    (size.load text).bind fun (n, text) => (c.loadMany n text).bind fun (l, text) =>
      if h : l.length < bound then some (⟨l, h⟩, text) else none

theorem inverts_unit : (unit : Codec β Unit).Inverts := fun _ _ => rfl

theorem Inverts.pair {c : Codec β α} {d : Codec β γ} (hc : c.Inverts) (hd : d.Inverts) :
    (c.pair d).Inverts := by
  intro v rest
  simp [Codec.pair, List.append_assoc, hc v.1, hd v.2]

theorem Inverts.via {c : Codec β α} (hc : c.Inverts) {pack : α → γ} {unpack : γ → α}
    (h : ∀ v, pack (unpack v) = v) : (c.via pack unpack).Inverts := by
  intro v rest
  simp [Codec.via, hc (unpack v), h]

theorem inverts_block (n : Nat) : (block n : Codec β (Vector β n)).Inverts := by
  intro v rest
  have htake : (v.toList ++ rest).take n = v.toList := List.take_left' v.length_toList
  have hdrop : (v.toList ++ rest).drop n = rest := List.drop_left' v.length_toList
  simp only [block, htake, hdrop]
  rw [dif_pos (by simp)]
  exact congrArg (fun v => some (v, rest)) (Vector.toArray_inj.mp rfl)

theorem Inverts.loadMany {c : Codec β α} (hc : c.Inverts) (l : List α) (rest : List β) :
    c.loadMany l.length (l.flatMap c.save ++ rest) = some (l, rest) := by
  induction l with
  | nil => rfl
  | cons a l ih => simp [Codec.loadMany, List.append_assoc, hc a, ih]

theorem Inverts.counted {bound : Nat} {size : Codec β (Fin bound)} (hsize : size.Inverts)
    {c : Codec β α} (hc : c.Inverts) : (size.counted c).Inverts := by
  rintro ⟨l, hl⟩ rest
  simp [Codec.counted, List.append_assoc, hsize ⟨l.length, hl⟩, hc.loadMany, hl]

end Codec

end Zatestil.Library
