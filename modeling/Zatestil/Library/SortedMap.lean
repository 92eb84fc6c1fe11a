import Mathlib.Data.List.Sort
import Mathlib.Order.Basic
import Mathlib.Tactic

/-!
# Finite maps as sorted association lists

The entries are strictly increasing in their keys, so a key occurs at most once and two
maps with the same entries are equal. `ceil`, `above` and `below` are the neighbours of a
key that an ordered index is asked for; they are defined for keys outside the map too.
`before` and `after` are what an iteration still has to visit in the one or the other
direction.
-/
namespace Zatestil.Library

/-- A finite map with its entries in increasing order of keys. -/
structure SortedMap (κ ν : Type*) [LinearOrder κ] where
  entries : List (κ × ν)
  sorted : entries.Pairwise (·.1 < ·.1)

namespace SortedMap

variable {κ ν : Type*} [LinearOrder κ]

deriving instance DecidableEq for SortedMap

def empty : SortedMap κ ν := ⟨[], .nil⟩

instance : Inhabited (SortedMap κ ν) := ⟨empty⟩

def lookup (m : SortedMap κ ν) (k : κ) : Option ν :=
  (m.entries.find? (·.1 = k)).map (·.2)

def first (m : SortedMap κ ν) : Option (κ × ν) := m.entries.head?

/-- The entry with the least key that is at least `k`. -/
def ceil (m : SortedMap κ ν) (k : κ) : Option (κ × ν) := m.entries.find? (k ≤ ·.1)

/-- The entry with the least key greater than `k`. -/
def above (m : SortedMap κ ν) (k : κ) : Option (κ × ν) := m.entries.find? (k < ·.1)

/-- The entry with the greatest key less than `k`. -/
def below (m : SortedMap κ ν) (k : κ) : Option (κ × ν) := m.entries.findRev? (·.1 < k)

def erase (m : SortedMap κ ν) (k : κ) : SortedMap κ ν :=
  ⟨m.entries.filter (·.1 ≠ k), m.sorted.filter _⟩

/-- Store a value under a key, in place of the value there if there is one. -/
def insert (m : SortedMap κ ν) (k : κ) (v : ν) : SortedMap κ ν where
  entries := m.entries.filter (·.1 < k) ++ (k, v) :: m.entries.filter (k < ·.1)
  sorted := by
    refine List.pairwise_append.mpr ⟨m.sorted.filter _, ?_, ?_⟩
    · refine List.pairwise_cons.mpr ⟨?_, m.sorted.filter _⟩
      intro e he
      simpa using (List.mem_filter.mp he).2
    · intro a ha b hb
      have hak : a.1 < k := by simpa using (List.mem_filter.mp ha).2
      rcases List.mem_cons.mp hb with rfl | hb
      · exact hak
      · have hkb : k < b.1 := by simpa using (List.mem_filter.mp hb).2
        exact hak.trans hkb

/-! ## Entries and lookups -/

theorem key_inj {m : SortedMap κ ν} {a b : κ × ν} (ha : a ∈ m.entries) (hb : b ∈ m.entries)
    (h : a.1 = b.1) : a = b := by
  have hkeys : m.entries.Pairwise (fun a b => a.1 ≠ b.1) := m.sorted.imp fun hlt => hlt.ne
  have : Std.Symm (fun a b : κ × ν => a.1 ≠ b.1) := ⟨fun _ _ => Ne.symm⟩
  by_contra hne
  exact hkeys.forall ha hb hne h

theorem lookup_eq_some {m : SortedMap κ ν} {k : κ} {v : ν} :
    m.lookup k = some v ↔ (k, v) ∈ m.entries := by
  constructor
  · intro h
    obtain ⟨e, he, rfl⟩ := Option.map_eq_some_iff.mp h
    have hk : e.1 = k := by simpa using List.find?_some he
    exact hk ▸ List.mem_of_find?_eq_some he
  · intro h
    cases hf : m.entries.find? (·.1 = k) with
    | none =>
      have := List.find?_eq_none.mp hf (k, v) h
      simp at this
    | some e =>
      have hk : e.1 = k := by simpa using List.find?_some hf
      have he : e = (k, v) := key_inj (List.mem_of_find?_eq_some hf) h hk
      simp [lookup, hf, he]

@[simp] theorem lookup_empty (k : κ) : (empty : SortedMap κ ν).lookup k = none := rfl

theorem mem_insert {m : SortedMap κ ν} {k : κ} {v : ν} {e : κ × ν} :
    e ∈ (m.insert k v).entries ↔ e = (k, v) ∨ e ∈ m.entries ∧ e.1 ≠ k := by
  simp only [insert, List.mem_append, List.mem_cons, List.mem_filter, decide_eq_true_eq,
    ne_iff_lt_or_gt]
  tauto

theorem mem_erase {m : SortedMap κ ν} {k : κ} {e : κ × ν} :
    e ∈ (m.erase k).entries ↔ e ∈ m.entries ∧ e.1 ≠ k := by
  simp [erase]

theorem lookup_insert (m : SortedMap κ ν) (k : κ) (v : ν) (j : κ) :
    (m.insert k v).lookup j = if j = k then some v else m.lookup j := by
  apply Option.ext
  intro w
  rw [lookup_eq_some, mem_insert]
  split_ifs with h
  · subst h
    simp [eq_comm]
  · simp [lookup_eq_some, h]

theorem lookup_erase (m : SortedMap κ ν) (k j : κ) :
    (m.erase k).lookup j = if j = k then none else m.lookup j := by
  apply Option.ext
  intro w
  rw [lookup_eq_some, mem_erase]
  split_ifs with h
  · simp [h]
  · simp [lookup_eq_some, h]

/-- A sorted map is determined by its lookups. -/
theorem ext_lookup {m n : SortedMap κ ν} (h : ∀ k, m.lookup k = n.lookup k) : m = n := by
  have hmem : ∀ e, e ∈ m.entries ↔ e ∈ n.entries := by
    intro e
    rw [← lookup_eq_some, ← lookup_eq_some, h]
  have hnodup : ∀ l : SortedMap κ ν, l.entries.Nodup := fun l =>
    l.sorted.imp fun hlt he => hlt.ne (congrArg Prod.fst he)
  have hperm : m.entries.Perm n.entries :=
    (List.perm_ext_iff_of_nodup (hnodup m) (hnodup n)).mpr hmem
  have heq : m.entries = n.entries :=
    hperm.eq_of_pairwise (fun a b _ _ hab hba => absurd hba hab.not_gt) m.sorted n.sorted
  cases m
  cases n
  simpa using heq

theorem erase_of_lookup_eq_none {m : SortedMap κ ν} {k : κ} (h : m.lookup k = none) :
    m.erase k = m := by
  apply ext_lookup
  intro j
  rw [lookup_erase]
  split_ifs with hj
  · rw [hj, h]
  · rfl

/-! ## Neighbours -/

theorem lookup_of_ceil {m : SortedMap κ ν} {k : κ} {e : κ × ν} (h : m.ceil k = some e) :
    m.lookup e.1 = some e.2 :=
  lookup_eq_some.mpr (List.mem_of_find?_eq_some h)

theorem ceil_eq_none {m : SortedMap κ ν} {k : κ} :
    m.ceil k = none ↔ ∀ j, k ≤ j → m.lookup j = none := by
  simp only [ceil, List.find?_eq_none, decide_eq_true_eq]
  constructor
  · intro h j hj
    cases hv : m.lookup j with
    | none => rfl
    | some v => exact absurd hj (h (j, v) (lookup_eq_some.mp hv))
  · intro h e he hk
    have := lookup_eq_some.mpr he
    rw [h e.1 hk] at this
    cases this

/-- `ceil` is the least key of the map that is not below `k`. -/
theorem isLeast_ceil {m : SortedMap κ ν} {k : κ} {e : κ × ν} (h : m.ceil k = some e) :
    IsLeast {j | k ≤ j ∧ (m.lookup j).isSome} e.1 := by
  obtain ⟨hk, as, bs, has, hbefore⟩ := List.find?_eq_some_iff_append.mp h
  refine ⟨⟨by simpa using hk, by simp [lookup_of_ceil h]⟩, ?_⟩
  rintro j ⟨hj, hv⟩
  obtain ⟨v, hv⟩ := Option.isSome_iff_exists.mp hv
  have hs := m.sorted
  have hmem := lookup_eq_some.mp hv
  rw [has] at hs hmem
  rcases List.mem_append.mp hmem with hm | hm
  · have := hbefore _ hm
    simp [hj] at this
  · rcases List.mem_cons.mp hm with rfl | hm
    · exact le_rfl
    · exact ((List.pairwise_cons.mp (List.pairwise_append.mp hs).2.1).1 _ hm).le

theorem ceil_of_lookup {m : SortedMap κ ν} {k : κ} {v : ν} (h : m.lookup k = some v) :
    m.ceil k = some (k, v) := by
  cases hc : m.ceil k with
  | none =>
    rw [ceil_eq_none.mp hc k le_rfl] at h
    cases h
  | some e =>
    have hleast := isLeast_ceil hc
    have hk : e.1 = k := le_antisymm (hleast.2 ⟨le_rfl, by simp [h]⟩) hleast.1.1
    have hv := lookup_of_ceil hc
    rw [hk, h] at hv
    rw [← hk, Option.some.inj hv]

theorem lookup_of_above {m : SortedMap κ ν} {k : κ} {e : κ × ν} (h : m.above k = some e) :
    m.lookup e.1 = some e.2 :=
  lookup_eq_some.mpr (List.mem_of_find?_eq_some h)

theorem lookup_of_below {m : SortedMap κ ν} {k : κ} {e : κ × ν} (h : m.below k = some e) :
    m.lookup e.1 = some e.2 := by
  simp only [below, List.findRev?_eq_find?_reverse] at h
  exact lookup_eq_some.mpr (List.mem_reverse.mp (List.mem_of_find?_eq_some h))

theorem lookup_of_first {m : SortedMap κ ν} {e : κ × ν} (h : m.first = some e) :
    m.lookup e.1 = some e.2 :=
  lookup_eq_some.mpr (List.mem_of_mem_head? h)

theorem first_eq_none {m : SortedMap κ ν} : m.first = none ↔ m = empty := by
  constructor
  · intro h
    cases m
    simpa [first, empty] using h
  · rintro rfl
    rfl

/-- Taking the first entry away: the rest is what follows it. -/
theorem erase_first {m : SortedMap κ ν} {e : κ × ν} (h : m.first = some e) :
    (m.erase e.1).entries.length + 1 = m.entries.length ∧
      (m.erase e.1).above e.1 = (m.erase e.1).first := by
  obtain ⟨l, hl⟩ := m
  cases l with
  | nil => simp [first] at h
  | cons a l =>
    obtain rfl : a = e := by simpa [first] using h
    have hlt := (List.pairwise_cons.mp hl).1
    have hrest : l.filter (·.1 ≠ a.1) = l := by
      refine List.filter_eq_self.mpr fun b hb => ?_
      simpa using (hlt b hb).ne'
    have herase : ((⟨a :: l, hl⟩ : SortedMap κ ν).erase a.1).entries = l := by
      simpa [erase] using hrest
    refine ⟨by rw [herase]; rfl, ?_⟩
    rw [above, first, herase]
    cases l with
    | nil => rfl
    | cons b l => simp [hlt b (by simp)]

/-- `ceil` finds the entry that is least among those not below `k`. -/
theorem ceil_eq_some {m : SortedMap κ ν} {k : κ} {e : κ × ν} :
    m.ceil k = some e ↔ e ∈ m.entries ∧ k ≤ e.1 ∧ ∀ f ∈ m.entries, k ≤ f.1 → e.1 ≤ f.1 := by
  constructor
  · intro h
    have hleast := isLeast_ceil h
    refine ⟨List.mem_of_find?_eq_some h, hleast.1.1, fun f hf hk => hleast.2 ⟨hk, ?_⟩⟩
    simp [lookup_eq_some.mpr hf]
  · rintro ⟨hmem, hk, hleast⟩
    cases hc : m.ceil k with
    | none =>
      have := ceil_eq_none.mp hc e.1 hk
      rw [lookup_eq_some.mpr hmem] at this
      cases this
    | some f =>
      have hf := List.mem_of_find?_eq_some hc
      have hle := (isLeast_ceil hc).2 ⟨hk, by simp [lookup_eq_some.mpr hmem]⟩
      have heq := le_antisymm hle (hleast f hf (isLeast_ceil hc).1.1)
      rw [key_inj hf hmem heq]

/-- Erasing another entry leaves the one that `ceil` finds. -/
theorem ceil_erase_of_ne {m : SortedMap κ ν} {j k : κ} {e : κ × ν} (h : m.ceil j = some e)
    (hk : e.1 ≠ k) : (m.erase k).ceil j = some e := by
  obtain ⟨hmem, hj, hleast⟩ := ceil_eq_some.mp h
  refine ceil_eq_some.mpr ⟨mem_erase.mpr ⟨hmem, hk⟩, hj, fun f hf => ?_⟩
  exact hleast f (mem_erase.mp hf).1

theorem ceil_ne_none_of_mem {m : SortedMap κ ν} {k : κ} {e : κ × ν} (he : e ∈ m.entries)
    (hk : k ≤ e.1) : m.ceil k ≠ none := by
  intro h
  have := ceil_eq_none.mp h e.1 hk
  rw [lookup_eq_some.mpr he] at this
  cases this

/-! ## Parts of the entries

What is before and after a key, in order. The neighbours of the key are the last entry of the
one and the first of the other. -/

def before (m : SortedMap κ ν) (k : κ) : List (κ × ν) := m.entries.filter (·.1 < k)

def after (m : SortedMap κ ν) (k : κ) : List (κ × ν) := m.entries.filter (k < ·.1)

theorem mem_after {m : SortedMap κ ν} {k : κ} {e : κ × ν} :
    e ∈ m.after k ↔ e ∈ m.entries ∧ k < e.1 := by
  simp [after]

theorem mem_cons_after {m : SortedMap κ ν} {e f : κ × ν} (he : e ∈ m.entries) :
    f ∈ e :: m.after e.1 ↔ f ∈ m.entries ∧ e.1 ≤ f.1 := by
  rw [List.mem_cons, mem_after]
  constructor
  · rintro (rfl | ⟨hf, hlt⟩)
    · exact ⟨he, le_rfl⟩
    · exact ⟨hf, hlt.le⟩
  · rintro ⟨hf, hle⟩
    rcases hle.eq_or_lt with heq | hlt
    · exact .inl (key_inj hf he heq.symm)
    · exact .inr ⟨hf, hlt⟩

/-- Removing the first of a run of entries, and then those of the rest with `p`, removes those
of the whole run. -/
theorem mem_erase_first {m : SortedMap κ ν} {e g : κ × ν} (he : e ∈ m.entries)
    {p : κ × ν → Prop} (hp : p e) :
    g ∈ (m.erase e.1).entries ∧ ¬ (g ∈ m.after e.1 ∧ p g) ↔
      g ∈ m.entries ∧ ¬ (g ∈ e :: m.after e.1 ∧ p g) := by
  rw [mem_erase, List.mem_cons]
  constructor
  · rintro ⟨⟨hg, hne⟩, hnot⟩
    refine ⟨hg, ?_⟩
    rintro ⟨rfl | hafter, hpg⟩
    · exact hne rfl
    · exact hnot ⟨hafter, hpg⟩
  · rintro ⟨hg, hnot⟩
    refine ⟨⟨hg, fun hkey => ?_⟩, fun ⟨hafter, hpg⟩ => hnot ⟨.inr hafter, hpg⟩⟩
    obtain rfl : g = e := key_inj hg he hkey
    exact hnot ⟨.inl rfl, hp⟩

theorem pairwise_cons_after (m : SortedMap κ ν) (e : κ × ν) :
    (e :: m.after e.1).Pairwise (·.1 < ·.1) :=
  List.pairwise_cons.mpr ⟨fun _ hf => (mem_after.mp hf).2, m.sorted.filter _⟩

theorem length_after_lt {m : SortedMap κ ν} {e : κ × ν} (h : e ∈ m.entries) :
    (m.after e.1).length < m.entries.length :=
  List.length_filter_lt_length_iff_exists.mpr ⟨e, h, by simp⟩

section Split

variable {m : SortedMap κ ν} {as bs : List (κ × ν)} {e : κ × ν}

theorem lt_of_split (h : m.entries = as ++ e :: bs) :
    (∀ a ∈ as, a.1 < e.1) ∧ ∀ b ∈ bs, e.1 < b.1 := by
  have hs := m.sorted
  rw [h] at hs
  obtain ⟨-, hbs, has⟩ := List.pairwise_append.mp hs
  exact ⟨fun a ha => has a ha e (List.mem_cons_self ..), (List.pairwise_cons.mp hbs).1⟩

theorem before_of_split (h : m.entries = as ++ e :: bs) : m.before e.1 = as := by
  obtain ⟨has, hbs⟩ := lt_of_split h
  have hleft : as.filter (·.1 < e.1) = as := List.filter_eq_self.mpr (by simpa using has)
  have hright : bs.filter (·.1 < e.1) = [] :=
    List.filter_eq_nil_iff.mpr fun b hb => by simpa using (hbs b hb).le
  simp [before, h, hleft, hright]

theorem after_of_split (h : m.entries = as ++ e :: bs) : m.after e.1 = bs := by
  obtain ⟨has, hbs⟩ := lt_of_split h
  have hleft : as.filter (e.1 < ·.1) = [] :=
    List.filter_eq_nil_iff.mpr fun a ha => by simpa using (has a ha).le
  have hright : bs.filter (e.1 < ·.1) = bs := List.filter_eq_self.mpr (by simpa using hbs)
  simp [after, h, hleft, hright]

end Split

theorem above_eq_head (m : SortedMap κ ν) (k : κ) : m.above k = (m.after k).head? :=
  List.head?_filter.symm

theorem entries_of_first {m : SortedMap κ ν} {e : κ × ν} (h : m.first = some e) :
    m.entries = e :: m.after e.1 := by
  obtain ⟨bs, hbs⟩ : ∃ bs, m.entries = e :: bs := by
    cases hm : m.entries with
    | nil => simp [first, hm] at h
    | cons a bs =>
      simp only [first, hm, List.head?_cons, Option.some.injEq] at h
      exact ⟨bs, by rw [h]⟩
  rw [after_of_split (show m.entries = [] ++ e :: bs from hbs), hbs]

/-- A test that holds from some key on selects the first entry that passes and what is after. -/
theorem filter_of_find {m : SortedMap κ ν} {p : κ × ν → Bool} {e : κ × ν}
    (hp : ∀ a b : κ × ν, p a = true → a.1 < b.1 → p b = true)
    (h : m.entries.find? p = some e) : m.entries.filter p = e :: m.after e.1 := by
  obtain ⟨hpe, as, bs, hsplit, has⟩ := List.find?_eq_some_iff_append.mp h
  have hleft : as.filter p = [] := List.filter_eq_nil_iff.mpr (by simpa using has)
  have hright : bs.filter p = bs :=
    List.filter_eq_self.mpr fun b hb => hp e b hpe ((lt_of_split hsplit).2 b hb)
  rw [after_of_split hsplit, hsplit]
  simp [hleft, hright, hpe]

theorem after_of_above {m : SortedMap κ ν} {k : κ} {e : κ × ν} (h : m.above k = some e) :
    m.after k = e :: m.after e.1 :=
  filter_of_find (fun a b ha hab => by simp only [decide_eq_true_eq] at *; exact ha.trans hab) h

theorem filter_of_ceil {m : SortedMap κ ν} {k : κ} {e : κ × ν} (h : m.ceil k = some e) :
    m.entries.filter (k ≤ ·.1) = e :: m.after e.1 :=
  filter_of_find
    (fun a b ha hab => by simp only [decide_eq_true_eq] at *; exact ha.trans hab.le) h

/-- After a key come what follows the entry that `ceil` finds, and that entry itself unless it
is the one under the key. -/
theorem after_of_ceil {m : SortedMap κ ν} {k : κ} {e : κ × ν} (h : m.ceil k = some e) :
    m.after k = m.after e.1 ∨ m.after k = e :: m.after e.1 := by
  obtain ⟨hmem, hk, hleast⟩ := ceil_eq_some.mp h
  rcases hk.eq_or_lt with heq | hlt
  · exact .inl (by rw [heq])
  · refine .inr ?_
    rw [← filter_of_ceil h]
    refine List.filter_congr fun f hf => ?_
    simp only [decide_eq_decide]
    exact ⟨le_of_lt, fun hle => hlt.trans_le (hleast f hf hle)⟩

theorem before_of_below {m : SortedMap κ ν} {k : κ} {e : κ × ν} (h : m.below k = some e) :
    m.before k = m.before e.1 ++ [e] := by
  have hfind : m.entries.reverse.find? (·.1 < k) = some e := by
    rw [← List.findRev?_eq_find?_reverse]
    exact h
  obtain ⟨hek, bs, as, hsplit, hbs⟩ := List.find?_eq_some_iff_append.mp hfind
  have hsplit : m.entries = as.reverse ++ e :: bs.reverse := by
    rw [← List.reverse_reverse m.entries, hsplit]
    simp
  have hek : e.1 < k := by simpa using hek
  have hleft : as.reverse.filter (·.1 < k) = as.reverse :=
    List.filter_eq_self.mpr fun a ha => by simpa using ((lt_of_split hsplit).1 a ha).trans hek
  have hright : bs.reverse.filter (·.1 < k) = [] :=
    List.filter_eq_nil_iff.mpr fun b hb => by simpa using hbs b (List.mem_reverse.mp hb)
  rw [before_of_split hsplit, before, hsplit]
  simp only [List.filter_append, List.filter_cons, hleft, hright, decide_eq_true hek, if_true]

theorem below_eq_none {m : SortedMap κ ν} {k : κ} : m.below k = none ↔ m.before k = [] := by
  simp [below, before, List.filter_eq_nil_iff]

/-- No entry lies between a key and the entry that `ceil` finds for it. -/
theorem before_of_ceil {m : SortedMap κ ν} {k : κ} {e : κ × ν} (h : m.ceil k = some e) :
    m.before k = m.before e.1 := by
  obtain ⟨-, hk, hleast⟩ := ceil_eq_some.mp h
  refine List.filter_congr fun f hf => ?_
  simp only [decide_eq_decide]
  constructor
  · exact fun hlt => hlt.trans_le hk
  · intro hlt
    by_contra hge
    exact absurd hlt (hleast f hf (not_lt.mp hge)).not_gt

/-- Erasing an entry does not change what is after it. -/
theorem after_erase_of_le {m : SortedMap κ ν} {j k : κ} (h : j ≤ k) :
    (m.erase j).after k = m.after k := by
  simp only [after, erase, List.filter_filter]
  refine List.filter_congr fun f _ => ?_
  by_cases hf : k < f.1
  · simp [hf, (h.trans_lt hf).ne']
  · simp [hf]

/-! ## The map as a function

Stated for any decidable equality, which need not be the one of the order. -/

theorem lookup_insert_eq [DecidableEq κ] (m : SortedMap κ ν) (k : κ) (v : ν) :
    (m.insert k v).lookup = Function.update m.lookup k (some v) := by
  funext j
  rw [lookup_insert]
  by_cases h : j = k <;> simp [h]

theorem lookup_erase_eq [DecidableEq κ] (m : SortedMap κ ν) (k : κ) :
    (m.erase k).lookup = Function.update m.lookup k none := by
  funext j
  rw [lookup_erase]
  by_cases h : j = k <;> simp [h]

theorem length_erase_le (m : SortedMap κ ν) (k : κ) :
    (m.erase k).entries.length ≤ m.entries.length := List.length_filter_le _ _

theorem length_insert_le (m : SortedMap κ ν) (k : κ) (v : ν) :
    (m.insert k v).entries.length ≤ m.entries.length + 1 := by
  have hsplit : ∀ l : List (κ × ν),
      (l.filter (·.1 < k)).length + (l.filter (k < ·.1)).length ≤ l.length := by
    intro l
    induction l with
    | nil => simp
    | cons e l ih =>
      have hboth : ¬ (e.1 < k ∧ k < e.1) := fun h => lt_asymm h.1 h.2
      simp only [List.filter_cons, decide_eq_true_eq]
      split_ifs <;> grind
  have := hsplit m.entries
  simp only [insert, List.length_append, List.length_cons]
  omega

end SortedMap

end Zatestil.Library
