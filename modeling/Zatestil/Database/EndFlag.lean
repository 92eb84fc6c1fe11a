import Zatestil.Library.Machine
import Zatestil.Database.Session
import Zatestil.Database.Ranges

/-!
# The cached end flag

`m_end` is set when a cursor is made or moved, and every other operation of the writer leaves
it alone. The invariant of a scope is that each of its cursors is at the end or stands on an
entry, and that cursors which are not at the end have native cursors of their own. Every
operation keeps it but one: erasing the greatest entry takes it away from the cursors on it,
and there is no entry that they could be tracked to.
-/
namespace Zatestil.Database
open Library Util

/-! ## Cursors beside an operation -/

namespace ConstCursor

variable {E : Mdbx} {Value : Type} {S : Schema Value} {t u : E.Txn} {c : E.Cursor}
  {i : ConstCursor E} {r : Option (Bytes × Bytes)}

/-- The native cursor of a cursor that is not at the end is another one than `c`. -/
def Spared (i : ConstCursor E) (c : E.Cursor) : Prop := i.m_end = false → i.m_cursor ≠ some c

/-- A cursor that is not the one used still shows something if there is still an entry at or
after its place. -/
theorem at_of_frame (hK : E.Tracking) (hi : i.At t r) (hf : E.Frame c t u) (hc : i.Spared c)
    (hstays : ∀ e k, r = some e → (E.content t).ceil k = some e → (E.content u).ceil k ≠ none) :
    ∃ r', i.At u r' := by
  cases hi with
  | past d => exact ⟨none, .past d⟩
  | @on _ e he =>
    obtain ⟨d, ho, he⟩ := he
    have hd : d ≠ c := fun h => hc rfl (congrArg some h)
    obtain ⟨k, hk⟩ := hK.current_place _ _ _ he
    have hplace : E.place u d = .on k := (hf.place d hd ho).trans hk
    have hceil : (E.content t).ceil k = some e := (hK.current_on _ _ _ hk).symm.trans he
    obtain ⟨f, hf'⟩ := Option.ne_none_iff_exists'.mp (hstays e k rfl hceil)
    exact ⟨some f, .on (.intro d (hf.opened d ho) ((hK.current_on _ _ _ hplace).trans hf'))⟩

/-- A native cursor that is new is nobody's. -/
theorem spared_of_not_opened (hi : i.At t r) (hc : ¬ E.opened t c) : i.Spared c := by
  cases hi with
  | past d => exact fun h => by cases h
  | on h =>
    obtain ⟨d, ho, -⟩ := h
    rintro - ⟨⟩
    exact hc ho

theorem at_of_place (hK : E.Tracking) {k : Bytes} (ho : E.opened t c)
    (hp : E.place t c = .on k) (hk : (E.content t).ceil k ≠ none) :
    ∃ r, (⟨E.eof t c, some c⟩ : ConstCursor E).At t r := by
  obtain ⟨e, he⟩ := Option.ne_none_iff_exists'.mp hk
  have hcur : E.current t c = some e := (hK.current_on _ _ _ hp).trans he
  rw [hK.eof_current _ _ _ hcur]
  exact ⟨some e, .on (.intro c ho hcur)⟩

/-- What a move does to its own cursor: nothing at the end, and else it stays a cursor that
is at the end or on an entry, with the same native cursor. -/
def KeepsAt (move : E.Txn → ConstCursor E → E.Txn × ConstCursor E × Option Exn) : Prop :=
  ∀ t i r, i.At t r →
    ((move t i).1 = t ∧ (move t i).2.1 = i) ∨
    ∃ c, i.m_end = false ∧ i.m_cursor = some c ∧ (move t i).2.1.m_cursor = some c ∧
      E.Moves c t (move t i).1 ∧ ∃ r', (move t i).2.1.At (move t i).1 r'

theorem keepsAt_next (hE : E.Documented) (hK : E.Tracking) :
    KeepsAt (E := E) (fun t i => i.next S t) := by
  intro t i r hi
  cases hi with
  | past d => exact .inl ⟨rfl, rfl⟩
  | on h =>
    obtain ⟨c, ho, he⟩ := h
    obtain ⟨k, hp⟩ := hK.current_place _ _ _ he
    obtain ⟨u, hnext, hm, hahead⟩ := next_from (S := S) hE ho hp
    refine .inr ⟨c, rfl, rfl, ?_⟩
    dsimp only
    rw [hnext]
    exact ⟨rfl, hm, _, at_of_ahead hE hahead⟩

theorem keepsAt_prev (hE : E.Documented) (hK : E.Tracking) :
    KeepsAt (E := E) (fun t i => i.prev S t) := by
  intro t i r hi
  cases hi with
  | past d => exact .inl ⟨rfl, rfl⟩
  | @on _ e h =>
    obtain ⟨c, ho, he⟩ := h
    obtain ⟨k, hp⟩ := hK.current_place _ _ _ he
    have hc : (E.content t).ceil k = some e := (hK.current_on _ _ _ hp).symm.trans he
    refine .inr ⟨c, rfl, rfl, ?_⟩
    dsimp only
    cases hb : (E.content t).below k with
    | none =>
      obtain ⟨u, hprev, hm, hplace⟩ := prev_from_first (S := S) hE hK hp hc hb
      rw [hprev]
      refine ⟨rfl, hm, some e, .on (.intro c (hm.opened c ho) ?_)⟩
      rw [hK.current_on _ _ _ hplace, hm.content, hc]
    | some f =>
      obtain ⟨u, hprev, hm, hplace⟩ := prev_from_below (S := S) hE hp hb
      rw [hprev]
      refine ⟨rfl, hm, some f, .on (on_of_place hE (hm.opened c ho) hplace ?_)⟩
      rw [hm.content, SortedMap.lookup_of_below hb]

end ConstCursor

/-! ## Operations through a new native cursor -/

namespace Table
open ConstCursor

variable {E : Mdbx} {Value : Type} {S : Schema Value}

/-- An operation that went from `t` to `u` and returned `i`: it kept all keys and used at most
a native cursor that it opened itself. -/
inductive Returned (t u : E.Txn) (i : ConstCursor E) : Prop where
  | unopened (ht : u = t) (hi : i.m_end = true)
  | opened (c : E.Cursor) (hc : ¬ E.opened t c) (hf : E.Frame c t u)
      (hkeys : ∀ k, ((E.content t).lookup k).isSome → ((E.content u).lookup k).isSome)
      (hi : i.m_cursor = some c) (hat : ∃ r, i.At u r)

/-- A search that succeeds is on an entry. -/
structure Seeks (seek : E.Txn → E.Cursor → E.Txn × Bool) : Prop where
  moves : ∀ t c, E.Moves c t (seek t c).1
  found : ∀ t c, (seek t c).2 = true → ∃ e : Bytes × Bytes,
    E.place (seek t c).1 c = .on e.1 ∧ (E.content t).lookup e.1 = some e.2

theorem seeks_toFirst (hE : E.Documented) : Seeks E.toFirst where
  moves := hE.toFirst_moves
  found t c h := by
    rw [hE.toFirst_result] at h
    obtain ⟨e, he⟩ := Option.isSome_iff_exists.mp h
    exact ⟨e, hE.toFirst_place t c e he, SortedMap.lookup_of_first he⟩

theorem seeks_find (hE : E.Documented) (k : Bytes) : Seeks (fun t c => E.find t c k) where
  moves t c := hE.find_moves t c k
  found t c h := by
    rw [hE.find_result] at h
    obtain ⟨v, hv⟩ := Option.isSome_iff_exists.mp h
    exact ⟨(k, v), hE.find_place t c k v hv, hv⟩

theorem seeks_lowerBound (hE : E.Documented) (k : Bytes) :
    Seeks (fun t c => E.lowerBound t c k) where
  moves t c := hE.lowerBound_moves t c k
  found t c h := by
    rw [hE.lowerBound_result] at h
    obtain ⟨e, he⟩ := Option.isSome_iff_exists.mp h
    exact ⟨e, hE.lowerBound_place t c k e he, SortedMap.lookup_of_ceil he⟩

theorem returned_search (hE : E.Documented) (hK : E.Tracking)
    {seek : E.Txn → E.Cursor → E.Txn × Bool} (hseek : Seeks seek) {w w' : Reader E}
    {i : ConstCursor E} (h : search seek w = .ok (w', i)) : Returned w.m_txn w'.m_txn i := by
  obtain ⟨t, c, ht, rfl, rfl⟩ := search_eq_ok.mp h
  obtain ⟨hopen, hnew, ho, -⟩ := hE.openCursor_ok _ _ _ ht
  have hm := hseek.moves t c
  refine .opened c hnew (hopen.toFrame.trans hm.toFrame) (fun k hk => ?_) rfl ?_
  · rwa [hm.content, hopen.content]
  · cases hres : (seek t c).2 with
    | false => exact ⟨none, .past _⟩
    | true =>
      obtain ⟨e, hp, he⟩ := hseek.found t c hres
      rw [← hm.content] at he
      refine at_of_place hK (hm.opened c ho) hp ?_
      simp [SortedMap.ceil_of_lookup he]

/-- A put that succeeds is on the new entry, and one that throws changes nothing. -/
structure Puts (put : E.Txn → E.Cursor → Bytes → Bytes → E.Txn × Option String) : Prop where
  ok : ∀ t c k v, (put t c k v).2 = none → E.Frame c t (put t c k v).1 ∧
    E.content (put t c k v).1 = (E.content t).insert k v ∧ E.place (put t c k v).1 c = .on k
  throws : ∀ t c k v w, (put t c k v).2 = some w → E.Moves c t (put t c k v).1

theorem puts_insert (hE : E.Documented) : Puts E.insert where
  ok t c k v h :=
    let ⟨hf, _, hcontent, hp⟩ := hE.insert_ok t c k v h
    ⟨hf, hcontent, hp⟩
  throws := hE.insert_throws

theorem puts_upsert (hE : E.Documented) : Puts E.upsert where
  ok := hE.upsert_ok
  throws := hE.upsert_throws

theorem puts_update (hE : E.Documented) : Puts E.update where
  ok t c k v h :=
    let ⟨hf, _, hcontent, hp⟩ := hE.update_ok t c k v h
    ⟨hf, hcontent, hp⟩
  throws := hE.update_throws

theorem returned_putWith (hE : E.Documented) (hK : E.Tracking)
    {put : E.Txn → E.Cursor → Bytes → Bytes → E.Txn × Option String} (hput : Puts put)
    {w w' : Reader E} {k v : Bytes} {i : ConstCursor E} (h : putWith put w k v = .ok (w', i)) :
    Returned w.m_txn w'.m_txn i := by
  unfold putWith putBlock at h
  cases ht : E.openCursor w.m_txn with
  | error what =>
    simp only [ht] at h
    cases h
    exact .unopened rfl rfl
  | ok p =>
    obtain ⟨t, c⟩ := p
    obtain ⟨hopen, hnew, ho, -⟩ := hE.openCursor_ok _ _ _ ht
    simp only [ht] at h
    cases hp : (put t c k v).2 with
    | none =>
      simp only [hp, make_some] at h
      cases h
      obtain ⟨hf, hcontent, hplace⟩ := hput.ok t c k v hp
      refine .opened c hnew (hopen.toFrame.trans hf) (fun j hj => ?_) rfl ?_
      · rw [hcontent, SortedMap.lookup_insert, hopen.content]
        split_ifs
        · rfl
        · exact hj
      · refine at_of_place hK (hf.opened c ho) hplace ?_
        rw [hcontent]
        exact SortedMap.ceil_ne_none_of_mem (SortedMap.mem_insert.mpr (.inl rfl)) le_rfl
    | some what =>
      simp only [hp, make_some] at h
      cases h
      have hm := hput.throws t c k v what hp
      refine .opened c hnew (hopen.toFrame.trans hm.toFrame) (fun j hj => ?_) rfl
        ⟨none, .past _⟩
      show ((E.content (put t c k v).1).lookup j).isSome
      rwa [hm.content, hopen.content]

/-- `erase(writer, key)` uses a native cursor of its own, whether it finds the key or not. -/
theorem eraseKey_frame (hE : E.Documented) {w w' : Reader E} {k : Bytes}
    (h : eraseKey w k = .ok w') :
    ∃ c, ¬ E.opened w.m_txn c ∧ E.Frame c w.m_txn w'.m_txn ∧
      E.content w'.m_txn = (E.content w.m_txn).erase k := by
  have hcontent : E.content w'.m_txn = (E.content w.m_txn).erase k := by
    rw [(performs_eraseKey hE h).content]
    cases hk : (E.content w.m_txn).lookup k with
    | none => simp [Event.apply, SortedMap.erase_of_lookup_eq_none hk]
    | some v => simp [Event.apply]
  obtain ⟨⟨u, c⟩, hu, h⟩ := bind_eq_ok.mp h
  obtain ⟨t, ht, rfl⟩ := openCursor_eq_ok.mp hu
  obtain ⟨hopen, hnew, -, -⟩ := hE.openCursor_ok _ _ _ ht
  have hm := hE.find_moves t c k
  have hlook := hopen.toFrame.trans hm.toFrame
  refine ⟨c, hnew, ?_, hcontent⟩
  dsimp only at h
  split_ifs at h
  · obtain ⟨i, hi, h⟩ := bind_eq_ok.mp h
    simp only [make_some] at hi
    cases hi
    unfold eraseCursor at h
    split_ifs at h
    · cases h
      exact hlook
    · obtain ⟨⟨v, b⟩, hv, h⟩ := bind_eq_ok.mp h
      rw [noexcept_eq_ok] at hv
      cases h
      cases hcur : E.current (E.find t c k).1 c with
      | none => exact hlook.trans (hE.erase_nothing _ _ _ _ hv hcur).toFrame
      | some e => exact hlook.trans (hE.erase_current _ _ _ _ _ _ hv hcur).1
  · cases h
    exact hlook

end Table

/-! ## The invariant of a scope -/

namespace ConstCursor

variable {E : Mdbx}

/-- Two cursors that are not at the end have native cursors of their own. -/
def Apart (i j : ConstCursor E) : Prop :=
  ∀ c, j.m_end = false → j.m_cursor = some c → i.Spared c

theorem Apart.symm {i j : ConstCursor E} (h : i.Apart j) : j.Apart i :=
  fun c hi hc hj hd => h c hj hd hi hc

end ConstCursor

namespace Session
open ConstCursor

variable {E : Mdbx} {Value : Type} {S : Schema Value} {fuel : Nat} {s : Session E}

/-- Each cursor is at the end or on an entry, and those on entries do not share natives. -/
structure Shown (s : Session E) : Prop where
  shows : ∀ i ∈ s.cursors, ∃ r, i.At s.writer.m_txn r
  apart : ∀ (m n : Nat) (i j : ConstCursor E), m ≠ n → s.cursors[m]? = some i →
    s.cursors[n]? = some j → i.Apart j

theorem shown_nil (w : Reader E) : (Session.mk w []).Shown where
  shows i h := by simp at h
  apart m n i j _ h := by simp at h

/-- Adding a cursor to the list of the scope. -/
theorem Shown.concat (hs : s.Shown) {i : ConstCursor E} {r : Option (Bytes × Bytes)}
    (hi : i.At s.writer.m_txn r) (hnew : ∀ j ∈ s.cursors, j.Apart i) :
    (⟨s.writer, s.cursors ++ [i]⟩ : Session E).Shown where
  shows j hj := by
    rcases List.mem_append.mp hj with hmem | hmem
    · exact hs.shows j hmem
    · rw [List.mem_singleton.mp hmem]
      exact ⟨r, hi⟩
  apart m n j k hmn hj hk := by
    have hold : ∀ (m : Nat) (j : ConstCursor E), (s.cursors ++ [i])[m]? = some j →
        s.cursors[m]? = some j ∨ m = s.cursors.length ∧ j = i := by
      grind
    rcases hold m j hj with hj' | ⟨rfl, rfl⟩
    · rcases hold n k hk with hk' | ⟨rfl, rfl⟩
      · exact hs.apart m n j k hmn hj' hk'
      · exact hnew j (List.mem_of_getElem? hj')
    · rcases hold n k hk with hk' | ⟨rfl, rfl⟩
      · exact (hnew k (List.mem_of_getElem? hk')).symm
      · exact absurd rfl hmn

/-- An operation on the side keeps the cursors of the scope, unless it takes away the last
entry that one of them could stand on. -/
theorem Shown.beside (hK : E.Tracking) (hs : s.Shown) {w : Reader E} {c : E.Cursor}
    (hf : E.Frame c s.writer.m_txn w.m_txn) (hc : ∀ i ∈ s.cursors, i.Spared c)
    (hstays : ∀ i ∈ s.cursors, ∀ e k, i.On s.writer.m_txn e →
      (E.content s.writer.m_txn).ceil k = some e → (E.content w.m_txn).ceil k ≠ none) :
    ({ s with writer := w } : Session E).Shown where
  shows i hi := by
    obtain ⟨r, hr⟩ := hs.shows i hi
    refine at_of_frame hK hr hf (hc i hi) fun e k he hk => ?_
    subst he
    cases hr with
    | on hon => exact hstays i hi e k hon hk
  apart := hs.apart

theorem Shown.spared (hs : s.Shown) {c : E.Cursor} (hc : ¬ E.opened s.writer.m_txn c) :
    ∀ i ∈ s.cursors, i.Spared c := by
  intro i hi
  obtain ⟨r, hr⟩ := hs.shows i hi
  exact spared_of_not_opened hr hc

theorem Shown.returned (hK : E.Tracking) (hs : s.Shown) {w : Reader E}
    {i : ConstCursor E} (h : Table.Returned s.writer.m_txn w.m_txn i) :
    (⟨w, s.cursors ++ [i]⟩ : Session E).Shown := by
  cases h with
  | unopened ht hi =>
    have hside : ({ s with writer := w } : Session E).Shown :=
      ⟨fun j hj => by rw [ht]; exact hs.shows j hj, hs.apart⟩
    obtain ⟨m_end, m_cursor⟩ := i
    obtain rfl : m_end = true := hi
    exact hside.concat (.past _) fun j _ c h => by cases h
  | opened c hc hf hkeys hi hat =>
    obtain ⟨r, hr⟩ := hat
    have hspared := hs.spared hc
    refine (hs.beside hK hf hspared fun j _ e k he hk => ?_).concat hr fun j hj d _ hd => ?_
    · obtain ⟨v, hv⟩ := Option.isSome_iff_exists.mp
        (hkeys e.1 (by simp [SortedMap.lookup_of_ceil hk]))
      exact SortedMap.ceil_ne_none_of_mem (SortedMap.lookup_eq_some.mp hv)
        (SortedMap.ceil_eq_some.mp hk).2.1
    · rw [hi] at hd
      cases hd
      exact hspared j hj

/-- Replacing a cursor by one with the same native cursor. -/
theorem Shown.set (hs : s.Shown) {n : Nat} {i j : ConstCursor E} {w : Reader E}
    {c : E.Cursor} (hi : s.cursors[n]? = some i) (hend : i.m_end = false)
    (hc : i.m_cursor = some c) (hj : j.m_cursor = some c) (hat : ∃ r, j.At w.m_txn r)
    (hothers : ∀ m k, m ≠ n → s.cursors[m]? = some k → k.Spared c → ∃ r, k.At w.m_txn r) :
    (⟨w, s.cursors.set n j⟩ : Session E).Shown where
  shows k hk := by
    obtain ⟨m, hm⟩ := List.getElem?_of_mem hk
    rw [List.getElem?_set] at hm
    split_ifs at hm with hmn
    · cases hm
      exact hat
    · exact hothers m k (Ne.symm hmn) hm (hs.apart m n k i (Ne.symm hmn) hm hi c hend hc)
  apart m m' k k' hne hk hk' := by
    have hnew : ∀ (m : Nat) (k : ConstCursor E), m ≠ n → s.cursors[m]? = some k → k.Apart j := by
      intro m k hmn hk d _ hd
      rw [hj] at hd
      cases hd
      exact hs.apart m n k i hmn hk hi c hend hc
    rw [List.getElem?_set] at hk hk'
    split_ifs at hk hk' with hm hm' hm'
    · exact absurd (hm.symm.trans hm') hne
    · cases hk
      exact (hnew m' k' (Ne.symm hm') hk').symm
    · cases hk'
      exact hnew m k (Ne.symm hm) hk
    · exact hs.apart m m' k k' hne hk hk'

theorem cursor_eq_ok {n : Nat} {i : ConstCursor E} :
    s.cursor n = .ok i ↔ s.cursors[n]? = some i := by
  unfold Session.cursor
  cases s.cursors[n]? <;> simp

theorem set_cursor {n : Nat} {i : ConstCursor E} (h : s.cursors[n]? = some i) :
    s.cursors.set n i = s.cursors := by
  obtain ⟨hlt, rfl⟩ := List.getElem?_eq_some_iff.mp h
  exact List.set_getElem_self hlt

theorem shown_moving (hK : E.Tracking) (hs : s.Shown) {n : Nat}
    {move : E.Txn → ConstCursor E → E.Txn × ConstCursor E × Option Exn} (hmove : KeepsAt move)
    {c : Called E} (h : s.moving n move = .ok c) : c.session.Shown := by
  obtain ⟨i, hi, h⟩ := bind_eq_ok.mp h
  cases h
  have hn := cursor_eq_ok.mp hi
  obtain ⟨r, hr⟩ := hs.shows i (List.mem_of_getElem? hn)
  rcases hmove s.writer.m_txn i r hr with ⟨ht, hj⟩ | ⟨d, hend, hd, hj, hm, hat⟩
  · simp only [ht, hj, set_cursor hn]
    exact hs
  · refine hs.set hn hend hd hj hat fun m k hmn hk hspared => ?_
    obtain ⟨r', hr'⟩ := hs.shows k (List.mem_of_getElem? hk)
    refine at_of_frame hK hr' hm.toFrame hspared fun e k _ hk => ?_
    rw [hm.content, hk]
    simp

/-- Erasing an entry leaves something at or after the place of each cursor: for those on that
entry the next greater one. -/
theorem ceil_erase_ne_none {m : Content} {j k : Bytes} {e : Bytes × Bytes}
    (hj : m.ceil j = some e) (hlast : e.1 = k → m.above k ≠ none) : (m.erase k).ceil j ≠ none := by
  by_cases he : e.1 = k
  · obtain ⟨f, hf⟩ := Option.ne_none_iff_exists'.mp (hlast he)
    obtain ⟨hmem, hlt⟩ : f ∈ m.entries ∧ k < f.1 := by
      simpa using And.intro (List.mem_of_find?_eq_some hf) (List.find?_some hf)
    have hje := (SortedMap.ceil_eq_some.mp hj).2.1
    exact SortedMap.ceil_ne_none_of_mem (SortedMap.mem_erase.mpr ⟨hmem, hlt.ne'⟩)
      (hje.trans (he.trans_le hlt.le))
  · simp [SortedMap.ceil_erase_of_ne hj he]

variable (S) in
/-- The condition under which the end flags stay right: an erase takes the greatest entry away
only when no cursor stands on it, and a table is cleared only when all cursors are at the
end. -/
def Spares (s : Session E) : Op Value → Prop
  | .eraseKey k => ∀ i ∈ s.cursors, i.key S s.writer.m_txn = .ok k →
      (E.content s.writer.m_txn).above k ≠ none
  | .eraseCursor n => ∀ i, s.cursors[n]? = some i → ∀ k, i.key S s.writer.m_txn = .ok k →
      (E.content s.writer.m_txn).above k ≠ none
  | .clear => ∀ i ∈ s.cursors, i.m_end = true
  | _ => True

theorem key_of_on {t : E.Txn} {e : Bytes × Bytes} {i : ConstCursor E} (h : i.On t e) :
    i.key S t = .ok e.1 := by
  simp [key, item_of_on (S := S) h, Except.map]

theorem shown_eraseKey (hE : E.Documented) (hK : E.Tracking) (hs : s.Shown) {k : Bytes}
    (hspares : s.Spares S (.eraseKey k)) {w : Reader E}
    (h : Table.eraseKey s.writer k = .ok w) : ({ s with writer := w } : Session E).Shown := by
  obtain ⟨c, hc, hf, hcontent⟩ := Table.eraseKey_frame hE h
  refine hs.beside hK hf (hs.spared hc) fun i hi e j he hj => ?_
  rw [hcontent]
  refine ceil_erase_ne_none hj fun hek => hspares i hi ?_
  rw [key_of_on he, hek]

theorem shown_eraseCursor (hE : E.Documented) (hK : E.Tracking) (hs : s.Shown) {n : Nat}
    (hspares : s.Spares S (.eraseCursor n)) {i : ConstCursor E} {w : Reader E}
    (hi : s.cursors[n]? = some i) (h : Table.eraseCursor s.writer i = .ok w) :
    ({ s with writer := w } : Session E).Shown := by
  obtain ⟨r, hr⟩ := hs.shows i (List.mem_of_getElem? hi)
  cases hr with
  | past d =>
    cases h
    exact hs
  | @on _ e hon =>
    have hlast := hspares i hi e.1 (key_of_on hon)
    obtain ⟨c, ho, he⟩ := hon
    obtain ⟨⟨u, b⟩, hu, h⟩ := bind_eq_ok.mp h
    rw [noexcept_eq_ok] at hu
    cases h
    obtain ⟨hf, hcontent, hplace⟩ := hE.erase_current _ _ _ _ _ _ hu he
    have hmem := mem_of_on hE (.intro c ho he)
    have hceil : (E.content u).ceil e.1 ≠ none := by
      rw [hcontent]
      exact ceil_erase_ne_none (SortedMap.ceil_of_lookup (SortedMap.lookup_eq_some.mpr hmem))
        fun _ => hlast
    obtain ⟨g, hg⟩ := Option.ne_none_iff_exists'.mp hceil
    have hset := hs.set (w := { s.writer with m_txn := u }) (j := ⟨false, some c⟩) hi rfl rfl rfl
      ⟨some g, .on (.intro c (hf.opened c ho) ((hK.current_on _ _ _ hplace).trans hg))⟩
      fun m k _ hk hspared => by
        obtain ⟨r, hr⟩ := hs.shows k (List.mem_of_getElem? hk)
        refine at_of_frame hK hr hf hspared fun f j _ hj => ?_
        rw [hcontent]
        exact ceil_erase_ne_none hj fun _ => hlast
    rwa [set_cursor hi] at hset

theorem shown_clear (hs : s.Shown) (hspares : s.Spares S .clear) (w : Reader E) :
    ({ s with writer := w } : Session E).Shown where
  shows i hi := by
    have hend := hspares i hi
    obtain ⟨m_end, m_cursor⟩ := i
    obtain rfl : m_end = true := hend
    exact ⟨none, .past _⟩
  apart := hs.apart

theorem shown_returning (hK : E.Tracking) (hs : s.Shown)
    {x : Except Halt (Reader E × ConstCursor E)} {event : Event} {c : Called E}
    (hx : ∀ w i, x = .ok (w, i) → Table.Returned s.writer.m_txn w.m_txn i)
    (h : s.returning x event = .ok c) : c.session.Shown := by
  obtain ⟨⟨w, i⟩, hw, h⟩ := bind_eq_ok.mp h
  cases h
  exact hs.returned hK (hx w i hw)

theorem shown_reading {α : Type} (hs : s.Shown) {n : Nat}
    {read : E.Txn → ConstCursor E → Except Exn α} {c : Called E}
    (h : s.reading n read = .ok c) : c.session.Shown := by
  obtain ⟨i, -, h⟩ := bind_eq_ok.mp h
  split at h <;> cases h <;> exact hs

end Session

/-- The two operations on ranges; `find` also takes the native cursor out of its argument. -/
def Op.isRange {Value : Type} : Op Value → Bool
  | .find .. | .eraseRange .. => true
  | _ => false

namespace Session
open ConstCursor

variable {E : Mdbx} {Value : Type} {S : Schema Value} {fuel : Nat} {s : Session E}

variable (S fuel) in
/-- A call as a step of the scope; exceptions of cursor operations are caught in the scope. -/
def step (s : Session E) (op : Op Value) : Option (Session E) :=
  match s.call S fuel op with
  | .ok c => some c.session
  | .error _ => none

theorem step_eq_some {op : Op Value} {t : Session E} :
    s.step S fuel op = some t ↔ ∃ c, s.call S fuel op = .ok c ∧ c.session = t := by
  unfold step
  split <;> simp_all

/-- Every operation that meets the condition keeps the invariant. -/
theorem shown_step (hE : E.Documented) (hK : E.Tracking) {op : Op Value} {t : Session E}
    (hs : s.Shown) (hspares : s.Spares S op) (hop : op.isRange = false)
    (hstep : s.step S fuel op = some t) : t.Shown := by
  obtain ⟨c, h, rfl⟩ := step_eq_some.mp hstep
  cases op with
  | begin =>
    exact shown_returning hK hs (fun _ _ => Table.returned_search hE hK (Table.seeks_toFirst hE)) h
  | get k =>
    exact shown_returning hK hs (fun _ _ => Table.returned_search hE hK (Table.seeks_find hE k)) h
  | lowerBound k =>
    exact shown_returning hK hs
      (fun _ _ => Table.returned_search hE hK (Table.seeks_lowerBound hE k)) h
  | insert | insertValue =>
    exact shown_returning hK hs
      (fun _ _ => Table.returned_putWith hE hK (Table.puts_insert hE)) h
  | upsert | upsertValue =>
    exact shown_returning hK hs
      (fun _ _ => Table.returned_putWith hE hK (Table.puts_upsert hE)) h
  | update | updateValue =>
    exact shown_returning hK hs
      (fun _ _ => Table.returned_putWith hE hK (Table.puts_update hE)) h
  | eraseKey k =>
    obtain ⟨w, hw, h⟩ := bind_eq_ok.mp h
    cases h
    exact shown_eraseKey hE hK hs hspares hw
  | eraseCursor n =>
    obtain ⟨i, hi, h⟩ := bind_eq_ok.mp h
    obtain ⟨w, hw, h⟩ := bind_eq_ok.mp h
    cases h
    exact shown_eraseCursor hE hK hs hspares (cursor_eq_ok.mp hi) hw
  | clear =>
    obtain ⟨w, hw, h⟩ := bind_eq_ok.mp h
    cases h
    exact shown_clear hs hspares w
  | empty =>
    obtain ⟨⟨w, b⟩, hw, h⟩ := bind_eq_ok.mp h
    cases h
    obtain ⟨⟨u, i⟩, hu, hw⟩ := bind_eq_ok.mp hw
    cases hw
    have hreturned := Table.returned_search hE hK (Table.seeks_toFirst hE) hu
    have hshown := hs.returned hK hreturned
    exact ⟨fun j hj => hshown.shows j (List.mem_append_left _ hj), hs.apart⟩
  | shift result =>
    cases h
    exact ⟨hs.shows, hs.apart⟩
  | key | rawValue | value => exact shown_reading hs h
  | next n => exact shown_moving hK hs (keepsAt_next hE hK) h
  | prev n => exact shown_moving hK hs (keepsAt_prev hE hK) h
  | find | eraseRange => cases hop

end Session

/-- The end flag tells the truth. In every run of a writer's scope in which no erase takes the
greatest entry away from a cursor, a cursor is unequal to `EndCursor` exactly when `key` and
`rawValue` return an entry of the table. -/
theorem end_flag_truthful {E : Mdbx} {Value : Type} (S : Schema Value) (fuel : Nat)
    (hE : E.Documented) (hK : E.Tracking) (w : Reader E) {ops : List (Op Value)}
    {s : Session E} (hops : ∀ op ∈ ops, op.isRange = false)
    (hspares : Along (Session.step S fuel) (Session.Spares S) ⟨w, []⟩ ops)
    (h : exec (Session.step S fuel) ⟨w, []⟩ ops = some s) :
    ∀ i ∈ s.cursors, i.equal S s.writer.m_txn .marker = .ok false ↔
      ∃ k v, i.key S s.writer.m_txn = .ok k ∧ i.rawValue S s.writer.m_txn = .ok v ∧
        (E.content s.writer.m_txn).lookup k = some v := by
  have hshown : s.Shown := by
    have hsingle : Along (Session.step S fuel) (fun _ (op : Op Value) => op.isRange = false)
        (⟨w, []⟩ : Session E) ops := along_of_mem (fun op hop _ => hops op hop) _
    exact exec_invariant (fun s op t hs hP => Session.shown_step hE hK hs hP.1 hP.2)
      (Session.shown_nil w) (hspares.and hsingle) h
  intro i hi
  obtain ⟨r, hr⟩ := hshown.shows i hi
  cases hr with
  | past c => simp [ConstCursor.equal, ConstCursor.key, ConstCursor.item, Except.map]
  | @on _ e hon =>
    have hitem := ConstCursor.item_of_on (S := S) hon
    have hlookup := SortedMap.lookup_eq_some.mpr (ConstCursor.mem_of_on hE hon)
    have hend : i.equal S s.writer.m_txn .marker = .ok false := by
      cases hon
      rfl
    refine iff_of_true hend ⟨e.1, e.2, ?_, ?_, hlookup⟩
    · simp [ConstCursor.key, hitem, Except.map]
    · simp [ConstCursor.rawValue, hitem, Except.map]

/-- Two cursors on a table with two entries; the first entry is erased under its cursor, which
is tracked to the second. -/
def trackedRun : List (Op Bytes) := [.begin, .lowerBound [2], .eraseCursor 0, .prev 1]

theorem end_flag_truthful_tracked :
    ∃ s, exec (Session.step rawSchema 3) ⟨twoEntryWriter, []⟩ trackedRun = some s ∧
      s.cursors.map (fun i => (i.key rawSchema s.writer.m_txn).toOption) = [some [2], some [2]] ∧
      ∀ i ∈ s.cursors, i.equal rawSchema s.writer.m_txn .marker = .ok false ↔
        ∃ k v, i.key rawSchema s.writer.m_txn = .ok k ∧
          i.rawValue rawSchema s.writer.m_txn = .ok v ∧
          s.writer.m_txn.content.lookup k = some v := by
  obtain ⟨s, h, hkeys⟩ : ∃ s,
      exec (Session.step rawSchema 3) ⟨twoEntryWriter, []⟩ trackedRun = some s ∧
      s.cursors.map (fun i => (i.key rawSchema s.writer.m_txn).toOption) =
        [some [2], some [2]] := ⟨_, rfl, rfl⟩
  refine ⟨s, h, hkeys, end_flag_truthful rawSchema 3 Reference.documented Reference.tracking
    twoEntryWriter (by decide) ?_ h⟩
  refine ⟨trivial, fun t ht => ⟨trivial, fun u hu => ⟨?_, fun v hv =>
    ⟨trivial, fun _ _ => trivial⟩⟩⟩⟩
  cases ht
  cases hu
  rintro i ⟨⟩ k ⟨⟩
  decide

/-- A cursor on the only entry, which is then erased through it: the cursor is not equal to
`EndCursor`, and it cannot be read. -/
theorem end_flag_stale_after_erase :
    ∃ s, exec (Session.step rawSchema 3) ⟨oneEntryWriter, []⟩ [.begin, .eraseCursor 0] = some s ∧
      ∃ i ∈ s.cursors, i.equal rawSchema s.writer.m_txn .marker = .ok false ∧
        i.key rawSchema s.writer.m_txn = .error rawSchema.badCurrent :=
  ⟨_, rfl, _, List.mem_singleton.mpr rfl, rfl, rfl⟩

end Zatestil.Database
