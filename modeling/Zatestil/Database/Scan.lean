import Zatestil.Database.MapRefinement

/-!
# Walking over a table

`Ahead` gives a cursor the list of entries it still has to visit: a step of `operator++` takes
the head off. From this a whole walk is an induction on the list, for any content. Backwards
there is no end to reach: `operator--` throws on the first entry and stays on it.

A cursor whose entry was erased is tracked to the next one. It reads that entry but its place
is still the old key, so the steps are described by places and not by what a cursor reads.
-/
namespace Zatestil.Database
open Library Util

namespace ConstCursor

variable {E : Mdbx} {Value : Type} (S : Schema Value)

/-- The cursor stands on the entry `e`: this is what `key` and `rawValue` return. -/
inductive On (t : E.Txn) (e : Bytes × Bytes) : ConstCursor E → Prop where
  | intro (c : E.Cursor) (ho : E.opened t c) (he : E.current t c = some e) :
      On t e ⟨false, some c⟩

/-- The entries that the cursor still has to visit, its own first. -/
inductive Ahead (t : E.Txn) : ConstCursor E → List (Bytes × Bytes) → Prop where
  | done (c : Option E.Cursor) : Ahead t ⟨true, c⟩ []
  | on (c : E.Cursor) (e : Bytes × Bytes) (ho : E.opened t c) (hp : E.place t c = .on e.1)
      (he : (E.content t).lookup e.1 = some e.2) :
      Ahead t ⟨false, some c⟩ (e :: (E.content t).after e.1)

variable {S} {t : E.Txn} {c : E.Cursor} {e : Bytes × Bytes}

theorem item_of_on {i : ConstCursor E} (h : i.On t e) : i.item S t = .ok e := by
  cases h with
  | intro c ho he => exact item_of_current S he

theorem on_of_item {i : ConstCursor E} (hi : ∀ c, i.m_cursor = some c → E.opened t c)
    (h : i.item S t = .ok e) : i.On t e := by
  obtain ⟨m_end, m_cursor⟩ := i
  cases m_end with
  | true => cases h
  | false =>
    cases m_cursor with
    | none => cases h
    | some c =>
      cases hc : E.current t c with
      | none => simp [item, hc] at h
      | some f =>
        simp only [item, hc, Bool.false_eq_true, if_false, Except.ok.injEq] at h
        exact .intro c (hi c rfl) (h ▸ hc)

theorem on_unique {i : ConstCursor E} {f : Bytes × Bytes} (he : i.On t e) (hf : i.On t f) :
    e = f := by
  cases he with
  | intro c ho he =>
    cases hf with
    | intro _ _ hf => exact Option.some.inj (he.symm.trans hf)

theorem mem_of_on (hE : E.Documented) {i : ConstCursor E} (h : i.On t e) :
    e ∈ (E.content t).entries := by
  cases h with
  | intro c ho he => exact SortedMap.lookup_eq_some.mp (hE.current_mem t c e.1 e.2 he)

theorem on_of_place (hE : E.Documented) (ho : E.opened t c) (hp : E.place t c = .on e.1)
    (he : (E.content t).lookup e.1 = some e.2) : (⟨false, some c⟩ : ConstCursor E).On t e :=
  .intro c ho (hE.current_on t c e.1 e.2 hp he)

/-! ## One step -/

/-- `operator++` from a place, whether or not there is an entry, never throws. -/
theorem next_from (hE : E.Documented) {k : Bytes} (ho : E.opened t c)
    (hp : E.place t c = .on k) :
    ∃ u, next S t ⟨false, some c⟩ = (u, ⟨E.eof u c, some c⟩, none) ∧ E.Moves c t u ∧
      Ahead u ⟨E.eof u c, some c⟩ ((E.content t).after k) := by
  have hm := hE.toNext_moves t c
  refine ⟨(E.toNext t c).1, ?_⟩
  cases ha : (E.content t).above k with
  | none =>
    obtain ⟨hres, hpast⟩ := hE.toNext_last t c k hp ha
    have heof := hE.eof_past _ _ hpast
    have hafter : (E.content t).after k = [] := by
      rwa [SortedMap.above_eq_head, List.head?_eq_none_iff] at ha
    refine ⟨by simp [next, move, hres, heof], hm, ?_⟩
    rw [hafter, heof]
    exact .done _
  | some f =>
    obtain ⟨hres, hon⟩ := hE.toNext_above t c k f hp ha
    have hf : (E.content (E.toNext t c).1).lookup f.1 = some f.2 := by
      rw [hm.content, SortedMap.lookup_of_above ha]
    have heof := hE.eof_on _ _ _ _ hon hf
    refine ⟨by simp [next, move, hres, heof], hm, ?_⟩
    rw [SortedMap.after_of_above ha, heof, ← hm.content]
    exact .on c f (hm.opened c ho) hon hf

/-- A step takes the head off what is ahead. -/
theorem next_ahead (hE : E.Documented) {i : ConstCursor E} {l : List (Bytes × Bytes)}
    (h : i.Ahead t (e :: l)) :
    ∃ c u, i = ⟨false, some c⟩ ∧ i.On t e ∧
      next S t i = (u, ⟨E.eof u c, some c⟩, none) ∧ E.Moves c t u ∧
      Ahead u ⟨E.eof u c, some c⟩ l := by
  cases h with
  | on c e ho hp he =>
    obtain ⟨u, hnext, hm, hahead⟩ := next_from (S := S) hE ho hp
    exact ⟨c, u, rfl, on_of_place hE ho hp he, hnext, hm, hahead⟩

/-- `operator--` goes to the entry before the place. -/
theorem prev_from_below (hE : E.Documented) {k : Bytes} (hp : E.place t c = .on k)
    {f : Bytes × Bytes} (hf : (E.content t).below k = some f) :
    ∃ u, prev S t ⟨false, some c⟩ = (u, ⟨false, some c⟩, none) ∧ E.Moves c t u ∧
      E.place u c = .on f.1 := by
  have hm := hE.toPrevious_moves t c
  obtain ⟨hres, hon⟩ := hE.toPrevious_below t c k f hp hf
  have heof := hE.eof_on _ _ _ _ hon (by rw [hm.content, SortedMap.lookup_of_below hf])
  exact ⟨(E.toPrevious t c).1, by simp [prev, move, hres, heof], hm, hon⟩

/-- With nothing before the place `operator--` throws. The cursor stays where it is, and as it
still reads an entry it is not at the end. -/
theorem prev_from_first (hE : E.Documented) (hK : E.Tracking) {k : Bytes}
    (hp : E.place t c = .on k) (hc : (E.content t).ceil k = some e)
    (hf : (E.content t).below k = none) :
    ∃ u, prev S t ⟨false, some c⟩ = (u, ⟨false, some c⟩, some S.badPrev) ∧ E.Moves c t u ∧
      E.place u c = .on k := by
  have hm := hE.toPrevious_moves t c
  obtain ⟨hres, hon⟩ := hE.toPrevious_first t c k hp hf
  have hcur : E.current (E.toPrevious t c).1 c = some e := by
    rw [hK.current_on _ _ _ hon, hm.content, hc]
  exact ⟨(E.toPrevious t c).1, by simp [prev, move, hres, hK.eof_current _ _ _ hcur], hm, hon⟩

/-! ## Walks -/

variable (S)

/-- Read and move until the end is reached or something throws: the entries read, the state
reached, and the exception. -/
def walk (move : E.Txn → ConstCursor E → E.Txn × ConstCursor E × Option Exn) :
    Nat → E.Txn → ConstCursor E →
      Except Halt (List (Bytes × Bytes) × E.Txn × ConstCursor E × Option Exn)
  | 0, _, _ => .error .exhausted
  | fuel + 1, t, i =>
    match i.look S t with
    | .error x => .ok ([], t, i, some x)
    | .ok none => .ok ([], t, i, none)
    | .ok (some e) =>
      match move t i with
      | (t, i, some x) => .ok ([e], t, i, some x)
      | (t, i, none) => do
        let (l, r) ← walk move fuel t i
        return (e :: l, r)

variable {S}

theorem look_of_on {i : ConstCursor E} (h : i.On t e) : i.look S t = .ok (some e) := by
  have hitem := item_of_on (S := S) h
  cases h with
  | intro c ho he =>
    simp only [look, equal, key, rawValue, hitem]
    rfl

/-- Forward, a walk visits what is ahead and reaches the end. -/
theorem walk_next (hE : E.Documented) {l : List (Bytes × Bytes)} {fuel : Nat}
    {i : ConstCursor E} (h : i.Ahead t l) (hfuel : l.length < fuel) :
    ∃ u j, walk S (fun t i => i.next S t) fuel t i = .ok (l, u, j, none) ∧
      j.equal S u .marker = .ok true := by
  induction fuel generalizing t i l with
  | zero => omega
  | succ fuel ih =>
    cases l with
    | nil =>
      cases h with
      | done c => exact ⟨t, _, rfl, rfl⟩
    | cons e l =>
      obtain ⟨c, u, rfl, hon, hnext, -, hahead⟩ := next_ahead (S := S) hE h
      obtain ⟨v, j, hwalk, hj⟩ := ih hahead (by simpa using hfuel)
      refine ⟨v, j, ?_, hj⟩
      simp only [walk, look_of_on hon, hnext, hwalk]
      rfl

/-- Backwards, a walk visits the entry and those before it, and is stopped by the exception
on the first entry. -/
theorem walk_prev (hE : E.Documented) (hK : E.Tracking) {n fuel : Nat} {k : Bytes}
    (ho : E.opened t c) (hp : E.place t c = .on k) (hc : (E.content t).ceil k = some e)
    (hn : ((E.content t).before k).length = n) (hfuel : n < fuel) :
    ∃ u j, walk S (fun t i => i.prev S t) fuel t ⟨false, some c⟩ =
        .ok (e :: ((E.content t).before k).reverse, u, j, some S.badPrev) ∧
      j.equal S u .marker = .ok false := by
  have hon : (⟨false, some c⟩ : ConstCursor E).On t e :=
    .intro c ho (by rw [hK.current_on t c k hp, hc])
  induction fuel generalizing t e k n with
  | zero => omega
  | succ fuel ih =>
    cases hb : (E.content t).below k with
    | none =>
      obtain ⟨u, hprev, -⟩ := prev_from_first (S := S) hE hK hp hc hb
      refine ⟨u, ⟨false, some c⟩, ?_, rfl⟩
      simp [walk, look_of_on hon, hprev, SortedMap.below_eq_none.mp hb]
    | some f =>
      obtain ⟨u, hprev, hm, hplace⟩ := prev_from_below (S := S) hE hp hb
      have hbefore := SortedMap.before_of_below hb
      have hcu : (E.content u).ceil f.1 = some f := by
        rw [hm.content, SortedMap.ceil_of_lookup (SortedMap.lookup_of_below hb)]
      have hcur : (⟨false, some c⟩ : ConstCursor E).On u f :=
        .intro c (hm.opened c ho) (by rw [hK.current_on u c f.1 hplace, hcu])
      have hlen : ((E.content u).before f.1).length + 1 = n := by
        rw [← hn, hbefore, hm.content, List.length_append, List.length_singleton]
      obtain ⟨v, j, hwalk, hj⟩ := ih (hm.opened c ho) hplace hcu rfl (by omega) hcur
      refine ⟨v, j, ?_, hj⟩
      rw [hm.content] at hwalk
      simp [walk, look_of_on hon, hprev, hwalk, hbefore, bind, Except.bind, pure, Except.pure]

end ConstCursor

/-! ## Where walks begin -/

namespace Table
open ConstCursor

variable {E : Mdbx} {w : Reader E}

/-- A search puts its cursor before the entry found and all that follows. -/
theorem search_ahead (hE : E.Documented) (hU : E.Unfailing)
    {seek : E.Txn → E.Cursor → E.Txn × Bool} (hmoves : ∀ t c, E.Moves c t (seek t c).1)
    {found : Option (Bytes × Bytes)}
    (hmem : ∀ e, found = some e → (E.content w.m_txn).lookup e.1 = some e.2)
    (hseek : ∀ t c, E.content t = E.content w.m_txn → (seek t c).2 = found.isSome ∧
      ∀ e, found = some e → E.place (seek t c).1 c = .on e.1) :
    ∃ w' i, search seek w = .ok (w', i) ∧ E.content w'.m_txn = E.content w.m_txn ∧
      i.Ahead w'.m_txn (found.elim [] fun e => e :: (E.content w.m_txn).after e.1) := by
  obtain ⟨t, c, ht⟩ := hU.openCursor w.m_txn
  obtain ⟨hopen, -, ho, -⟩ := hE.openCursor_ok _ _ _ ht
  obtain ⟨hres, hplace⟩ := hseek t c hopen.content
  have hcontent : E.content (seek t c).1 = E.content w.m_txn :=
    (hmoves t c).content.trans hopen.content
  refine ⟨_, _, search_eq_ok.mpr ⟨t, c, ht, rfl, rfl⟩, hcontent, ?_⟩
  cases found with
  | none =>
    simp only [hres, Option.isSome_none, Bool.not_false, Bool.true_or]
    exact .done _
  | some e =>
    have he : (E.content (seek t c).1).lookup e.1 = some e.2 := by rw [hcontent, hmem e rfl]
    have hon := hplace e rfl
    simp only [hres, Option.isSome_some, Bool.not_true, Bool.false_or, Option.elim_some,
      hE.eof_on _ _ _ _ hon he]
    rw [← hcontent]
    exact .on c e ((hmoves t c).opened c ho) hon he

theorem begin_ahead (hE : E.Documented) (hU : E.Unfailing) :
    ∃ w' i, begin w = .ok (w', i) ∧ i.Ahead w'.m_txn (E.content w.m_txn).entries := by
  obtain ⟨w', i, h, -, hi⟩ := search_ahead (w := w) hE hU hE.toFirst_moves
    (fun e he => SortedMap.lookup_of_first he) fun t c ht =>
      ⟨by rw [hE.toFirst_result, ht], fun e he => hE.toFirst_place t c e (by rw [ht, he])⟩
  refine ⟨w', i, h, ?_⟩
  cases hf : (E.content w.m_txn).first with
  | none =>
    rw [hf] at hi
    rw [SortedMap.first_eq_none.mp hf]
    exact hi
  | some e =>
    rw [hf] at hi
    rw [SortedMap.entries_of_first hf]
    exact hi

theorem lowerBound_ahead (hE : E.Documented) (hU : E.Unfailing) (k : Bytes) :
    ∃ w' i, lowerBound w k = .ok (w', i) ∧
      i.Ahead w'.m_txn ((E.content w.m_txn).entries.filter (k ≤ ·.1)) := by
  obtain ⟨w', i, h, -, hi⟩ := search_ahead (w := w) hE hU (fun t c => hE.lowerBound_moves t c k)
    (fun e he => SortedMap.lookup_of_ceil he) fun t c ht =>
      ⟨by rw [hE.lowerBound_result, ht], fun e he => hE.lowerBound_place t c k e (by rw [ht, he])⟩
  refine ⟨w', i, h, ?_⟩
  cases hc : (E.content w.m_txn).ceil k with
  | none =>
    have hnil : (E.content w.m_txn).entries.filter (k ≤ ·.1) = [] :=
      List.filter_eq_nil_iff.mpr (List.find?_eq_none.mp hc)
    simpa [hc, hnil] using hi
  | some e => simpa [hc, SortedMap.filter_of_ceil hc] using hi

end Table

/-- Complete ordered scans. Through any transaction, stepping forward from `begin` visits all
entries and from `lowerBound k` those that are not below `k`, in the order of the table, and
ends equal to `EndCursor` without an exception. Stepping back from an entry visits it and the
smaller ones in decreasing order; then `operator--` throws and the cursor is not at the end. -/
theorem scans_visit_in_order {E : Mdbx} {Value : Type} (S : Schema Value) (hE : E.Documented)
    (hU : E.Unfailing) (hK : E.Tracking) (w : Reader E) (k : Bytes) {fuel : Nat}
    (hfuel : (E.content w.m_txn).entries.length < fuel) :
    (∃ w' i u j, Table.begin w = .ok (w', i) ∧
      i.walk S (fun t i => i.next S t) fuel w'.m_txn =
        .ok ((E.content w.m_txn).entries, u, j, none) ∧ j.equal S u .marker = .ok true) ∧
    (∃ w' i u j, Table.lowerBound w k = .ok (w', i) ∧
      i.walk S (fun t i => i.next S t) fuel w'.m_txn =
        .ok ((E.content w.m_txn).entries.filter (k ≤ ·.1), u, j, none) ∧
      j.equal S u .marker = .ok true) ∧
    ∀ (i : ConstCursor E) (e : Bytes × Bytes), i.On w.m_txn e → ∃ u j,
      i.walk S (fun t i => i.prev S t) fuel w.m_txn =
        .ok (e :: ((E.content w.m_txn).before e.1).reverse, u, j, some S.badPrev) ∧
      j.equal S u .marker = .ok false := by
  refine ⟨?_, ?_, ?_⟩
  · obtain ⟨w', i, h, hi⟩ := Table.begin_ahead (w := w) hE hU
    obtain ⟨u, j, hwalk, hj⟩ := ConstCursor.walk_next (S := S) hE hi hfuel
    exact ⟨w', i, u, j, h, hwalk, hj⟩
  · obtain ⟨w', i, h, hi⟩ := Table.lowerBound_ahead (w := w) hE hU k
    have hle := List.length_filter_le (fun e : Bytes × Bytes => k ≤ e.1)
      (E.content w.m_txn).entries
    obtain ⟨u, j, hwalk, hj⟩ := ConstCursor.walk_next (S := S) hE hi (hle.trans_lt hfuel)
    exact ⟨w', i, u, j, h, hwalk, hj⟩
  · rintro i e ⟨c, ho, he⟩
    obtain ⟨p, hp⟩ := hK.current_place _ _ _ he
    have hc : (E.content w.m_txn).ceil p = some e := by rw [← hK.current_on _ _ _ hp, he]
    have hle : ((E.content w.m_txn).before p).length ≤ (E.content w.m_txn).entries.length :=
      List.length_filter_le _ _
    obtain ⟨u, j, hwalk, hj⟩ :=
      ConstCursor.walk_prev (S := S) hE hK ho hp hc rfl (hle.trans_lt hfuel)
    rw [SortedMap.before_of_ceil hc] at hwalk
    exact ⟨u, j, hwalk, hj⟩

/-- A table with two entries, its writer, and a cursor on the greater one. -/
def twoEntryWriter : Reader Reference.engine :=
  .start .unique 0 { Reference.engine.startWrite ((SortedMap.empty.insert [1] [1]).insert [2] [2])
    with cursors := 1, places := fun _ => .on [2] }

def secondCursor : ConstCursor Reference.engine := ⟨false, some (0 : Nat)⟩

theorem scans_visit_in_order_two_entries :
    (∃ w' i u j, Table.begin twoEntryWriter = .ok (w', i) ∧
      i.walk rawSchema (fun t i => i.next rawSchema t) 3 w'.m_txn =
        .ok ([([1], [1]), ([2], [2])], u, j, none) ∧ j.equal rawSchema u .marker = .ok true) ∧
    ∃ u j, secondCursor.walk rawSchema (fun t i => i.prev rawSchema t) 3 twoEntryWriter.m_txn =
      .ok ([([2], [2]), ([1], [1])], u, j, some rawSchema.badPrev) ∧
      j.equal rawSchema u .marker = .ok false := by
  obtain ⟨hbegin, -, hback⟩ := scans_visit_in_order rawSchema Reference.documented
    Reference.unfailing Reference.tracking twoEntryWriter [2] (show _ < 3 by decide)
  have hon : secondCursor.On twoEntryWriter.m_txn ([2], [2]) :=
    .intro (E := Reference.engine) (0 : Nat) (show 0 < 1 by decide) (by rfl)
  exact ⟨hbegin, hback secondCursor ([2], [2]) hon⟩

end Zatestil.Database
