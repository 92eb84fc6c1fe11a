import Zatestil.Database.Scan

/-!
# Ranges of cursors

A range operation moves its first cursor until it is equal to the end, which is the marker or
another cursor. `At` and `StopAt` say what the two show, and `equal_at` is the test of the
loops. The loop of a range erase removes the entry under the cursor and steps on; what is
ahead of the cursor is then what was after the entry, and the end stays where it is.
-/
namespace Zatestil.Database
open Library Util

namespace ConstCursor

variable {E : Mdbx} {Value : Type} {S : Schema Value}

/-- What a cursor shows: nothing at the end, and else the entry it stands on. -/
inductive At (t : E.Txn) : ConstCursor E → Option (Bytes × Bytes) → Prop where
  | past (c : Option E.Cursor) : At t ⟨true, c⟩ none
  | on {i : ConstCursor E} {e : Bytes × Bytes} (h : i.On t e) : At t i (some e)

/-- What the end of a range shows. -/
inductive StopAt (t : E.Txn) : EndCursor E → Option (Bytes × Bytes) → Prop where
  | marker : StopAt t .marker none
  | cursor {j : ConstCursor E} {b : Option (Bytes × Bytes)} (h : j.At t b) :
      StopAt t (.cursor j) b

variable {t u : E.Txn} {c : E.Cursor} {e : Bytes × Bytes} {i : ConstCursor E}
  {stop : EndCursor E} {r b : Option (Bytes × Bytes)}

theorem at_of_ahead (hE : E.Documented) {l : List (Bytes × Bytes)} (h : i.Ahead t l) :
    i.At t l.head? := by
  cases h with
  | done c => exact .past c
  | on c e ho hp he => exact .on (on_of_place hE ho hp he)

/-- The test of the loops. -/
theorem equal_at (hE : E.Documented) (hi : i.At t r) (hs : StopAt t stop b) :
    i.equal S t stop = .ok (decide (r = b)) := by
  cases hs with
  | marker =>
    cases hi with
    | past c => rfl
    | on h => cases h; rfl
  | @cursor j _ hj =>
    cases hi with
    | past c =>
      cases hj with
      | past d => rfl
      | on h => cases h; rfl
    | @on _ e he =>
      cases hj with
      | past d => cases he; rfl
      | @on _ f hf =>
        have hie := item_of_on (S := S) he
        have hjf := item_of_on (S := S) hf
        have hkeys : e.1 = f.1 ↔ e = f :=
          ⟨SortedMap.key_inj (mem_of_on hE he) (mem_of_on hE hf), fun h => by rw [h]⟩
        cases he with
        | intro c ho he =>
          cases hf with
          | intro d ho' hf =>
            by_cases hef : e = f
            · subst hef
              simp [equal, equalCursor, key, rawValue, hie, hjf, Except.map, bind, Except.bind,
                pure, Except.pure]
            · have hne := mt hkeys.mp hef
              simp [equal, equalCursor, key, hie, hjf, Except.map, bind, Except.bind, pure,
                Except.pure, hef, hne]

theorem mem_of_stopAt (hE : E.Documented) (hs : StopAt t stop (some e)) :
    e ∈ (E.content t).entries := by
  cases hs with
  | cursor hj =>
    cases hj with
    | on h => exact mem_of_on hE h

/-- An end that is not before the entry of the cursor shows that entry or a later one. -/
theorem mem_ahead_of_stopAt (hE : E.Documented) (hi : i.On t e) (hs : StopAt t stop b)
    (hle : ∀ f, b = some f → e.1 ≤ f.1) :
    ∀ f, b = some f → f ∈ e :: (E.content t).after e.1 := fun f hf =>
  (SortedMap.mem_cons_after (mem_of_on hE hi)).mpr ⟨mem_of_stopAt hE (hf ▸ hs), hle f hf⟩

theorem later_of_ne {a : Bytes × Bytes} {l : List (Bytes × Bytes)}
    (hb : ∀ f, b = some f → f ∈ a :: l) (hne : some a ≠ b) : ∀ f, b = some f → f ∈ l := by
  intro f hf
  rcases List.mem_cons.mp (hb f hf) with rfl | hmem
  · exact absurd hf.symm hne
  · exact hmem

/-- A cursor keeps its entry while another one is used, as long as the entry stays. -/
theorem on_of_frame (hK : E.Tracking) {d : E.Cursor}
    (h : (⟨false, some d⟩ : ConstCursor E).On t e) (hd : d ≠ c) (hf : E.Frame c t u)
    (hstays : ∀ k, (E.content t).ceil k = some e → (E.content u).ceil k = some e) :
    (⟨false, some d⟩ : ConstCursor E).On u e := by
  cases h with
  | intro d ho he =>
    obtain ⟨k, hk⟩ := hK.current_place _ _ _ he
    have hplace : E.place u d = .on k := (hf.place d hd ho).trans hk
    have hceil : (E.content t).ceil k = some e := (hK.current_on _ _ _ hk).symm.trans he
    exact .intro d (hf.opened d ho) ((hK.current_on _ _ _ hplace).trans (hstays k hceil))

/-- The end of a range keeps what it shows while the first cursor is used somewhere else. -/
theorem stopAt_of_frame (hK : E.Tracking) (hi : (⟨false, some c⟩ : ConstCursor E).On t e)
    (hs : StopAt t stop b) (hne : some e ≠ b) (hf : E.Frame c t u)
    (hstays : ∀ k f, b = some f → (E.content t).ceil k = some f →
      (E.content u).ceil k = some f) : StopAt u stop b := by
  cases hs with
  | marker => exact .marker
  | cursor hj =>
    cases hj with
    | past d => exact .cursor (.past d)
    | @on j f hj =>
      refine .cursor (.on ?_)
      obtain ⟨d, ho, hd⟩ := hj
      refine on_of_frame hK (.intro d ho hd) ?_ hf fun k => hstays k f rfl
      rintro rfl
      exact hne (congrArg some (on_unique hi (.intro d ho hd)))

end ConstCursor

namespace Table
open ConstCursor

variable {E : Mdbx} {Value : Type} {S : Schema Value} {w : Reader E} {i : ConstCursor E}
  {e : Bytes × Bytes} {stop : EndCursor E} {r b : Option (Bytes × Bytes)}

/-! ## The loop of a range erase -/

theorem eraseRange_done (hE : E.Documented) (hi : i.At w.m_txn b)
    (hs : StopAt w.m_txn stop b) (fuel : Nat) :
    eraseRange S stop (fuel + 1) w i = .ok (w, i) := by
  have hequal := equal_at (S := S) hE hi hs
  simp [eraseRange, hequal, bind, Except.bind, pure, Except.pure]

/-- One turn on an entry that is not the end: the entry is gone, and what was after it is
ahead. -/
theorem eraseRange_turn (hE : E.Documented) (hU : E.Unfailing) (hK : E.Tracking)
    (hw : E.isReadonly w.m_txn = false) (hi : i.On w.m_txn e) (hs : StopAt w.m_txn stop b)
    (hne : some e ≠ b) :
    ∃ u j, (∀ fuel, eraseRange S stop (fuel + 1) w i =
        eraseRange S stop fuel { w with m_txn := u } j) ∧
      E.content u = (E.content w.m_txn).erase e.1 ∧ E.isReadonly u = false ∧
      j.Ahead u ((E.content w.m_txn).after e.1) ∧ StopAt u stop b := by
  have hequal := equal_at (S := S) hE (.on hi) hs
  rw [decide_eq_false hne] at hequal
  cases hi with
  | intro c ho he =>
    obtain ⟨t, ht⟩ := hU.erase _ c e.1 e.2 hw he
    obtain ⟨hframe, hcontent, hplace⟩ := hE.erase_current _ _ _ _ _ _ ht he
    obtain ⟨u, hnext, hm, hahead⟩ := next_from (S := S) hE (hframe.opened c ho) hplace
    have hboth : E.Frame c w.m_txn u := hframe.trans hm.toFrame
    refine ⟨u, ⟨E.eof u c, some c⟩, fun fuel => ?_, hm.content.trans hcontent,
      hboth.readonly.trans hw, ?_, ?_⟩
    · simp [eraseRange, hequal, eraseCursor, ht, hnext, bind, Except.bind, pure, Except.pure]
    · rwa [hcontent, SortedMap.after_erase_of_le le_rfl] at hahead
    · refine stopAt_of_frame hK (.intro c ho he) hs hne hboth fun k f hf hk => ?_
      rw [hm.content, hcontent]
      refine SortedMap.ceil_erase_of_ne hk fun hkey => hne ?_
      rw [hf, SortedMap.key_inj (mem_of_on hE (.intro c ho he)) ?_ hkey.symm]
      exact (SortedMap.ceil_eq_some.mp hk).1

/-- The loop, from a cursor with `l` ahead to an end in `l` or past it: it stops at the end
and has removed what lies before the end. -/
theorem eraseRange_ahead (hE : E.Documented) (hU : E.Unfailing) (hK : E.Tracking)
    {l : List (Bytes × Bytes)} {fuel : Nat} (hw : E.isReadonly w.m_txn = false)
    (hi : i.Ahead w.m_txn l) (hs : StopAt w.m_txn stop b) (hb : ∀ f, b = some f → f ∈ l)
    (hfuel : l.length < fuel) :
    ∃ w' i', eraseRange S stop fuel w i = .ok (w', i') ∧
      i'.equal S w'.m_txn stop = .ok true ∧
      ∀ e, e ∈ (E.content w'.m_txn).entries ↔
        e ∈ (E.content w.m_txn).entries ∧ ¬ (e ∈ l ∧ ∀ f, b = some f → e.1 < f.1) := by
  induction fuel generalizing w i l with
  | zero => omega
  | succ fuel ih =>
    have hat := at_of_ahead hE hi
    by_cases hend : l.head? = b
    · rw [hend] at hat
      refine ⟨w, i, eraseRange_done hE hat hs fuel, by simp [equal_at hE hat hs], fun e => ?_⟩
      cases hi with
      | done c => simp
      | on c f ho hp hf =>
        -- the end is the head, and nothing ahead of the cursor is before its head
        have hleast : ∀ g ∈ f :: (E.content w.m_txn).after f.1, ¬ g.1 < f.1 := by
          intro g hg
          rcases List.mem_cons.mp hg with rfl | hg
          · exact lt_irrefl _
          · exact (SortedMap.mem_after.mp hg).2.not_gt
        constructor
        · exact fun he => ⟨he, fun ⟨hmem, hlt⟩ => hleast e hmem (hlt f hend.symm)⟩
        · exact fun h => h.1
    · cases hi with
      | done c =>
        cases b with
        | none => exact absurd rfl hend
        | some f => exact absurd (hb f rfl) (by simp)
      | on c f ho hp hf =>
        obtain ⟨u, j, hturn, hcontent, hro, hahead, hstop⟩ :=
          eraseRange_turn (S := S) hE hU hK hw (on_of_place hE ho hp hf) hs hend
        have hlater := later_of_ne hb hend
        obtain ⟨w', i', h, hequal, hmem⟩ := ih (w := { w with m_txn := u }) hro hahead hstop
          hlater (by simpa using hfuel)
        refine ⟨w', i', by rw [hturn, h], hequal, fun e => ?_⟩
        have hbefore : ∀ g, b = some g → f.1 < g.1 :=
          fun g hg => (SortedMap.mem_after.mp (hlater g hg)).2
        rw [hmem, hcontent]
        exact SortedMap.mem_erase_first (p := fun g => ∀ f, b = some f → g.1 < f.1)
          (SortedMap.lookup_eq_some.mp hf) hbefore

end Table

/-- The keys from what the first cursor of a range shows up to what its end shows. -/
def InRange (r b : Option (Bytes × Bytes)) (k : Bytes) : Prop :=
  (∃ e, r = some e ∧ e.1 ≤ k) ∧ ∀ f, b = some f → k < f.1

theorem inRange_iff {e : Bytes × Bytes} {b : Option (Bytes × Bytes)} {k : Bytes} :
    InRange (some e) b k ↔ e.1 ≤ k ∧ ∀ f, b = some f → k < f.1 := by
  simp [InRange]

section RangeErase
open ConstCursor

variable {E : Mdbx} {Value : Type} (S : Schema Value) {w : Reader E} {i : ConstCursor E}
  {stop : EndCursor E} {r b : Option (Bytes × Bytes)}

theorem eraseRange_inRange (hE : E.Documented) (hU : E.Unfailing) (hK : E.Tracking)
    (hw : E.isReadonly w.m_txn = false) (hi : i.At w.m_txn r) (hs : StopAt w.m_txn stop b)
    (hle : ∀ f, b = some f → ∃ e, r = some e ∧ e.1 ≤ f.1) {fuel : Nat}
    (hfuel : (E.content w.m_txn).entries.length < fuel) :
    ∃ w' i', Table.eraseRange S stop fuel w i = .ok (w', i') ∧
      i'.equal S w'.m_txn stop = .ok true ∧
      ∀ e, e ∈ (E.content w'.m_txn).entries ↔
        e ∈ (E.content w.m_txn).entries ∧ ¬ InRange r b e.1 := by
  obtain ⟨fuel, rfl⟩ := Nat.exists_eq_succ_of_ne_zero (Nat.ne_zero_of_lt hfuel)
  by_cases hend : r = b
  · subst hend
    refine ⟨w, i, Table.eraseRange_done hE hi hs fuel, by simp [equal_at hE hi hs], fun e => ?_⟩
    -- an empty range: no key is both at least and less than the one of its cursors
    have hempty : ¬ InRange r r e.1 := fun ⟨⟨f, hf, hfe⟩, hlt⟩ => (hlt f hf).not_ge hfe
    simp [hempty]
  · cases hi with
    | past c =>
      cases b with
      | none => exact absurd rfl hend
      | some f =>
        obtain ⟨e, he, -⟩ := hle f rfl
        cases he
    | @on _ e he =>
      obtain ⟨u, j, hturn, hcontent, hro, hahead, hstop⟩ :=
        Table.eraseRange_turn (S := S) hE hU hK hw he hs hend
      have hmem := mem_of_on hE he
      have hfrom : ∀ f, b = some f → e.1 ≤ f.1 := by
        intro f hf
        obtain ⟨_, ⟨⟩, hef⟩ := hle f hf
        exact hef
      have hlater := later_of_ne (mem_ahead_of_stopAt hE he hs hfrom) hend
      have hfewer := SortedMap.length_after_lt hmem
      obtain ⟨w', i', h, hequal, hleft⟩ := Table.eraseRange_ahead (S := S) hE hU hK
        (w := { w with m_txn := u }) hro hahead hstop hlater (show _ < fuel by omega)
      refine ⟨w', i', by rw [hturn, h], hequal, fun f => ?_⟩
      have hbefore : ∀ g, b = some g → e.1 < g.1 :=
        fun g hg => (SortedMap.mem_after.mp (hlater g hg)).2
      have hfirst := SortedMap.mem_erase_first (g := f)
        (p := fun g => ∀ f, b = some f → g.1 < f.1) hmem hbefore
      rw [hleft, hcontent, hfirst, inRange_iff, SortedMap.mem_cons_after hmem]
      tauto

/-- A range erase removes exactly the half-open range and leaves its cursor equal to the end:
the end is the marker, or a cursor on an entry not before the one of the first cursor. In
particular `clear` empties a table of any size. -/
theorem eraseRange_removes_half_open (hE : E.Documented) (hU : E.Unfailing) (hK : E.Tracking)
    (hw : E.isReadonly w.m_txn = false) {fuel : Nat}
    (hfuel : (E.content w.m_txn).entries.length < fuel) :
    (∀ (i : ConstCursor E) (stop : EndCursor E) (r b : Option (Bytes × Bytes)),
      i.At w.m_txn r → StopAt w.m_txn stop b →
      (∀ f, b = some f → ∃ e, r = some e ∧ e.1 ≤ f.1) →
      ∃ w' i', Table.eraseRange S stop fuel w i = .ok (w', i') ∧
        i'.equal S w'.m_txn stop = .ok true ∧
        ∀ e, e ∈ (E.content w'.m_txn).entries ↔
          e ∈ (E.content w.m_txn).entries ∧ ¬ InRange r b e.1) ∧
    ∃ w', Table.clear S fuel w = .ok w' ∧ E.content w'.m_txn = .empty := by
  refine ⟨fun i stop r b hi hs hle => eraseRange_inRange S hE hU hK hw hi hs hle hfuel, ?_⟩
  obtain ⟨w', h⟩ := Table.clear_returns S hE hU hw hfuel
  exact ⟨w', h, (Table.performs_clear hE h).content⟩

end RangeErase

/-- A writer on a table with three entries, and cursors on the first two of them. -/
def threeEntryWriter : Reader Reference.engine :=
  .start .unique 0 { Reference.engine.startWrite
      (((SortedMap.empty.insert [1] [1]).insert [2] [2]).insert [3] [3])
    with cursors := 2, places := fun c => if c = 0 then .on [1] else .on [2] }

def cursorOnFirst : ConstCursor Reference.engine := ⟨false, some (0 : Nat)⟩

def cursorOnSecond : ConstCursor Reference.engine := ⟨false, some (1 : Nat)⟩

theorem cursorOnFirst_on : cursorOnFirst.On threeEntryWriter.m_txn ([1], [1]) :=
  .intro (E := Reference.engine) (0 : Nat) (show 0 < 2 by decide) (by rfl)

theorem cursorOnSecond_on : cursorOnSecond.On threeEntryWriter.m_txn ([2], [2]) :=
  .intro (E := Reference.engine) (1 : Nat) (show 1 < 2 by decide) (by rfl)

theorem eraseRange_removes_half_open_first_of_three :
    ∃ w' i', Table.eraseRange rawSchema (.cursor cursorOnSecond) 4 threeEntryWriter cursorOnFirst =
        .ok (w', i') ∧
      i'.equal rawSchema w'.m_txn (.cursor cursorOnSecond) = .ok true ∧
      ∀ e, e ∈ w'.m_txn.content.entries ↔ e ∈ threeEntryWriter.m_txn.content.entries ∧
        ¬ InRange (some ([1], [1])) (some ([2], [2])) e.1 := by
  obtain ⟨h, -⟩ := eraseRange_removes_half_open rawSchema Reference.documented
    Reference.unfailing Reference.tracking (w := threeEntryWriter) rfl (show _ < 4 by decide)
  refine h cursorOnFirst (.cursor cursorOnSecond) _ _ (.on cursorOnFirst_on)
    (.cursor (.on cursorOnSecond_on)) ?_
  rintro f ⟨⟩
  exact ⟨_, rfl, by decide⟩

/-! ## Ranges whose end is not ahead

The loop stops on equality only. When the end cursor is on an entry that is not ahead, or on
nothing, the first cursor is never equal to it: it runs past the last entry, and `operator++`
on an end cursor throws inside a `noexcept` function. -/

namespace Table
open ConstCursor

variable {E : Mdbx} {Value : Type} {S : Schema Value} {w : Reader E} {i j : ConstCursor E}
  {e f : Bytes × Bytes} {r : Option (Bytes × Bytes)}

theorem eraseRange_from_past (hj : j.m_end = false) (c : Option E.Cursor) (fuel : Nat) :
    eraseRange S (.cursor j) (fuel + 1) w ⟨true, c⟩ = .error .terminate := by
  simp [eraseRange, equal, equalCursor, hj, eraseCursor, next, move, bind, Except.bind]

/-- An end cursor that cannot be read makes the comparison throw. -/
theorem eraseRange_unreadable (hi : i.On w.m_txn e) (hj : j.m_end = false)
    (hitem : ∀ f, j.item S w.m_txn ≠ .ok f) (fuel : Nat) :
    eraseRange S (.cursor j) (fuel + 1) w i = .error .terminate := by
  have hie := item_of_on (S := S) hi
  cases hi with
  | intro c ho he =>
    cases hjf : j.item S w.m_txn with
    | ok f => exact absurd hjf (hitem f)
    | error x =>
      simp [eraseRange, equal, equalCursor, hj, key, hie, hjf, Except.map, noexcept, bind,
        Except.bind]

/-- From behind the end the loop does not return, whatever the fuel. -/
theorem eraseRange_overshoots (hE : E.Documented) (hU : E.Unfailing) (hK : E.Tracking)
    (hw : E.isReadonly w.m_txn = false) (hi : i.At w.m_txn r) (hj : j.On w.m_txn f)
    (hlt : ∀ e, r = some e → f.1 < e.1) (fuel : Nat) (p : Reader E × ConstCursor E) :
    eraseRange S (.cursor j) fuel w i ≠ .ok p := by
  induction fuel generalizing w i r with
  | zero => simp [eraseRange]
  | succ fuel ih =>
    cases hi with
    | past c =>
      rw [eraseRange_from_past (by cases hj; rfl)]
      simp
    | @on _ e he =>
      have hne : some e ≠ some f := by
        rintro ⟨⟩
        exact lt_irrefl _ (hlt _ rfl)
      obtain ⟨u, k, hturn, hcontent, hro, hahead, hstop⟩ :=
        eraseRange_turn (S := S) hE hU hK hw he (.cursor (.on hj)) hne
      rw [hturn]
      cases hstop with
      | cursor hat =>
        cases hat with
        | on hj' =>
          refine ih (w := { w with m_txn := u }) hro (at_of_ahead hE hahead) hj' fun g hg => ?_
          have hmem := List.mem_of_mem_head? (Option.mem_def.mpr hg)
          exact (hlt e rfl).trans (SortedMap.mem_after.mp hmem).2

end Table

/-- A range erase between two cursors returns exactly when the end is an end cursor, or both
are on entries and the end is not before the first. -/
theorem eraseRange_returns_iff {E : Mdbx} {Value : Type} (S : Schema Value) (hE : E.Documented)
    (hU : E.Unfailing) (hK : E.Tracking) {w : Reader E} (hw : E.isReadonly w.m_txn = false)
    {b e : ConstCursor E} {r : Option (Bytes × Bytes)} (hb : b.At w.m_txn r)
    (he : ∀ c, e.m_cursor = some c → E.opened w.m_txn c) :
    (∃ fuel p, Table.eraseRange S (.cursor e) fuel w b = .ok p) ↔
      e.m_end = true ∨ ∃ x y, b.On w.m_txn x ∧ e.On w.m_txn y ∧ x.1 ≤ y.1 := by
  constructor
  · rintro ⟨fuel, p, h⟩
    by_contra hnot
    obtain ⟨hend, hnone⟩ := not_or.mp hnot
    have hend : e.m_end = false := by simpa using hend
    cases fuel with
    | zero => cases h
    | succ fuel =>
      by_cases hread : ∃ y, e.item S w.m_txn = .ok y
      · obtain ⟨y, hy⟩ := hread
        have hon := ConstCursor.on_of_item he hy
        refine Table.eraseRange_overshoots hE hU hK hw hb hon (fun x hx => ?_) _ p h
        subst hx
        cases hb with
        | on hbx =>
          by_contra hle
          exact hnone ⟨x, y, hbx, hon, not_lt.mp hle⟩
      · cases hb with
        | past c =>
          rw [Table.eraseRange_from_past hend] at h
          cases h
        | on hbx =>
          rw [Table.eraseRange_unreadable hbx hend (not_exists.mp hread)] at h
          cases h
  · intro hcond
    have hreturns : ∃ q, ConstCursor.StopAt w.m_txn (.cursor e) q ∧
        ∀ y, q = some y → ∃ x, r = some x ∧ x.1 ≤ y.1 := by
      rcases hcond with hend | ⟨x, y, hx, hy, hle⟩
      · obtain ⟨m_end, m_cursor⟩ := e
        obtain rfl : m_end = true := hend
        exact ⟨none, .cursor (.past _), by simp⟩
      · refine ⟨some y, .cursor (.on hy), ?_⟩
        rintro z ⟨⟩
        cases hb with
        | past c => cases hx
        | on hbx => exact ⟨x, congrArg some (ConstCursor.on_unique hbx hx), hle⟩
    obtain ⟨q, hstop, hle⟩ := hreturns
    obtain ⟨w', i', h, -⟩ := eraseRange_inRange S hE hU hK hw hb hstop hle (Nat.lt_succ_self _)
    exact ⟨_, _, h⟩

theorem eraseRange_returns_iff_first_of_three :
    ∃ fuel p, Table.eraseRange rawSchema (.cursor cursorOnSecond) fuel threeEntryWriter
      cursorOnFirst = .ok p :=
  (eraseRange_returns_iff rawSchema Reference.documented Reference.unfailing Reference.tracking
    (w := threeEntryWriter) rfl (.on cursorOnFirst_on) (by rintro c ⟨⟩; decide)).mpr
    (.inr ⟨_, _, cursorOnFirst_on, cursorOnSecond_on, by decide⟩)

/-- With its cursors in the other order the erase takes away the entries from the second on
and then ends the program. -/
theorem eraseRange_reversed_terminates :
    Table.eraseRange rawSchema (.cursor cursorOnFirst) 3 threeEntryWriter cursorOnSecond =
        .error .terminate ∧
      ∀ fuel p, Table.eraseRange rawSchema (.cursor cursorOnFirst) fuel threeEntryWriter
        cursorOnSecond ≠ .ok p := by
  refine ⟨by rfl, Table.eraseRange_overshoots Reference.documented Reference.unfailing
    Reference.tracking rfl (.on cursorOnSecond_on) cursorOnFirst_on ?_⟩
  rintro e ⟨⟩
  decide

end Zatestil.Database
