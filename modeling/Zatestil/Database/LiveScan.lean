import Zatestil.Database.EndFlag

/-!
# Scans of a table that changes

A cursor that is moved by `operator++` shares its transaction with everything else that the
scope does: puts, erases through other cursors and by key, other scans. None of this takes the
cursor off its place (`Apart`), so it arrives at greater and greater keys, never throws before
it is at the end, and passes over no key that is there during the whole scan
(`live_scan_complete`). The scan may also erase the entry that it reads.

What a put or a search does to the other cursors is what the engine documents as `Frame`; the
operations of a table are traced to those calls one by one.
-/
namespace Zatestil.Database
open Library Util

namespace Mdbx

variable {E : Mdbx} {c d : E.Cursor} {t u v : E.Txn}

/-- What a call on other cursors does to the cursor `c`, namely nothing. -/
structure Apart (E : Mdbx) (c : E.Cursor) (t u : E.Txn) : Prop where
  opened : E.opened t c → E.opened u c
  place : E.opened t c → E.place u c = E.place t c

theorem Apart.refl (t : E.Txn) : E.Apart c t t := ⟨id, fun _ => rfl⟩

theorem Apart.trans (h : E.Apart c t u) (g : E.Apart c u v) : E.Apart c t v where
  opened hc := g.opened (h.opened hc)
  place hc := (g.place (h.opened hc)).trans (h.place hc)

theorem Frame.apart (h : E.Frame d t u) (hne : c ≠ d) : E.Apart c t u :=
  ⟨h.opened c, h.place c hne⟩

/-- A new cursor is another one. -/
theorem Documented.openCursor_apart (hE : E.Documented) (h : E.openCursor t = .ok (u, d))
    (hc : E.opened t c) : E.Apart c t u ∧ c ≠ d := by
  obtain ⟨hmoves, hnew, -, -⟩ := hE.openCursor_ok _ _ _ h
  have hne : c ≠ d := by
    rintro rfl
    exact hnew hc
  exact ⟨hmoves.toFrame.apart hne, hne⟩

end Mdbx

/-! ## The operations of a table -/

namespace Table

variable {E : Mdbx} {Value : Type} {S : Schema Value} {c : E.Cursor} {w w' : Reader E}
  {i i' : ConstCursor E}

theorem search_apart (hE : E.Documented) {seek : E.Txn → E.Cursor → E.Txn × Bool}
    (hseek : ∀ t d, E.Moves d t (seek t d).1) (hc : E.opened w.m_txn c)
    (h : search seek w = .ok (w', i)) :
    E.Apart c w.m_txn w'.m_txn ∧ i.m_cursor ≠ some c := by
  obtain ⟨t, d, ht, rfl, rfl⟩ := search_eq_ok.mp h
  obtain ⟨hopen, hne⟩ := hE.openCursor_apart ht hc
  exact ⟨hopen.trans ((hseek t d).toFrame.apart hne), fun hd => hne (Option.some.inj hd).symm⟩

theorem empty_apart (hE : E.Documented) (hc : E.opened w.m_txn c) {b : Bool}
    (h : empty S w = .ok (w', b)) : E.Apart c w.m_txn w'.m_txn := by
  obtain ⟨⟨u, i⟩, hu, h⟩ := bind_eq_ok.mp h
  obtain ⟨_, _, h⟩ := bind_eq_ok.mp h
  cases h
  exact (search_apart hE hE.toFirst_moves hc hu).1

theorem eraseCursor_apart (hE : E.Documented) (hi : i.m_cursor ≠ some c)
    (h : eraseCursor w i = .ok w') : E.Apart c w.m_txn w'.m_txn := by
  unfold eraseCursor at h
  split at h
  · cases h
    exact .refl _
  · split at h
    · cases h
    · rename_i d hd
      obtain ⟨⟨t, b⟩, ht, h⟩ := bind_eq_ok.mp h
      rw [noexcept_eq_ok] at ht
      cases h
      have hne : c ≠ d := by
        rintro rfl
        exact hi hd
      cases he : E.current w.m_txn d with
      | none => exact (hE.erase_nothing _ _ _ _ ht he).toFrame.apart hne
      | some e => exact (hE.erase_current _ _ _ _ _ _ ht he).1.apart hne

theorem eraseKey_apart (hE : E.Documented) (hc : E.opened w.m_txn c) {k : Bytes}
    (h : eraseKey w k = .ok w') : E.Apart c w.m_txn w'.m_txn := by
  obtain ⟨d, hnew, hframe, -⟩ := eraseKey_frame hE h
  refine hframe.apart ?_
  rintro rfl
  exact hnew hc

/-- A step keeps the handle of the cursor that it moves, and all others. -/
theorem move_apart {step : E.Txn → E.Cursor → E.Txn × Bool}
    (hstep : ∀ t d, E.Moves d t (step t d).1) (bad : Exn) (t : E.Txn)
    (hi : i.m_cursor ≠ some c) :
    E.Apart c t (i.move S step bad t).1 ∧
      (i.move S step bad t).2.1.m_cursor = i.m_cursor := by
  unfold ConstCursor.move
  split
  · exact ⟨.refl _, rfl⟩
  · split
    · exact ⟨.refl _, rfl⟩
    · rename_i d hd
      have hne : c ≠ d := by
        rintro rfl
        exact hi hd
      have h := (hstep t d).toFrame.apart hne
      dsimp only
      split
      · exact ⟨h, rfl⟩
      · exact ⟨h, rfl⟩

theorem next_apart (hE : E.Documented) (t : E.Txn) (hi : i.m_cursor ≠ some c) :
    E.Apart c t (i.next S t).1 ∧ (i.next S t).2.1.m_cursor = i.m_cursor :=
  move_apart hE.toNext_moves S.badNext t hi

theorem eraseRange_apart (hE : E.Documented) {stop : EndCursor E} {fuel : Nat}
    (hi : i.m_cursor ≠ some c) (h : eraseRange S stop fuel w i = .ok (w', i')) :
    E.Apart c w.m_txn w'.m_txn ∧ i'.m_cursor = i.m_cursor := by
  induction fuel generalizing w i with
  | zero => cases h
  | succ fuel ih =>
    obtain ⟨b, -, h⟩ := bind_eq_ok.mp h
    cases b with
    | true =>
      cases h
      exact ⟨.refl _, rfl⟩
    | false =>
      obtain ⟨u, hu, h⟩ := bind_eq_ok.mp h
      have herase := eraseCursor_apart hE hi hu
      have hnext := next_apart (S := S) hE u.m_txn hi
      split at h
      · cases h
      · rename_i t j hn
        rw [hn] at hnext
        obtain ⟨hrest, hj⟩ := ih (w := { u with m_txn := t }) (by rwa [hnext.2]) h
        exact ⟨herase.trans (hnext.1.trans hrest), hj.trans hnext.2⟩

theorem clear_apart (hE : E.Documented) (hc : E.opened w.m_txn c) {fuel : Nat}
    (h : clear S fuel w = .ok w') : E.Apart c w.m_txn w'.m_txn := by
  obtain ⟨⟨u, i⟩, hu, h⟩ := bind_eq_ok.mp h
  obtain ⟨⟨w'', i'⟩, hloop, h⟩ := bind_eq_ok.mp h
  cases h
  obtain ⟨hbegin, hi⟩ := search_apart hE hE.toFirst_moves hc hu
  exact hbegin.trans (eraseRange_apart hE hi hloop).1

theorem findLoop_apart (hE : E.Documented) {stop : EndCursor E} {cond : Cond Value} {fuel : Nat}
    {t u : E.Txn} {x : Option Exn} (hi : i.m_cursor ≠ some c)
    (h : findLoop S stop cond fuel t i = .ok (u, i', x)) :
    E.Apart c t u ∧ i'.m_cursor = i.m_cursor := by
  induction fuel generalizing t i with
  | zero => cases h
  | succ fuel ih =>
    unfold findLoop at h
    split at h
    · cases h; exact ⟨.refl _, rfl⟩
    · cases h; exact ⟨.refl _, rfl⟩
    · split at h
      · cases h; exact ⟨.refl _, rfl⟩
      · cases h; exact ⟨.refl _, rfl⟩
      · have hnext := next_apart (S := S) hE t hi
        split at h
        · rename_i u' j y hn
          cases h
          rwa [hn] at hnext
        · rename_i u' j hn
          rw [hn] at hnext
          obtain ⟨hrest, hj⟩ := ih (by rwa [hnext.2]) h
          exact ⟨hnext.1.trans hrest, hj.trans hnext.2⟩

theorem find_apart (hE : E.Documented) {stop : EndCursor E} {cond : Cond Value} {fuel : Nat}
    {found : ConstCursor E} (hi : i.m_cursor ≠ some c)
    (h : find S stop cond fuel w i = .ok (w', i', found)) :
    E.Apart c w.m_txn w'.m_txn ∧ i'.m_cursor ≠ some c ∧ found.m_cursor ≠ some c := by
  obtain ⟨⟨t, j, x⟩, hloop, h⟩ := bind_eq_ok.mp h
  obtain ⟨hapart, hj⟩ := findLoop_apart hE hi hloop
  have hmake : ∀ {t error f}, ConstCursor.make t j.m_cursor error = .ok f →
      f.m_cursor ≠ some c := by
    intro t error f hf
    have : f.m_cursor = j.m_cursor := by
      cases hjc : j.m_cursor with
      | none => cases error <;> simp [ConstCursor.make, hjc] at hf; rw [← hf]
      | some d => rw [hjc, make_some] at hf; cases hf; rfl
    rwa [this, hj]
  cases x with
  | none =>
    obtain ⟨f, hf, h⟩ := bind_eq_ok.mp h
    cases h
    exact ⟨hapart, by simp, hmake hf⟩
  | some x =>
    dsimp only at h
    split at h
    · cases h
    · obtain ⟨f, hf, h⟩ := bind_eq_ok.mp h
      cases h
      exact ⟨hapart, by simp, hmake hf⟩

/-- Whether a put throws or not, it only concerns its own cursor. -/
theorem Puts.frame {put : E.Txn → E.Cursor → Bytes → Bytes → E.Txn × Option String}
    (hput : Puts put) (t : E.Txn) (d : E.Cursor) (k v : Bytes) :
    E.Frame d t (put t d k v).1 := by
  cases hp : (put t d k v).2 with
  | none => exact (hput.ok t d k v hp).1
  | some what => exact (hput.throws t d k v what hp).toFrame

theorem putWith_apart (hE : E.Documented)
    {put : E.Txn → E.Cursor → Bytes → Bytes → E.Txn × Option String}
    (hput : Puts put) (hc : E.opened w.m_txn c) {k v : Bytes}
    (h : putWith put w k v = .ok (w', i)) :
    E.Apart c w.m_txn w'.m_txn ∧ i.m_cursor ≠ some c := by
  unfold putWith putBlock at h
  cases ho : E.openCursor w.m_txn with
  | error what =>
    simp only [ho] at h
    cases h
    exact ⟨.refl _, by simp⟩
  | ok p =>
    obtain ⟨t, d⟩ := p
    obtain ⟨hopen, hne⟩ := hE.openCursor_apart ho hc
    have hapart := hopen.trans ((hput.frame t d k v).apart hne)
    have hd : some d ≠ some c := fun hd => hne (Option.some.inj hd).symm
    simp only [ho] at h
    cases hp : (put t d k v).2 with
    | none =>
      simp only [hp, make_some] at h
      cases h
      exact ⟨hapart, hd⟩
    | some what =>
      simp only [hp, make_some] at h
      cases h
      exact ⟨hapart, hd⟩

end Table

/-! ## The calls of a scope -/

/-- The operation moves none but other cursors, and erases through none but other ones. -/
def Op.spares {Value : Type} (i : Nat) : Op Value → Prop
  | .eraseRange j _ | .find j _ _ | .prev j | .next j | .eraseCursor j => j ≠ i
  | _ => True

namespace Session

variable {E : Mdbx} {Value : Type} {S : Schema Value} {fuel : Nat} {s t : Session E} {i : Nat}
  {c : E.Cursor}

/-- No other cursor of the scope has the native cursor `c`. -/
def Owns (s : Session E) (i : Nat) (c : E.Cursor) : Prop :=
  ∀ j d, j ≠ i → s.cursors[j]? = some d → d.m_cursor ≠ some c

/-- A scan with the cursor `i`: at a key, which need not be in the table any more, or at the
end. -/
inductive Scanning (s : Session E) (i : Nat) (c : E.Cursor) : Option Bytes → Prop where
  | at (k : Bytes) (hi : s.cursors[i]? = some ⟨false, some c⟩)
      (ho : E.opened s.writer.m_txn c) (hp : E.place s.writer.m_txn c = .on k)
      (hs : s.Owns i c) : Scanning s i c (some k)
  | done (hi : s.cursors[i]? = some ⟨true, some c⟩) (ho : E.opened s.writer.m_txn c)
      (hs : s.Owns i c) : Scanning s i c none

/-- The call leaves the cursor `i` and its native cursor alone. -/
structure Undisturbed (s t : Session E) (i : Nat) (c : E.Cursor) : Prop where
  cursor : t.cursors[i]? = s.cursors[i]?
  apart : E.Apart c s.writer.m_txn t.writer.m_txn
  owns : s.Owns i c → t.Owns i c

theorem Undisturbed.scanning (h : s.Undisturbed t i c) {k : Option Bytes}
    (hs : s.Scanning i c k) : t.Scanning i c k := by
  cases hs with
  | «at» k hi ho hp hown =>
    exact .at k (h.cursor.trans hi) (h.apart.opened ho) ((h.apart.place ho).trans hp) (h.owns hown)
  | done hi ho hown => exact .done (h.cursor.trans hi) (h.apart.opened ho) (h.owns hown)

/-- A call that returns a new cursor. -/
theorem undisturbed_append (hi : s.cursors[i]? ≠ none) {w : Reader E} {d : ConstCursor E}
    (h : E.Apart c s.writer.m_txn w.m_txn) (hd : d.m_cursor ≠ some c) :
    s.Undisturbed ⟨w, s.cursors ++ [d]⟩ i c := by
  have hlt : i < s.cursors.length := by
    by_contra hle
    exact hi (List.getElem?_eq_none (by omega))
  refine ⟨List.getElem?_append_left hlt, h, fun hown j f hj hf => ?_⟩
  by_cases hjlt : j < s.cursors.length
  · exact hown j f hj ((List.getElem?_append_left hjlt).symm.trans hf)
  · have hmem : f ∈ [d] := by
      have hf : ([d] : List (ConstCursor E))[j - s.cursors.length]? = some f :=
        (List.getElem?_append_right (by omega)).symm.trans hf
      exact List.mem_of_getElem? hf
    rwa [List.mem_singleton.mp hmem]

/-- A call that changes another cursor. -/
theorem undisturbed_set {w : Reader E} {d : ConstCursor E} {j : Nat} (hj : j ≠ i)
    (h : E.Apart c s.writer.m_txn w.m_txn) (hd : d.m_cursor ≠ some c) :
    s.Undisturbed ⟨w, s.cursors.set j d⟩ i c := by
  refine ⟨List.getElem?_set_ne hj, h, fun hown l f hl hf => ?_⟩
  by_cases hlj : l = j
  · subst hlj
    have hf : (s.cursors.set l d)[l]? = some f := hf
    rw [List.getElem?_set_self'] at hf
    obtain ⟨g, -, rfl⟩ := Option.map_eq_some_iff.mp hf
    exact hd
  · exact hown l f hl ((List.getElem?_set_ne (Ne.symm hlj)).symm.trans hf)

/-- A call that only changes the transaction. -/
theorem undisturbed_writer {w : Reader E} (h : E.Apart c s.writer.m_txn w.m_txn) :
    s.Undisturbed ⟨w, s.cursors⟩ i c := ⟨rfl, h, id⟩

theorem Scanning.cursor_ne_none {k : Option Bytes} (h : s.Scanning i c k) :
    s.cursors[i]? ≠ none := by
  cases h with
  | «at» k hi => simp [hi]
  | done hi => simp [hi]

theorem Scanning.opened {k : Option Bytes} (h : s.Scanning i c k) :
    E.opened s.writer.m_txn c := by
  cases h with
  | «at» k hi ho => exact ho
  | done hi ho => exact ho

theorem Scanning.owns {k : Option Bytes} (h : s.Scanning i c k) : s.Owns i c := by
  cases h with
  | «at» k hi ho hp hs => exact hs
  | done hi ho hs => exact hs

/-- What does not concern the cursor of a scan leaves the scan alone. -/
theorem call_undisturbed (hE : E.Documented) {k : Option Bytes} (hs : s.Scanning i c k)
    {op : Op Value} (hop : op.spares i) {r : Called E} (h : s.call S fuel op = .ok r) :
    s.Undisturbed r.session i c := by
  have hi := hs.cursor_ne_none
  have hc := hs.opened
  have hreturning : ∀ {x : Except Halt (Reader E × ConstCursor E)} {ev : Event},
      (∀ w d, x = .ok (w, d) → E.Apart c s.writer.m_txn w.m_txn ∧ d.m_cursor ≠ some c) →
      s.returning x ev = .ok r → s.Undisturbed r.session i c := by
    intro x ev hx h
    obtain ⟨⟨w, d⟩, hw, h⟩ := bind_eq_ok.mp h
    cases h
    obtain ⟨hapart, hd⟩ := hx w d hw
    exact undisturbed_append hi hapart hd
  have hreading : ∀ {α : Type} {j : Nat} {read : E.Txn → ConstCursor E → Except Exn α},
      s.reading j read = .ok r → s.Undisturbed r.session i c := by
    intro α j read h
    obtain ⟨d, -, h⟩ := bind_eq_ok.mp h
    split at h
    · cases h
      exact undisturbed_writer (.refl _)
    · cases h
      exact undisturbed_writer (.refl _)
  have hmoving : ∀ {j : Nat} {step : E.Txn → E.Cursor → E.Txn × Bool} {bad : Exn}, j ≠ i →
      (∀ t d, E.Moves d t (step t d).1) →
      s.moving j (fun t d => d.move S step bad t) = .ok r → s.Undisturbed r.session i c := by
    intro j step bad hj hstep h
    obtain ⟨d, hd, h⟩ := bind_eq_ok.mp h
    cases h
    have hdc := hs.owns j d hj (cursor_eq_ok.mp hd)
    obtain ⟨hapart, hsame⟩ := Table.move_apart (S := S) hstep bad s.writer.m_txn hdc
    exact undisturbed_set hj hapart fun hd => hdc (hsame.symm.trans hd)
  cases op with
  | begin => exact hreturning (fun _ _ => Table.search_apart hE hE.toFirst_moves hc) h
  | get key =>
    exact hreturning (fun _ _ => Table.search_apart hE (fun t d => hE.find_moves t d key) hc) h
  | lowerBound key =>
    exact hreturning
      (fun _ _ => Table.search_apart hE (fun t d => hE.lowerBound_moves t d key) hc) h
  | insert | insertValue =>
    exact hreturning (fun _ _ => Table.putWith_apart hE (Table.puts_insert hE) hc) h
  | upsert | upsertValue =>
    exact hreturning (fun _ _ => Table.putWith_apart hE (Table.puts_upsert hE) hc) h
  | update | updateValue =>
    exact hreturning (fun _ _ => Table.putWith_apart hE (Table.puts_update hE) hc) h
  | eraseKey key =>
    obtain ⟨w, hw, h⟩ := bind_eq_ok.mp h
    cases h
    exact undisturbed_writer (Table.eraseKey_apart hE hc hw)
  | clear =>
    obtain ⟨w, hw, h⟩ := bind_eq_ok.mp h
    cases h
    exact undisturbed_writer (Table.clear_apart hE hc hw)
  | empty =>
    obtain ⟨⟨w, b⟩, hw, h⟩ := bind_eq_ok.mp h
    cases h
    exact undisturbed_writer (Table.empty_apart hE hc hw)
  | eraseCursor j =>
    obtain ⟨d, hd, h⟩ := bind_eq_ok.mp h
    obtain ⟨w, hw, h⟩ := bind_eq_ok.mp h
    cases h
    exact undisturbed_writer
      (Table.eraseCursor_apart hE (hs.owns j d hop (cursor_eq_ok.mp hd)) hw)
  | eraseRange j stop =>
    obtain ⟨d, hd, h⟩ := bind_eq_ok.mp h
    obtain ⟨e, -, h⟩ := bind_eq_ok.mp h
    obtain ⟨⟨w, d'⟩, hw, h⟩ := bind_eq_ok.mp h
    cases h
    have hdc := hs.owns j d hop (cursor_eq_ok.mp hd)
    obtain ⟨hapart, hsame⟩ := Table.eraseRange_apart hE hdc hw
    exact undisturbed_set hop hapart (by rwa [hsame])
  | find j stop cond =>
    obtain ⟨d, hd, h⟩ := bind_eq_ok.mp h
    obtain ⟨e, -, h⟩ := bind_eq_ok.mp h
    obtain ⟨⟨w, left, found⟩, hw, h⟩ := bind_eq_ok.mp h
    cases h
    have hdc := hs.owns j d hop (cursor_eq_ok.mp hd)
    obtain ⟨hapart, hleft, hfound⟩ := Table.find_apart hE hdc hw
    have hset : s.Undisturbed ⟨w, s.cursors.set j left⟩ i c := undisturbed_set hop hapart hleft
    have happend : (⟨w, s.cursors.set j left⟩ : Session E).Undisturbed
        ⟨w, s.cursors.set j left ++ [found]⟩ i c :=
      undisturbed_append (by rw [hset.cursor]; exact hi) (.refl _) hfound
    exact ⟨happend.cursor.trans hset.cursor, hset.apart.trans happend.apart,
      happend.owns ∘ hset.owns⟩
  | shift result =>
    cases h
    exact undisturbed_writer (.refl _)
  | key j => exact hreading (show s.reading j (fun t d => d.key S t) = .ok r from h)
  | rawValue j => exact hreading (show s.reading j (fun t d => d.rawValue S t) = .ok r from h)
  | value j => exact hreading (show s.reading j (fun t d => d.value S t) = .ok r from h)
  | next j =>
    exact hmoving hop hE.toNext_moves
      (show s.moving j (fun t d => d.move S E.toNext S.badNext t) = .ok r from h)
  | prev j =>
    exact hmoving hop hE.toPrevious_moves
      (show s.moving j (fun t d => d.move S E.toPrevious S.badPrev t) = .ok r from h)

/-! ## The steps of a scan -/

/-- `operator++` goes to the first key behind the place, or to the end. -/
theorem call_next_scanning (hE : E.Documented) {k : Bytes} (hs : s.Scanning i c (some k))
    {r : Called E} (h : s.call S fuel (.next i) = .ok r) :
    r.thrown = none ∧
      (((E.content s.writer.m_txn).after k = [] ∧ r.session.Scanning i c none) ∨
        ∃ e l, (E.content s.writer.m_txn).after k = e :: l ∧
          r.session.Scanning i c (some e.1) ∧
          ConstCursor.item S r.session.writer.m_txn ⟨false, some c⟩ = .ok e) := by
  cases hs with
  | «at» k hi ho hp hown =>
    obtain ⟨u, hnext, hm, hahead⟩ := ConstCursor.next_from (S := S) hE ho hp
    obtain ⟨d, hd, h⟩ := bind_eq_ok.mp h
    obtain rfl : (⟨false, some c⟩ : ConstCursor E) = d :=
      Option.some.inj (hi.symm.trans (cursor_eq_ok.mp hd))
    simp only [hnext] at h
    cases h
    have hlt : i < s.cursors.length := by
      by_contra hle
      rw [List.getElem?_eq_none (by omega)] at hi
      cases hi
    have hcursor : (s.cursors.set i ⟨E.eof u c, some c⟩)[i]? = some ⟨E.eof u c, some c⟩ :=
      List.getElem?_set_self hlt
    have hothers : ∀ j d, j ≠ i → (s.cursors.set i ⟨E.eof u c, some c⟩)[j]? = some d →
        d.m_cursor ≠ some c := fun j d hj hd =>
      hown j d hj ((List.getElem?_set_ne (Ne.symm hj)).symm.trans hd)
    refine ⟨rfl, ?_⟩
    generalize hafter : (E.content s.writer.m_txn).after k = l at hahead
    generalize heof : E.eof u c = b at hahead hcursor hothers
    cases hahead with
    | done => exact .inl ⟨rfl, .done hcursor (hm.opened c ho) hothers⟩
    | on c e ho' hp' he' =>
      exact .inr ⟨e, _, rfl, .at e.1 hcursor ho' hp' hothers,
        ConstCursor.item_of_on (ConstCursor.on_of_place hE ho' hp' he')⟩

/-- Erasing what the cursor reads takes it to the place of that entry. -/
theorem call_erase_scanning (hE : E.Documented) (hK : E.Tracking) {k : Bytes}
    (hs : s.Scanning i c (some k)) {e : Bytes × Bytes}
    (he : ConstCursor.item S s.writer.m_txn ⟨false, some c⟩ = .ok e) {r : Called E}
    (h : s.call S fuel (.eraseCursor i) = .ok r) :
    (E.content s.writer.m_txn).ceil k = some e ∧ r.session.Scanning i c (some e.1) ∧
      E.content r.session.writer.m_txn = (E.content s.writer.m_txn).erase e.1 := by
  cases hs with
  | «at» k hi ho hp hown =>
    have hcur : E.current s.writer.m_txn c = some e := by
      cases hc : E.current s.writer.m_txn c with
      | none => simp [ConstCursor.item, hc] at he
      | some f => simpa [ConstCursor.item, hc] using he
    obtain ⟨d, hd, h⟩ := bind_eq_ok.mp h
    obtain rfl : (⟨false, some c⟩ : ConstCursor E) = d :=
      Option.some.inj (hi.symm.trans (cursor_eq_ok.mp hd))
    obtain ⟨w, hw, h⟩ := bind_eq_ok.mp h
    cases h
    obtain ⟨⟨t, b⟩, ht, hw⟩ := bind_eq_ok.mp hw
    rw [noexcept_eq_ok] at ht
    cases hw
    obtain ⟨hframe, hcontent, hplace⟩ := hE.erase_current _ _ _ _ _ _ ht hcur
    refine ⟨?_, .at e.1 hi (hframe.opened c ho) hplace hown, hcontent⟩
    rw [← hK.current_on _ _ _ hp, hcur]

/-- At the end the cursor moves no more. -/
theorem call_next_done (hs : s.Scanning i c none) {r : Called E}
    (h : s.call S fuel (.next i) = .ok r) : r.session.Scanning i c none := by
  cases hs with
  | done hi ho hown =>
    obtain ⟨d, hd, h⟩ := bind_eq_ok.mp h
    obtain rfl : (⟨true, some c⟩ : ConstCursor E) = d :=
      Option.some.inj (hi.symm.trans (cursor_eq_ok.mp hd))
    cases h
    have hsame := set_cursor hi
    refine .done ?_ ho ?_
    · exact (congrArg (·[i]?) hsame).trans hi
    · intro j d hj hd
      exact hown j d hj ((congrArg (·[j]?) hsame).symm.trans hd)

theorem call_erase_done (hs : s.Scanning i c none) {r : Called E}
    (h : s.call S fuel (.eraseCursor i) = .ok r) : r.session.Scanning i c none := by
  cases hs with
  | done hi ho hown =>
    obtain ⟨d, hd, h⟩ := bind_eq_ok.mp h
    obtain rfl : (⟨true, some c⟩ : ConstCursor E) = d :=
      Option.some.inj (hi.symm.trans (cursor_eq_ok.mp hd))
    cases h
    exact .done hi ho hown

/-! ## Whole scans -/

variable (S fuel)

/-- A call that belongs to a scan with the cursor `i`, or does not concern it. Erasing through
the cursor is done while it reads an entry or is at the end. -/
def Scans (i : Nat) (s : Session E) (op : Op Value) : Prop :=
  op.spares i ∨ op = .next i ∨ op = .eraseCursor i ∧
    ∀ d, s.cursors[i]? = some d → d.m_end = true ∨ ∃ e, d.item S s.writer.m_txn = .ok e

/-- The key that the cursor `i` reads, if there is one. -/
def keyAt (s : Session E) (i : Nat) : List Bytes :=
  match s.cursors[i]? with
  | some d =>
    match d.key S s.writer.m_txn with
    | .ok k => [k]
    | .error _ => []
  | none => []

/-- The keys at which `operator++` of the cursor `i` arrives. -/
def arrivals (i : Nat) : Session E → List (Op Value) → List Bytes
  | _, [] => []
  | s, op :: ops =>
    match s.call S fuel op with
    | .error _ => []
    | .ok r =>
      let rest := arrivals i r.session ops
      match op with
      | .next j => if j = i then r.session.keyAt S i ++ rest else rest
      | _ => rest

variable {S fuel}

theorem arrivals_next {ops : List (Op Value)} {r : Called E}
    (h : s.call S fuel (.next i) = .ok r) :
    s.arrivals S fuel i (.next i :: ops) =
      r.session.keyAt S i ++ r.session.arrivals S fuel i ops := by
  simp [arrivals, h]

theorem arrivals_other {op : Op Value} {ops : List (Op Value)} {r : Called E}
    (hop : ∀ j, op = .next j → j ≠ i) (h : s.call S fuel op = .ok r) :
    s.arrivals S fuel i (op :: ops) = r.session.arrivals S fuel i ops := by
  cases op with
  | next j => simp [arrivals, h, hop j rfl]
  | _ => simp [arrivals, h]

theorem next_ne_of_spares {op : Op Value} (h : op.spares i) : ∀ j, op = .next j → j ≠ i := by
  rintro j rfl
  exact h

theorem keyAt_of_item {e : Bytes × Bytes} {d : ConstCursor E} (hd : s.cursors[i]? = some d)
    (h : d.item S s.writer.m_txn = .ok e) : s.keyAt S i = [e.1] := by
  simp [keyAt, hd, ConstCursor.key, h, Except.map]

theorem Scanning.keyAt_done (h : s.Scanning i c none) : s.keyAt S i = [] := by
  cases h with
  | done hi => simp [keyAt, hi, ConstCursor.key, ConstCursor.item, Except.map]

/-- The four things that a call of a scan can do. -/
theorem scan_cases (hE : E.Documented) (hK : E.Tracking) {k : Bytes}
    (hs : s.Scanning i c (some k)) {op : Op Value} (hop : s.Scans S i op) {r : Called E}
    (h : s.call S fuel op = .ok r) (ops : List (Op Value)) :
    (s.arrivals S fuel i (op :: ops) = r.session.arrivals S fuel i ops ∧
      r.session.Scanning i c (some k)) ∨
    (∃ e, s.arrivals S fuel i (op :: ops) = r.session.arrivals S fuel i ops ∧
      r.session.Scanning i c (some e.1) ∧ (E.content s.writer.m_txn).ceil k = some e ∧
      E.content r.session.writer.m_txn = (E.content s.writer.m_txn).erase e.1) ∨
    (∃ e l, s.arrivals S fuel i (op :: ops) = e.1 :: r.session.arrivals S fuel i ops ∧
      r.session.Scanning i c (some e.1) ∧ (E.content s.writer.m_txn).after k = e :: l) ∨
    (s.arrivals S fuel i (op :: ops) = r.session.arrivals S fuel i ops ∧
      r.session.Scanning i c none ∧ (E.content s.writer.m_txn).after k = []) := by
  rcases hop with hop | rfl | ⟨rfl, hreads⟩
  · exact .inl ⟨arrivals_other (next_ne_of_spares hop) h, (call_undisturbed hE hs hop h).scanning hs⟩
  · obtain ⟨-, ⟨hafter, hdone⟩ | ⟨e, l, hafter, hat, hitem⟩⟩ := call_next_scanning hE hs h
    · refine .inr (.inr (.inr ⟨?_, hdone, hafter⟩))
      rw [arrivals_next h, hdone.keyAt_done, List.nil_append]
    · refine .inr (.inr (.inl ⟨e, l, ?_, hat, hafter⟩))
      cases hat with
      | «at» k hi =>
        rw [arrivals_next h, keyAt_of_item hi hitem, List.singleton_append]
  · have hentry : ∃ e, ConstCursor.item S s.writer.m_txn ⟨false, some c⟩ = .ok e := by
      cases hs with
      | «at» k hi => exact (hreads _ hi).resolve_left (by simp)
    obtain ⟨e, he⟩ := hentry
    obtain ⟨hceil, hat, hcontent⟩ := call_erase_scanning hE hK hs he h
    exact .inr (.inl ⟨e, arrivals_other (fun j hj => by cases hj) h, hat, hceil, hcontent⟩)

/-- After the end there is nothing more to come. -/
theorem scan_done (hE : E.Documented) (hs : s.Scanning i c none) {op : Op Value}
    (hop : s.Scans S i op) {r : Called E} (h : s.call S fuel op = .ok r)
    (ops : List (Op Value)) :
    r.session.Scanning i c none ∧
      s.arrivals S fuel i (op :: ops) = r.session.arrivals S fuel i ops := by
  rcases hop with hop | rfl | ⟨rfl, -⟩
  · exact ⟨(call_undisturbed hE hs hop h).scanning hs, arrivals_other (next_ne_of_spares hop) h⟩
  · have hdone := call_next_done hs h
    exact ⟨hdone, by rw [arrivals_next h, hdone.keyAt_done, List.nil_append]⟩
  · exact ⟨call_erase_done hs h, arrivals_other (fun j hj => by cases hj) h⟩

theorem arrivals_done (hE : E.Documented) {ops : List (Op Value)} (hs : s.Scanning i c none)
    (hops : Along (step S fuel) (Scans S i) s ops) (ht : exec (step S fuel) s ops = some t) :
    s.arrivals S fuel i ops = [] := by
  induction ops generalizing s with
  | nil => rfl
  | cons op ops ih =>
    obtain ⟨u, hu, ht⟩ := exec_cons.mp ht
    obtain ⟨r, hr, rfl⟩ := step_eq_some.mp hu
    obtain ⟨hdone, hsame⟩ := scan_done hE hs hops.1 hr ops
    rw [hsame]
    exact ih hdone (hops.2 _ hu) ht

/-- The cursor arrives at greater and greater keys. -/
theorem arrivals_increase (hE : E.Documented) (hK : E.Tracking) {ops : List (Op Value)}
    {k : Bytes} (hs : s.Scanning i c (some k)) (hops : Along (step S fuel) (Scans S i) s ops)
    (ht : exec (step S fuel) s ops = some t) :
    (k :: s.arrivals S fuel i ops).Pairwise (· < ·) := by
  induction ops generalizing s k with
  | nil => exact List.pairwise_singleton _ k
  | cons op ops ih =>
    obtain ⟨u, hu, ht⟩ := exec_cons.mp ht
    obtain ⟨r, hr, rfl⟩ := step_eq_some.mp hu
    have hrest := hops.2 _ hu
    rcases scan_cases hE hK hs hops.1 hr ops with
      ⟨hsame, hat⟩ | ⟨e, hsame, hat, hceil, -⟩ | ⟨e, l, harrive, hat, hafter⟩ | ⟨hsame, hdone, -⟩
    · rw [hsame]
      exact ih hat hrest ht
    · rw [hsame]
      have hle : k ≤ e.1 := (SortedMap.isLeast_ceil hceil).1.1
      obtain ⟨hlt, hpairs⟩ := List.pairwise_cons.mp (ih hat hrest ht)
      exact List.pairwise_cons.mpr ⟨fun j hj => hle.trans_lt (hlt j hj), hpairs⟩
    · rw [harrive]
      have hmem : e ∈ (E.content s.writer.m_txn).after k := by rw [hafter]; simp
      have hlt : k < e.1 := (SortedMap.mem_after.mp hmem).2
      have hpairs := ih hat hrest ht
      refine List.pairwise_cons.mpr ⟨fun j hj => ?_, hpairs⟩
      rcases List.mem_cons.mp hj with rfl | hj
      · exact hlt
      · exact hlt.trans ((List.pairwise_cons.mp hpairs).1 j hj)
    · rw [hsame, arrivals_done hE hdone hrest ht]
      exact List.pairwise_singleton _ k

/-- The key is in the table before, between and after the calls. -/
def Stays (S : Schema Value) (fuel : Nat) (s : Session E) (ops : List (Op Value)) (j : Bytes) :
    Prop :=
  ∀ bs u, bs <+: ops → exec (step S fuel) s bs = some u →
    ((E.content u.writer.m_txn).lookup j).isSome

theorem Stays.head {ops : List (Op Value)} {j : Bytes} (h : Stays S fuel s ops j) :
    ∃ v, (j, v) ∈ (E.content s.writer.m_txn).entries := by
  obtain ⟨v, hv⟩ := Option.isSome_iff_exists.mp (h [] s List.nil_prefix rfl)
  exact ⟨v, SortedMap.lookup_eq_some.mp hv⟩

theorem Stays.tail {op : Op Value} {ops : List (Op Value)} {j : Bytes} {u : Session E}
    (h : Stays S fuel s (op :: ops) j) (hu : s.step S fuel op = some u) : Stays S fuel u ops j :=
  fun bs v hbs hv => h (op :: bs) v (List.prefix_cons_inj op |>.mpr hbs)
    (exec_cons.mpr ⟨u, hu, hv⟩)

/-- A scan that has come to its end has been at every key that was always there. -/
theorem arrivals_complete (hE : E.Documented) (hK : E.Tracking) {ops : List (Op Value)}
    {k j : Bytes} (hs : s.Scanning i c (some k)) (hops : Along (step S fuel) (Scans S i) s ops)
    (ht : exec (step S fuel) s ops = some t) {d : ConstCursor E} (hd : t.cursors[i]? = some d)
    (hend : d.m_end = true) (hkj : k ≤ j) (hj : Stays S fuel s ops j) :
    j ∈ k :: s.arrivals S fuel i ops := by
  induction ops generalizing s k with
  | nil =>
    cases ht
    cases hs with
    | «at» k hi =>
      rw [hi] at hd
      cases hd
      cases hend
  | cons op ops ih =>
    obtain ⟨u, hu, ht⟩ := exec_cons.mp ht
    obtain ⟨r, hr, rfl⟩ := step_eq_some.mp hu
    have hrest := hops.2 _ hu
    have hjrest := hj.tail hu
    obtain ⟨v, hv⟩ := hj.head
    rcases scan_cases hE hK hs hops.1 hr ops with
      ⟨hsame, hat⟩ | ⟨e, hsame, hat, hceil, hcontent⟩ | ⟨e, l, harrive, hat, hafter⟩ |
        ⟨hsame, hdone, hafter⟩
    · rw [hsame]
      exact ih hat hrest ht hkj hjrest
    · -- The erased entry was the first one from the place on, and `j` is still there.
      have hle : e.1 ≤ j := (SortedMap.isLeast_ceil hceil).2
        ⟨hkj, by rw [SortedMap.lookup_eq_some.mpr hv]; rfl⟩
      obtain ⟨w, hw⟩ := hjrest.head
      rw [hcontent, SortedMap.mem_erase] at hw
      rcases List.mem_cons.mp (ih hat hrest ht hle hjrest) with heq | hmem
      · exact absurd heq hw.2
      · rw [hsame]
        exact List.mem_cons_of_mem _ hmem
    · rw [harrive]
      rcases hkj.eq_or_lt with rfl | hlt
      · exact List.mem_cons_self ..
      · have hmem : (j, v) ∈ e :: l := hafter ▸ SortedMap.mem_after.mpr ⟨hv, hlt⟩
        have hle : e.1 ≤ j := by
          have hsorted : (e :: l).Pairwise (·.1 < ·.1) :=
            hafter ▸ (E.content s.writer.m_txn).sorted.filter _
          rcases List.mem_cons.mp hmem with heq | hmem
          · rw [← heq]
          · exact ((List.pairwise_cons.mp hsorted).1 _ hmem).le
        exact List.mem_cons_of_mem _ (ih hat hrest ht hle hjrest)
    · rcases hkj.eq_or_lt with rfl | hlt
      · exact List.mem_cons_self ..
      · have hmem : (j, v) ∈ (E.content s.writer.m_txn).after k :=
          SortedMap.mem_after.mpr ⟨hv, hlt⟩
        rw [hafter] at hmem
        cases hmem

/-- The cursor is on the way or at the end after every part of the scan. -/
theorem scanning_exec (hE : E.Documented) (hK : E.Tracking) {ops : List (Op Value)}
    {k : Option Bytes} (hs : s.Scanning i c k) (hops : Along (step S fuel) (Scans S i) s ops)
    (ht : exec (step S fuel) s ops = some t) : ∃ k', t.Scanning i c k' := by
  induction ops generalizing s k with
  | nil =>
    cases ht
    exact ⟨k, hs⟩
  | cons op ops ih =>
    obtain ⟨u, hu, ht⟩ := exec_cons.mp ht
    obtain ⟨r, hr, rfl⟩ := step_eq_some.mp hu
    have hrest := hops.2 _ hu
    cases k with
    | none => exact ih (scan_done hE hs hops.1 hr ops).1 hrest ht
    | some k =>
      rcases scan_cases hE hK hs hops.1 hr ops with
        ⟨-, hat⟩ | ⟨e, -, hat, -⟩ | ⟨e, l, -, hat, -⟩ | ⟨-, hdone, -⟩
      · exact ih hat hrest ht
      · exact ih hat hrest ht
      · exact ih hat hrest ht
      · exact ih hdone hrest ht

end Session

/-- A scan of a table that changes. A cursor starts on the key `k`; from then on the scope moves
it with `operator++`, erases entries through it, and does anything else that does not name it.

* `operator++` never throws before the cursor is at the end;
* it arrives at greater and greater keys;
* when the cursor is at the end, it has been at every key from `k` on that was in the table
  all the time. -/
theorem live_scan_complete {E : Mdbx} {Value : Type} {S : Schema Value} (hE : E.Documented)
    (hK : E.Tracking) {fuel : Nat} {s t : Session E} {i : Nat} {c : E.Cursor} {k : Bytes}
    (hs : s.Scanning i c (some k)) {ops : List (Op Value)}
    (hops : Along (Session.step S fuel) (Session.Scans S i) s ops)
    (ht : exec (Session.step S fuel) s ops = some t) :
    (∀ bs u r, bs <+: ops → exec (Session.step S fuel) s bs = some u →
      u.call S fuel (.next i) = .ok r →
        r.thrown = none ∨ ∃ d, u.cursors[i]? = some d ∧ d.m_end = true) ∧
    (k :: s.arrivals S fuel i ops).Pairwise (· < ·) ∧
    ((∃ d, t.cursors[i]? = some d ∧ d.m_end = true) → ∀ j, k ≤ j →
      Session.Stays S fuel s ops j → j ∈ k :: s.arrivals S fuel i ops) := by
  refine ⟨?_, Session.arrivals_increase hE hK hs hops ht, ?_⟩
  · rintro bs u r ⟨rest, rfl⟩ hu hr
    obtain ⟨k', hk'⟩ := Session.scanning_exec hE hK hs hops.front hu
    cases k' with
    | none =>
      cases hk' with
      | done hi => exact .inr ⟨_, hi, rfl⟩
    | some k' => exact .inl (Session.call_next_scanning hE hk' hr).1
  · rintro ⟨d, hd, hend⟩ j hkj hj
    exact Session.arrivals_complete hE hK hs hops ht hd hend hkj hj

/-- A scope with a cursor on the smaller one of two entries. -/
def firstOfTwo : Session Reference.engine :=
  ⟨{ twoEntryWriter with m_txn := { twoEntryWriter.m_txn with places := fun _ => .on [1] } },
    [⟨false, some (0 : Nat)⟩]⟩

/-- The entry is erased through the cursor; the scan goes on while another one is inserted and
a third one is stored anew. -/
def eraseAndInsert : List (Op Bytes) :=
  [.eraseCursor 0, .insert [3] [3], .next 0, .get [9], .upsert [2] [9], .next 0, .next 0]

theorem live_scan_complete_erase_and_insert :
    ∃ t, exec (Session.step rawSchema 1) firstOfTwo eraseAndInsert = some t ∧
      firstOfTwo.arrivals rawSchema 1 0 eraseAndInsert = [[2], [3]] ∧
      ([1] :: firstOfTwo.arrivals rawSchema 1 0 eraseAndInsert).Pairwise (· < ·) ∧
      [2] ∈ [1] :: firstOfTwo.arrivals rawSchema 1 0 eraseAndInsert := by
  obtain ⟨t, ht, hend⟩ : ∃ t, exec (Session.step rawSchema 1) firstOfTwo eraseAndInsert = some t ∧
      t.cursors[0]? = some ⟨true, some (0 : Nat)⟩ := ⟨_, rfl, rfl⟩
  have hs : firstOfTwo.Scanning 0 (0 : Nat) (some [1]) := by
    refine .at [1] rfl (show 0 < 1 by decide) rfl ?_
    intro j d hj hd
    match j with
    | 0 => exact absurd rfl hj
    | j + 1 => cases hd
  have hops : Along (Session.step rawSchema 1) (Session.Scans rawSchema 0) firstOfTwo
      eraseAndInsert := by
    refine ⟨.inr (.inr ⟨rfl, ?_⟩), fun u _ => along_of_mem ?_ u⟩
    · intro d hd
      cases hd
      exact .inr ⟨([1], [1]), rfl⟩
    · intro op hop u
      simp only [List.mem_cons, List.not_mem_nil, or_false] at hop
      rcases hop with rfl | rfl | rfl | rfl | rfl | rfl
      · exact .inl trivial
      · exact .inr (.inl rfl)
      · exact .inl trivial
      · exact .inl trivial
      · exact .inr (.inl rfl)
      · exact .inr (.inl rfl)
  have hstays : Session.Stays rawSchema 1 firstOfTwo eraseAndInsert [2] := by
    intro bs u hbs hu
    rw [← List.mem_inits] at hbs
    simp only [eraseAndInsert, List.inits, List.map, List.mem_cons, List.not_mem_nil,
      or_false] at hbs
    rcases hbs with rfl | rfl | rfl | rfl | rfl | rfl | rfl | rfl
    all_goals cases hu; rfl
  obtain ⟨-, hincrease, hcomplete⟩ :=
    live_scan_complete Reference.documented Reference.tracking hs hops ht
  exact ⟨t, ht, rfl, hincrease, hcomplete ⟨_, hend, rfl⟩ [2] (by decide) hstays⟩

end Zatestil.Database
