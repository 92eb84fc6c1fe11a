import Zatestil.Database.Table
import Zatestil.Database.Reference

/-!
# What a transaction does

A scope that owns a transaction makes a sequence of table and cursor operations, and the
destructor then commits or aborts. Each operation is summarised by an `Event`: what it did
to the content, and what it did to `m_result`. `Performs` ties an operation to its event.

1. Every table operation performs its event (this file).
2. A sequence performs all its events in order (`Session.run_performs`).
3. The destructor publishes the outcome or nothing (`destruct_published`).
-/
namespace Zatestil.Database
open Library Util

/-! ## Events -/

/-- The outcome of one operation, as far as the content and the result are concerned. -/
inductive Event where
  | stored (key value : Bytes)
  | failed
  | removed (keys : List Bytes)
  | cleared
  | threw (x : Exn)
  | shifted (result : Result)
  | looked
  deriving DecidableEq

namespace Event

def apply (m : Content) : Event → Content
  | .stored k v => m.insert k v
  | .removed ks => ks.foldl SortedMap.erase m
  | .cleared => .empty
  | .failed | .threw _ | .shifted _ | .looked => m

/-- The code of `m_result` after the operation. -/
def code (c : Code) : Event → Code
  | .failed | .threw _ => .error
  | .shifted r => r.code
  | .stored _ _ | .removed _ | .cleared | .looked => c

/-- The content after a sequence of operations: the successful ones, in order. -/
def applyAll (m : Content) (log : List Event) : Content := log.foldl apply m

/-- The code of `m_result` after a sequence of operations on a new transaction. -/
def finalCode (log : List Event) : Code := log.foldl code .success

end Event

namespace Reader

variable {E : Mdbx}

/-- One operation took the transaction from `w` to `w'` with the given event. -/
structure Performs (w : Reader E) (ev : Event) (w' : Reader E) : Prop where
  content : E.content w'.m_txn = ev.apply (E.content w.m_txn)
  code : w'.m_result.code = ev.code w.m_result.code
  readonly : E.isReadonly w'.m_txn = E.isReadonly w.m_txn
  isOpen : w'.m_isOpen = w.m_isOpen
  lock : w'.m_lock = w.m_lock

theorem Performs.live {w w' : Reader E} {ev : Event} (h : w.Performs ev w') (hw : w.Live) :
    w'.Live := ⟨h.isOpen.trans hw.isOpen, by rw [h.lock, hw.owns]⟩

theorem performs_refl (w : Reader E) : w.Performs .looked w := ⟨rfl, rfl, rfl, rfl, rfl⟩

/-- Looking around first does not matter. -/
theorem Performs.after_looking {w u w' : Reader E} {ev : Event} (h : w.Performs .looked u)
    (g : u.Performs ev w') : w.Performs ev w' where
  content := by rw [g.content, h.content]; rfl
  code := by rw [g.code, h.code]; rfl
  readonly := g.readonly.trans h.readonly
  isOpen := g.isOpen.trans h.isOpen
  lock := g.lock.trans h.lock

/-- Moving a native cursor is only looking. -/
theorem performs_moves {w : Reader E} {c : E.Cursor} {t : E.Txn} (h : E.Moves c w.m_txn t) :
    w.Performs .looked { w with m_txn := t } := ⟨h.content, rfl, h.readonly, rfl, rfl⟩

/-- Removing no keys is only looking. -/
theorem performs_removed_nil {w w' : Reader E} (h : w.Performs .looked w') :
    w.Performs (.removed []) w' := ⟨h.content, h.code, h.readonly, h.isOpen, h.lock⟩

/-- A failure that changes no data and is recorded. -/
theorem performs_recordError {w : Reader E} {t : E.Txn} {ev : Event} (what : String)
    (h : w.Performs .looked { w with m_txn := t }) (hev : ev = .failed ∨ ∃ x, ev = .threw x) :
    w.Performs ev (Table.recordError { w with m_txn := t } what) := by
  rcases hev with rfl | ⟨x, rfl⟩
  · exact ⟨h.content, rfl, h.readonly, rfl, rfl⟩
  · exact ⟨h.content, rfl, h.readonly, rfl, rfl⟩

end Reader

/-! ## The table operations -/

namespace Table
open Reader

variable {E : Mdbx} {Value : Type} {S : Schema Value}

theorem openCursor_eq_ok {w w' : Reader E} {c : E.Cursor} :
    openCursor w = .ok (w', c) ↔
      ∃ t, E.openCursor w.m_txn = .ok (t, c) ∧ w' = { w with m_txn := t } := by
  simp only [openCursor, bind_eq_ok, noexcept_eq_ok]
  constructor
  · rintro ⟨⟨t, d⟩, ht, h⟩
    cases h
    exact ⟨t, ht, rfl⟩
  · rintro ⟨t, ht, rfl⟩
    exact ⟨(t, c), ht, rfl⟩

@[simp] theorem make_some (t : E.Txn) (c : E.Cursor) (error : MdbxError) :
    ConstCursor.make t (some c) error =
      .ok ⟨error == .resultTrue || E.eof t c, some c⟩ := by
  cases error <;> rfl

theorem performs_openCursor (hE : E.Documented) {w w' : Reader E} {c : E.Cursor}
    (h : openCursor w = .ok (w', c)) : w.Performs .looked w' := by
  obtain ⟨t, ht, rfl⟩ := openCursor_eq_ok.mp h
  exact performs_moves (hE.openCursor_ok _ _ _ ht).1

theorem search_eq_ok {seek : E.Txn → E.Cursor → E.Txn × Bool} {w w' : Reader E}
    {i : ConstCursor E} :
    search seek w = .ok (w', i) ↔
      ∃ t c, E.openCursor w.m_txn = .ok (t, c) ∧ w' = { w with m_txn := (seek t c).1 } ∧
        i = ⟨!(seek t c).2 || E.eof (seek t c).1 c, some c⟩ := by
  simp only [search, bind_eq_ok, Prod.exists, openCursor_eq_ok, make_some]
  constructor
  · rintro ⟨u, c, ⟨t, ht, rfl⟩, j, hj, h⟩
    cases h
    cases hj
    refine ⟨t, c, ht, rfl, ?_⟩
    cases (seek t c).2 <;> simp [MdbxError.ofResult]
  · rintro ⟨t, c, ht, rfl, rfl⟩
    refine ⟨_, c, ⟨t, ht, rfl⟩, _, rfl, ?_⟩
    cases (seek t c).2 <;> simp [MdbxError.ofResult, pure, Except.pure]

theorem performs_search (hE : E.Documented) {seek : E.Txn → E.Cursor → E.Txn × Bool}
    (hseek : ∀ t c, E.Moves c t (seek t c).1) {w w' : Reader E} {i : ConstCursor E}
    (h : search seek w = .ok (w', i)) : w.Performs .looked w' := by
  obtain ⟨t, c, ht, rfl, rfl⟩ := search_eq_ok.mp h
  exact (performs_moves (hE.openCursor_ok _ _ _ ht).1).after_looking
    (performs_moves (w := { w with m_txn := t }) (hseek t c))

theorem performs_empty (hE : E.Documented) {w w' : Reader E} {b : Bool}
    (h : empty S w = .ok (w', b)) : w.Performs .looked w' := by
  obtain ⟨⟨u, i⟩, hu, h⟩ := bind_eq_ok.mp h
  obtain ⟨_, _, h⟩ := bind_eq_ok.mp h
  cases h
  exact performs_search hE hE.toFirst_moves hu

/-- The key that an erase through the cursor removes, if there is one. -/
def keyUnder (w : Reader E) (i : ConstCursor E) : List Bytes :=
  if i.m_end then []
  else match i.m_cursor with
    | none => []
    | some c => ((E.current w.m_txn c).map (·.1)).toList

theorem performs_eraseCursor (hE : E.Documented) {w w' : Reader E} {i : ConstCursor E}
    (h : eraseCursor w i = .ok w') : w.Performs (.removed (keyUnder w i)) w' := by
  unfold eraseCursor at h
  unfold keyUnder
  split at h
  · cases h
    simpa [*] using performs_removed_nil (performs_refl _)
  · split at h
    · cases h
    · rename_i c hc
      obtain ⟨⟨t, b⟩, ht, h⟩ := bind_eq_ok.mp h
      rw [noexcept_eq_ok] at ht
      cases h
      cases he : E.current w.m_txn c with
      | none =>
        have hm := performs_moves (hE.erase_nothing _ _ _ _ ht he)
        simpa [*] using performs_removed_nil hm
      | some e =>
        obtain ⟨hf, hcontent, -⟩ := hE.erase_current _ _ _ _ _ _ ht he
        simpa [*] using
          (⟨hcontent, rfl, hf.readonly, rfl, rfl⟩ :
            w.Performs (.removed [e.1]) { w with m_txn := t })

theorem performs_eraseKey (hE : E.Documented) {w w' : Reader E} {k : Bytes}
    (h : eraseKey w k = .ok w') :
    w.Performs (.removed (if ((E.content w.m_txn).lookup k).isSome then [k] else [])) w' := by
  obtain ⟨⟨u, c⟩, hu, h⟩ := bind_eq_ok.mp h
  have hlook := performs_openCursor hE hu
  have hfind := performs_moves (hE.find_moves u.m_txn c k)
  have hcontent : E.content u.m_txn = E.content w.m_txn := hlook.content
  have hresult := hE.find_result u.m_txn c k
  rw [hcontent] at hresult
  have hboth := hlook.after_looking hfind
  cases hk : (E.content w.m_txn).lookup k with
  | none =>
    simp only [hresult, hk, Option.isSome_none] at h
    cases h
    exact performs_removed_nil hboth
  | some v =>
    simp only [hresult, hk, Option.isSome_some, if_true, make_some] at h
    have hplace := hE.find_place u.m_txn c k v (by rw [hcontent, hk])
    have hv : (E.content (E.find u.m_txn c k).1).lookup k = some v := by
      rw [(hE.find_moves u.m_txn c k).content, hcontent, hk]
    have heof := hE.eof_on _ _ _ _ hplace hv
    have hcur := hE.current_on _ _ _ _ hplace hv
    have herase := performs_eraseCursor hE h
    have hkey : keyUnder { u with m_txn := (E.find u.m_txn c k).1 }
        ⟨MdbxError.success == .resultTrue || E.eof (E.find u.m_txn c k).1 c, some c⟩ = [k] := by
      simp [keyUnder, heof, hcur]
    rw [hkey] at herase
    exact hboth.after_looking herase

/-! ## Emptying a table

The loop of `clear` stands on the first entry before every turn, so erasing that entry and
stepping to the next greater one keeps the cursor on the first entry of what remains. -/

/-- The cursor stands on the first entry, or at the end of an empty table. -/
inductive AtFirst (t : E.Txn) : ConstCursor E → Prop where
  | done (c : E.Cursor) (h : E.content t = .empty) : AtFirst t ⟨true, some c⟩
  | on (c : E.Cursor) (e : Bytes × Bytes) (h : (E.content t).first = some e)
      (hp : E.place t c = .on e.1) : AtFirst t ⟨false, some c⟩

theorem atFirst_begin (hE : E.Documented) {w w' : Reader E} {i : ConstCursor E}
    (h : begin w = .ok (w', i)) : AtFirst w'.m_txn i := by
  obtain ⟨t, c, ht, rfl, rfl⟩ := search_eq_ok.mp h
  have hcontent := (hE.toFirst_moves t c).content
  have hresult := hE.toFirst_result t c
  cases hf : (E.content t).first with
  | none =>
    simp only [hresult, hf, Option.isSome_none, Bool.not_false, Bool.true_or]
    exact .done c (by rw [hcontent, SortedMap.first_eq_none.mp hf])
  | some e =>
    have hplace := hE.toFirst_place t c e hf
    have hv := SortedMap.lookup_of_first hf
    have heof := hE.eof_on _ _ _ _ hplace (by rw [hcontent, hv])
    simp only [hresult, hf, Option.isSome_some, heof, Bool.not_true, Bool.or_false]
    exact .on c e (by rw [hcontent, hf]) hplace

/-- One turn of the loop of `clear`. -/
theorem atFirst_turn (hE : E.Documented) {w u : Reader E} {c : E.Cursor} {e : Bytes × Bytes}
    (hf : (E.content w.m_txn).first = some e) (hp : E.place w.m_txn c = .on e.1)
    (h : eraseCursor w ⟨false, some c⟩ = .ok u) :
    ∃ t j, ConstCursor.next S u.m_txn ⟨false, some c⟩ = (t, j, none) ∧ AtFirst t j ∧
      E.Moves c u.m_txn t ∧
      (E.content u.m_txn).entries.length + 1 = (E.content w.m_txn).entries.length := by
  have hcur := hE.current_on _ _ _ _ hp (SortedMap.lookup_of_first hf)
  obtain ⟨⟨t, b⟩, ht, h⟩ := bind_eq_ok.mp h
  rw [noexcept_eq_ok] at ht
  cases h
  obtain ⟨-, hcontent, hplace⟩ := hE.erase_current _ _ _ _ _ _ ht hcur
  obtain ⟨hlen, habove⟩ := SortedMap.erase_first hf
  have hmoves := hE.toNext_moves t c
  cases hn : (E.content t).above e.1 with
  | none =>
    obtain ⟨hres, hpast⟩ := hE.toNext_last t c e.1 hplace hn
    have heof := hE.eof_past _ _ hpast
    refine ⟨(E.toNext t c).1, ⟨true, some c⟩, ?_, .done c ?_, hmoves, ?_⟩
    · simp [ConstCursor.next, ConstCursor.move, hres, heof]
    · rw [hmoves.content]
      rw [hcontent, habove, ← hcontent] at hn
      exact SortedMap.first_eq_none.mp hn
    · rw [hcontent, hlen]
  | some f =>
    obtain ⟨hres, hon⟩ := hE.toNext_above t c e.1 f hplace hn
    have hv := SortedMap.lookup_of_above hn
    have heof := hE.eof_on _ _ _ _ hon (by rw [hmoves.content, hv])
    refine ⟨(E.toNext t c).1, ⟨false, some c⟩, ?_, .on c f ?_ hon, hmoves, ?_⟩
    · simp [ConstCursor.next, ConstCursor.move, hres, heof]
    · rw [hmoves.content]
      rwa [hcontent, habove, ← hcontent] at hn
    · rw [hcontent, hlen]

theorem eraseRange_marker_on (fuel : Nat) (w : Reader E) (c : E.Cursor) :
    eraseRange S .marker (fuel + 1) w ⟨false, some c⟩ =
      (eraseCursor w ⟨false, some c⟩ >>= fun u =>
        match ConstCursor.next S u.m_txn ⟨false, some c⟩ with
        | (_, _, some _) => .error .terminate
        | (t, i, none) => eraseRange S .marker fuel { u with m_txn := t } i) := rfl

/-- If the loop of `clear` returns, the table is empty and nothing else has changed. -/
theorem performs_eraseRange_marker (hE : E.Documented) {fuel : Nat} {w w' : Reader E}
    {i i' : ConstCursor E} (hi : AtFirst w.m_txn i)
    (h : eraseRange S .marker fuel w i = .ok (w', i')) : w.Performs .cleared w' := by
  induction fuel generalizing w i with
  | zero => cases h
  | succ fuel ih =>
    cases hi with
    | done c hempty =>
      cases h
      exact ⟨hempty, rfl, rfl, rfl, rfl⟩
    | on c e hf hp =>
      rw [eraseRange_marker_on] at h
      obtain ⟨u, hu, h⟩ := bind_eq_ok.mp h
      obtain ⟨t, j, hnext, hj, hmoves, -⟩ := atFirst_turn (S := S) hE hf hp hu
      simp only [hnext] at h
      have herase := performs_eraseCursor hE hu
      have hrest := ih (w := { u with m_txn := t }) hj h
      exact ⟨hrest.content, hrest.code.trans herase.code,
        (hrest.readonly.trans hmoves.readonly).trans herase.readonly,
        hrest.isOpen.trans herase.isOpen, hrest.lock.trans herase.lock⟩

theorem performs_clear (hE : E.Documented) {fuel : Nat} {w w' : Reader E}
    (h : clear S fuel w = .ok w') : w.Performs .cleared w' := by
  obtain ⟨⟨u, i⟩, hu, h⟩ := bind_eq_ok.mp h
  obtain ⟨⟨w'', i'⟩, hloop, h⟩ := bind_eq_ok.mp h
  cases h
  exact (performs_search hE hE.toFirst_moves hu).after_looking
    (performs_eraseRange_marker hE (atFirst_begin hE hu) hloop)

/-! ## Moving and searching -/

theorem performs_move {step : E.Txn → E.Cursor → E.Txn × Bool}
    (hstep : ∀ t c, E.Moves c t (step t c).1) (bad : Exn) (w : Reader E) (i : ConstCursor E) :
    w.Performs .looked { w with m_txn := (i.move S step bad w.m_txn).1 } := by
  unfold ConstCursor.move
  split
  · exact performs_refl w
  · split
    · exact performs_refl w
    · rename_i c hc
      have h := performs_moves (hstep w.m_txn c)
      dsimp only
      split
      · exact h
      · exact h

theorem performs_next (hE : E.Documented) (w : Reader E) (i : ConstCursor E) :
    w.Performs .looked { w with m_txn := (i.next S w.m_txn).1 } :=
  performs_move hE.toNext_moves S.badNext w i

theorem performs_prev (hE : E.Documented) (w : Reader E) (i : ConstCursor E) :
    w.Performs .looked { w with m_txn := (i.prev S w.m_txn).1 } :=
  performs_move hE.toPrevious_moves S.badPrev w i

theorem performs_findLoop (hE : E.Documented) {stop : EndCursor E} {cond : Cond Value}
    {fuel : Nat} {w : Reader E} {t : E.Txn} {i j : ConstCursor E} {x : Option Exn}
    (h : findLoop S stop cond fuel w.m_txn i = .ok (t, j, x)) :
    w.Performs .looked { w with m_txn := t } := by
  induction fuel generalizing w i with
  | zero => cases h
  | succ fuel ih =>
    unfold findLoop at h
    split at h
    · cases h; exact performs_refl w
    · cases h; exact performs_refl w
    · split at h
      · cases h; exact performs_refl w
      · cases h; exact performs_refl w
      · have hnext := performs_next (S := S) hE w i
        split at h
        · rename_i u i' y hn
          cases h
          rwa [hn] at hnext
        · rename_i u i' hn
          rw [hn] at hnext
          exact hnext.after_looking (ih (w := { w with m_txn := u }) h)

/-- What `find` did: nothing but looking, unless an exception was caught. -/
def findEvent (S : Schema Value) (stop : EndCursor E) (cond : Cond Value) (fuel : Nat)
    (w : Reader E) (i : ConstCursor E) : Event :=
  match findLoop S stop cond fuel w.m_txn i with
  | .ok (_, _, some x) => .threw x
  | _ => .looked

theorem performs_find (hE : E.Documented) {stop : EndCursor E} {cond : Cond Value}
    {fuel : Nat} {w w' : Reader E} {i j found : ConstCursor E}
    (h : find S stop cond fuel w i = .ok (w', j, found)) :
    w.Performs (findEvent S stop cond fuel w i) w' := by
  obtain ⟨⟨t, i', x⟩, hloop, h⟩ := bind_eq_ok.mp h
  have hlook := performs_findLoop hE hloop
  unfold findEvent
  rw [hloop]
  cases x with
  | none =>
    obtain ⟨_, _, h⟩ := bind_eq_ok.mp h
    cases h
    exact hlook
  | some x =>
    dsimp only at h ⊢
    split at h
    · cases h
    · obtain ⟨_, _, h⟩ := bind_eq_ok.mp h
      cases h
      exact performs_recordError _ hlook (.inr ⟨x, rfl⟩)

/-- The keys that the loop of a range erase removes, turn by turn. -/
def rangeKeys (S : Schema Value) (stop : EndCursor E) :
    Nat → Reader E → ConstCursor E → List Bytes
  | 0, _, _ => []
  | fuel + 1, w, i =>
    match i.equal S w.m_txn stop, eraseCursor w i with
    | .ok false, .ok u =>
      let (t, j, _) := i.next S u.m_txn
      keyUnder w i ++ rangeKeys S stop fuel { u with m_txn := t } j
    | _, _ => []

theorem performs_eraseRange (hE : E.Documented) {stop : EndCursor E} {fuel : Nat}
    {w w' : Reader E} {i i' : ConstCursor E}
    (h : eraseRange S stop fuel w i = .ok (w', i')) :
    w.Performs (.removed (rangeKeys S stop fuel w i)) w' := by
  induction fuel generalizing w i with
  | zero => cases h
  | succ fuel ih =>
    obtain ⟨b, hb, h⟩ := bind_eq_ok.mp h
    rw [noexcept_eq_ok] at hb
    cases b with
    | true =>
      cases h
      simpa [rangeKeys, hb] using performs_removed_nil (performs_refl _)
    | false =>
      obtain ⟨u, hu, h⟩ := bind_eq_ok.mp h
      have herase := performs_eraseCursor hE hu
      have hnext := performs_next (S := S) hE u i
      split at h
      · cases h
      · rename_i t j hn
        rw [hn] at hnext
        have hrest := hnext.after_looking (ih (w := { u with m_txn := t }) h)
        simp only [rangeKeys, hb, hu, hn]
        refine ⟨?_, hrest.code.trans herase.code, hrest.readonly.trans herase.readonly,
          hrest.isOpen.trans herase.isOpen, hrest.lock.trans herase.lock⟩
        rw [hrest.content, herase.content]
        simp [Event.apply, List.foldl_append]

/-! ## Puts -/

/-- What the three puts have in common. -/
structure PutLaw (put : E.Txn → E.Cursor → Bytes → Bytes → E.Txn × Option String) : Prop where
  ok : ∀ t c k v, (put t c k v).2 = none → E.isReadonly (put t c k v).1 = E.isReadonly t ∧
    E.content (put t c k v).1 = (E.content t).insert k v
  throws : ∀ t c k v w, (put t c k v).2 = some w → E.Moves c t (put t c k v).1

theorem putLaw_insert (hE : E.Documented) : PutLaw E.insert where
  ok t c k v h := ⟨(hE.insert_ok t c k v h).1.readonly, (hE.insert_ok t c k v h).2.2.1⟩
  throws := hE.insert_throws

theorem putLaw_upsert (hE : E.Documented) : PutLaw E.upsert where
  ok t c k v h := ⟨(hE.upsert_ok t c k v h).1.readonly, (hE.upsert_ok t c k v h).2.1⟩
  throws := hE.upsert_throws

theorem putLaw_update (hE : E.Documented) : PutLaw E.update where
  ok t c k v h := ⟨(hE.update_ok t c k v h).1.readonly, (hE.update_ok t c k v h).2.2.1⟩
  throws := hE.update_throws

/-- What a put did: the entry is stored, or the exception was recorded. -/
def putEvent (put : E.Txn → E.Cursor → Bytes → Bytes → E.Txn × Option String) (w : Reader E)
    (k v : Bytes) : Event :=
  match (putBlock put w.m_txn k v).2.2 with
  | none => .stored k v
  | some _ => .failed

theorem performs_putWith (hE : E.Documented)
    {put : E.Txn → E.Cursor → Bytes → Bytes → E.Txn × Option String} (hput : PutLaw put)
    {w w' : Reader E} {k v : Bytes} {i : ConstCursor E}
    (h : putWith put w k v = .ok (w', i)) : w.Performs (putEvent put w k v) w' := by
  unfold putWith putBlock at h
  unfold putEvent putBlock
  cases ho : E.openCursor w.m_txn with
  | error what =>
    simp only [ho] at h ⊢
    obtain ⟨_, _, h⟩ := bind_eq_ok.mp h
    cases h
    exact performs_recordError what (performs_refl w) (.inl rfl)
  | ok p =>
    obtain ⟨t, c⟩ := p
    have hlook := performs_moves (hE.openCursor_ok _ _ _ ho).1
    simp only [ho] at h ⊢
    cases hp : (put t c k v).2 with
    | none =>
      simp only [hp] at h ⊢
      obtain ⟨_, _, h⟩ := bind_eq_ok.mp h
      cases h
      obtain ⟨hr, hc⟩ := hput.ok t c k v hp
      exact hlook.after_looking ⟨hc, rfl, hr, rfl, rfl⟩
    | some what =>
      simp only [hp] at h ⊢
      obtain ⟨_, _, h⟩ := bind_eq_ok.mp h
      cases h
      exact performs_recordError what
        (hlook.after_looking (performs_moves (w := { w with m_txn := t })
          (hput.throws t c k v what hp))) (.inl rfl)

end Table

end Zatestil.Database
