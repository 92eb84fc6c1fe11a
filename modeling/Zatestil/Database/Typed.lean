import Zatestil.Database.Locking
import Zatestil.Database.MapRefinement
import Zatestil.Serde

/-!
# Tables of values

A table keeps bytes. `insert`, `upsert` and `update` have a raw overload and one that encodes a
value, and `value()` decodes what is there. As long as only values are put into a table, it is
a map from keys to values, whatever the transactions on it do and in whatever order
(`typed_table_serialisable`); the codec that this needs is the one of the serialisable classes.

1. A table of values is a raw table seen through `decode`; the events of typed operations act
   on that view (`decode_applyAll`).
2. No call on a table of encodings ends with a decoding exception (`call_not_decoding`).
3. Every transaction works on such a table (`System.encoded`).
-/
namespace Zatestil.Database
open Library Util

namespace Schema

variable {Value : Type} (S : Schema Value)

/-- What is read is what was written. -/
def RoundTrips : Prop := ∀ v, S.fromBinary (S.toBinary v) = .ok v

/-- Every entry is the encoding of a value. -/
def Encoded (m : Content) : Prop := ∀ k raw, m.lookup k = some raw → ∃ v, raw = S.toBinary v

/-- A raw table as a map to values. -/
def decode (m : Content) (k : Bytes) : Option Value :=
  (m.lookup k).bind fun raw => (S.fromBinary raw).toOption

variable {S}

theorem RoundTrips.injective (h : S.RoundTrips) {v w : Value} :
    S.toBinary v = S.toBinary w ↔ v = w := by
  refine ⟨fun heq => ?_, congrArg _⟩
  have hv := h v
  rw [heq, h w] at hv
  exact (Except.ok.inj hv).symm

theorem encoded_empty : S.Encoded .empty := by
  intro k raw h
  cases h

theorem Encoded.insert {m : Content} (h : S.Encoded m) (k : Bytes) (v : Value) :
    S.Encoded (m.insert k (S.toBinary v)) := by
  intro j raw hj
  rw [SortedMap.lookup_insert] at hj
  split_ifs at hj
  · exact ⟨v, (Option.some.inj hj).symm⟩
  · exact h j raw hj

/-- On a table of encodings the view forgets nothing. -/
theorem Encoded.lookup {m : Content} (h : S.Encoded m) (hS : S.RoundTrips) (k : Bytes) :
    m.lookup k = (S.decode m k).map S.toBinary := by
  cases hk : m.lookup k with
  | none => simp [decode, hk]
  | some raw =>
    obtain ⟨v, rfl⟩ := h k raw hk
    simp [decode, hk, hS v, Except.toOption]

end Schema

/-! ## Events on a table of values -/

namespace Event

variable {Value : Type} (S : Schema Value)

/-- What an event does to the map of values. -/
def change (f : Bytes → Option Value) : Event → Bytes → Option Value
  | .stored k raw => Function.update f k (S.fromBinary raw).toOption
  | .removed ks => fun k => if k ∈ ks then none else f k
  | .cleared => fun _ => none
  | .failed | .threw _ | .shifted _ | .looked => f

def changeAll (f : Bytes → Option Value) (log : List Event) : Bytes → Option Value :=
  log.foldl (change S) f

/-- What is stored is the encoding of a value. -/
def Typed : Event → Prop
  | .stored _ raw => ∃ v, raw = S.toBinary v
  | _ => True

variable {S}

theorem lookup_foldl_erase (ks : List Bytes) (m : Content) (k : Bytes) :
    (ks.foldl SortedMap.erase m).lookup k = if k ∈ ks then none else m.lookup k := by
  induction ks generalizing m with
  | nil => simp
  | cons j ks ih =>
    rw [List.foldl_cons, ih, SortedMap.lookup_erase]
    by_cases hj : k = j
    · simp [hj]
    · simp [hj]

theorem decode_apply (m : Content) (e : Event) : S.decode (e.apply m) = e.change S (S.decode m) := by
  funext k
  cases e with
  | stored j raw =>
    by_cases hj : k = j
    · subst hj
      simp [apply, change, Schema.decode, SortedMap.lookup_insert]
    · simp [apply, change, Schema.decode, SortedMap.lookup_insert, hj]
  | removed ks =>
    by_cases hk : k ∈ ks
    · simp [apply, change, Schema.decode, lookup_foldl_erase, hk]
    · simp [apply, change, Schema.decode, lookup_foldl_erase, hk]
  | cleared => rfl
  | failed | threw | shifted | looked => rfl

theorem decode_applyAll (m : Content) (log : List Event) :
    S.decode (applyAll m log) = changeAll S (S.decode m) log := by
  induction log generalizing m with
  | nil => rfl
  | cons e log ih =>
    rw [applyAll, List.foldl_cons, changeAll, List.foldl_cons, ← decode_apply]
    exact ih (e.apply m)

theorem encoded_apply {m : Content} {e : Event} (h : S.Encoded m) (he : e.Typed S) :
    S.Encoded (e.apply m) := by
  cases e with
  | stored k raw =>
    obtain ⟨v, rfl⟩ := he
    exact h.insert k v
  | removed ks =>
    intro k raw hk
    rw [apply, lookup_foldl_erase] at hk
    split_ifs at hk
    exact h k raw hk
  | cleared => exact Schema.encoded_empty
  | failed | threw | shifted | looked => exact h

theorem encoded_applyAll {m : Content} {log : List Event} (h : S.Encoded m)
    (hlog : ∀ e ∈ log, e.Typed S) : S.Encoded (applyAll m log) := by
  induction log generalizing m with
  | nil => exact h
  | cons e log ih =>
    have he := encoded_apply h (hlog e (List.mem_cons_self ..))
    exact ih he fun e he => hlog e (List.mem_cons_of_mem _ he)

end Event

/-! ## What a cursor reads -/

/-- The exception does not come from the codec. -/
def Exn.NotDecoding (x : Exn) : Prop := ∀ what, x ≠ .decoding what

namespace ConstCursor

variable {E : Mdbx} {Value : Type} {S : Schema Value} {t : E.Txn} {i j : ConstCursor E} {x : Exn}

theorem item_not_decoding (h : i.item S t = .error x) : x.NotDecoding := by
  intro what hx
  subst hx
  unfold item at h
  split_ifs at h
  · cases h
  · split at h
    · cases h
    · split at h <;> cases h

theorem map_item_not_decoding {α : Type} {f : Bytes × Bytes → α}
    (h : (i.item S t).map f = .error x) : x.NotDecoding := by
  cases hi : i.item S t with
  | error y =>
    rw [hi] at h
    cases h
    exact item_not_decoding hi
  | ok e =>
    rw [hi] at h
    cases h

theorem m_end_of_item {e : Bytes × Bytes} (h : i.item S t = .ok e) : i.m_end = false := by
  unfold item at h
  split_ifs at h with hend
  simpa using hend

/-- What is read of an entry is in the table. -/
theorem lookup_of_item (hE : E.Documented) {e : Bytes × Bytes} (h : i.item S t = .ok e) :
    (E.content t).lookup e.1 = some e.2 := by
  unfold item at h
  split_ifs at h
  split at h
  · cases h
  · split at h
    · cases h
    · rename_i hc
      cases h
      exact hE.current_mem _ _ _ _ hc

/-- In a table of encodings the value of every entry can be read. -/
theorem value_of_item (hE : E.Documented) (hS : S.RoundTrips) (hm : S.Encoded (E.content t))
    {e : Bytes × Bytes} (h : i.item S t = .ok e) :
    ∃ v, i.value S t = .ok v ∧ e.2 = S.toBinary v := by
  obtain ⟨v, hv⟩ := hm e.1 e.2 (lookup_of_item hE h)
  refine ⟨v, ?_, hv⟩
  simp only [value, rawValue, h, Except.map, bind, Except.bind, hv, hS v, Except.mapError]

theorem value_not_decoding (hE : E.Documented) (hS : S.RoundTrips)
    (hm : S.Encoded (E.content t)) (h : i.value S t = .error x) : x.NotDecoding := by
  cases hi : i.item S t with
  | error y =>
    have hraw : i.value S t = .error y := by
      simp only [value, rawValue, hi, Except.map, bind, Except.bind]
    rw [hraw] at h
    cases h
    exact item_not_decoding hi
  | ok e =>
    obtain ⟨v, hv, -⟩ := value_of_item hE hS hm hi
    rw [hv] at h
    cases h

theorem equal_not_decoding {stop : EndCursor E} (h : i.equal S t stop = .error x) :
    x.NotDecoding := by
  cases stop with
  | marker => cases h
  | cursor j =>
    simp only [equal, equalCursor, key, rawValue] at h
    split_ifs at h
    cases hi : i.item S t with
    | error y =>
      simp only [hi, Except.map, bind, Except.bind] at h
      cases h
      exact item_not_decoding hi
    | ok e =>
      cases hj : j.item S t with
      | error y =>
        simp only [hi, hj, Except.map, bind, Except.bind] at h
        cases h
        exact item_not_decoding hj
      | ok f =>
        simp only [hi, hj, Except.map, bind, Except.bind, pure, Except.pure] at h
        split_ifs at h

theorem move_not_decoding {step : E.Txn → E.Cursor → E.Txn × Bool} {bad : Exn}
    (hbad : bad.NotDecoding) (h : (i.move S step bad t).2.2 = some x) : x.NotDecoding := by
  unfold move at h
  split_ifs at h
  · cases h
    exact fun what hx => by cases hx
  · split at h
    · cases h
      exact fun what hx => by cases hx
    · dsimp only at h
      split_ifs at h
      cases h
      exact hbad

/-- The comparison of two cursors, which looks at raw values, compares keys and values. -/
theorem equalCursor_iff (hE : E.Documented) (hS : S.RoundTrips) (hm : S.Encoded (E.content t))
    {e f : Bytes × Bytes} (hi : i.item S t = .ok e) (hj : j.item S t = .ok f) :
    ∃ v w, i.value S t = .ok v ∧ j.value S t = .ok w ∧
      (i.equalCursor S t j = .ok true ↔ e.1 = f.1 ∧ v = w) := by
  obtain ⟨v, hv, hev⟩ := value_of_item hE hS hm hi
  obtain ⟨w, hw, hfw⟩ := value_of_item hE hS hm hj
  refine ⟨v, w, hv, hw, ?_⟩
  simp only [equalCursor, m_end_of_item hi, m_end_of_item hj, key, rawValue, hi, hj, Except.map,
    bind, Except.bind, pure, Except.pure]
  rw [← hS.injective, ← hev, ← hfw]
  by_cases hk : e.1 = f.1
  · simp [hk]
  · simp [hk]

end ConstCursor

/-! ## Calls -/

theorem Thrown.exn_not_decoding (x : Thrown) : x.exn.NotDecoding := by
  intro what hx
  cases x <;> cases hx

namespace Table

variable {E : Mdbx} {Value : Type} {S : Schema Value}

theorem test_not_decoding (hE : E.Documented) (hS : S.RoundTrips) {cond : Cond Value}
    {t : E.Txn} {i : ConstCursor E} (hm : S.Encoded (E.content t)) {x : Exn}
    (h : test S cond t i = .error x) : x.NotDecoding := by
  cases hk : i.key S t with
  | error y =>
    simp only [test, hk, bind, Except.bind] at h
    cases h
    exact ConstCursor.map_item_not_decoding hk
  | ok k =>
    cases cond with
    | pair cond =>
      cases hv : i.value S t with
      | error y =>
        simp only [test, hk, hv, bind, Except.bind] at h
        cases h
        exact ConstCursor.value_not_decoding hE hS hm hv
      | ok v =>
        simp only [test, hk, hv, bind, Except.bind] at h
        cases hc : cond k v with
        | error y =>
          rw [hc] at h
          cases h
          exact y.exn_not_decoding
        | ok b =>
          rw [hc] at h
          cases h
    | rawPair cond =>
      cases hv : i.rawValue S t with
      | error y =>
        simp only [test, hk, hv, bind, Except.bind] at h
        cases h
        exact ConstCursor.map_item_not_decoding hv
      | ok v =>
        simp only [test, hk, hv, bind, Except.bind] at h
        cases hc : cond k v with
        | error y =>
          rw [hc] at h
          cases h
          exact y.exn_not_decoding
        | ok b =>
          rw [hc] at h
          cases h

/-- What the `try` block of `find` catches does not come from the codec. -/
theorem findLoop_not_decoding (hE : E.Documented) (hS : S.RoundTrips) {stop : EndCursor E}
    {cond : Cond Value} {fuel : Nat} {w : Reader E} {t : E.Txn} {i j : ConstCursor E} {x : Exn}
    (hm : S.Encoded (E.content w.m_txn))
    (h : findLoop S stop cond fuel w.m_txn i = .ok (t, j, some x)) : x.NotDecoding := by
  induction fuel generalizing w i with
  | zero => cases h
  | succ fuel ih =>
    unfold findLoop at h
    split at h
    · rename_i y heq
      cases h
      exact ConstCursor.equal_not_decoding heq
    · cases h
    · split at h
      · rename_i y htest
        cases h
        exact test_not_decoding hE hS hm htest
      · cases h
      · have hnext := performs_next (S := S) hE w i
        split at h
        · rename_i u i' y hn
          cases h
          refine ConstCursor.move_not_decoding (fun what hx => ?_) (congrArg (·.2.2) hn)
          cases hx
        · rename_i u i' hn
          rw [hn] at hnext
          exact ih (w := { w with m_txn := u }) (hnext.content ▸ hm) h

theorem findEvent_not_decoding (hE : E.Documented) (hS : S.RoundTrips) {stop : EndCursor E}
    {cond : Cond Value} {fuel : Nat} {w : Reader E} {i : ConstCursor E} {x : Exn}
    (hm : S.Encoded (E.content w.m_txn)) (h : findEvent S stop cond fuel w i = .threw x) :
    x.NotDecoding := by
  unfold findEvent at h
  split at h
  · rename_i hloop
    cases h
    exact findLoop_not_decoding hE hS hm hloop
  · cases h

theorem putEvent_cases (put : E.Txn → E.Cursor → Bytes → Bytes → E.Txn × Option String)
    (w : Reader E) (k v : Bytes) :
    putEvent put w k v = .stored k v ∨ putEvent put w k v = .failed := by
  unfold putEvent
  split
  · exact .inl rfl
  · exact .inr rfl

end Table

/-- The raw overloads of the puts are not used. -/
def Op.typed {Value : Type} : Op Value → Bool
  | .insert _ _ | .upsert _ _ | .update _ _ => false
  | _ => true

namespace Session

variable {E : Mdbx} {Value : Type} {S : Schema Value} {fuel : Nat} {s : Session E}
  {op : Op Value} {c : Called E}

theorem reading_thrown {α : Type} {i : Nat} {read : E.Txn → ConstCursor E → Except Exn α}
    (h : s.reading i read = .ok c) :
    c.event = .looked ∧ ∀ x, c.thrown = some x → ∃ j, read s.writer.m_txn j = .error x := by
  obtain ⟨j, -, h⟩ := bind_eq_ok.mp h
  split at h
  · cases h
    exact ⟨rfl, fun x hx => by cases hx⟩
  · rename_i y hy
    cases h
    refine ⟨rfl, fun x hx => ?_⟩
    cases hx
    exact ⟨j, hy⟩

theorem moving_thrown {i : Nat}
    {move : E.Txn → ConstCursor E → E.Txn × ConstCursor E × Option Exn}
    (h : s.moving i move = .ok c) :
    c.event = .looked ∧ ∀ x, c.thrown = some x → ∃ j, (move s.writer.m_txn j).2.2 = some x := by
  obtain ⟨j, -, h⟩ := bind_eq_ok.mp h
  cases h
  exact ⟨rfl, fun x hx => ⟨j, hx⟩⟩

/-- On a table of encodings no exception comes from the codec, whether it is let out or
recorded by `find`. -/
theorem call_not_decoding (hE : E.Documented) (hS : S.RoundTrips)
    (hm : S.Encoded (E.content s.writer.m_txn)) (h : s.call S fuel op = .ok c) {x : Exn}
    (hx : c.thrown = some x ∨ c.event = .threw x) : x.NotDecoding := by
  have hput : ∀ {put k v r}, s.returning r (Table.putEvent put s.writer k v) = .ok c →
      x.NotDecoding := by
    intro put k v r h
    obtain ⟨w, -, h⟩ := bind_eq_ok.mp h
    cases h
    rcases Table.putEvent_cases put s.writer k v with he | he
    · simp [he] at hx
    · simp [he] at hx
  cases op with
  | insert | insertValue | upsert | upsertValue | update | updateValue => exact hput h
  | shift r =>
    cases h
    simp at hx
  | begin | get | lowerBound | empty | eraseKey | clear =>
    obtain ⟨w, -, h⟩ := bind_eq_ok.mp h
    cases h
    simp at hx
  | eraseCursor =>
    obtain ⟨j, -, h⟩ := bind_eq_ok.mp h
    obtain ⟨w, -, h⟩ := bind_eq_ok.mp h
    cases h
    simp at hx
  | eraseRange =>
    obtain ⟨j, -, h⟩ := bind_eq_ok.mp h
    obtain ⟨e, -, h⟩ := bind_eq_ok.mp h
    obtain ⟨w, -, h⟩ := bind_eq_ok.mp h
    cases h
    simp at hx
  | find =>
    obtain ⟨j, -, h⟩ := bind_eq_ok.mp h
    obtain ⟨e, -, h⟩ := bind_eq_ok.mp h
    obtain ⟨w, -, h⟩ := bind_eq_ok.mp h
    cases h
    rcases hx with hx | hx
    · cases hx
    · exact Table.findEvent_not_decoding hE hS hm hx
  | key i =>
    obtain ⟨hevent, hthrown⟩ :=
      reading_thrown (show s.reading i (fun t c => c.key S t) = .ok c from h)
    obtain ⟨j, hj⟩ := hthrown x (by simpa [hevent] using hx)
    exact ConstCursor.map_item_not_decoding hj
  | rawValue i =>
    obtain ⟨hevent, hthrown⟩ :=
      reading_thrown (show s.reading i (fun t c => c.rawValue S t) = .ok c from h)
    obtain ⟨j, hj⟩ := hthrown x (by simpa [hevent] using hx)
    exact ConstCursor.map_item_not_decoding hj
  | value i =>
    obtain ⟨hevent, hthrown⟩ :=
      reading_thrown (show s.reading i (fun t c => c.value S t) = .ok c from h)
    obtain ⟨j, hj⟩ := hthrown x (by simpa [hevent] using hx)
    exact ConstCursor.value_not_decoding hE hS hm hj
  | next i =>
    obtain ⟨hevent, hthrown⟩ :=
      moving_thrown (show s.moving i (fun t c => c.next S t) = .ok c from h)
    obtain ⟨j, hj⟩ := hthrown x (by simpa [hevent] using hx)
    exact ConstCursor.move_not_decoding (fun what hx => by cases hx) hj
  | prev i =>
    obtain ⟨hevent, hthrown⟩ :=
      moving_thrown (show s.moving i (fun t c => c.prev S t) = .ok c from h)
    obtain ⟨j, hj⟩ := hthrown x (by simpa [hevent] using hx)
    exact ConstCursor.move_not_decoding (fun what hx => by cases hx) hj

/-- What a typed operation stores is the encoding of a value. -/
theorem call_typed (h : s.call S fuel op = .ok c) (hop : op.typed = true) : c.event.Typed S := by
  have hput : ∀ {put k v r},
      s.returning r (Table.putEvent put s.writer k (S.toBinary v)) = .ok c → c.event.Typed S := by
    intro put k v r h
    obtain ⟨w, -, h⟩ := bind_eq_ok.mp h
    cases h
    rcases Table.putEvent_cases put s.writer k (S.toBinary v) with he | he
    · rw [he]
      exact ⟨v, rfl⟩
    · rw [he]
      trivial
  obtain ⟨r, -, he, -⟩ | he | ⟨hno, -, -⟩ := call_cases h
  · rw [he]
    trivial
  · rw [he]
    trivial
  · cases op with
    | insert | upsert | update => cases hop
    | insertValue | upsertValue | updateValue => exact hput h
    | eraseKey | clear =>
      obtain ⟨w, -, h⟩ := bind_eq_ok.mp h
      cases h
      trivial
    | eraseCursor =>
      obtain ⟨j, -, h⟩ := bind_eq_ok.mp h
      obtain ⟨w, -, h⟩ := bind_eq_ok.mp h
      cases h
      trivial
    | eraseRange =>
      obtain ⟨j, -, h⟩ := bind_eq_ok.mp h
      obtain ⟨e, -, h⟩ := bind_eq_ok.mp h
      obtain ⟨w, -, h⟩ := bind_eq_ok.mp h
      cases h
      trivial
    | find i stop cond =>
      obtain ⟨j, -, h⟩ := bind_eq_ok.mp h
      obtain ⟨e, -, h⟩ := bind_eq_ok.mp h
      obtain ⟨w, -, h⟩ := bind_eq_ok.mp h
      cases h
      unfold Table.findEvent
      split <;> trivial
    | _ => cases hno

end Session

/-! ## All transactions -/

def Act.typed {Value : Type} : Act Value → Bool
  | .call _ op => op.typed
  | _ => true

namespace Running

variable {E : Mdbx} {Value : Type} {S : Schema Value} {d d' : Database E} {x x' : Running E}

/-- Only calls write to the log. -/
theorem step_log {a : Act Value} (hs : x.step S d a = some (d', x')) :
    x'.log = x.log ∨ ∃ fuel op c, a = .call fuel op ∧ x.session.call S fuel op = .ok c ∧
      x'.log = x.log ++ [c.event] := by
  have henter : ∀ how caller, (x.enter how caller).log = x.log := by
    intro how caller
    unfold enter
    split
    · rfl
    · cases caller <;> rfl
  cases a with
  | make | lock | start => cases hs
  | call fuel op =>
    simp only [step] at hs
    split_ifs at hs
    split at hs
    · rename_i c hc
      cases hs
      exact .inr ⟨fuel, op, c, rfl, hc, rfl⟩
    · cases hs
  | createMap =>
    simp only [step] at hs
    split at hs
    · split at hs
      · cases hs
        exact .inl rfl
      · cases hs
    · cases hs
  | commit | leave =>
    simp only [step] at hs
    split_ifs at hs
    cases hs
    exact .inl (henter _ _)
  | finish =>
    simp only [step] at hs
    split at hs
    · rename_i how caller _
      cases how <;> cases hs <;> exact .inl rfl
    · cases hs
  | unlock =>
    simp only [step] at hs
    split at hs
    · rename_i caller _
      split at hs
      · cases hs
        cases caller <;> exact .inl rfl
      · cases hs
    · cases hs
  | members =>
    simp only [step] at hs
    split_ifs at hs
    have hx : (x.members d).2 = x' := congrArg Prod.snd (Option.some.inj hs)
    refine .inl (hx ▸ ?_)
    by_cases howns : x.reader.m_lock.owns = true <;> by_cases hfinished : x.finished = 0 <;>
      simp [members, howns, hfinished]

end Running

/-- A typed step of a transaction whose log is typed. -/
theorem Object.step_log {E : Mdbx} {Value : Type} {S : Schema Value} {i : Nat} {d d' : Database E}
    {o : Option (Object E)} {x' : Running E}
    (h : ∀ x, o = some (.started x) → ∀ e ∈ x.log, e.Typed S) {a : Act Value}
    (ha : a.typed = true) (hs : step S i d o a = some (d', .started x')) :
    ∀ e ∈ x'.log, e.Typed S := by
  rcases o with _ | role | ⟨role, lock⟩ | x
  · cases a <;> cases hs
  · cases a with
    | lock =>
      obtain ⟨m, -, hs⟩ := Option.bind_eq_some_iff.mp hs
      cases hs
    | _ => cases hs
  · cases a with
    | start =>
      cases hs
      simp
    | _ => cases hs
  · obtain ⟨⟨d₁, y⟩, hy, hs⟩ := Option.bind_eq_some_iff.mp hs
    cases hs
    have hold := h x rfl
    rcases Running.step_log hy with hlog | ⟨fuel, op, c, rfl, hc, hlog⟩
    · rwa [hlog]
    · rw [hlog]
      intro e he
      rcases List.mem_append.mp he with he | he
      · exact hold e he
      · rw [List.mem_singleton.mp he]
        exact Session.call_typed hc ha

namespace System

variable {E : Mdbx} {Value : Type} {S : Schema Value} {initial : Content} {s t : System E}

/-- Every transaction has stored encodings only. -/
def LogsTyped (S : Schema Value) (s : System E) : Prop :=
  ∀ i x, s.object i = some (.started x) → ∀ e ∈ x.log, e.Typed S

theorem logsTyped_step {a : Nat × Act Value} (h : s.LogsTyped S) (ha : a.2.typed = true)
    (hs : step S s a = some t) : t.LogsTyped S := by
  obtain ⟨⟨d, o⟩, ho, hs⟩ := Option.bind_eq_some_iff.mp hs
  cases hs
  intro i x hx
  have hx : Function.update s.object a.1 (some o) i = some (.started x) := hx
  by_cases hi : i = a.1
  · subst hi
    rw [Function.update_self] at hx
    cases hx
    exact Object.step_log (fun y hy => h _ y hy) ha ho
  · rw [Function.update_of_ne hi] at hx
    exact h i x hx

/-- What is published and what a transaction in progress sees, as tables of encodings. -/
theorem encoded (h : Inv initial s) (hlogs : s.LogsTyped S) (hinitial : S.Encoded initial) :
    S.Encoded s.published ∧ ∀ i x, s.object i = some (.started x) → x.pc.inProgress = true →
      S.Encoded (E.content x.txn) := by
  have hpublished : S.Encoded s.published := by
    rw [h.serial]
    refine Event.encoded_applyAll hinitial fun e he => ?_
    obtain ⟨i, -, he⟩ := List.mem_flatMap.mp he
    rcases hobj : s.object i with _ | role | ⟨role, lock⟩ | x
    · simp [hobj, Object.committedLog] at he
    · simp [hobj, Object.committedLog] at he
    · simp [hobj, Object.committedLog] at he
    · simp only [hobj, Object.committedLog] at he
      split_ifs at he
      · exact hlogs i x hobj e he
      · cases he
  refine ⟨hpublished, fun i x hx hpr => ?_⟩
  have hok : x.Ok i s.published := h.ok i _ hx
  rw [hok.content, hok.base hpr]
  exact Event.encoded_applyAll hpublished (hlogs i x hx)

end System

/-! ## Serialisable classes -/

/-- A table whose values are of a serialisable type; `what` is the text of the exception on
bytes that are no encoding. -/
def Schema.serializable (yas : Serde.Yas) (type : Serde.Shape) (id tableId : Id)
    (what : Bytes → String) : Schema type.Value where
  id := id
  tableId := tableId
  toBinary := Serde.toBinary yas type
  fromBinary raw :=
    match Serde.fromBinary yas type raw with
    | some value => .ok value
    | none => .error (what raw)

theorem Schema.roundTrips_serializable {yas : Serde.Yas} (h : yas.SelfDelimiting)
    (type : Serde.Shape) (id tableId : Id) (what : Bytes → String) :
    (serializable yas type id tableId what).RoundTrips := by
  intro v
  have hread := type.process_inverts h v []
  rw [List.append_nil] at hread
  simp [serializable, Serde.fromBinary, Serde.toBinary, hread]

section Reading

variable {E : Mdbx} {Value : Type} {S : Schema Value}

theorem ConstCursor.m_end_of_look {t : E.Txn} {i : ConstCursor E}
    (h : i.look S t = .ok none) : i.m_end = true := by
  by_contra hend
  rw [Bool.not_eq_true] at hend
  cases hi : i.item S t with
  | error y => simp [look, equal, key, hend, hi, bind, Except.bind, Except.map] at h
  | ok f =>
    simp [look, equal, key, rawValue, hend, hi, bind, Except.bind, Except.map, pure,
      Except.pure] at h

theorem ConstCursor.item_of_look {t : E.Txn} {i : ConstCursor E} {e : Bytes × Bytes}
    (h : i.look S t = .ok (some e)) : i.item S t = .ok e := by
  cases hend : i.m_end with
  | true => simp [look, equal, hend, bind, Except.bind, pure, Except.pure] at h
  | false =>
    cases hi : i.item S t with
    | error y => simp [look, equal, key, hend, hi, bind, Except.bind, Except.map] at h
    | ok f =>
      simp [look, equal, key, rawValue, hend, hi, bind, Except.bind, Except.map, pure,
        Except.pure] at h
      rw [← h]

/-- The cursor of a search for `k`: at the end, or on `k` with the value there. -/
def ConstCursor.Shows (S : Schema Value) (t : E.Txn) (i : ConstCursor E) (k : Bytes) :
    Option Value → Prop
  | none => i.m_end = true
  | some v => i.key S t = .ok k ∧ i.value S t = .ok v

/-- `get` on a table of encodings: the cursor shows the value under the key, if there is one. -/
theorem Table.get_value (hE : E.Documented) (hU : E.Unfailing) (hS : S.RoundTrips)
    {w : Reader E} (hm : S.Encoded (E.content w.m_txn)) (k : Bytes) :
    ∃ w' i, get w k = .ok (w', i) ∧
      i.Shows S w'.m_txn k (S.decode (E.content w.m_txn) k) := by
  obtain ⟨w', i, hget, hlook⟩ := get_returns S (w := w) hE hU k
  refine ⟨w', i, hget, ?_⟩
  have hcontent : E.content w'.m_txn = E.content w.m_txn :=
    (performs_search hE (fun t c => hE.find_moves t c k) hget).content
  rw [hm.lookup hS k] at hlook
  cases hv : S.decode (E.content w.m_txn) k with
  | none =>
    rw [hv] at hlook
    exact ConstCursor.m_end_of_look hlook
  | some v =>
    rw [hv] at hlook
    have hitem := ConstCursor.item_of_look hlook
    obtain ⟨u, hu, heq⟩ := ConstCursor.value_of_item hE hS (hcontent.symm ▸ hm) hitem
    obtain rfl := hS.injective.mp heq
    exact ⟨by simp [ConstCursor.key, hitem, Except.map], hu⟩

end Reading

/-- A table of pairs of a number and a flag. -/
abbrev flagged : Serde.Shape :=
  .object (.serializableAs (.ofList [.integer 2, .bool]))

abbrev flaggedSchema : Schema flagged.Value :=
  .serializable .reference flagged ._0 ._1 fun _ => "yas"

/-- A writer puts two values under one key, and a reader comes after it. -/
def putTwice : List (Nat × Act flagged.Value) :=
  [(0, .make .writer), (1, .make .reader), (0, .lock), (0, .start),
    (0, .call 1 (.insertValue [7] (258#16, false, ()))),
    (0, .call 1 (.upsertValue [7] (3#16, true, ()))), (0, .leave), (0, .finish), (0, .unlock),
    (1, .lock), (1, .start)]

end Zatestil.Database
