import Zatestil.Database.Ranges

/-!
# Searching with a predicate

`find` evaluates its predicate on the entries from its first cursor on until it is not `false`
or the end is reached. `firstHit` is that search on a list, and `findLoop_ahead` relates the
loop to it. The cursor returned is rebuilt from the native one, so that its end flag is what
`eof` says; on entries this agrees with the flag that the loop left.

The last section is about end cursors, where the two need not agree.
-/
namespace Zatestil.Database
open Library Util

/-! ## The search on a list -/

/-- How a search ends. -/
inductive Outcome (α ε : Type) where
  | found (a : α)
  | threw (x : ε)
  | missed

namespace Outcome

variable {α ε : Type} [DecidableEq α]

/-- Test the elements in order, up to the element `b` if there is one. -/
def firstHit (p : α → Except ε Bool) (b : Option α) : List α → Outcome α ε
  | [] => .missed
  | a :: l =>
    if some a = b then .missed
    else match p a with
      | .error x => .threw x
      | .ok true => .found a
      | .ok false => firstHit p b l

def thrown : Outcome α ε → Option ε
  | .threw x => some x
  | .found _ | .missed => none

section Ordered

variable {κ : Type} [LinearOrder κ] {key : α → κ} {p : α → Except ε Bool} {b : Option α}
  {l : List α}

/-- The first element on which the test is not `false` decides. -/
theorem firstHit_eq (hl : l.Pairwise (key · < key ·)) {m : α} (hm : m ∈ l)
    (hmb : ∀ f, b = some f → key m < key f)
    (hbefore : ∀ g ∈ l, key g < key m → p g = .ok false) (hpm : p m ≠ .ok false) :
    firstHit p b l = firstHit p none [m] := by
  induction l with
  | nil => cases hm
  | cons a l ih =>
    obtain ⟨hlt, hl⟩ := List.pairwise_cons.mp hl
    rcases List.mem_cons.mp hm with rfl | hm
    · have hne : some m ≠ b := fun h => lt_irrefl _ (hmb m h.symm)
      cases hp : p m with
      | error x => simp [firstHit, hne, hp]
      | ok v =>
        cases v with
        | false => exact absurd hp hpm
        | true => simp [firstHit, hne, hp]
    · have hne : some a ≠ b := fun h => lt_asymm (hlt m hm) (hmb a h.symm)
      have hp := hbefore a (List.mem_cons_self ..) (hlt m hm)
      simp only [firstHit, hne, if_false, hp]
      exact ih hl hm fun g hg => hbefore g (List.mem_cons_of_mem _ hg)

theorem firstHit_missed (hl : l.Pairwise (key · < key ·))
    (hb : ∀ f, b = some f → f ∈ l)
    (hfalse : ∀ g ∈ l, (∀ f, b = some f → key g < key f) → p g = .ok false) :
    firstHit p b l = .missed := by
  induction l with
  | nil => rfl
  | cons a l ih =>
    obtain ⟨hlt, hl⟩ := List.pairwise_cons.mp hl
    by_cases hend : some a = b
    · simp [firstHit, hend]
    · have hlater : ∀ f, b = some f → f ∈ l := by
        intro f hf
        rcases List.mem_cons.mp (hb f hf) with rfl | hmem
        · exact absurd hf.symm hend
        · exact hmem
      have hp := hfalse a (List.mem_cons_self ..) fun f hf => hlt f (hlater f hf)
      simp only [firstHit, hend, if_false, hp]
      exact ih hl hlater fun g hg => hfalse g (List.mem_cons_of_mem _ hg)

end Ordered

end Outcome

/-! ## The loop of `find` -/

namespace Table
open ConstCursor Outcome

variable {E : Mdbx} {Value : Type} {S : Schema Value} {cond : Cond Value}

variable (S) in
/-- What the condition of the loop gives on an entry. -/
def evaluate (cond : Cond Value) (e : Bytes × Bytes) : Except Exn Bool :=
  match cond with
  | .pair cond => do
    let v ← (S.fromBinary e.2).mapError .decoding
    (cond e.1 v).mapError Thrown.exn
  | .rawPair cond => (cond e.1 e.2).mapError Thrown.exn

variable {t : E.Txn} {c : E.Cursor} {i : ConstCursor E} {e : Bytes × Bytes}
  {stop : EndCursor E} {b : Option (Bytes × Bytes)} {l : List (Bytes × Bytes)}

theorem test_on (hi : i.On t e) : test S cond t i = evaluate S cond e := by
  have hitem := item_of_on (S := S) hi
  cases cond <;>
    simp [test, evaluate, key, value, rawValue, hitem, Except.map, bind, Except.bind]

/-- One turn on an entry that is not the end. -/
theorem findLoop_turn (hE : E.Documented) (cond : Cond Value) (hi : i.On t e)
    (hs : StopAt t stop b) (hne : some e ≠ b) (fuel : Nat) :
    findLoop S stop cond (fuel + 1) t i =
      match evaluate S cond e with
      | .error x => .ok (t, i, some x)
      | .ok true => .ok (t, i, none)
      | .ok false =>
        match i.next S t with
        | (t, i, some x) => .ok (t, i, some x)
        | (t, i, none) => findLoop S stop cond fuel t i := by
  have hequal := equal_at (S := S) hE (.on hi) hs
  rw [decide_eq_false hne] at hequal
  cases hhit : evaluate S cond e with
  | error x => simp only [findLoop, hequal, test_on hi, hhit]
  | ok hit =>
    cases hit with
    | true => simp only [findLoop, hequal, test_on hi, hhit]
    | false =>
      rcases hnext : i.next S t with ⟨u, j, _ | x⟩ <;>
        simp only [findLoop, hequal, test_on hi, hhit, hnext]

variable (S) in
/-- The loop from the native cursor `c` ends with the outcome `o`. Its cursor has the flag
that `eof` gives, as at the start. -/
def Finds (stop : EndCursor E) (cond : Cond Value) (fuel : Nat) (t : E.Txn) (c : E.Cursor)
    (b : Option (Bytes × Bytes)) (o : Outcome (Bytes × Bytes) Exn) : Prop :=
  ∃ u, E.Moves c t u ∧ StopAt u stop b ∧
    findLoop S stop cond fuel t ⟨E.eof t c, some c⟩ = .ok (u, ⟨E.eof u c, some c⟩, o.thrown) ∧
    (∀ a, o = .found a → On u a ⟨E.eof u c, some c⟩) ∧
    (o = .missed → At u ⟨E.eof u c, some c⟩ b)

theorem finds_end (hE : E.Documented) (hi : At t ⟨E.eof t c, some c⟩ b)
    (hs : StopAt t stop b) (fuel : Nat) : Finds S stop cond (fuel + 1) t c b .missed := by
  have hequal := equal_at (S := S) hE hi hs
  rw [decide_eq_true rfl] at hequal
  exact ⟨t, Mdbx.Moves.refl E c t, hs, by simp [findLoop, hequal, thrown], by simp, fun _ => hi⟩

/-- A turn of the loop is a turn of the search; it goes on from what is after the place. -/
theorem finds_turn (hE : E.Documented) (hK : E.Tracking) {k : Bytes} {fuel : Nat}
    (hi : On t e ⟨E.eof t c, some c⟩) (hp : E.place t c = .on k) (hs : StopAt t stop b)
    (hne : some e ≠ b)
    (rest : evaluate S cond e = .ok false → ∀ u, E.content u = E.content t →
      Ahead u ⟨E.eof u c, some c⟩ ((E.content t).after k) → StopAt u stop b →
      Finds S stop cond fuel u c b (firstHit (evaluate S cond) b l)) :
    Finds S stop cond (fuel + 1) t c b (firstHit (evaluate S cond) b (e :: l)) := by
  have hturn := findLoop_turn (S := S) hE cond hi hs hne fuel
  simp only [firstHit, hne, if_false]
  cases hv : evaluate S cond e with
  | error x =>
    exact ⟨t, Mdbx.Moves.refl E c t, hs, by simp [hturn, hv, thrown], by simp, by simp⟩
  | ok v =>
    cases v with
    | true =>
      refine ⟨t, Mdbx.Moves.refl E c t, hs, by simp [hturn, hv, thrown], ?_, by simp⟩
      rintro a ⟨⟩
      exact hi
    | false =>
      obtain ⟨ho, heof⟩ : E.opened t c ∧ E.eof t c = false := by
        generalize E.eof t c = f at hi
        cases hi with
        | intro _ ho _ => exact ⟨ho, rfl⟩
      rw [heof] at hi hturn
      obtain ⟨u, hnext, hm, hahead⟩ := next_from (S := S) hE ho hp
      have hstop : StopAt u stop b :=
        stopAt_of_frame hK hi hs hne hm.toFrame fun k f _ hk => by rwa [hm.content]
      obtain ⟨v, hmv, hsv, hloop, hfound, hmissed⟩ := rest hv u hm.content hahead hstop
      refine ⟨v, hm.trans hmv, hsv, ?_, hfound, hmissed⟩
      rw [heof, hturn]
      simpa only [hv, hnext] using hloop

/-- The loop on what is ahead is the search on that list. -/
theorem finds_ahead (hE : E.Documented) (hK : E.Tracking) {fuel : Nat}
    (hi : Ahead t ⟨E.eof t c, some c⟩ l) (hs : StopAt t stop b)
    (hb : ∀ f, b = some f → f ∈ l) (hfuel : l.length < fuel) :
    Finds S stop cond fuel t c b (firstHit (evaluate S cond) b l) := by
  induction fuel generalizing t l with
  | zero => omega
  | succ fuel ih =>
    have hat := at_of_ahead hE hi
    by_cases hend : l.head? = b
    · rw [hend] at hat
      have hmissed : firstHit (evaluate S cond) b l = .missed := by
        cases l with
        | nil => rfl
        | cons a l => simp [firstHit, ← hend]
      rw [hmissed]
      exact finds_end hE hat hs fuel
    · generalize hflag : E.eof t c = flag at hi hat
      cases hi with
      | done c =>
        cases b with
        | none => exact absurd rfl hend
        | some f => exact absurd (hb f rfl) (by simp)
      | on c e ho hp he =>
        have hon : On t e ⟨E.eof t c, some c⟩ := hflag ▸ on_of_place hE ho hp he
        refine finds_turn hE hK hon hp hs hend fun _ u _ hahead hstop => ?_
        exact ih hahead hstop (later_of_ne hb hend) (by simpa using hfuel)

/-- From a cursor on an entry the loop is the search on that entry and what follows. A tracked
cursor tests its entry twice. -/
theorem finds_on (hE : E.Documented) (hK : E.Tracking) (cond : Cond Value) {fuel : Nat}
    (hi : On t e ⟨false, some c⟩) (hs : StopAt t stop b)
    (hb : ∀ f, b = some f → f ∈ e :: (E.content t).after e.1)
    (hfuel : (E.content t).entries.length + 1 < fuel) :
    Finds S stop cond fuel t c b
      (firstHit (evaluate S cond) b (e :: (E.content t).after e.1)) := by
  obtain ⟨fuel, rfl⟩ := Nat.exists_eq_succ_of_ne_zero (Nat.ne_zero_of_lt hfuel)
  have hlen := SortedMap.length_after_lt (mem_of_on hE hi)
  obtain ⟨k, hp, hc⟩ : ∃ k, E.place t c = .on k ∧ (E.content t).ceil k = some e := by
    cases hi with
    | intro _ ho he =>
      obtain ⟨k, hp⟩ := hK.current_place _ _ _ he
      exact ⟨k, hp, (hK.current_on _ _ _ hp).symm.trans he⟩
  have heof : E.eof t c = false := by
    cases hi with
    | intro _ ho he => exact hK.eof_current _ _ _ he
  rw [← heof] at hi
  by_cases hend : some e = b
  · rw [show firstHit _ b _ = .missed by simp [firstHit, hend]]
    exact finds_end hE (hend ▸ .on hi) hs fuel
  · refine finds_turn hE hK hi hp hs hend fun hfalse u hcontent hahead hstop => ?_
    rcases SortedMap.after_of_ceil hc with hk | hk
    · rw [hk] at hahead
      exact finds_ahead hE hK hahead hstop (later_of_ne hb hend) (by omega)
    · rw [hk] at hahead
      have hagain : Finds S stop cond fuel u c b
          (firstHit (evaluate S cond) b (e :: (E.content t).after e.1)) :=
        finds_ahead hE hK hahead hstop hb (by simp only [List.length_cons]; omega)
      simpa only [firstHit, hend, if_false, hfalse] using hagain

/-! ## Two predicates

Predicates that agree on the entries of the range cannot be told apart, whatever the fuel. -/

section Agree

variable {cond' : Cond Value}

theorem findLoop_agree_turn (hE : E.Documented) (hK : E.Tracking) {k : Bytes} {fuel : Nat}
    (hi : On t e ⟨false, some c⟩) (hp : E.place t c = .on k) (hs : StopAt t stop b)
    (hagree : some e ≠ b → evaluate S cond e = evaluate S cond' e)
    (rest : ∀ u, E.content u = E.content t →
      Ahead u ⟨E.eof u c, some c⟩ ((E.content t).after k) → StopAt u stop b → some e ≠ b →
      findLoop S stop cond fuel u ⟨E.eof u c, some c⟩ =
        findLoop S stop cond' fuel u ⟨E.eof u c, some c⟩) :
    findLoop S stop cond (fuel + 1) t ⟨false, some c⟩ =
      findLoop S stop cond' (fuel + 1) t ⟨false, some c⟩ := by
  by_cases hend : some e = b
  · have hequal := equal_at (S := S) hE (.on hi) hs
    rw [decide_eq_true hend] at hequal
    simp [findLoop, hequal]
  · rw [findLoop_turn hE cond hi hs hend, findLoop_turn hE cond' hi hs hend, hagree hend]
    have ho : E.opened t c := by
      cases hi with
      | intro _ ho _ => exact ho
    obtain ⟨u, hnext, hm, hahead⟩ := next_from (S := S) hE ho hp
    have hstop : StopAt u stop b :=
      stopAt_of_frame hK hi hs hend hm.toFrame fun k f _ hk => by rwa [hm.content]
    simp only [hnext, rest u hm.content hahead hstop hend]

theorem findLoop_agree_ahead (hE : E.Documented) (hK : E.Tracking) {fuel : Nat}
    (hi : i.Ahead t l) (hs : StopAt t stop b) (hb : ∀ f, b = some f → f ∈ l)
    (hagree : ∀ g ∈ l, (∀ f, b = some f → g.1 < f.1) → evaluate S cond g = evaluate S cond' g) :
    findLoop S stop cond fuel t i = findLoop S stop cond' fuel t i := by
  induction fuel generalizing t i l with
  | zero => rfl
  | succ fuel ih =>
    cases hi with
    | done c =>
      have hequal := equal_at (S := S) hE (.past c) hs
      cases b with
      | none => simp [findLoop, hequal]
      | some f => exact absurd (hb f rfl) (by simp)
    | on c e ho hp he =>
      refine findLoop_agree_turn hE hK (on_of_place hE ho hp he) hp hs (fun hne => ?_)
        fun u _ hahead hstop hne => ih hahead hstop (later_of_ne hb hne) fun g hg =>
          hagree g (List.mem_cons_of_mem _ hg)
      exact hagree e (List.mem_cons_self ..) fun f hf =>
        (SortedMap.mem_after.mp (later_of_ne hb hne f hf)).2

theorem findLoop_agree_on (hE : E.Documented) (hK : E.Tracking) {fuel : Nat}
    (hi : i.On t e) (hs : StopAt t stop b)
    (hb : ∀ f, b = some f → f ∈ e :: (E.content t).after e.1)
    (hagree : ∀ g ∈ e :: (E.content t).after e.1, (∀ f, b = some f → g.1 < f.1) →
      evaluate S cond g = evaluate S cond' g) :
    findLoop S stop cond fuel t i = findLoop S stop cond' fuel t i := by
  cases fuel with
  | zero => rfl
  | succ fuel =>
    obtain ⟨c, ho, he⟩ := hi
    obtain ⟨k, hp⟩ := hK.current_place _ _ _ he
    have hc : (E.content t).ceil k = some e := (hK.current_on _ _ _ hp).symm.trans he
    refine findLoop_agree_turn hE hK (.intro c ho he) hp hs (fun hne => ?_)
      fun u hcontent hahead hstop hne => ?_
    · exact hagree e (List.mem_cons_self ..) fun f hf =>
        (SortedMap.mem_after.mp (later_of_ne hb hne f hf)).2
    · rcases SortedMap.after_of_ceil hc with hk | hk
      · rw [hk] at hahead
        exact findLoop_agree_ahead hE hK hahead hstop (later_of_ne hb hne) fun g hg =>
          hagree g (List.mem_cons_of_mem _ hg)
      · rw [hk] at hahead
        exact findLoop_agree_ahead hE hK hahead hstop hb hagree

end Agree

/-! ## What `find` returns -/

/-- Without an exception the cursor of the loop is returned as it is. -/
theorem find_of_finds {w : Reader E} {fuel : Nat} {o : Outcome (Bytes × Bytes) Exn}
    (hc : E.eof w.m_txn c = false) (h : Finds S stop cond fuel w.m_txn c b o)
    (ho : o.thrown = none) :
    ∃ u left, find S stop cond fuel w ⟨false, some c⟩ =
        .ok ({ w with m_txn := u }, left, ⟨E.eof u c, some c⟩) ∧ StopAt u stop b ∧
      (∀ a, o = .found a → On u a ⟨E.eof u c, some c⟩) ∧
      (o = .missed → At u ⟨E.eof u c, some c⟩ b) := by
  obtain ⟨u, -, hs, hloop, hfound, hmissed⟩ := h
  rw [hc, ho] at hloop
  refine ⟨u, ⟨E.eof u c, none⟩, ?_, hs, hfound, hmissed⟩
  simp [find, hloop, bind, Except.bind, pure, Except.pure]

/-- An exception is recorded if it is a standard one and else leaves a `noexcept` function. -/
theorem find_of_threw {w : Reader E} {fuel : Nat} {x : Exn} (hc : E.eof w.m_txn c = false)
    (h : Finds S stop cond fuel w.m_txn c b (.threw x)) :
    ∃ u left, find S stop cond fuel w ⟨false, some c⟩ =
      match x.what with
      | some what => .ok (recordError { w with m_txn := u } what, left, ⟨true, some c⟩)
      | none => .error .terminate := by
  obtain ⟨u, -, -, hloop, -⟩ := h
  rw [hc] at hloop
  refine ⟨u, ⟨E.eof u c, none⟩, ?_⟩
  cases hx : x.what with
  | none => simp [find, hloop, thrown, hx, bind, Except.bind]
  | some what => simp [find, hloop, thrown, hx, bind, Except.bind, pure, Except.pure]

end Table

section First
open ConstCursor Table

variable {E : Mdbx} {Value : Type} (S : Schema Value) {w : Reader E} {i : ConstCursor E}
  {c : E.Cursor} {stop : EndCursor E} {e : Bytes × Bytes} {b : Option (Bytes × Bytes)}

/-- The least entry of the range on which the evaluation is not `false` decides. -/
theorem finds_decided (hE : E.Documented) (hK : E.Tracking) (hi : On w.m_txn e ⟨false, some c⟩)
    (hs : StopAt w.m_txn stop b) (hle : ∀ f, b = some f → e.1 ≤ f.1) {fuel : Nat}
    (hfuel : (E.content w.m_txn).entries.length + 1 < fuel) {cond : Cond Value}
    {m : Bytes × Bytes} (hm : m ∈ (E.content w.m_txn).entries) (hrange : InRange (some e) b m.1)
    (hfalse : ∀ g ∈ (E.content w.m_txn).entries, InRange (some e) b g.1 → g.1 < m.1 →
      evaluate S cond g = .ok false) (hne : evaluate S cond m ≠ .ok false) :
    Finds S stop cond fuel w.m_txn c b (.firstHit (evaluate S cond) none [m]) := by
  have hb := mem_ahead_of_stopAt hE hi hs hle
  have hfinds := finds_on (S := S) hE hK cond hi hs hb hfuel
  obtain ⟨hem, hmb⟩ := inRange_iff.mp hrange
  have hml := (SortedMap.mem_cons_after (mem_of_on hE hi)).mpr ⟨hm, hem⟩
  rwa [Outcome.firstHit_eq (SortedMap.pairwise_cons_after _ e) hml hmb ?_ hne] at hfinds
  intro g hg hlt
  obtain ⟨hge, heg⟩ := (SortedMap.mem_cons_after (mem_of_on hE hi)).mp hg
  exact hfalse g hge (inRange_iff.mpr ⟨heg, fun f hf => hlt.trans (hmb f hf)⟩) hlt

theorem find_hit (hE : E.Documented) (hK : E.Tracking) (hi : i.On w.m_txn e)
    (hs : StopAt w.m_txn stop b) (hle : ∀ f, b = some f → e.1 ≤ f.1) {fuel : Nat}
    (hfuel : (E.content w.m_txn).entries.length + 1 < fuel) {cond : Cond Value}
    {m : Bytes × Bytes} (hm : m ∈ (E.content w.m_txn).entries) (hrange : InRange (some e) b m.1)
    (hfalse : ∀ g ∈ (E.content w.m_txn).entries, InRange (some e) b g.1 → g.1 < m.1 →
      evaluate S cond g = .ok false) (htrue : evaluate S cond m = .ok true) :
    ∃ w' left found, find S stop cond fuel w i = .ok (w', left, found) ∧
      found.On w'.m_txn m ∧ w'.m_result = w.m_result := by
  obtain ⟨c, ho, he⟩ := hi
  have hfinds := finds_decided S hE hK (.intro c ho he) hs hle hfuel hm hrange hfalse
    (by simp [htrue])
  simp only [Outcome.firstHit, htrue, reduceCtorEq, if_false] at hfinds
  obtain ⟨u, left, hfind, -, hfound, -⟩ :=
    find_of_finds (hK.eof_current _ _ _ he) hfinds rfl
  exact ⟨_, _, _, hfind, hfound m rfl, rfl⟩

theorem find_throws (hE : E.Documented) (hK : E.Tracking) (hi : i.On w.m_txn e)
    (hs : StopAt w.m_txn stop b) (hle : ∀ f, b = some f → e.1 ≤ f.1) {fuel : Nat}
    (hfuel : (E.content w.m_txn).entries.length + 1 < fuel) {cond : Cond Value}
    {m : Bytes × Bytes} (hm : m ∈ (E.content w.m_txn).entries) (hrange : InRange (some e) b m.1)
    (hfalse : ∀ g ∈ (E.content w.m_txn).entries, InRange (some e) b g.1 → g.1 < m.1 →
      evaluate S cond g = .ok false) {x : Exn} (hx : evaluate S cond m = .error x) :
    (∀ what, x.what = some what →
      ∃ w' left found, find S stop cond fuel w i = .ok (w', left, found) ∧
        found.equal S w'.m_txn .marker = .ok true ∧ w'.m_result = ⟨.error, what⟩) ∧
    (x.what = none → find S stop cond fuel w i = .error .terminate) := by
  obtain ⟨c, ho, he⟩ := hi
  have hfinds := finds_decided S hE hK (.intro c ho he) hs hle hfuel hm hrange hfalse
    (by simp [hx])
  simp only [Outcome.firstHit, hx, reduceCtorEq, if_false] at hfinds
  obtain ⟨u, left, hfind⟩ := find_of_threw (hK.eof_current _ _ _ he) hfinds
  refine ⟨fun what hwhat => ?_, fun hnone => ?_⟩
  · rw [hwhat] at hfind
    exact ⟨_, _, _, hfind, rfl, rfl⟩
  · rwa [hnone] at hfind

theorem find_misses (hE : E.Documented) (hK : E.Tracking) (hi : i.On w.m_txn e)
    (hs : StopAt w.m_txn stop b) (hle : ∀ f, b = some f → e.1 ≤ f.1) {fuel : Nat}
    (hfuel : (E.content w.m_txn).entries.length + 1 < fuel) {cond : Cond Value}
    (hfalse : ∀ g ∈ (E.content w.m_txn).entries, InRange (some e) b g.1 →
      evaluate S cond g = .ok false) :
    ∃ w' left found, find S stop cond fuel w i = .ok (w', left, found) ∧
      found.equal S w'.m_txn stop = .ok true ∧ w'.m_result = w.m_result := by
  have hmem := mem_of_on hE hi
  have hb := mem_ahead_of_stopAt hE hi hs hle
  obtain ⟨c, ho, he⟩ := hi
  have hfinds := finds_on (S := S) hE hK cond (.intro c ho he) hs hb hfuel
  rw [Outcome.firstHit_missed (SortedMap.pairwise_cons_after _ e) hb fun g hg hlt => ?_] at hfinds
  · obtain ⟨u, left, hfind, hsu, -, hmissed⟩ :=
      find_of_finds (hK.eof_current _ _ _ he) hfinds rfl
    refine ⟨_, _, _, hfind, ?_, rfl⟩
    rw [equal_at hE (hmissed rfl) hsu, decide_eq_true rfl]
  · obtain ⟨hge, heg⟩ := (SortedMap.mem_cons_after hmem).mp hg
    exact hfalse g hge (inRange_iff.mpr ⟨heg, hlt⟩)

theorem find_agree (hE : E.Documented) (hK : E.Tracking) (hi : i.On w.m_txn e)
    (hs : StopAt w.m_txn stop b) (hle : ∀ f, b = some f → e.1 ≤ f.1) (fuel : Nat)
    {typed : Bytes → Value → Except Thrown Bool} {raw : Bytes → Bytes → Except Thrown Bool}
    (hagree : ∀ g ∈ (E.content w.m_txn).entries, InRange (some e) b g.1 →
      ∃ v, S.fromBinary g.2 = .ok v ∧ typed g.1 v = raw g.1 g.2) :
    find S stop (.pair typed) fuel w i = find S stop (.rawPair raw) fuel w i := by
  have hloop : findLoop S stop (.pair typed) fuel w.m_txn i =
      findLoop S stop (.rawPair raw) fuel w.m_txn i := by
    refine findLoop_agree_on hE hK hi hs (mem_ahead_of_stopAt hE hi hs hle) fun g hg hlt => ?_
    obtain ⟨hge, heg⟩ := (SortedMap.mem_cons_after (mem_of_on hE hi)).mp hg
    obtain ⟨v, hv, htyped⟩ := hagree g hge (inRange_iff.mpr ⟨heg, hlt⟩)
    simp [evaluate, hv, htyped, Except.mapError, bind, Except.bind]
  simp only [find, hloop]

/-- `find` from a cursor on an entry to an end that is not before it. It returns a cursor on
the least entry of the range on which the predicate holds, or one equal to the end; a standard
exception of the predicate or of the decoding gives an end cursor and an error in the result,
and any other exception ends the program. Overloads whose predicates agree give the same. -/
theorem find_returns_first_match (hE : E.Documented) (hK : E.Tracking) (hi : i.On w.m_txn e)
    (hs : StopAt w.m_txn stop b) (hle : ∀ f, b = some f → e.1 ≤ f.1) {fuel : Nat}
    (hfuel : (E.content w.m_txn).entries.length + 1 < fuel) :
    (∀ (cond : Cond Value) (m : Bytes × Bytes), m ∈ (E.content w.m_txn).entries →
      InRange (some e) b m.1 →
      (∀ g ∈ (E.content w.m_txn).entries, InRange (some e) b g.1 → g.1 < m.1 →
        evaluate S cond g = .ok false) →
      (evaluate S cond m = .ok true →
        ∃ w' left found, find S stop cond fuel w i = .ok (w', left, found) ∧
          found.On w'.m_txn m ∧ w'.m_result = w.m_result) ∧
      ∀ x, evaluate S cond m = .error x →
        (∀ what, x.what = some what →
          ∃ w' left found, find S stop cond fuel w i = .ok (w', left, found) ∧
            found.equal S w'.m_txn .marker = .ok true ∧ w'.m_result = ⟨.error, what⟩) ∧
        (x.what = none → find S stop cond fuel w i = .error .terminate)) ∧
    (∀ cond : Cond Value,
      (∀ g ∈ (E.content w.m_txn).entries, InRange (some e) b g.1 →
        evaluate S cond g = .ok false) →
      ∃ w' left found, find S stop cond fuel w i = .ok (w', left, found) ∧
        found.equal S w'.m_txn stop = .ok true ∧ w'.m_result = w.m_result) ∧
    ∀ (typed : Bytes → Value → Except Thrown Bool) (raw : Bytes → Bytes → Except Thrown Bool),
      (∀ g ∈ (E.content w.m_txn).entries, InRange (some e) b g.1 →
        ∃ v, S.fromBinary g.2 = .ok v ∧ typed g.1 v = raw g.1 g.2) →
      find S stop (.pair typed) fuel w i = find S stop (.rawPair raw) fuel w i := by
  refine ⟨fun cond m hm hrange hfalse => ⟨?_, fun x => ?_⟩, fun cond => ?_, fun typed raw => ?_⟩
  · exact find_hit S hE hK hi hs hle hfuel hm hrange hfalse
  · exact find_throws S hE hK hi hs hle hfuel hm hrange hfalse
  · exact find_misses S hE hK hi hs hle hfuel
  · exact find_agree S hE hK hi hs hle fuel

end First

theorem find_returns_first_match_second_of_three :
    ∃ w' left found, Table.find rawSchema .marker (.rawPair fun _ v => .ok (v = [2])) 5
        threeEntryWriter cursorOnFirst = .ok (w', left, found) ∧
      found.On w'.m_txn ([2], [2]) ∧ w'.m_result = threeEntryWriter.m_result := by
  obtain ⟨h, -⟩ := find_returns_first_match rawSchema Reference.documented Reference.tracking
    cursorOnFirst_on .marker (by simp) (show _ < 5 by decide)
  refine (h (.rawPair fun _ v => .ok (v = [2])) ([2], [2]) (by decide) ?_ ?_).1 rfl
  · exact inRange_iff.mpr ⟨by decide, by simp⟩
  · intro g hg _ hlt
    have hfirst : ∀ g ∈ threeEntryWriter.m_txn.content.entries, g.1 < [2] → g = ([1], [1]) := by
      decide
    rw [hfirst g hg hlt]
    rfl

/-- A predicate that throws something else than a standard exception, on the first entry. -/
theorem find_foreign_exception_terminates :
    Table.evaluate rawSchema (.rawPair fun _ _ => .error .foreign) ([1], [1]) = .error .foreign ∧
      Table.find rawSchema .marker (.rawPair fun _ _ => .error .foreign) 5 threeEntryWriter
        cursorOnFirst = .error .terminate :=
  ⟨rfl, rfl⟩

/-! ## End cursors

The loop stops at once on an end cursor, without looking at the predicate, and the end flag of
the cursor returned is `eof` of wherever the failed search or put has left the native one. -/

section FromEnd

variable {E : Mdbx} {Value : Type} (S : Schema Value)

/-- `find` from an end cursor returns an end cursor exactly when the native cursor is still
there and is at the end itself. -/
theorem find_from_end_iff (cond : Cond Value) (fuel : Nat) (w : Reader E) {i : ConstCursor E}
    (hi : i.m_end = true) :
    (∃ w' left found, Table.find S .marker cond (fuel + 1) w i = .ok (w', left, found) ∧
        found.m_end = true) ↔
      ∃ c, i.m_cursor = some c ∧ E.eof w.m_txn c = true := by
  have hloop : Table.findLoop S .marker cond (fuel + 1) w.m_txn i = .ok (w.m_txn, i, none) := by
    simp [Table.findLoop, ConstCursor.equal, hi]
  cases hc : i.m_cursor with
  | none => simp [Table.find, hloop, hc, ConstCursor.make, bind, Except.bind]
  | some c => simp [Table.find, hloop, hc, bind, Except.bind, pure, Except.pure]

/-- A cursor that `operator++` took past the last entry finds nothing. -/
theorem find_after_last (hE : E.Documented) (cond : Cond Value) (fuel : Nat) {w : Reader E}
    {c : E.Cursor} {k : Bytes} (ho : E.opened w.m_txn c) (hp : E.place w.m_txn c = .on k)
    (hlast : (E.content w.m_txn).above k = none) :
    ∃ u i w' left found, ConstCursor.next S w.m_txn ⟨false, some c⟩ = (u, i, none) ∧
      Table.find S .marker cond (fuel + 1) { w with m_txn := u } i = .ok (w', left, found) ∧
      found.m_end = true := by
  obtain ⟨u, hnext, -, hahead⟩ := ConstCursor.next_from (S := S) hE ho hp
  rw [SortedMap.above_eq_head, List.head?_eq_none_iff] at hlast
  rw [hlast] at hahead
  obtain heof : E.eof u c = true := by
    generalize E.eof u c = flag at hahead
    cases hahead
    rfl
  rw [heof] at hnext
  refine ⟨u, _, { w with m_txn := u }, ⟨true, none⟩, ⟨true, some c⟩, hnext, ?_, rfl⟩
  simp [Table.find, Table.findLoop, ConstCursor.equal, heof, bind, Except.bind, pure, Except.pure]

end FromEnd

/-- The key is greater than all others, and the failed `get` leaves its cursor past the end. -/
theorem find_from_end_iff_greatest_key :
    ∃ w i, Table.get threeEntryWriter [9] = .ok (w, i) ∧ i.m_end = true ∧
      ∃ w' left found, Table.find rawSchema .marker (.rawPair fun _ _ => .ok true) 1 w i =
        .ok (w', left, found) ∧ found.m_end = true := by
  obtain ⟨w, i, h, hi, hc⟩ : ∃ w i, Table.get threeEntryWriter [9] = .ok (w, i) ∧
      i.m_end = true ∧ ∃ c, i.m_cursor = some c ∧ Reference.engine.eof w.m_txn c = true :=
    ⟨_, _, rfl, rfl, _, rfl, rfl⟩
  exact ⟨w, i, h, hi, (find_from_end_iff rawSchema _ 0 w hi).mpr hc⟩

/-- After a failed `get` between two keys, `find` with a predicate that never holds returns a
cursor on the greater of them. -/
theorem find_from_end_returns_entry :
    ∃ w i w' left found, Table.get threeEntryWriter [1, 0] = .ok (w, i) ∧ i.m_end = true ∧
      Table.find rawSchema .marker (.rawPair fun _ _ => .ok false) 1 w i =
        .ok (w', left, found) ∧
      found.m_end = false ∧ found.key rawSchema w'.m_txn = .ok [2] :=
  ⟨_, _, _, _, _, rfl, rfl, rfl, rfl, rfl⟩

end Zatestil.Database
