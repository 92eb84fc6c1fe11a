import Zatestil.Messaging.Changes

/-!
# Requests and their responses

With distinct ids every caller gets one response, the first that reaches `set` for its id, and
the map holds the requests that have none yet. `Carries` says where the data of a state comes
from: the messages and the sent texts from the requests of the run, the responses from the
texts that arrived or from a timeout.
-/
namespace Zatestil.Messaging
open Library

namespace State

variable {C : Codec} {s t : State} {a : Act} {as : List Act} {P : String → Prop}

/-! ## Where data comes from -/

/-- A message read from a text that meets `P`. -/
def Read (C : Codec) (P : String → Prop) (m : Message) : Prop :=
  ∃ rawMessage, P rawMessage ∧ C.fromJson rawMessage = some m

/-- What a state holds comes from the requests of `as` and from texts that meet `P`. -/
structure Carries (C : Codec) (as : List Act) (P : String → Prop) (s : State) : Prop where
  call : ∀ n c, s.calls n = some c → .request n c.message ∈ as
  sent : ∀ e ∈ s.sent, ∃ n m, .request n m ∈ as ∧ e.2 = C.toJson m
  posted : ∀ j rawMessage, s.tasks j = some (.posted rawMessage) → P rawMessage
  found : ∀ j x m, s.tasks j = some (.found x m) → Read C P m
  processed : ∀ x tm, s.messages x = some tm → ∀ m ∈ tm.processed,
    m = timedOut tm.m_message ∨ Read C P m

theorem carries_init : init.Carries C as P := by
  constructor <;> intros <;> contradiction

namespace Carries

/-- A message was requested by the call of its number. -/
theorem message (h : s.Carries C as P) (hI : s.Inv) {x : Nat} {tm : TimedMessage}
    (htm : s.messages x = some tm) : .request x tm.m_message ∈ as := by
  obtain ⟨c, hc, -, hm⟩ := hI.creator x tm htm
  exact hm ▸ h.call x c hc

theorem target (h : s.Carries C as P) {r : Runner} {x : Nat} {m : Message} {tm : TimedMessage}
    (ht : s.target r = some (x, m)) (htm : s.messages x = some tm) :
    m = timedOut tm.m_message ∨ Read C P m := by
  rcases target_cases ht with ⟨j, rfl, hj⟩ | ⟨n, c, tm', rfl, -, -, -, htm', rfl⟩
  · exact .inr (h.found j x m hj)
  · rw [htm] at htm'
    cases htm'
    exact .inl rfl

end Carries

theorem Step.carries (h : Step C s a t) (hI : s.Inv) (hs : s.Carries C as P) (ha : a ∈ as)
    (hP : ∀ j rawMessage, a = .arrive j rawMessage → P rawMessage) : t.Carries C as P where
  call n c' hc' := by
    rcases h.call_of hc' with ⟨c, hc, hmoved⟩ | ⟨m, x, rfl, rfl⟩
    · exact hmoved.message ▸ hs.call n c hc
    · exact ha
  sent e he := by
    rcases h.sent_of he with he | ⟨c, tm, -, htm, -, he⟩
    · exact hs.sent e he
    · exact ⟨c.tm, tm.m_message, hs.message hI htm, he⟩
  posted j rawMessage hj := by
    rcases h.posted_of hj with hj | ha
    · exact hs.posted j rawMessage hj
    · exact hP j rawMessage ha
  found j x m hj := by
    rcases h.found_of hj with hj | ⟨-, rawMessage, hj, hm, -⟩
    · exact hs.found j x m hj
    · exact ⟨rawMessage, hs.posted j rawMessage hj, hm⟩
  processed x tm' htm' m hm := by
    rcases h.message_of hI htm' with ⟨tm, htm, hchanged⟩ | ⟨m', -, rfl⟩
    · rw [hchanged.message]
      rcases hchanged.processed m hm with hm | ⟨r, -, ht⟩
      · exact hs.processed x tm htm m hm
      · exact hs.target ht htm
    · cases hm

/-- Along a run of `as` whose inbound texts meet `P`. -/
theorem carries_exec {Q : State → Act → Prop}
    (hQ : ∀ s j rawMessage, s.Carries C as P → Q s (.arrive j rawMessage) → P rawMessage)
    (hrun : Along (step C) Q init as) (h : exec (step C) init as = some s) :
    s.Carries C as P := by
  have hall : Along (step C) (fun s a => a ∈ as ∧ Q s a) init as :=
    (along_of_mem (fun _ ha _ => ha) init).and hrun
  refine exec_keeps carries_init ?_ hall h
  intro s a t hI _ hs ha hstep
  refine hstep.carries hI hs ha.1 ?_
  rintro j rawMessage rfl
  exact hQ s j rawMessage hs ha.2

/-! ## Responses stay -/

/-- Once a message has a response it keeps it. -/
theorem response_kept {x : Nat} {tm : TimedMessage} {r : Message} {bs : List Act} (hI : s.Inv)
    (htm : s.messages x = some tm) (hr : tm.m_response = some r)
    (h : exec (step C) s bs = some t) :
    ∃ tm, t.messages x = some tm ∧ tm.m_response = some r := by
  refine (exec_induct (I := fun t => t.Inv ∧ ∃ tm, t.messages x = some tm ∧
    tm.m_response = some r) ?_ ⟨hI, tm, htm, hr⟩ h).2
  rintro u a v ⟨hI, tm, htm, hr⟩ hs
  have hstep := step_sound hs
  obtain ⟨tm', htm', hchanged⟩ := hstep.message_kept hI htm
  refine ⟨hstep.inv hI, tm', htm', ?_⟩
  rcases hchanged.response with heq | ⟨hnone, -⟩
  · exact heq.trans hr
  · rw [hr] at hnone
    cases hnone

/-- What `await_resume` returned stays as well. -/
theorem result_kept {n : Nat} {c : Call} {r : Message} {bs : List Act}
    (hc : s.calls n = some c) (hr : c.result = some r) (h : exec (step C) s bs = some t) :
    ∃ c, t.calls n = some c ∧ c.result = some r := by
  refine exec_induct (I := fun t => ∃ c, t.calls n = some c ∧ c.result = some r) ?_
    ⟨c, hc, hr⟩ h
  rintro u a v ⟨c, hc, hr⟩ hs
  obtain ⟨c', hc', hmoved⟩ := (step_sound hs).call_kept hc
  exact ⟨c', hc', (hmoved.result (by simp [hr])).trans hr⟩

/-! ## Matching -/

/-- The texts that arrive in a run. -/
def Arrived (as : List Act) (rawMessage : String) : Prop := ∃ j, .arrive j rawMessage ∈ as

theorem carries_arrived (h : exec (step C) init as = some s) : s.Carries C as (Arrived as) := by
  refine carries_exec (Q := fun _ a => a ∈ as) (fun s j rawMessage _ ha => ?_)
    (along_of_mem (fun _ ha _ => ha) init) h
  exact ⟨j, ha⟩

/-- A response that arrives was built by `make_response` from a request that was sent. -/
def Built (C : Codec) (s : State) (a : Act) : Prop :=
  ∀ j rawMessage m, a = .arrive j rawMessage → C.fromJson rawMessage = some m →
    m.type = .response → ∃ e ∈ s.sent, ∃ request status data, C.fromJson e.2 = some request ∧
      rawMessage = C.toJson (makeResponse request status data)

/-- The responses in a text have the id and the action of a request of the run. -/
def Answers (C : Codec) (as : List Act) (rawMessage : String) : Prop :=
  ∀ m, C.fromJson rawMessage = some m → m.type = .response →
    ∃ n request, .request n request ∈ as ∧ m.id = request.id ∧ m.action = request.action

theorem Carries.answers (hC : C.Inverts) (h : s.Carries C as P) {j : Nat} {rawMessage : String}
    (hb : Built C s (.arrive j rawMessage)) : Answers C as rawMessage := by
  intro m hm htype
  obtain ⟨e, he, request, status, data, hrequest, hraw⟩ := hb j rawMessage m rfl hm htype
  obtain ⟨n, m', hm', htext⟩ := h.sent e he
  have hreq : request = m' := hC m' request (htext ▸ hrequest)
  have hresp : m = makeResponse request status data := hC _ m (hraw ▸ hm)
  refine ⟨n, m', hm', ?_, ?_⟩
  · rw [hresp, hreq]
    rfl
  · rw [hresp, hreq]
    rfl

/-- With distinct ids the id tells the message. -/
theorem request_unique (hids : ((as.filterMap Act.requested).map Message.id).Nodup) {n k : Nat}
    {m m' : Message} (hm : .request n m ∈ as) (hm' : .request k m' ∈ as) (hid : m.id = m'.id) :
    m = m' :=
  List.inj_on_of_nodup_map hids (List.mem_filterMap.mpr ⟨_, hm, rfl⟩)
    (List.mem_filterMap.mpr ⟨_, hm', rfl⟩) hid

section Run

variable (hids : ((as.filterMap Act.requested).map Message.id).Nodup) {n : Nat} {c : Call}
  {tm : TimedMessage}

include hids

/-- With distinct ids every caller has the message that it passed. -/
theorem Carries.own (h : s.Carries C as P) (hI : s.Inv) (hc : s.calls n = some c)
    (htm : s.messages c.tm = some tm) : tm.m_message = c.message :=
  request_unique hids (h.message hI htm) (h.call n c hc) (hI.linked_of hc htm).id

/-- A response built from a sent request has the action of the request with its id. -/
theorem Carries.action (h : s.Carries C as (Answers C as)) (hI : s.Inv) {x : Nat}
    (htm : s.messages x = some tm) {r : Message} (hr : r ∈ tm.processed) :
    r.action = tm.m_message.action := by
  obtain ⟨htype, hid⟩ := (hI.sound x tm htm).matching r hr
  rcases h.processed x tm htm r hr with rfl | ⟨rawMessage, hanswers, hraw⟩
  · rfl
  · obtain ⟨k, request, hrequest, hid', haction⟩ := hanswers r hraw htype
    rw [haction, request_unique hids hrequest (h.message hI htm) (hid' ▸ hid)]

end Run

/-- The map holds the requests whose messages have no response. -/
theorem Carries.pending_iff (h : s.Carries C as P) (hI : s.Inv) (id : UInt64) :
    s.m_timedMessages id ≠ none ↔ ∃ n m c tm, .request n m ∈ as ∧ m.id = id ∧
      s.calls n = some c ∧ s.messages c.tm = some tm ∧ tm.m_message = m ∧
      tm.m_response = none := by
  constructor
  · intro hne
    obtain ⟨x, hx⟩ := Option.ne_none_iff_exists'.mp hne
    obtain ⟨tm, htm, hid, hr⟩ := hI.entry id x hx
    obtain ⟨c, hc, htmx, -⟩ := hI.creator x tm htm
    exact ⟨x, tm.m_message, c, tm, h.message hI htm, hid, hc, by rw [htmx, htm], rfl, hr⟩
  · rintro ⟨n, m, c, tm, -, rfl, -, htm, rfl, hr⟩
    rw [(hI.registered c.tm tm htm hr).1]
    nofun

/-- In every run with distinct ids a caller is resumed once, with the first response to its
request that reaches `set`, and the map holds the requests without one. -/
theorem responses_match_requests (hC : C.Inverts)
    (hids : ((as.filterMap Act.requested).map Message.id).Nodup)
    (h : exec (step C) init as = some s) :
    (∀ x tm, s.messages x = some tm → tm.resumes ≤ 1) ∧
    (∀ n c, s.calls n = some c → c.resumes ≤ 1) ∧
    (∀ n c r, s.calls n = some c → c.result = some r →
      r.type = .response ∧ r.id = c.message.id ∧
      (∃ tm, s.messages c.tm = some tm ∧ tm.m_message = c.message ∧
        tm.processed.head? = some r ∧
        ∀ m ∈ tm.processed, m = timedOut c.message ∨ Read C (Arrived as) m) ∧
      (∀ bs t, exec (step C) s bs = some t →
        (∃ tm, t.messages c.tm = some tm ∧ tm.m_response = some r) ∧
        ∃ c, t.calls n = some c ∧ c.result = some r) ∧
      (Along (step C) (Built C) init as → r.action = c.message.action)) ∧
    ∀ id, s.m_timedMessages id ≠ none ↔ ∃ n m c tm, .request n m ∈ as ∧ m.id = id ∧
      s.calls n = some c ∧ s.messages c.tm = some tm ∧ tm.m_message = m ∧
      tm.m_response = none := by
  have hI := inv_exec h
  have hfrom := carries_arrived h
  refine ⟨fun x tm htm => (hI.sound x tm htm).once, ?_, ?_, hfrom.pending_iff hI⟩
  · intro n c hc
    obtain ⟨tm, -, hl⟩ := hI.linked n c hc
    exact hl.once
  · intro n c r hc hres
    obtain ⟨tm, htm, hl⟩ := hI.linked n c hc
    have hr := (hl.result r hres).2
    have hsound := hI.sound c.tm tm htm
    have hhead : tm.processed.head? = some r := hsound.first.symm.trans hr
    have hmemr : r ∈ tm.processed := List.mem_of_head? hhead
    have hown := hfrom.own hids hI hc htm
    obtain ⟨htype, hid⟩ := hsound.matching r hmemr
    refine ⟨htype, hid.trans hl.id, ⟨tm, htm, hown, hhead, hown ▸ hfrom.processed c.tm tm htm⟩,
      fun bs t ht => ⟨response_kept hI htm hr ht, result_kept hc hres ht⟩, fun hbuilt => ?_⟩
    have hanswers : s.Carries C as (Answers C as) :=
      carries_exec (fun s j rawMessage hs hb => hs.answers hC hb) hbuilt h
    exact hown ▸ hanswers.action hids hI htm hmemr

/-- One caller awaits its response, -/
def awaitRun (n : Nat) (m : Message) : List Act :=
  [.request n m, .coAwait n, .storeHandle n, .send n, .setExpiry n, .armWait n, .suspended n]

/-- gets it, and the aborted timer handler ends. -/
def answerRun : List Act :=
  [.arrive 0 pongText, .dispatch 0, .set (.task 0), .endAwait 0, .setReturn (.task 0),
    .abortedWait 0]

/-- The answer to `ping` is built from the text that was sent. -/
theorem built_pong {j : Nat} (hs : s.sent = [(0, pingText)]) :
    Built wire s (.arrive j pongText) := by
  rintro k rawMessage m heq - -
  cases heq
  exact ⟨(0, pingText), by simp [hs], ping, ⟨true, ""⟩, "", by decide +kernel,
    by decide +kernel⟩

theorem responses_match_requests_ping :
    ∃ s c, exec (step wire) init (awaitRun 0 ping ++ answerRun) = some s ∧
      s.calls 0 = some c ∧ c.result = some pong ∧ pong.id = c.message.id ∧
      pong.action = c.message.action := by
  have hrun : (exec (step wire) init (awaitRun 0 ping ++ answerRun)).map
      (fun s => (s.calls 0).map Call.result) = some (some (some pong)) := by
    decide +kernel
  have hsent : (exec (step wire) init (awaitRun 0 ping)).map State.sent =
      some [(0, pingText)] := by
    decide +kernel
  have hids : (((awaitRun 0 ping ++ answerRun).filterMap Act.requested).map
      Message.id).Nodup := by
    decide
  obtain ⟨s, hs, hcall⟩ := Option.map_eq_some_iff.mp hrun
  obtain ⟨c, hc, hres⟩ := Option.map_eq_some_iff.mp hcall
  have hbuilt : Along (step wire) (Built wire) init (awaitRun 0 ping ++ answerRun) := by
    refine along_append (along_of_mem ?_ init) fun t ht =>
      ⟨built_pong (by simpa [ht] using hsent), fun u _ => along_of_mem ?_ u⟩
    · rintro _ ha s j rawMessage m rfl
      simp [awaitRun] at ha
    · rintro _ ha s j rawMessage m rfl
      simp at ha
  obtain ⟨-, -, hresult, -⟩ := responses_match_requests wire_inverts hids hs
  obtain ⟨-, hid, -, -, haction⟩ := hresult 0 c pong hc hres
  exact ⟨s, c, hs, hc, hres, hid, haction hbuilt⟩

end State

end Zatestil.Messaging
