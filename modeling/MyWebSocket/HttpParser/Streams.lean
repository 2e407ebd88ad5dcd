import MyWebSocket.HttpParser.Cuts
import MyWebSocket.Http.Isolation

namespace MyWebSocket

open Transducer Transducer.Outcome Fragments

/-!
# The parser of a session

What holds of `requestParser` over all the reads of a connection, in whatever pieces the bytes
come:

* `execute_total` — no assertion of `http_parser_execute` fails;
* `callbacks_in_turn`, `callbacks_requests` — the callbacks are those of one request after
  another;
* `requests_clean` — what the requests that are handled are made of;
* `stream_cut`, `stream_cut_outside` — what the pieces of the stream change about them.
-/

namespace RequestParser

/-- The parser of a session before its first read. -/
abbrev start : HttpParserData := requestParser.init

/-- The reads of a connection fit in an `int`. -/
def Short (reads : List Bytes) : Prop := ∀ r ∈ reads, r.length < 2 ^ 31

variable {p : HttpParserData} {tn : Turn}

/-- A length of 0. -/
theorem execute_nil (h : Running p tn) :
    requestParser.execute p [] = (p, [], 0) ∨
      ∃ q n, requestParser.execute p [] = (q, [], n) ∧ q.httpErrno ≠ .ok := by
  show httpParserExecute requestLoop p [] = _ ∨
    ∃ q n, httpParserExecute requestLoop p [] = (q, [], n) ∧ q.httpErrno ≠ .ok
  rw [httpParserExecute, if_neg (not_not.mpr h.inv.base.ok), if_pos List.length_nil]
  have hstate := h.inv.state
  unfold StateInv at hstate
  split
  · rename_i hst
    simp only [hst] at hstate
  · exact .inl rfl
  · exact .inl rfl
  · exact .inl rfl
  · exact .inl rfl
  · exact .inr ⟨_, _, rfl, fun h => by cases h⟩

/-- Any read. -/
theorem execute_step (h : Running p tn) {data : Bytes} (hshort : data.length < 2 ^ 31) :
    ∃ p' es n, requestParser.execute p data = (p', es, n) ∧ ReadDone tn p' es := by
  by_cases hne : data = []
  · subst hne
    rcases execute_nil h with heq | ⟨q, n, heq, herrno⟩
    · exact ⟨p, [], 0, heq, ⟨⟨tn, rfl, fun _ => h⟩, [], [], rfl, nofun, .inl rfl⟩⟩
    · exact ⟨q, [], n, heq, ⟨⟨tn, rfl, fun hok => absurd hok herrno⟩, [], [], rfl, nofun, .inl rfl⟩⟩
  · obtain ⟨p', es, n, heq, hdone, -⟩ := execute_running h hshort
    exact ⟨p', es, n, execute_of_ok h.inv.base.ok hne heq, hdone⟩

/-- **The callbacks come in turn**, and the parser goes on or ends in the error state. -/
theorem callbacks_running (h : Running p tn) {reads : List Bytes} (hshort : Short reads) :
    ∃ tn', tn.all (requestParser.callbacks p reads) = some tn' ∧
      ((requestParser.after p reads).httpErrno = .ok →
        Running (requestParser.after p reads) tn') := by
  induction reads generalizing p tn with
  | nil => exact ⟨tn, rfl, fun _ => h⟩
  | cons r rs ih =>
    obtain ⟨p', es, n, heq, hdone⟩ := execute_step h (hshort r List.mem_cons_self)
    obtain ⟨tn₁, hall, hrunning⟩ := hdone.turn
    rw [HttpParser.callbacks, HttpParser.after, List.foldl_cons, heq]
    dsimp only
    rw [Turn.all_append, hall]
    by_cases hok : p'.httpErrno = .ok
    · exact ih (hrunning hok) fun r hr => hshort r (List.mem_cons_of_mem _ hr)
    · obtain ⟨hnil, hsame⟩ := callbacks_errored hok rs
      rw [HttpParser.after] at hsame
      rw [hnil, hsame]
      exact ⟨tn₁, rfl, fun h => absurd h hok⟩

/-- **No assertion of `http_parser_execute` fails**, whatever is read in whatever pieces; and all
    of a read is parsed, unless it ends in the error state or with an upgrade. -/
theorem execute_total {reads : List Bytes} (hshort : Short reads) {data : Bytes}
    (hdata : data.length < 2 ^ 31)
    (hok : (requestParser.after start reads).httpErrno = .ok) :
    ∃ p' es n, execute? (requestParser.after start reads) data = some (p', es, n) ∧
      (n = data.length ∨ p'.httpErrno ≠ .ok ∨ ∃ es', es = es' ++ [.messageComplete true]) := by
  obtain ⟨tn, -, hrunning⟩ := callbacks_running Running.init hshort
  obtain ⟨p', es, n, heq, -, hn⟩ := execute_running (hrunning hok) hdata
  exact ⟨p', es, n, heq, hn⟩

/-- A read that ends inside a url, and the next one. -/
theorem execute_total_cut_url :
    ∃ p' es n, execute? (requestParser.after start [str "GET /a"]) (str "b HTTP/1.1\r\n") =
        some (p', es, n) ∧
      (n = (str "b HTTP/1.1\r\n").length ∨ p'.httpErrno ≠ .ok ∨
        ∃ es', es = es' ++ [.messageComplete true]) :=
  execute_total (show Short [str "GET /a"] by unfold Short; decide) (by decide)
    (by decide +kernel)

/-! ### One request after another -/

/-- The callbacks of a request, with those at its ends. -/
def requestCallbacks (r : Request) : List ReqEvent :=
  .messageBegin :: (r.events ++ [.messageComplete r.upgrade])

/-- `on_header_field`. -/
def isField : ReqEvent → Bool
  | .headerField _ => true
  | _ => false

theorem fieldFirst_append {es : List ReqEvent} (h : FieldFirst es) {e : ReqEvent}
    (he : (∀ d, e ≠ .headerValue d) ∨ es.any isField = true) : FieldFirst (es ++ [e]) := by
  induction es with
  | nil =>
    have hne := he.resolve_right nofun
    cases e with
    | headerValue d => exact absurd rfl (hne d)
    | _ => trivial
  | cons e' es ih =>
    cases e' with
    | headerField d => trivial
    | headerValue d => exact h.elim
    | _ => exact ih h he

/-- The name of a header has come. -/
def Turn.named : Turn → Bool
  | name _ | value _ => true
  | _ => false

/-- The headers have been completed. -/
def Turn.completed : Turn → Bool
  | name true | value true | body => true
  | _ => false

/-- The callbacks of a message between its ends, as far as they have come. -/
structure Inner (tn : Turn) (es : List ReqEvent) : Prop where
  inner : es.all ReqEvent.isInner = true
  fieldFirst : FieldFirst es
  named : tn.named = true → es.any isField = true
  completed : tn.completed = true → es.any ReqEvent.isHeadersComplete = true

/-- The callbacks of the message that has begun. -/
def Open : Turn → List ReqEvent → Prop
  | .idle, es => es = []
  | tn, es => ∃ inner, es = .messageBegin :: inner ∧ Inner tn inner

theorem named_next {tn tn' : Turn} {e : ReqEvent} (h : tn.next e = some tn')
    (hnamed : tn'.named = true) : isField e = true ∨ tn.named = true := by
  unfold Turn.next at h
  split at h <;> cases h <;> first
    | exact .inl rfl
    | exact .inr rfl
    | cases hnamed

theorem completed_value (t : Bool) : (Turn.value t).completed = (Turn.name t).completed := by
  cases t <;> rfl

theorem completed_next {tn tn' : Turn} {e : ReqEvent} (h : tn.next e = some tn')
    (hcompleted : tn'.completed = true) : e.isHeadersComplete = true ∨ tn.completed = true := by
  unfold Turn.next at h
  split at h <;> cases h <;> first
    | exact .inl rfl
    | exact .inr rfl
    | exact .inr hcompleted
    | exact .inr ((completed_value _).symm.trans hcompleted)
    | exact .inr ((completed_value _).trans hcompleted)

theorem named_of_value {tn tn' : Turn} {d : Bytes} (h : tn.next (.headerValue d) = some tn') :
    tn.named = true := by
  cases tn <;> first
    | rfl
    | cases h

theorem completed_of_complete {tn tn' : Turn} {up : Bool}
    (h : tn.next (.messageComplete up) = some tn') : tn.completed = true ∧ tn' = .idle := by
  unfold Turn.next at h
  split at h <;> cases h <;> first
    | exact ⟨rfl, rfl⟩
    | contradiction

/-- A further callback of a message. -/
theorem Inner.snoc {tn tn' : Turn} {es : List ReqEvent} (h : Inner tn es) {e : ReqEvent}
    (hnext : tn.next e = some tn') (he : e.isInner = true) : Inner tn' (es ++ [e]) := by
  refine ⟨?_, ?_, fun hnamed => ?_, fun hcompleted => ?_⟩
  · rw [List.all_append, h.inner]
    simp [he]
  · apply fieldFirst_append h.fieldFirst
    cases e with
    | headerValue d => exact .inr (h.named (named_of_value hnext))
    | _ => exact .inl nofun
  · rw [List.any_append, Bool.or_eq_true]
    rcases named_next hnext hnamed with hfield | hbefore
    · exact .inr (by simp [hfield])
    · exact .inl (h.named hbefore)
  · rw [List.any_append, Bool.or_eq_true]
    rcases completed_next hnext hcompleted with hfield | hbefore
    · exact .inr (by simp [hfield])
    · exact .inl (h.completed hbefore)

/-- A callback in its turn: it goes on with what is open, or completes a request. -/
theorem Open.next {tn tn' : Turn} {es : List ReqEvent} (h : Open tn es) {e : ReqEvent}
    (hnext : tn.next e = some tn') :
    (∀ up, e ≠ .messageComplete up) ∧ Open tn' (es ++ [e]) ∨
      ∃ r : Request, es = .messageBegin :: r.events ∧ e = .messageComplete r.upgrade ∧
        tn' = .idle := by
  by_cases hidle : tn = .idle
  · -- only a message can begin
    subst hidle
    cases h
    cases e with
    | messageBegin =>
      cases hnext
      exact .inl ⟨nofun, [], rfl, rfl, trivial, nofun, nofun⟩
    | _ => cases hnext
  · obtain ⟨inner, rfl, hinner⟩ : ∃ inner, es = .messageBegin :: inner ∧ Inner tn inner := by
      cases tn with
      | idle => exact absurd rfl hidle
      | _ => exact h
    by_cases he : e.isInner = true
    · refine .inl ⟨fun up hup => ?_, ?_⟩
      · subst hup
        cases he
      · have hinner' := hinner.snoc hnext he
        cases tn' with
        | idle =>
          unfold Turn.next at hnext
          split at hnext <;> cases hnext <;> cases he
        | _ => exact ⟨inner ++ [e], rfl, hinner'⟩
    · cases e with
      | messageComplete up =>
        obtain ⟨hcompleted, rfl⟩ := completed_of_complete hnext
        exact .inr ⟨⟨inner, up, hinner.inner, hinner.completed hcompleted, hinner.fieldFirst⟩,
          rfl, rfl, rfl⟩
      | messageBegin =>
        cases tn with
        | idle => exact absurd rfl hidle
        | _ => cases hnext
      | _ => exact absurd rfl he

/-- Callbacks in turn are those of one request after another. -/
theorem in_turn_requests {es : List ReqEvent} {tn : Turn} (h : Turn.all .idle es = some tn) :
    ∃ (rs : List Request) (tail : List ReqEvent),
      es = rs.flatMap requestCallbacks ++ tail ∧ Open tn tail := by
  induction es using List.reverseRecOn generalizing tn with
  | nil =>
    cases h
    exact ⟨[], [], rfl, rfl⟩
  | append_singleton es e ih =>
    rw [Turn.all_append] at h
    obtain ⟨tn₁, hall, hone⟩ := Option.bind_eq_some_iff.mp h
    rw [Turn.all_singleton] at hone
    obtain ⟨rs, tail, rfl, hopen⟩ := ih hall
    rcases hopen.next hone with ⟨-, hgoes⟩ | ⟨r, rfl, rfl, rfl⟩
    · exact ⟨rs, tail ++ [e], by rw [List.append_assoc], hgoes⟩
    · exact ⟨rs ++ [r], [], by simp [requestCallbacks], rfl⟩

/-- **The callbacks of a connection**: each in its turn, those of one request after another, and
    of one more that has begun.  Every request has its headers completed, and no value in front
    of the first name. -/
theorem callbacks_requests {reads : List Bytes} (hshort : Short reads) :
    ∃ tn, Turn.all .idle (requestParser.callbacks start reads) = some tn ∧
      ∃ (rs : List Request) (tail : List ReqEvent),
        requestParser.callbacks start reads = rs.flatMap requestCallbacks ++ tail ∧
          Open tn tail := by
  obtain ⟨tn, hall, -⟩ := callbacks_running Running.init hshort
  exact ⟨tn, hall, in_turn_requests hall⟩

/-- A request that has not come to its end. -/
theorem callbacks_requests_begun :
    ∃ tn, Turn.all .idle (requestParser.callbacks start [str "GET /a HT", str "TP/1.1\r\n"]) =
        some tn ∧
      ∃ (rs : List Request) (tail : List ReqEvent),
        requestParser.callbacks start [str "GET /a HT", str "TP/1.1\r\n"] =
          rs.flatMap requestCallbacks ++ tail ∧ Open tn tail :=
  callbacks_requests (by unfold Short; decide)

/-! ### What the requests are made of -/

/-- A header as the session keeps it: a name of token characters in lower case, and a value on
    one line. -/
def CleanHeader (name value : Bytes) : Prop :=
  (∀ b ∈ name, token b ≠ 0 ∧ toLower b = b) ∧ ∀ b ∈ value, b ≠ 0x0D ∧ b ≠ 0x0A

/-- A url of visible characters, and clean headers. -/
def CleanRequest (url : Bytes) (headers : HeaderMap) : Prop :=
  (∀ b ∈ url, Visible b) ∧ ∀ k v, headers.lookup k = some v → CleanHeader k v

theorem token_toLower (b : UInt8) : token b ≠ 0 →
    token (toLower b) ≠ 0 ∧ toLower (toLower b) = toLower b := by
  refine forall_byte (P := fun b => token b ≠ 0 →
    token (toLower b) ≠ 0 ∧ toLower (toLower b) = toLower b) ?_ b
  decide +kernel

/-- The request object while the callbacks of a message come. -/
structure Filled (tn : Turn) (s : ReqState) : Prop where
  request : tn ≠ .idle → CleanRequest s.req.url s.req.headers
  key : tn.named = true → ∀ b ∈ s.tmpKey, token b ≠ 0 ∧ toLower b = b

theorem Filled.idle (s : ReqState) : Filled .idle s := ⟨fun h => absurd rfl h, nofun⟩

/-- A callback in its turn. -/
theorem Filled.on {tn tn' : Turn} {s : ReqState} (h : Filled tn s) {e : ReqEvent}
    (hnext : tn.next e = some tn') (hclean : Clean e) : Filled tn' (s.on e) := by
  have hbegun : e ≠ .messageBegin → tn ≠ .idle := by
    rintro he rfl
    cases e <;> first
      | exact he rfl
      | cases hnext
  have hkey : isField e = false → tn'.named = true →
      ∀ b ∈ s.tmpKey, token b ≠ 0 ∧ toLower b = b := fun he hnamed =>
    h.key ((named_next hnext hnamed).resolve_left (by rw [he]; exact Bool.false_ne_true))
  cases e with
  | messageBegin => exact ⟨fun _ => ⟨nofun, nofun⟩, fun hnamed => hkey rfl hnamed⟩
  | url d => exact ⟨fun _ => ⟨hclean, (h.request (hbegun nofun)).2⟩, hkey rfl⟩
  | headerField d =>
    refine ⟨fun _ => h.request (hbegun nofun), fun _ b hb => ?_⟩
    obtain ⟨c, hc, rfl⟩ := List.mem_map.mp hb
    exact token_toLower c (hclean c hc)
  | headerValue d =>
    obtain ⟨hurl, hheaders⟩ := h.request (hbegun nofun)
    have hname := h.key (named_of_value hnext)
    refine ⟨fun _ => ⟨hurl, fun k v hlookup => ?_⟩, fun _ => hname⟩
    have hlookup : (Entries.insertNew s.req.headers (s.tmpKey, d)).lookup k = some v := hlookup
    rw [Entries.lookup_insertNew] at hlookup
    rcases hk : s.req.headers.lookup k with _ | v'
    · rw [hk, Option.none_or] at hlookup
      split at hlookup
      · rename_i heq
        cases hlookup
        exact ⟨heq ▸ hname, hclean⟩
      · cases hlookup
    · rw [hk, Option.some_or] at hlookup
      cases hlookup
      exact hheaders k v hk
  | headersComplete method major minor => exact ⟨fun _ => h.request (hbegun nofun), hkey rfl⟩
  | body d => exact ⟨fun _ => h.request (hbegun nofun), hkey rfl⟩
  | messageComplete up => exact ⟨fun _ => h.request (hbegun nofun), hkey rfl⟩

/-- Callbacks in turn, with clean data: what they leave, and what is seen of the requests. -/
theorem filled_all {tn tn' : Turn} {s : ReqState} (h : Filled tn s) {es : List ReqEvent}
    (hall : tn.all es = some tn') (hclean : ∀ e ∈ es, Clean e) :
    Filled tn' (s.onAll es) ∧ ∀ r ∈ requestsSeen s es, CleanRequest r.url r.headers := by
  induction es generalizing tn s with
  | nil =>
    cases hall
    exact ⟨h, nofun⟩
  | cons e es ih =>
    rw [show tn.all (e :: es) = (tn.next e).bind fun tn => tn.all es from rfl] at hall
    obtain ⟨tn₁, hnext, hrest⟩ := Option.bind_eq_some_iff.mp hall
    have hone := h.on hnext (hclean e List.mem_cons_self)
    obtain ⟨hfilled, hseen⟩ := ih hone hrest fun e he => hclean e (List.mem_cons_of_mem _ he)
    refine ⟨hfilled, ?_⟩
    cases e with
    | messageComplete up =>
      intro r hr
      rcases List.mem_cons.mp hr with rfl | hr
      · apply h.request
        rintro rfl
        cases hnext
      · exact hseen r hr
    | _ => exact hseen

/-! ### Requests and silent callbacks -/

theorem requestsSeen_append (s : ReqState) (es es' : List ReqEvent) :
    requestsSeen s (es ++ es') = requestsSeen s es ++ requestsSeen (s.onAll es) es' := by
  induction es generalizing s with
  | nil => rfl
  | cons e es ih =>
    cases e with
    | messageComplete up => exact congrArg (s.seen :: ·) (ih s)
    | _ => exact ih _

theorem requestsSeen_silent {es : List ReqEvent} (h : Silent es) (s : ReqState) :
    requestsSeen s es = [] := by
  induction es generalizing s with
  | nil => rfl
  | cons e es ih =>
    have hrest : Silent es := fun up hmem => h up (List.mem_cons_of_mem _ hmem)
    cases e with
    | messageComplete up => exact absurd List.mem_cons_self (h up)
    | _ => exact ih hrest _

/-- **What is handled is clean**, whatever is read in whatever pieces: the url is made of visible
    characters, the names of headers of token characters in lower case, and no value has a CR or
    an LF in it. -/
theorem requests_clean {reads : List Bytes} (hshort : Short reads) (s : ReqState) :
    ∀ r ∈ requestsSeen s (requestParser.callbacks start reads),
      CleanRequest r.url r.headers := by
  have hrun : ∀ (reads : List Bytes) (p : HttpParserData) (tn : Turn) (s : ReqState),
      Running p tn → Filled tn s → Short reads →
      ∀ r ∈ requestsSeen s (requestParser.callbacks p reads), CleanRequest r.url r.headers := by
    intro reads
    induction reads with
    | nil => exact fun p tn s _ _ _ => nofun
    | cons d reads ih =>
      intro p tn s hrunning hfilled hshort r hr
      obtain ⟨p', es, n, heq, hdone⟩ := execute_step hrunning (hshort d List.mem_cons_self)
      obtain ⟨tn₁, hall, hgo⟩ := hdone.turn
      obtain ⟨es₁, es₂, rfl, hclean, htail⟩ := hdone.clean
      rw [HttpParser.callbacks, heq, requestsSeen_append] at hr
      rw [Turn.all_append] at hall
      obtain ⟨tn₂, hall₁, hall₂⟩ := Option.bind_eq_some_iff.mp hall
      obtain ⟨hfilled₁, hseen₁⟩ := filled_all hfilled hall₁ hclean
      rcases htail with rfl | ⟨herrno, d, rfl⟩
      · rw [List.append_nil] at hr
        rcases List.mem_append.mp hr with hr | hr
        · exact hseen₁ r hr
        · cases hall₂
          by_cases hok : p'.httpErrno = .ok
          · exact ih p' tn₁ _ (hgo hok) hfilled₁
              (fun r hr => hshort r (List.mem_cons_of_mem _ hr)) r hr
          · rw [(callbacks_errored hok reads).1] at hr
            cases hr
      · -- the error state
        rw [requestsSeen_append, (callbacks_errored herrno reads).1] at hr
        rcases List.mem_append.mp hr with hr | hr
        · rcases List.mem_append.mp hr with hr | hr
          · exact hseen₁ r hr
          · cases hr
        · cases hr
  exact hrun reads start .idle s Running.init (.idle s) hshort

/-- A request whose header is cut in two. -/
theorem requests_clean_cut_header :
    requestsSeen ⟨.init .get, []⟩
        (requestParser.callbacks start [str "GET /a HTTP/1.1\r\nHo", str "st: b\r\n\r\n"]) ≠ [] ∧
      ∀ r ∈ requestsSeen ⟨.init .get, []⟩
          (requestParser.callbacks start [str "GET /a HTTP/1.1\r\nHo", str "st: b\r\n\r\n"]),
        CleanRequest r.url r.headers :=
  ⟨by decide +kernel, requests_clean (by unfold Short; decide) _⟩

/-! ### What the pieces of a stream change -/

section Collect

variable {τ ω : Type} (step : τ → ReqEvent → τ) (out : τ → ω)

/-- What is made of the requests, callback by callback. -/
def collect (t : τ × List ω) : ReqEvent → τ × List ω
  | .messageComplete _ => (t.1, t.2 ++ [out t.1])
  | e => (step t.1 e, t.2)

theorem foldl_collect (t : τ) (ws : List ω) (es : List ReqEvent) :
    es.foldl (collect step out) (t, ws) =
      ((es.foldl (collect step out) (t, [])).1, ws ++ (es.foldl (collect step out) (t, [])).2) := by
  induction es generalizing t ws with
  | nil => simp
  | cons e es ih =>
    rw [List.foldl_cons, List.foldl_cons]
    cases e with
    | messageComplete up =>
      show es.foldl (collect step out) (t, ws ++ [out t]) = _
      rw [ih, show collect step out (t, []) (.messageComplete up) = (t, [out t]) from rfl,
        ih t [out t], List.append_assoc]
    | _ => exact ih _ ws

variable {step out} {π : ReqState → τ} {g : Seen → ω}

/-- What is seen of the requests can be collected from what each callback makes of it. -/
theorem map_requestsSeen (hstep : ∀ s e, e.isInner = true ∨ e = .messageBegin →
    π (s.on e) = step (π s) e) (hout : ∀ s, g s.seen = out (π s)) (s : ReqState)
    (es : List ReqEvent) :
    (requestsSeen s es).map g = (es.foldl (collect step out) (π s, [])).2 := by
  induction es generalizing s with
  | nil => rfl
  | cons e es ih =>
    rw [List.foldl_cons]
    cases e with
    | messageComplete up =>
      rw [show collect step out (π s, []) (.messageComplete up) = (π s, [out (π s)]) from rfl,
        foldl_collect, ← ih, ← hout]
      rfl
    | messageBegin =>
      show (requestsSeen (s.on .messageBegin) es).map g = _
      rw [ih, hstep s _ (.inr rfl)]
      rfl
    | _ =>
      show (requestsSeen (s.on _) es).map g = _
      rw [ih, hstep s _ (.inl rfl)]
      rfl

variable (step out π)

/-- **Requests in fragments**: what is additive is seen alike. -/
theorem requestsSeen_fragmented {K : DataFor → Prop} (hstep : ∀ s e, e.isInner = true ∨
    e = .messageBegin → π (s.on e) = step (π s) e) (hout : ∀ s, g s.seen = out (π s))
    (hadd : ∀ t k, K k → ∀ d x, step (step t (k.event d)) (k.event x) = step t (k.event (d ++ x)))
    {es' es : List ReqEvent} (h : Fragmented (fragment K) es' es) (s : ReqState) :
    (requestsSeen s es').map g = (requestsSeen s es).map g := by
  rw [map_requestsSeen hstep hout, map_requestsSeen hstep hout]
  refine congrArg Prod.snd (h.foldl_eq ?_ _)
  rintro ⟨t, ws⟩ ⟨k, hk⟩ d x
  have hstays : ∀ (t : τ) (ws : List ω) (d : Bytes),
      collect step out (t, ws) (k.event d) = (step t (k.event d), ws) := by
    intro t ws d
    cases k <;> rfl
  show collect step out (collect step out (t, ws) (k.event d)) (k.event x) =
    collect step out (t, ws) (k.event (d ++ x))
  rw [hstays, hstays, hstays, hadd t k hk]

end Collect

/-- What a request is but for its url and its headers. -/
structure Core where
  method : HttpMethod
  version : Bytes
  body : Bytes
deriving DecidableEq

/-- The core of a request that is handled. -/
def core (r : Seen) : Core := ⟨r.method, r.version, r.body⟩

/-- What a callback does to the core of the request object. -/
def Core.on (c : Core) : ReqEvent → Core
  | .messageBegin => { c with body := [] }
  | .headersComplete method major minor =>
    { c with method := method, version := str (toString major) ++ str "." ++ str (toString minor) }
  | .body d => { c with body := c.body ++ d }
  | _ => c

theorem core_fragmented {es' es : List ReqEvent}
    (h : Fragmented (fragment fun _ => True) es' es) (s : ReqState) :
    (requestsSeen s es').map core = (requestsSeen s es).map core := by
  refine requestsSeen_fragmented Core.on id (fun s => ⟨s.req.method, s.req.version, s.req.body⟩) ?_
    (fun s => rfl) ?_ h s
  · intro s e _
    cases e <;> rfl
  · intro t k _ d x
    cases k with
    | body => exact congrArg (fun b => { t with body := b }) (List.append_assoc t.body d x)
    | _ => rfl

theorem seen_fragmented {es' es : List ReqEvent}
    (h : Fragmented (fragment fun k => k = .body) es' es) (s : ReqState) :
    requestsSeen s es' = requestsSeen s es := by
  have hmap := requestsSeen_fragmented ReqState.on ReqState.seen id (g := id) (fun s e _ => rfl)
    (fun s => rfl) ?_ h s
  · rwa [List.map_id, List.map_id] at hmap
  · rintro t k rfl d x
    show (t.onReqBody d).onReqBody x = t.onReqBody (d ++ x)
    simp only [ReqState.onReqBody, List.append_assoc]

/-- One read behind which the parser does not leave HTTP. -/
theorem machine_stop (h : Running p tn) {data : Bytes} (hne : data ≠ [])
    (hshort : data.length < 2 ^ 31)
    (hup : .messageComplete true ∉ requestParser.callbacks p [data]) :
    (byteMachine.run p data).stop ≠ some .exit := by
  intro hexit
  obtain ⟨p', es, n, heq, hfine, -⟩ := execute_machine h hshort
  obtain ⟨-, rfl⟩ := hfine (by rw [hexit]; nofun)
  apply hup
  rw [HttpParser.callbacks, execute_of_ok h.inv.base.ok hne heq, HttpParser.callbacks,
    List.append_nil, machineEvents, flushed]
  obtain ⟨hinv, ph, hfits, -, -⟩ := h
  obtain ⟨ph', hleads⟩ := run_goes hinv hfits data
  obtain ⟨os', hos⟩ := hleads.exit hexit
  rw [hos, Marks.run_append]
  exact List.mem_append_left _ (List.mem_append_right _ List.mem_cons_self)

/-- The parser goes on behind some reads if and only if it does behind all of them at once; and
    the requests are those of two lists of callbacks of which one is the other in fragments. -/
theorem stream_fragments {K : DataFor → Prop} {reads : List Bytes} (h : Running p tn)
    (hne : reads ≠ []) (hnil : ∀ r ∈ reads, r ≠ []) (hshort : reads.flatten.length < 2 ^ 31)
    (hup : .messageComplete true ∉ requestParser.callbacks p [reads.flatten])
    (hcut : CutIn K p reads) :
    ((requestParser.after p reads).httpErrno = .ok ↔
        (requestParser.after p [reads.flatten]).httpErrno = .ok) ∧
      ((requestParser.after p reads).httpErrno = .ok →
        requestParser.after p reads = requestParser.after p [reads.flatten] ∧
          Fragmented (fragment K) (requestParser.callbacks p reads)
            (requestParser.callbacks p [reads.flatten])) ∧
      ∃ es' es, Fragmented (fragment K) es' es ∧
        (∀ s, requestsSeen s (requestParser.callbacks p reads) = requestsSeen s es') ∧
        ∀ s, requestsSeen s (requestParser.callbacks p [reads.flatten]) = requestsSeen s es := by
  have hflat : reads.flatten ≠ [] := by
    obtain ⟨r, rs, rfl⟩ := List.exists_cons_of_ne_nil hne
    intro hnone
    exact hnil r List.mem_cons_self (List.append_eq_nil_iff.mp hnone).1
  have hpiece : ∀ r ∈ reads, r.length < 2 ^ 31 := by
    intro r hr
    have hle := (List.sublist_flatten_of_mem hr).length_le
    omega
  have hexit := machine_stop h hflat hshort hup
  have hfragments := machinePieces_fragmented h hne hcut
  obtain ⟨hnone, herror⟩ := callbacks_machine h hnil hpiece hexit
  obtain ⟨p', es, n, heq, hfine, hbad⟩ := execute_machine h hshort
  have hcall := execute_of_ok h.inv.base.ok hflat heq
  have hevents : requestParser.callbacks p [reads.flatten] = es := by
    rw [HttpParser.callbacks, hcall, HttpParser.callbacks, List.append_nil]
  have hafter : requestParser.after p [reads.flatten] = p' := by
    rw [HttpParser.after, List.foldl_cons, hcall]
    rfl
  rw [hevents, hafter]
  rcases hstop : (byteMachine.run p reads.flatten).stop with _ | halt
  · obtain ⟨rfl, rfl⟩ := hfine (by rw [hstop]; exact fun h => by cases h)
    obtain ⟨hstate, hpieces⟩ := hnone hstop
    rw [hstate, hpieces]
    exact ⟨Iff.rfl, fun _ => ⟨rfl, hfragments⟩, _, _, hfragments, fun _ => rfl, fun _ => rfl⟩
  · obtain rfl : halt = .error := by
      cases halt with
      | error => rfl
      | exit => exact absurd hstop hexit
      | abort => exact absurd hstop (run_safe h.inv reads.flatten).abort
    obtain ⟨herrno, a, t, t', hcallbacks, hpieces, ht, ht'⟩ := herror hstop
    obtain ⟨herrno', b, u, u', hwhole, hmachine, hu, hu'⟩ := hbad hstop
    have hsame : ∀ {c v v' : List ReqEvent}, Silent v → Silent v' → ∀ s,
        requestsSeen s (c ++ v) = requestsSeen s (c ++ v') := by
      intro c v v' hv hv' s
      rw [requestsSeen_append, requestsSeen_append, requestsSeen_silent hv,
        requestsSeen_silent hv']
    refine ⟨iff_of_false herrno herrno', fun hok => absurd hok herrno, _, _, hfragments, ?_, ?_⟩
    · rw [hcallbacks, hpieces]
      exact hsame ht ht'
    · rw [hwhole, hmachine]
      exact hsame hu hu'

/-- Any element may be cut. -/
theorem cutIn_true (p : HttpParserData) (reads : List Bytes) : CutIn (fun _ => True) p reads := by
  induction reads generalizing p with
  | nil => trivial
  | cons r rs ih =>
    cases rs with
    | nil => trivial
    | cons r' rs => exact fun _ => ⟨fun _ _ => trivial, ih _⟩

/-- **What the pieces of a stream do not change**: whether the parser goes on or ends in the error
    state, and where to; the callbacks, but for the fragments of urls, names, values and bodies;
    and the number of the requests that are handled, their methods, versions and bodies. -/
theorem stream_cut {reads : List Bytes} (hne : reads ≠ []) (hnil : ∀ r ∈ reads, r ≠ [])
    (hshort : reads.flatten.length < 2 ^ 31)
    (hup : .messageComplete true ∉ requestParser.callbacks start [reads.flatten]) :
    ((requestParser.after start reads).httpErrno = .ok ↔
        (requestParser.after start [reads.flatten]).httpErrno = .ok) ∧
      ((requestParser.after start reads).httpErrno = .ok →
        requestParser.after start reads = requestParser.after start [reads.flatten] ∧
          Fragmented (fragment fun _ => True) (requestParser.callbacks start reads)
            (requestParser.callbacks start [reads.flatten])) ∧
      ∀ s, (requestsSeen s (requestParser.callbacks start reads)).map core =
        (requestsSeen s (requestParser.callbacks start [reads.flatten])).map core := by
  obtain ⟨hiff, hok, es', es, hfragments, hpieces, hwhole⟩ :=
    stream_fragments Running.init hne hnil hshort hup (cutIn_true start reads)
  refine ⟨hiff, hok, fun s => ?_⟩
  rw [show start = ParserData.init ParserMembers.zero from rfl, hpieces s, hwhole s]
  exact core_fragmented hfragments s

/-- A body in two pieces. -/
theorem stream_cut_body :
    ((requestParser.after start
          [str "PUT /a HTTP/1.1\r\nContent-Length: 2\r\n\r\nx", str "y"]).httpErrno = .ok ↔
        (requestParser.after start
          [str "PUT /a HTTP/1.1\r\nContent-Length: 2\r\n\r\nxy"]).httpErrno = .ok) ∧
      (requestsSeen ⟨.init .get, []⟩ (requestParser.callbacks start
          [str "PUT /a HTTP/1.1\r\nContent-Length: 2\r\n\r\nx", str "y"])).map core =
        (requestsSeen ⟨.init .get, []⟩ (requestParser.callbacks start
          [str "PUT /a HTTP/1.1\r\nContent-Length: 2\r\n\r\nxy"])).map core := by
  have hne : [str "PUT /a HTTP/1.1\r\nContent-Length: 2\r\n\r\nx", str "y"] ≠ [] := by decide
  have h := stream_cut hne (by decide) (by decide) (by decide +kernel)
  exact ⟨h.1, h.2.2 _⟩

theorem inElement_of_startMark {st : ParserState} (h : startMark st = none) (k : DataFor)
    (hk : inElement st = some k) : k = .body := by
  cases st <;> first
    | exact (Option.some.inj hk).symm
    | exact absurd (h.symm.trans hk) nofun

/-- Reads that end outside of urls, names and values. -/
theorem cutIn_body {reads : List Bytes} (h : Running p tn) (hnil : ∀ r ∈ reads, r ≠ [])
    (hshort : Short reads)
    (hout : ∀ n, 0 < n → n < reads.length →
      (requestParser.after p (reads.take n)).httpErrno = .ok →
      startMark (requestParser.after p (reads.take n)).state = none) :
    CutIn (fun k => k = .body) p reads := by
  induction reads generalizing p tn with
  | nil => trivial
  | cons r rs ih =>
    cases rs with
    | nil => trivial
    | cons r' rs =>
      intro hstop
      obtain ⟨p', es, n, heq, hfine, -⟩ := execute_machine h (hshort r List.mem_cons_self)
      obtain ⟨rfl, -⟩ := hfine (by rw [hstop]; exact fun h => by cases h)
      have hcall := execute_of_ok h.inv.base.ok (hnil r List.mem_cons_self) heq
      obtain ⟨tn', hrunning⟩ := running_run h hstop
      have hafter : ∀ n, requestParser.after p ((r :: r' :: rs).take (n + 1)) =
          requestParser.after (byteMachine.run p r).state ((r' :: rs).take n) := by
        intro n
        rw [List.take_succ_cons, HttpParser.after, List.foldl_cons, hcall]
        rfl
      refine ⟨?_, ih hrunning (fun r hr => hnil r (List.mem_cons_of_mem _ hr))
        (fun r hr => hshort r (List.mem_cons_of_mem _ hr)) fun n hpos hn hok => ?_⟩
      · have hone := hout 1 Nat.one_pos (by simp)
        rw [hafter 0] at hone
        exact inElement_of_startMark (hone hrunning.inv.base.ok)
      · have hnext := hout (n + 1) (Nat.succ_pos n) (Nat.succ_lt_succ hn)
        rw [hafter n] at hnext
        exact hnext hok

end RequestParser

end MyWebSocket
