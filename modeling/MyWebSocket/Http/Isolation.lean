import MyWebSocket.Http.Router

namespace MyWebSocket

/-!
# Requests on one connection

One request object serves all requests of a connection.  `onReqMessageBegin` resets url,
headers, body and the query cache, every request sets method and version, but the path
parameters are only ever cleared when the router finds no route.

* `Request` is one request as the parser reports it, `Request.serve` what the session does
  with it up to and including the handler;
* `onAll_seen` — what the parser fills in does not depend on what was there before;
* `observed_eq_iff` — a handler observes the same after two histories of earlier requests if
  and only if these leave the same parameters, but for those its own route assigns.
-/

/-! ### Requests and handlers -/

/-- No header value comes before the first header name. -/
def FieldFirst : List ReqEvent → Prop
  | [] => True
  | .headerField _ :: _ => True
  | .headerValue _ :: _ => False
  | _ :: es => FieldFirst es

instance : ∀ es : List ReqEvent, Decidable (FieldFirst es)
  | [] => inferInstanceAs (Decidable True)
  | .headerField _ :: _ => inferInstanceAs (Decidable True)
  | .headerValue _ :: _ => inferInstanceAs (Decidable False)
  | .messageBegin :: es => instDecidableFieldFirst es
  | .url _ :: es => instDecidableFieldFirst es
  | .headersComplete _ _ _ :: es => instDecidableFieldFirst es
  | .body _ :: es => instDecidableFieldFirst es
  | .messageComplete _ :: es => instDecidableFieldFirst es

/-- The callback stands between those for begin and end of a message. -/
def ReqEvent.isInner : ReqEvent → Bool
  | .messageBegin => false
  | .messageComplete _ => false
  | _ => true

/-- `on_headers_complete`. -/
def ReqEvent.isHeadersComplete : ReqEvent → Bool
  | .headersComplete _ _ _ => true
  | _ => false

/-- A request: the callbacks between `on_message_begin` and `on_message_complete`, and
    `parser->upgrade` at the end.  The parser reports the end of the headers, and a name
    before each value. -/
structure Request where
  events : List ReqEvent
  upgrade : Bool
  inner : events.all ReqEvent.isInner = true
  complete : events.any ReqEvent.isHeadersComplete = true
  fieldFirst : FieldFirst events

/-- What a handler can observe of its request. -/
structure Observation where
  url : Bytes
  headers : HeaderMap
  body : Bytes
  method : HttpMethod
  version : Bytes
  params : HeaderMap
  query : Option HeaderMap
deriving DecidableEq

/-- The request as the handler finds it. -/
def HttpReq.observe (r : HttpReq) : Observation :=
  { url := r.url, headers := r.headers, body := r.body, method := r.method, version := r.version,
    params := r.params, query := r.query.map Prod.fst }

/-- What `upgradeToWs` does to the request: `operator[]` enters a missing name. -/
def ReqState.upgradeToWs (s : ReqState) : ReqState :=
  { s with req := { s.req with
      headers := Entries.insertNew s.req.headers (str "sec-websocket-key", []) } }

section Serve

variable {η : Type} (router : Router η) (act : η → HttpReq → HttpReq)

/-- The request once all of it has been parsed. -/
def Request.parsed (r : Request) (s : ReqState) : ReqState :=
  s.onReqMessageBegin.onAll r.events

/-- A request from its first callback to the return of its handler: the request object
    afterwards, and what the handler observed, if there was one.  `act` is what handlers do to
    the request object they are given. -/
def Request.serve (s : ReqState) (r : Request) : ReqState × Option Observation :=
  let s := r.parsed s
  if r.upgrade then (s.upgradeToWs, none)
  else
    match router.dispatch s.req with
    | (req, some handler) => ({ s with req := act handler req }, some req.observe)
    | (req, none) => ({ s with req := req }, none)

/-- The request object after the requests of a history. -/
def afterHistory (s : ReqState) (history : List Request) : ReqState :=
  history.foldl (fun s r => (Request.serve router act s r).1) s

/-- What the handler of `r` observes when `r` comes after a history. -/
def observed (s : ReqState) (history : List Request) (r : Request) : Option Observation :=
  (Request.serve router act (afterHistory router act s history) r).2

end Serve

/-! ### What the parser fills in -/

/-- What the callbacks of a request leave does not depend on what they find, given that names
    come before values and the end of the headers is reported. -/
theorem onAll_seen {es : List ReqEvent} {s t : ReqState}
    (hurl : s.req.url = t.req.url) (hheaders : s.req.headers = t.req.headers)
    (hbody : s.req.body = t.req.body) (hfield : s.tmpKey = t.tmpKey ∨ FieldFirst es)
    (hcomplete : (s.req.method = t.req.method ∧ s.req.version = t.req.version) ∨
      es.any ReqEvent.isHeadersComplete = true) :
    (s.onAll es).seen = (t.onAll es).seen := by
  induction es generalizing s t with
  | nil =>
    obtain ⟨hmethod, hversion⟩ : s.req.method = t.req.method ∧ s.req.version = t.req.version := by
      simpa using hcomplete
    simp [ReqState.onAll, ReqState.seen, hurl, hheaders, hbody, hmethod, hversion]
  | cons e es ih =>
    show ((s.on e).onAll es).seen = ((t.on e).onAll es).seen
    cases e with
    | headerField data =>
      exact ih hurl hheaders hbody (.inl rfl) hcomplete
    | headerValue data =>
      have hkey : s.tmpKey = t.tmpKey := hfield.resolve_right id
      refine ih hurl ?_ hbody (.inl hkey) hcomplete
      simp [ReqState.on, ReqState.onReqHeaderValue, hheaders, hkey]
    | headersComplete method major minor => exact ih hurl hheaders hbody hfield (.inl ⟨rfl, rfl⟩)
    | messageBegin =>
      exact ih rfl rfl rfl hfield hcomplete
    | url data =>
      exact ih rfl hheaders hbody hfield hcomplete
    | body data =>
      refine ih hurl hheaders ?_ hfield hcomplete
      simp [ReqState.on, ReqState.onReqBody, hbody]
    | messageComplete upgrade =>
      exact ih hurl hheaders hbody hfield hcomplete

/-- No callback inside a request touches the parameters or the query cache. -/
theorem onAll_params {es : List ReqEvent} (s : ReqState) (hes : es.all ReqEvent.isInner = true) :
    (s.onAll es).req.params = s.req.params ∧
      (s.onAll es).req.isQueryParamsParsed = s.req.isQueryParamsParsed := by
  induction es generalizing s with
  | nil => exact ⟨rfl, rfl⟩
  | cons e es ih =>
    rw [List.all_cons, Bool.and_eq_true] at hes
    obtain ⟨hparams, hquery⟩ := ih (s.on e) hes.2
    show ((s.on e).onAll es).req.params = _ ∧ ((s.on e).onAll es).req.isQueryParamsParsed = _
    -- `onReqMessageBegin` clears the query cache, and it is not an inner callback
    rw [hparams, hquery]
    cases e with
    | messageBegin => exact absurd hes.1 (by simp [ReqEvent.isInner])
    | _ => exact ⟨rfl, rfl⟩

namespace Request

variable (r : Request)

/-- The request as the parser reports it. -/
def seen : Seen := (r.parsed ⟨.init .get, []⟩).seen

theorem parsed_seen (s : ReqState) : (r.parsed s).seen = r.seen :=
  onAll_seen rfl rfl rfl (.inr r.fieldFirst) (.inr r.complete)

theorem parsed_params (s : ReqState) :
    (r.parsed s).req.params = s.req.params ∧ (r.parsed s).req.isQueryParamsParsed = false :=
  onAll_params s.onReqMessageBegin r.inner

/-- The parsed request, but for its parameters, is the one the parser reports. -/
theorem observe_parsed (s : ReqState) (params : HeaderMap) :
    HttpReq.observe { (r.parsed s).req with params := params } =
      { url := r.seen.url, headers := r.seen.headers, body := r.seen.body,
        method := r.seen.method, version := r.seen.version, params := params,
        query := urlDecode r.seen.url } := by
  have hseen := r.parsed_seen s
  have hquery := (r.parsed_params s).2
  rw [← hseen]
  simp [HttpReq.observe, HttpReq.query, hquery, ReqState.seen, Function.comp_def]

/-- The route the request is dispatched to, with the match results. -/
def route {η : Type} (router : Router η) : Option (Route η × List Bytes) :=
  if r.upgrade then none else router.firstMatch r.seen.method (pathOf r.seen.url)

end Request

section Isolation

variable {η : Type} (router : Router η) (act : η → HttpReq → HttpReq)

/-- What a handler observes: the request as reported, and the parameters that were there with
    those of its route inserted. -/
theorem serve_observation (s : ReqState) (r : Request) :
    (r.serve router act s).2 = (r.route router).map fun m =>
      { url := r.seen.url, headers := r.seen.headers, body := r.seen.body,
        method := r.seen.method, version := r.seen.version,
        params := (m.1.assigned m.2).foldl (fun m e => m.insert e.1 e.2) s.req.params,
        query := urlDecode r.seen.url } := by
  unfold Request.serve Request.route
  by_cases hup : r.upgrade = true
  · simp [hup]
  · have hmethod : (r.parsed s).req.method = r.seen.method :=
      congrArg Seen.method (r.parsed_seen s)
    have hurl : (r.parsed s).req.url = r.seen.url := congrArg Seen.url (r.parsed_seen s)
    simp only [if_neg hup]
    rcases hm : router.firstMatch r.seen.method (pathOf r.seen.url) with _ | ⟨route, results⟩
    · -- no route: there is no handler
      have hnone : (router.dispatch (r.parsed s).req).2 = none :=
        Router.dispatch_of_none (by rw [hmethod, hurl]; exact hm)
      rcases hd : router.dispatch (r.parsed s).req with ⟨req, _ | handler⟩
      · rfl
      · rw [hd] at hnone
        cases hnone
    · have hmatch : router.firstMatch (r.parsed s).req.method (pathOf (r.parsed s).req.url) =
          some (route, results) := by
        rw [hmethod, hurl]
        exact hm
      rw [Router.dispatch_of_match hmatch, (r.parsed_params s).1, Option.map_some]
      exact congrArg some (r.observe_parsed s _)

/-- **What earlier requests leave visible.**  For every route table, every behaviour of the
    handlers towards the request object and any two histories of earlier requests, the handler
    of a request observes the same after both if and only if they leave the same path
    parameters, but for those that the request's own route assigns. -/
theorem observed_eq_iff (s : ReqState) (history₁ history₂ : List Request) (r : Request) :
    observed router act s history₁ r = observed router act s history₂ r ↔
      ∀ m ∈ r.route router, ∀ name, name ∉ (m.1.assigned m.2).map Prod.fst →
        (afterHistory router act s history₁).req.params.lookup name =
          (afterHistory router act s history₂).req.params.lookup name := by
  unfold observed
  rw [serve_observation, serve_observation]
  rcases r.route router with _ | m
  · simp
  · simp only [Option.map_some, Option.some.injEq, Observation.mk.injEq, true_and, and_true,
      Entries.foldl_insert_eq_iff, Option.mem_def, forall_eq']

end Isolation

/-! ### A leak -/

/-- The routes `/a/:x/:y` and `/b` of the method GET, on the paths used below. -/
def twoRoutes : Router Unit :=
  { routes := fun
      | .get => some
        [{ pattern := fun path =>
             if path = str "/a/1/2" then some [str "/a/1/2", str "1", str "2"] else none
           handler := (), paramNames := [str "x", str "y"] },
         { pattern := fun path => if path = str "/b" then some [str "/b"] else none
           handler := (), paramNames := [] }]
      | _ => none }

/-- `GET url HTTP/1.1` without headers. -/
def getRequest (url : String) : Request :=
  { events := [.url (str url), .headersComplete .get 1 1], upgrade := false, inner := rfl,
    complete := rfl, fieldFirst := trivial }

/-- The handler of `/b` sees the parameter `x` of the request before. -/
theorem params_leak :
    (observed twoRoutes (fun _ req => req) ⟨.init .get, []⟩ [] (getRequest "/b")).map
        (fun o => o.params.lookup (str "x")) = some none ∧
      (observed twoRoutes (fun _ req => req) ⟨.init .get, []⟩ [getRequest "/a/1/2"]
        (getRequest "/b")).map (fun o => o.params.lookup (str "x")) = some (some (str "1")) := by
  decide

end MyWebSocket
