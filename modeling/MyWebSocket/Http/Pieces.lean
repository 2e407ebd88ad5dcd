import MyWebSocket.Http.Request

namespace MyWebSocket

/-!
# Requests that arrive in pieces

`http_parser` reports an element of a request (url, header name, header value, body) as one
piece, or as several when reads end inside the element; the piece it reports at the start of a
read may be empty, when the element has ended exactly there.

The callbacks treat the pieces of one element in four ways: `onReqURL` and `onReqHeaderField`
keep the last, `onReqHeaderValue` keeps the first and `onReqBody` keeps them all.  So a cut
through the body is unobservable and a cut through anything else is not: `seen_cut_iff`.
-/

/-! ### Pieces and cuts -/

/-- The pieces of an element, at least one. -/
structure Pieces where
  first : Bytes
  rest : List Bytes
deriving DecidableEq, Repr

namespace Pieces

def toList (p : Pieces) : List Bytes := p.first :: p.rest

/-- The element. -/
def whole (p : Pieces) : Bytes := p.toList.flatten

def last (p : Pieces) : Bytes := p.toList.getLast (List.cons_ne_nil _ _)

/-- The element in one piece. -/
def join (p : Pieces) : Pieces := ⟨p.whole, []⟩

@[simp] theorem join_whole (p : Pieces) : p.join.whole = p.whole := by
  simp [join, whole, toList]

@[simp] theorem join_first (p : Pieces) : p.join.first = p.whole := rfl

@[simp] theorem join_last (p : Pieces) : p.join.last = p.whole := rfl

theorem last_suffix (p : Pieces) : p.last <:+ p.whole := by
  have hsplit : p.toList = p.toList.dropLast ++ [p.last] := (List.dropLast_append_getLast _).symm
  rw [whole, hsplit, List.flatten_append]
  exact ⟨p.toList.dropLast.flatten, by simp⟩

end Pieces

/-- A callback whose data may come in pieces. -/
inductive Cut
  | url (p : Pieces)
  | headerField (p : Pieces)
  | headerValue (p : Pieces)
  | headersComplete (method : HttpMethod) (major minor : Nat)
  | body (p : Pieces)
deriving DecidableEq, Repr

namespace Cut

/-- The callbacks made for it. -/
def events : Cut → List ReqEvent
  | url p => p.toList.map .url
  | headerField p => p.toList.map .headerField
  | headerValue p => p.toList.map .headerValue
  | headersComplete method major minor => [.headersComplete method major minor]
  | body p => p.toList.map .body

/-- The pieces of a url. -/
def url? : Cut → Option Pieces
  | url p => some p
  | _ => none

/-- The same element, not cut. -/
def join : Cut → Cut
  | url p => url p.join
  | headerField p => headerField p.join
  | headerValue p => headerValue p.join
  | headersComplete method major minor => headersComplete method major minor
  | body p => body p.join

end Cut

/-- The callbacks of one request whose elements come in pieces. -/
def requestEvents (cs : List Cut) (upgrade : Bool) : List ReqEvent :=
  .messageBegin :: (cs.flatMap Cut.events ++ [.messageComplete upgrade])

/-! ### What is kept of the pieces -/

/-- What the callbacks for an element do, in one go. -/
def ReqState.onCut (s : ReqState) : Cut → ReqState
  | .url p => s.onReqURL p.last
  | .headerField p => s.onReqHeaderField p.last
  | .headerValue p => s.onReqHeaderValue p.first
  | .headersComplete method major minor => s.onReqHeaderComplete method major minor
  | .body p => s.onReqBody p.whole

namespace ReqState

theorem onAll_append (s : ReqState) (es fs : List ReqEvent) :
    s.onAll (es ++ fs) = (s.onAll es).onAll fs := List.foldl_append

/-- Callbacks that overwrite: the last piece stays. -/
theorem onAll_overwrite {f : Bytes → ReqEvent} {g : ReqState → Bytes → ReqState}
    (hfg : ∀ s d, s.on (f d) = g s d) (hover : ∀ s d d', g (g s d) d' = g s d') (s : ReqState)
    (p : Pieces) : s.onAll (p.toList.map f) = g s p.last := by
  obtain ⟨d, ds⟩ := p
  induction ds generalizing s d with
  | nil => exact hfg s d
  | cons d' ds ih =>
    have hrest := ih (s.on (f d)) d'
    calc s.onAll ((⟨d, d' :: ds⟩ : Pieces).toList.map f)
        = (s.on (f d)).onAll ((⟨d', ds⟩ : Pieces).toList.map f) := rfl
      _ = g (g s d) (⟨d', ds⟩ : Pieces).last := by rw [hrest, hfg]
      _ = g s (⟨d, d' :: ds⟩ : Pieces).last := by
        rw [hover]
        simp [Pieces.last, Pieces.toList]

/-- `onReqHeaderValue` ignores a name it knows: the first piece stays. -/
theorem onAll_headerValue (s : ReqState) (p : Pieces) :
    s.onAll (p.toList.map .headerValue) = s.onReqHeaderValue p.first := by
  obtain ⟨d, ds⟩ := p
  -- `insert` of a key that is there does nothing
  have hagain : ∀ d', (s.onReqHeaderValue d).onReqHeaderValue d' = s.onReqHeaderValue d := by
    intro d'
    simp [onReqHeaderValue, Entries.insertNew_insertNew]
  have hrest : ∀ ds : List Bytes,
      (s.onReqHeaderValue d).onAll (ds.map .headerValue) = s.onReqHeaderValue d := by
    intro ds
    induction ds with
    | nil => rfl
    | cons d' ds ih =>
      show ((s.onReqHeaderValue d).onReqHeaderValue d').onAll (ds.map .headerValue) = _
      rw [hagain, ih]
  exact hrest ds

/-- `onReqBody` appends: all pieces stay. -/
theorem onAll_body (s : ReqState) (p : Pieces) :
    s.onAll (p.toList.map .body) = s.onReqBody p.whole := by
  have happend : ∀ (s : ReqState) (ds : List Bytes),
      s.onAll (ds.map .body) = s.onReqBody ds.flatten := by
    intro s ds
    induction ds generalizing s with
    | nil => simp [onAll, onReqBody]
    | cons d ds ih =>
      show (s.onReqBody d).onAll (ds.map .body) = _
      rw [ih]
      simp [onReqBody]
  exact happend s p.toList

theorem onAll_events (s : ReqState) (c : Cut) : s.onAll c.events = s.onCut c := by
  cases c with
  | url p => exact onAll_overwrite (g := onReqURL) (fun _ _ => rfl) (fun _ _ _ => rfl) s p
  | headerField p =>
    exact onAll_overwrite (g := onReqHeaderField) (fun _ _ => rfl) (fun _ _ _ => rfl) s p
  | headerValue p => exact onAll_headerValue s p
  | headersComplete method major minor => rfl
  | body p => exact onAll_body s p

theorem onAll_flatMap_events (s : ReqState) (cs : List Cut) :
    s.onAll (cs.flatMap Cut.events) = cs.foldl onCut s := by
  induction cs generalizing s with
  | nil => rfl
  | cons c cs ih => rw [List.flatMap_cons, onAll_append, onAll_events, ih, List.foldl_cons]

end ReqState

/-! ### The request that results -/

/-- The pieces of the last url. -/
def lastUrl (cs : List Cut) : Option Pieces := (cs.filterMap Cut.url?).getLast?

/-- The header entries, given what becomes of names and values; `key` is the name in force
    before the first. -/
def headerEntries (name value : Pieces → Bytes) : Bytes → List Cut → List (Bytes × Bytes)
  | _, [] => []
  | _, .headerField p :: cs => headerEntries name value ((name p).map toLower) cs
  | key, .headerValue p :: cs => (key, value p) :: headerEntries name value key cs
  | key, _ :: cs => headerEntries name value key cs

/-- The body. -/
def bodyOf (cs : List Cut) : Bytes := cs.flatMap fun | .body p => p.whole | _ => []

theorem lastUrl_cons (c : Cut) (cs : List Cut) :
    lastUrl (c :: cs) = (lastUrl cs).or c.url? := by
  unfold lastUrl
  rcases h : c.url? with _ | p
  · rw [List.filterMap_cons_none h, Option.or_none]
  · rw [List.filterMap_cons_some h, List.getLast?_cons]
    rcases (cs.filterMap Cut.url?).getLast? with _ | q <;> rfl

theorem lastUrl_map_join (cs : List Cut) :
    lastUrl (cs.map Cut.join) = (lastUrl cs).map Pieces.join := by
  induction cs with
  | nil => rfl
  | cons c cs ih =>
    rw [List.map_cons, lastUrl_cons, lastUrl_cons, ih]
    cases c <;> rcases lastUrl cs with _ | q <;> rfl

theorem headerEntries_map_join (key : Bytes) (cs : List Cut) :
    headerEntries Pieces.last Pieces.first key (cs.map Cut.join) =
      headerEntries Pieces.whole Pieces.whole key cs := by
  induction cs generalizing key with
  | nil => rfl
  | cons c cs ih => cases c <;> simp [headerEntries, Cut.join, ih]

theorem bodyOf_map_join (cs : List Cut) : bodyOf (cs.map Cut.join) = bodyOf cs := by
  induction cs with
  | nil => rfl
  | cons c cs ih =>
    unfold bodyOf at ih ⊢
    rw [List.map_cons, List.flatMap_cons, List.flatMap_cons, ih]
    cases c <;> simp [Cut.join]

namespace ReqState

theorem foldl_onCut_url (s : ReqState) (cs : List Cut) :
    (cs.foldl onCut s).req.url = (lastUrl cs).elim s.req.url Pieces.last := by
  induction cs generalizing s with
  | nil => rfl
  | cons c cs ih =>
    rw [List.foldl_cons, ih, lastUrl_cons]
    rcases lastUrl cs with _ | q
    · cases c <;> rfl
    · rfl

theorem foldl_onCut_headers (s : ReqState) (cs : List Cut) :
    (cs.foldl onCut s).req.headers =
      (headerEntries Pieces.last Pieces.first s.tmpKey cs).foldl Entries.insertNew
        s.req.headers := by
  induction cs generalizing s with
  | nil => rfl
  | cons c cs ih =>
    rw [List.foldl_cons, ih]
    cases c <;> rfl

theorem foldl_onCut_body (s : ReqState) (cs : List Cut) :
    (cs.foldl onCut s).req.body = s.req.body ++ bodyOf cs := by
  induction cs generalizing s with
  | nil => simp [bodyOf]
  | cons c cs ih =>
    rw [List.foldl_cons, ih]
    cases c <;> simp [onCut, onReqURL, onReqHeaderField, onReqHeaderValue, onReqHeaderComplete,
      onReqBody, bodyOf]

/-- Method and version do not depend on the pieces. -/
theorem foldl_onCut_method_version {s t : ReqState} (cs : List Cut)
    (h : s.req.method = t.req.method ∧ s.req.version = t.req.version) :
    (cs.foldl onCut s).req.method = ((cs.map Cut.join).foldl onCut t).req.method ∧
      (cs.foldl onCut s).req.version = ((cs.map Cut.join).foldl onCut t).req.version := by
  induction cs generalizing s t with
  | nil => exact h
  | cons c cs ih =>
    rw [List.map_cons, List.foldl_cons, List.foldl_cons]
    apply ih
    cases c with
    | headersComplete method major minor => exact ⟨rfl, rfl⟩
    | _ => exact h

end ReqState

/-! ### Cuts that show -/

/-- The url is seen whole: the pieces in front of its last one are empty. -/
def UrlKept (cs : List Cut) : Prop := ∀ p, lastUrl cs = some p → p.last = p.whole

/-- The header entries as they are kept: the last piece of a name, the first of a value. -/
abbrev keptHeaders (key : Bytes) (cs : List Cut) : List (Bytes × Bytes) :=
  headerEntries Pieces.last Pieces.first key cs

/-- The header entries as they were sent. -/
abbrev sentHeaders (key : Bytes) (cs : List Cut) : List (Bytes × Bytes) :=
  headerEntries Pieces.whole Pieces.whole key cs

/-- For every name the first header kept under it is the first one sent under it. -/
def HeadersKept (key : Bytes) (cs : List Cut) : Prop :=
  ∀ k, (keptHeaders key cs).lookup k = (sentHeaders key cs).lookup k

theorem url_eq_iff (cs : List Cut) :
    (lastUrl cs).elim [] Pieces.last = (lastUrl (cs.map Cut.join)).elim [] Pieces.last ↔
      UrlKept cs := by
  rw [lastUrl_map_join]
  unfold UrlKept
  rcases lastUrl cs with _ | p <;> simp

theorem headers_eq_iff (key : Bytes) (cs : List Cut) :
    (keptHeaders key cs).foldl Entries.insertNew (∅ : HeaderMap) =
        (keptHeaders key (cs.map Cut.join)).foldl Entries.insertNew (∅ : HeaderMap) ↔
      HeadersKept key cs := by
  unfold keptHeaders
  rw [headerEntries_map_join]
  unfold HeadersKept
  constructor
  · intro h k
    have hk := congrArg (fun m : HeaderMap => m.lookup k) h
    simpa [Entries.lookup_foldl_insertNew] using hk
  · intro h
    apply Finmap.ext_lookup
    intro k
    rw [Entries.lookup_foldl_insertNew, Entries.lookup_foldl_insertNew, h k]

/-- Kept names are no longer than the sent ones, and the same if they are as long. -/
theorem forall₂_headers {key key' : Bytes} (cs : List Cut) (hle : key.length ≤ key'.length)
    (heq : key.length = key'.length → key = key') :
    List.Forall₂ (fun e e' => e.1.length ≤ e'.1.length) (keptHeaders key cs) (sentHeaders key' cs) ∧
      List.Forall₂ (fun e e' => e.1.length = e'.1.length → e.1 = e'.1)
        (keptHeaders key cs) (sentHeaders key' cs) := by
  induction cs generalizing key key' with
  | nil => exact ⟨.nil, .nil⟩
  | cons c cs ih =>
    cases c with
    | headerValue p =>
      obtain ⟨h₁, h₂⟩ := ih hle heq
      exact ⟨.cons hle h₁, .cons heq h₂⟩
    | headerField p =>
      -- the last piece of a name is a suffix of it
      refine ih ?_ ?_
      · simpa using p.last_suffix.length_le
      · intro hlen
        rw [List.length_map, List.length_map] at hlen
        rw [p.last_suffix.eq_of_length hlen]
    | _ => exact ih hle heq

/-- **Distinct names.**  If no name is sent twice, the headers are seen as sent only if every
    one is kept as sent. -/
theorem headersKept_iff {key : Bytes} {cs : List Cut}
    (hnodup : ((sentHeaders key cs).map Prod.fst).Nodup) :
    HeadersKept key cs ↔ keptHeaders key cs = sentHeaders key cs := by
  constructor
  · intro h
    obtain ⟨hle, hsize⟩ := forall₂_headers cs (Nat.le_refl key.length) fun _ => rfl
    exact Entries.eq_of_lookup_eq List.length hle hsize hnodup h
  · intro h k
    rw [h]

theorem requestsSeen_requestEvents (s : ReqState) (cs : List Cut) (upgrade : Bool) :
    requestsSeen s (requestEvents cs upgrade) =
      [(cs.foldl ReqState.onCut s.onReqMessageBegin).seen] := by
  -- nothing is seen before `onReqMessageComplete`
  have hall : ∀ (es : List ReqEvent) (s : ReqState),
      (∀ e ∈ es, ∀ up, e ≠ .messageComplete up) →
      requestsSeen s (es ++ [.messageComplete upgrade]) = [(s.onAll es).seen] := by
    intro es
    induction es with
    | nil => exact fun s _ => rfl
    | cons e es ih =>
      intro s hes
      have hrest := ih (s.on e) fun e' he' => hes e' (List.mem_cons_of_mem _ he')
      cases e with
      | messageComplete up => exact absurd rfl (hes _ List.mem_cons_self up)
      | _ => exact hrest
  have hinner : ∀ e ∈ cs.flatMap Cut.events, ∀ up, e ≠ .messageComplete up := by
    rintro e he up rfl
    obtain ⟨c, -, hc⟩ := List.mem_flatMap.mp he
    cases c <;> simp [Cut.events] at hc
  show requestsSeen s.onReqMessageBegin _ = _
  rw [hall _ _ hinner, ReqState.onAll_flatMap_events]

/-- **Which cuts show.**  Let `http_parser` report the elements of a request in the pieces
    `cs` when it is read in `reads`, and in one piece each when it is read at once.  Then
    `handle_request` sees the same request both times if and only if the last piece of the url
    is the whole url and, for every name, the first header kept under it is the first one sent
    under it; where no name is sent twice, that is to say that every header is kept as
    sent. -/
theorem seen_cut_iff {ρ : Type} (P : HttpParser ρ) (p : ρ) (s : ReqState) (reads : List Bytes)
    (cs : List Cut) (upgrade : Bool)
    (hcut : P.callbacks p reads = requestEvents cs upgrade)
    (hwhole : P.callbacks p [reads.flatten] = requestEvents (cs.map Cut.join) upgrade) :
    (requestsSeen s (P.callbacks p reads) = requestsSeen s (P.callbacks p [reads.flatten]) ↔
        UrlKept cs ∧ HeadersKept s.tmpKey cs) ∧
      (((sentHeaders s.tmpKey cs).map Prod.fst).Nodup →
        (HeadersKept s.tmpKey cs ↔ keptHeaders s.tmpKey cs = sentHeaders s.tmpKey cs)) := by
  refine ⟨?_, headersKept_iff⟩
  rw [hcut, hwhole, requestsSeen_requestEvents, requestsSeen_requestEvents, ← url_eq_iff,
    ← headers_eq_iff]
  obtain ⟨hmethod, hversion⟩ := ReqState.foldl_onCut_method_version (s := s.onReqMessageBegin) cs
    ⟨rfl, rfl⟩
  simp only [List.cons.injEq, and_true, ReqState.seen, Seen.mk.injEq, hmethod, hversion,
    ReqState.foldl_onCut_url, ReqState.foldl_onCut_headers, ReqState.foldl_onCut_body,
    bodyOf_map_join]
  simp [ReqState.onReqMessageBegin]

/-- A parser that knows a few inputs: after the bytes of the first component, reading those of
    the second makes the given callbacks. -/
def tableParser (table : List ((Bytes × Bytes) × List ReqEvent)) : HttpParser Bytes :=
  { init := []
    execute := fun p d => (p ++ d, (table.lookup (p, d)).getD [], d.length) }

/-- A request cut behind its request line. -/
theorem seen_cut_iff_request_line :
    let P := tableParser
      [(([], str "GET /a HTTP/1.1\r\n"), [.messageBegin, .url (str "/a")]),
        ((str "GET /a HTTP/1.1\r\n", str "Host: x\r\n\r\n"),
          [.headerField (str "Host"), .headerValue (str "x"), .headersComplete .get 1 1,
            .messageComplete false]),
        (([], str "GET /a HTTP/1.1\r\nHost: x\r\n\r\n"),
          [.messageBegin, .url (str "/a"), .headerField (str "Host"), .headerValue (str "x"),
            .headersComplete .get 1 1, .messageComplete false])]
    let reads := [str "GET /a HTTP/1.1\r\n", str "Host: x\r\n\r\n"]
    requestsSeen ⟨.init .get, []⟩ (P.callbacks [] reads) =
      requestsSeen ⟨.init .get, []⟩ (P.callbacks [] [reads.flatten]) := by
  intro P reads
  have hiff := (seen_cut_iff P [] ⟨.init .get, []⟩ reads
    [.url ⟨str "/a", []⟩, .headerField ⟨str "Host", []⟩, .headerValue ⟨str "x", []⟩,
      .headersComplete .get 1 1] false (by decide) (by decide)).1
  refine hiff.mpr ⟨?_, fun k => ?_⟩
  · rintro p hp
    obtain rfl : (⟨str "/a", []⟩ : Pieces) = p := Option.some.inj hp
    decide
  · have heq : keptHeaders [] [.url ⟨str "/a", []⟩, .headerField ⟨str "Host", []⟩,
          .headerValue ⟨str "x", []⟩, .headersComplete .get 1 1] =
        sentHeaders [] [.url ⟨str "/a", []⟩, .headerField ⟨str "Host", []⟩,
          .headerValue ⟨str "x", []⟩, .headersComplete .get 1 1] := by decide
    rw [heq]

/-- `GET /ab` cut inside its url: the two callbacks of the url leave `b`. -/
theorem cut_url_shows :
    let P := tableParser
      [(([], str "GET /a"), [.messageBegin, .url (str "/a")]),
        ((str "GET /a", str "b HTTP/1.1\r\n\r\n"),
          [.url (str "b"), .headersComplete .get 1 1, .messageComplete false]),
        (([], str "GET /ab HTTP/1.1\r\n\r\n"),
          [.messageBegin, .url (str "/ab"), .headersComplete .get 1 1, .messageComplete false])]
    let reads := [str "GET /a", str "b HTTP/1.1\r\n\r\n"]
    let cs := [Cut.url ⟨str "/a", [str "b"]⟩, .headersComplete .get 1 1]
    P.callbacks [] reads = requestEvents cs false ∧
      P.callbacks [] [reads.flatten] = requestEvents (cs.map Cut.join) false ∧
      (requestsSeen ⟨.init .get, []⟩ (P.callbacks [] reads)).map Seen.url = [str "b"] ∧
      (requestsSeen ⟨.init .get, []⟩ (P.callbacks [] [reads.flatten])).map Seen.url =
        [str "/ab"] := by
  decide

end MyWebSocket
