import MyWebSocket.Library.Entries

namespace MyWebSocket

/-!
# HTTP requests

The request object (`httpReq`) and the callbacks of `httpserver.cpp` that fill it in while
`http_parser_execute` runs over a read.

The parser itself is a parameter, `HttpParser`: what the session sees of it is the sequence of
callbacks each call of `http_parser_execute` makes, with their arguments.  Strings are lists of
bytes.
-/

/-- The contents of a `std::string`. -/
abbrev Bytes := List UInt8

/-- The bytes of a literal. -/
def str (s : String) : Bytes := s.toList.map fun c => UInt8.ofNat c.toNat

/-- `HeaderMap` and `HttpParamMap`. -/
abbrev HeaderMap := Finmap fun _ : Bytes => Bytes

/-- `http_method`. -/
inductive HttpMethod
  | delete | get | head | post | put | connect | options | trace | copy | lock | mkcol | move
  | propfind | proppatch | search | unlock | bind | rebind | unbind | acl | report | mkactivity
  | checkout | merge | msearch | notify | subscribe | unsubscribe | patch | purge | mkcalendar
  | link | unlink | source
deriving DecidableEq, Repr

/-- `httpReq`. -/
structure HttpReq where
  url : Bytes
  headers : HeaderMap
  body : Bytes
  method : HttpMethod
  version : Bytes
  params : HeaderMap
  isQueryParamsParsed : Bool
  queryParams : HeaderMap
deriving DecidableEq

/-- `httpReq::httpReq`; `method` has no initial value. -/
def HttpReq.init (method : HttpMethod) : HttpReq :=
  { url := [], headers := ∅, body := [], method := method, version := [], params := ∅,
    isQueryParamsParsed := false, queryParams := ∅ }

/-! ### The query string -/

/-- `std::string_view::find(c, pos)`, `none` for `npos`. -/
def findFrom (s : Bytes) (c : UInt8) (pos : Nat) : Option Nat :=
  ((s.drop pos).findIdx? (· == c)).map (pos + ·)

/-- `std::string_view::substr(pos, n)`, `none` where it throws `std::out_of_range`. -/
def substr (s : Bytes) (pos n : Nat) : Option Bytes :=
  if pos ≤ s.length then some ((s.drop pos).take n) else none

/-- One pass through the loop of `urlDecode`, on the piece from `pos` to `stop`. -/
def decodePair (s : Bytes) (pos stop : Nat) (queryParams : HeaderMap) : Option HeaderMap := do
  let pairStr ← substr s pos (stop - pos)
  let (key, value) ←
    match findFrom pairStr 0x3D 0 with
    | none => some (pairStr, [])
    | some eq => do
      let key ← substr pairStr 0 eq
      let value ← substr pairStr (eq + 1) (stop - pos - eq - 1)
      some (key, value)
  some (if key.isEmpty then queryParams else queryParams.insert key value)

/-- The loop of `urlDecode`, with fuel; `none` is an exception. -/
def urlDecodeLoop (s : Bytes) : Nat → Nat → HeaderMap → Option HeaderMap
  | 0, _, _ => none
  | fuel + 1, pos, queryParams =>
    if pos < s.length then
      let stop := (findFrom s 0x26 pos).getD s.length
      (decodePair s pos stop queryParams).bind (urlDecodeLoop s fuel (stop + 1))
    else some queryParams

/-- `httpReq::urlDecode` on an empty map.  Each pass moves `pos` forward. -/
def urlDecode (s : Bytes) : Option HeaderMap :=
  let pos := (findFrom s 0x3F 0).elim s.length (· + 1)
  urlDecodeLoop s (s.length + 1) pos ∅

/-- `httpReq::query`: the result and the request afterwards. -/
def HttpReq.query (r : HttpReq) : Option (HeaderMap × HttpReq) :=
  if r.isQueryParamsParsed then some (r.queryParams, r)
  else
    (urlDecode r.url).map fun m => (m, { r with queryParams := m, isQueryParamsParsed := true })

/-! ### The callbacks -/

/-- A callback of `http_parser_execute`, with the bytes it points at, or with the fields of the
    parser it reads. -/
inductive ReqEvent
  | messageBegin
  | url (data : Bytes)
  | headerField (data : Bytes)
  | headerValue (data : Bytes)
  | headersComplete (method : HttpMethod) (major minor : Nat)
  | body (data : Bytes)
  | messageComplete (upgrade : Bool)
deriving DecidableEq, Repr

/-- `m_req` and `m_tmpKey`. -/
structure ReqState where
  req : HttpReq
  tmpKey : Bytes
deriving DecidableEq

/-- `std::tolower` in the "C" locale. -/
def toLower (c : UInt8) : UInt8 := if 0x41 ≤ c ∧ c ≤ 0x5A then c + 0x20 else c

namespace ReqState

/-- `onReqMessageBegin`. -/
def onReqMessageBegin (s : ReqState) : ReqState :=
  { s with req := { s.req with
      headers := ∅, body := [], url := [], isQueryParamsParsed := false } }

/-- `onReqURL`. -/
def onReqURL (s : ReqState) (data : Bytes) : ReqState := { s with req := { s.req with url := data } }

/-- `onReqHeaderField`. -/
def onReqHeaderField (s : ReqState) (data : Bytes) : ReqState :=
  { s with tmpKey := data.map toLower }

/-- `onReqHeaderValue`. -/
def onReqHeaderValue (s : ReqState) (data : Bytes) : ReqState :=
  { s with req := { s.req with headers := Entries.insertNew s.req.headers (s.tmpKey, data) } }

/-- `onReqHeaderComplete`. -/
def onReqHeaderComplete (s : ReqState) (method : HttpMethod) (major minor : Nat) : ReqState :=
  { s with req := { s.req with
      method := method, version := str (toString major) ++ str "." ++ str (toString minor) } }

/-- `onReqBody`. -/
def onReqBody (s : ReqState) (data : Bytes) : ReqState :=
  { s with req := { s.req with body := s.req.body ++ data } }

/-- What a callback does to the request; `onReqMessageComplete` hands it on as it is. -/
def on (s : ReqState) : ReqEvent → ReqState
  | .messageBegin => s.onReqMessageBegin
  | .url data => s.onReqURL data
  | .headerField data => s.onReqHeaderField data
  | .headerValue data => s.onReqHeaderValue data
  | .headersComplete method major minor => s.onReqHeaderComplete method major minor
  | .body data => s.onReqBody data
  | .messageComplete _ => s

/-- What several callbacks do to the request. -/
def onAll (s : ReqState) (es : List ReqEvent) : ReqState := es.foldl on s

end ReqState

/-- The fields of `m_req` that the parser fills in. -/
structure Seen where
  url : Bytes
  headers : HeaderMap
  body : Bytes
  method : HttpMethod
  version : Bytes
deriving DecidableEq

/-- What `handle_request` sees. -/
def ReqState.seen (s : ReqState) : Seen :=
  { url := s.req.url, headers := s.req.headers, body := s.req.body, method := s.req.method,
    version := s.req.version }

/-! ### The parser -/

/-- `http_parser`: its states and `http_parser_execute`, which makes callbacks and returns how
    many bytes it has parsed.  The callbacks of the session leave the parser alone and always
    return 0. -/
structure HttpParser (ρ : Type) where
  init : ρ
  execute : ρ → Bytes → ρ × List ReqEvent × Nat

/-- The callbacks made while reads are delivered to `recv_cb` one after another. -/
def HttpParser.callbacks {ρ : Type} (P : HttpParser ρ) : ρ → List Bytes → List ReqEvent
  | _, [] => []
  | p, d :: ds => (P.execute p d).2.1 ++ P.callbacks (P.execute p d).1 ds

/-- The requests `handle_request` sees while callbacks are made. -/
def requestsSeen : ReqState → List ReqEvent → List Seen
  | _, [] => []
  | s, .messageComplete _ :: es => s.seen :: requestsSeen s es
  | s, e :: es => requestsSeen (s.on e) es

end MyWebSocket
