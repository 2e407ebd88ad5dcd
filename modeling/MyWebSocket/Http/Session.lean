import MyWebSocket.Library.Machine
import MyWebSocket.Http.Router
import MyWebSocket.Http.Response

namespace MyWebSocket

/-!
# The HTTP session

`HttpServer::Session`, the responses of its requests and their file readers, as a machine.  Its
labels are the libuv events with their data and what user code does: a handler runs inside
`handle_request`, and so inside `http_parser_execute` and `recv_cb`, and may keep its response
and send it later.

The callbacks of a read that are still to be made and a running handler are kept on a stack;
libuv delivers the next event when it is empty.  `trace` records what happens to the session
and what it does.  The responses are numbered like the requests they answer.
-/

/-- What the session is given: the routes (handlers are user code, so only their presence
    counts here), the iteration order of header maps, `WsUtil::calculate_accept_key`, whether
    `onUpgradeCb` is set, and the keep-alive timeout in seconds. -/
structure HttpConfig where
  router : Router Unit
  headerOrder : HeaderMap → List (Bytes × Bytes)
  acceptKey : Bytes → Bytes
  upgradeCallback : Bool
  keepAliveTimeout : Int

/-- What happens to a session and what it does, oldest first in `trace`. -/
inductive HttpEffect
  | recv
  | handleRequest (i : Nat) (seen : Seen) (keep upgrade : Bool)
  | handler (i : Nat)
  | uvReadStart
  | uvReadStop
  | uvClose
  | uvTimerStart (ms : Int)
  | uvTimerStop
  | uvWrite (ctx i : Nat) (buffers : List Bytes)
  | newCtx (ctx : Nat)
  | deleteCtx (ctx : Nat)
  | newReader (reader i : Nat)
  | deleteReader (reader : Nat)
  | fs (reader : Nat) (action : FsAction)
  | removeSession
  | onUpgrade
  | assertFailed
deriving DecidableEq

/-- What is left to do of the functions being executed. -/
inductive HttpTask
  | user (i : Nat)
  | event (e : ReqEvent)
deriving DecidableEq

/-- A request that has been handled: whether it asked for keep-alive and whether it asked for
    an upgrade, and its response. -/
structure Answer where
  keep : Bool
  upgrade : Bool
  resp : HttpResp
deriving DecidableEq

/-- A write libuv has not called back yet: its context and its response. -/
structure PendingWrite where
  ctx : Nat
  resp : Nat
deriving DecidableEq, Repr

/-- A file reader and the response it reads for. -/
structure RespReader where
  resp : Nat
  reader : FileReader
deriving DecidableEq, Repr

/-- The members of a `Session`, its handle and timer, its membership in `m_sessions`, the
    responses, the stack and the trace. -/
structure HttpSession (ρ : Type) where
  req : ReqState
  parser : ρ
  isKeepAlive : Bool
  /-- The keep-alive timer is running. -/
  timerArmed : Bool
  /-- `m_keepAliveTimer.data` is not null. -/
  timerData : Bool
  /-- The session is in `m_sessions`; it is destroyed when it is removed. -/
  registered : Bool
  reading : Bool
  closing : Bool
  answers : List Answer
  writes : List PendingWrite
  nextCtx : Nat
  readers : List RespReader
  stack : List HttpTask
  trace : List HttpEffect

/-- What user code may do with a response. -/
inductive RespCall
  | setHeader (key value : Bytes)
  | setStatus (status : HttpStatus)
  | clearContent
  | sendStr (body : Bytes)
  | sendJson (text : Bytes)
  | sendFile (path : Bytes)
deriving DecidableEq, Repr

/-- The call sends the response. -/
def RespCall.sends : RespCall → Bool
  | .sendStr _ => true
  | .sendJson _ => true
  | .sendFile _ => true
  | _ => false

/-- One step: user code calls a response, changes the request object or returns from a
    handler; the code on top of the stack goes on; or libuv delivers an event. -/
inductive HttpLabel
  | call (i : Nat) (c : RespCall)
  | setReq (req : HttpReq)
  | ret
  | run
  | recv (base : Bool) (data : Bytes)
  | recvErr
  | timer
  | written (status : Int)
  | file (reader : Nat) (result : Int) (data : Bytes)
deriving DecidableEq

namespace HttpSession

variable {ρ : Type} (cfg : HttpConfig) (P : HttpParser ρ)

/-! ### Timer and close -/

def emit (s : HttpSession ρ) (es : List HttpEffect) : HttpSession ρ :=
  { s with trace := s.trace ++ es }

/-- `Session::Session` and `HttpServer::handle_connect`. -/
def accepted (method : HttpMethod) : HttpSession ρ :=
  { req := ⟨.init method, []⟩, parser := P.init, isKeepAlive := false, timerArmed := false,
    timerData := true, registered := true, reading := true, closing := false, answers := [],
    writes := [], nextCtx := 0, readers := [], stack := [], trace := [.uvReadStart] }

/-- `Session::needKeepConnection`. -/
def needKeepConnection (req : HttpReq) : Bool :=
  match req.headers.lookup (str "connection") with
  | none => false
  | some value => value = str "keep-alive"

/-- `Session::startKeepAliveTimer`. -/
def startKeepAliveTimer (s : HttpSession ρ) : HttpSession ρ :=
  { s with timerData := true, timerArmed := true, isKeepAlive := true }.emit
    [.uvTimerStart (cfg.keepAliveTimeout * 1000)]

/-- `Session::stopKeepAliveTimer`. -/
def stopKeepAliveTimer (s : HttpSession ρ) : HttpSession ρ :=
  { s with isKeepAlive := false, timerData := false, timerArmed := false }.emit [.uvTimerStop]

/-- `HttpServer::closeSession`. -/
def closeSession (s : HttpSession ρ) (isUpgrade : Bool) : HttpSession ρ :=
  let s := { s with reading := false }.emit [.uvReadStop]
  -- an upgraded connection stays open: the WebSocket session takes the handle over
  let s := if isUpgrade then s else { s with closing := true }.emit [.uvClose]
  { s with registered := false }.emit [.removeSession]

/-- `HttpServer::upgradeSession`. -/
def upgradeSession (s : HttpSession ρ) : HttpSession ρ :=
  -- `assert(onUpgradeCb != nullptr)`
  if cfg.upgradeCallback then (s.closeSession true).emit [.onUpgrade] else s.emit [.assertFailed]

/-! ### Sending -/

/-- The file reader of a response. -/
def readerOf (s : HttpSession ρ) (resp : HttpResp) : Option FileReader :=
  (resp.reader.bind (s.readers[·]?)).map RespReader.reader

/-- `httpResp::send`.  libuv refuses a write on a closing handle and never calls back; the
    code does not look at the result. -/
def send (s : HttpSession ρ) (i : Nat) : HttpSession ρ :=
  match s.answers[i]? with
  | none => s
  | some a =>
    { s with
      nextCtx := s.nextCtx + 1
      writes := if s.closing then s.writes else s.writes ++ [(⟨s.nextCtx, i⟩ : PendingWrite)]
      }.emit [.newCtx s.nextCtx,
        .uvWrite s.nextCtx i (a.resp.buffers cfg.headerOrder (s.readerOf a.resp))]

/-- Change the content of a response. -/
def onResp (s : HttpSession ρ) (i : Nat) (f : HttpResp → HttpResp) : HttpSession ρ :=
  { s with answers := s.answers.modify i fun a => { a with resp := f a.resp } }

/-- `httpResp::sendFile`. -/
def sendFile (s : HttpSession ρ) (i : Nat) (path : Bytes) : HttpSession ρ :=
  -- nothing is sent yet: the callbacks of the reader call `send`
  let j := s.readers.length
  let r := FileReader.fileRead path
  let s := s.onResp i (·.setFile path j)
  { s with readers := s.readers ++ [(⟨i, r.1⟩ : RespReader)] }.emit (.newReader j i :: r.2.map (.fs j))

/-- A call of user code on a response. -/
def call (s : HttpSession ρ) (i : Nat) : RespCall → HttpSession ρ
  | .setHeader key value => s.onResp i (·.setHeader key value)
  | .setStatus status => s.onResp i (·.setStatus status)
  | .clearContent => s.onResp i HttpResp.clearContent
  | .sendStr body => (s.onResp i (·.setStr body)).send cfg i
  | .sendJson text => (s.onResp i (·.setJson text)).send cfg i
  | .sendFile path => s.sendFile i path

/-- One thing the file reader `j` of response `i` does, with the callbacks of `initReader`. -/
def fsAction (j i : Nat) (s : HttpSession ρ) (a : FsAction) : HttpSession ρ :=
  let s := s.emit [.fs j a]
  match a with
  -- `m_onError` is `sendErr` and then `delete reader`, `m_onClose` is `send`
  | .onError => ((s.onResp i HttpResp.setErr).send cfg i).emit [.deleteReader j]
  | .onClose => s.send cfg i
  | _ => s

/-- `httpResp::onWriteEnd`; the callback in `m_onSent` finds the session only as long as it is
    registered. -/
def onWriteEnd (s : HttpSession ρ) (w : PendingWrite) (a : Answer) : HttpSession ρ :=
  let s :=
    -- the reader goes with the write of a file; that of a failed read has gone already
    if a.resp.sendType = .file then s.emit (a.resp.reader.toList.map .deleteReader) else s
  let s :=
    if s.registered then
      match a.resp.onSent with
      | .session => if s.isKeepAlive then s.startKeepAliveTimer cfg else s.closeSession false
      | .upgrade => s.upgradeSession cfg
    else s
  s.emit [.deleteCtx w.ctx]

/-! ### Receiving -/

/-- `Session::upgradeToWs` of request `i`. -/
def upgradeToWs (s : HttpSession ρ) (i : Nat) : HttpSession ρ :=
  let clientKey := (s.req.req.headers.lookup (str "sec-websocket-key")).getD []
  -- `operator[]` makes the entry where there is none
  let headers := Entries.insertNew s.req.req.headers (str "sec-websocket-key", [])
  let s := { s with req := { s.req with req := { s.req.req with headers := headers } } }
  (s.onResp i (·.setUpgrade (cfg.acceptKey clientKey))).send cfg i

/-- The dispatch of `Session::handle_request`, of request `i`. -/
def dispatchRequest (s : HttpSession ρ) (i : Nat) : HttpSession ρ :=
  match cfg.router.dispatch s.req.req with
  | (req, some _) =>
    { s with req := { s.req with req := req }, stack := .user i :: s.stack }.emit [.handler i]
  | (req, none) =>
    ({ s with req := { s.req with req := req } }.onResp i HttpResp.setNotFound).send cfg i

/-- `Session::handle_request`. -/
def handleRequest (s : HttpSession ρ) (upgrade : Bool) : HttpSession ρ :=
  let i := s.answers.length
  let keep := needKeepConnection s.req.req
  let s := { s with
    answers := s.answers ++ [(⟨keep, upgrade, .init⟩ : Answer)], isKeepAlive := keep }.emit
      [.handleRequest i s.req.seen keep upgrade]
  if upgrade then s.upgradeToWs cfg i else s.dispatchRequest cfg i

/-- A callback of the parser. -/
def onEvent (s : HttpSession ρ) : ReqEvent → HttpSession ρ
  | .messageComplete upgrade => s.handleRequest cfg upgrade
  | e => { s with req := s.req.on e }

/-- `Session::recv_cb` with `nread ≥ 0`; `base` says whether `buf->base` is set.  The callbacks
    of the parser are left on the stack. -/
def recvCb (s : HttpSession ρ) (base : Bool) (data : Bytes) : HttpSession ρ :=
  let s := s.emit [.recv]
  -- the flag is also that of the running timer: any read clears it
  let s := if s.isKeepAlive then s.stopKeepAliveTimer else s
  if base then
    let r := P.execute s.parser data
    { s with parser := r.1, stack := r.2.1.map HttpTask.event ++ s.stack }
  else s

/-- `Session::recv_cb` with `nread < 0`. -/
def recvErr (s : HttpSession ρ) : HttpSession ρ := s.stopKeepAliveTimer.closeSession false

/-- `Session::keepAliveTimerCb`; the timer does not repeat. -/
def keepAliveTimerCb (s : HttpSession ρ) : HttpSession ρ :=
  -- `stopKeepAliveTimer` sets `data` to null
  let s := { s with timerArmed := false }
  if s.timerData then s.closeSession false else s

/-! ### The machine -/

/-- User code runs: inside a handler, or between two events. -/
def AtUser (s : HttpSession ρ) : Prop :=
  s.stack = [] ∨ ∃ i, s.stack.head? = some (.user i)

instance (s : HttpSession ρ) : Decidable s.AtUser :=
  match h : s.stack with
  | [] => isTrue (.inl h)
  | .user i :: _ => isTrue (.inr ⟨i, by rw [h]; rfl⟩)
  | .event _ :: _ => isFalse (by simp [AtUser, h])

/-- One step.  User code has the responses its handlers were given. -/
def step (s : HttpSession ρ) : HttpLabel → Option (HttpSession ρ)
  | .call i c => if s.AtUser ∧ .handler i ∈ s.trace then some (s.call cfg i c) else none
  | .setReq req => if s.AtUser then some { s with req := { s.req with req := req } } else none
  | .ret =>
    match s.stack with
    | .user _ :: st => some { s with stack := st }
    | _ => none
  | .run =>
    match s.stack with
    | .event e :: st => some ({ s with stack := st }.onEvent cfg e)
    | _ => none
  | .recv base data =>
    if s.stack = [] ∧ s.reading = true then some (s.recvCb P base data) else none
  | .recvErr => if s.stack = [] ∧ s.reading = true then some s.recvErr else none
  | .timer => if s.stack = [] ∧ s.timerArmed = true then some s.keepAliveTimerCb else none
  | .written _ =>
    match s.stack, s.writes with
    | [], w :: ws => (s.answers[w.resp]?).map ({ s with writes := ws }.onWriteEnd cfg w)
    | _, _ => none
  | .file j result data =>
    if s.stack = [] then
      match s.readers[j]? with
      | none => none
      | some r =>
        match r.reader.event result data with
        | none => none
        | some (r', as) =>
          some (as.foldl (fsAction cfg j r.resp)
            { s with readers := s.readers.set j { r with reader := r' } })
    else none

end HttpSession

/-- The session as a machine. -/
def httpMachine {ρ : Type} (cfg : HttpConfig) (P : HttpParser ρ) :
    Machine (HttpSession ρ) HttpLabel := ⟨HttpSession.step cfg P⟩

end MyWebSocket
