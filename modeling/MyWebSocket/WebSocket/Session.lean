import MyWebSocket.Library.Machine
import MyWebSocket.Parser.ByteStep
import MyWebSocket.Core.FileReader

namespace MyWebSocket

/-!
# The WebSocket session

`WebSocket.cpp` as a machine.  Its labels are what the code does not decide: the libuv events
with their data, and what user code does in its callbacks and between events.

User callbacks run inside the session's own functions, and may call back into them.  What is
left to do of the functions being executed is therefore kept on a stack of `WsTask`s, with
`user` for the body of a user callback; libuv delivers the next event when the stack is empty.
The calls the session makes to libuv, to user code and to the heap are recorded in `trace`.

One call of `parse` is a single step here.  Its completion callback neither reads nor writes
the parser, and each `handleWsFrame` task carries the frame record as it was at its firing.
-/

/-- `WsStatus`. -/
inductive WsStatus
  | connecting
  | open
  | closing
  | closed
deriving DecidableEq, Repr

/-- The errors `m_onErrorCb` is called with. -/
inductive WsError
  | noMask
  | parseError
  | sendError
deriving DecidableEq, Repr

/-- The text each error is constructed with. -/
def WsError.what : WsError → String
  | .noMask => "websocket message no mask"
  | .parseError => "websocket session parse error"
  | .sendError => "websocket send error"

/-- Which of the session's callbacks are set. -/
structure WsCallbacks where
  onConnect : Bool
  onClose : Bool
  onMessage : Bool
  onError : Bool
deriving DecidableEq, Repr

/-- What the session does to the outside, oldest first in `trace`.  Write contexts and file
    readers are numbered in the order of their creation. -/
inductive WsEffect
  | uvReadStart
  | uvReadStop
  | uvClose
  | uvWrite (ctx : Nat) (opcode : UInt8) (buffers : List (List UInt8))
  | onConnect
  | onClose
  | onMessage (frame : WsFrame)
  | onError (err : WsError)
  | removeWsSession
  | newCtx (ctx : Nat)
  | deleteCtx (ctx : Nat)
  | newReader (reader : Nat)
  | deleteReader (reader : Nat)
  | fs (reader : Nat) (action : FsAction)
deriving DecidableEq, Repr

/-- The rest of a function that is being executed. -/
inductive WsTask
  | user
  | connect
  | interClose
  | removeWsSession
  | handleWsFrame (frame : WsFrame)
  | parsed (err : WsParseErr)
  | deleteCtx (ctx : Nat)
deriving DecidableEq, Repr

/-- The members of a `WsSession` together with its handle, its file readers, its membership in
    `m_wsSessions`, the stack and the trace. -/
structure WsSession where
  readyState : WsStatus
  parse : ParseState
  callbacks : WsCallbacks
  registered : Bool
  /-- libuv reads from the handle. -/
  reading : Bool
  /-- `uv_close` has been called on the handle. -/
  closing : Bool
  /-- The write contexts libuv has not called back yet, oldest first. -/
  writes : List Nat
  nextCtx : Nat
  readers : List FileReader
  stack : List WsTask
  trace : List WsEffect
deriving DecidableEq, Repr

/-- What user code may call. -/
inductive WsCall
  | close
  | send (str : List UInt8)
  | sendFile (path : List UInt8)
  | onConnect (set : Bool)
  | onClose (set : Bool)
  | onMessage (set : Bool)
  | onError (set : Bool)
deriving DecidableEq, Repr

/-- One step: user code calls a member function, or returns from a callback; the code on top
    of the stack goes on; or libuv delivers an event. -/
inductive WsLabel
  | call (c : WsCall)
  | ret
  | run
  | recv (base : Bool) (data : List UInt8)
  | recvErr
  | written (status : Int)
  | file (reader : Nat) (result : Int) (data : List UInt8)
deriving DecidableEq, Repr

namespace WsSession

/-! ### The functions of the session -/

def emit (s : WsSession) (es : List WsEffect) : WsSession := { s with trace := s.trace ++ es }

def push (s : WsSession) (ts : List WsTask) : WsSession := { s with stack := ts ++ s.stack }

/-- `WS_CALLBACK`: call user code, if the callback is set. -/
def callback (s : WsSession) (set : Bool) (e : WsEffect) : WsSession :=
  if set then (s.emit [e]).push [.user] else s

/-- `WsServer::onUpgrade` up to the call of the server's own `m_onConnectCb`, which is set or
    not: `connect()` follows when that callback returns. -/
def onUpgrade (serverCallback : Bool) : WsSession :=
  { readyState := .closed, parse := .init .init, callbacks := ⟨false, false, false, false⟩,
    registered := true, reading := false, closing := false, writes := [], nextCtx := 0,
    readers := [], stack := if serverCallback then [.user, .connect] else [.connect], trace := [] }

/-- `WsSession::connect`; `CONNECTING` is over before any other code runs. -/
def connect (s : WsSession) : WsSession :=
  let s := { s with readyState := .connecting }
  let s := { s with reading := true }.emit [.uvReadStart]
  let s := { s with readyState := .open }
  s.callback s.callbacks.onConnect .onConnect

/-- `WsSession::inter_close`. -/
def interClose (s : WsSession) : WsSession :=
  let s := { s with readyState := .closed }
  let s := { s with reading := false }.emit [.uvReadStop]
  let s := { s with closing := true }.emit [.uvClose]
  -- the session leaves `m_wsSessions` when the user's callback has returned
  (s.push [.removeWsSession]).callback s.callbacks.onClose .onClose

/-- `WsSession::close`. -/
def close (s : WsSession) : WsSession :=
  if s.readyState = .closed then s else s.push [.interClose]

/-- The header `WsSession::inter_send` builds. -/
def sendHeader (opcode : UInt8) (payloadLen : Nat) : List UInt8 :=
  let mask := 0x00
  (0x80 ||| opcode) ::
    if payloadLen < 126 then [UInt8.ofNat (payloadLen ||| mask)]
    else if payloadLen < 1 <<< 16 then
      [UInt8.ofNat (126 ||| mask), UInt8.ofNat (payloadLen >>> 8), UInt8.ofNat (payloadLen &&& 0xFF)]
    else
      UInt8.ofNat (127 ||| mask) ::
        [7, 6, 5, 4, 3, 2, 1, 0].map fun i => UInt8.ofNat (payloadLen >>> (i * 8))

/-- `WsSession::inter_send` on a new context with the given payload.  libuv refuses a write on
    a closing handle and then never calls back; the code does not look at the result. -/
def interSend (s : WsSession) (opcode : UInt8) (payloadLen : Nat) (payload : List (List UInt8)) :
    WsSession :=
  { s with
    nextCtx := s.nextCtx + 1
    writes := if s.closing then s.writes else s.writes ++ [s.nextCtx] }.emit
      [.newCtx s.nextCtx, .uvWrite s.nextCtx opcode (sendHeader opcode payloadLen :: payload)]

/-- `WsSession::send`, of a string or of the text of a JSON value. -/
def send (s : WsSession) (str : List UInt8) : WsSession :=
  s.interSend WsCode.text.code str.length [str]

/-- `WsSession::sendPong`. -/
def sendPong (s : WsSession) : WsSession := s.interSend WsCode.pong.code 0 [[]]

/-- `WsSession::sendFile`. -/
def sendFile (s : WsSession) (path : List UInt8) : WsSession :=
  let r := FileReader.fileRead path
  { s with readers := s.readers ++ [r.1] }.emit
    (.newReader s.readers.length :: r.2.map (.fs s.readers.length))

/-- One thing a file reader does, with the callbacks `sendFile` gives it. -/
def fsAction (i : Nat) (r : FileReader) (s : WsSession) (a : FsAction) : WsSession :=
  let s := s.emit [.fs i a]
  match a with
  | .onError => s.emit [.deleteReader i]
  | .onClose => s.interSend WsCode.text.code r.getReadByte r.appendToBuff
  | _ => s

/-- `WsSession::handleWsFrame`, `m_frame` being `frame`. -/
def handleWsFrame (s : WsSession) (frame : WsFrame) : WsSession :=
  -- the opcode of an unmasked frame is not looked at
  if !frame.mask then
    (s.push [.interClose]).callback s.callbacks.onError (.onError .noMask)
  else if frame.opcode = WsCode.pong.code then s
  else if frame.opcode = WsCode.ping.code then s.sendPong
  else if frame.opcode = WsCode.close.code then s.push [.interClose]
  -- TEXT, BINARY and every other opcode are messages
  else s.callback s.callbacks.onMessage (.onMessage frame)

/-- `WsSession::handleMessage` after the call of `parse`. -/
def parsed (s : WsSession) (err : WsParseErr) : WsSession :=
  if err ≠ .success then
    (s.push [.interClose]).callback s.callbacks.onError (.onError .parseError)
  else s

/-- `WsSession::handleMessage`: the completed frames are handled inside `parse`. -/
def handleMessage (s : WsSession) (data : List UInt8) : Except Fault WsSession := do
  let r ← MyWebSocket.parse s.parse data
  pure ({ s with parse := r.state }.push (r.fired.map WsTask.handleWsFrame ++ [WsTask.parsed r.err]))

/-- `WsSession::recv_cb` with `nread ≥ 0`; `base` says whether `buf->base` is set. -/
def recvCb (s : WsSession) (base : Bool) (data : List UInt8) : Except Fault WsSession :=
  -- `readyState` is looked at once, for all frames of the read
  if base && s.readyState = .open then s.handleMessage data else pure s

/-- `WsSession::recv_cb` with `nread < 0`; libuv has stopped reading by itself. -/
def recvErr (s : WsSession) : WsSession := { s with reading := false }.push [.interClose]

/-- The callback `inter_send` gives to `uv_write`. -/
def written (s : WsSession) (ctx : Nat) (status : Int) : WsSession :=
  if status < 0 then
    -- the failure branch does not return: the context is deleted again at the end
    (s.push [.deleteCtx ctx, .interClose, .deleteCtx ctx]).callback s.callbacks.onError
      (.onError .sendError)
  else s.push [.deleteCtx ctx]

/-! ### The machine -/

/-- A member function called by user code. -/
def call (s : WsSession) : WsCall → WsSession
  | .close => s.close
  | .send str => s.send str
  | .sendFile path => s.sendFile path
  | .onConnect set => { s with callbacks := { s.callbacks with onConnect := set } }
  | .onClose set => { s with callbacks := { s.callbacks with onClose := set } }
  | .onMessage set => { s with callbacks := { s.callbacks with onMessage := set } }
  | .onError set => { s with callbacks := { s.callbacks with onError := set } }

/-- The code on top of the stack goes on, the stack being what is below it. -/
def runTask (s : WsSession) : WsTask → WsSession
  | .user => s
  | .connect => s.connect
  | .interClose => s.interClose
  | .removeWsSession => { s with registered := false }.emit [.removeWsSession]
  | .handleWsFrame frame => s.handleWsFrame frame
  | .parsed err => s.parsed err
  | .deleteCtx ctx => s.emit [.deleteCtx ctx]

/-- User code runs: inside a callback, or between two events. -/
def AtUser (s : WsSession) : Prop := s.stack = [] ∨ s.stack.head? = some .user

instance (s : WsSession) : Decidable s.AtUser := by unfold AtUser; infer_instance

/-- One step. -/
def step (s : WsSession) : WsLabel → Option WsSession
  | .call c => if s.AtUser then some (s.call c) else none
  | .ret =>
    match s.stack with
    | .user :: st => some { s with stack := st }
    | _ => none
  | .run =>
    match s.stack with
    | [] => none
    | t :: st => if t = .user then none else some ({ s with stack := st }.runTask t)
  | .recv base data =>
    if s.stack = [] ∧ s.reading = true then (s.recvCb base data).toOption else none
  | .recvErr => if s.stack = [] ∧ s.reading = true then some s.recvErr else none
  | .written status =>
    match s.stack, s.writes with
    | [], ctx :: ws => some ({ s with writes := ws }.written ctx status)
    | _, _ => none
  | .file i result data =>
    if s.stack = [] then
      match s.readers[i]? with
      | none => none
      | some r =>
        match r.event result data with
        | none => none
        | some (r', as) => some (as.foldl (fsAction i r') { s with readers := s.readers.set i r' })
    else none

end WsSession

/-- The session as a machine. -/
def wsMachine : Machine WsSession WsLabel := ⟨WsSession.step⟩

end MyWebSocket
