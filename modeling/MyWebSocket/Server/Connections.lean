import MyWebSocket.Library.Registry
import MyWebSocket.Http.Session
import MyWebSocket.WebSocket.Session

namespace MyWebSocket

/-!
# The server

An `HttpServer` with a `WsServer` attached, as a machine over all its connections.  Each accepted
connection has an HTTP session, and a WebSocket session once it has been upgraded; both work on
the one handle.  `m_sessions` and `m_wsSessions` hold the numbers of the connections whose
sessions they hold.

The sessions are the machines `httpMachine` and `wsMachine`.  What they do to the two servers is
read off the traces: `removeSession`, the call of `onUpgradeCb`, and `removeWsSession`.
-/

/-- An accepted connection. -/
structure Connection (ρ : Type) where
  http : HttpSession ρ
  ws : Option WsSession

/-- `HttpServer` and `WsServer`. -/
structure Server (ρ : Type) where
  /-- All connections that have been accepted, oldest first. -/
  connections : List (Connection ρ)
  sessions : List Nat
  wsSessions : List Nat
  /-- `m_onConnectCb` of the `WsServer` is set. -/
  onConnectCb : Bool

/-- One step: a connection is accepted, user code sets `WsServer::onConnect`, or a session takes a
    step of its own. -/
inductive ServerLabel
  | accept (method : HttpMethod)
  | onConnect (set : Bool)
  | http (i : Nat) (l : HttpLabel)
  | ws (i : Nat) (l : WsLabel)
deriving DecidableEq

/-- The labels that libuv delivers. -/
def HttpLabel.isEvent : HttpLabel → Bool
  | .recv _ _ => true
  | .recvErr => true
  | .timer => true
  | .written _ => true
  | .file _ _ _ => true
  | _ => false

@[inherit_doc HttpLabel.isEvent]
def WsLabel.isEvent : WsLabel → Bool
  | .recv _ _ => true
  | .recvErr => true
  | .written _ => true
  | .file _ _ _ => true
  | _ => false

/-- No function of the connection is being executed. -/
def Connection.Quiet {ρ : Type} (c : Connection ρ) : Prop :=
  c.http.stack = [] ∧ ∀ w ∈ c.ws, w.stack = []

instance {ρ : Type} (c : Connection ρ) : Decidable c.Quiet := by
  unfold Connection.Quiet
  infer_instance

namespace Server

variable {ρ : Type}

/-- No connection has been accepted. -/
def init : Server ρ := ⟨[], [], [], false⟩

/-- Between two events no function is being executed. -/
def Quiet (s : Server ρ) : Prop := ∀ c ∈ s.connections, c.Quiet

instance (s : Server ρ) : Decidable s.Quiet := by
  unfold Quiet
  infer_instance

/-- `HttpServer::handle_connect`. -/
def handleConnect (P : HttpParser ρ) (s : Server ρ) (method : HttpMethod) : Server ρ :=
  { s with
    connections := s.connections ++ [⟨.accepted P method, none⟩]
    sessions := s.sessions ++ [s.connections.length] }

/-- `HttpServer::removeSession`. -/
def removeSession (s : Server ρ) (i : Nat) : Server ρ :=
  { s with sessions := Registry.swapRemove s.sessions i }

/-- `WsServer::onUpgrade` up to the call of `m_onConnectCb`. -/
def onUpgrade (s : Server ρ) (i : Nat) : Server ρ :=
  { s with
    connections := s.connections.modify i fun c => { c with ws := some (.onUpgrade s.onConnectCb) }
    wsSessions := s.wsSessions ++ [i] }

/-- `WsServer::removeWsSession`. -/
def removeWsSession (s : Server ρ) (i : Nat) : Server ρ :=
  { s with wsSessions := Registry.swapRemove s.wsSessions i }

/-- `WsServer::getWsCount`. -/
def getWsCount (s : Server ρ) : Nat := s.wsSessions.length

/-- What an effect of an HTTP session does to the servers. -/
def onHttpEffect (i : Nat) (s : Server ρ) : HttpEffect → Server ρ
  | .removeSession => s.removeSession i
  | .onUpgrade => s.onUpgrade i
  | _ => s

/-- What an effect of a WebSocket session does to the servers. -/
def onWsEffect (i : Nat) (s : Server ρ) : WsEffect → Server ρ
  | .removeWsSession => s.removeWsSession i
  | _ => s

/-- The HTTP session of connection `i` has become `h`.  If it has closed the handle, the WebSocket
    session does not read from it either. -/
def afterHttp (s : Server ρ) (i : Nat) (c : Connection ρ) (h : HttpSession ρ) : Server ρ :=
  let ws := c.ws.map fun w =>
    if h.closing && !c.http.closing then { w with reading := false, closing := true } else w
  (h.trace.drop c.http.trace.length).foldl (onHttpEffect i)
    { s with connections := s.connections.set i ⟨h, ws⟩ }

/-- The WebSocket session of connection `i` has become `w'`. -/
def afterWs (s : Server ρ) (i : Nat) (c : Connection ρ) (w w' : WsSession) : Server ρ :=
  let http := { c.http with closing := c.http.closing || w'.closing }
  (w'.trace.drop w.trace.length).foldl (onWsEffect i)
    { s with connections := s.connections.set i ⟨http, some w'⟩ }

/-- One step.  libuv delivers an event when no function is being executed; which of the functions
    being executed goes on is left open. -/
def step (cfg : HttpConfig) (P : HttpParser ρ) (s : Server ρ) : ServerLabel → Option (Server ρ)
  | .accept method => if s.Quiet then some (s.handleConnect P method) else none
  | .onConnect set => some { s with onConnectCb := set }
  | .http i l =>
    if l.isEvent = true → s.Quiet then
      (s.connections[i]?).bind fun c => (c.http.step cfg P l).map (s.afterHttp i c)
    else none
  | .ws i l =>
    if l.isEvent = true → s.Quiet then
      (s.connections[i]?).bind fun c =>
        c.ws.bind fun w => (w.step l).map (s.afterWs i c w)
    else none

end Server

/-- `WsServer::WsServer` sets the upgrade callback of the `HttpServer`. -/
def attached (cfg : HttpConfig) : HttpConfig := { cfg with upgradeCallback := true }

/-- The servers as a machine. -/
def serverMachine {ρ : Type} (cfg : HttpConfig) (P : HttpParser ρ) :
    Machine (Server ρ) ServerLabel := ⟨Server.step (attached cfg) P⟩

end MyWebSocket
