import MyWebSocket.Core.RecvBuf
import MyWebSocket.Http.Upgrade
import MyWebSocket.Server.Release

namespace MyWebSocket

open Log

/-!
# The receive buffers of a connection

Both sessions of a connection work on one libuv handle: `data` points to the one the callbacks are
for, and `alloc_cb` is the one libuv calls before it reads.  An upgrade hands the buffer of the HTTP
session over and leaves it with the length 0, from which the loop of `recv_alloc_cb` does not end.

* `Handle` — the handle and the two buffers, and what the sessions' effects do to them;
* `uvLoopMachine` — the servers with the handles, and libuv's calls of `alloc_cb`;
* `HandleInv` — the invariant: libuv reads for a session only as long as it has its buffer;
* `alloc_finds_buffer` — so every call of `recv_alloc_cb` finds a buffer and makes it large enough.
-/

variable {ρ : Type} {cfg : HttpConfig} {P : HttpParser ρ}

/-! ### Handles -/

/-- The classes whose `recv_alloc_cb` may be installed, and whose sessions `data` may point to. -/
inductive SessionClass
  | http
  | ws
deriving DecidableEq, Repr

/-- The handle of a connection, with the buffers of its two sessions. -/
structure Handle where
  data : SessionClass
  /-- Set as long as libuv reads from the handle. -/
  allocCb : Option SessionClass
  closing : Bool
  /-- `HttpServer::Session::m_recvBuf`. -/
  httpBuf : UvBuf
  /-- `WsSession::m_recvBuf`. -/
  wsBuf : UvBuf
deriving DecidableEq, Repr

namespace Handle

/-- `uv_read_start`, which does nothing on a closing handle or on one that is read from. -/
def uvReadStart (h : Handle) (allocCb : SessionClass) : Handle :=
  if h.closing || h.allocCb.isSome then h else { h with allocCb := some allocCb }

/-- `uv_read_stop`. -/
def uvReadStop (h : Handle) : Handle := { h with allocCb := none }

/-- `uv_close`. -/
def uvClose (h : Handle) : Handle := { h.uvReadStop with closing := true }

/-- The handle behind `Session::Session` and `HttpServer::handle_connect`. -/
def accepted : Handle :=
  { data := .http, allocCb := none, closing := false, httpBuf := ⟨true, httpDefaultRecvBufSize⟩,
    wsBuf := ⟨false, 0⟩ : Handle }.uvReadStart .http

/-- `Session::transferBufferToWsSession`. -/
def transferBufferToWsSession (h : Handle) : Handle :=
  { h with wsBuf := h.httpBuf, httpBuf := ⟨false, 0⟩ }

/-- `WsSession::WsSession`. -/
def newWsSession (h : Handle) : Handle :=
  { h with wsBuf := ⟨false, 0⟩ }.transferBufferToWsSession

/-- `WsSession::connect`. -/
def connect (h : Handle) : Handle := { h with data := .ws }.uvReadStart .ws

/-- What an effect of the HTTP session does to the handle. -/
def onHttpEffect (h : Handle) : HttpEffect → Handle
  | .uvReadStop => h.uvReadStop
  | .uvClose => h.uvClose
  -- the upgrade callback makes the WebSocket session
  | .onUpgrade => h.newWsSession
  | _ => h

/-- What an effect of the WebSocket session does to the handle. -/
def onWsEffect (h : Handle) : WsEffect → Handle
  | .uvReadStart => h.connect
  | .uvReadStop => h.uvReadStop
  | .uvClose => h.uvClose
  | _ => h

/-- `m_recvBuf` of a session of that class. -/
def recvBuf (h : Handle) : SessionClass → UvBuf
  | .http => h.httpBuf
  | .ws => h.wsBuf

def setRecvBuf (h : Handle) (buf : UvBuf) : SessionClass → Handle
  | .http => { h with httpBuf := buf }
  | .ws => { h with wsBuf := buf }

/-- `recv_alloc_cb` of that class.  `data` is cast to it; where it points to something else, nothing
    is said about what happens. -/
def recvAllocCb (cb : SessionClass) (h : Handle) (suggestedSize : Nat) (realloc : Bool) :
    Option Handle :=
  if h.data = cb then
    (growRecvBuf suggestedSize realloc (h.recvBuf cb)).map fun buf => h.setRecvBuf buf cb
  else none

end Handle

/-- `HttpServer::Session::recv_alloc_cb`. -/
def HttpSession.recvAllocCb : Handle → Nat → Bool → Option Handle := Handle.recvAllocCb .http

/-- `WsSession::recv_alloc_cb`. -/
def WsSession.recvAllocCb : Handle → Nat → Bool → Option Handle := Handle.recvAllocCb .ws

/-- libuv is about to read: it calls `alloc_cb`. -/
def Handle.alloc (h : Handle) (suggestedSize : Nat) (realloc : Bool) : Option Handle :=
  match h.allocCb with
  | none => none
  | some .http => HttpSession.recvAllocCb h suggestedSize realloc
  | some .ws => WsSession.recvAllocCb h suggestedSize realloc

/-! ### The machine -/

namespace Server

def httpTrace (s : Server ρ) (i : Nat) : List HttpEffect :=
  (s.connections[i]?).elim [] fun c => c.http.trace

def wsTrace (s : Server ρ) (i : Nat) : List WsEffect :=
  ((s.connections[i]?).bind Connection.ws).elim [] WsSession.trace

end Server

/-- The servers, and the handle of each connection. -/
structure UvLoop (ρ : Type) where
  server : Server ρ
  handles : List Handle

/-- One step: one of the servers, or libuv calls `alloc_cb` of connection `i`; `realloc` says
    whether `realloc` returns memory. -/
inductive UvLoopLabel
  | server (l : ServerLabel)
  | alloc (i suggestedSize : Nat) (realloc : Bool)
deriving DecidableEq

namespace UvLoop

def init : UvLoop ρ := ⟨.init, []⟩

/-- The handles when the servers have become `server` by that step. -/
def handlesAfter (s : UvLoop ρ) (server : Server ρ) : ServerLabel → List Handle
  | .accept _ => s.handles ++ [.accepted]
  | .onConnect _ => s.handles
  | .http i _ =>
    let es := (server.httpTrace i).drop (s.server.httpTrace i).length
    s.handles.modify i fun h => es.foldl Handle.onHttpEffect h
  | .ws i _ =>
    let es := (server.wsTrace i).drop (s.server.wsTrace i).length
    s.handles.modify i fun h => es.foldl Handle.onWsEffect h

/-- One step.  libuv calls `alloc_cb` when no function is being executed. -/
def step (cfg : HttpConfig) (P : HttpParser ρ) (s : UvLoop ρ) : UvLoopLabel → Option (UvLoop ρ)
  | .server l =>
    (s.server.step cfg P l).map fun server => ⟨server, s.handlesAfter server l⟩
  | .alloc i suggestedSize realloc =>
    if s.server.Quiet then
      (s.handles[i]?).bind fun h =>
        (h.alloc suggestedSize realloc).map fun h' => { s with handles := s.handles.set i h' }
    else none

end UvLoop

/-- The servers on their event loop as a machine. -/
def uvLoopMachine {ρ : Type} (cfg : HttpConfig) (P : HttpParser ρ) :
    Machine (UvLoop ρ) UvLoopLabel := ⟨UvLoop.step (attached cfg) P⟩

/-! ### An upgrade stops the reading -/

/-- `u` is `t` with effects added that stop the reading if the session is upgraded. -/
def Stopping (t u : List HttpEffect) : Prop :=
  ∃ es, u = t ++ es ∧ (.onUpgrade ∈ es → .uvReadStop ∈ es)

theorem Stopping.of_grows {t u : List HttpEffect} (h : Grows (fun e => e ≠ .onUpgrade) t u) :
    Stopping t u := by
  obtain ⟨es, htrace, hes⟩ := h
  exact ⟨es, htrace, fun hup => absurd rfl (hes _ hup)⟩

theorem Stopping.trans {t u v : List HttpEffect} (h : Stopping t u) (h' : Stopping u v) :
    Stopping t v := by
  obtain ⟨es, rfl, hes⟩ := h
  obtain ⟨fs, rfl, hfs⟩ := h'
  refine ⟨es ++ fs, List.append_assoc _ _ _, fun hup => ?_⟩
  rcases List.mem_append.mp hup with hup | hup
  · exact List.mem_append_left _ (hes hup)
  · exact List.mem_append_right _ (hfs hup)

theorem HttpEffect.ne_onUpgrade_of_isQuiet (e : HttpEffect) (h : e.isQuiet = true) :
    e ≠ .onUpgrade := by
  rintro rfl
  simp [HttpEffect.isQuiet] at h

theorem Stopping.responding {s s' : HttpSession ρ} (h : s.Responding s') :
    Stopping s.trace s'.trace := by
  refine .of_grows (h.trace.mono fun e he => ?_)
  rintro rfl
  simp [HttpEffect.isResponse] at he

theorem Stopping.onWriteEnd (s : HttpSession ρ) (w : PendingWrite) (a : Answer) :
    Stopping s.trace (s.onWriteEnd cfg w a).trace := by
  cases hsent : a.resp.onSent with
  | session =>
    refine .of_grows (s.onWriteEnd_grows w a HttpEffect.ne_onUpgrade_of_isQuiet fun hup => ?_)
    rw [hsent] at hup
    cases hup
  | upgrade =>
    refine (Stopping.responding (.released s a)).trans ?_
    rw [HttpSession.onWriteEnd_eq, hsent]
    generalize s.released a = t
    have hctx : ∀ u : HttpSession ρ, Stopping t.trace u.trace →
        Stopping t.trace (u.emit [.deleteCtx w.ctx]).trace := fun u hu =>
      hu.trans (.of_grows (.append _ (by simp)))
    apply hctx
    dsimp only
    split
    · unfold HttpSession.upgradeSession
      split
      · rw [HttpSession.emit_trace, HttpSession.closeSession_trace, List.append_assoc]
        exact ⟨_, rfl, fun _ => List.mem_cons_self⟩
      · exact .of_grows (.append _ (by simp))
    · exact .of_grows (.refl _ _)

/-- **Every step.** -/
theorem HttpStep.stopping {s s' : HttpSession ρ} {l : HttpLabel} (h : HttpStep cfg P s l s') :
    Stopping s.trace s'.trace := by
  cases h with
  | @call i c hu hi => exact .responding (.call s i c)
  | setReq req hu => exact .of_grows (.refl _ _)
  | ret hst => exact .of_grows (.refl _ _)
  | @run e st hst =>
    cases e with
    | messageComplete upgrade =>
      have hspec := ({ s with stack := st } : HttpSession ρ).handleRequest_spec cfg upgrade
      rcases hspec.answered with ⟨-, htrace⟩ | ⟨-, ctx, buffers, htrace⟩
      · exact ⟨_, htrace, by simp⟩
      · exact ⟨_, htrace, by simp⟩
    | _ => exact .of_grows (.refl _ _)
  | recv base data hst hr =>
    exact .of_grows (s.recvCb_grows base data HttpEffect.ne_onUpgrade_of_isQuiet)
  | recvErr hst hr => exact .of_grows (s.recvErr_grows HttpEffect.ne_onUpgrade_of_isQuiet)
  | timer hst ht => exact .of_grows (s.keepAliveTimerCb_grows HttpEffect.ne_onUpgrade_of_isQuiet)
  | @written w ws a status hst hw ha => exact .onWriteEnd { s with writes := ws } w a
  | @file j result data r r' as hst hr he => exact .responding (.fsActions cfg j r.resp s _ as)

/-! ### What the effects do to a handle -/

namespace Handle

/-- libuv reads for the same class as before, or no longer. -/
def StillReads (h h' : Handle) : Prop := ∀ cb, h'.allocCb = some cb → h.allocCb = some cb

theorem onHttpEffect_spec (h : Handle) (e : HttpEffect) :
    (h.onHttpEffect e).data = h.data ∧ h.StillReads (h.onHttpEffect e) := by
  cases e with
  | uvReadStop => exact ⟨rfl, fun cb hcb => by cases hcb⟩
  | uvClose => exact ⟨rfl, fun cb hcb => by cases hcb⟩
  | _ => exact ⟨rfl, fun cb hcb => hcb⟩

theorem foldl_onHttpEffect_spec (h : Handle) (es : List HttpEffect) :
    (es.foldl onHttpEffect h).data = h.data ∧ h.StillReads (es.foldl onHttpEffect h) := by
  induction es generalizing h with
  | nil => exact ⟨rfl, fun cb hcb => hcb⟩
  | cons e es ih =>
    obtain ⟨hdata, hreads⟩ := h.onHttpEffect_spec e
    obtain ⟨hdata', hreads'⟩ := ih (h.onHttpEffect e)
    exact ⟨hdata'.trans hdata, fun cb hcb => hreads cb (hreads' cb hcb)⟩

/-- Once the reading has been stopped, it stays so. -/
theorem foldl_onHttpEffect_allocCb {es : List HttpEffect}
    (hes : .uvReadStop ∈ es ∨ .uvClose ∈ es) (h : Handle) :
    (es.foldl onHttpEffect h).allocCb = none := by
  obtain ⟨e, he, hstop⟩ : ∃ e ∈ es, ∀ g : Handle, (g.onHttpEffect e).allocCb = none := by
    rcases hes with hes | hes
    · exact ⟨_, hes, fun g => rfl⟩
    · exact ⟨_, hes, fun g => rfl⟩
  obtain ⟨es, fs, rfl⟩ := List.append_of_mem he
  rw [List.foldl_append, List.foldl_cons]
  generalize es.foldl onHttpEffect h = g
  obtain ⟨-, hreads⟩ := (g.onHttpEffect e).foldl_onHttpEffect_spec fs
  cases hcb : (fs.foldl onHttpEffect (g.onHttpEffect e)).allocCb with
  | none => rfl
  | some cb =>
    have hbefore := hreads cb hcb
    rw [hstop g] at hbefore
    cases hbefore

/-- The buffers only change where the session moves. -/
theorem foldl_onHttpEffect_recvBuf {h g : Handle} (hbuf : h.recvBuf = g.recvBuf)
    (es : List HttpEffect) :
    (es.foldl onHttpEffect h).recvBuf = ((moved es).foldl onHttpEffect g).recvBuf := by
  have hsame : ∀ {a b : Handle} (e : HttpEffect), a.recvBuf = b.recvBuf →
      (a.onHttpEffect e).recvBuf = (b.onHttpEffect e).recvBuf := by
    intro a b e hab
    cases e with
    | onUpgrade =>
      have hhttp : a.httpBuf = b.httpBuf := congrFun hab .http
      funext cb
      cases cb with
      | http => rfl
      | ws => exact hhttp
    | _ => exact hab
  induction es generalizing h g with
  | nil => exact hbuf
  | cons e es ih =>
    by_cases he : e.moves = true
    · rw [moved, List.filter_cons_of_pos he]
      exact ih (hsame e hbuf)
    · rw [moved, List.filter_cons_of_neg he]
      have hid : (h.onHttpEffect e).recvBuf = h.recvBuf := by
        cases e <;> simp [HttpEffect.moves] at he <;> rfl
      exact ih (hid.trans hbuf)

theorem foldl_onHttpEffect_recvBuf_of_not_mem {es : List HttpEffect} (hes : .onUpgrade ∉ es)
    (h : Handle) : (es.foldl onHttpEffect h).recvBuf = h.recvBuf := by
  induction es generalizing h with
  | nil => rfl
  | cons e es ih =>
    obtain ⟨he, hes⟩ := not_or.mp (mt List.mem_cons.mpr hes)
    have hid : (h.onHttpEffect e).recvBuf = h.recvBuf := by
      cases e with
      | onUpgrade => exact absurd rfl he
      | _ => rfl
    exact (ih hes _).trans hid

end Handle

/-! ### The invariant -/

/-- The session of that class is there. -/
def Connection.has (c : Connection ρ) : SessionClass → Bool
  | .http => c.http.registered
  | .ws => c.ws.isSome

/-- A session that is there has a buffer, and libuv reads for such a session only. -/
structure HandleInv (c : Connection ρ) (h : Handle) : Prop where
  buffer : ∀ cb, c.has cb = true → 0 < (h.recvBuf cb).len
  reads : ∀ cb, h.allocCb = some cb → h.data = cb ∧ c.has cb = true
  fits : ∀ cb, (h.recvBuf cb).len < 2 ^ 64

theorem HandleInv.accepted (P : HttpParser ρ) (method : HttpMethod) :
    HandleInv (⟨.accepted P method, none⟩ : Connection ρ) .accepted := by
  refine ⟨fun cb hcb => ?_, fun cb hcb => ?_, fun cb => ?_⟩
  · cases cb with
    | http => decide
    | ws => cases hcb
  · obtain rfl : SessionClass.http = cb := Option.some.inj hcb
    exact ⟨rfl, rfl⟩
  · cases cb <;> decide

/-- The HTTP session takes a step that is no upgrade. -/
theorem HandleInv.http {c c' : Connection ρ} {h : Handle} (hinv : HandleInv c h)
    {es : List HttpEffect} (hup : .onUpgrade ∉ es) (hws : c'.ws.isSome = c.ws.isSome)
    (hreg : c'.http.registered = c.http.registered ∨
      c'.http.registered = false ∧ .uvClose ∈ es) :
    HandleInv c' (es.foldl Handle.onHttpEffect h) := by
  have hbuf : (es.foldl Handle.onHttpEffect h).recvBuf = h.recvBuf :=
    Handle.foldl_onHttpEffect_recvBuf_of_not_mem hup h
  have hhas : ∀ cb, c'.has cb = true → c.has cb = true := by
    intro cb hcb
    cases cb with
    | http =>
      rcases hreg with hsame | ⟨hgone, -⟩
      · exact hsame.symm.trans hcb
      · rw [Connection.has, hgone] at hcb
        cases hcb
    | ws => exact hws.symm.trans hcb
  refine ⟨fun cb hcb => ?_, fun cb hcb => ?_, fun cb => ?_⟩
  · rw [hbuf]
    exact hinv.buffer cb (hhas cb hcb)
  · obtain ⟨hdata, hreads⟩ := h.foldl_onHttpEffect_spec es
    obtain ⟨hold, hthere⟩ := hinv.reads cb (hreads cb hcb)
    refine ⟨hdata.trans hold, ?_⟩
    rcases hreg with hsame | ⟨-, hclose⟩
    · cases cb with
      | http => exact hsame.trans hthere
      | ws => exact hws.trans hthere
    · -- a closed handle is not read from
      rw [Handle.foldl_onHttpEffect_allocCb (.inr hclose)] at hcb
      cases hcb
  · rw [hbuf]
    exact hinv.fits cb

/-- The HTTP session is upgraded: the WebSocket session has its buffer. -/
theorem HandleInv.upgrade {c c' : Connection ρ} {h : Handle} (hinv : HandleInv c h)
    {es : List HttpEffect} (hmoved : moved es = [.removeSession, .onUpgrade])
    (hstop : .uvReadStop ∈ es) (hbefore : c.http.registered = true)
    (hgone : c'.http.registered = false) : HandleInv c' (es.foldl Handle.onHttpEffect h) := by
  have hbuf : (es.foldl Handle.onHttpEffect h).recvBuf = h.newWsSession.recvBuf := by
    rw [Handle.foldl_onHttpEffect_recvBuf rfl, hmoved]
    rfl
  refine ⟨fun cb hcb => ?_, fun cb hcb => ?_, fun cb => ?_⟩
  · rw [hbuf]
    cases cb with
    | http =>
      rw [Connection.has, hgone] at hcb
      cases hcb
    | ws => exact hinv.buffer .http hbefore
  · rw [Handle.foldl_onHttpEffect_allocCb (.inl hstop)] at hcb
    cases hcb
  · rw [hbuf]
    cases cb with
    | http => exact Nat.two_pow_pos 64
    | ws => exact hinv.fits .http

/-- An effect of the WebSocket session: `connect` points the handle to it before libuv reads. -/
theorem HandleInv.onWsEffect {c : Connection ρ} {h : Handle} (hinv : HandleInv c h)
    (hws : c.ws.isSome = true) (hgone : c.http.registered = false) (e : WsEffect) :
    HandleInv c (h.onWsEffect e) := by
  have hstopped : ∀ g : Handle, g.recvBuf = h.recvBuf → g.allocCb = none → HandleInv c g := by
    intro g hbuf hnone
    refine ⟨hbuf ▸ hinv.buffer, fun cb hcb => ?_, hbuf ▸ hinv.fits⟩
    rw [hnone] at hcb
    cases hcb
  cases e with
  | uvReadStart =>
    -- libuv does not read for the HTTP session, which is gone
    have hdata : ∀ cb, h.allocCb = some cb → cb = .ws := by
      intro cb hcb
      obtain ⟨-, hthere⟩ := hinv.reads cb hcb
      cases cb with
      | http =>
        rw [Connection.has, hgone] at hthere
        cases hthere
      | ws => rfl
    have hbuf : h.connect.recvBuf = h.recvBuf := by
      unfold Handle.connect Handle.uvReadStart
      split <;> rfl
    refine ⟨fun cb hcb => ?_, fun cb hcb => ?_, fun cb => ?_⟩
    · show 0 < (h.connect.recvBuf cb).len
      rw [hbuf]
      exact hinv.buffer cb hcb
    · change h.connect.allocCb = some cb at hcb
      show h.connect.data = cb ∧ c.has cb = true
      unfold Handle.connect Handle.uvReadStart at hcb ⊢
      split at hcb
      next hcond =>
        obtain rfl := hdata cb hcb
        rw [if_pos hcond]
        exact ⟨rfl, hws⟩
      next hcond =>
        obtain rfl : SessionClass.ws = cb := Option.some.inj hcb
        rw [if_neg hcond]
        exact ⟨rfl, hws⟩
    · show (h.connect.recvBuf cb).len < 2 ^ 64
      rw [hbuf]
      exact hinv.fits cb
  | uvReadStop => exact hstopped _ rfl rfl
  | uvClose => exact hstopped _ rfl rfl
  | _ => exact hinv

theorem HandleInv.ws {c : Connection ρ} {h : Handle} (hinv : HandleInv c h)
    (hws : c.ws.isSome = true) (hgone : c.http.registered = false) (es : List WsEffect) :
    HandleInv c (es.foldl Handle.onWsEffect h) := by
  induction es generalizing h with
  | nil => exact hinv
  | cons e es ih => exact ih (hinv.onWsEffect hws hgone e)

/-- The sessions there are stay the same. -/
theorem HandleInv.congr {c c' : Connection ρ} {h : Handle} (hinv : HandleInv c h)
    (hhas : ∀ cb, c'.has cb = c.has cb) : HandleInv c' h := by
  refine ⟨fun cb hcb => hinv.buffer cb (hhas cb ▸ hcb), fun cb hcb => ?_, hinv.fits⟩
  obtain ⟨hdata, hthere⟩ := hinv.reads cb hcb
  exact ⟨hdata, (hhas cb).trans hthere⟩

/-- **A call of `alloc_cb`** finds a buffer, and makes it large enough. -/
theorem HandleInv.alloc_spec {c : Connection ρ} {h : Handle} (hinv : HandleInv c h)
    {cb : SessionClass} (hcb : h.allocCb = some cb) {suggestedSize : Nat}
    (hsize : suggestedSize ≤ (2 ^ 64 - 1) / 3) (realloc : Bool) :
    ∃ buf, h.alloc suggestedSize realloc = some (h.setRecvBuf buf cb) ∧
      Grown suggestedSize (h.recvBuf cb) buf := by
  obtain ⟨hdata, hthere⟩ := hinv.reads cb hcb
  obtain ⟨buf, hgrow, hgrown⟩ :=
    growRecvBuf_spec realloc (hinv.buffer cb hthere) (hinv.fits cb) hsize
  have hcall : h.recvAllocCb cb suggestedSize realloc = some (h.setRecvBuf buf cb) := by
    rw [Handle.recvAllocCb, if_pos hdata, hgrow]
    rfl
  refine ⟨buf, ?_, hgrown⟩
  unfold Handle.alloc
  rw [hcb]
  cases cb with
  | http => exact hcall
  | ws => exact hcall

theorem HandleInv.alloc {c : Connection ρ} {h h' : Handle} (hinv : HandleInv c h)
    {suggestedSize : Nat} (hsize : suggestedSize ≤ (2 ^ 64 - 1) / 3) {realloc : Bool}
    (hstep : h.alloc suggestedSize realloc = some h') : HandleInv c h' := by
  cases hcb : h.allocCb with
  | none => simp [Handle.alloc, hcb] at hstep
  | some cb =>
    obtain ⟨buf, hcall, hgrown⟩ := hinv.alloc_spec hcb hsize realloc
    rw [hcall] at hstep
    obtain rfl := Option.some.inj hstep
    -- this buffer has grown, the other is as it was
    have hbuf : ∀ k, ((h.setRecvBuf buf cb).recvBuf k).len < 2 ^ 64 ∧
        (h.recvBuf k).len ≤ ((h.setRecvBuf buf cb).recvBuf k).len := by
      intro k
      cases cb <;> cases k
      · exact ⟨hgrown.fits, hgrown.grown⟩
      · exact ⟨hinv.fits .ws, Nat.le_refl _⟩
      · exact ⟨hinv.fits .http, Nat.le_refl _⟩
      · exact ⟨hgrown.fits, hgrown.grown⟩
    refine ⟨fun k hk => Nat.lt_of_lt_of_le (hinv.buffer k hk) (hbuf k).2, fun k hk => ?_,
      fun k => (hbuf k).1⟩
    cases cb with
    | http => exact hinv.reads k hk
    | ws => exact hinv.reads k hk

/-! ### Runs -/

/-- The invariant of the servers, and that of each handle. -/
structure UvLoopInv (s : UvLoop ρ) : Prop where
  server : ServerInv s.server
  length : s.handles.length = s.server.connections.length
  handles : ∀ (i : Nat) (c : Connection ρ) (h : Handle), s.server.connections[i]? = some c →
    s.handles[i]? = some h → HandleInv c h

theorem UvLoopInv.init : UvLoopInv (.init : UvLoop ρ) :=
  ⟨.init, rfl, fun i c h hc => by simp [UvLoop.init, Server.init] at hc⟩

/-- Connection `i` becomes `c'`, and `f` is done to its handle. -/
theorem UvLoopInv.put {s : UvLoop ρ} (hs : UvLoopInv s) {i : Nat} {c c' : Connection ρ}
    (hi : s.server.connections[i]? = some c) {server : Server ρ} (hserver : ServerInv server)
    (hset : server.connections = s.server.connections.set i c') {f : Handle → Handle}
    (hf : ∀ h, HandleInv c h → HandleInv c' (f h)) :
    UvLoopInv ⟨server, s.handles.modify i f⟩ := by
  have hlt : i < s.server.connections.length := (List.getElem?_eq_some_iff.mp hi).1
  refine ⟨hserver, ?_, fun j d h hd hh => ?_⟩
  · show (s.handles.modify i f).length = server.connections.length
    rw [List.length_modify, hset, List.length_set]
    exact hs.length
  · change server.connections[j]? = some d at hd
    change (s.handles.modify i f)[j]? = some h at hh
    rw [hset, List.getElem?_set] at hd
    rw [List.getElem?_modify] at hh
    obtain ⟨g, hg, rfl⟩ := Option.map_eq_some_iff.mp hh
    by_cases hj : i = j
    · subst hj
      rw [if_pos rfl, if_pos hlt] at hd
      obtain rfl := Option.some.inj hd
      rw [if_pos rfl]
      exact hf g (hs.handles i c g hi hg)
    · rw [if_neg hj] at hd ⊢
      exact hs.handles j d g hd hg

theorem UvLoopInv.http {s : UvLoop ρ} (hs : UvLoopInv s) {i : Nat} {c : Connection ρ}
    (hi : s.server.connections[i]? = some c) {l : HttpLabel} {t : HttpSession ρ}
    (hstep : HttpStep (attached cfg) P c.http l t) :
    UvLoopInv ⟨s.server.afterHttp i c t, s.handlesAfter (s.server.afterHttp i c t) (.http i l)⟩ := by
  have hlt : i < s.server.connections.length := (List.getElem?_eq_some_iff.mp hi).1
  have hserver : ServerInv (s.server.afterHttp i c t) := hs.server.afterHttp hi (hstep.move rfl)
  have hold : s.server.httpTrace i = c.http.trace := by rw [Server.httpTrace, hi]; rfl
  obtain ⟨es, htrace, hstop⟩ := hstep.stopping
  -- the connection as it is then, and what its handle is through
  have hput : ∀ c' : Connection ρ, (s.server.afterHttp i c t).connections =
      s.server.connections.set i c' → c'.http = t →
      (∀ h, HandleInv c h → HandleInv c' (es.foldl Handle.onHttpEffect h)) →
      UvLoopInv ⟨s.server.afterHttp i c t,
        s.handlesAfter (s.server.afterHttp i c t) (.http i l)⟩ := by
    intro c' hset hc' hf
    have hnew : (s.server.afterHttp i c t).httpTrace i = c.http.trace ++ es := by
      rw [Server.httpTrace, hset, List.getElem?_set, if_pos rfl, if_pos hlt, ← htrace, ← hc']
      rfl
    unfold UvLoop.handlesAfter
    dsimp only
    rw [hnew, hold, List.drop_left]
    exact hs.put hi hserver hset hf
  have hnone : ∀ {fs : List HttpEffect}, .onUpgrade ∉ fs → moved es = fs → .onUpgrade ∉ es := by
    rintro fs hfs rfl hup
    exact hfs (List.mem_filter.mpr ⟨hup, rfl⟩)
  have hsame : ∀ {fs : List HttpEffect}, t.trace = c.http.trace ++ fs → es = fs :=
    fun h => List.append_cancel_left (htrace.symm.trans h)
  have hmove : HttpMove c.http t := hstep.move rfl
  cases hmove with
  | stays fs hfs hmoved hreg =>
    obtain rfl := hsame hfs
    refine hput ⟨t, Server.sharing c t⟩ ?_ rfl fun h hinv => ?_
    · rw [Server.afterHttp_eq _ i c htrace, hmoved]
      rfl
    · exact hinv.http (hnone List.not_mem_nil hmoved) (sharing_isSome c t) (.inl hreg)
  | closes fs hfs hmoved hclose hgone =>
    obtain rfl := hsame hfs
    refine hput ⟨t, Server.sharing c t⟩ ?_ rfl fun h hinv => ?_
    · rw [Server.afterHttp_eq _ i c htrace, hmoved]
      rfl
    · exact hinv.http (hnone (by simp) hmoved) (sharing_isSome c t) (.inr ⟨hgone, hclose⟩)
  | upgrades fs hfs hmoved hbefore hgone =>
    obtain rfl := hsame hfs
    refine hput ⟨t, some (.onUpgrade s.server.onConnectCb)⟩ ?_ rfl fun h hinv => ?_
    · rw [Server.afterHttp_eq _ i c htrace, hmoved, Server.foldl_upgrade _ hlt]
    · have hup : HttpEffect.onUpgrade ∈ moved es := by rw [hmoved]; simp
      exact hinv.upgrade hmoved (hstop (List.mem_filter.mp hup).1) hbefore hgone

theorem UvLoopInv.ws {s : UvLoop ρ} (hs : UvLoopInv s) {i : Nat} {c : Connection ρ}
    (hi : s.server.connections[i]? = some c) {l : WsLabel} {w w' : WsSession} (hw : c.ws = some w)
    (hstep : WsStep w l w') :
    UvLoopInv ⟨s.server.afterWs i c w w', s.handlesAfter (s.server.afterWs i c w w') (.ws i l)⟩ := by
  have hplaced : Placed c := hs.server.placed c (List.mem_of_getElem? hi)
  have hsome : c.ws.isSome = true := by rw [hw]; rfl
  have hset : (s.server.afterWs i c w w').connections =
      s.server.connections.set i (Server.withWs c w') :=
    Server.connections_foldl_onWsEffect i _ _
  refine hs.put hi (hs.server.afterWs hi hw hstep) hset fun h hinv => ?_
  refine (hinv.ws hsome (hplaced.upgraded hsome) _).congr fun cb => ?_
  cases cb with
  | http => rfl
  | ws => exact hsome.symm

/-- The suggested sizes libuv asks for are at most a third of what a `size_t` can hold. -/
def UvLoopLabel.Moderate : UvLoopLabel → Prop
  | .alloc _ suggestedSize _ => suggestedSize ≤ (2 ^ 64 - 1) / 3
  | .server _ => True

/-- **Every step keeps the invariant.** -/
theorem UvLoopInv.step {s s' : UvLoop ρ} (hs : UvLoopInv s) {l : UvLoopLabel} (hl : l.Moderate)
    (h : (uvLoopMachine cfg P).step s l = some s') : UvLoopInv s' := by
  change s.step (attached cfg) P l = some s' at h
  cases l with
  | server l =>
    obtain ⟨server, hserver, rfl⟩ := Option.map_eq_some_iff.mp h
    have hinv : ServerInv server := hs.server.step hserver
    cases l with
    | accept method =>
      simp only [Server.step] at hserver
      split at hserver
      · obtain rfl := Option.some.inj hserver
        refine ⟨hinv, ?_, fun i c h hc hh => ?_⟩
        · show (s.handles ++ [_]).length = (s.server.connections ++ [_]).length
          rw [List.length_append, List.length_append, hs.length]
          rfl
        · change (s.server.connections ++ [_])[i]? = some c at hc
          change (s.handles ++ [_])[i]? = some h at hh
          rw [List.getElem?_append] at hc hh
          rw [hs.length] at hh
          split at hc
          next hlt =>
            rw [if_pos hlt] at hh
            exact hs.handles i c h hc hh
          next hlt =>
            rw [if_neg hlt] at hh
            obtain rfl := List.mem_singleton.mp (List.mem_of_getElem? hc)
            obtain rfl := List.mem_singleton.mp (List.mem_of_getElem? hh)
            exact .accepted P method
      · cases hserver
    | onConnect set =>
      obtain rfl := Option.some.inj hserver
      exact ⟨hinv, hs.length, hs.handles⟩
    | http i l =>
      simp only [Server.step] at hserver
      split at hserver
      · obtain ⟨c, hc, hserver⟩ := Option.bind_eq_some_iff.mp hserver
        obtain ⟨t, ht, rfl⟩ := Option.map_eq_some_iff.mp hserver
        exact hs.http hc (HttpSession.step_cases (P := P) ht)
      · cases hserver
    | ws i l =>
      simp only [Server.step] at hserver
      split at hserver
      · obtain ⟨c, hc, hserver⟩ := Option.bind_eq_some_iff.mp hserver
        obtain ⟨w, hw, hserver⟩ := Option.bind_eq_some_iff.mp hserver
        obtain ⟨w', hw', rfl⟩ := Option.map_eq_some_iff.mp hserver
        exact hs.ws hc hw (WsSession.step_cases hw')
      · cases hserver
  | alloc i suggestedSize realloc =>
    simp only [UvLoop.step] at h
    split at h
    · obtain ⟨g, hg, h⟩ := Option.bind_eq_some_iff.mp h
      obtain ⟨g', hg', rfl⟩ := Option.map_eq_some_iff.mp h
      refine ⟨hs.server, ?_, fun j c k hc hk => ?_⟩
      · rw [List.length_set]
        exact hs.length
      · rw [List.getElem?_set] at hk
        by_cases hj : i = j
        · subst hj
          rw [if_pos rfl, if_pos (List.getElem?_eq_some_iff.mp hg).1] at hk
          obtain rfl := Option.some.inj hk
          exact (hs.handles i c g hc hg).alloc hl hg'
        · rw [if_neg hj] at hk
          exact hs.handles j c k hc hk
    · cases h

/-- **Every run keeps the invariant.** -/
theorem uvLoopInv_exec {ls : List UvLoopLabel} {s : UvLoop ρ}
    (h : (uvLoopMachine cfg P).exec .init ls = some s) (hsizes : ∀ l ∈ ls, l.Moderate) :
    UvLoopInv s :=
  (uvLoopMachine cfg P).exec_invariant_of_allSteps (fun _ _ _ hs hl h => hs.step hl h) .init
    ((uvLoopMachine cfg P).allSteps_of_forall hsizes .init) h

/-- **Every `recv_alloc_cb` finds a buffer.**  In every run of the servers, with connections
    accepted, upgraded and closed in any order and suggested sizes of at most `(2 ^ 64 - 1) / 3`:
    where libuv reads from a handle, the session that `data` points to is one of the class whose
    `recv_alloc_cb` is installed, it has not been removed, and an HTTP session has not handed its
    buffer over.  The length of its `m_recvBuf` is not 0, and so the call returns: the loop reaches
    the suggested size without a sum that leaves 64 bits, and the buffer is no smaller than it
    was. -/
theorem alloc_finds_buffer {ls : List UvLoopLabel} {s : UvLoop ρ}
    (h : (uvLoopMachine cfg P).exec .init ls = some s) (hsizes : ∀ l ∈ ls, l.Moderate) {i : Nat}
    {handle : Handle} (hi : s.handles[i]? = some handle) {cb : SessionClass}
    (hcb : handle.allocCb = some cb) {suggestedSize : Nat}
    (hsize : suggestedSize ≤ (2 ^ 64 - 1) / 3) (realloc : Bool) :
    handle.data = cb ∧ 0 < (handle.recvBuf cb).len ∧
      (∃ c, s.server.connections[i]? = some c ∧ c.has cb = true ∧ (cb = .http → c.ws = none)) ∧
        ∃ buf, handle.alloc suggestedSize realloc = some (handle.setRecvBuf buf cb) ∧
          Grown suggestedSize (handle.recvBuf cb) buf := by
  have hs : UvLoopInv s := uvLoopInv_exec h hsizes
  have hlt : i < s.server.connections.length :=
    hs.length ▸ (List.getElem?_eq_some_iff.mp hi).1
  obtain ⟨c, hc⟩ : ∃ c, s.server.connections[i]? = some c := ⟨_, List.getElem?_eq_getElem hlt⟩
  have hinv : HandleInv c handle := hs.handles i c handle hc hi
  obtain ⟨hdata, hthere⟩ := hinv.reads cb hcb
  refine ⟨hdata, hinv.buffer cb hthere, ⟨c, hc, hthere, ?_⟩, hinv.alloc_spec hcb hsize realloc⟩
  rintro rfl
  -- the WebSocket session is made when the HTTP session is removed
  have hplaced : Placed c := hs.server.placed c (List.mem_of_getElem? hc)
  rw [← Option.not_isSome_iff_eq_none]
  intro hsome
  exact absurd (hthere.symm.trans (hplaced.upgraded hsome)) (by simp)

/-- libuv calls the `recv_alloc_cb` of an HTTP session, which is upgraded, and then that of the
    WebSocket session. -/
def upgradedAllocs : List UvLoopLabel :=
  [.server (.accept .get), .alloc 0 65536 true, .server (.http 0 (.recv true upgradeRequest)),
    .server (.http 0 .run), .server (.http 0 .run), .server (.http 0 .run), .server (.http 0 .run),
    .server (.http 0 (.written 0)), .server (.ws 0 .run), .alloc 0 100000 true]

set_option maxRecDepth 4000 in
/-- The buffer is the one handed over, and has grown once. -/
theorem alloc_finds_buffer_upgraded :
    ∃ s handle, (uvLoopMachine bareConfig upgradeParser).exec .init upgradedAllocs = some s ∧
      s.handles = [handle] ∧ handle.httpBuf.len = 0 ∧ handle.wsBuf.len = 196608 ∧
        handle.data = .ws ∧ ∃ buf, handle.alloc 200000 true = some (handle.setRecvBuf buf .ws) ∧
          Grown 200000 handle.wsBuf buf := by
  obtain ⟨s, handle, hs, hhandles, hcb, hhttp, hws⟩ : ∃ s handle,
      (uvLoopMachine bareConfig upgradeParser).exec .init upgradedAllocs = some s ∧
        s.handles = [handle] ∧ handle.allocCb = some .ws ∧ handle.httpBuf.len = 0 ∧
          handle.wsBuf.len = 196608 :=
    ⟨_, _, rfl, rfl, rfl, rfl, rfl⟩
  have hsizes : ∀ l ∈ upgradedAllocs, l.Moderate := by
    simp [upgradedAllocs, UvLoopLabel.Moderate]
  have hi : s.handles[0]? = some handle := by rw [hhandles]; rfl
  have hsize : 200000 ≤ (2 ^ 64 - 1) / 3 := by decide
  obtain ⟨hdata, -, -, hgrow⟩ := alloc_finds_buffer hs hsizes hi hcb hsize true
  exact ⟨s, handle, hs, hhandles, hhttp, hws, hdata, hgrow⟩

end MyWebSocket
