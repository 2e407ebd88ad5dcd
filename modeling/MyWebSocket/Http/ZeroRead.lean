import MyWebSocket.Http.Execute
import MyWebSocket.Http.KeepAlive
import MyWebSocket.WebSocket.Steps

namespace MyWebSocket

/-!
# Reads of length 0

libuv may call the read callback with `nread = 0`, which says nothing about the connection.

* `HttpSession.Retraced` — sessions that differ in the beginning of their record only run alike
  (`exec_retraced`);
* `zeroRead_noop_iff` — for the HTTP session such a read is without effect exactly where it stops
  no timer and finds the parser where no message has begun or in its error state; for the
  WebSocket session it always is.
-/

variable {ρ : Type} {cfg : HttpConfig} {P : HttpParser ρ}

namespace HttpSession

/-! ### The record does not matter -/

/-- `t` is `s` with `b` for the beginning `a` of the trace. -/
def Retraced (a b : List HttpEffect) (s t : HttpSession ρ) : Prop :=
  ∃ es, s.trace = a ++ es ∧ t = { s with trace := b ++ es }

variable {a b : List HttpEffect} {s t : HttpSession ρ}

theorem Retraced.emit (h : Retraced a b s t) (es : List HttpEffect) :
    Retraced a b (s.emit es) (t.emit es) := by
  obtain ⟨es', hs, rfl⟩ := h
  refine ⟨es' ++ es, ?_, ?_⟩
  · rw [emit_trace, hs, List.append_assoc]
  · simp [HttpSession.emit]

/-- A change that does not look at the trace. -/
theorem Retraced.map (h : Retraced a b s t) (f : HttpSession ρ → HttpSession ρ)
    (htrace : (f s).trace = s.trace)
    (hf : ∀ tr, f { s with trace := tr } = { f s with trace := tr }) :
    Retraced a b (f s) (f t) := by
  obtain ⟨es, hs, rfl⟩ := h
  exact ⟨es, htrace.trans hs, hf _⟩

theorem Retraced.onResp (h : Retraced a b s t) (i : Nat) (f : HttpResp → HttpResp) :
    Retraced a b (s.onResp i f) (t.onResp i f) :=
  h.map (·.onResp i f) rfl fun _ => rfl

theorem Retraced.stopKeepAliveTimer (h : Retraced a b s t) :
    Retraced a b s.stopKeepAliveTimer t.stopKeepAliveTimer :=
  (h.map (fun s => { s with isKeepAlive := false, timerData := false, timerArmed := false }) rfl
    fun _ => rfl).emit _

theorem Retraced.startKeepAliveTimer (h : Retraced a b s t) :
    Retraced a b (s.startKeepAliveTimer cfg) (t.startKeepAliveTimer cfg) :=
  (h.map (fun s => { s with timerData := true, timerArmed := true, isKeepAlive := true }) rfl
    fun _ => rfl).emit _

theorem Retraced.closeSession (h : Retraced a b s t) (isUpgrade : Bool) :
    Retraced a b (s.closeSession isUpgrade) (t.closeSession isUpgrade) := by
  have hstop := (h.map (fun s => { s with reading := false }) rfl fun _ => rfl).emit [.uvReadStop]
  cases isUpgrade with
  | true =>
    exact (hstop.map (fun s => { s with registered := false }) rfl fun _ => rfl).emit _
  | false =>
    have hclose :=
      (hstop.map (fun s => { s with closing := true }) rfl fun _ => rfl).emit [.uvClose]
    exact (hclose.map (fun s => { s with registered := false }) rfl fun _ => rfl).emit _

theorem Retraced.upgradeSession (h : Retraced a b s t) :
    Retraced a b (s.upgradeSession cfg) (t.upgradeSession cfg) := by
  unfold HttpSession.upgradeSession
  split
  · exact (h.closeSession true).emit _
  · exact h.emit _

theorem Retraced.send (h : Retraced a b s t) (i : Nat) :
    Retraced a b (s.send cfg i) (t.send cfg i) := by
  obtain ⟨es, hs, rfl⟩ := h
  have hrefl : Retraced a b s { s with trace := b ++ es } := ⟨es, hs, rfl⟩
  unfold HttpSession.send
  dsimp only
  cases s.answers[i]? with
  | none => exact hrefl
  | some x =>
    exact (hrefl.map (fun s => { s with
      nextCtx := s.nextCtx + 1
      writes := if s.closing then s.writes else s.writes ++ [(⟨s.nextCtx, i⟩ : PendingWrite)] })
      rfl fun _ => rfl).emit _

/-- A field that is not the trace is the same. -/
theorem Retraced.same {β : Type} (h : Retraced a b s t) (f : HttpSession ρ → β)
    (hf : ∀ s : HttpSession ρ, ∀ tr, f { s with trace := tr } = f s) : f t = f s := by
  obtain ⟨es, -, rfl⟩ := h
  exact hf s _

theorem Retraced.sendFile (h : Retraced a b s t) (i : Nat) (path : Bytes) :
    Retraced a b (s.sendFile i path) (t.sendFile i path) := by
  have hreaders : t.readers = s.readers := h.same (·.readers) fun _ _ => rfl
  unfold HttpSession.sendFile
  dsimp only
  rw [hreaders]
  exact ((h.onResp i _).map (fun s => { s with
    readers := s.readers ++ [(⟨i, (FileReader.fileRead path).1⟩ : RespReader)] }) rfl
    fun _ => rfl).emit _

theorem Retraced.call (h : Retraced a b s t) (i : Nat) (c : RespCall) :
    Retraced a b (s.call cfg i c) (t.call cfg i c) := by
  cases c with
  | setHeader key value => exact h.onResp i _
  | setStatus status => exact h.onResp i _
  | clearContent => exact h.onResp i _
  | sendStr body => exact (h.onResp i _).send i
  | sendJson text => exact (h.onResp i _).send i
  | sendFile path => exact h.sendFile i path

theorem Retraced.fsAction (h : Retraced a b s t) (j i : Nat) (x : FsAction) :
    Retraced a b (fsAction cfg j i s x) (fsAction cfg j i t x) := by
  have hfs := h.emit [.fs j x]
  cases x with
  | onError => exact ((hfs.onResp i _).send i).emit _
  | onClose => exact hfs.send i
  | fsOpen path => exact hfs
  | fsRead fd len => exact hfs
  | fsClose fd => exact hfs

theorem Retraced.fsActions (h : Retraced a b s t) (j i : Nat) (xs : List FsAction) :
    Retraced a b (xs.foldl (HttpSession.fsAction cfg j i) s)
      (xs.foldl (HttpSession.fsAction cfg j i) t) := by
  induction xs generalizing s t with
  | nil => exact h
  | cons x xs ih => exact ih (h.fsAction j i x)

theorem Retraced.onWriteEnd (h : Retraced a b s t) (w : PendingWrite) (x : Answer) :
    Retraced a b (s.onWriteEnd cfg w x) (t.onWriteEnd cfg w x) := by
  have hreleased : Retraced a b
      (if x.resp.sendType = .file then s.emit (x.resp.reader.toList.map .deleteReader) else s)
      (if x.resp.sendType = .file then t.emit (x.resp.reader.toList.map .deleteReader) else t) := by
    split
    · exact h.emit _
    · exact h
  unfold HttpSession.onWriteEnd
  dsimp only
  -- the record is not looked at: both sessions take the same branch
  refine Retraced.emit ?_ _
  generalize (if x.resp.sendType = .file then _ else s) = u at hreleased
  generalize (if x.resp.sendType = .file then _ else t) = v at hreleased
  have hregistered : v.registered = u.registered := hreleased.same (·.registered) fun _ _ => rfl
  have hflag : v.isKeepAlive = u.isKeepAlive := hreleased.same (·.isKeepAlive) fun _ _ => rfl
  rw [hregistered, hflag]
  split
  · split
    · split
      · exact hreleased.startKeepAliveTimer
      · exact hreleased.closeSession false
    · exact hreleased.upgradeSession
  · exact hreleased

theorem Retraced.setReq (h : Retraced a b s t) (req : ReqState) :
    Retraced a b { s with req := req } { t with req := req } :=
  h.map (fun s => { s with req := req }) rfl fun _ => rfl

theorem Retraced.setStack (h : Retraced a b s t) (st : List HttpTask) :
    Retraced a b { s with stack := st } { t with stack := st } :=
  h.map (fun s => { s with stack := st }) rfl fun _ => rfl

theorem Retraced.upgradeToWs (h : Retraced a b s t) (i : Nat) :
    Retraced a b (s.upgradeToWs cfg i) (t.upgradeToWs cfg i) := by
  have hreq : t.req = s.req := h.same (·.req) fun _ _ => rfl
  unfold HttpSession.upgradeToWs
  dsimp only
  rw [hreq]
  exact ((h.setReq _).onResp i _).send i

theorem Retraced.dispatchRequest (h : Retraced a b s t) (i : Nat) :
    Retraced a b (s.dispatchRequest cfg i) (t.dispatchRequest cfg i) := by
  have hreq : t.req = s.req := h.same (·.req) fun _ _ => rfl
  unfold HttpSession.dispatchRequest
  rw [hreq]
  split
  · next req _ _ =>
    have hstack : t.stack = s.stack := h.same (·.stack) fun _ _ => rfl
    rw [hstack]
    exact ((h.setReq { s.req with req := req }).setStack (.user i :: s.stack)).emit _
  · exact ((h.setReq _).onResp i _).send i

theorem Retraced.handleRequest (h : Retraced a b s t) (upgrade : Bool) :
    Retraced a b (s.handleRequest cfg upgrade) (t.handleRequest cfg upgrade) := by
  have hbegun : Retraced a b (s.begun upgrade) (t.begun upgrade) := by
    obtain ⟨es, hs, rfl⟩ := h
    refine ⟨es ++ [.handleRequest s.answers.length s.req.seen (needKeepConnection s.req.req)
      upgrade], ?_, ?_⟩
    · simp [begun, hs]
    · simp [begun, HttpSession.emit]
  have hanswers : t.answers = s.answers := h.same (·.answers) fun _ _ => rfl
  rw [handleRequest_eq, handleRequest_eq, hanswers]
  split
  · exact hbegun.upgradeToWs _
  · exact hbegun.dispatchRequest _

theorem Retraced.onEvent (h : Retraced a b s t) (e : ReqEvent) :
    Retraced a b (s.onEvent cfg e) (t.onEvent cfg e) := by
  have hfill : Retraced a b { s with req := s.req.on e } { t with req := t.req.on e } :=
    h.map (fun s => { s with req := s.req.on e }) rfl fun _ => rfl
  cases e with
  | messageComplete upgrade => exact h.handleRequest upgrade
  | _ => exact hfill

theorem Retraced.recvCb (h : Retraced a b s t) (base : Bool) (data : Bytes) :
    Retraced a b (s.recvCb P base data) (t.recvCb P base data) := by
  have hflag : t.isKeepAlive = s.isKeepAlive := h.same (·.isKeepAlive) fun _ _ => rfl
  have hstop : Retraced a b s.stopOnRead t.stopOnRead := by
    rw [stopOnRead, stopOnRead, hflag]
    split
    · exact (h.emit _).stopKeepAliveTimer
    · exact h.emit _
  rw [recvCb_eq, recvCb_eq]
  cases base with
  | true =>
    exact hstop.map (fun s => { s with
      parser := (P.execute s.parser data).1
      stack := (P.execute s.parser data).2.1.map HttpTask.event ++ s.stack }) rfl fun _ => rfl
  | false => exact hstop

theorem Retraced.keepAliveTimerCb (h : Retraced a b s t) :
    Retraced a b s.keepAliveTimerCb t.keepAliveTimerCb := by
  have hdisarmed : Retraced a b { s with timerArmed := false } { t with timerArmed := false } :=
    h.map (fun s => { s with timerArmed := false }) rfl fun _ => rfl
  obtain ⟨es, hs, rfl⟩ := h
  unfold HttpSession.keepAliveTimerCb
  dsimp only
  split
  · exact hdisarmed.closeSession false
  · exact hdisarmed

/-! ### Runs -/

/-- **Every step** is possible in both sessions or in neither, and they go on alike. -/
theorem Retraced.step (hab : ∀ i, .handler i ∈ a ↔ .handler i ∈ b) (h : Retraced a b s t)
    (l : HttpLabel) :
    Option.Rel (Retraced a b) ((httpMachine cfg P).step s l) ((httpMachine cfg P).step t l) := by
  obtain ⟨es, hs, rfl⟩ := h
  have h : Retraced a b s { s with trace := b ++ es } := ⟨es, hs, rfl⟩
  change Option.Rel _ (s.step cfg P l) (HttpSession.step cfg P { s with trace := b ++ es } l)
  cases l with
  | call i c =>
    -- user code has the responses of its handlers, which are in both records
    have hcalled : .handler i ∈ s.trace ↔ .handler i ∈ b ++ es := by
      rw [hs, List.mem_append, List.mem_append, hab i]
    have hguard : (s.AtUser ∧ .handler i ∈ s.trace) ↔
        (AtUser { s with trace := b ++ es } ∧ .handler i ∈ b ++ es) := and_congr Iff.rfl hcalled
    simp only [HttpSession.step]
    by_cases hcond : s.AtUser ∧ .handler i ∈ s.trace
    · rw [if_pos hcond, if_pos (hguard.mp hcond)]
      exact .some (h.call i c)
    · rw [if_neg hcond, if_neg (fun h => hcond (hguard.mpr h))]
      exact .none
  | setReq req =>
    simp only [HttpSession.step]
    by_cases hcond : s.AtUser
    · rw [if_pos hcond, if_pos (show AtUser { s with trace := b ++ es } from hcond)]
      exact .some (h.setReq _)
    · rw [if_neg hcond, if_neg (show ¬ AtUser { s with trace := b ++ es } from hcond)]
      exact .none
  | ret =>
    simp only [HttpSession.step]
    split
    · exact .some (h.setStack _)
    · exact .none
  | run =>
    simp only [HttpSession.step]
    split
    · exact .some ((h.setStack _).onEvent _)
    · exact .none
  | recv base data =>
    simp only [HttpSession.step]
    split
    · exact .some (h.recvCb base data)
    · exact .none
  | recvErr =>
    simp only [HttpSession.step]
    split
    · exact .some (h.stopKeepAliveTimer.closeSession false)
    · exact .none
  | timer =>
    simp only [HttpSession.step]
    split
    · exact .some h.keepAliveTimerCb
    · exact .none
  | written status =>
    simp only [HttpSession.step]
    split
    · next w ws _ _ =>
      cases s.answers[w.resp]? with
      | none => exact .none
      | some x =>
        exact .some ((h.map (fun s => { s with writes := ws }) rfl fun _ => rfl).onWriteEnd w x)
    · exact .none
  | file j result data =>
    simp only [HttpSession.step]
    split
    · split
      · exact .none
      · next r _ =>
        split
        · exact .none
        · next r' xs _ =>
          exact .some ((h.map (fun u => { u with
            readers := s.readers.set j { r with reader := r' } }) rfl fun _ => rfl).fsActions j
              r.resp xs)
    · exact .none

/-- **Sessions that differ in the beginning of their record only run alike.** -/
theorem exec_retraced (hab : ∀ i, .handler i ∈ a ↔ .handler i ∈ b) (h : Retraced a b s t)
    (ls : List HttpLabel) :
    Option.Rel (Retraced a b) ((httpMachine cfg P).exec s ls) ((httpMachine cfg P).exec t ls) :=
  (httpMachine cfg P).exec_rel (fun _ _ l h => h.step hab l) h ls

end HttpSession

/-! ### Reads of length 0 -/

/-- A read of length 0 has no effect: request, parser, flag and timer are as before, and whatever
    comes later has the effect it would have had. -/
structure HttpSession.ZeroReadNoOp (cfg : HttpConfig) (P : HttpParser ρ) (s : HttpSession ρ)
    (base : Bool) : Prop where
  req : (s.recvCb P base []).req = s.req
  parser : (s.recvCb P base []).parser = s.parser
  isKeepAlive : (s.recvCb P base []).isKeepAlive = s.isKeepAlive
  timerArmed : (s.recvCb P base []).timerArmed = s.timerArmed
  later : ∀ ls, Option.Rel (Retraced s.trace (s.trace ++ [.recv])) ((httpMachine cfg P).exec s ls)
    ((httpMachine cfg P).exec (s.recvCb P base []) ls)

/-- For the WebSocket session: when the read has been handled the session is the same. -/
def WsSession.ZeroReadNoOp (s : WsSession) (base : Bool) : Prop :=
  ∃ rest, (∀ l ∈ rest, l = .run) ∧ wsMachine.exec s (.recv base [] :: rest) = some s

namespace HttpSession

variable {κ : Type} {others : κ} {loop : HttpLoop κ}

/-- The condition: no timer is stopped, and the parser has nothing to lose. -/
def IgnoresZeroRead (s : HttpSession (ParserData κ)) (base : Bool) : Prop :=
  s.isKeepAlive = false ∧ (base = true → s.parser.httpErrno ≠ .ok ∨ s.parser.state.IsStart)

theorem recvCb_nil (s : HttpSession ρ) (base : Bool) (hflag : s.isKeepAlive = false)
    (hsame : base = true →
      (P.execute s.parser []).1 = s.parser ∧ (P.execute s.parser []).2.1 = []) :
    s.recvCb P base [] = s.emit [.recv] := by
  have hstop : s.stopOnRead = s.emit [.recv] := by
    rw [stopOnRead, hflag]
    rfl
  rw [recvCb_eq, hstop]
  cases base with
  | false => rfl
  | true =>
    obtain ⟨hparser, hcallbacks⟩ := hsame rfl
    have hparser' : (P.execute (s.emit [.recv]).parser []).1 = s.parser := hparser
    have hcallbacks' : (P.execute (s.emit [.recv]).parser []).2.1 = [] := hcallbacks
    rw [parseRead, if_pos rfl, hparser', hcallbacks']
    rfl

theorem zeroReadNoOp_iff (cfg : HttpConfig) (s : HttpSession (ParserData κ)) (base : Bool) :
    s.ZeroReadNoOp cfg (httpParser others loop) base ↔ s.IgnoresZeroRead base := by
  constructor
  · intro h
    have hflag : s.isKeepAlive = false :=
      h.isKeepAlive.symm.trans (recvCb_spec s base []).isKeepAlive
    refine ⟨hflag, ?_⟩
    rintro rfl
    rw [← execute_nil_iff others loop]
    refine ⟨(parser_recvCb s []).symm.trans h.parser, ?_⟩
    -- a callback would be left on the stack
    cases h.later [] with
    | some hrel =>
      have hstack : (s.recvCb (httpParser others loop) true []).stack = s.stack :=
        hrel.same (·.stack) fun _ _ => rfl
      rw [recvCb_stack] at hstack
      exact List.map_eq_nil_iff.mp (List.append_left_eq_self.mp hstack)
  · rintro ⟨hflag, hparser⟩
    have hnoop : s.recvCb (httpParser others loop) base [] = s.emit [.recv] :=
      recvCb_nil s base hflag fun hbase =>
        (execute_nil_iff others loop s.parser).mpr (hparser hbase)
    have hrel : Retraced s.trace (s.trace ++ [.recv]) s (s.emit [.recv]) :=
      ⟨[], (List.append_nil _).symm, by rw [List.append_nil]; rfl⟩
    refine ⟨by rw [hnoop]; rfl, by rw [hnoop]; rfl, by rw [hnoop]; rfl, by rw [hnoop]; rfl, ?_⟩
    rw [hnoop]
    exact exec_retraced (fun i => by simp) hrel

end HttpSession

theorem WsSession.zeroReadNoOp {s : WsSession} (hstack : s.stack = []) (hreading : s.reading = true)
    (base : Bool) : s.ZeroReadNoOp base := by
  by_cases hopen : (base && s.readyState = .open) = true
  · -- `parse` returns at once, and `handleMessage` finds no error
    refine ⟨[.run], by simp, ?_⟩
    have hrecv : s.recvCb base [] = .ok (s.push [.parsed .success]) := by
      rw [WsSession.recvCb, if_pos hopen, WsSession.handleMessage]
      rfl
    have hread : wsMachine.step s (.recv base []) = some (s.push [.parsed .success]) := by
      show s.step (.recv base []) = _
      rw [WsSession.step, if_pos ⟨hstack, hreading⟩, hrecv]
      rfl
    have hhandled : wsMachine.step (s.push [.parsed .success]) .run = some s := rfl
    rw [Machine.exec_cons, hread]
    show wsMachine.exec (s.push [.parsed .success]) [.run] = some s
    rw [Machine.exec_cons, hhandled]
    rfl
  · refine ⟨[], by simp, ?_⟩
    have hread : wsMachine.step s (.recv base []) = some s := by
      show s.step (.recv base []) = _
      rw [WsSession.step, if_pos ⟨hstack, hreading⟩, WsSession.recvCb, if_neg hopen]
      rfl
    rw [Machine.exec_cons, hread]
    rfl

/-- **When a read of length 0 has no effect**: on the HTTP session if and only if its flag is not
    set and, where the read has a buffer, the parser is in its error state or where no message has
    begun; on the WebSocket session always. -/
theorem zeroRead_noop_iff {κ : Type} (cfg : HttpConfig) (others : κ) (loop : HttpLoop κ)
    (method : HttpMethod) :
    (∀ ls s base,
      (httpMachine cfg (httpParser others loop)).exec (.accepted (httpParser others loop) method)
          ls = some s → s.stack = [] → s.reading = true →
        (s.ZeroReadNoOp cfg (httpParser others loop) base ↔ s.IgnoresZeroRead base)) ∧
    ∀ serverCallback ls s base, wsMachine.exec (.onUpgrade serverCallback) ls = some s →
      s.stack = [] → s.reading = true → s.ZeroReadNoOp base :=
  ⟨fun _ s base _ _ _ => s.zeroReadNoOp_iff cfg base,
    fun _ _ _ base _ hstack hreading => WsSession.zeroReadNoOp hstack hreading base⟩

/-- A request, cut behind its method. -/
def cutRequest : Bytes × Bytes := (str "GET ", str "/a HTTP/1.1\r\n\r\n")

/-- The parser on a request that asks for keep-alive, and on one that comes in two reads. -/
def zeroReadLoop : HttpLoop Unit :=
  tableLoop
    [((.startReq, keepAliveRequest), ⟨.startReq, .ok,
        [.messageBegin, .url (str "/a"), .headerField (str "Connection"),
          .headerValue (str "keep-alive"), .headersComplete .get 1 1, .messageComplete false],
        keepAliveRequest.length⟩),
      ((.startReq, cutRequest.1), ⟨.reqSpacesBeforeUrl, .ok, [.messageBegin], 4⟩),
      ((.reqSpacesBeforeUrl, cutRequest.2), ⟨.startReq, .ok,
        [.url (str "/a"), .headersComplete .get 1 1, .messageComplete false], 15⟩)]

/-- The response to the first request has been sent and the timer is running. -/
def idleLabels : List HttpLabel :=
  [.recv true keepAliveRequest, .run, .run, .run, .run, .run, .run, .written 0]

/-- On new connections such a read is without effect. -/
theorem zeroRead_noop_iff_new :
    (HttpSession.accepted (httpParser () zeroReadLoop) .get).ZeroReadNoOp bareConfig
        (httpParser () zeroReadLoop) true ∧
      ({ WsSession.onUpgrade false with stack := [] }.connect).ZeroReadNoOp true := by
  obtain ⟨hhttp, hws⟩ := zeroRead_noop_iff bareConfig () zeroReadLoop .get
  have hconnect : wsMachine.exec (.onUpgrade false) [.run] =
      some ({ WsSession.onUpgrade false with stack := [] }.connect) := rfl
  exact ⟨(hhttp [] _ true rfl rfl rfl).mpr ⟨rfl, fun _ => .inr (by decide)⟩,
    hws false [.run] _ true hconnect rfl rfl⟩

/-- A read of length 0 stops the timer of an idle connection; and a request that has begun is
    never completed after it. -/
theorem zeroRead_loses :
    let P := httpParser () zeroReadLoop
    let after (ls : List HttpLabel) := (httpMachine bareConfig P).exec (.accepted P .get) ls
    ((after idleLabels).map (·.timerArmed) = some true ∧
      (after (idleLabels ++ [.recv true []])).map (·.timerArmed) = some false) ∧
    ((after [.recv true cutRequest.1, .run, .recv true cutRequest.2]).map (·.stack) =
        some [.event (.url (str "/a")), .event (.headersComplete .get 1 1),
          .event (.messageComplete false)] ∧
      (after [.recv true cutRequest.1, .run, .recv true [], .recv true cutRequest.2]).map
        (fun s => (s.stack, s.parser.httpErrno, s.closing)) =
          some ([], .invalidEofState, false)) := by
  decide

end MyWebSocket
