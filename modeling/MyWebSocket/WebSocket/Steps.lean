import MyWebSocket.Library.Log
import MyWebSocket.WebSocket.Session

namespace MyWebSocket

open Log

/-!
# What a step of the session does

* `WsStep` lists the steps of `wsMachine`; `WsSession.step_cases` is the inversion lemma every
  proof about runs goes through;
* `Background` — a change that neither closes the session nor answers a frame;
* `WsStep.grows` — which steps may add which effects to the trace;
* `WsInv` — the invariant of every run: the parser is in order, and once `connect` has run,
  `readyState` is `CLOSED` exactly when `uv_close` has been called.
-/

/-! ### The steps -/

/-- The steps of the machine. -/
inductive WsStep : WsSession → WsLabel → WsSession → Prop
  | call {s : WsSession} (c : WsCall) (h : s.AtUser) : WsStep s (.call c) (s.call c)
  | ret {s : WsSession} {st : List WsTask} (h : s.stack = .user :: st) :
      WsStep s .ret { s with stack := st }
  | run {s : WsSession} {t : WsTask} {st : List WsTask} (h : s.stack = t :: st)
      (ht : t ≠ .user) : WsStep s .run ({ s with stack := st }.runTask t)
  | recv {s s' : WsSession} {base : Bool} {data : List UInt8} (h : s.stack = [])
      (hr : s.reading = true) (hs : s.recvCb base data = .ok s') : WsStep s (.recv base data) s'
  | recvErr {s : WsSession} (h : s.stack = []) (hr : s.reading = true) :
      WsStep s .recvErr s.recvErr
  | written {s : WsSession} {ctx : Nat} {ws : List Nat} {status : Int} (h : s.stack = [])
      (hw : s.writes = ctx :: ws) :
      WsStep s (.written status) ({ s with writes := ws }.written ctx status)
  | file {s : WsSession} {i : Nat} {result : Int} {data : List UInt8} {r r' : FileReader}
      {as : List FsAction} (h : s.stack = []) (hr : s.readers[i]? = some r)
      (he : r.event result data = some (r', as)) :
      WsStep s (.file i result data)
        (as.foldl (WsSession.fsAction i r') { s with readers := s.readers.set i r' })

theorem WsSession.step_cases {s s' : WsSession} {l : WsLabel} (h : wsMachine.step s l = some s') :
    WsStep s l s' := by
  change s.step l = some s' at h
  cases l with
  | call c =>
    simp only [WsSession.step] at h
    split at h
    · cases h
      exact .call c ‹_›
    · cases h
  | ret =>
    simp only [WsSession.step] at h
    split at h
    · cases h
      exact .ret ‹_›
    · cases h
  | run =>
    simp only [WsSession.step] at h
    split at h
    · cases h
    · split at h
      · cases h
      · cases h
        exact .run ‹_› ‹_›
  | recv base data =>
    simp only [WsSession.step] at h
    split at h
    · rename_i hcond
      cases hs : s.recvCb base data with
      | error e => simp [hs, Except.toOption] at h
      | ok t =>
        obtain rfl : t = s' := by simpa [hs, Except.toOption] using h
        exact .recv hcond.1 hcond.2 hs
    · cases h
  | recvErr =>
    simp only [WsSession.step] at h
    split at h
    · rename_i hcond
      cases h
      exact .recvErr hcond.1 hcond.2
    · cases h
  | written status =>
    simp only [WsSession.step] at h
    split at h
    · cases h
      exact .written ‹_› ‹_›
    · cases h
  | file i result data =>
    simp only [WsSession.step] at h
    split at h
    · split at h
      · cases h
      · split at h
        · cases h
        · cases h
          exact .file ‹_› ‹_› ‹_›
    · cases h

/-! ### Classes of effects -/

/-- The effects of `inter_close` that must not be repeated. -/
def WsEffect.isClosing : WsEffect → Bool
  | .uvClose => true
  | .onClose => true
  | _ => false

/-- What a frame or a parse error may cause: a callback or a PONG. -/
def WsEffect.byFrame : WsEffect → Bool
  | .onMessage _ => true
  | .onError .noMask => true
  | .onError .parseError => true
  | .uvWrite _ opcode _ => opcode == WsCode.pong.code
  | _ => false

/-- Neither of the two. -/
def WsEffect.Neutral (e : WsEffect) : Prop := e.isClosing = false ∧ e.byFrame = false

/-- Whether running a task causes an effect of a frame. -/
def WsTask.noisy (callbacks : WsCallbacks) : WsTask → Bool
  | .handleWsFrame frame =>
    if !frame.mask then callbacks.onError
    else if frame.opcode = WsCode.pong.code then false
    else if frame.opcode = WsCode.ping.code then true
    else if frame.opcode = WsCode.close.code then false
    else callbacks.onMessage
  | .parsed err => err ≠ .success && callbacks.onError
  | _ => false

namespace WsSession

@[simp] theorem emit_trace (s : WsSession) (es : List WsEffect) :
    (s.emit es).trace = s.trace ++ es := rfl

@[simp] theorem emit_stack (s : WsSession) (es : List WsEffect) :
    (s.emit es).stack = s.stack := rfl

@[simp] theorem push_trace (s : WsSession) (ts : List WsTask) : (s.push ts).trace = s.trace := rfl

@[simp] theorem push_stack (s : WsSession) (ts : List WsTask) :
    (s.push ts).stack = ts ++ s.stack := rfl

@[simp] theorem push_readyState (s : WsSession) (ts : List WsTask) :
    (s.push ts).readyState = s.readyState := rfl

@[simp] theorem push_parse (s : WsSession) (ts : List WsTask) : (s.push ts).parse = s.parse := rfl

theorem callback_trace (s : WsSession) (set : Bool) (e : WsEffect) :
    (s.callback set e).trace = s.trace ++ if set then [e] else [] := by
  unfold callback
  split <;> simp

theorem callback_stack (s : WsSession) (set : Bool) (e : WsEffect) :
    (s.callback set e).stack = (if set then [.user] else []) ++ s.stack := by
  unfold callback
  split <;> simp

@[simp] theorem callback_readyState (s : WsSession) (set : Bool) (e : WsEffect) :
    (s.callback set e).readyState = s.readyState := by
  unfold callback
  split <;> rfl

@[simp] theorem callback_parse (s : WsSession) (set : Bool) (e : WsEffect) :
    (s.callback set e).parse = s.parse := by
  unfold callback
  split <;> rfl

/-! ### Background -/

/-- `s'` comes from `s` by neutral effects; state, parser and stack are the same. -/
structure Background (s s' : WsSession) : Prop where
  readyState : s'.readyState = s.readyState
  parse : s'.parse = s.parse
  stack : s'.stack = s.stack
  trace : Grows WsEffect.Neutral s.trace s'.trace

theorem Background.refl (s : WsSession) : Background s s := ⟨rfl, rfl, rfl, .refl _ _⟩

theorem Background.trans {s t u : WsSession} (h : Background s t) (h' : Background t u) :
    Background s u :=
  ⟨h'.readyState.trans h.readyState, h'.parse.trans h.parse, h'.stack.trans h.stack,
    h.trace.trans h'.trace⟩

theorem Background.emit (s : WsSession) {es : List WsEffect} (h : ∀ e ∈ es, e.Neutral) :
    Background s (s.emit es) :=
  ⟨rfl, rfl, rfl, .append _ h⟩

theorem Background.interSend (s : WsSession) {opcode : UInt8} (hop : opcode ≠ WsCode.pong.code)
    (payloadLen : Nat) (payload : List (List UInt8)) :
    Background s (s.interSend opcode payloadLen payload) := by
  refine ⟨rfl, rfl, rfl, .append _ ?_⟩
  simp [WsEffect.Neutral, WsEffect.isClosing, WsEffect.byFrame, hop]

theorem Background.sendFile (s : WsSession) (path : List UInt8) :
    Background s (s.sendFile path) := by
  refine ⟨rfl, rfl, rfl, .append _ ?_⟩
  simp [FileReader.fileRead, WsEffect.Neutral, WsEffect.isClosing, WsEffect.byFrame]

theorem Background.fsAction (i : Nat) (r : FileReader) (s : WsSession) (a : FsAction) :
    Background s (fsAction i r s a) := by
  have hfs : Background s (s.emit [.fs i a]) :=
    .emit s (by simp [WsEffect.Neutral, WsEffect.isClosing, WsEffect.byFrame])
  cases a with
  | onError =>
    exact hfs.trans (.emit _ (by simp [WsEffect.Neutral, WsEffect.isClosing, WsEffect.byFrame]))
  | onClose => exact hfs.trans (.interSend _ (by decide) _ _)
  | fsOpen path => exact hfs
  | fsRead fd len => exact hfs
  | fsClose fd => exact hfs

/-- A step of a file reader stays in the background. -/
theorem Background.fsActions (i : Nat) (r : FileReader) (s : WsSession)
    (readers : List FileReader) (as : List FsAction) :
    Background s (as.foldl (WsSession.fsAction i r) { s with readers := readers }) := by
  have hfold : ∀ (as : List FsAction) (t : WsSession),
      Background t (as.foldl (WsSession.fsAction i r) t) := by
    intro as
    induction as with
    | nil => exact fun t => .refl t
    | cons a as ih => exact fun t => (Background.fsAction i r t a).trans (ih _)
  have hset : Background s { s with readers := readers } := ⟨rfl, rfl, rfl, .refl _ _⟩
  exact hset.trans (hfold as _)

/-- Every call but `close` stays in the background. -/
theorem Background.call (s : WsSession) {c : WsCall} (hc : c ≠ .close) :
    Background s (s.call c) := by
  cases c with
  | close => exact absurd rfl hc
  | send str => exact .interSend s (by decide) _ _
  | sendFile path => exact .sendFile s path
  | onConnect set => exact ⟨rfl, rfl, rfl, .refl _ _⟩
  | onClose set => exact ⟨rfl, rfl, rfl, .refl _ _⟩
  | onMessage set => exact ⟨rfl, rfl, rfl, .refl _ _⟩
  | onError set => exact ⟨rfl, rfl, rfl, .refl _ _⟩

/-! ### What a step adds to the trace -/

/-- `s'` comes from `s` by a task that neither connects nor closes; it causes an effect of a frame
    if and only if it is noisy. -/
structure Handling (s s' : WsSession) (noisy : Bool) : Prop where
  readyState : s'.readyState = s.readyState
  parse : s'.parse = s.parse
  stack : ∃ ts, s'.stack = ts ++ s.stack ∧ .connect ∉ ts
  trace : ∃ es, s'.trace = s.trace ++ es ∧ (∀ e ∈ es, e.isClosing = false) ∧
    (Has WsEffect.byFrame es ↔ noisy = true)

theorem Handling.refl (s : WsSession) : Handling s s false :=
  ⟨rfl, rfl, ⟨[], rfl, by simp⟩, [], by simp [Has]⟩

theorem Handling.push (s : WsSession) {ts : List WsTask} (hts : .connect ∉ ts) :
    Handling s (s.push ts) false :=
  ⟨rfl, rfl, ⟨ts, rfl, hts⟩, [], by simp [Has]⟩

theorem Handling.emit (s : WsSession) {e : WsEffect} (he : e.Neutral) :
    Handling s (s.emit [e]) false :=
  ⟨rfl, rfl, ⟨[], rfl, by simp⟩, [e], rfl, by simpa using he.1, by simp [Has, he.2]⟩

/-- A callback of a frame is heard where it is set; `ts` is what is done after it. -/
theorem Handling.callback (s : WsSession) (set : Bool) {e : WsEffect} {ts : List WsTask}
    (hts : .connect ∉ ts) (hclosing : e.isClosing = false) (hframe : e.byFrame = true) :
    Handling s ((s.push ts).callback set e) set := by
  refine ⟨by simp, by simp, ⟨(if set then [.user] else []) ++ ts, ?_, ?_⟩,
    if set then [e] else [], ?_, ?_, ?_⟩
  · rw [callback_stack, push_stack, List.append_assoc]
  · cases set <;> simp [hts]
  · rw [callback_trace, push_trace]
  · cases set <;> simp [hclosing]
  · cases set <;> simp [Has, hframe]

theorem Handling.sendPong (s : WsSession) : Handling s s.sendPong true := by
  refine ⟨rfl, rfl, ⟨[], rfl, by simp⟩, _, rfl, ?_, ?_⟩
  · simp [WsEffect.isClosing]
  · simp [Has, WsEffect.byFrame]

theorem handleWsFrame_handling (s : WsSession) (frame : WsFrame) :
    Handling s (s.handleWsFrame frame) ((WsTask.handleWsFrame frame).noisy s.callbacks) := by
  unfold handleWsFrame
  simp only [WsTask.noisy]
  split
  · -- an unmasked frame closes the session, behind the callback
    exact .callback s _ (by simp) rfl rfl
  · split
    · exact .refl s
    · split
      · exact .sendPong s
      · split
        · exact .push s (by simp)
        · -- a message
          exact .callback s _ List.not_mem_nil rfl rfl

theorem parsed_handling (s : WsSession) (err : WsParseErr) :
    Handling s (s.parsed err) ((WsTask.parsed err).noisy s.callbacks) := by
  unfold parsed
  simp only [WsTask.noisy]
  by_cases herr : err ≠ .success
  · rw [if_pos herr, decide_eq_true herr, Bool.true_and]
    exact .callback s _ (by simp) rfl rfl
  · rw [if_neg herr, decide_eq_false herr, Bool.false_and]
    exact .refl s

/-- What a task does, if it is not `connect` or `inter_close`. -/
theorem runTask_handling (s : WsSession) {t : WsTask} (hconnect : t ≠ .connect)
    (hclose : t ≠ .interClose) : Handling s (s.runTask t) (t.noisy s.callbacks) := by
  cases t with
  | user => exact .refl s
  | connect => exact absurd rfl hconnect
  | interClose => exact absurd rfl hclose
  | removeWsSession =>
    have hneutral : WsEffect.removeWsSession.Neutral := ⟨rfl, rfl⟩
    have hdone := Handling.emit { s with registered := false } hneutral
    exact ⟨hdone.readyState, hdone.parse, hdone.stack, hdone.trace⟩
  | handleWsFrame frame => exact handleWsFrame_handling s frame
  | parsed err => exact parsed_handling s err
  | deleteCtx ctx =>
    have hneutral : (WsEffect.deleteCtx ctx).Neutral := ⟨rfl, rfl⟩
    exact .emit s hneutral

/-- A noisy task adds an effect of a frame. -/
theorem runTask_of_noisy (s : WsSession) {t : WsTask} (h : t.noisy s.callbacks = true) :
    ∃ es, (s.runTask t).trace = s.trace ++ es ∧ ∃ e ∈ es, e.byFrame = true := by
  have hconnect : t ≠ .connect := by
    rintro rfl
    exact absurd h Bool.false_ne_true
  have hclose : t ≠ .interClose := by
    rintro rfl
    exact absurd h Bool.false_ne_true
  obtain ⟨es, htrace, -, hframe⟩ := (s.runTask_handling hconnect hclose).trace
  exact ⟨es, htrace, hframe.mpr h⟩

theorem connect_trace (s : WsSession) :
    s.connect.trace =
      s.trace ++ ([.uvReadStart] ++ if s.callbacks.onConnect then [.onConnect] else []) := by
  rw [connect, callback_trace, emit_trace, List.append_assoc]
  rfl

/-- The effects of `inter_close`. -/
theorem interClose_trace (s : WsSession) :
    s.interClose.trace =
      s.trace ++ ([.uvReadStop, .uvClose] ++ if s.callbacks.onClose then [.onClose] else []) := by
  rw [interClose, callback_trace]
  simp [emit]

theorem runTask_grows (s : WsSession) (t : WsTask) :
    Grows (fun e => (e.isClosing = true → t = .interClose) ∧
      (e.byFrame = true → t.noisy s.callbacks = true)) s.trace (s.runTask t).trace := by
  by_cases hconnect : t = .connect
  · -- `onConnect` is neither a close nor caused by a frame
    subst hconnect
    show Grows _ _ (s.connect).trace
    rw [connect_trace]
    apply Grows.append
    split <;> simp [WsEffect.isClosing, WsEffect.byFrame]
  · by_cases hclose : t = .interClose
    · subst hclose
      show Grows _ _ (s.interClose).trace
      rw [interClose_trace]
      apply Grows.append
      split <;> simp [WsEffect.byFrame]
    · obtain ⟨es, htrace, hclosing, hframe⟩ := (s.runTask_handling hconnect hclose).trace
      rw [htrace]
      refine .append _ fun e he => ⟨fun h => ?_, fun h => hframe.mp ⟨e, he, h⟩⟩
      rw [hclosing e he] at h
      exact absurd h Bool.false_ne_true

/-- `handleMessage` leaves the completed frames and the result of `parse` to be handled. -/
theorem handleMessage_eq_ok {s s' : WsSession} {data : List UInt8}
    (h : s.handleMessage data = .ok s') :
    ∃ r, MyWebSocket.parse s.parse data = .ok r ∧
      s' = { s with parse := r.state }.push
        (r.fired.map WsTask.handleWsFrame ++ [WsTask.parsed r.err]) := by
  unfold handleMessage at h
  cases hp : MyWebSocket.parse s.parse data with
  | error e => simp [hp, bind, Except.bind] at h
  | ok r =>
    refine ⟨r, rfl, ?_⟩
    simpa [hp, bind, Except.bind, pure, Except.pure, eq_comm] using h

/-- A read is ignored, or handled. -/
theorem recvCb_cases {s s' : WsSession} {base : Bool} {data : List UInt8}
    (h : s.recvCb base data = .ok s') :
    s' = s ∨ s.readyState = .open ∧ ∃ r, MyWebSocket.parse s.parse data = .ok r ∧
      s' = { s with parse := r.state }.push
        (r.fired.map WsTask.handleWsFrame ++ [WsTask.parsed r.err]) := by
  unfold recvCb at h
  split at h
  · rename_i hcond
    simp only [Bool.and_eq_true, decide_eq_true_eq] at hcond
    exact .inr ⟨hcond.2, handleMessage_eq_ok h⟩
  · obtain rfl : s = s' := by simpa [pure, Except.pure] using h
    exact .inl rfl

/-- A read never faults. -/
theorem recvCb_isOk {s : WsSession} (hinv : ParseInv s.parse) (base : Bool)
    (data : List UInt8) : ∃ s', s.recvCb base data = .ok s' := by
  unfold recvCb
  split
  · rw [handleMessage, parse_eq_run hinv data]
    exact ⟨_, rfl⟩
  · exact ⟨s, rfl⟩

end WsSession

/-- **Who does what.**  Only `inter_close` closes the handle or calls `m_onCloseCb`, and only a
    noisy task causes an effect of a frame. -/
theorem WsStep.grows {s s' : WsSession} {l : WsLabel} (h : WsStep s l s') :
    Grows (fun e =>
      (e.isClosing = true → l = .run ∧ s.stack.head? = some .interClose) ∧
      (e.byFrame = true → l = .run ∧ s.stack.head?.any (·.noisy s.callbacks) = true))
      s.trace s'.trace := by
  have hneutral : ∀ e : WsEffect, e.Neutral →
      (e.isClosing = true → l = .run ∧ s.stack.head? = some .interClose) ∧
      (e.byFrame = true → l = .run ∧ s.stack.head?.any (·.noisy s.callbacks) = true) := by
    intro e he
    simp [he.1, he.2]
  cases h with
  | call c hu =>
    by_cases hc : c = .close
    · -- `close()` only leaves `inter_close` on the stack
      subst hc
      show Grows _ s.trace (s.close).trace
      unfold WsSession.close
      split <;> exact .refl _ _
    · exact (WsSession.Background.call s hc).trace.mono hneutral
  | ret hst => exact .refl _ _
  | run hst ht =>
    refine (WsSession.runTask_grows _ _).mono fun e he => ?_
    rw [hst]
    exact ⟨fun h => ⟨rfl, by rw [he.1 h]; rfl⟩, fun h => ⟨rfl, he.2 h⟩⟩
  | recv hst hr hs =>
    -- a read only fills the stack
    rcases WsSession.recvCb_cases hs with rfl | ⟨-, r, -, rfl⟩ <;> exact .refl _ _
  | recvErr hst hr => exact .refl _ _
  | written hst hw =>
    unfold WsSession.written
    split
    · -- a failed write is reported as `SEND_ERROR`, which no frame causes
      rw [WsSession.callback_trace]
      refine .append _ fun e he => hneutral e ?_
      split at he
      · obtain rfl : e = .onError .sendError := by simpa using he
        exact ⟨rfl, rfl⟩
      · cases he
    · exact .refl _ _
  | file hst hr he => exact (WsSession.Background.fsActions _ _ s _ _).trace.mono hneutral

/-- The trace only grows. -/
theorem WsStep.extends {s s' : WsSession} {l : WsLabel} (h : WsStep s l s') :
    Grows (fun _ => True) s.trace s'.trace :=
  h.grows.mono fun _ _ => trivial

/-! ### The invariant -/

/-- What holds after every step. -/
structure WsInv (s : WsSession) : Prop where
  parse : ParseInv s.parse
  /-- `connect()` waits for the server's callback only. -/
  waiting : .connect ∈ s.stack → s.stack = [.user, .connect] ∨ s.stack = [.connect]
  fresh : .connect ∈ s.stack → s.readyState = .closed ∧ .uvClose ∉ s.trace
  closed_iff : .connect ∉ s.stack → (s.readyState = .closed ↔ .uvClose ∈ s.trace)

theorem WsInv.onUpgrade (serverCallback : Bool) : WsInv (.onUpgrade serverCallback) := by
  refine ⟨ParseInv.init .init, ?_, ?_, ?_⟩
  · cases serverCallback <;> simp [WsSession.onUpgrade]
  · simp [WsSession.onUpgrade]
  · cases serverCallback <;> simp [WsSession.onUpgrade]

/-- Once `connect` has run, a step keeps the invariant if it puts no `connect` on the stack and
    closes the handle exactly when it sets `readyState` to `CLOSED`. -/
theorem WsInv.of_connected {s : WsSession} (hparse : ParseInv s.parse)
    (hstack : .connect ∉ s.stack) (hclosed : s.readyState = .closed ↔ .uvClose ∈ s.trace) :
    WsInv s :=
  ⟨hparse, fun h => absurd h hstack, fun h => absurd h hstack, fun _ => hclosed⟩

theorem WsInv.background {s s' : WsSession} (h : WsInv s) (hb : s.Background s') : WsInv s' := by
  have hmem : .uvClose ∈ s'.trace ↔ .uvClose ∈ s.trace :=
    hb.trace.mem_iff (by simp [WsEffect.Neutral, WsEffect.isClosing])
  refine ⟨?_, ?_, ?_, ?_⟩
  · rw [hb.parse]
    exact h.parse
  · rw [hb.stack]
    exact h.waiting
  · rw [hb.stack, hb.readyState, hmem]
    exact h.fresh
  · rw [hb.stack, hb.readyState, hmem]
    exact h.closed_iff

theorem WsInv.runTask {s : WsSession} (h : WsInv s) {t : WsTask} {st : List WsTask}
    (hst : s.stack = t :: st) (ht : t ≠ .user) :
    WsInv ({ s with stack := st }.runTask t) := by
  by_cases hc : .connect ∈ s.stack
  · -- the server's callback has returned: `connect` runs
    obtain ⟨-, hfresh⟩ := h.fresh hc
    obtain ⟨rfl, rfl⟩ : t = .connect ∧ st = [] := by
      rcases h.waiting hc with hw | hw
      · rw [hst] at hw
        exact absurd (List.cons.inj hw).1 ht
      · rw [hst] at hw
        exact ⟨(List.cons.inj hw).1, (List.cons.inj hw).2⟩
    refine .of_connected ?_ ?_ ?_
    · simpa [WsSession.runTask, WsSession.connect, WsSession.emit] using h.parse
    · rw [WsSession.runTask, WsSession.connect, WsSession.callback_stack]
      split <;> simp
    · have hopen : ({ s with stack := [] } : WsSession).connect.readyState = .open := by
        simp [WsSession.connect]
      have htrace : .uvClose ∉ ({ s with stack := [] } : WsSession).connect.trace := by
        rw [WsSession.connect_trace]
        split <;> simpa using hfresh
      show WsSession.readyState (WsSession.connect _) = _ ↔
        _ ∈ WsSession.trace (WsSession.connect _)
      simp [hopen, htrace]
  · have hne : t ≠ .connect := by
      intro heq
      exact hc (by simp [hst, heq])
    have hst' : .connect ∉ st := fun hmem => hc (by simp [hst, hmem])
    by_cases hclose : t = .interClose
    · -- the two sides of `closed_iff` become true together
      subst hclose
      refine .of_connected ?_ ?_ ?_
      · simpa [WsSession.runTask, WsSession.interClose, WsSession.emit] using h.parse
      · rw [WsSession.runTask, WsSession.interClose, WsSession.callback_stack]
        split <;> simpa [WsSession.push, WsSession.emit] using hst'
      · have htrace : .uvClose ∈ ({ s with stack := st } : WsSession).interClose.trace := by
          simp [WsSession.interClose_trace]
        refine iff_of_true ?_ htrace
        simp [WsSession.runTask, WsSession.interClose, WsSession.emit]
    · have hdone := ({ s with stack := st } : WsSession).runTask_handling hne hclose
      obtain ⟨ts, hstack, hts⟩ := hdone.stack
      refine .of_connected ?_ ?_ ?_
      · rw [hdone.parse]
        exact h.parse
      · rw [hstack]
        exact List.not_mem_append hts hst'
      · rw [hdone.readyState, (WsSession.runTask_grows _ t).mem_iff fun he => hclose (he.1 rfl)]
        exact h.closed_iff hc

/-- **Every step keeps the invariant.** -/
theorem WsInv.step {s s' : WsSession} {l : WsLabel} (h : WsInv s) (hs : WsStep s l s') :
    WsInv s' := by
  cases hs with
  | call c hu =>
    by_cases hc : c = .close
    · subst hc
      show WsInv s.close
      unfold WsSession.close
      split
      · exact h
      · -- the guard of `close()`: a session that waits for `connect` counts as closed
        rename_i hopen
        have hconnect : .connect ∉ s.stack := fun hmem => hopen (h.fresh hmem).1
        exact .of_connected h.parse (by simpa using hconnect) (h.closed_iff hconnect)
    · exact h.background (.call s hc)
  | @ret st hst =>
    by_cases hc : .connect ∈ s.stack
    · -- the server's callback returns, and `connect` is next
      have htail : st = [.connect] := by
        rcases h.waiting hc with hw | hw
        · rw [hst] at hw
          exact (List.cons.inj hw).2
        · rw [hst] at hw
          exact absurd (List.cons.inj hw).1 (by simp)
      subst htail
      exact ⟨h.parse, fun _ => .inr rfl, fun _ => h.fresh hc, fun hn => absurd (by simp) hn⟩
    · have hc' : .connect ∉ st := fun hmem => hc (by simp [hst, hmem])
      exact .of_connected h.parse hc' (h.closed_iff hc)
  | run hst ht => exact h.runTask hst ht
  | recv hst hr hs =>
    have hc : .connect ∉ s.stack := by simp [hst]
    rcases WsSession.recvCb_cases hs with rfl | ⟨-, r, hp, rfl⟩
    · exact h
    · have hparse : ParseInv r.state := by
        rw [parse_eq_run h.parse] at hp
        cases hp
        exact h.parse.run _
      exact .of_connected hparse (by simp [WsSession.push, hst]) (h.closed_iff hc)
  | recvErr hst hr =>
    have hc : .connect ∉ s.stack := by simp [hst]
    exact .of_connected h.parse (by simp [WsSession.recvErr, WsSession.push, hst])
      (h.closed_iff hc)
  | @written ctx ws status hst hw =>
    have hc : .connect ∉ s.stack := by simp [hst]
    unfold WsSession.written
    split
    · refine .of_connected (by simpa using h.parse) ?_ ?_
      · rw [WsSession.callback_stack]
        split <;> simp [hst]
      · rw [WsSession.callback_trace, WsSession.callback_readyState]
        split <;> simpa using h.closed_iff hc
    · exact .of_connected h.parse (by simp [hst]) (h.closed_iff hc)
  | file hst hr he => exact h.background (.fsActions _ _ s _ _)

/-- **Every run keeps the invariant.** -/
theorem wsInv_exec {serverCallback : Bool} {ls : List WsLabel} {s : WsSession}
    (h : wsMachine.exec (.onUpgrade serverCallback) ls = some s) : WsInv s :=
  wsMachine.exec_invariant (fun _ _ _ hi hs => hi.step (WsSession.step_cases hs))
    (WsInv.onUpgrade serverCallback) h

end MyWebSocket
