import MyWebSocket.Library.Log
import MyWebSocket.Http.Session

namespace MyWebSocket

open Log

/-!
# What a step of the HTTP session does

* `HttpStep` lists the steps of `httpMachine`; `HttpSession.step_cases` is the inversion lemma
  every proof about runs goes through;
* `Responding` — work on responses, which leaves the session itself alone;
* `handleRequest_spec` — what `handle_request` does to the session and to its trace.
-/

variable {ρ : Type} {cfg : HttpConfig} {P : HttpParser ρ}

/-! ### The steps -/

/-- The steps of the machine. -/
inductive HttpStep (cfg : HttpConfig) (P : HttpParser ρ) :
    HttpSession ρ → HttpLabel → HttpSession ρ → Prop
  | call {s : HttpSession ρ} {i : Nat} (c : RespCall) (h : s.AtUser) (hi : .handler i ∈ s.trace) :
      HttpStep cfg P s (.call i c) (s.call cfg i c)
  | setReq {s : HttpSession ρ} (req : HttpReq) (h : s.AtUser) :
      HttpStep cfg P s (.setReq req) { s with req := { s.req with req := req } }
  | ret {s : HttpSession ρ} {i : Nat} {st : List HttpTask} (h : s.stack = .user i :: st) :
      HttpStep cfg P s .ret { s with stack := st }
  | run {s : HttpSession ρ} {e : ReqEvent} {st : List HttpTask} (h : s.stack = .event e :: st) :
      HttpStep cfg P s .run ({ s with stack := st }.onEvent cfg e)
  | recv {s : HttpSession ρ} (base : Bool) (data : Bytes) (h : s.stack = [])
      (hr : s.reading = true) : HttpStep cfg P s (.recv base data) (s.recvCb P base data)
  | recvErr {s : HttpSession ρ} (h : s.stack = []) (hr : s.reading = true) :
      HttpStep cfg P s .recvErr s.recvErr
  | timer {s : HttpSession ρ} (h : s.stack = []) (ht : s.timerArmed = true) :
      HttpStep cfg P s .timer s.keepAliveTimerCb
  | written {s : HttpSession ρ} {w : PendingWrite} {ws : List PendingWrite} {a : Answer}
      (status : Int) (h : s.stack = []) (hw : s.writes = w :: ws)
      (ha : s.answers[w.resp]? = some a) :
      HttpStep cfg P s (.written status) ({ s with writes := ws }.onWriteEnd cfg w a)
  | file {s : HttpSession ρ} {j : Nat} {result : Int} {data : Bytes} {r : RespReader}
      {r' : FileReader} {as : List FsAction} (h : s.stack = []) (hr : s.readers[j]? = some r)
      (he : r.reader.event result data = some (r', as)) :
      HttpStep cfg P s (.file j result data) (as.foldl (HttpSession.fsAction cfg j r.resp)
        { s with readers := s.readers.set j { r with reader := r' } })

theorem HttpSession.step_cases {s s' : HttpSession ρ} {l : HttpLabel}
    (h : (httpMachine cfg P).step s l = some s') : HttpStep cfg P s l s' := by
  change s.step cfg P l = some s' at h
  cases l with
  | call i c =>
    simp only [HttpSession.step] at h
    split at h
    · rename_i hcond
      cases h
      exact .call c hcond.1 hcond.2
    · cases h
  | setReq req =>
    simp only [HttpSession.step] at h
    split at h
    · cases h
      exact .setReq req ‹_›
    · cases h
  | ret =>
    simp only [HttpSession.step] at h
    split at h
    · cases h
      exact .ret ‹_›
    · cases h
  | run =>
    simp only [HttpSession.step] at h
    split at h
    · cases h
      exact .run ‹_›
    · cases h
  | recv base data =>
    simp only [HttpSession.step] at h
    split at h
    · rename_i hcond
      cases h
      exact .recv base data hcond.1 hcond.2
    · cases h
  | recvErr =>
    simp only [HttpSession.step] at h
    split at h
    · rename_i hcond
      cases h
      exact .recvErr hcond.1 hcond.2
    · cases h
  | timer =>
    simp only [HttpSession.step] at h
    split at h
    · rename_i hcond
      cases h
      exact .timer hcond.1 hcond.2
    · cases h
  | written status =>
    simp only [HttpSession.step] at h
    split at h
    · obtain ⟨a, ha, rfl⟩ := Option.map_eq_some_iff.mp h
      exact .written status ‹_› ‹_› ha
    · cases h
  | file j result data =>
    simp only [HttpSession.step] at h
    split at h
    · split at h
      · cases h
      · split at h
        · cases h
        · cases h
          exact .file ‹_› ‹_› ‹_›
    · cases h

/-! ### Work on responses -/

/-- What happens to responses, not to the session. -/
def HttpEffect.isResponse : HttpEffect → Bool
  | .uvWrite _ _ _ => true
  | .newCtx _ => true
  | .newReader _ _ => true
  | .deleteReader _ => true
  | .fs _ _ => true
  | _ => false

/-- What was asked for, and who is told when the response has been sent. -/
def Answer.asked (a : Answer) : Bool × Bool × OnSent := (a.keep, a.upgrade, a.resp.onSent)

namespace HttpSession

@[simp] theorem emit_trace (s : HttpSession ρ) (es : List HttpEffect) :
    (s.emit es).trace = s.trace ++ es := rfl

@[simp] theorem emit_isKeepAlive (s : HttpSession ρ) (es : List HttpEffect) :
    (s.emit es).isKeepAlive = s.isKeepAlive := rfl

@[simp] theorem emit_registered (s : HttpSession ρ) (es : List HttpEffect) :
    (s.emit es).registered = s.registered := rfl

@[simp] theorem emit_answers (s : HttpSession ρ) (es : List HttpEffect) :
    (s.emit es).answers = s.answers := rfl

@[simp] theorem emit_readers (s : HttpSession ρ) (es : List HttpEffect) :
    (s.emit es).readers = s.readers := rfl

@[simp] theorem emit_stack (s : HttpSession ρ) (es : List HttpEffect) :
    (s.emit es).stack = s.stack := rfl

theorem closeSession_trace (s : HttpSession ρ) (isUpgrade : Bool) :
    (s.closeSession isUpgrade).trace =
      s.trace ++ .uvReadStop ::
        if isUpgrade then [.removeSession] else [.uvClose, .removeSession] := by
  cases isUpgrade <;> simp [closeSession, emit]

/-- `s'` comes from `s` by work on responses. -/
structure Responding (s s' : HttpSession ρ) : Prop where
  isKeepAlive : s'.isKeepAlive = s.isKeepAlive
  timerArmed : s'.timerArmed = s.timerArmed
  registered : s'.registered = s.registered
  stack : s'.stack = s.stack
  asked : s'.answers.map Answer.asked = s.answers.map Answer.asked
  trace : Grows (fun e => e.isResponse = true) s.trace s'.trace

theorem Responding.refl (s : HttpSession ρ) : Responding s s :=
  ⟨rfl, rfl, rfl, rfl, rfl, .refl _ _⟩

theorem Responding.trans {s t u : HttpSession ρ} (h : Responding s t) (h' : Responding t u) :
    Responding s u :=
  ⟨h'.isKeepAlive.trans h.isKeepAlive, h'.timerArmed.trans h.timerArmed,
    h'.registered.trans h.registered, h'.stack.trans h.stack, h'.asked.trans h.asked,
    h.trace.trans h'.trace⟩

theorem Responding.length {s s' : HttpSession ρ} (h : Responding s s') :
    s'.answers.length = s.answers.length := by
  simpa using congrArg List.length h.asked

theorem Responding.emit (s : HttpSession ρ) {es : List HttpEffect}
    (h : ∀ e ∈ es, e.isResponse = true) : Responding s (s.emit es) :=
  ⟨rfl, rfl, rfl, rfl, rfl, .append _ h⟩

/-- A change of a response that leaves `m_onSent` alone. -/
theorem Responding.onResp (s : HttpSession ρ) (i : Nat) {f : HttpResp → HttpResp}
    (hf : ∀ r, (f r).onSent = r.onSent) : Responding s (s.onResp i f) := by
  refine ⟨rfl, rfl, rfl, rfl, ?_, .refl _ _⟩
  -- compare what is asked of response `k` before and after
  apply List.ext_getElem?
  intro k
  simp only [HttpSession.onResp, List.getElem?_map, List.getElem?_modify]
  cases s.answers[k]? with
  | none => rfl
  | some a => split <;> simp [Answer.asked, hf]

theorem Responding.send (cfg : HttpConfig) (s : HttpSession ρ) (i : Nat) :
    Responding s (s.send cfg i) := by
  unfold HttpSession.send
  split
  · exact .refl s
  · refine ⟨rfl, rfl, rfl, rfl, rfl, .append _ ?_⟩
    simp [HttpEffect.isResponse]

theorem Responding.sendFile (s : HttpSession ρ) (i : Nat) (path : Bytes) :
    Responding s (s.sendFile i path) := by
  have hset : Responding s (s.onResp i (·.setFile path s.readers.length)) :=
    .onResp s i fun _ => rfl
  refine hset.trans ⟨rfl, rfl, rfl, rfl, rfl, .append _ ?_⟩
  simp [FileReader.fileRead, HttpEffect.isResponse]

theorem Responding.call (s : HttpSession ρ) (i : Nat) (c : RespCall) :
    Responding s (s.call cfg i c) := by
  cases c with
  | setHeader key value => exact .onResp s i (f := (·.setHeader key value)) fun _ => rfl
  | setStatus status => exact .onResp s i (f := (·.setStatus status)) fun _ => rfl
  | clearContent => exact .onResp s i (f := HttpResp.clearContent) fun _ => rfl
  | sendStr body =>
    exact (Responding.onResp s i (f := (·.setStr body)) fun _ => rfl).trans (.send cfg _ i)
  | sendJson text =>
    exact (Responding.onResp s i (f := (·.setJson text)) fun _ => rfl).trans (.send cfg _ i)
  | sendFile path => exact .sendFile s i path

theorem Responding.fsAction (cfg : HttpConfig) (j i : Nat) (s : HttpSession ρ) (a : FsAction) :
    Responding s (fsAction cfg j i s a) := by
  have hfs : Responding s (s.emit [.fs j a]) := .emit s (by simp [HttpEffect.isResponse])
  have hdelete : ∀ e ∈ [HttpEffect.deleteReader j], e.isResponse = true := by
    simp [HttpEffect.isResponse]
  cases a with
  | onError =>
    apply hfs.trans
    apply (Responding.onResp _ i (f := HttpResp.setErr) fun _ => rfl).trans
    apply (Responding.send cfg _ i).trans
    exact .emit _ hdelete
  | onClose => exact hfs.trans (.send cfg _ i)
  | fsOpen path => exact hfs
  | fsRead fd len => exact hfs
  | fsClose fd => exact hfs

/-- A step of a file reader is work on its response. -/
theorem Responding.fsActions (cfg : HttpConfig) (j i : Nat) (s : HttpSession ρ)
    (readers : List RespReader) (as : List FsAction) :
    Responding s (as.foldl (HttpSession.fsAction cfg j i) { s with readers := readers }) := by
  have hfold : ∀ (as : List FsAction) (t : HttpSession ρ),
      Responding t (as.foldl (HttpSession.fsAction cfg j i) t) := by
    intro as
    induction as with
    | nil => exact fun t => .refl t
    | cons a as ih => exact fun t => (Responding.fsAction cfg j i t a).trans (ih _)
  have hset : Responding s { s with readers := readers } :=
    ⟨rfl, rfl, rfl, rfl, rfl, .refl _ _⟩
  exact hset.trans (hfold as _)

/-! ### Handling a request -/

/-- Who is told when the response to a request has been sent. -/
def toldBy (upgrade : Bool) : OnSent := if upgrade then .upgrade else .session

/-- The session when `handle_request` has stored the wish of request `i` and made its
    response. -/
def begun (s : HttpSession ρ) (upgrade : Bool) : HttpSession ρ :=
  let keep := needKeepConnection s.req.req
  { s with
    answers := s.answers ++ [(⟨keep, upgrade, .init⟩ : Answer)], isKeepAlive := keep }.emit
      [.handleRequest s.answers.length s.req.seen keep upgrade]

theorem handleRequest_eq (s : HttpSession ρ) (upgrade : Bool) :
    s.handleRequest cfg upgrade =
      if upgrade then (s.begun upgrade).upgradeToWs cfg s.answers.length
      else (s.begun upgrade).dispatchRequest cfg s.answers.length := rfl

/-- What `handle_request` does with request `n`, whose wish is `keep`: either its handler is
    called, or its response is sent at once. -/
structure Handles (s s' : HttpSession ρ) (keep upgrade : Bool) : Prop where
  isKeepAlive : s'.isKeepAlive = keep
  timerArmed : s'.timerArmed = s.timerArmed
  registered : s'.registered = s.registered
  readers : s'.readers = s.readers
  asked : s'.answers.map Answer.asked =
    s.answers.map Answer.asked ++ [(keep, upgrade, toldBy upgrade)]
  answered :
    let n := s.answers.length
    let handled := HttpEffect.handleRequest n s.req.seen keep upgrade
    (s'.stack = .user n :: s.stack ∧ s'.trace = s.trace ++ [handled, .handler n]) ∨
      (s'.stack = s.stack ∧ ∃ ctx buffers,
        s'.trace = s.trace ++ [handled, .newCtx ctx, .uvWrite ctx n buffers])

theorem send_trace (cfg : HttpConfig) {s : HttpSession ρ} {i : Nat} (h : i < s.answers.length) :
    ∃ ctx buffers, (s.send cfg i).trace = s.trace ++ [.newCtx ctx, .uvWrite ctx i buffers] := by
  unfold send
  rw [List.getElem?_eq_getElem h]
  exact ⟨_, _, rfl⟩

@[simp] theorem send_answers (s : HttpSession ρ) (i : Nat) :
    (s.send cfg i).answers = s.answers := by
  unfold send
  split <;> rfl

@[simp] theorem send_readers (s : HttpSession ρ) (i : Nat) :
    (s.send cfg i).readers = s.readers := by
  unfold send
  split <;> rfl

@[simp] theorem onResp_readers (s : HttpSession ρ) (i : Nat) (f : HttpResp → HttpResp) :
    (s.onResp i f).readers = s.readers := rfl

@[simp] theorem onResp_trace (s : HttpSession ρ) (i : Nat) (f : HttpResp → HttpResp) :
    (s.onResp i f).trace = s.trace := rfl

@[simp] theorem length_onResp (s : HttpSession ρ) (i : Nat) (f : HttpResp → HttpResp) :
    (s.onResp i f).answers.length = s.answers.length := by
  simp [onResp]

/-- A change of the newest response keeps the older ones. -/
theorem answers_onResp_begun (s : HttpSession ρ) (upgrade : Bool) (f : HttpResp → HttpResp) :
    ((s.begun upgrade).onResp s.answers.length f).answers =
      s.answers ++ [⟨needKeepConnection s.req.req, upgrade, f .init⟩] := by
  simp [begun, onResp, List.modify_eq_take_cons_drop]

/-- The response is changed and sent at once; nothing else but the request object changes. -/
theorem Handles.of_send (s : HttpSession ρ) {upgrade : Bool} (req : HttpReq)
    {f : HttpResp → HttpResp} (hf : (f .init).onSent = toldBy upgrade) :
    Handles s ((({ s.begun upgrade with req := { s.req with req := req } }).onResp
      s.answers.length f).send cfg s.answers.length) (needKeepConnection s.req.req) upgrade := by
  -- `u` is the session just before `send`, with the new response at its end
  generalize hu : ({ s.begun upgrade with req := { s.req with req := req } }).onResp
    s.answers.length f = u
  have hsend := Responding.send cfg u s.answers.length
  have hasked : u.answers.map Answer.asked =
      s.answers.map Answer.asked ++ [(needKeepConnection s.req.req, upgrade, toldBy upgrade)] := by
    have hanswers : u.answers =
        s.answers ++ [⟨needKeepConnection s.req.req, upgrade, f .init⟩] := by
      rw [← hu]
      exact s.answers_onResp_begun upgrade f
    rw [hanswers, List.map_append, List.map_singleton, Answer.asked, hf]
  have hlen : s.answers.length < u.answers.length := by
    rw [← hu]
    simp [begun]
  obtain ⟨ctx, buffers, htrace⟩ := send_trace cfg hlen
  subst hu
  refine ⟨hsend.isKeepAlive, hsend.timerArmed, hsend.registered, send_readers _ _,
    hsend.asked.trans hasked, .inr ⟨hsend.stack, ctx, buffers, ?_⟩⟩
  rw [htrace]
  simp [begun]

theorem handleRequest_spec (cfg : HttpConfig) (s : HttpSession ρ) (upgrade : Bool) :
    Handles s (s.handleRequest cfg upgrade) (needKeepConnection s.req.req) upgrade := by
  rw [handleRequest_eq]
  cases upgrade with
  | true => exact .of_send s _ rfl
  | false =>
    rw [if_neg Bool.false_ne_true]
    unfold dispatchRequest
    split
    · -- a route matches: its handler runs
      refine ⟨rfl, rfl, rfl, rfl, ?_, .inl ⟨rfl, ?_⟩⟩
      · simp [begun, Answer.asked, toldBy, HttpResp.init]
      · simp [begun]
    · exact .of_send s _ rfl

/-! ### Receiving -/

/-- What a read does to the session before the callbacks of the parser are made. -/
structure Receives (s s' : HttpSession ρ) : Prop where
  isKeepAlive : s'.isKeepAlive = false
  registered : s'.registered = s.registered
  answers : s'.answers = s.answers
  readers : s'.readers = s.readers
  stack : ∃ es : List ReqEvent, s'.stack = es.map .event ++ s.stack
  trace : s'.trace = s.trace ++ .recv :: if s.isKeepAlive then [.uvTimerStop] else []

theorem recvCb_spec (s : HttpSession ρ) (base : Bool) (data : Bytes) :
    Receives s (s.recvCb P base data) := by
  -- the timer is stopped if the flag is set; the callbacks are left on the stack in both cases
  cases hflag : s.isKeepAlive with
  | true =>
    simp only [recvCb, emit_isKeepAlive, hflag, if_true]
    split
    · exact ⟨rfl, rfl, rfl, rfl, ⟨_, rfl⟩, by simp [stopKeepAliveTimer, emit, hflag]⟩
    · exact ⟨rfl, rfl, rfl, rfl, ⟨[], rfl⟩, by simp [stopKeepAliveTimer, emit, hflag]⟩
  | false =>
    simp only [recvCb, emit_isKeepAlive, hflag, Bool.false_eq_true, if_false]
    split
    · exact ⟨rfl, rfl, rfl, rfl, ⟨_, rfl⟩, by simp [hflag]⟩
    · exact ⟨hflag, rfl, rfl, rfl, ⟨[], rfl⟩, by simp [hflag]⟩

end HttpSession

end MyWebSocket
