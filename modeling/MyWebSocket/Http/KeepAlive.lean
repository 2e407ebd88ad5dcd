import MyWebSocket.Http.Pieces
import MyWebSocket.Http.Steps

namespace MyWebSocket

open Log

/-!
# Keep-alive

One flag of the session holds the wish of the request handled last, and every read clears it.
When a response has been sent the flag decides whether the connection is closed.

* `KeepAliveInv` — the invariant of every run: the flag is what the history of reads and
  requests makes it;
* `closes_rightly_iff` — every completed response closes the connection exactly when its own
  request did not ask for keep-alive, if and only if at each completion the history has left
  the flag at the wish of that request.
-/

variable {ρ : Type} {cfg : HttpConfig} {P : HttpParser ρ}

/-! ### The history of the flag -/

/-- What an effect does to the flag: a read clears it, a request sets it to its own wish. -/
def HttpEffect.onFlag (flag : Bool) : HttpEffect → Bool
  | .recv => false
  | .handleRequest _ _ keep _ => keep
  | _ => flag

/-- The wish of the request handled last, none if a read has come since. -/
def lastWish (trace : List HttpEffect) : Bool := trace.foldl HttpEffect.onFlag false

/-- The effect is neither a read nor a request. -/
def HttpEffect.FlagKept (e : HttpEffect) : Prop := ∀ flag, e.onFlag flag = flag

theorem HttpEffect.flagKept_of_isResponse {e : HttpEffect} (h : e.isResponse = true) :
    e.FlagKept := by
  intro flag
  cases e with
  | recv => simp [HttpEffect.isResponse] at h
  | handleRequest i seen keep upgrade => simp [HttpEffect.isResponse] at h
  | _ => rfl

theorem lastWish_append (t es : List HttpEffect) :
    lastWish (t ++ es) = es.foldl HttpEffect.onFlag (lastWish t) := by
  unfold lastWish
  rw [List.foldl_append]

theorem foldl_onFlag {es : List HttpEffect} (h : ∀ e ∈ es, e.FlagKept) (flag : Bool) :
    es.foldl HttpEffect.onFlag flag = flag := by
  induction es with
  | nil => rfl
  | cons e es ih =>
    rw [List.foldl_cons, h e List.mem_cons_self flag]
    exact ih fun e' he' => h e' (List.mem_cons_of_mem e he')

theorem lastWish_grows {t u : List HttpEffect} (h : Grows HttpEffect.FlagKept t u) :
    lastWish u = lastWish t := by
  obtain ⟨es, rfl, hes⟩ := h
  rw [lastWish_append, foldl_onFlag hes]

/-! ### The invariant -/

/-- The flag is what the history makes it, and only upgrades are told of elsewhere. -/
structure KeepAliveInv (s : HttpSession ρ) : Prop where
  flag : s.registered = true → s.isKeepAlive = lastWish s.trace
  told : ∀ x ∈ s.answers.map Answer.asked, x.2.2 = HttpSession.toldBy x.2.1

theorem KeepAliveInv.accepted (method : HttpMethod) : KeepAliveInv (.accepted P method) :=
  ⟨fun _ => rfl, by simp [HttpSession.accepted]⟩

/-- Work on responses keeps the invariant. -/
theorem KeepAliveInv.responding {s s' : HttpSession ρ} (h : KeepAliveInv s)
    (hr : s.Responding s') : KeepAliveInv s' := by
  refine ⟨fun hreg => ?_, ?_⟩
  · rw [hr.isKeepAlive, lastWish_grows (hr.trace.mono fun _ => HttpEffect.flagKept_of_isResponse)]
    exact h.flag (hr.registered ▸ hreg)
  · rw [hr.asked]
    exact h.told

/-- So does a change of the stack, the request, the parser, the writes or the timer. -/
theorem KeepAliveInv.of_eq {s s' : HttpSession ρ} (h : KeepAliveInv s)
    (hflag : s'.isKeepAlive = s.isKeepAlive) (hreg : s'.registered = s.registered)
    (hanswers : s'.answers = s.answers) (htrace : Grows HttpEffect.FlagKept s.trace s'.trace) :
    KeepAliveInv s' := by
  refine ⟨fun hreg' => ?_, ?_⟩
  · rw [hflag, lastWish_grows htrace]
    exact h.flag (hreg ▸ hreg')
  · rw [hanswers]
    exact h.told

theorem KeepAliveInv.handleRequest {s : HttpSession ρ} (h : KeepAliveInv s) (upgrade : Bool) :
    KeepAliveInv (s.handleRequest cfg upgrade) := by
  have hspec := s.handleRequest_spec cfg upgrade
  refine ⟨fun _ => ?_, ?_⟩
  · rw [hspec.isKeepAlive]
    rcases hspec.answered with ⟨-, htrace⟩ | ⟨-, ctx, buffers, htrace⟩
    · rw [htrace, lastWish_append]
      rfl
    · rw [htrace, lastWish_append]
      rfl
  · intro x hx
    rw [hspec.asked, List.mem_append, List.mem_singleton] at hx
    rcases hx with hx | rfl
    · exact h.told x hx
    · rfl

/-- A session that is not registered any more has no flag to speak of. -/
theorem KeepAliveInv.of_unregistered {s s' : HttpSession ρ} (h : KeepAliveInv s)
    (hreg : s'.registered = false) (hanswers : s'.answers = s.answers) : KeepAliveInv s' := by
  refine ⟨fun hreg' => ?_, ?_⟩
  · rw [hreg] at hreg'
    exact absurd hreg' Bool.false_ne_true
  · rw [hanswers]
    exact h.told

/-- What is done first when a write ends: the file reader is deleted. -/
def HttpSession.released (s : HttpSession ρ) (a : Answer) : HttpSession ρ :=
  if a.resp.sendType = .file then s.emit (a.resp.reader.toList.map .deleteReader) else s

/-- Deleting the reader leaves session and flag alone. -/
theorem HttpSession.Responding.released (s : HttpSession ρ) (a : Answer) :
    s.Responding (s.released a) := by
  unfold HttpSession.released
  split
  · refine .emit s fun e he => ?_
    obtain ⟨j, -, rfl⟩ := List.mem_map.mp he
    rfl
  · exact .refl s

theorem HttpSession.onWriteEnd_eq (s : HttpSession ρ) (w : PendingWrite) (a : Answer) :
    s.onWriteEnd cfg w a =
      (if (s.released a).registered then
        match a.resp.onSent with
        | .session =>
          if (s.released a).isKeepAlive then (s.released a).startKeepAliveTimer cfg
          else (s.released a).closeSession false
        | .upgrade => (s.released a).upgradeSession cfg
      else s.released a).emit [.deleteCtx w.ctx] := rfl

theorem KeepAliveInv.onWriteEnd {s : HttpSession ρ} (h : KeepAliveInv s) (w : PendingWrite)
    (a : Answer) : KeepAliveInv (s.onWriteEnd cfg w a) := by
  rw [HttpSession.onWriteEnd_eq]
  have hr := HttpSession.Responding.released s a
  have hrel := h.responding hr
  generalize s.released a = t at *
  have hctx : Grows HttpEffect.FlagKept t.trace (t.emit [.deleteCtx w.ctx]).trace := by
    refine .append _ fun e he flag => ?_
    rw [List.mem_singleton.mp he]
    rfl
  split
  · split
    · split
      · -- the timer starts: the flag was set before
        rename_i hflag
        refine ⟨fun hreg => ?_, hrel.told⟩
        show true = lastWish _
        simp only [HttpSession.startKeepAliveTimer, HttpSession.emit, lastWish_append,
          List.foldl_cons, List.foldl_nil, HttpEffect.onFlag]
        rw [← hrel.flag hreg, hflag]
      · exact hrel.of_unregistered rfl rfl
    · -- an upgrade: the session is taken over, or the assertion fails
      unfold HttpSession.upgradeSession
      split
      · exact hrel.of_unregistered rfl rfl
      · refine hrel.of_eq rfl rfl rfl ?_
        refine ⟨[.assertFailed, .deleteCtx w.ctx], by simp, fun e he flag => ?_⟩
        rcases List.mem_pair.mp he with rfl | rfl
        · rfl
        · rfl
  · exact hrel.of_eq rfl rfl rfl hctx

/-- **Every step keeps the invariant.** -/
theorem KeepAliveInv.step {s s' : HttpSession ρ} {l : HttpLabel} (h : KeepAliveInv s)
    (hs : HttpStep cfg P s l s') : KeepAliveInv s' := by
  cases hs with
  | call c hu hi => exact h.responding (.call s _ c)
  | setReq req hu => exact h.of_eq rfl rfl rfl (.refl _ _)
  | ret hst => exact h.of_eq rfl rfl rfl (.refl _ _)
  | @run e st hst =>
    have hpop : KeepAliveInv { s with stack := st } := h.of_eq rfl rfl rfl (.refl _ _)
    -- only a complete message touches the flag; the other callbacks fill the request
    cases e with
    | messageComplete upgrade => exact hpop.handleRequest upgrade
    | _ => exact h.of_eq rfl rfl rfl (.refl _ _)
  | recv base data hst hr =>
    have hspec := s.recvCb_spec (P := P) base data
    refine ⟨fun _ => ?_, ?_⟩
    · rw [hspec.isKeepAlive, hspec.trace, lastWish_append]
      split <;> rfl
    · rw [hspec.answers]
      exact h.told
  | recvErr hst hr => exact h.of_unregistered rfl rfl
  | timer hst ht =>
    show KeepAliveInv (if s.timerData then _ else _)
    split
    · exact h.of_unregistered rfl rfl
    · exact h.of_eq rfl rfl rfl (.refl _ _)
  | @written w ws a status hst hw ha =>
    have hpop : KeepAliveInv { s with writes := ws } := h.of_eq rfl rfl rfl (.refl _ _)
    exact hpop.onWriteEnd w a
  | file hst hr he => exact h.responding (.fsActions cfg _ _ s _ _)

/-! ### Completed responses -/

/-- The answer whose response has been sent when this step ends, if it is not an upgrade and the
    session is still registered. -/
def HttpSession.completed (s : HttpSession ρ) : HttpLabel → Option Answer
  | .written _ =>
    match s.stack, s.writes with
    | [], w :: _ => (s.answers[w.resp]?).filter fun a => s.registered && !a.upgrade
    | _, _ => none
  | _ => none

/-- The step calls `uv_close`. -/
def Closes (cfg : HttpConfig) (P : HttpParser ρ) (s : HttpSession ρ) (l : HttpLabel) : Prop :=
  ((httpMachine cfg P).step s l).any
    (fun s' => decide (s.trace.count .uvClose < s'.trace.count .uvClose)) = true

/-- A completed response closes the connection exactly when its own request did not ask for
    keep-alive. -/
def ClosesRightly (cfg : HttpConfig) (P : HttpParser ρ) (s : HttpSession ρ) (l : HttpLabel) :
    Prop :=
  ∀ a ∈ s.completed l, (Closes cfg P s l ↔ a.keep = false)

/-- Where a response is completed, the history has left the flag at the wish of its request. -/
def WishStands (s : HttpSession ρ) (l : HttpLabel) : Prop :=
  ∀ a ∈ s.completed l, lastWish s.trace = a.keep

instance (s : HttpSession ρ) (l : HttpLabel) : Decidable (Closes cfg P s l) := by
  unfold Closes
  infer_instance

instance (s : HttpSession ρ) (l : HttpLabel) : Decidable (ClosesRightly cfg P s l) := by
  unfold ClosesRightly
  infer_instance

/-- What the step of a completed response is. -/
theorem HttpSession.completed_cases (cfg : HttpConfig) (P : HttpParser ρ) {s : HttpSession ρ}
    {l : HttpLabel} {a : Answer} (h : a ∈ s.completed l) :
    ∃ w ws, (httpMachine cfg P).step s l = some ({ s with writes := ws }.onWriteEnd cfg w a) ∧
      a ∈ s.answers ∧ s.registered = true ∧ a.upgrade = false := by
  unfold HttpSession.completed at h
  split at h
  · split at h
    · rename_i status _ _ w ws hst hw
      obtain ⟨ha, hcond⟩ := Option.filter_eq_some_iff.mp h
      obtain ⟨hreg, hup⟩ : s.registered = true ∧ a.upgrade = false := by simpa using hcond
      refine ⟨w, ws, ?_, List.mem_of_getElem? ha, hreg, hup⟩
      show s.step cfg P (.written status) = _
      simp only [HttpSession.step, hst, hw, ha, Option.map_some]
    · cases h
  · cases h

/-- Where the session is told that its response has been sent, it closes unless the flag is
    set. -/
theorem HttpSession.onWriteEnd_closes {s : HttpSession ρ} (w : PendingWrite) {a : Answer}
    (hreg : s.registered = true) (hsent : a.resp.onSent = .session) :
    s.trace.count .uvClose < (s.onWriteEnd cfg w a).trace.count .uvClose ↔
      s.isKeepAlive = false := by
  have hr := HttpSession.Responding.released s a
  have hcount : (s.released a).trace.count .uvClose = s.trace.count .uvClose :=
    hr.trace.count_eq (by simp [HttpEffect.isResponse])
  rw [HttpSession.onWriteEnd_eq, hr.registered, if_pos hreg, hsent, ← hcount, ← hr.isKeepAlive]
  generalize s.released a = t
  cases hflag : t.isKeepAlive with
  | true => simp [HttpSession.startKeepAliveTimer, HttpSession.emit, List.count_append]
  | false => simp [HttpSession.closeSession, HttpSession.emit, List.count_append]

/-- Where the invariant holds, a completed response closes as it should exactly when the wish of
    its request stands. -/
theorem KeepAliveInv.closesRightly_iff {s : HttpSession ρ} (h : KeepAliveInv s) (l : HttpLabel) :
    ClosesRightly cfg P s l ↔ WishStands s l := by
  unfold ClosesRightly WishStands
  -- both speak of the completed response: compare them there
  apply forall_congr'
  intro a
  apply forall_congr'
  intro hcompleted
  obtain ⟨w, ws, hstep, ha, hreg, hup⟩ := HttpSession.completed_cases cfg P hcompleted
  have hsent : a.resp.onSent = .session := by
    have htold := h.told a.asked (List.mem_map_of_mem ha)
    simpa [Answer.asked, HttpSession.toldBy, hup] using htold
  have hcloses : Closes cfg P s l ↔ lastWish s.trace = false := by
    unfold Closes
    rw [hstep, Option.any_some, decide_eq_true_iff, ← h.flag hreg]
    exact HttpSession.onWriteEnd_closes (s := { s with writes := ws }) w hreg hsent
  -- flag and wish are Booleans: both sides say that they agree
  rw [hcloses]
  cases lastWish s.trace <;> cases a.keep <;> simp

/-- **Keep-alive.**  In every run of a session, with any reads, handlers, file results and write
    completions in any order, each response of a registered session that is not an upgrade
    closes the connection exactly when its own request did not ask for keep-alive, if and only
    if at each such completion that request had the same wish as the request handled last, a
    read since then counting as a wish not to keep the connection. -/
theorem closes_rightly_iff (cfg : HttpConfig) (P : HttpParser ρ) (method : HttpMethod)
    (ls : List HttpLabel) :
    (httpMachine cfg P).AllSteps (ClosesRightly cfg P) (.accepted P method) ls ↔
      (httpMachine cfg P).AllSteps WishStands (.accepted P method) ls := by
  refine (httpMachine cfg P).allSteps_congr (I := KeepAliveInv) ?_ ?_ (.accepted method) ls
  · exact fun s l s' hI hs => hI.step (HttpSession.step_cases hs)
  · exact fun s l hI => hI.closesRightly_iff l

/-- A server without routes. -/
def bareConfig : HttpConfig :=
  { router := ⟨fun _ => none⟩
    headerOrder := fun headers =>
      [str "Content-Type"].filterMap fun key => (headers.lookup key).map (key, ·)
    acceptKey := id, upgradeCallback := false, keepAliveTimeout := 20 }

/-- A request that asks for keep-alive. -/
def keepAliveRequest : Bytes := str "GET /a HTTP/1.1\r\nConnection: keep-alive\r\n\r\n"

/-- The parser on that request and on the first byte of the next one. -/
def nextByteParser : HttpParser Bytes :=
  tableParser
    [(([], keepAliveRequest),
        [.messageBegin, .url (str "/a"), .headerField (str "Connection"),
          .headerValue (str "keep-alive"), .headersComplete .get 1 1, .messageComplete false]),
      ((keepAliveRequest, str "G"), [.messageBegin])]

/-- The first byte of the next request arrives before the response has been sent. -/
def nextByte : List HttpLabel :=
  [.recv true keepAliveRequest, .run, .run, .run, .run, .run, .run, .recv true (str "G"), .run,
    .written 0]

/-- The connection is closed, although its only request asked for keep-alive. -/
theorem nextByte_closes :
    ((httpMachine bareConfig nextByteParser).exec (.accepted nextByteParser .get) nextByte).map
        (fun s => (s.answers.map Answer.keep, s.trace.count .uvClose)) = some ([true], 1) ∧
      ¬ (httpMachine bareConfig nextByteParser).AllSteps (ClosesRightly bareConfig nextByteParser)
        (.accepted nextByteParser .get) nextByte := by
  decide

end MyWebSocket
