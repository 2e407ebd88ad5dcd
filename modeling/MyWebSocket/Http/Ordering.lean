import MyWebSocket.Http.KeepAlive
import MyWebSocket.Http.Line

namespace MyWebSocket

open Log

/-!
# The order of responses

* `Disciplined` — handlers that send exactly one response each;
* `InLine.step` — every disciplined step of the session keeps its line;
* `responses_in_turn` — a response only overtakes earlier ones whose file is still being read.
-/

variable {ρ : Type} {cfg : HttpConfig} {P : HttpParser ρ}

/-! ### Readers and their responses -/

namespace HttpSession

/-- What one action of a reader adds to the trace. -/
theorem fsAction_trace (cfg : HttpConfig) (j : Nat) {i : Nat} {s : HttpSession ρ}
    (hi : i < s.answers.length) (a : FsAction) :
    ∃ es, (fsAction cfg j i s a).trace = s.trace ++ es ∧ FileEffects j i [a] es := by
  cases a with
  | onError =>
    -- a failed read sends the response with an error status, and the reader is deleted
    obtain ⟨ctx, buffers, htrace⟩ := send_trace cfg
      (s := (s.emit [.fs j .onError]).onResp i HttpResp.setErr) (by simpa using hi)
    refine ⟨[.fs j .onError, .newCtx ctx, .uvWrite ctx i buffers, .deleteReader j], ?_, ?_⟩
    · show (send cfg _ i).trace ++ _ = _
      rw [htrace]
      simp
    · refine ⟨by simp, ?_, ?_⟩ <;>
        simp [Has, HttpEffect.handsOver, HttpEffect.callsBack, FsAction.isCallback]
  | onClose =>
    obtain ⟨ctx, buffers, htrace⟩ := send_trace cfg
      (s := s.emit [.fs j .onClose]) (i := i) hi
    refine ⟨[.fs j .onClose, .newCtx ctx, .uvWrite ctx i buffers], ?_, ?_⟩
    · show (send cfg _ i).trace = _
      rw [htrace]
      simp
    · refine ⟨by simp, ?_, ?_⟩ <;>
        simp [Has, HttpEffect.handsOver, HttpEffect.callsBack, FsAction.isCallback]
  | _ =>
    refine ⟨[.fs j _], rfl, by simp, ?_, ?_⟩ <;>
      simp [Has, HttpEffect.handsOver, HttpEffect.callsBack, FsAction.isCallback]

@[simp] theorem fsAction_readers (j i : Nat) (s : HttpSession ρ) (a : FsAction) :
    (fsAction cfg j i s a).readers = s.readers := by
  cases a <;> simp [fsAction]

/-- What a reader adds to the trace. -/
theorem fsActions_trace (cfg : HttpConfig) (j : Nat) {i : Nat} (as : List FsAction)
    {s : HttpSession ρ} (hi : i < s.answers.length) :
    (as.foldl (fsAction cfg j i) s).readers = s.readers ∧
      ∃ es, (as.foldl (fsAction cfg j i) s).trace = s.trace ++ es ∧ FileEffects j i as es := by
  induction as generalizing s with
  | nil => exact ⟨rfl, [], by simp, .nil j i⟩
  | cons a as ih =>
    have hlen := (Responding.fsAction cfg j i s a).length
    obtain ⟨es, htrace, hes⟩ := fsAction_trace cfg j hi a
    obtain ⟨hreaders, es', htrace', hes'⟩ := ih (s := fsAction cfg j i s a) (by rwa [hlen])
    refine ⟨by rw [List.foldl_cons, hreaders, fsAction_readers], es ++ es', ?_, hes.cons hes'⟩
    rw [List.foldl_cons, htrace', htrace, List.append_assoc]

end HttpSession

/-! ### Runs -/

/-- The response of a reader, and whether it has called back. -/
def RespReader.view (r : RespReader) : Nat × Bool := (r.resp, r.reader.pending.isNone)

/-- The line of a session. -/
abbrev HttpSession.InLine (s : HttpSession ρ) : Prop :=
  Line s.answers.length s.stack (s.readers.map RespReader.view) s.trace

/-- The request whose handler is running. -/
def HttpSession.running (s : HttpSession ρ) : Option Nat :=
  match s.stack with
  | .user i :: _ => some i
  | _ => none

/-- Each handler sends exactly one response: user code sends a response only while its handler
    runs and has not sent it yet, and a handler only returns when it has. -/
def Disciplined (s : HttpSession ρ) : HttpLabel → Prop
  | .call i c => c.sends = true → s.running = some i ∧ ¬ Answered s.trace i
  | .ret => ∀ i ∈ s.running, Answered s.trace i
  | _ => True

instance (s : HttpSession ρ) (l : HttpLabel) : Decidable (Disciplined s l) := by
  unfold Disciplined
  split <;> infer_instance

namespace HttpSession

theorem running_eq_some {s : HttpSession ρ} {i : Nat} :
    s.running = some i ↔ ∃ st, s.stack = .user i :: st := by
  unfold running
  split
  · rename_i k st hst
    simp [hst]
  · rename_i hst
    simp only [reduceCtorEq, false_iff]
    rintro ⟨st, h⟩
    exact hst i st h

theorem InLine.accepted (method : HttpMethod) : (accepted P method).InLine := by
  -- no request yet, so nothing to be in line
  have hempty : Line 0 [] [] [] :=
    { shape := ⟨[], .inl rfl⟩, reader_iff := by simp, callback_iff := by simp [Has],
      unique := by simp, done_iff := by simp, answered_lt := by simp [Has],
      settled := by simp, inTurn := each_nil }
  have hstart : ∀ e ∈ [HttpEffect.uvReadStart], e.inLine = false := by simp [HttpEffect.inLine]
  exact hempty.append hstart

/-- The running handler sends its response at once. -/
theorem InLine.send {s : HttpSession ρ} (h : s.InLine) {i : Nat} (f : HttpResp → HttpResp)
    (hi : i < s.answers.length) (hrun : s.running = some i) (hnew : ¬ Answered s.trace i) :
    ((s.onResp i f).send cfg i).InLine := by
  obtain ⟨st, hst⟩ := running_eq_some.mp hrun
  obtain ⟨ctx, buffers, htrace⟩ := send_trace cfg (s := s.onResp i f) (i := i)
    (by simpa using hi)
  have hsend := Responding.send cfg (s.onResp i f) i
  have hstack : ((s.onResp i f).send cfg i).stack = .user i :: st := hsend.stack.trans hst
  rw [InLine, hst] at h
  rw [InLine, hsend.length, length_onResp, hstack, send_readers, htrace]
  exact h.send hnew ctx buffers

/-- The running handler sends a file. -/
theorem InLine.sendFile {s : HttpSession ρ} (h : s.InLine) {i : Nat} (path : Bytes)
    (hrun : s.running = some i) (hnew : ¬ Answered s.trace i) : (s.sendFile i path).InLine := by
  obtain ⟨st, hst⟩ := running_eq_some.mp hrun
  have hsend := Responding.sendFile s i path
  have hstack : (s.sendFile i path).stack = .user i :: st := hsend.stack.trans hst
  have hreaders : (s.sendFile i path).readers.map RespReader.view =
      s.readers.map RespReader.view ++ [(i, false)] := by
    simp [HttpSession.sendFile, RespReader.view, FileReader.fileRead]
  have htrace : (s.sendFile i path).trace = s.trace ++
      [.newReader (s.readers.map RespReader.view).length i] ++
        [.fs s.readers.length (.fsOpen path)] := by
    simp [HttpSession.sendFile, FileReader.fileRead]
  rw [InLine, hst] at h
  rw [InLine, hsend.length, hstack, hreaders, htrace]
  exact (h.read hnew).append (by simp [HttpEffect.inLine, FsAction.isCallback])

/-- The running handler sends its response. -/
theorem InLine.sends {s : HttpSession ρ} (h : s.InLine) {i : Nat} (c : RespCall)
    (hc : c.sends = true) (hrun : s.running = some i) (hnew : ¬ Answered s.trace i) :
    (s.call cfg i c).InLine := by
  have hi : i < s.answers.length := by
    obtain ⟨st, hst⟩ := running_eq_some.mp hrun
    rw [InLine, hst] at h
    have hn := h.user_eq.1
    omega
  cases c with
  | sendStr body => exact h.send _ hi hrun hnew
  | sendJson text => exact h.send _ hi hrun hnew
  | sendFile path => exact h.sendFile path hrun hnew
  | _ => exact absurd hc Bool.false_ne_true

theorem InLine.onResp {s : HttpSession ρ} (h : s.InLine) (i : Nat) (f : HttpResp → HttpResp) :
    (s.onResp i f).InLine := by
  rw [InLine, length_onResp]
  exact h

/-- User code may change a response at any time. -/
theorem InLine.call {s : HttpSession ρ} (h : s.InLine) {i : Nat} (c : RespCall)
    (hc : c.sends = false) : (s.call cfg i c).InLine := by
  cases c with
  | setHeader key value => exact h.onResp i _
  | setStatus status => exact h.onResp i _
  | clearContent => exact h.onResp i _
  | _ => exact absurd hc.symm Bool.false_ne_true

theorem InLine.handleRequest {s : HttpSession ρ} {upgrade : Bool} {st : List HttpTask}
    (hst : s.stack = .event (.messageComplete upgrade) :: st) (h : s.InLine) :
    (({ s with stack := st }).handleRequest cfg upgrade).InLine := by
  have hspec := handleRequest_spec cfg { s with stack := st } upgrade
  have hlen : (({ s with stack := st }).handleRequest cfg upgrade).answers.length =
      s.answers.length + 1 := by
    simpa using congrArg List.length hspec.asked
  have hhandled : ∀ e ∈ [HttpEffect.handleRequest s.answers.length s.req.seen
      (needKeepConnection s.req.req) upgrade], e.inLine = false := by
    simp [HttpEffect.inLine]
  rw [InLine, hst] at h
  have hbegun := h.handle.append hhandled
  rw [InLine, hlen, hspec.readers]
  rcases hspec.answered with ⟨hstack, htrace⟩ | ⟨hstack, ctx, buffers, htrace⟩
  · -- the handler runs
    have hhandler : ∀ e ∈ [HttpEffect.handler s.answers.length], e.inLine = false := by
      simp [HttpEffect.inLine]
    have hrunning := hbegun.append hhandler
    rw [List.append_assoc] at hrunning
    rw [hstack, htrace]
    exact hrunning
  · -- the response is sent at once
    have hnew : ¬ Answered s.trace s.answers.length :=
      fun hans => Nat.lt_irrefl _ (h.answered_lt _ hans)
    have hsent := hbegun.send (not_answered_append hnew hhandled) ctx buffers
    have hdone := hsent.ret (answered_send _ ctx _ buffers)
    rw [List.append_assoc] at hdone
    rw [hstack, htrace]
    exact hdone

theorem InLine.emit {s : HttpSession ρ} (h : s.InLine) {es : List HttpEffect}
    (hes : ∀ e ∈ es, e.inLine = false) : (s.emit es).InLine :=
  Line.append h hes

theorem InLine.closeSession {s : HttpSession ρ} (h : s.InLine) (isUpgrade : Bool) :
    (s.closeSession isUpgrade).InLine := by
  have hstop : InLine ({ s with reading := false }.emit [.uvReadStop]) :=
    InLine.emit h (by simp [HttpEffect.inLine])
  cases isUpgrade with
  | true => exact InLine.emit hstop (by simp [HttpEffect.inLine])
  | false =>
    have hclose : InLine (HttpSession.emit
        { { s with reading := false }.emit [.uvReadStop] with closing := true } [.uvClose]) :=
      InLine.emit hstop (by simp [HttpEffect.inLine])
    exact InLine.emit hclose (by simp [HttpEffect.inLine])

theorem InLine.onWriteEnd {s : HttpSession ρ} (h : s.InLine) (w : PendingWrite) (a : Answer) :
    (s.onWriteEnd cfg w a).InLine := by
  have hreleased : (s.released a).InLine := by
    unfold HttpSession.released
    split
    · refine h.emit fun e he => ?_
      obtain ⟨j, -, rfl⟩ := List.mem_map.mp he
      rfl
    · exact h
  rw [onWriteEnd_eq]
  generalize s.released a = u at hreleased
  apply InLine.emit
  · split
    · split
      · split
        · exact InLine.emit hreleased (by simp [HttpEffect.inLine])
        · exact hreleased.closeSession false
      · unfold upgradeSession
        split
        · exact (hreleased.closeSession true).emit (by simp [HttpEffect.inLine])
        · exact hreleased.emit (by simp [HttpEffect.inLine])
    · exact hreleased
  · simp [HttpEffect.inLine]

theorem InLine.file {s : HttpSession ρ} (h : s.InLine) {j : Nat} {result : Int} {data : Bytes}
    {r : RespReader} {r' : FileReader} {as : List FsAction} (hr : s.readers[j]? = some r)
    (he : r.reader.event result data = some (r', as)) :
    (as.foldl (fsAction cfg j r.resp)
      { s with readers := s.readers.set j { r with reader := r' } }).InLine := by
  -- a request of this reader was in flight, so it had not called back
  have hpending : r.reader.pending.isNone = false :=
    Option.isNone_eq_false_iff.mpr (Option.isSome_iff_ne_none.mpr (FileReader.pending_of_event he))
  have hview : (s.readers.map RespReader.view)[j]? = some (r.resp, false) := by
    rw [List.getElem?_map, hr, Option.map_some, RespReader.view, hpending]
  have hi : r.resp < s.answers.length :=
    h.answered_lt _ (answered_iff.mpr (.inr ⟨j, (h.reader_iff j _).mpr ⟨false, hview⟩⟩))
  have hfold := Responding.fsActions cfg j r.resp s
    (s.readers.set j { r with reader := r' }) as
  obtain ⟨hreaders, es, htrace, hes⟩ := fsActions_trace cfg j as
    (s := { s with readers := s.readers.set j { r with reader := r' } }) hi
  rw [InLine, hfold.length, hfold.stack, hreaders, htrace, List.map_set]
  have hdone : r'.pending.isNone = true ↔ ∃ a ∈ as, a.isCallback = true := by
    rw [Option.isNone_iff_eq_none]
    exact FileReader.event_pending he
  by_cases hcall : ∃ a ∈ as, FsAction.isCallback a = true
  · -- the reader calls back
    have hnew : RespReader.view { r with reader := r' } = (r.resp, true) := by
      rw [RespReader.view, hdone.mpr hcall]
    rw [hnew]
    exact h.callBack hview hes.reader (fun k => (hes.handed k).trans (and_iff_left hcall))
      fun k => (hes.called k).trans (and_iff_left hcall)
  · -- it goes on
    have hnew : RespReader.view { r with reader := r' } = (r.resp, false) := by
      rw [RespReader.view, Bool.eq_false_iff.mpr fun hnone => hcall (hdone.mp hnone)]
    obtain ⟨hlen, hget⟩ := List.getElem?_eq_some_iff.mp hview
    rw [hnew, ← hget, List.set_getElem_self]
    exact Line.append h (hes.inLine_of_not hcall)

/-- **Every disciplined step keeps the line.** -/
theorem InLine.step {s s' : HttpSession ρ} {l : HttpLabel} (h : s.InLine)
    (hs : HttpStep cfg P s l s') (hd : Disciplined s l) : s'.InLine := by
  cases hs with
  | @call i c hu hi =>
    cases hc : c.sends with
    | true => exact h.sends c hc (hd hc).1 (hd hc).2
    | false => exact h.call c hc
  | setReq req hu => exact h
  | @ret i st hst =>
    have hans : Answered s.trace i := hd i (running_eq_some.mpr ⟨st, hst⟩)
    rw [InLine, hst] at h
    exact h.ret hans
  | @run e st hst =>
    cases e with
    | messageComplete upgrade => exact h.handleRequest hst
    | _ =>
      rw [InLine, hst] at h
      exact h.event
  | recv base data hst hr =>
    have hspec := s.recvCb_spec (P := P) base data
    obtain ⟨es, hstack⟩ := hspec.stack
    rw [InLine, hst] at h
    rw [InLine, hspec.answers, hspec.readers, hspec.trace, hstack, hst, List.append_nil]
    refine (h.recv es).append fun e he => ?_
    rcases List.mem_cons.mp he with rfl | he
    · rfl
    · split at he
      · rw [List.mem_singleton.mp he]
        rfl
      · cases he
  | recvErr hst hr =>
    have hstop : s.stopKeepAliveTimer.InLine :=
      InLine.emit h (by simp [HttpEffect.inLine])
    exact hstop.closeSession false
  | timer hst ht =>
    show InLine (if s.timerData then _ else _)
    split
    · exact InLine.closeSession (s := { s with timerArmed := false }) h false
    · exact h
  | @written w ws a status hst hw ha =>
    exact InLine.onWriteEnd (s := { s with writes := ws }) h w a
  | file hst hr he => exact h.file hr he

end HttpSession

/-- The response handed to `uv_write`. -/
def HttpEffect.written : HttpEffect → Option Nat
  | .uvWrite _ i _ => some i
  | _ => none

theorem HttpEffect.handsOver_of_written {e : HttpEffect} {i : Nat} (h : e.written = some i) :
    e.handsOver i = true := by
  cases e with
  | uvWrite ctx k buffers =>
    obtain rfl : k = i := Option.some.inj h
    exact beq_self_eq_true k
  | _ => cases h

/-- The responses handed to `uv_write`, in that order. -/
def handedOver (t : List HttpEffect) : List Nat := t.filterMap HttpEffect.written

/-- Where every response is handed over in its turn and no file is read, the responses are
    handed over in the order of the requests. -/
theorem handedOver_sorted {t : List HttpEffect} (h : Each InTurn t)
    (hfile : ∀ j i : Nat, .newReader j i ∉ t) : (handedOver t).Pairwise (· ≤ ·) := by
  rw [handedOver, List.pairwise_filterMap]
  refine h.pairwise fun pre e post heq hturn e' he' j hj i hi => ?_
  -- an earlier response handed over later was still being read, or was not done for good
  by_contra hlt
  rcases hturn j (HttpEffect.handsOver_of_written hj) i (Nat.lt_of_not_le hlt) with
    ⟨r, hr, -⟩ | ⟨-, hpost⟩
  · apply hfile r i
    rw [heq]
    exact List.mem_append_left _ hr
  · exact hpost ⟨e', he', HttpEffect.handsOver_of_written hi⟩

/-- **The order of responses.**  Let every handler send exactly one response.  In every run of a
    session, with any reads, file results and write completions in any order, whenever a
    response is handed to `uv_write` each earlier one has been handed over for good, or its
    file is still being read; without `sendFile` the responses are handed over in the order of
    the requests.  Every request that has been handled is then answered, but for the one whose
    handler is running: its response has been handed over, or its file is still being read. -/
theorem responses_in_turn {method : HttpMethod} {ls : List HttpLabel} {s : HttpSession ρ}
    (h : (httpMachine cfg P).exec (.accepted P method) ls = some s)
    (hd : (httpMachine cfg P).AllSteps Disciplined (.accepted P method) ls) :
    Each InTurn s.trace ∧
      ((∀ j i : Nat, .newReader j i ∉ s.trace) → (handedOver s.trace).Pairwise (· ≤ ·)) ∧
      ∀ i < s.answers.length,
        s.running = some i ∨ ReadingFile s.trace i ∨ HandedOver s.trace i := by
  have hline : s.InLine := (httpMachine cfg P).exec_invariant_of_allSteps
    (fun _ _ _ hi hp hs => hi.step (HttpSession.step_cases hs) hp)
    (HttpSession.InLine.accepted method) hd h
  refine ⟨hline.inTurn, handedOver_sorted hline.inTurn, fun i hi => ?_⟩
  rcases hline.settled i hi with hmem | hans
  -- not answered yet: its handler is on the stack, and on top of it
  · obtain ⟨es, hst | ⟨k, -, hst⟩⟩ := hline.shape
    · simp [hst] at hmem
    · obtain rfl : i = k := by simpa [hst] using hmem
      exact .inl (HttpSession.running_eq_some.mpr ⟨_, hst⟩)
  · exact .inr (hline.of_answered hans)

/-- A server whose only route is `/f`. -/
def fileConfig : HttpConfig :=
  { bareConfig with
    router := ⟨fun method => if method = .get then
      some [⟨fun path => if path = str "/f" then some [path] else none, (), []⟩] else none⟩ }

/-- Two requests of `/f` in one read. -/
def pipelined : Bytes := str "GET /f HTTP/1.1\r\n\r\nGET /f HTTP/1.1\r\n\r\n"

/-- The parser on these requests. -/
def pipelinedParser : HttpParser Bytes :=
  tableParser
    [(([], pipelined),
      [.messageBegin, .url (str "/f"), .headersComplete .get 1 1, .messageComplete false,
        .messageBegin, .url (str "/f"), .headersComplete .get 1 1, .messageComplete false])]

/-- The first handler sends a file, the second one a text; then the file is read. -/
def fileThenText : List HttpLabel :=
  [.recv true pipelined, .run, .run, .run, .run, .call 0 (.sendFile (str "a.txt")), .ret,
    .run, .run, .run, .run, .call 1 (.sendStr (str "b")), .ret,
    .file 0 7 [], .file 0 1 [0x61], .file 0 0 []]

/-- In that run everything is in turn. -/
theorem responses_in_turn_fileThenText :
    ∃ s, (httpMachine fileConfig pipelinedParser).exec (.accepted pipelinedParser .get)
        fileThenText = some s ∧ Each InTurn s.trace ∧ ∀ i < s.answers.length,
          s.running = some i ∨ ReadingFile s.trace i ∨ HandedOver s.trace i := by
  obtain ⟨s, hs⟩ : ∃ s, (httpMachine fileConfig pipelinedParser).exec
      (.accepted pipelinedParser .get) fileThenText = some s :=
    Option.isSome_iff_exists.mp (by decide)
  obtain ⟨hturn, -, hall⟩ := responses_in_turn hs (by decide)
  exact ⟨s, hs, hturn, hall⟩

/-- The text is handed over before the file. -/
theorem fileThenText_overtakes :
    (httpMachine fileConfig pipelinedParser).AllSteps Disciplined
        (.accepted pipelinedParser .get) fileThenText ∧
      ((httpMachine fileConfig pipelinedParser).exec (.accepted pipelinedParser .get)
        fileThenText).map (fun s => handedOver s.trace) = some [1, 0] ∧
      ¬ ([1, 0] : List Nat).Pairwise (· ≤ ·) := by
  decide

end MyWebSocket
