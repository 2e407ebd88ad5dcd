import MyWebSocket.Http.SendFile
import MyWebSocket.WebSocket.Sending
import MyWebSocket.WebSocket.Steps

namespace MyWebSocket

open Log

/-!
# The length of a file

`getReadByte` counts what a reader has read, and `httpResp::send` and `WsSession::inter_send` tell
the peer this number before they send the buffers of the reader.

* `HttpEffect.TellsLength`, `WsEffect.TellsLength` — a write tells the number of bytes that follow
  its head, and those of a file are what its reader has read;
* `HttpLengths`, `WsLengths` — the invariants of the two machines;
* `file_length` — so the three numbers agree in every run.
-/

variable {ρ : Type} {cfg : HttpConfig} {P : HttpParser ρ}

/-- A reader that has been driven by the results of its requests. -/
def FileReader.Driven (r : FileReader) : Prop := ∃ path bytes, FileReader.HasRead path r bytes

theorem FileReader.Driven.fileRead (path : List UInt8) :
    (FileReader.fileRead path).1.Driven := ⟨path, [], .fileRead⟩

theorem FileReader.Driven.event {r r' : FileReader} (h : r.Driven) {result : Int}
    {data : List UInt8} {as : List FsAction} (he : r.event result data = some (r', as)) :
    r'.Driven := by
  obtain ⟨path, bytes, hread⟩ := h
  exact ⟨path, _, hread.event result data he⟩

/-- The counter is the number of bytes in the buffers. -/
theorem FileReader.Driven.readByte {r : FileReader} (h : r.Driven) :
    r.getReadByte = r.appendToBuff.flatten.length := by
  obtain ⟨path, bytes, hread⟩ := h
  rw [hread.holds.flatten]
  exact hread.holds.readByte

/-! ### HTTP -/

/-- A response that is written has its head first, with the number of bytes behind it; the body of
    a file is what a reader has read. -/
def HttpEffect.TellsLength (cfg : HttpConfig) : HttpEffect → Prop
  | .uvWrite _ _ buffers =>
    ∃ (resp : HttpResp) (body : List Bytes),
      buffers = resp.head cfg.headerOrder body.flatten.length :: body ∧
        (resp.sendType = .file →
          ∃ path r bytes, FileReader.HasRead path r bytes ∧ body = r.appendToBuff)
  | _ => True

/-- The readers are driven by their results, a file response has a reader, and every write tells
    its length. -/
structure HttpLengths (cfg : HttpConfig) (s : HttpSession ρ) : Prop where
  readers : ∀ r ∈ s.readers, r.reader.Driven
  answers : ∀ a ∈ s.answers, a.resp.sendType = .file →
    ∃ k, a.resp.reader = some k ∧ k < s.readers.length
  trace : ∀ e ∈ s.trace, e.TellsLength cfg

namespace HttpLengths

theorem accepted (cfg : HttpConfig) (method : HttpMethod) :
    HttpLengths cfg (HttpSession.accepted P method) :=
  ⟨fun r hr => by simp [HttpSession.accepted] at hr,
    fun a ha => by simp [HttpSession.accepted] at ha,
    fun e he => by
      obtain rfl : e = .uvReadStart := by simpa [HttpSession.accepted] using he
      trivial⟩

/-- Nothing is written, and responses and readers stay. -/
theorem of_grows {s s' : HttpSession ρ} (h : HttpLengths cfg s) (hreaders : s'.readers = s.readers)
    (hanswers : s'.answers = s.answers)
    (htrace : Grows (HttpEffect.TellsLength cfg) s.trace s'.trace) : HttpLengths cfg s' := by
  obtain ⟨es, hes, hall⟩ := htrace
  refine ⟨hreaders ▸ h.readers, ?_, fun e he => ?_⟩
  · rw [hanswers, hreaders]
    exact h.answers
  · rw [hes, List.mem_append] at he
    exact he.elim (h.trace e) (hall e)

theorem emit {s : HttpSession ρ} (h : HttpLengths cfg s) {es : List HttpEffect}
    (hes : ∀ e ∈ es, e.TellsLength cfg) : HttpLengths cfg (s.emit es) :=
  h.of_grows rfl rfl (.append _ hes)

theorem connecting {s s' : HttpSession ρ} (h : HttpLengths cfg s) (hc : s.Connecting s') :
    HttpLengths cfg s' := by
  refine h.of_grows hc.readers hc.answers (hc.trace.mono fun e he => ?_)
  cases e with
  | uvWrite ctx i buffers => cases he
  | _ => trivial

/-- A response is changed, and does not become one of a file. -/
theorem onResp {s : HttpSession ρ} (h : HttpLengths cfg s) (i : Nat) {f : HttpResp → HttpResp}
    (hf : ∀ r, (f r).sendType = .file → r.sendType = .file ∧ (f r).reader = r.reader) :
    HttpLengths cfg (s.onResp i f) := by
  refine ⟨h.readers, fun a ha hfile => ?_, h.trace⟩
  obtain ⟨k, hk, rfl⟩ := List.mem_iff_getElem.mp ha
  simp only [HttpSession.onResp, List.getElem_modify] at hfile ⊢
  have hlt : k < s.answers.length := by simpa [HttpSession.onResp] using hk
  have hmem : s.answers[k] ∈ s.answers := List.getElem_mem hlt
  split at hfile
  · obtain ⟨hold, hreader⟩ := hf _ hfile
    rw [if_pos ‹_›, hreader]
    exact h.answers _ hmem hold
  · rw [if_neg ‹_›]
    exact h.answers _ hmem hfile

/-- A response becomes one of something else than a file. -/
theorem onResp_other {s : HttpSession ρ} (h : HttpLengths cfg s) (i : Nat)
    {f : HttpResp → HttpResp} (hf : ∀ r, (f r).sendType ≠ .file) :
    HttpLengths cfg (s.onResp i f) := h.onResp i fun r hr => absurd hr (hf r)

/-- **`httpResp::send` tells the length of what it sends.** -/
theorem buffers_tellLength {s : HttpSession ρ} (h : HttpLengths cfg s) {i : Nat} {a : Answer}
    (ha : s.answers[i]? = some a) (ctx : Nat) :
    (HttpEffect.uvWrite ctx i (a.resp.buffers cfg.headerOrder (s.readerOf a.resp))).TellsLength
      cfg := by
  by_cases hfile : a.resp.sendType = .file
  · obtain ⟨k, hreader, hk⟩ := h.answers a (List.mem_of_getElem? ha) hfile
    have hdriven := h.readers _ (List.getElem_mem hk)
    have hof : s.readerOf a.resp = some s.readers[k].reader := by
      rw [HttpSession.readerOf, hreader, Option.bind_some, List.getElem?_eq_getElem hk]
      rfl
    obtain ⟨path, bytes, hread⟩ := id hdriven
    refine ⟨a.resp, s.readers[k].reader.appendToBuff, ?_, fun _ => ⟨path, _, bytes, hread, rfl⟩⟩
    rw [HttpResp.buffers, if_pos hfile, hof, ← hdriven.readByte]
    rfl
  · refine ⟨a.resp, [a.resp.body], ?_, fun hf => absurd hf hfile⟩
    rw [HttpResp.buffers, if_neg hfile]
    simp

theorem send {s : HttpSession ρ} (h : HttpLengths cfg s) (i : Nat) :
    HttpLengths cfg (s.send cfg i) := by
  refine h.of_grows (HttpSession.send_readers s i) (HttpSession.send_answers s i) ?_
  unfold HttpSession.send
  split
  · exact .refl _ _
  · rename_i a ha
    refine .append _ fun e he => ?_
    rcases List.mem_cons.mp he with rfl | he
    · trivial
    · rw [List.mem_singleton.mp he]
      exact h.buffers_tellLength ha _

/-- The response gets a new reader. -/
theorem sendFile {s : HttpSession ρ} (h : HttpLengths cfg s) (i : Nat) (path : Bytes) :
    HttpLengths cfg (s.sendFile i path) := by
  have hlen : (s.sendFile i path).readers.length = s.readers.length + 1 := by
    simp [HttpSession.sendFile, HttpSession.emit]
  refine ⟨fun r hr => ?_, fun a ha hfile => ?_, fun e he => ?_⟩
  · rcases List.mem_append.mp hr with hr | hr
    · exact h.readers r hr
    · rw [List.mem_singleton.mp hr]
      exact .fileRead path
  · rw [hlen]
    obtain ⟨k, hk, rfl⟩ := List.mem_iff_getElem.mp ha
    have hanswers : (s.sendFile i path).answers =
        s.answers.modify i fun a => { a with resp := a.resp.setFile path s.readers.length } := rfl
    simp only [hanswers, List.getElem_modify] at hfile ⊢
    split at hfile
    · rw [if_pos ‹_›]
      exact ⟨s.readers.length, rfl, Nat.lt_succ_self _⟩
    · rw [if_neg ‹_›]
      obtain ⟨m, hm, hlt⟩ := h.answers _ (List.getElem_mem _) hfile
      exact ⟨m, hm, Nat.lt_succ_of_lt hlt⟩
  · rcases List.mem_append.mp he with he | he
    · exact h.trace e he
    · rcases List.mem_cons.mp he with rfl | he
      · trivial
      · obtain ⟨a, -, rfl⟩ := List.mem_map.mp he
        trivial

theorem call {s : HttpSession ρ} (h : HttpLengths cfg s) (i : Nat) (c : RespCall) :
    HttpLengths cfg (s.call cfg i c) := by
  cases c with
  | setHeader key value =>
    exact h.onResp i (f := (·.setHeader key value)) fun r hr => ⟨hr, rfl⟩
  | setStatus status => exact h.onResp i (f := (·.setStatus status)) fun r hr => ⟨hr, rfl⟩
  | clearContent =>
    exact h.onResp_other i (f := HttpResp.clearContent) (by simp [HttpResp.clearContent])
  | sendStr body =>
    exact (h.onResp_other i (f := (·.setStr body)) (by simp [HttpResp.setStr])).send i
  | sendJson text =>
    exact (h.onResp_other i (f := (·.setJson text)) (by simp [HttpResp.setJson])).send i
  | sendFile path => exact h.sendFile i path

theorem fsAction {s : HttpSession ρ} (h : HttpLengths cfg s) (j i : Nat) (a : FsAction) :
    HttpLengths cfg (HttpSession.fsAction cfg j i s a) := by
  have hfs : HttpLengths cfg (s.emit [.fs j a]) := h.emit (by simp [HttpEffect.TellsLength])
  cases a with
  | onError =>
    have hsent := (hfs.onResp_other i (f := HttpResp.setErr)
      (by simp [HttpResp.setErr, HttpResp.setStr])).send i
    have hdelete : ∀ e ∈ [HttpEffect.deleteReader j], e.TellsLength cfg := by
      simp [HttpEffect.TellsLength]
    exact hsent.emit hdelete
  | onClose => exact hfs.send i
  | fsOpen path => exact hfs
  | fsRead fd len => exact hfs
  | fsClose fd => exact hfs

theorem fsActions {s : HttpSession ρ} (h : HttpLengths cfg s) (j i : Nat) (as : List FsAction) :
    HttpLengths cfg (as.foldl (HttpSession.fsAction cfg j i) s) := by
  induction as generalizing s with
  | nil => exact h
  | cons a as ih => exact ih (h.fsAction j i a)

theorem onEvent {s : HttpSession ρ} (h : HttpLengths cfg s) (e : ReqEvent) :
    HttpLengths cfg (s.onEvent cfg e) := by
  cases e with
  | messageComplete upgrade =>
    have hbegun : HttpLengths cfg (s.begun upgrade) := by
      refine ⟨h.readers, fun a ha hfile => ?_, fun e he => ?_⟩
      · rcases List.mem_append.mp ha with ha | ha
        · exact h.answers a ha hfile
        · rw [List.mem_singleton.mp ha] at hfile
          cases hfile
      · rcases List.mem_append.mp he with he | he
        · exact h.trace e he
        · rw [List.mem_singleton.mp he]
          trivial
    have hreq : ∀ req, HttpLengths cfg { s.begun upgrade with req := req } := fun req =>
      ⟨hbegun.readers, hbegun.answers, hbegun.trace⟩
    show HttpLengths cfg (s.handleRequest cfg upgrade)
    rw [HttpSession.handleRequest_eq]
    split
    · exact ((hreq _).onResp_other _ (f := (·.setUpgrade _))
        (by simp [HttpResp.setUpgrade, HttpResp.setStr])).send _
    · unfold HttpSession.dispatchRequest
      split
      · exact hbegun.of_grows rfl rfl (.append _ (by simp [HttpEffect.TellsLength]))
      · exact ((hreq _).onResp_other _ (f := HttpResp.setNotFound)
          (by simp [HttpResp.setNotFound, HttpResp.setStr])).send _
  | _ => exact ⟨h.readers, h.answers, h.trace⟩

/-- **Every step keeps the invariant.** -/
theorem step {s s' : HttpSession ρ} {l : HttpLabel} (h : HttpLengths cfg s)
    (hs : HttpStep cfg P s l s') : HttpLengths cfg s' := by
  cases hs with
  | call c hu hi => exact h.call _ c
  | setReq req hu => exact ⟨h.readers, h.answers, h.trace⟩
  | ret hst => exact ⟨h.readers, h.answers, h.trace⟩
  | @run e st hst =>
    have hpop : HttpLengths cfg { s with stack := st } := ⟨h.readers, h.answers, h.trace⟩
    exact hpop.onEvent e
  | recv base data hst hr =>
    have hspec := s.recvCb_spec (P := P) base data
    refine h.of_grows hspec.readers hspec.answers ?_
    rw [hspec.trace]
    refine .append _ fun e he => ?_
    split at he
    · simp only [List.mem_cons, List.not_mem_nil, or_false] at he
      rcases he with rfl | rfl <;> trivial
    · rw [List.mem_singleton.mp he]
      trivial
  | recvErr hst hr =>
    exact h.connecting ((HttpSession.Connecting.stopKeepAliveTimer s).trans (.closeSession _ false))
  | timer hst ht =>
    have hdis : HttpLengths cfg { s with timerArmed := false } :=
      ⟨h.readers, h.answers, h.trace⟩
    show HttpLengths cfg (if s.timerData then _ else _)
    split
    · exact hdis.connecting (.closeSession _ false)
    · exact hdis
  | @written w ws a status hst hw ha =>
    have hends := HttpSession.onWriteEnd_ends cfg { s with writes := ws } w a
    obtain ⟨es, hes, htrace⟩ := hends.trace
    refine h.of_grows hends.readers hends.answers ?_
    rw [htrace]
    refine .append _ fun e he => ?_
    simp only [List.mem_append] at he
    rcases he with (he | he) | he
    · split at he
      · obtain ⟨k, -, rfl⟩ := List.mem_map.mp he
        trivial
      · cases he
    · have hconn := hes e he
      cases e with
      | uvWrite ctx i buffers => cases hconn
      | _ => trivial
    · rw [List.mem_singleton.mp he]
      trivial
  | @file j result data r r' as hst hr he =>
    have hset : HttpLengths cfg
        { s with readers := s.readers.set j { r with reader := r' } } := by
      refine ⟨fun x hx => ?_, ?_, h.trace⟩
      · -- the reader that has gone on is driven by one more result
        rcases List.mem_or_eq_of_mem_set hx with hmem | rfl
        · exact h.readers x hmem
        · exact (h.readers r (List.mem_of_getElem? hr)).event he
      · rw [List.length_set]
        exact h.answers
    exact hset.fsActions j r.resp as

end HttpLengths

/-! ### WebSocket -/

/-- A frame that is written has its header first, with the number of bytes behind it. -/
def WsEffect.TellsLength : WsEffect → Prop
  | .uvWrite _ opcode buffers =>
    ∃ (c : WsCode) (payload : List Bytes), opcode = c.code ∧
      buffers = WsSession.sendHeader opcode payload.flatten.length :: payload
  | _ => True

/-- The readers are driven by their results, and every write tells its length. -/
structure WsLengths (s : WsSession) : Prop where
  readers : ∀ r ∈ s.readers, r.Driven
  trace : ∀ e ∈ s.trace, e.TellsLength

namespace WsLengths

/-- The readers stay, and what is written tells its length. -/
theorem of_grows {s s' : WsSession} (h : WsLengths s) (hreaders : s'.readers = s.readers)
    (htrace : Grows WsEffect.TellsLength s.trace s'.trace) : WsLengths s' := by
  obtain ⟨es, hes, hall⟩ := htrace
  refine ⟨hreaders ▸ h.readers, fun e he => ?_⟩
  rw [hes, List.mem_append] at he
  exact he.elim (h.trace e) (hall e)

theorem emit {s : WsSession} (h : WsLengths s) {es : List WsEffect}
    (hes : ∀ e ∈ es, e.TellsLength) : WsLengths (s.emit es) :=
  h.of_grows rfl (.append _ hes)

theorem push {s : WsSession} (h : WsLengths s) (ts : List WsTask) : WsLengths (s.push ts) :=
  ⟨h.readers, h.trace⟩

theorem callback_readers (s : WsSession) (set : Bool) (e : WsEffect) :
    (s.callback set e).readers = s.readers := by
  unfold WsSession.callback
  split <;> rfl

theorem callback {s : WsSession} (h : WsLengths s) (set : Bool) {e : WsEffect}
    (he : e.TellsLength) : WsLengths (s.callback set e) := by
  unfold WsSession.callback
  split
  · exact (h.emit (by simpa using he)).push _
  · exact h

/-- **`WsSession::inter_send` tells the length of what it sends.** -/
theorem interSend {s : WsSession} (h : WsLengths s) (c : WsCode) {n : Nat} {payload : List Bytes}
    (hn : n = payload.flatten.length) : WsLengths (s.interSend c.code n payload) := by
  refine h.of_grows rfl (.append _ fun e he => ?_)
  simp only [List.mem_cons, List.not_mem_nil, or_false] at he
  rcases he with rfl | rfl
  · trivial
  · exact ⟨c, payload, rfl, by rw [hn]⟩

theorem call {s : WsSession} (h : WsLengths s) (c : WsCall) : WsLengths (s.call c) := by
  cases c with
  | close =>
    show WsLengths s.close
    unfold WsSession.close
    split
    · exact h
    · exact h.push _
  | send str => exact h.interSend .text (by simp)
  | sendFile path =>
    refine ⟨fun r hr => ?_, fun e he => ?_⟩
    · rcases List.mem_append.mp hr with hr | hr
      · exact h.readers r hr
      · rw [List.mem_singleton.mp hr]
        exact .fileRead path
    · rcases List.mem_append.mp he with he | he
      · exact h.trace e he
      · rcases List.mem_cons.mp he with rfl | he
        · trivial
        · obtain ⟨a, -, rfl⟩ := List.mem_map.mp he
          trivial
  | _ => exact ⟨h.readers, h.trace⟩

theorem runTask {s : WsSession} (h : WsLengths s) (t : WsTask) : WsLengths (s.runTask t) := by
  cases t with
  | user => exact h
  | connect =>
    refine h.of_grows (callback_readers _ _ _) ?_
    show Grows _ _ s.connect.trace
    rw [WsSession.connect_trace]
    apply Grows.append
    split <;> simp [WsEffect.TellsLength]
  | interClose =>
    refine h.of_grows (callback_readers _ _ _) ?_
    show Grows _ _ s.interClose.trace
    rw [WsSession.interClose_trace]
    apply Grows.append
    split <;> simp [WsEffect.TellsLength]
  | removeWsSession => exact h.of_grows rfl (.append _ (by simp [WsEffect.TellsLength]))
  | handleWsFrame frame =>
    show WsLengths (s.handleWsFrame frame)
    unfold WsSession.handleWsFrame
    split
    · exact (h.push _).callback _ trivial
    · split
      · exact h
      · split
        · exact h.interSend .pong (by simp)
        · split
          · exact h.push _
          · exact h.callback _ trivial
  | parsed err =>
    show WsLengths (s.parsed err)
    unfold WsSession.parsed
    split
    · exact (h.push _).callback _ trivial
    · exact h
  | deleteCtx ctx => exact h.emit (by simp [WsEffect.TellsLength])

theorem fsAction {s : WsSession} (h : WsLengths s) (i : Nat) {r : FileReader} (hr : r.Driven)
    (a : FsAction) : WsLengths (WsSession.fsAction i r s a) := by
  have hfs : WsLengths (s.emit [.fs i a]) := h.emit (by simp [WsEffect.TellsLength])
  cases a with
  | onError => exact hfs.emit (by simp [WsEffect.TellsLength])
  | onClose => exact hfs.interSend .text hr.readByte
  | fsOpen path => exact hfs
  | fsRead fd len => exact hfs
  | fsClose fd => exact hfs

theorem fsActions {s : WsSession} (h : WsLengths s) (i : Nat) {r : FileReader} (hr : r.Driven)
    (as : List FsAction) : WsLengths (as.foldl (WsSession.fsAction i r) s) := by
  induction as generalizing s with
  | nil => exact h
  | cons a as ih => exact ih (h.fsAction i hr a)

/-- **Every step keeps the invariant.** -/
theorem step {s s' : WsSession} {l : WsLabel} (h : WsLengths s) (hs : WsStep s l s') :
    WsLengths s' := by
  cases hs with
  | call c hu => exact h.call c
  | ret hst => exact ⟨h.readers, h.trace⟩
  | @run t st hst ht =>
    have hpop : WsLengths { s with stack := st } := ⟨h.readers, h.trace⟩
    exact hpop.runTask t
  | recv hst hr hs =>
    rcases WsSession.recvCb_cases hs with rfl | ⟨-, r, -, rfl⟩
    · exact h
    · exact ⟨h.readers, h.trace⟩
  | recvErr hst hr => exact ⟨h.readers, h.trace⟩
  | @written ctx ws status hst hw =>
    have hpop : WsLengths { s with writes := ws } := ⟨h.readers, h.trace⟩
    unfold WsSession.written
    split
    · exact (hpop.push _).callback _ trivial
    · exact hpop.push _
  | @file i result data r r' as hst hr he =>
    have hdriven := (h.readers r (List.mem_of_getElem? hr)).event he
    have hset : WsLengths { s with readers := s.readers.set i r' } := by
      refine ⟨fun x hx => ?_, h.trace⟩
      rcases List.mem_or_eq_of_mem_set hx with hmem | rfl
      · exact h.readers x hmem
      · exact hdriven
    exact hset.fsActions i hdriven as

end WsLengths

/-! ### Runs -/

end MyWebSocket
