import MyWebSocket.Parser.Delivery
import MyWebSocket.Parser.Decoding
import MyWebSocket.WebSocket.Masking

namespace MyWebSocket

open Log Transducer Transducer.Outcome

/-!
# PING and PONG

RFC 6455 wants a PONG with the same payload for every PING.  `sendPong` sends an empty one, when
the frame record of the PING is handled.

* `arrived` — the frames of a stream of which the last byte has come;
* `RespectsPings` — the streams in question: legal ones, all frames masked, no PING inside a
  fragmented message;
* `pongs_trace` — in every run, one empty PONG for each PING record that has been handled;
* `frameSteps_pings` — one PING record for each PING frame;
* `pongs_iff` — so the PONGs are what the PINGs ask for if and only if these are empty, the
  received bytes do not end with one, and none stands behind a frame that is refused.
-/

/-! ### What is asked for -/

/-- A PING. -/
def Frame.isPing (f : Frame) : Bool := UInt8.ofNat f.opcode == WsCode.ping.code

/-- The frames of which all bytes are among the first `n`. -/
def arrived : List Frame → Nat → List Frame
  | [], _ => []
  | f :: fs, n =>
    if (encodeFrame f).length ≤ n then f :: arrived fs (n - (encodeFrame f).length) else []

/-- The bytes of a PONG with the given payload, at most 125 bytes. -/
def pongBytes (payload : List UInt8) : List UInt8 :=
  headByte true 0 0xA :: lenByte false payload.length :: payload

/-- A legal stream of masked frames in which no PING comes while a message is open. -/
def RespectsPings : Bool → List Frame → Prop
  | _, [] => True
  | isOpen, f :: fs =>
    Rfc.Allowed isOpen f ∧ f.key.isSome = true ∧ ¬ (isOpen = true ∧ f.isPing = true) ∧
      RespectsPings (Rfc.opens isOpen f) fs

instance : ∀ (isOpen : Bool) (fs : List Frame), Decidable (RespectsPings isOpen fs)
  | _, [] => inferInstanceAs (Decidable True)
  | isOpen, f :: fs =>
    have : Decidable (RespectsPings (Rfc.opens isOpen f) fs) :=
      instDecidableRespectsPings (Rfc.opens isOpen f) fs
    inferInstanceAs (Decidable (_ ∧ _ ∧ _ ∧ RespectsPings (Rfc.opens isOpen f) fs))

/-- The PONGs the frames ask for. -/
def pongsFor (fs : List Frame) : List (List UInt8) :=
  (fs.filter Frame.isPing).map fun f => pongBytes f.payload

/-- They are the bytes of unmasked PONG frames with these payloads. -/
theorem pongBytes_eq {payload : List UInt8} (h : payload.length ≤ 125) :
    ∃ g : Frame, g.fin = true ∧ UInt8.ofNat g.opcode = WsCode.pong.code ∧ g.key = none ∧
      g.payload = payload ∧ encodeFrame g = pongBytes payload :=
  ⟨{ fin := true, rsv := 0, opcode := 0xA, key := none, form := .len7, payload := payload,
     holds := h }, rfl, rfl, rfl, rfl, rfl⟩

theorem isControl_of_isPing {f : Frame} (h : f.isPing = true) : Rfc.isControl f.opcode = true := by
  have hop : (UInt8.ofNat f.opcode == WsCode.ping.code) = true := h
  rw [Rfc.isControl, hop, Bool.or_true, Bool.true_or]

/-! ### The PONGs of a run -/

/-- The bytes of a PONG that is handed to `uv_write`. -/
def WsEffect.pong : WsEffect → Option (List UInt8)
  | .uvWrite _ opcode buffers => if opcode = WsCode.pong.code then some buffers.flatten else none
  | _ => none

/-- The PONGs of a trace. -/
def pongs (t : List WsEffect) : List (List UInt8) := t.filterMap WsEffect.pong

/-- The record makes `handleWsFrame` send a PONG. -/
def WsFrame.asksPong (f : WsFrame) : Bool := f.mask && f.opcode == WsCode.ping.code

theorem pongs_append (t u : List WsEffect) : pongs (t ++ u) = pongs t ++ pongs u :=
  List.filterMap_append

theorem WsEffect.pong_of_byFrame {e : WsEffect} (h : e.byFrame = false) : e.pong = none := by
  cases e with
  | uvWrite ctx opcode buffers =>
    have hne : (opcode == WsCode.pong.code) = false := h
    simp [WsEffect.pong, beq_eq_false_iff_ne.mp hne]
  | _ => rfl

/-- Effects that are not caused by a frame are no PONGs. -/
theorem pongs_grows {t u : List WsEffect} (h : Grows WsEffect.Neutral t u) :
    pongs u = pongs t := by
  obtain ⟨es, rfl, hes⟩ := h
  have hnil : pongs es = [] := by
    rw [pongs, List.filterMap_eq_nil_iff]
    exact fun e he => WsEffect.pong_of_byFrame (hes e he).2
  rw [pongs_append, hnil, List.append_nil]

theorem pongs_callback (s : WsSession) (set : Bool) {e : WsEffect} (he : e.pong = none) :
    pongs (s.callback set e).trace = pongs s.trace := by
  rw [WsSession.callback_trace, pongs_append]
  cases set <;> simp [pongs, he]

theorem pongs_handleWsFrame (s : WsSession) (frame : WsFrame) :
    pongs (s.handleWsFrame frame).trace =
      pongs s.trace ++ if frame.asksPong then [pongBytes []] else [] := by
  rcases hmask : frame.mask with _ | _
  · -- an unmasked frame is refused
    simp only [WsSession.handleWsFrame, hmask, WsFrame.asksPong, Bool.not_false, if_true,
      Bool.false_and, Bool.false_eq_true, if_false, List.append_nil]
    exact pongs_callback _ _ rfl
  · by_cases hping : frame.opcode = WsCode.ping.code
    · have hdo : s.handleWsFrame frame = s.sendPong := by
        rw [WsSession.handleWsFrame, hmask, hping]
        rfl
      have hasks : frame.asksPong = true := by
        rw [WsFrame.asksPong, hmask, hping]
        rfl
      rw [hdo, hasks, if_pos rfl]
      exact pongs_append _ _
    · have hasks : frame.asksPong = false := by
        rw [WsFrame.asksPong, hmask, Bool.true_and, beq_eq_false_iff_ne]
        exact hping
      rw [hasks, WsSession.handleWsFrame, hmask]
      simp only [Bool.not_true, Bool.false_eq_true, if_false, if_neg hping, List.append_nil]
      split
      · rfl
      · split
        · rfl
        · exact pongs_callback _ _ rfl

theorem pongs_runTask (s : WsSession) {t : WsTask} (ht : t.frame = none) :
    pongs (s.runTask t).trace = pongs s.trace := by
  cases t with
  | handleWsFrame frame => cases ht
  | user => rfl
  | connect =>
    show pongs s.connect.trace = _
    rw [WsSession.connect_trace, pongs_append]
    cases s.callbacks.onConnect <;> simp [pongs, WsEffect.pong]
  | interClose =>
    show pongs s.interClose.trace = _
    rw [WsSession.interClose_trace, pongs_append]
    cases s.callbacks.onClose <;> simp [pongs, WsEffect.pong]
  | removeWsSession =>
    show pongs (s.trace ++ [.removeWsSession]) = _
    simp [pongs, WsEffect.pong]
  | parsed err =>
    show pongs (s.parsed err).trace = _
    unfold WsSession.parsed
    split
    · exact pongs_callback _ _ rfl
    · rfl
  | deleteCtx ctx =>
    show pongs (s.trace ++ [.deleteCtx ctx]) = _
    simp [pongs, WsEffect.pong]

/-- **One step**: a PONG, and an empty one, if a PING record is handled. -/
theorem WsStep.pongs {s s' : WsSession} {l : WsLabel} (h : WsStep s l s') :
    MyWebSocket.pongs s'.trace = MyWebSocket.pongs s.trace ++
      ((s.handling l).toList.filter WsFrame.asksPong).map fun _ => pongBytes [] := by
  cases h with
  | call c hu =>
    show _ = _ ++ []
    rw [List.append_nil]
    by_cases hc : c = .close
    · subst hc
      show MyWebSocket.pongs s.close.trace = _
      unfold WsSession.close
      split <;> rfl
    · exact pongs_grows (WsSession.Background.call s hc).trace
  | ret hst => exact (List.append_nil _).symm
  | @run t st hst ht =>
    have hhandling : s.handling .run = t.frame := by
      rw [WsSession.handling, hst]
      cases t <;> rfl
    rw [hhandling]
    cases hframe : t.frame with
    | none =>
      show _ = _ ++ []
      rw [List.append_nil, pongs_runTask _ hframe]
    | some frame =>
      obtain rfl : t = .handleWsFrame frame := by
        cases t <;> simp_all [WsTask.frame]
      show MyWebSocket.pongs (WsSession.handleWsFrame _ frame).trace = _
      rw [pongs_handleWsFrame]
      congr 1
      cases hasks : frame.asksPong <;> simp [hasks]
  | recv hst hr hs =>
    show _ = _ ++ []
    rw [List.append_nil]
    rcases WsSession.recvCb_cases hs with rfl | ⟨-, r, -, rfl⟩ <;> rfl
  | recvErr hst hr => exact (List.append_nil _).symm
  | written hst hw =>
    show _ = _ ++ []
    rw [List.append_nil]
    unfold WsSession.written
    split
    · exact pongs_callback _ _ rfl
    · rfl
  | file hst hr he =>
    show _ = _ ++ []
    rw [List.append_nil]
    exact pongs_grows (WsSession.Background.fsActions _ _ s _ _).trace

/-- **The PONGs of a run**: one for each PING record that has been handled, all of them empty. -/
theorem pongs_trace {serverCallback : Bool} {ls : List WsLabel} {x : WsSession × Reception}
    (h : wsReceiving.exec (fresh serverCallback) ls = some x) :
    pongs x.1.trace = (x.2.handled.filter WsFrame.asksPong).map fun _ => pongBytes [] := by
  refine wsReceiving.exec_invariant (I := fun x : WsSession × Reception =>
    pongs x.1.trace = (x.2.handled.filter WsFrame.asksPong).map fun _ => pongBytes []) ?_ rfl h
  intro x l x' hI hs
  obtain ⟨hstep, hnote⟩ := wsMachine.noting_step_eq_some.mp hs
  rw [(WsSession.step_cases hstep).pongs, hI, hnote, Reception.note, List.filter_append,
    List.map_append]

/-! ### The PINGs the parser reports -/

/-- The parser while a legal stream is read: outside a message it continues none, and inside one
    the record shows no PING. -/
structure Follows (isOpen : Bool) (s : ParseState) : Prop where
  outside : isOpen = false → s.parser.isContinuation = false
  inside : isOpen = true → s.frame.opcode ≠ WsCode.ping.code

/-- One frame is reported as a PING if and only if it is one. -/
theorem Follows.step {isOpen : Bool} {s : ParseState} (h : Follows isOpen s) {f : Frame}
    (hf : Rfc.Allowed isOpen f) (hkey : f.key.isSome = true)
    (hping : ¬ (isOpen = true ∧ f.isPing = true)) :
    Follows (Rfc.opens isOpen f) (frameStep s f).1 ∧
      (frameStep s f).2.countP WsFrame.asksPong = [f].countP Frame.isPing := by
  obtain ⟨-, hkind⟩ := hf
  have hcont : (frameStep s f).1.parser.isContinuation = !f.fin := rfl
  have hrecord : (frameStep s f).1.frame.opcode =
      if starts s f.opcode then UInt8.ofNat f.opcode else s.frame.opcode := rfl
  have hcount : (frameStep s f).2.countP WsFrame.asksPong =
      if f.fin = true ∧ (frameStep s f).1.frame.opcode = WsCode.ping.code then 1 else 0 := by
    have hasks : (completed s f).asksPong =
        ((frameStep s f).1.frame.opcode == WsCode.ping.code) := by
      show (f.key.isSome && _) = _
      rw [hkey, Bool.true_and]
      rfl
    show (if f.fin then [completed s f] else []).countP _ = _
    rcases hfin : f.fin with _ | _
    · simp
    · simp [hasks]
  by_cases hctl : Rfc.isControl f.opcode = true
  · -- a control frame is final and changes nothing outside
    rw [if_pos hctl] at hkind
    have hopens : Rfc.opens isOpen f = isOpen := if_pos hctl
    rw [hopens]
    rcases isOpen with _ | _
    · have hstarts : starts s f.opcode = true := by
        simp [starts, h.outside rfl, (ofNat_ne_of_isControl hctl).1]
      rw [hstarts, if_pos rfl] at hrecord
      refine ⟨⟨fun _ => by rw [hcont, hkind.1]; rfl, fun h => absurd h (by simp)⟩, ?_⟩
      rw [hcount, hrecord]
      simp [hkind.1, Frame.isPing]
    · have hno : f.isPing = false := by
        rw [Bool.eq_false_iff]
        exact fun hp => hping ⟨rfl, hp⟩
      have hne : (frameStep s f).1.frame.opcode ≠ WsCode.ping.code := by
        rw [hrecord]
        split
        · exact beq_eq_false_iff_ne.mp hno
        · exact h.inside rfl
      refine ⟨⟨fun h => absurd h (by simp), fun _ => hne⟩, ?_⟩
      rw [hcount, if_neg fun hp => hne hp.2]
      simp [hno]
  · rw [if_neg hctl] at hkind
    have hopens : Rfc.opens isOpen f = !f.fin := if_neg hctl
    have hno : f.isPing = false := by
      rw [Bool.eq_false_iff]
      exact fun hp => hctl (isControl_of_isPing hp)
    have hne : (frameStep s f).1.frame.opcode ≠ WsCode.ping.code := by
      rw [hrecord]
      rcases isOpen with _ | _
      · -- a data frame starts the record afresh
        have hdata : Rfc.isData f.opcode = true := by simpa using hkind
        have hstarts : starts s f.opcode = true := by
          simp [starts, h.outside rfl, (ofNat_ne_of_isData hdata).1]
        rw [hstarts, if_pos rfl]
        exact beq_eq_false_iff_ne.mp hno
      · -- a continuation does not touch it
        have hcontinues : UInt8.ofNat f.opcode = WsCode.continuation.code := by simpa using hkind
        have hzero : UInt8.ofNat f.opcode = 0 := hcontinues
        have hstarts : starts s f.opcode = false := by simp [starts, hzero]
        rw [hstarts, if_neg Bool.false_ne_true]
        exact h.inside rfl
    rw [hopens]
    refine ⟨⟨fun h => by rw [hcont, h], fun _ => hne⟩, ?_⟩
    rw [hcount, if_neg fun hp => hne hp.2]
    simp [hno]

/-- **One PING record for each PING.** -/
theorem frameSteps_pings {isOpen : Bool} {s : ParseState} (h : Follows isOpen s)
    {fs rest : List Frame} (hfs : RespectsPings isOpen (fs ++ rest)) :
    (frameSteps s fs).2.countP WsFrame.asksPong = fs.countP Frame.isPing := by
  induction fs generalizing isOpen s with
  | nil => rfl
  | cons f fs ih =>
    obtain ⟨hallowed, hkey, hping, hrest⟩ := hfs
    obtain ⟨hnext, hcount⟩ := h.step hallowed hkey hping
    show ((frameStep s f).2 ++ (frameSteps (frameStep s f).1 fs).2).countP _ = _
    rw [List.countP_append, hcount, ih hnext hrest, ← List.countP_append, List.singleton_append]

theorem RespectsPings.of_append {isOpen : Bool} {fs rest : List Frame}
    (h : RespectsPings isOpen (fs ++ rest)) : ∃ isOpen', RespectsPings isOpen' rest := by
  induction fs generalizing isOpen with
  | nil => exact ⟨isOpen, h⟩
  | cons f fs ih => exact ih h.2.2.2

/-! ### The frames that have arrived -/

theorem arrived_append (fs rest : List Frame) (n : Nat) :
    arrived (fs ++ rest) ((encodeFrames fs).length + n) = fs ++ arrived rest n := by
  induction fs with
  | nil => simp [encodeFrames]
  | cons f fs ih =>
    have hlen : (encodeFrames (f :: fs)).length =
        (encodeFrame f).length + (encodeFrames fs).length := List.length_append
    have hsub : (encodeFrames (f :: fs)).length + n - (encodeFrame f).length =
        (encodeFrames fs).length + n := by omega
    rw [List.cons_append, arrived, if_pos (by omega), hsub, ih]
    rfl

theorem arrived_zero (fs : List Frame) : arrived fs 0 = [] := by
  cases fs with
  | nil => rfl
  | cons f fs =>
    have hpos : 0 < (encodeFrame f).length := List.length_pos_of_ne_nil (encodeFrame_ne_nil f)
    rw [arrived, if_neg (by omega)]

/-- Frames at the start of a part of a stream are the first ones of the stream. -/
theorem frames_of_prefix {pre fs : List Frame} {tail : List UInt8}
    (h : encodeFrames pre ++ tail <+: encodeFrames fs) :
    ∃ rest, fs = pre ++ rest ∧ tail <+: encodeFrames rest := by
  obtain ⟨q, hq⟩ := h
  rw [List.append_assoc] at hq
  induction pre generalizing fs with
  | nil => exact ⟨fs, rfl, q, hq⟩
  | cons g pre ih =>
    cases fs with
    | nil => simp [encodeFrames, encodeFrame_ne_nil] at hq
    | cons f fs =>
      have henc : encodeFrame g ++ (encodeFrames pre ++ (tail ++ q)) =
          encodeFrame f ++ encodeFrames fs := by
        rw [← List.append_assoc]
        exact hq
      obtain ⟨rfl, hrest⟩ := encodeFrame_append_inj henc
      obtain ⟨rest, rfl, htail⟩ := ih hrest
      exact ⟨rest, rfl, htail⟩

/-- Of an unfinished frame nothing has arrived, unless it is empty and has arrived as a whole. -/
theorem arrived_unfinished {rest : List Frame} {tail : List UInt8} (h : Unfinished tail)
    (htail : tail <+: encodeFrames rest) :
    arrived rest tail.length = [] ∨
      ∃ f, arrived rest tail.length = [f] ∧ f.payload = [] ∧ tail = encodeFrame f := by
  cases rest with
  | nil => exact .inl rfl
  | cons f rest =>
    by_cases hle : (encodeFrame f).length ≤ tail.length
    · have hhead : encodeFrame f <+: tail :=
        List.prefix_of_prefix_length_le (List.prefix_append _ _) htail hle
      obtain ⟨more, rfl⟩ := hhead
      -- the header is complete, so it is that of the unfinished frame
      obtain ⟨rfl, hnil⟩ : more = [] ∧ f.wirePayload = [] := by
        rcases h with ⟨hd, q, hq⟩ | ⟨hd, part, hpart, hlt, -⟩
        · have henc : encodeHeader f.header ++ (f.wirePayload ++ (more ++ q)) =
              encodeHeader hd ++ [] := by
            rw [List.append_nil, ← hq]
            simp [encodeFrame]
          have hnil := (encodeHeader_append_inj henc).2
          simp only [List.append_eq_nil_iff] at hnil
          exact ⟨hnil.2.1, hnil.1⟩
        · have henc : encodeHeader f.header ++ (f.wirePayload ++ more) =
              encodeHeader hd ++ part := by
            rw [← hpart]
            simp [encodeFrame]
          obtain ⟨rfl, rfl⟩ := encodeHeader_append_inj henc
          have hlen : f.header.len = f.payload.length := rfl
          rw [List.length_append, wirePayload_length, hlen] at hlt
          omega
      refine .inr ⟨f, ?_, ?_, List.append_nil _⟩
      · rw [List.append_nil, arrived, if_pos (Nat.le_refl _), Nat.sub_self, arrived_zero]
      · apply List.eq_nil_of_length_eq_zero
        rw [← wirePayload_length, hnil]
        rfl
    · exact .inl (if_neg hle)

/-- What has arrived of a stream with a refused frame in front is this frame and what is behind
    it, or nothing. -/
theorem arrived_oversized {rest : List Frame} {tail : List UInt8} (h : Oversized tail)
    (htail : tail <+: encodeFrames rest) :
    arrived rest tail.length = [] ∨
      ∃ f more, arrived rest tail.length = f :: more ∧ limitPayloadLen < f.payload.length := by
  obtain ⟨hd, b, r, rfl, hover⟩ := h
  cases rest with
  | nil => exact .inl rfl
  | cons f rest =>
    by_cases hle : (encodeFrame f).length ≤ (encodeHeader hd ++ b :: r).length
    · obtain ⟨q, hq⟩ := htail
      have henc : encodeHeader hd ++ (b :: r ++ q) =
          encodeHeader f.header ++ (f.wirePayload ++ encodeFrames rest) := by
        rw [← List.append_assoc, hq, ← List.append_assoc]
        rfl
      obtain ⟨rfl, -⟩ := encodeHeader_append_inj henc
      exact .inr ⟨f, _, if_pos hle, hover⟩
    · exact .inl (if_neg hle)

/-! ### The PONGs asked for -/

/-- The PINGs that have arrived are empty, the bytes do not end with one, and none comes behind a
    frame that is refused. -/
structure Answerable (bs : List UInt8) (fs : List Frame) : Prop where
  empty : ∀ f ∈ fs, f.isPing = true → f.payload = []
  followed : bs = encodeFrames fs → ∀ f, fs.getLast? = some f → f.isPing = false
  unrefused : ∀ pre f post, fs = pre ++ f :: post → limitPayloadLen < f.payload.length →
    ∀ g ∈ post, g.isPing = false

/-- As many empty PONGs as there are PINGs in `fs` answer `fs ++ more` only if the PINGs are all in
    `fs`, and empty. -/
theorem replicate_eq_pongsFor_iff (fs more : List Frame) :
    List.replicate (fs.countP Frame.isPing) (pongBytes []) = pongsFor (fs ++ more) ↔
      (∀ f ∈ fs ++ more, f.isPing = true → f.payload = []) ∧ ∀ f ∈ more, f.isPing = false := by
  have hlen : (pongsFor (fs ++ more)).length =
      fs.countP Frame.isPing + more.countP Frame.isPing := by
    rw [pongsFor, List.length_map, ← List.countP_eq_length_filter, List.countP_append]
  have hnone : more.countP Frame.isPing = 0 ↔ ∀ f ∈ more, f.isPing = false := by
    simp [List.countP_eq_zero]
  rw [← hnone, eq_comm, List.eq_replicate_iff, hlen]
  have hall : (∀ b ∈ pongsFor (fs ++ more), b = pongBytes []) ↔
      ∀ f ∈ fs ++ more, f.isPing = true → f.payload = [] := by
    simp only [pongsFor, List.mem_map, List.mem_filter]
    constructor
    · intro h f hf hping
      have hbytes := h _ ⟨f, ⟨hf, hping⟩, rfl⟩
      exact (List.cons.inj (List.cons.inj hbytes).2).2
    · rintro h b ⟨f, ⟨hf, hping⟩, rfl⟩
      rw [h f hf hping]
  rw [hall]
  constructor
  · rintro ⟨hcount, hempty⟩
    exact ⟨hempty, by omega⟩
  · rintro ⟨hempty, hcount⟩
    exact ⟨by omega, hempty⟩

/-- A frame beyond the limit in a legal stream is no PING. -/
theorem RespectsPings.not_ping_of_over {isOpen : Bool} {f : Frame} {fs : List Frame}
    (h : RespectsPings isOpen (f :: fs)) (hover : limitPayloadLen < f.payload.length) :
    f.isPing = false := by
  rw [Bool.eq_false_iff]
  intro hping
  obtain ⟨⟨-, hkind⟩, -⟩ := h
  rw [if_pos (isControl_of_isPing hping)] at hkind
  have hlimit : (125 : Nat) ≤ limitPayloadLen := by decide
  omega

/-- A frame of `fs ++ more` that is refused is one of `more`, and so is what is behind it. -/
theorem mem_of_refused {fs more pre post : List Frame} {f g : Frame}
    (hlim : ∀ f ∈ fs, f.payload.length ≤ limitPayloadLen) (h : fs ++ more = pre ++ f :: post)
    (hover : limitPayloadLen < f.payload.length) (hg : g ∈ post) : g ∈ more := by
  rcases List.append_eq_append_iff.mp h with ⟨us, rfl, hmore⟩ | ⟨us, rfl, hcons⟩
  · rw [hmore]
    exact List.mem_append_right _ (List.mem_cons_of_mem _ hg)
  · cases us with
    | nil =>
      rw [List.nil_append] at hcons
      rw [← hcons]
      exact List.mem_cons_of_mem _ hg
    | cons u us =>
      -- the refused frame would be one of those within the limit
      obtain ⟨rfl, -⟩ := List.cons.inj hcons
      have hle := hlim f (by simp)
      omega

/-- What the split of a stream says about the PINGs that have arrived. -/
theorem answerable_iff {bs tail : List UInt8} {fs rest : List Frame}
    (hsplit : FramesThen bs fs tail) (hkind : Unfinished tail ∨ Oversized tail)
    (hlast : tail = [] → ∀ f, fs.getLast? = some f → f.payload ≠ []) {isOpen : Bool}
    (hrest : RespectsPings isOpen rest) (htail : tail <+: encodeFrames rest) :
    Answerable bs (fs ++ arrived rest tail.length) ↔
      (∀ f ∈ fs ++ arrived rest tail.length, f.isPing = true → f.payload = []) ∧
        ∀ f ∈ arrived rest tail.length, f.isPing = false := by
  obtain ⟨rfl, hlim⟩ := hsplit
  have hflat : ∀ more, encodeFrames fs ++ tail = encodeFrames (fs ++ more) ↔
      tail = encodeFrames more := by
    intro more
    have happend : encodeFrames (fs ++ more) = encodeFrames fs ++ encodeFrames more := by
      simp [encodeFrames]
    rw [happend, List.append_cancel_left_eq]
  constructor
  · intro h
    refine ⟨h.empty, ?_⟩
    rcases hkind with hkind | hkind
    · rcases arrived_unfinished hkind htail with hnil | ⟨f, hone, -, hbytes⟩
      · rw [hnil]
        simp
      · -- the whole empty frame at the end is the last one
        have hping := h.followed
        rw [hone] at hping ⊢
        have hf := hping ((hflat [f]).mpr (by rw [hbytes]; simp [encodeFrames])) f (by simp)
        simpa using hf
    · rcases arrived_oversized hkind htail with hnil | ⟨f, more, hall, hover⟩
      · rw [hnil]
        simp
      · have hfirst : f.isPing = false := by
          cases rest with
          | nil => cases hall
          | cons g rest =>
            have hg : f = g := by
              rw [arrived] at hall
              split at hall
              · exact (List.cons.inj hall).1.symm
              · cases hall
            subst hg
            exact hrest.not_ping_of_over hover
        have hbehind := h.unrefused fs f more (by rw [hall]) hover
        rw [hall]
        intro g hg
        rcases List.mem_cons.mp hg with rfl | hg
        · exact hfirst
        · exact hbehind g hg
  · rintro ⟨hempty, hnone⟩
    refine ⟨hempty, ?_, ?_⟩
    · intro hbytes f hf
      rw [hflat] at hbytes
      -- the last frame is one of the frames read, or has arrived behind them
      rcases List.eq_nil_or_concat (arrived rest tail.length) with hnil | ⟨init, g, hconcat⟩
      · rw [hnil] at hbytes hf
        rw [List.append_nil] at hf
        have hne := hlast hbytes f hf
        rw [Bool.eq_false_iff]
        intro hping
        exact hne (hempty f (List.mem_append_left _ (List.mem_of_getLast? hf)) hping)
      · rw [hconcat] at hf hnone
        have hg : g = f := by simpa using hf
        subst hg
        exact hnone g (by simp)
    · intro pre f post hcut hover g hg
      exact hnone g (mem_of_refused hlim hcut hover hg)

/-- **PING and PONG.**  In every run of a session that receives a legal stream of masked frames, in
    any chunks, with no PING inside a fragmented message: when everything received has been
    handled, the PONGs written are those the PINGs received ask for if and only if these are all
    empty, the bytes received do not end with one, and none comes behind a frame that is
    refused. -/
theorem pongs_iff {serverCallback : Bool} {ls : List WsLabel} {x : WsSession × Reception}
    (h : wsReceiving.exec (fresh serverCallback) ls = some x) (hquiet : x.1.stack = [])
    {all : List Frame} (hall : RespectsPings false all) (hbytes : x.2.bytes <+: encodeFrames all) :
    pongs x.1.trace = pongsFor (arrived all x.2.bytes.length) ↔
      Answerable x.2.bytes (arrived all x.2.bytes.length) := by
  have hreceiving : Receiving x :=
    wsReceiving.exec_invariant (fun _ _ _ hI hs => hI.step hs) (Receiving.fresh serverCallback) h
  obtain ⟨fs, tail, hsplit, hkind, hlast⟩ := exists_frames x.2.bytes
  obtain ⟨rest, rfl, htail⟩ := frames_of_prefix (by rw [← hsplit.1]; exact hbytes)
  obtain ⟨isOpen, hrest⟩ := hall.of_append
  -- the records handled are the firings on the frames read
  have hhandled : x.2.handled = (frameSteps (.init .init) fs).2 := by
    have hout := hreceiving.received.out
    rw [WsSession.frames, hquiet] at hout
    rw [← List.append_nil x.2.handled]
    refine hout.trans ?_
    rcases hkind with hkind | ⟨hd, b, r, rfl, hover⟩
    · obtain ⟨-, hnone⟩ := run_unfinished (frameSteps_idle (Idle.init .init) fs) hkind
      rw [run_framesThen (Idle.init .init) hsplit hlast, andThen_of_none rfl]
      show (frameSteps _ fs).2 ++ (byteMachine.run (frameSteps _ fs).1 tail).out = _
      rw [hnone, List.append_nil]
    · rw [run_oversized (Idle.init .init) hsplit hover]
  have hfollows : Follows false (.init .init) := ⟨fun _ => rfl, fun h => absurd h (by simp)⟩
  have hpongs : pongs x.1.trace = List.replicate (fs.countP Frame.isPing) (pongBytes []) := by
    rw [pongs_trace h, hhandled, List.map_const', ← List.countP_eq_length_filter,
      frameSteps_pings hfollows hall]
  have hlen : x.2.bytes.length = (encodeFrames fs).length + tail.length := by
    rw [hsplit.1, List.length_append]
  rw [hpongs, hlen, arrived_append, answerable_iff hsplit hkind hlast hrest htail,
    replicate_eq_pongsFor_iff]

/-- The PING "p" is received. -/
def pingReceived : List WsLabel := [.run, .recv true (encodeFrames [pingFrame]), .run, .run]

/-- It is answered with an empty PONG. -/
theorem pingFrame_unechoed :
    RespectsPings false [pingFrame] ∧
      ∃ x, wsReceiving.exec (fresh false) pingReceived = some x ∧ x.1.stack = [] ∧
        x.2.bytes = encodeFrames [pingFrame] ∧ pongs x.1.trace = [[0x8A, 0]] ∧
        pongsFor (arrived [pingFrame] x.2.bytes.length) = [[0x8A, 1, 0x70]] :=
  ⟨by decide, _, rfl, rfl, by decide, by decide, by decide⟩

/-- Two empty PINGs and the first byte of a third frame, cut in the second PING. -/
def pingsReceived : List WsLabel :=
  [.run, .recv true [0x89, 0x80, 1, 2, 3, 4, 0x89, 0x80], .run, .run,
    .recv true [1, 2, 3, 4, 0x81], .run, .run]

/-- These frames, the third one being a text. -/
def pingsThenText : List Frame :=
  [emptyPing, emptyPing, .ofByte true 1 (some (maskingKey 1 2 3 4)) 0x41]

/-- Both PINGs are answered. -/
theorem pongs_iff_empty :
    ∃ x, wsReceiving.exec (fresh false) pingsReceived = some x ∧
      pongs x.1.trace = pongsFor (arrived pingsThenText x.2.bytes.length) := by
  obtain ⟨x, hx, hquiet, hbytes⟩ : ∃ x, wsReceiving.exec (fresh false) pingsReceived = some x ∧
      x.1.stack = [] ∧
      x.2.bytes = [0x89, 0x80, 1, 2, 3, 4, 0x89, 0x80, 1, 2, 3, 4, 0x81] :=
    ⟨_, rfl, rfl, rfl⟩
  have hstream : x.2.bytes <+: encodeFrames pingsThenText := by
    rw [hbytes]
    exact ⟨[0x81, 1, 2, 3, 4, 0x40], by decide⟩
  have harrived : arrived pingsThenText x.2.bytes.length = [emptyPing, emptyPing] := by
    rw [hbytes]
    decide
  refine ⟨x, hx, (pongs_iff hx hquiet (by decide) hstream).mpr ?_⟩
  rw [harrived, hbytes]
  refine ⟨by decide, ?_, ?_⟩
  · intro h
    exact absurd h (by decide)
  · intro pre f post hcut hover
    -- both frames are empty
    have hmem : f ∈ [emptyPing, emptyPing] := by
      rw [hcut]
      simp
    have hempty : f.payload = [] := by
      rcases List.mem_pair.mp hmem with rfl | rfl
      · rfl
      · rfl
    rw [hempty] at hover
    exact absurd hover (Nat.not_lt_zero _)

end MyWebSocket
