import MyWebSocket.Parser.Acceptance

namespace MyWebSocket

open Transducer Transducer.Outcome

/-!
# When a message is delivered, and with what

Two things a handler may expect of `m_onComplete`: that it fires as soon as the last byte of a
final frame is there, and that it sees the payload of that message only.

* `feed_prompt_iff` — the firing comes with the last byte if and only if the payload of the
  final frame is not empty;
* `deliveries` groups the frames of a stream by the final frames among them;
* `feed_isolated_iff` — every firing sees the payloads of its own group if and only if no group
  that begins with opcode 0 comes behind one with a payload.
-/

/-! ### Promptness -/

/-- The first frame beyond the limit. -/
theorem exists_first_oversized {fs : List Frame}
    (h : ¬ ∀ f ∈ fs, f.payload.length ≤ limitPayloadLen) :
    ∃ pre f post, fs = pre ++ f :: post ∧ (∀ g ∈ pre, g.payload.length ≤ limitPayloadLen) ∧
      limitPayloadLen < f.payload.length := by
  have hsome : (fs.find? fun f => decide (limitPayloadLen < f.payload.length)).isSome := by
    rw [List.find?_isSome]
    push Not at h
    simpa using h
  obtain ⟨f, hf⟩ := Option.isSome_iff_exists.mp hsome
  obtain ⟨hover, pre, post, rfl, hpre⟩ := List.find?_eq_some_iff_append.mp hf
  refine ⟨pre, f, post, rfl, ?_, by simpa using hover⟩
  intro g hg
  simpa using hpre g hg

/-- A frame beyond the limit is refused, wherever in the stream it comes. -/
theorem run_frames_oversized {s : ParseState} (hs : Idle s) {pre : List Frame} {f : Frame}
    (hpre : ∀ g ∈ pre, g.payload.length ≤ limitPayloadLen)
    (hf : limitPayloadLen < f.payload.length) (post : List Frame) :
    (byteMachine.run s (encodeFrames (pre ++ f :: post))).stop = some .invalidPayloadLen := by
  have hne : f.wirePayload ≠ [] :=
    List.ne_nil_of_length_pos (by rw [wirePayload_length]; omega)
  obtain ⟨b, rest, hwire⟩ := List.exists_cons_of_ne_nil hne
  have henc : encodeFrames (pre ++ f :: post) =
      encodeFrames pre ++ (encodeHeader f.header ++ b :: (rest ++ encodeFrames post)) := by
    simp [encodeFrames, encodeFrame, hwire]
  rw [run_oversized hs ⟨henc, hpre⟩ hf]

/-- One firing for each final frame. -/
theorem frameSteps_fired_length (s : ParseState) (fs : List Frame) :
    (frameSteps s fs).2.length = fs.countP Frame.fin := by
  induction fs generalizing s with
  | nil => rfl
  | cons f fs ih =>
    show ((frameStep s f).2 ++ (frameSteps (frameStep s f).1 fs).2).length = _
    rw [List.length_append, ih, List.countP_cons, Nat.add_comm]
    congr 1
    show (if f.fin then [completed s f] else []).length = _
    split <;> rfl

/-- What has been fired when the last byte of the last frame has been read. -/
theorem run_frames_last {s : ParseState} (hs : Idle s) {fs : List Frame} {f : Frame}
    (hlim : ∀ g ∈ fs ++ [f], g.payload.length ≤ limitPayloadLen) :
    (byteMachine.run s (encodeFrames (fs ++ [f]))).out =
      if f.payload = [] then (frameSteps s fs).2 else (frameSteps s (fs ++ [f])).2 := by
  split
  · rename_i hnil
    have hinit : byteSettling.drain s (encodeFrames fs) = _ :=
      drain_encodeFrames hs fun g hg => hlim g (by simp [hg])
    have henc : encodeFrames (fs ++ [f]) = encodeFrames fs ++ encodeFrame f := by
      simp [encodeFrames]
    rw [henc, byteSettling.run_append_of_ne_nil s _ (encodeFrame_ne_nil f), hinit,
      andThen_of_none rfl, run_encodeFrame_of_nil (frameSteps_idle hs fs) hnil]
    simp
  · rename_i hne
    rw [run_encodeFrames hs hlim]
    intro g hg
    obtain rfl : f = g := by simpa using hg
    exact hne

/-- **A message is delivered with its last byte**, unless the frame that ends it is empty: for
    every stream that ends with a final frame and has been read, in any chunking, the callback
    has fired for all final frames if and only if the payload of the last one is not empty. -/
theorem feed_prompt_iff (frame : WsFrame) {fs : List Frame} {f : Frame} (hfin : f.fin = true)
    {chunks : List (List UInt8)} (hcut : chunks.flatten = encodeFrames (fs ++ [f]))
    {r : ParseResult} (hr : feed (.init frame) chunks = .ok r) (hread : r.err = .success) :
    r.fired.length = (fs ++ [f]).countP Frame.fin ↔ f.payload ≠ [] := by
  rw [feed_eq_run (ParseInv.init frame), hcut, Except.ok.injEq] at hr
  subst hr
  -- the whole stream has been read, so no frame of it is beyond the limit
  have hlim : ∀ g ∈ fs ++ [f], g.payload.length ≤ limitPayloadLen := by
    by_contra hover
    obtain ⟨pre, g, post, hsplit, hpre, hg⟩ := exists_first_oversized hover
    have hstop := run_frames_oversized (Idle.init frame) hpre hg post
    rw [← hsplit] at hstop
    simp [ofOutcome, hstop] at hread
  have hout := run_frames_last (Idle.init frame) hlim
  have hfired : ∀ o, (ofOutcome 0 [] o).fired = o.out := fun _ => rfl
  rw [hfired, hout]
  split
  · rename_i hnil
    rw [frameSteps_fired_length, List.countP_append, List.countP_singleton, if_pos hfin]
    simp [hnil]
  · rename_i hne
    rw [frameSteps_fired_length]
    simp [hne]

/-- A masked empty PING by itself. -/
def emptyPing : Frame :=
  { fin := true, rsv := 0, opcode := 9, key := some (maskingKey 1 2 3 4), form := .len7,
    payload := [], holds := by decide }

/-- All of it has been read, and nothing has been fired. -/
theorem emptyPing_late :
    ∃ r, feed (.init .init) [encodeFrames [emptyPing]] = .ok r ∧ r.err = .success ∧
      r.fired = [] ∧ [emptyPing].countP Frame.fin = 1 :=
  ⟨_, feed_eq_run (ParseInv.init .init) _, by decide, by decide, by decide⟩

/-- A text of one byte is delivered with that byte. -/
theorem feed_prompt_iff_text :
    ∃ r, feed (.init .init) [[0x81], [1, 0x41]] = .ok r ∧ r.fired.length = 1 := by
  have hfeed := feed_eq_run (ParseInv.init .init) [[0x81], [1, 0x41]]
  have hcut : [[0x81], [1, 0x41]].flatten = encodeFrames ([] ++ [.ofByte true 1 none 0x41]) := by
    decide
  exact ⟨_, hfeed, (feed_prompt_iff .init rfl hcut hfeed (by decide)).mpr (by decide)⟩

/-! ### Isolation -/

/-- The frames up to and including each final frame, `acc` being what has come since the last
    one.  Frames behind the last final frame belong to no delivery. -/
def deliveriesFrom : List Frame → List Frame → List (List Frame)
  | _, [] => []
  | acc, f :: fs =>
    if f.fin then (acc ++ [f]) :: deliveriesFrom [] fs else deliveriesFrom (acc ++ [f]) fs

/-- The frames of a stream, grouped by the firings they lead to. -/
def deliveries (fs : List Frame) : List (List Frame) := deliveriesFrom [] fs

/-- The payloads of several frames, one after another. -/
def payloads (fs : List Frame) : List UInt8 := fs.flatMap Frame.payload

/-- A group begins with a frame that resets the record. -/
def Resets (fs : List Frame) : Prop := ∀ f, fs.head? = some f → f.opcode ≠ 0

instance (fs : List Frame) : Decidable (Resets fs) :=
  match fs with
  | [] => .isTrue (by simp [Resets])
  | f :: _ => decidable_of_iff (f.opcode ≠ 0) (by simp [Resets])

/-- No group without a reset comes behind a payload; `old` is what the record holds. -/
def Isolated : List UInt8 → List (List Frame) → Prop
  | _, [] => True
  | old, g :: gs => (old = [] ∨ Resets g) ∧ Isolated (payloads g) gs

/-- The payloads the callback sees. -/
def visible : List UInt8 → List (List Frame) → List (List UInt8)
  | _, [] => []
  | old, g :: gs =>
    let seen := (if Resets g then [] else old) ++ payloads g
    seen :: visible seen gs

/-- Up to the first group that shows an old payload, every group shows its own. -/
theorem visible_eq_iff (old : List UInt8) (gs : List (List Frame)) :
    visible old gs = gs.map payloads ↔ Isolated old gs := by
  induction gs generalizing old with
  | nil => simp [visible, Isolated]
  | cons g gs ih =>
    rw [visible, List.map_cons, List.cons.injEq, Isolated]
    have hhead : (if Resets g then [] else old) ++ payloads g = payloads g ↔
        old = [] ∨ Resets g := by
      split <;> simp [*]
    rw [hhead]
    refine and_congr_right fun h => ?_
    rw [hhead.mpr h, ih]

/-- What the record holds behind the frames `acc` of a message that is not complete. -/
def heldFrom (old : List UInt8) (acc : List Frame) : List UInt8 :=
  (if acc ≠ [] ∧ Resets acc then [] else old) ++ payloads acc

/-- The record in the middle of a message. -/
structure Assembling (a : Assembly) (old : List UInt8) (acc : List Frame) : Prop where
  isContinuation : a.isContinuation = !acc.isEmpty
  payload : a.payload = heldFrom old acc

theorem Assembling.init {a : Assembly} (h : a.isContinuation = false) : Assembling a a.payload [] :=
  ⟨h, by simp [heldFrom, payloads]⟩

/-- One more frame: it resets the record only where it is the first one. -/
theorem Assembling.step_payload {a : Assembly} {old : List UInt8} {acc : List Frame}
    (h : Assembling a old acc) (f : Frame) : (a.step f).1.payload = heldFrom old (acc ++ [f]) := by
  have hop : (UInt8.ofNat f.opcode != 0) = decide (f.opcode ≠ 0) := by
    have hall : ∀ opcode : Fin 16, (UInt8.ofNat opcode != 0) = decide (opcode ≠ 0) := by decide
    exact hall f.opcode
  show (if (!a.isContinuation && UInt8.ofNat f.opcode != 0) = true then [] else a.payload) ++
    f.payload = _
  rw [h.isContinuation, h.payload, hop]
  cases acc with
  | nil => simp [heldFrom, payloads, Resets]
  | cons g gs => simp [heldFrom, payloads, Resets]

/-- The firings see what `visible` says. -/
theorem steps_visible {a : Assembly} {old : List UInt8} {acc : List Frame} (h : Assembling a old acc)
    (fs : List Frame) :
    (steps Assembly.step a fs).2.map Prod.snd = visible old (deliveriesFrom acc fs) := by
  induction fs generalizing a old acc with
  | nil => rfl
  | cons f fs ih =>
    have hpay := h.step_payload f
    rw [steps, List.map_append, deliveriesFrom]
    by_cases hfin : f.fin = true
    · -- a delivery: what has been seen stays in the record
      have hseen : heldFrom old (acc ++ [f]) =
          (if Resets (acc ++ [f]) then [] else old) ++ payloads (acc ++ [f]) := by
        simp [heldFrom]
      have hout : (a.step f).2 = [((a.step f).1.opcode, (a.step f).1.payload)] := by
        simp [Assembly.step, hfin]
      have hcont : (a.step f).1.isContinuation = false := by simp [Assembly.step, hfin]
      rw [if_pos hfin, visible, ← hseen, ← hpay, hout, ih (Assembling.init hcont)]
      rfl
    · have hout : (a.step f).2 = [] := by simp [Assembly.step, hfin]
      have hcont : (a.step f).1.isContinuation = !(acc ++ [f]).isEmpty := by
        simp [Assembly.step, hfin]
      rw [if_neg hfin, hout, ih ⟨hcont, hpay⟩]
      rfl

/-- The split of a stream that has been read: the frames it completes, and the rest. -/
def Completes (bs : List UInt8) (fs : List Frame) (tail : List UInt8) : Prop :=
  FramesThen bs fs tail ∧ Unfinished tail ∧
    (tail = [] → ∀ f, fs.getLast? = some f → f.payload ≠ [])

/-- What the calls on a stream have fired. -/
theorem Completes.out {s : ParseState} (hs : Idle s) {bs : List UInt8} {fs : List Frame}
    {tail : List UInt8} (h : Completes bs fs tail) :
    (byteMachine.run s bs).out = (frameSteps s fs).2 := by
  obtain ⟨hsplit, htail, hlast⟩ := h
  obtain ⟨-, hout⟩ := run_unfinished (frameSteps_idle hs fs) htail
  rw [run_framesThen hs hsplit hlast, andThen_of_none rfl]
  show (frameSteps s fs).2 ++ (byteMachine.run (frameSteps s fs).1 tail).out = _
  rw [hout, List.append_nil]

/-- A stream that is read without an error splits so. -/
theorem exists_completes {s : ParseState} (hs : Idle s) {bs : List UInt8}
    (h : (byteMachine.run s bs).stop = none) : ∃ fs tail, Completes bs fs tail := by
  obtain ⟨fs, tail, hsplit, htail | ⟨hd, b, rest, rfl, hover⟩, hlast⟩ := exists_frames bs
  · exact ⟨fs, tail, hsplit, htail, hlast⟩
  · rw [run_oversized hs hsplit hover] at h
    cases h

/-- **Every message is delivered with its own payload only**, if and only if no message whose
    first frame has opcode 0 comes behind a payload: for every byte stream that is read without
    an error, in any chunking.  The record of a fresh parser may hold something to begin
    with. -/
theorem feed_isolated_iff (frame : WsFrame) {chunks : List (List UInt8)} {r : ParseResult}
    (hr : feed (.init frame) chunks = .ok r) (hread : r.err = .success) :
    (∃ fs tail, Completes chunks.flatten fs tail) ∧
      ∀ fs tail, Completes chunks.flatten fs tail →
        (r.fired.map WsFrame.payload = (deliveries fs).map payloads ↔
          Isolated frame.payload (deliveries fs)) := by
  rw [feed_eq_run (ParseInv.init frame), Except.ok.injEq] at hr
  subst hr
  have hstop : (byteMachine.run (.init frame) chunks.flatten).stop = none := by
    cases hs : (byteMachine.run (.init frame) chunks.flatten).stop with
    | none => rfl
    | some e =>
      have hlimit := run_stop_eq hs
      simp [ofOutcome, hs, hlimit] at hread
  refine ⟨exists_completes (Idle.init frame) hstop, ?_⟩
  intro fs tail hsplit
  have hfired : (ofOutcome 0 [] (byteMachine.run (.init frame) chunks.flatten)).fired =
      (frameSteps (.init frame) fs).2 := hsplit.out (Idle.init frame)
  -- the firings are those of the assembly, and these are what is visible
  have hcontent := (frameSteps_assembly (.init frame) fs).2
  have hseen := steps_visible (Assembling.init (a := (ParseState.init frame).assembly) rfl) fs
  have hpayload : (Prod.snd ∘ WsFrame.content : WsFrame → List UInt8) = WsFrame.payload := rfl
  rw [← hcontent, List.map_map, hpayload] at hseen
  rw [hfired, hseen]
  exact visible_eq_iff frame.payload (deliveries fs)

/-- The TEXT "A". -/
def textA : Frame := .ofByte true 1 none 0x41

/-- A continuation of nothing with the payload "B". -/
def strayB : Frame := .ofByte true 0 none 0x42

/-- "A" is delivered, and then "AB". -/
theorem strayB_behind_textA :
    Completes (encodeFrames [textA, strayB]) [textA, strayB] [] ∧
      (deliveries [textA, strayB]).map payloads = [[0x41], [0x42]] ∧
      ∃ r, feed (.init .init) [encodeFrames [textA, strayB]] = .ok r ∧ r.err = .success ∧
        r.fired.map WsFrame.payload = [[0x41], [0x41, 0x42]] := by
  refine ⟨⟨⟨by decide, by decide⟩, .inl ⟨textA.header, List.nil_prefix⟩, fun _ => by decide⟩,
    by decide, _, feed_eq_run (ParseInv.init .init) _, ?_, ?_⟩
  · decide
  · decide

/-- Two texts are delivered one by one. -/
theorem feed_isolated_iff_texts :
    ∃ r, feed (.init .init) [[0x81, 1, 0x41], [0x81, 1, 0x42]] = .ok r ∧
      r.fired.map WsFrame.payload =
        (deliveries [textA, .ofByte true 1 none 0x42]).map payloads := by
  refine ⟨_, feed_eq_run (ParseInv.init .init) _, ?_⟩
  have hiff := (feed_isolated_iff .init
    (feed_eq_run (ParseInv.init .init) [[0x81, 1, 0x41], [0x81, 1, 0x42]]) (by decide)).2
    [textA, .ofByte true 1 none 0x42] []
    ⟨⟨by decide, by decide⟩, .inl ⟨textA.header, List.nil_prefix⟩, fun _ => by decide⟩
  refine hiff.mpr ⟨.inl rfl, .inr ?_, trivial⟩
  simp [Resets, Frame.ofByte]

end MyWebSocket
