import MyWebSocket.Parser.Wire

namespace MyWebSocket

open Transducer Transducer.Outcome

/-!
# Reassembling messages

What the parser does with whole frames, seen from the completion callback: the opcode and the
payload at each firing.

* `Assembly` is the part of parser and frame that decides them, and `Assembly.step` what one
  frame does to it; `frameSteps_assembly` is the simulation;
* `Message` is a fragmented message as a peer sends it;
* `feed_messages` — in any chunking, the callback fires exactly once per message, with the
  opcode and the concatenated payload of that message.
-/

/-- What a firing of `m_onComplete` delivers. -/
def WsFrame.content (f : WsFrame) : UInt8 × List UInt8 := (f.opcode, f.payload)

/-! ### What one frame does to the message under assembly -/

/-- The continuation flag, and opcode and payload of the frame record. -/
@[ext] structure Assembly where
  isContinuation : Bool
  opcode : UInt8
  payload : List UInt8
deriving DecidableEq, Repr

/-- The part of a parse state that later firings depend on. -/
def ParseState.assembly (s : ParseState) : Assembly :=
  { isContinuation := s.parser.isContinuation, opcode := s.frame.opcode,
    payload := s.frame.payload }

/-- A non-zero opcode outside a continuation starts afresh; everything else appends. -/
def Assembly.step (a : Assembly) (f : Frame) : Assembly × List (UInt8 × List UInt8) :=
  let starts := !a.isContinuation && UInt8.ofNat f.opcode != 0
  let opcode := if starts then UInt8.ofNat f.opcode else a.opcode
  let payload := (if starts then [] else a.payload) ++ f.payload
  ({ isContinuation := !f.fin, opcode := opcode, payload := payload },
    if f.fin then [(opcode, payload)] else [])

theorem frameStep_assembly (s : ParseState) (f : Frame) :
    (frameStep s f).1.assembly = (s.assembly.step f).1 ∧
      (frameStep s f).2.map WsFrame.content = (s.assembly.step f).2 := by
  constructor
  · rfl
  · show (if f.fin then [completed s f] else []).map WsFrame.content = if f.fin then [_] else []
    split <;> rfl

/-- **Simulation.**  The contents fired by a list of frames are those of the assembly. -/
theorem frameSteps_assembly (s : ParseState) (fs : List Frame) :
    (frameSteps s fs).1.assembly = (steps Assembly.step s.assembly fs).1 ∧
      (frameSteps s fs).2.map WsFrame.content = (steps Assembly.step s.assembly fs).2 := by
  induction fs generalizing s with
  | nil => exact ⟨rfl, rfl⟩
  | cons f fs ih =>
    obtain ⟨hstate, hout⟩ := frameStep_assembly s f
    obtain ⟨ihstate, ihout⟩ := ih (frameStep s f).1
    constructor
    · show (steps frameStep (frameStep s f).1 fs).1.assembly = _
      rw [ihstate, hstate]
      rfl
    · show ((frameStep s f).2 ++ (steps frameStep (frameStep s f).1 fs).2).map _ = _
      rw [List.map_append, ihout, hout, hstate]
      rfl

/-! ### Fragmented messages -/

/-- One fragment of a message: a payload and the way it is framed. -/
structure Fragment where
  rsv : Fin 8
  key : Option MaskingKey
  form : LenForm
  payload : List UInt8
  holds : form.Holds payload.length

/-- The frame that carries a fragment. -/
def Fragment.frame (g : Fragment) (fin : Bool) (opcode : Fin 16) : Frame :=
  { fin := fin, rsv := g.rsv, opcode := opcode, key := g.key, form := g.form,
    payload := g.payload, holds := g.holds }

/-- A message: a non-zero opcode and at least one fragment. -/
structure Message where
  opcode : Fin 16
  opcode_ne : opcode ≠ 0
  first : Fragment
  rest : List Fragment

/-- All fragments of a message, in order. -/
def Message.fragments (m : Message) : List Fragment := m.first :: m.rest

/-- The payload of the message is the concatenation of its fragments'. -/
def Message.payload (m : Message) : List UInt8 := m.fragments.flatMap Fragment.payload

/-- What the peer means to deliver. -/
def Message.content (m : Message) : UInt8 × List UInt8 := (UInt8.ofNat m.opcode, m.payload)

/-- The fragments after the first: opcode 0, FIN on the last one only. -/
def continuationFrames : List Fragment → List Frame
  | [] => []
  | [g] => [g.frame true 0]
  | g :: gs => g.frame false 0 :: continuationFrames gs

/-- The frames of a message. -/
def Message.frames (m : Message) : List Frame :=
  m.first.frame m.rest.isEmpty m.opcode :: continuationFrames m.rest

/-- The frames of a list of messages. -/
def messageFrames (msgs : List Message) : List Frame := msgs.flatMap Message.frames

/-- The continuation fragments complete the message under assembly. -/
theorem steps_continuationFrames {a : Assembly} (ha : a.isContinuation = true)
    {gs : List Fragment} (hne : gs ≠ []) :
    steps Assembly.step a (continuationFrames gs) =
      (⟨false, a.opcode, a.payload ++ gs.flatMap Fragment.payload⟩,
        [(a.opcode, a.payload ++ gs.flatMap Fragment.payload)]) := by
  induction gs generalizing a with
  | nil => exact absurd rfl hne
  | cons g gs ih =>
    -- FIN is set on the last fragment, so that one is a case of its own
    cases gs with
    | nil => simp [continuationFrames, steps, Assembly.step, Fragment.frame, ha]
    | cons g' gs' =>
      have hrest := ih (a := ⟨true, a.opcode, a.payload ++ g.payload⟩) rfl (by simp)
      have hstep : Assembly.step a (g.frame false 0) =
          (⟨true, a.opcode, a.payload ++ g.payload⟩, []) := by
        simp [Assembly.step, Fragment.frame, ha]
      simp only [continuationFrames, steps, hstep] at hrest ⊢
      rw [hrest]
      simp

theorem ofNat_opcode_ne {opcode : Fin 16} (h : opcode ≠ 0) : UInt8.ofNat opcode ≠ 0 := by
  revert opcode
  decide

/-- A message outside a continuation is delivered once, whatever is left of the last one. -/
theorem steps_messageFrames_one {a : Assembly} (ha : a.isContinuation = false) (m : Message) :
    steps Assembly.step a m.frames =
      (⟨false, UInt8.ofNat m.opcode, m.payload⟩, [m.content]) := by
  have hop : (UInt8.ofNat m.opcode != 0) = true := by simp [ofNat_opcode_ne m.opcode_ne]
  -- one fragment carries FIN itself; of several the first opens the message
  rcases hrest : m.rest with _ | ⟨g, gs⟩
  · simp [Message.frames, hrest, continuationFrames, steps, Assembly.step, Fragment.frame, ha, hop,
      Message.content, Message.payload, Message.fragments]
  · have hstep : Assembly.step a (m.first.frame false m.opcode) =
        (⟨true, UInt8.ofNat m.opcode, m.first.payload⟩, []) := by
      simp [Assembly.step, Fragment.frame, ha, hop]
    have hcont := steps_continuationFrames
      (a := ⟨true, UInt8.ofNat m.opcode, m.first.payload⟩) rfl (List.cons_ne_nil g gs)
    rw [Message.frames, hrest, List.isEmpty_cons, steps, hstep, hcont]
    simp [Message.content, Message.payload, Message.fragments, hrest]

/-- Every message of a list is delivered once, in order. -/
theorem steps_messageFrames {a : Assembly} (ha : a.isContinuation = false)
    (msgs : List Message) :
    (steps Assembly.step a (messageFrames msgs)).2 = msgs.map Message.content := by
  induction msgs generalizing a with
  | nil => rfl
  | cons m msgs ih =>
    rw [messageFrames, List.flatMap_cons, steps_append, steps_messageFrames_one ha m]
    show [m.content] ++ _ = _
    rw [← messageFrames, ih rfl]
    rfl

theorem continuationFrames_map_payload (gs : List Fragment) :
    (continuationFrames gs).map Frame.payload = gs.map Fragment.payload := by
  induction gs with
  | nil => rfl
  | cons g gs ih =>
    cases gs with
    | nil => rfl
    | cons g' gs' =>
      simp only [continuationFrames, List.map_cons] at ih ⊢
      rw [ih]
      rfl

/-- The frames carry the payloads of the fragments, in order. -/
theorem messageFrames_map_payload (msgs : List Message) :
    (messageFrames msgs).map Frame.payload =
      (msgs.flatMap Message.fragments).map Fragment.payload := by
  induction msgs with
  | nil => rfl
  | cons m msgs ih =>
    rw [messageFrames, List.flatMap_cons, List.flatMap_cons, List.map_append, List.map_append,
      ← messageFrames, ih, Message.frames, List.map_cons, continuationFrames_map_payload]
    rfl

/-! ### The stream of messages -/

/-- The bytes of a list of messages. -/
def encodeMessages (msgs : List Message) : List UInt8 := encodeFrames (messageFrames msgs)

/-- What the byte machine makes of a list of messages whose last fragment is not empty. -/
theorem run_encodeMessages {s : ParseState} (hs : Idle s)
    (hopen : s.parser.isContinuation = false) {msgs : List Message}
    (hlim : ∀ g ∈ msgs.flatMap Message.fragments, g.payload.length ≤ limitPayloadLen)
    (hlast : ∀ g, (msgs.flatMap Message.fragments).getLast? = some g → g.payload ≠ []) :
    (byteMachine.run s (encodeMessages msgs)).stop = none ∧
      (byteMachine.run s (encodeMessages msgs)).out.map WsFrame.content =
        msgs.map Message.content := by
  -- limit and last fragment are conditions on payloads, which frames and fragments share
  have hpay := messageFrames_map_payload msgs
  have hrun : byteMachine.run s (encodeFrames (messageFrames msgs)) = _ := run_encodeFrames hs
    (by
      intro f hf
      have hmem : f.payload ∈ (messageFrames msgs).map Frame.payload := List.mem_map_of_mem hf
      rw [hpay, List.mem_map] at hmem
      obtain ⟨g, hg, heq⟩ := hmem
      rw [← heq]
      exact hlim g hg)
    (by
      intro f hf
      have hmem : ((messageFrames msgs).map Frame.payload).getLast? = some f.payload := by
        rw [List.getLast?_map, hf]
        rfl
      rw [hpay, List.getLast?_map, Option.map_eq_some_iff] at hmem
      obtain ⟨g, hg, heq⟩ := hmem
      rw [← heq]
      exact hlast g hg)
  rw [encodeMessages, hrun]
  refine ⟨rfl, ?_⟩
  rw [(frameSteps_assembly s (messageFrames msgs)).2]
  exact steps_messageFrames hopen msgs

/-- **Messages are delivered once, in order and whole.**  For every list of messages with
    fragments within the limit, framed in any way, the last fragment not empty, and every
    chunking of their bytes: all calls of `parse` on a fresh parser return `SUCCESS` and the
    callback fires once per message, seeing its opcode and the concatenation of its
    fragments. -/
theorem feed_messages (frame : WsFrame) (msgs : List Message)
    (hlim : ∀ g ∈ msgs.flatMap Message.fragments, g.payload.length ≤ limitPayloadLen)
    (hlast : ∀ g, (msgs.flatMap Message.fragments).getLast? = some g → g.payload ≠ [])
    (chunks : List (List UInt8)) (hcut : chunks.flatten = encodeMessages msgs) :
    ∃ r, feed (.init frame) chunks = .ok r ∧ r.err = .success ∧
      r.fired.map WsFrame.content = msgs.map Message.content := by
  obtain ⟨hstop, hout⟩ := run_encodeMessages (Idle.init frame) rfl hlim hlast
  refine ⟨_, feed_eq_run (ParseInv.init frame) chunks, ?_, ?_⟩
  · rw [hcut]
    simp [ofOutcome, hstop]
  · rw [hcut]
    simpa [ofOutcome] using hout

/-- Two messages: a masked text in two fragments, the first of them empty, and an unmasked
    binary one with a 16-bit length; cut in the middle of a header. -/
theorem feed_messages_two :
    ∃ r, feed (.init .init)
        [[0x01, 0x80, 1, 2], [3, 4, 0x80, 0x81, 5, 6, 7, 8, 0x4D, 0x82, 126, 0], [2, 9, 10]] =
          .ok r ∧ r.err = .success ∧
      r.fired.map WsFrame.content = [(0x1, [0x48]), (0x2, [9, 10])] :=
  feed_messages .init
    [{ opcode := 1, opcode_ne := by decide,
       first := ⟨0, some ⟨[1, 2, 3, 4], rfl⟩, .len7, [], by decide⟩,
       rest := [⟨0, some ⟨[5, 6, 7, 8], rfl⟩, .len7, [0x48], by decide⟩] },
     { opcode := 2, opcode_ne := by decide,
       first := ⟨0, none, .len16, [9, 10], by decide⟩,
       rest := [] }]
    (by decide) (by decide)
    [[0x01, 0x80, 1, 2], [3, 4, 0x80, 0x81, 5, 6, 7, 8, 0x4D, 0x82, 126, 0], [2, 9, 10]]
    (by decide)

end MyWebSocket
