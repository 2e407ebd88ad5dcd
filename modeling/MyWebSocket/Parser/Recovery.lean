import MyWebSocket.Parser.Decoding
import MyWebSocket.Parser.Delivery

namespace MyWebSocket

open Transducer Transducer.Outcome

/-!
# The length error and what comes after it

`INVALID_PAYLOAD_LEN` is returned at the first byte behind a header that declares too much, with
the frame record as the header has left it.  Counters, key and payload of the refused frame stay
in parser and frame; `run_of_starts` says that no later stream gets to see them: two bytes of a
frame with a non-zero opcode overwrite everything a fresh parser does not share.
-/

/-! ### Where the error comes -/

/-- Frames at the start of other frames' bytes are among them. -/
theorem frames_of_append {pre fs : List Frame} {hd : Header} {xs : List UInt8}
    (h : encodeFrames pre ++ (encodeHeader hd ++ xs) = encodeFrames fs) :
    ∃ f post, fs = pre ++ f :: post ∧ f.header = hd := by
  induction pre generalizing fs with
  | nil =>
    cases fs with
    | nil => simp [encodeFrames, encodeHeader] at h
    | cons f post =>
      have henc : encodeHeader hd ++ xs =
          encodeHeader f.header ++ (f.wirePayload ++ encodeFrames post) := by
        rw [← List.append_assoc]
        exact h
      exact ⟨f, post, rfl, (encodeHeader_append_inj henc).1.symm⟩
  | cons g pre ih =>
    cases fs with
    | nil => simp [encodeFrames, encodeHeader] at h
    | cons f fs =>
      have henc : encodeFrame g ++ (encodeFrames pre ++ (encodeHeader hd ++ xs)) =
          encodeFrame f ++ encodeFrames fs := by
        rw [← List.append_assoc]
        exact h
      obtain ⟨rfl, hrest⟩ := encodeFrame_append_inj henc
      obtain ⟨f', post, rfl, hheader⟩ := ih hrest
      exact ⟨f', post, rfl, hheader⟩

/-- The stream `bs` reaches behind the header of `f`, which is the first of `fs` beyond the
    limit. -/
structure RefusedAt (bs : List UInt8) (fs pre : List Frame) (f : Frame) : Prop where
  among : ∃ post, fs = pre ++ f :: post
  within : ∀ g ∈ pre, g.payload.length ≤ limitPayloadLen
  oversized : limitPayloadLen < f.payload.length
  fed : ∃ b rest, bs = encodeFrames pre ++ (encodeHeader f.header ++ b :: rest)

/-- What the run on such a stream leaves. -/
theorem RefusedAt.run {s : ParseState} (hs : Idle s) {bs : List UInt8} {fs pre : List Frame}
    {f : Frame} (h : RefusedAt bs fs pre f) :
    byteMachine.run s bs =
      ⟨onLimit (afterHeader (frameSteps s pre).1 f.header), (frameSteps s pre).2,
        some .invalidPayloadLen, (encodeFrames pre ++ encodeHeader f.header).length⟩ := by
  obtain ⟨b, rest, hbs⟩ := h.fed
  exact run_oversized hs ⟨hbs, h.within⟩ h.oversized

/-- A run on a part of a stream of frames that stops has come to such a frame. -/
theorem exists_refusedAt {s : ParseState} (hs : Idle s) {bs : List UInt8} {fs : List Frame}
    (hfed : bs <+: encodeFrames fs) (hstop : (byteMachine.run s bs).stop ≠ none) :
    ∃ pre f, RefusedAt bs fs pre f := by
  obtain ⟨pre, tail, hsplit, htail | ⟨hd, b, rest, rfl, hover⟩, hlast⟩ := exists_frames bs
  · rw [run_framesThen hs hsplit hlast, andThen_of_none rfl] at hstop
    exact absurd (run_unfinished (frameSteps_idle hs pre) htail).1 hstop
  · obtain ⟨rfl, hpre⟩ := hsplit
    obtain ⟨q, hq⟩ := hfed
    rw [List.append_assoc, List.append_assoc] at hq
    obtain ⟨f, post, rfl, rfl⟩ := frames_of_append hq
    exact ⟨pre, f, ⟨post, rfl⟩, hpre, hover, b, rest, rfl⟩

/-- Some frame declares too much and a byte behind its header has been fed: then the same is
    true of the first such frame. -/
theorem exists_refusedAt_of_length {bs : List UInt8} {pre post : List Frame} {f : Frame}
    (hfed : bs <+: encodeFrames (pre ++ f :: post)) (hover : limitPayloadLen < f.payload.length)
    (hlen : (encodeFrames pre ++ encodeHeader f.header).length < bs.length) :
    ∃ pre' f', RefusedAt bs (pre ++ f :: post) pre' f' := by
  have hnot : ¬ ∀ g ∈ pre ++ [f], g.payload.length ≤ limitPayloadLen := by
    intro hall
    have := hall f (by simp)
    omega
  obtain ⟨pre', f', post', hsplit, hpre', hover'⟩ := exists_first_oversized hnot
  -- the first one comes no later, so its header ends no later
  have hle : (encodeFrames pre' ++ encodeHeader f'.header).length ≤
      (encodeFrames pre ++ encodeHeader f.header).length := by
    rcases List.eq_nil_or_concat post' with rfl | ⟨post'', g, rfl⟩
    · obtain ⟨rfl, hf⟩ := List.append_inj' hsplit rfl
      obtain rfl : f = f' := by simpa using hf
      exact Nat.le_refl _
    · have hpre : pre = pre' ++ f' :: post'' := by
        have hsplit' : pre ++ [f] = (pre' ++ f' :: post'') ++ [g] := by
          rw [hsplit]
          simp
        exact (List.append_inj' hsplit' rfl).1
      rw [hpre]
      simp only [encodeFrames, encodeFrame, List.flatMap_append, List.flatMap_cons,
        List.length_append]
      omega
  have hall : pre ++ f :: post = pre' ++ f' :: (post' ++ post) := by
    have hcons : pre ++ f :: post = pre ++ [f] ++ post := by simp
    rw [hcons, hsplit]
    simp
  refine ⟨pre', f', ⟨_, hall⟩, hpre', hover', ?_⟩
  have hbytes : encodeFrames (pre ++ f :: post) =
      (encodeFrames pre' ++ encodeHeader f'.header) ++
        (f'.wirePayload ++ encodeFrames (post' ++ post)) := by
    rw [hall]
    simp [encodeFrames, encodeFrame]
  have hhead : encodeFrames pre' ++ encodeHeader f'.header <+: bs := by
    refine List.prefix_of_prefix_length_le ?_ hfed (by omega)
    rw [hbytes]
    exact List.prefix_append _ _
  obtain ⟨rest, rfl⟩ := hhead
  have hrest : rest ≠ [] := by
    rintro rfl
    rw [List.append_nil] at hlen
    omega
  obtain ⟨b, rest', rfl⟩ := List.exists_cons_of_ne_nil hrest
  exact ⟨b, rest', List.append_assoc _ _ _⟩

/-! ### What comes after it -/

/-- Two bytes overwrite all that is left of earlier frames. -/
theorem consume_twice {s t : ParseState} (hs : Idle s) (ht : Idle t)
    (hsc : s.parser.isContinuation = false) (htc : t.parser.isContinuation = false) {b : UInt8}
    (hb : getOpcode b ≠ 0) (c : UInt8) :
    onPayloadLenAndMask (onFinAndOpcode s b) c = onPayloadLenAndMask (onFinAndOpcode t b) c := by
  obtain ⟨-, hsidx⟩ := hs
  obtain ⟨-, htidx⟩ := ht
  have hop : (getOpcode b != 0) = true := by simpa using hb
  simp only [onFinAndOpcode, onPayloadLenAndMask, switchToMask, hsc, htc, hsidx, htidx, hop,
    Bool.not_false, Bool.and_self, if_true]

/-- **Nothing is left over.**  Two parsers between two messages read alike what begins with a
    non-zero opcode. -/
theorem run_of_starts {s t : ParseState} (hs : Idle s) (ht : Idle t)
    (hsc : s.parser.isContinuation = false) (htc : t.parser.isContinuation = false)
    {bs : List UInt8} (hbs : ∀ b, bs.head? = some b → getOpcode b ≠ 0) :
    (byteMachine.run s bs).out = (byteMachine.run t bs).out ∧
      (byteMachine.run s bs).stop = (byteMachine.run t bs).stop ∧
      (byteMachine.run s bs).consumed = (byteMachine.run t bs).consumed := by
  -- the first byte: no firing, no error
  have hfirst : ∀ u : ParseState, Idle u → ∀ b,
      byteMachine.one u b = ⟨onFinAndOpcode u b, [], none, 1⟩ := by
    intro u hu b
    rw [one_of_status hu.inv (by simp [hu.1])]
    simp [consume, hu.1]
  -- nor at the second one
  have hsecond : ∀ u : ParseState, Idle u → ∀ b c, byteMachine.one (onFinAndOpcode u b) c =
      ⟨onPayloadLenAndMask (onFinAndOpcode u b) c, [], none, 1⟩ := by
    intro u hu b c
    have hst : (onFinAndOpcode u b).parser.status = .payloadLenAndMask := rfl
    rw [one_of_status (hu.inv.onFinAndOpcode hu.1 b) (by simp [hst])]
    simp [consume, hst]
  cases bs with
  | nil => exact ⟨rfl, rfl, rfl⟩
  | cons b bs =>
    cases bs with
    | nil =>
      rw [run_singleton, run_singleton, hfirst s hs, hfirst t ht]
      exact ⟨rfl, rfl, rfl⟩
    | cons c bs =>
      have htwo := consume_twice hs ht hsc htc (hbs b rfl) c
      have hrun : ∀ u : ParseState, Idle u → byteMachine.run u (b :: c :: bs) =
          (⟨onPayloadLenAndMask (onFinAndOpcode u b) c, [], none, 2⟩ :
            Outcome _ _ _).andThen (byteMachine.run · bs) := by
        intro u hu
        rw [run_cons, hfirst u hu, andThen_of_none rfl, run_cons, hsecond u hu,
          andThen_of_none rfl, andThen_of_none rfl]
        simp only [List.nil_append, ← Nat.add_assoc]
      rw [hrun s hs, hrun t ht, htwo]
      exact ⟨rfl, rfl, rfl⟩

/-- A stream of frames of which the first has a non-zero opcode. -/
def StartsMessage (bs : List UInt8) : Prop :=
  ∃ fs, bs <+: encodeFrames fs ∧ ∀ f, fs.head? = some f → f.opcode ≠ 0

theorem StartsMessage.head {bs : List UInt8} (h : StartsMessage bs) {b : UInt8}
    (hb : bs.head? = some b) : getOpcode b ≠ 0 := by
  obtain ⟨fs, ⟨q, hq⟩, hfs⟩ := h
  cases bs with
  | nil => cases hb
  | cons c bs =>
    obtain rfl : c = b := Option.some.inj hb
    cases fs with
    | nil => simp [encodeFrames] at hq
    | cons f fs =>
      have hhead : c = headByte f.fin f.rsv f.opcode := by
        simp only [encodeFrames, encodeFrame, encodeHeader, Frame.header, List.flatMap_cons,
          List.cons_append, List.cons.injEq] at hq
        exact hq.1
      rw [hhead, getOpcode_headByte]
      exact ofNat_opcode_ne (hfs f rfl)

/-- The calls on a stream of messages fire, return and count the same on both parsers. -/
def SameReports (s t : ParseState) : Prop :=
  ∀ chunks : List (List UInt8), StartsMessage chunks.flatten →
    ∃ r r', feed s chunks = .ok r ∧ feed t chunks = .ok r' ∧
      r.fired = r'.fired ∧ r.err = r'.err ∧ r.pos = r'.pos

theorem sameReports {s t : ParseState} (hs : Idle s) (ht : Idle t)
    (hsc : s.parser.isContinuation = false) (htc : t.parser.isContinuation = false) :
    SameReports s t := by
  intro chunks hstart
  obtain ⟨hout, hstop, hread⟩ := run_of_starts hs ht hsc htc fun b hb => hstart.head hb
  refine ⟨_, _, feed_eq_run hs.inv chunks, feed_eq_run ht.inv chunks, ?_, ?_, ?_⟩
  · simp only [ofOutcome, hout]
  · simp only [ofOutcome, hstop]
  · simp only [ofOutcome, hread]

/-- What the error leaves when `pre` has been read and `f` is refused. -/
structure RefusedWith (frame : WsFrame) (r : ParseResult) (pre : List Frame) (f : Frame) :
    Prop where
  /-- One firing for each final frame, ... -/
  finals : r.fired.length = pre.countP Frame.fin
  /-- ... the messages among the frames first. -/
  messages : ∀ msgs rest, pre = messageFrames msgs ++ rest →
    msgs.map Message.content <+: r.fired.map WsFrame.content
  /-- The record is as it was at the end of the header. -/
  untouched : ∃ r', feed (.init frame) [encodeFrames pre ++ encodeHeader f.header] = .ok r' ∧
    r'.err = .success ∧ r'.state.frame = r.state.frame
  recovers : ∀ frame', SameReports r.state (.init frame')

theorem RefusedAt.refusedWith (frame : WsFrame) {chunks : List (List UInt8)} {fs pre : List Frame}
    {f : Frame} (h : RefusedAt chunks.flatten fs pre f) {r : ParseResult}
    (hr : feed (.init frame) chunks = .ok r) : RefusedWith frame r pre f := by
  rw [feed_eq_run (ParseInv.init frame), h.run (Idle.init frame), Except.ok.injEq] at hr
  subst hr
  have hidle := frameSteps_idle (Idle.init frame) pre
  constructor
  case finals => exact frameSteps_fired_length _ pre
  case messages =>
    rintro msgs rest rfl
    have hout := (frameSteps_assembly (.init frame) (messageFrames msgs ++ rest)).2
    have hfirst := steps_messageFrames (a := (ParseState.init frame).assembly) rfl msgs
    show _ <+: (frameSteps (.init frame) (messageFrames msgs ++ rest)).2.map WsFrame.content
    rw [hout, steps_append, hfirst]
    exact List.prefix_append _ _
  case untouched =>
    refine ⟨_, feed_eq_run (ParseInv.init frame) _, ?_, ?_⟩
    all_goals
      have hne : encodeHeader f.header ≠ [] := by simp [encodeHeader]
      rw [List.flatten_singleton, run_framesThen (Idle.init frame) ⟨rfl, h.within⟩
        fun hnil => absurd hnil hne, andThen_of_none rfl, run_encodeHeader hidle]
    · rfl
    · rfl
  case recovers =>
    intro frame'
    exact sameReports ⟨rfl, hidle.2⟩ (Idle.init frame') rfl rfl

/-- **The length error.**  For every stream of frames, of any declared lengths, and every part
    of it that has been fed in any chunking to a fresh parser: `INVALID_PAYLOAD_LEN` has been
    returned if and only if a byte behind the header of a frame that declares too much is among
    what was fed.  Then the frames before the first such frame have been delivered, no byte of
    it has been taken, and every later stream of messages is read as by a fresh parser. -/
theorem feed_limit_recovers (frame : WsFrame) (fs : List Frame) {chunks : List (List UInt8)}
    (hfed : chunks.flatten <+: encodeFrames fs) {r : ParseResult}
    (hr : feed (.init frame) chunks = .ok r) :
    (r.err = .invalidPayloadLen ↔
      ∃ pre f post, fs = pre ++ f :: post ∧ limitPayloadLen < f.payload.length ∧
        (encodeFrames pre ++ encodeHeader f.header).length < chunks.flatten.length) ∧
      (r.err = .invalidPayloadLen →
        ∃ pre f post, fs = pre ++ f :: post ∧ limitPayloadLen < f.payload.length ∧
          (∀ g ∈ pre, g.payload.length ≤ limitPayloadLen) ∧ RefusedWith frame r pre f) := by
  have hrun := hr
  rw [feed_eq_run (ParseInv.init frame), Except.ok.injEq] at hrun
  have hstop : r.err = .invalidPayloadLen →
      ∃ pre f, RefusedAt chunks.flatten fs pre f := by
    intro herr
    refine exists_refusedAt (Idle.init frame) hfed ?_
    intro hnone
    rw [← hrun] at herr
    simp [ofOutcome, hnone] at herr
  refine ⟨⟨?_, ?_⟩, ?_⟩
  · intro herr
    obtain ⟨pre, f, hrefused⟩ := hstop herr
    obtain ⟨post, hsplit⟩ := hrefused.among
    obtain ⟨b, rest, hbs⟩ := hrefused.fed
    refine ⟨pre, f, post, hsplit, hrefused.oversized, ?_⟩
    rw [hbs]
    simp only [List.length_append, List.length_cons]
    omega
  · rintro ⟨pre, f, post, rfl, hover, hlen⟩
    obtain ⟨pre', f', hrefused⟩ := exists_refusedAt_of_length hfed hover hlen
    rw [← hrun, hrefused.run (Idle.init frame)]
    rfl
  · intro herr
    obtain ⟨pre, f, hrefused⟩ := hstop herr
    obtain ⟨post, hsplit⟩ := hrefused.among
    exact ⟨pre, f, post, hsplit, hrefused.oversized, hrefused.within, hrefused.refusedWith frame hr⟩

/-- A text one byte longer than the limit, unmasked. -/
def oversizedText : Frame :=
  { fin := true, rsv := 0, opcode := 1, key := none, form := .len64,
    payload := 0x41 :: List.replicate limitPayloadLen 0x41,
    holds := by rw [List.length_cons, List.length_replicate]; decide }

/-- Its header and one byte are refused. -/
theorem feed_limit_recovers_oversized :
    ∃ r, feed (.init .init) [encodeHeader oversizedText.header, [0x41]] = .ok r ∧
      r.err = .invalidPayloadLen := by
  have hlen : oversizedText.payload.length = limitPayloadLen + 1 := by
    rw [oversizedText, List.length_cons, List.length_replicate]
  have hwire : encodeFrames [oversizedText] =
      [encodeHeader oversizedText.header, [0x41]].flatten ++
        List.replicate limitPayloadLen 0x41 := by
    simp [encodeFrames, encodeFrame, Frame.wirePayload, oversizedText]
  refine ⟨_, feed_eq_run (ParseInv.init .init) _, ?_⟩
  refine (feed_limit_recovers .init [oversizedText] ⟨_, hwire.symm⟩
    (feed_eq_run (ParseInv.init .init) _)).1.mpr ⟨[], oversizedText, [], rfl, by omega, ?_⟩
  simp [encodeFrames]

end MyWebSocket
