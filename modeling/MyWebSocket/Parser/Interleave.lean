import MyWebSocket.Parser.Messages

namespace MyWebSocket

open Transducer Transducer.Outcome

/-!
# Control frames between fragments

RFC 6455 lets a peer send control frames between the fragments of a message.  This file says
what a receiver then has to report (`Rfc.step`), which frame sequences are legal
(`Rfc.Valid`), and when the parser reports the same.

The parser keeps one frame record and one continuation flag for both kinds of frame, and looks
at the opcode only outside a continuation.  So a control frame inside an open message is
delivered under the opcode of that message, with what has been assembled so far in front of
its payload.  `feed_content_iff` shows that this, the payload limit and the completion of an
empty last frame are the only deviations.
-/

namespace Rfc

/-! ### The protocol -/

/-- The control opcodes: CLOSE, PING and PONG. -/
def isControl (opcode : Fin 16) : Bool :=
  UInt8.ofNat opcode == WsCode.close.code || UInt8.ofNat opcode == WsCode.ping.code ||
    UInt8.ofNat opcode == WsCode.pong.code

/-- The opcodes that start a message: TEXT and BINARY. -/
def isData (opcode : Fin 16) : Bool :=
  UInt8.ofNat opcode == WsCode.text.code || UInt8.ofNat opcode == WsCode.binary.code

/-- Whether `f` may come next, given whether a fragmented message is open. -/
def Allowed (isOpen : Bool) (f : Frame) : Prop :=
  f.rsv = 0 ∧
    if isControl f.opcode then f.fin = true ∧ f.payload.length ≤ 125
    else if isOpen then UInt8.ofNat f.opcode = WsCode.continuation.code
    else isData f.opcode = true

instance (isOpen : Bool) (f : Frame) : Decidable (Allowed isOpen f) := by
  unfold Allowed; infer_instance

/-- Whether a message is open after `f`. -/
def opens (isOpen : Bool) (f : Frame) : Bool := if isControl f.opcode then isOpen else !f.fin

/-- Whether a message is open after the frames of a list. -/
def opensAfter (isOpen : Bool) (fs : List Frame) : Bool := fs.foldl opens isOpen

/-- A legal sequence of frames, possibly with a message still open at the end. -/
def Valid : Bool → List Frame → Prop
  | _, [] => True
  | isOpen, f :: fs => Allowed isOpen f ∧ Valid (opens isOpen f) fs

instance : ∀ (isOpen : Bool) (fs : List Frame), Decidable (Valid isOpen fs)
  | _, [] => inferInstanceAs (Decidable True)
  | isOpen, f :: fs =>
    have : Decidable (Valid (opens isOpen f) fs) := instDecidableValid (opens isOpen f) fs
    inferInstanceAs (Decidable (Allowed isOpen f ∧ Valid (opens isOpen f) fs))

/-- What a receiver reports: a control frame by itself, at once; a data message when its last
    fragment is there.  The state is the opcode and payload of the open message. -/
def step (o : Option (UInt8 × List UInt8)) (f : Frame) :
    Option (UInt8 × List UInt8) × List (UInt8 × List UInt8) :=
  if isControl f.opcode then (o, [(UInt8.ofNat f.opcode, f.payload)])
  else
    let m : UInt8 × List UInt8 :=
      match o with
      | none => (UInt8.ofNat f.opcode, f.payload)
      | some (opcode, payload) => (opcode, payload ++ f.payload)
    if f.fin then (none, [m]) else (some m, [])

/-- The contents a receiver reports for a sequence of frames. -/
def contents (fs : List Frame) : List (UInt8 × List UInt8) := (steps step none fs).2

/-- No control frame comes while a message is open. -/
def Uninterrupted : Bool → List Frame → Prop
  | _, [] => True
  | isOpen, f :: fs =>
    ¬ (isOpen = true ∧ isControl f.opcode = true) ∧ Uninterrupted (opens isOpen f) fs

instance : ∀ (isOpen : Bool) (fs : List Frame), Decidable (Uninterrupted isOpen fs)
  | _, [] => inferInstanceAs (Decidable True)
  | isOpen, f :: fs =>
    have : Decidable (Uninterrupted (opens isOpen f) fs) :=
      instDecidableUninterrupted (opens isOpen f) fs
    inferInstanceAs (Decidable (_ ∧ Uninterrupted (opens isOpen f) fs))

theorem step_isSome (o : Option (UInt8 × List UInt8)) (f : Frame) :
    (step o f).1.isSome = opens o.isSome f := by
  unfold step opens
  split
  · rfl
  · rcases f.fin with _ | _ <;> rfl

/-- A sequence that leaves no message open reports something. -/
theorem steps_ne_nil {o : Option (UInt8 × List UInt8)} {fs : List Frame} (hne : fs ≠ [])
    (hclosed : opensAfter o.isSome fs = false) : (steps step o fs).2 ≠ [] := by
  induction fs generalizing o with
  | nil => exact absurd rfl hne
  | cons f fs ih =>
    intro hnil
    rw [steps, List.append_eq_nil_iff] at hnil
    obtain ⟨hf, hrest⟩ := hnil
    -- the last frame leaves nothing open, so it is a control frame or has FIN set
    by_cases hfs : fs = []
    · subst hfs
      have hopens : opens o.isSome f = false := hclosed
      unfold step at hf
      unfold opens at hopens
      split at hf
      · exact absurd hf (by simp)
      · rename_i hctl
        rw [if_neg hctl] at hopens
        simp only [Bool.not_eq_false'] at hopens
        simp [hopens] at hf
    · refine ih hfs ?_ hrest
      rw [step_isSome]
      exact hclosed

end Rfc

/-! ### Parser and protocol, frame by frame -/

/-- The parser is assembling the message the protocol has open. -/
def Assembles (a : Assembly) : Option (UInt8 × List UInt8) → Prop
  | none => a.isContinuation = false
  | some (opcode, payload) =>
    a = ⟨true, opcode, payload⟩ ∧ (opcode = WsCode.text.code ∨ opcode = WsCode.binary.code)

theorem Assembles.isContinuation {a : Assembly} {o : Option (UInt8 × List UInt8)}
    (h : Assembles a o) : a.isContinuation = o.isSome := by
  rcases o with _ | ⟨opcode, payload⟩
  · exact h
  · rw [h.1]
    rfl

theorem ofNat_ne_of_isData {opcode : Fin 16} (h : Rfc.isData opcode = true) :
    UInt8.ofNat opcode ≠ 0 ∧
      (UInt8.ofNat opcode = WsCode.text.code ∨ UInt8.ofNat opcode = WsCode.binary.code) := by
  revert opcode
  decide

theorem ofNat_ne_of_isControl {opcode : Fin 16} (h : Rfc.isControl opcode = true) :
    UInt8.ofNat opcode ≠ 0 ∧ UInt8.ofNat opcode ≠ WsCode.text.code ∧
      UInt8.ofNat opcode ≠ WsCode.binary.code := by
  revert opcode
  decide

/-- **Agreement.**  On a legal frame that is not a control frame inside an open message, the
    parser and the protocol report the same and keep step. -/
theorem Assembles.step {a : Assembly} {o : Option (UInt8 × List UInt8)} (h : Assembles a o)
    {f : Frame} (hf : Rfc.Allowed o.isSome f)
    (hctl : ¬ (o.isSome = true ∧ Rfc.isControl f.opcode = true)) :
    (a.step f).2 = (Rfc.step o f).2 ∧ Assembles (a.step f).1 (Rfc.step o f).1 := by
  obtain ⟨-, hkind⟩ := hf
  rcases o with _ | ⟨opcode, payload⟩
  · -- no message is open: the frame starts one, or is a control frame by itself
    have ha : a.isContinuation = false := h
    by_cases hc : Rfc.isControl f.opcode = true
    · rw [if_pos hc] at hkind
      have hne := (ofNat_ne_of_isControl hc).1
      simp [Assembly.step, Rfc.step, hc, ha, hne, hkind.1, Assembles]
    · rw [if_neg hc] at hkind
      have hdata : Rfc.isData f.opcode = true := by simpa using hkind
      obtain ⟨hne, hop⟩ := ofNat_ne_of_isData hdata
      rcases hfin : f.fin with _ | _ <;>
        simp [Assembly.step, Rfc.step, hc, ha, hne, hfin, Assembles, hop]
  · -- a message is open: the frame continues it
    obtain ⟨rfl, hop⟩ := h
    have hc : Rfc.isControl f.opcode = false := by simpa using hctl
    rcases hfin : f.fin with _ | _ <;>
      simp [Assembly.step, Rfc.step, hc, hfin, Assembles, hop]

/-- **Disagreement.**  A control frame inside an open message is reported under the opcode of
    that message. -/
theorem Assembles.step_control {a : Assembly} {opcode : UInt8} {payload : List UInt8}
    (h : Assembles a (some (opcode, payload))) {f : Frame}
    (hf : Rfc.Allowed true f) (hctl : Rfc.isControl f.opcode = true) :
    (a.step f).2 = [(opcode, payload ++ f.payload)] ∧ opcode ≠ UInt8.ofNat f.opcode := by
  obtain ⟨rfl, hop⟩ := h
  obtain ⟨-, hkind⟩ := hf
  rw [if_pos hctl] at hkind
  obtain ⟨-, htext, hbin⟩ := ofNat_ne_of_isControl hctl
  refine ⟨by simp [Assembly.step, hkind.1], ?_⟩
  rcases hop with rfl | rfl
  · exact fun heq => htext heq.symm
  · exact fun heq => hbin heq.symm

/-! ### The whole stream -/

/-- What the byte machine fires on the bytes of a list of frames. -/
def firedContents (s : ParseState) (fs : List Frame) : List (UInt8 × List UInt8) :=
  (byteMachine.run s (encodeFrames fs)).out.map WsFrame.content

theorem firedContents_cons {s : ParseState} (hs : Idle s) {f : Frame}
    (hlim : f.payload.length ≤ limitPayloadLen) {fs : List Frame} (hne : fs ≠ []) :
    firedContents s (f :: fs) = (s.assembly.step f).2 ++ firedContents (frameStep s f).1 fs := by
  rw [firedContents, run_encodeFrames_cons hs hlim hne, andThen_of_none rfl, List.map_append,
    (frameStep_assembly s f).2]
  rfl

theorem firedContents_singleton {s : ParseState} (hs : Idle s) {f : Frame}
    (hlim : f.payload.length ≤ limitPayloadLen) :
    firedContents s [f] = if f.payload = [] then [] else (s.assembly.step f).2 := by
  have henc : encodeFrames [f] = encodeFrame f := by simp [encodeFrames]
  rw [firedContents, henc]
  split
  · rename_i hnil
    rw [run_encodeFrame_of_nil hs hnil]
    rfl
  · rename_i hnil
    rw [run_encodeFrame_of_ne_nil hs hlim hnil]
    exact (frameStep_assembly s f).2

/-- Nothing is fired for a frame beyond the limit, or after it. -/
theorem firedContents_of_limit {s : ParseState} (hs : Idle s) {f : Frame}
    (hlim : limitPayloadLen < f.payload.length) (fs : List Frame) :
    firedContents s (f :: fs) = [] := by
  have hne : f.wirePayload ≠ [] :=
    List.ne_nil_of_length_pos (by rw [wirePayload_length]; omega)
  obtain ⟨b, rest, hwire⟩ := List.exists_cons_of_ne_nil hne
  have henc : encodeFrames (f :: fs) =
      encodeHeader f.header ++ b :: (rest ++ encodeFrames fs) := by
    show (encodeHeader f.header ++ f.wirePayload) ++ encodeFrames fs = _
    rw [hwire, List.append_assoc, List.cons_append]
  rw [firedContents, henc, run_encodeHeader_of_limit hs (h := f.header) hlim]
  rfl

/-- When the parser reports what the protocol asks for. -/
def Faithful (isOpen : Bool) (fs : List Frame) : Prop :=
  Rfc.Uninterrupted isOpen fs ∧ (∀ f ∈ fs, f.payload.length ≤ limitPayloadLen) ∧
    ∀ f, fs.getLast? = some f → f.payload ≠ []

theorem faithful_cons {isOpen : Bool} {f : Frame} {fs : List Frame} (hne : fs ≠ [])
    (hctl : ¬ (isOpen = true ∧ Rfc.isControl f.opcode = true))
    (hlim : f.payload.length ≤ limitPayloadLen) :
    Faithful isOpen (f :: fs) ↔ Faithful (Rfc.opens isOpen f) fs := by
  have hlast : (f :: fs).getLast? = fs.getLast? := by
    obtain ⟨g, gs, rfl⟩ := List.exists_cons_of_ne_nil hne
    exact List.getLast?_cons_cons
  unfold Faithful
  rw [hlast]
  simp [Rfc.Uninterrupted, hctl, hlim]

/-- **Where the first deviation is, the reports part.** -/
theorem firedContents_eq_iff {s : ParseState} (hs : Idle s)
    {o : Option (UInt8 × List UInt8)} (ho : Assembles s.assembly o) {fs : List Frame}
    (hvalid : Rfc.Valid o.isSome fs) (hclosed : Rfc.opensAfter o.isSome fs = false) :
    firedContents s fs = (steps Rfc.step o fs).2 ↔ Faithful o.isSome fs := by
  induction fs generalizing s o with
  | nil => simp [firedContents, encodeFrames, steps, Faithful, Rfc.Uninterrupted]
  | cons f fs ih =>
    obtain ⟨hf, hrest⟩ := hvalid
    by_cases hlim : f.payload.length ≤ limitPayloadLen
    · by_cases hctl : o.isSome = true ∧ Rfc.isControl f.opcode = true
      · -- a control frame inside a message: the first report carries the wrong opcode
        obtain ⟨⟨opcode, payload⟩, rfl⟩ := Option.isSome_iff_exists.mp hctl.1
        obtain ⟨hout, hop⟩ := ho.step_control hf hctl.2
        have hrfc : (steps Rfc.step (some (opcode, payload)) (f :: fs)).2 =
            (UInt8.ofNat f.opcode, f.payload) ::
              (steps Rfc.step (some (opcode, payload)) fs).2 := by
          simp [steps, Rfc.step, hctl.2]
        have hnot : ¬ Faithful true (f :: fs) := fun h => h.1.1 ⟨rfl, hctl.2⟩
        rw [hrfc]
        refine iff_of_false ?_ hnot
        intro heq
        by_cases hfs : fs = []
        · subst hfs
          rw [firedContents_singleton hs hlim, hout] at heq
          split at heq
          · exact absurd heq (by simp)
          · simp only [List.cons.injEq, Prod.mk.injEq] at heq
            exact hop heq.1.1
        · rw [firedContents_cons hs hlim hfs, hout] at heq
          simp only [List.cons_append, List.cons.injEq, Prod.mk.injEq] at heq
          exact hop heq.1.1
      · obtain ⟨hout, hnext⟩ := ho.step hf hctl
        by_cases hfs : fs = []
        · -- the last frame: an empty one is not completed
          subst hfs
          have hsome : (Rfc.step o f).2 ≠ [] := by
            have hne := Rfc.steps_ne_nil (o := o) (List.cons_ne_nil f []) hclosed
            simpa [steps] using hne
          have hunint : Rfc.Uninterrupted o.isSome [f] := ⟨hctl, trivial⟩
          rw [firedContents_singleton hs hlim, hout]
          by_cases hnil : f.payload = []
          · rw [if_pos hnil]
            refine iff_of_false ?_ fun h => h.2.2 f rfl hnil
            simpa [steps] using hsome
          · rw [if_neg hnil]
            refine iff_of_true (by simp [steps]) ⟨hunint, ?_, ?_⟩
            · simpa using hlim
            · simpa using hnil
        · -- both report the same for this frame and go on
          rw [firedContents_cons hs hlim hfs, hout, steps, List.append_cancel_left_eq,
            faithful_cons hfs hctl hlim, ← Rfc.step_isSome]
          refine ih (frameStep_idle s f) ?_ ?_ ?_
          · rw [(frameStep_assembly s f).1]
            exact hnext
          · rw [Rfc.step_isSome]
            exact hrest
          · rw [Rfc.step_isSome]
            exact hclosed
    · -- a frame beyond the limit: nothing more is fired, but the protocol owes a report
      rw [firedContents_of_limit hs (by omega)]
      refine iff_of_false ?_ fun h => hlim (h.2.1 f (by simp))
      exact fun heq => Rfc.steps_ne_nil (by simp) hclosed heq.symm

/-- **Control frames between fragments.**  For every legal sequence of frames that leaves no
    message open, and every chunking of its bytes, a fresh parser reports exactly what RFC 6455
    asks for if and only if no control frame interrupts a message, every payload is within the
    limit and the last frame is not empty. -/
theorem feed_content_iff (frame : WsFrame) (fs : List Frame) (hvalid : Rfc.Valid false fs)
    (hclosed : Rfc.opensAfter false fs = false) (chunks : List (List UInt8))
    (hcut : chunks.flatten = encodeFrames fs) :
    (∃ r, feed (.init frame) chunks = .ok r ∧ r.fired.map WsFrame.content = Rfc.contents fs) ↔
      Rfc.Uninterrupted false fs ∧ (∀ f ∈ fs, f.payload.length ≤ limitPayloadLen) ∧
        ∀ f, fs.getLast? = some f → f.payload ≠ [] := by
  have hfeed := feed_eq_run (ParseInv.init frame) chunks
  have hiff := firedContents_eq_iff (Idle.init frame) (o := none) rfl hvalid hclosed
  rw [hcut] at hfeed
  rw [hfeed]
  constructor
  · rintro ⟨r, hr, hcont⟩
    cases hr
    exact hiff.mp hcont
  · intro h
    exact ⟨_, rfl, hiff.mpr h⟩

/-- A TEXT message "Hi" in two fragments and the PING "p", all masked. -/
def hiFirst : Frame :=
  { fin := false, rsv := 0, opcode := 1, key := some ⟨[1, 2, 3, 4], rfl⟩, form := .len7,
    payload := [0x48], holds := by decide }

@[inherit_doc hiFirst]
def hiLast : Frame :=
  { fin := true, rsv := 0, opcode := 0, key := some ⟨[1, 2, 3, 4], rfl⟩, form := .len7,
    payload := [0x69], holds := by decide }

@[inherit_doc hiFirst]
def pingFrame : Frame :=
  { fin := true, rsv := 0, opcode := 9, key := some ⟨[1, 2, 3, 4], rfl⟩, form := .len7,
    payload := [0x70], holds := by decide }

/-- With the PING between the fragments the parser fires TEXT "Hp" and then TEXT "Hpi", where
    the protocol asks for PING "p" and then TEXT "Hi". -/
theorem ping_inside_misreported :
    Rfc.Valid false [hiFirst, pingFrame, hiLast] ∧
      Rfc.opensAfter false [hiFirst, pingFrame, hiLast] = false ∧
      Rfc.contents [hiFirst, pingFrame, hiLast] = [(0x9, [0x70]), (0x1, [0x48, 0x69])] ∧
      ∃ r, feed (.init .init) [encodeFrames [hiFirst, pingFrame, hiLast]] = .ok r ∧
        r.fired.map WsFrame.content = [(0x1, [0x48, 0x70]), (0x1, [0x48, 0x70, 0x69])] ∧
        r.fired.map WsFrame.content ≠ Rfc.contents [hiFirst, pingFrame, hiLast] := by
  refine ⟨by decide, by decide, by decide, _, feed_eq_run (ParseInv.init .init) _, ?_, ?_⟩
  · decide
  · decide

/-- With the PING in front of the message the reports agree. -/
theorem feed_content_iff_ping_first :
    ∃ r, feed (.init .init) [encodeFrames [pingFrame, hiFirst], encodeFrames [hiLast]] = .ok r ∧
      r.fired.map WsFrame.content = Rfc.contents [pingFrame, hiFirst, hiLast] := by
  have hiff := feed_content_iff .init [pingFrame, hiFirst, hiLast] (by decide) (by decide)
    [encodeFrames [pingFrame, hiFirst], encodeFrames [hiLast]] (by decide)
  exact hiff.mpr ⟨by decide, by decide, by decide⟩

end MyWebSocket
