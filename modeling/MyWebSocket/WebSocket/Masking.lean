import MyWebSocket.Parser.Provenance
import MyWebSocket.WebSocket.Steps

namespace MyWebSocket

open Log Transducer Transducer.Outcome

/-!
# Unmasked messages

`handleWsFrame` refuses a message whose frame record has no MASK bit.  The record is that of the
last fragment.

* `Reception` — the bytes a session has given to `parse` and the frame records it has handled,
  as a record of its runs; `Received` says that the records are the parser's firings, in order;
* `unmasked_refused_iff` — messages with an unmasked fragment are refused if and only if their
  last fragment is unmasked, a CLOSE that nobody listens to apart;
* `Refused.closed` — the handle of a session that refuses a message is closed.
-/

/-! ### What a session receives -/

/-- The bytes given to `parse`, and the frame records handled. -/
structure Reception where
  bytes : List UInt8
  handled : List WsFrame
deriving DecidableEq, Repr

/-- The frame record that is handled in this step. -/
def WsSession.handling (s : WsSession) : WsLabel → Option WsFrame
  | .run =>
    match s.stack with
    | .handleWsFrame frame :: _ => some frame
    | _ => none
  | _ => none

/-- The bytes that are given to `parse` in this step. -/
def WsSession.parsing (s : WsSession) : WsLabel → List UInt8
  | .recv base data =>
    if s.stack = [] ∧ s.reading = true ∧ base && s.readyState = .open then data else []
  | _ => []

/-- What a step adds to the record. -/
def Reception.note (g : Reception) (s : WsSession) (l : WsLabel) : Reception :=
  { bytes := g.bytes ++ s.parsing l, handled := g.handled ++ (s.handling l).toList }

/-- The session with the record of what it receives. -/
abbrev wsReceiving : Machine (WsSession × Reception) WsLabel := wsMachine.noting Reception.note

/-- A fresh session that has received nothing. -/
def fresh (serverCallback : Bool) : WsSession × Reception := (.onUpgrade serverCallback, ⟨[], []⟩)

/-- The frame record of a task. -/
def WsTask.frame : WsTask → Option WsFrame
  | .handleWsFrame frame => some frame
  | _ => none

/-- The frame records still to be handled. -/
def WsSession.frames (s : WsSession) : List WsFrame := s.stack.filterMap WsTask.frame

/-- The task leads to the close: it is `inter_close`, or says that `parse` has failed. -/
def WsTask.dooms : WsTask → Bool
  | .interClose => true
  | .parsed err => err != .success
  | _ => false

/-- The session has been closed, or will be before libuv delivers the next event. -/
def WsSession.Doomed (s : WsSession) : Prop := s.stack.any WsTask.dooms = true ∨ .uvClose ∈ s.trace

/-! ### What a step leaves -/

/-- `s'` comes from `s` by handling at most one frame record; the parser has not run, and what
    leads to the close is not lost. -/
structure Leaves (s s' : WsSession) (handled : Option WsFrame) : Prop where
  parse : s'.parse = s.parse
  frames : s.frames = handled.toList ++ s'.frames
  doomed : s.Doomed → s'.Doomed

theorem Leaves.refl (s : WsSession) : Leaves s s none := ⟨rfl, rfl, id⟩

theorem Leaves.background {s s' : WsSession} (h : s.Background s') : Leaves s s' none := by
  refine ⟨h.parse, ?_, ?_⟩
  · rw [WsSession.frames, WsSession.frames, h.stack]
    rfl
  · rw [WsSession.Doomed, WsSession.Doomed, h.stack]
    exact Or.imp_right fun hmem =>
      (h.trace.mem_iff (by simp [WsEffect.Neutral, WsEffect.isClosing])).mpr hmem

/-- The function on top of the stack makes room for tasks that handle no frame.  If it leads to the
    close, so does one of them, or it closes the handle itself. -/
theorem Leaves.replace {s s' : WsSession} {t : WsTask} {st ts : List WsTask}
    (hst : s.stack = t :: st) (hparse : s'.parse = s.parse) (hstack : s'.stack = ts ++ st)
    (hts : ts.filterMap WsTask.frame = []) (htrace : Grows (fun _ => True) s.trace s'.trace)
    (hdoom : t.dooms = true → ts.any WsTask.dooms = true ∨ .uvClose ∈ s'.trace) :
    Leaves s s' t.frame := by
  refine ⟨hparse, ?_, ?_⟩
  · rw [WsSession.frames, WsSession.frames, hst, hstack, List.filterMap_append, hts]
    cases h : t.frame with
    | none => exact List.filterMap_cons_none h
    | some frame => exact List.filterMap_cons_some h
  · rintro (hany | hmem)
    · rw [hst, List.any_cons, Bool.or_eq_true] at hany
      rw [WsSession.Doomed, hstack, List.any_append, Bool.or_eq_true]
      rcases hany with ht | hrest
      · exact (hdoom ht).imp_left .inl
      · exact .inl (.inr hrest)
    · obtain ⟨es, hes, -⟩ := htrace
      exact .inr (hes ▸ List.mem_append_left es hmem)

/-- Tasks that handle no frame are pushed. -/
theorem Leaves.push {s s' : WsSession} {ts : List WsTask} (hparse : s'.parse = s.parse)
    (hstack : s'.stack = ts ++ s.stack) (hts : ts.filterMap WsTask.frame = [])
    (htrace : Grows (fun _ => True) s.trace s'.trace) : Leaves s s' none := by
  refine ⟨hparse, ?_, ?_⟩
  · rw [WsSession.frames, WsSession.frames, hstack, List.filterMap_append, hts]
    rfl
  · rintro (hany | hmem)
    · refine .inl ?_
      rw [hstack, List.any_append, hany, Bool.or_true]
    · obtain ⟨es, hes, -⟩ := htrace
      exact .inr (hes ▸ List.mem_append_left es hmem)

namespace WsSession

/-- What a callback puts on the stack in front of `ts` handles no frame and closes nothing. -/
theorem callback_pushes (s : WsSession) (ts : List WsTask) (set : Bool) (e : WsEffect) :
    ∃ us, ((s.push ts).callback set e).stack = us ++ s.stack ∧
      us.filterMap WsTask.frame = ts.filterMap WsTask.frame ∧
      us.any WsTask.dooms = ts.any WsTask.dooms := by
  refine ⟨(if set then [.user] else []) ++ ts, ?_, ?_, ?_⟩
  · rw [callback_stack, push_stack, List.append_assoc]
  · cases set <;> rfl
  · cases set <;> rfl

theorem handleWsFrame_pushes (s : WsSession) (frame : WsFrame) :
    ∃ ts, (s.handleWsFrame frame).stack = ts ++ s.stack ∧ ts.filterMap WsTask.frame = [] := by
  unfold handleWsFrame
  split
  · obtain ⟨ts, hstack, hts, -⟩ :=
      s.callback_pushes [.interClose] s.callbacks.onError (.onError .noMask)
    exact ⟨ts, hstack, hts⟩
  · split
    · exact ⟨[], rfl, rfl⟩
    · split
      · exact ⟨[], rfl, rfl⟩
      · split
        · exact ⟨[.interClose], rfl, rfl⟩
        · obtain ⟨ts, hstack, hts, -⟩ :=
            s.callback_pushes [] s.callbacks.onMessage (.onMessage frame)
          exact ⟨ts, hstack, hts⟩

/-- What a task puts on the stack handles no frame, and leads to the close if the task did. -/
theorem runTask_pushes (s : WsSession) (t : WsTask) :
    ∃ ts, (s.runTask t).stack = ts ++ s.stack ∧ ts.filterMap WsTask.frame = [] ∧
      (t.dooms = true → ts.any WsTask.dooms = true ∨ .uvClose ∈ (s.runTask t).trace) := by
  cases t with
  | user => exact ⟨[], rfl, rfl, fun h => absurd h Bool.false_ne_true⟩
  | connect =>
    show ∃ ts, s.connect.stack = _ ∧ _
    refine ⟨_, callback_stack _ _ _, ?_, fun h => absurd h Bool.false_ne_true⟩
    split <;> rfl
  | interClose =>
    have hclose : .uvClose ∈ s.interClose.trace := by
      rw [interClose_trace]
      simp
    show ∃ ts, s.interClose.stack = _ ∧ _
    obtain ⟨ts, hstack, hts, -⟩ := callback_pushes
      { s with readyState := .closed, reading := false, closing := true } [.removeWsSession]
      s.callbacks.onClose .onClose
    refine ⟨ts, ?_, hts, fun _ => .inr hclose⟩
    rw [interClose, callback_stack]
    rw [callback_stack] at hstack
    exact hstack
  | removeWsSession => exact ⟨[], rfl, rfl, fun h => absurd h Bool.false_ne_true⟩
  | handleWsFrame frame =>
    obtain ⟨ts, hstack, hts⟩ := s.handleWsFrame_pushes frame
    exact ⟨ts, hstack, hts, fun h => absurd h Bool.false_ne_true⟩
  | parsed err =>
    show ∃ ts, (s.parsed err).stack = _ ∧ _
    unfold parsed
    split
    · -- `inter_close` takes over from the failed `parse`
      obtain ⟨ts, hstack, hts, hdoom⟩ :=
        s.callback_pushes [.interClose] s.callbacks.onError (.onError .parseError)
      exact ⟨ts, hstack, hts, fun _ => .inl hdoom⟩
    · rename_i herr
      refine ⟨[], rfl, rfl, fun hdoom => absurd hdoom ?_⟩
      simpa [WsTask.dooms] using herr
  | deleteCtx ctx => exact ⟨[], rfl, rfl, fun h => absurd h Bool.false_ne_true⟩

theorem runTask_parse (s : WsSession) (t : WsTask) : (s.runTask t).parse = s.parse := by
  by_cases hconnect : t = .connect
  · subst hconnect
    exact callback_parse _ _ _
  · by_cases hclose : t = .interClose
    · subst hclose
      exact callback_parse _ _ _
    · exact (s.runTask_handling hconnect hclose).parse

end WsSession

/-- **A step leaves the parser alone, or is a read.** -/
theorem WsStep.leaves_or_reads {s s' : WsSession} {l : WsLabel} (h : WsStep s l s') :
    (s.parsing l = [] ∧ Leaves s s' (s.handling l)) ∨
      (s.stack = [] ∧ s.readyState = .open ∧ s.handling l = none ∧
        ∃ r, MyWebSocket.parse s.parse (s.parsing l) = .ok r ∧
          s' = { s with parse := r.state }.push
            (r.fired.map WsTask.handleWsFrame ++ [WsTask.parsed r.err])) := by
  have hgrows := h.extends
  cases h with
  | call c hu =>
    refine .inl ⟨rfl, ?_⟩
    by_cases hc : c = .close
    · subst hc
      show Leaves s s.close none
      unfold WsSession.close
      split
      · exact .refl s
      · exact .push rfl rfl rfl (.refl _ _)
    · exact .background (.call s hc)
  | @ret st hst =>
    refine .inl ⟨rfl, .replace hst rfl (List.nil_append st).symm rfl hgrows fun h => ?_⟩
    exact absurd h Bool.false_ne_true
  | @run t st hst ht =>
    refine .inl ⟨rfl, ?_⟩
    obtain ⟨ts, hstack, hts, hdoom⟩ := WsSession.runTask_pushes { s with stack := st } t
    have hhandling : s.handling .run = t.frame := by
      rw [WsSession.handling, hst]
      cases t <;> rfl
    rw [hhandling]
    exact .replace hst (WsSession.runTask_parse _ t) hstack hts hgrows hdoom
  | @recv _ base data hst hr hs =>
    by_cases hcond : (base && s.readyState = .open) = true
    · have hparsing : s.parsing (.recv base data) = data := if_pos ⟨hst, hr, hcond⟩
      have hhandled : s.recvCb base data = s.handleMessage data := if_pos hcond
      have hopen : s.readyState = .open :=
        of_decide_eq_true (Bool.and_eq_true_iff.mp hcond).2
      obtain ⟨r, hp, rfl⟩ := WsSession.handleMessage_eq_ok (hhandled.symm.trans hs)
      rw [hparsing]
      exact .inr ⟨hst, hopen, rfl, r, hp, rfl⟩
    · have hparsing : s.parsing (.recv base data) = [] := if_neg fun h => hcond h.2.2
      refine .inl ⟨hparsing, ?_⟩
      have hignored : s.recvCb base data = .ok s := if_neg hcond
      obtain rfl : s = s' := Except.ok.inj (hignored.symm.trans hs)
      exact .refl s
  | recvErr hst hr => exact .inl ⟨rfl, .push rfl rfl rfl hgrows⟩
  | @written ctx ws status hst hw =>
    refine .inl ⟨rfl, ?_⟩
    show Leaves s (WsSession.written _ _ _) none
    unfold WsSession.written
    split
    · obtain ⟨ts, hstack, hts, -⟩ := WsSession.callback_pushes { s with writes := ws }
        [.deleteCtx ctx, .interClose, .deleteCtx ctx] s.callbacks.onError (.onError .sendError)
      refine .push (WsSession.callback_parse _ _ _) hstack hts ?_
      exact ⟨_, WsSession.callback_trace _ _ _, fun _ _ => trivial⟩
    · exact .push rfl rfl rfl (.refl _ _)
  | file hst hr he => exact .inl ⟨rfl, .background (.fsActions _ _ s _ _)⟩

/-- What leads to the close is not lost, and gets there before the next event. -/
theorem WsSession.Doomed.closed {s s' : WsSession} {ls : List WsLabel} (h : s.Doomed)
    (hs : wsMachine.exec s ls = some s') (hquiet : s'.stack = []) : .uvClose ∈ s'.trace := by
  have hdoomed : s'.Doomed := by
    refine wsMachine.exec_invariant (I := WsSession.Doomed) ?_ h hs
    intro s l s' hd hl
    rcases (WsSession.step_cases hl).leaves_or_reads with ⟨-, hleaves⟩ | ⟨hst, -, -, r, -, rfl⟩
    · exact hleaves.doomed hd
    · rcases hd with hany | hmem
      · rw [hst] at hany
        exact absurd hany Bool.false_ne_true
      · exact .inr hmem
  rcases hdoomed with hany | hmem
  · rw [hquiet] at hany
    exact absurd hany Bool.false_ne_true
  · exact hmem

/-! ### What has been received -/

/-- A read leaves the frames `parse` has completed. -/
theorem frames_of_read (fired : List WsFrame) (err : WsParseErr) :
    (fired.map WsTask.handleWsFrame ++ [WsTask.parsed err]).filterMap WsTask.frame = fired := by
  rw [List.filterMap_append, List.filterMap_map]
  show fired.filterMap some ++ [] = fired
  rw [List.filterMap_some, List.append_nil]

/-- The records handled and those on the stack are the firings of the parser on the bytes
    received; after an error nothing more is received. -/
structure Received (s : WsSession) (g : Reception) : Prop where
  out : g.handled ++ s.frames = (byteMachine.run (.init .init) g.bytes).out
  parse : s.parse = (byteMachine.run (.init .init) g.bytes).state
  stop : (byteMachine.run (.init .init) g.bytes).stop = none ∨ s.Doomed

theorem Received.fresh (serverCallback : Bool) :
    Received (fresh serverCallback).1 (fresh serverCallback).2 := by
  refine ⟨?_, rfl, .inl rfl⟩
  cases serverCallback <;> rfl

theorem Received.step {s s' : WsSession} {g : Reception} {l : WsLabel} (h : Received s g)
    (hinv : WsInv s) (hs : WsStep s l s') : Received s' (g.note s l) := by
  rcases hs.leaves_or_reads with ⟨hparsing, hleaves⟩ | ⟨hst, hopen, hhandling, r, hp, rfl⟩
  · have hbytes : (g.note s l).bytes = g.bytes := by
      rw [Reception.note, hparsing, List.append_nil]
    refine ⟨?_, ?_, ?_⟩
    · rw [hbytes, ← h.out, hleaves.frames, ← List.append_assoc]
      rfl
    · rw [hbytes, hleaves.parse]
      exact h.parse
    · rw [hbytes]
      exact h.stop.imp_right hleaves.doomed
  · -- an open session that does nothing has not failed to parse
    have hclose : .uvClose ∉ s.trace := by
      intro hmem
      have hclosed := (hinv.closed_iff (by simp [hst])).mpr hmem
      exact absurd (hopen.symm.trans hclosed) (by decide)
    have hstop : (byteMachine.run (.init .init) g.bytes).stop = none := by
      refine h.stop.resolve_right ?_
      rintro (hany | hmem)
      · rw [hst] at hany
        exact absurd hany Bool.false_ne_true
      · exact hclose hmem
    have hbytes : (g.note s l).bytes = g.bytes ++ s.parsing l := rfl
    have hhandled : (g.note s l).handled = g.handled := by
      rw [Reception.note, hhandling]
      exact List.append_nil _
    have hrun : byteMachine.run (.init .init) (g.bytes ++ s.parsing l) = _ :=
      (run_append _ _ _ _).trans (andThen_of_none hstop _)
    rw [← h.parse] at hrun
    rw [parse_eq_run hinv.parse] at hp
    obtain rfl := (Except.ok.inj hp).symm
    have hout : g.handled = (byteMachine.run (.init .init) g.bytes).out := by
      rw [← h.out, WsSession.frames, hst]
      exact (List.append_nil _).symm
    refine ⟨?_, ?_, ?_⟩
    · rw [hbytes, hrun, hhandled, hout, WsSession.frames, WsSession.push_stack, hst,
        List.append_nil, frames_of_read]
      rfl
    · rw [hbytes, hrun]
      rfl
    · rw [hbytes, hrun]
      show (byteMachine.run s.parse (s.parsing l)).stop = none ∨ _
      rcases hfail : (byteMachine.run s.parse (s.parsing l)).stop with _ | e
      · exact .inl rfl
      · -- the error waits behind the frames
        obtain rfl := run_stop_eq hfail
        refine .inr (.inl ?_)
        rw [WsSession.push_stack, List.any_append, List.any_append, ofOutcome, hfail]
        simp [WsTask.dooms]

/-- The session and its record after any run. -/
structure Receiving (x : WsSession × Reception) : Prop where
  inv : WsInv x.1
  received : Received x.1 x.2

theorem Receiving.fresh (serverCallback : Bool) : Receiving (fresh serverCallback) :=
  ⟨WsInv.onUpgrade serverCallback, Received.fresh serverCallback⟩

theorem Receiving.step {x x' : WsSession × Reception} {l : WsLabel} (h : Receiving x)
    (hs : wsReceiving.step x l = some x') : Receiving x' := by
  obtain ⟨hstep, hnote⟩ := wsMachine.noting_step_eq_some.mp hs
  have hws := WsSession.step_cases hstep
  refine ⟨h.inv.step hws, ?_⟩
  rw [hnote]
  exact h.received.step h.inv hws

/-- **Every message has an origin.**  The frame record that is handled next shows an origin in the
    bytes received. -/
theorem Receiving.exists_builtFrom {x : WsSession × Reception} (h : Receiving x) {frame : WsFrame}
    {st : List WsTask} (hst : x.1.stack = .handleWsFrame frame :: st) :
    ∃ o, BuiltFrom x.2.bytes x.2.handled.length o ∧ Shows frame o := by
  apply MyWebSocket.exists_builtFrom
  have hnext : WsTask.frame (.handleWsFrame frame) = some frame := rfl
  rw [← h.received.out, WsSession.frames, hst, List.filterMap_cons_some hnext]
  rw [List.getElem?_append_right (Nat.le_refl _), Nat.sub_self]
  rfl

/-! ### Refusing a message -/

/-- The effect hands a message to user code. -/
def WsEffect.isMessage : WsEffect → Bool
  | .onMessage _ => true
  | _ => false

/-- The message is not delivered, user code is told so if it listens, and `inter_close` is
    entered. -/
structure Refused (s s' : WsSession) : Prop where
  silent : Grows (fun e => e.isMessage = false) s.trace s'.trace
  told : s.callbacks.onError = true →
    s'.trace.count (.onError .noMask) = s.trace.count (.onError .noMask) + 1
  closes : s'.stack.count .interClose = s.stack.count .interClose + 1

/-- **The handle of a session that refuses a message is closed.**  It is when libuv delivers the
    next event, if not before. -/
theorem Refused.closed {s s' s'' : WsSession} (h : Refused s s') {ls : List WsLabel}
    (hs : wsMachine.exec s' ls = some s'') (hquiet : s''.stack = []) : .uvClose ∈ s''.trace := by
  have hmem : .interClose ∈ s'.stack := by
    apply List.count_pos_iff.mp
    rw [h.closes]
    exact Nat.succ_pos _
  have hdoomed : s'.Doomed := .inl (List.any_eq_true.mpr ⟨.interClose, hmem, rfl⟩)
  exact hdoomed.closed hs hquiet

/-- An unmasked frame record is refused. -/
theorem refused_of_unmasked {s : WsSession} {frame : WsFrame} {st : List WsTask}
    (hst : s.stack = .handleWsFrame frame :: st) (hmask : frame.mask = false) :
    Refused s (({ s with stack := st } : WsSession).handleWsFrame frame) := by
  have hcount : s.stack.count .interClose = st.count .interClose := by
    rw [hst, List.count_cons_of_ne (by simp)]
  have hdo : ({ s with stack := st } : WsSession).handleWsFrame frame =
      (({ s with stack := st } : WsSession).push [.interClose]).callback s.callbacks.onError
        (.onError .noMask) := by
    rw [WsSession.handleWsFrame, hmask]
    rfl
  rw [hdo]
  refine ⟨?_, ?_, ?_⟩
  · rw [WsSession.callback_trace]
    apply Grows.append
    split <;> simp [WsEffect.isMessage]
  · intro herr
    rw [WsSession.callback_trace, if_pos herr, List.count_append]
    rfl
  · rw [WsSession.callback_stack, List.count_append, hcount]
    cases s.callbacks.onError <;> simp

theorem handleWsFrame_of_close (s : WsSession) {frame : WsFrame} (hmask : frame.mask = true)
    (hop : frame.opcode = WsCode.close.code) : s.handleWsFrame frame = s.push [.interClose] := by
  rw [WsSession.handleWsFrame, hmask, hop]
  rfl

/-- Only a CLOSE enters `inter_close` if it is masked. -/
theorem handleWsFrame_of_not_close (s : WsSession) {frame : WsFrame} (hmask : frame.mask = true)
    (hop : frame.opcode ≠ WsCode.close.code) :
    (s.handleWsFrame frame).stack.count .interClose = s.stack.count .interClose := by
  rw [WsSession.handleWsFrame, hmask, Bool.not_true, if_neg Bool.false_ne_true]
  split
  · rfl
  · split
    · rfl
    · rw [WsSession.callback_stack, List.count_append]
      cases s.callbacks.onMessage <;> simp

/-- **Which messages are refused.**  The frame record shows no mask, or is a CLOSE and `onError` is
    not set. -/
theorem refused_handleWsFrame_iff {s : WsSession} {frame : WsFrame} {st : List WsTask}
    (hst : s.stack = .handleWsFrame frame :: st) :
    Refused s (({ s with stack := st } : WsSession).handleWsFrame frame) ↔
      frame.mask = false ∨ frame.opcode = WsCode.close.code ∧ s.callbacks.onError = false := by
  cases hmask : frame.mask with
  | false => exact iff_of_true (refused_of_unmasked hst hmask) (.inl rfl)
  | true =>
    have hcount : s.stack.count .interClose = st.count .interClose := by
      rw [hst, List.count_cons_of_ne (by simp)]
    by_cases hop : frame.opcode = WsCode.close.code
    · rw [handleWsFrame_of_close _ hmask hop]
      constructor
      · intro h
        refine .inr ⟨hop, ?_⟩
        by_contra herr
        -- nobody has been told
        exact absurd (h.told (Bool.eq_true_of_not_eq_false herr)) (by simp)
      · rintro (h | ⟨-, herr⟩)
        · exact absurd h (by simp)
        · refine ⟨.refl _ _, fun h => absurd (herr.symm.trans h) (by simp), ?_⟩
          rw [hcount]
          simp
    · constructor
      · intro h
        have hcloses := h.closes
        rw [handleWsFrame_of_not_close _ hmask hop, hcount] at hcloses
        exact absurd hcloses (by simp)
      · rintro (h | ⟨h, -⟩)
        · exact absurd h (by simp)
        · exact absurd h hop

/-- If a message is handled in this step, `P` holds of its origin. -/
def AtMessage (P : Origin → Prop) (x : WsSession × Reception) (l : WsLabel) : Prop :=
  (x.1.handling l).isSome → ∃ o, BuiltFrom x.2.bytes x.2.handled.length o ∧ P o

/-- A message with an unmasked fragment is refused. -/
def RefusesUnmasked (x : WsSession × Reception) (l : WsLabel) : Prop :=
  AtMessage (fun o => o.HasUnmasked → ∀ s', wsMachine.step x.1 l = some s' → Refused x.1 s') x l

/-- If the message has an unmasked fragment, its last one is unmasked, or it is a CLOSE and
    `onError` is not set. -/
def UnmaskedAtLast (x : WsSession × Reception) (l : WsLabel) : Prop :=
  AtMessage (fun o => o.HasUnmasked → o.masks.getLast? = some false ∨
    o.opcode = WsCode.close.code ∧ x.1.callbacks.onError = false) x l

/-- There is one origin only. -/
theorem atMessage_iff {P : Origin → Prop} {x : WsSession × Reception} {l : WsLabel}
    {frame : WsFrame} {o : Origin} (hl : x.1.handling l = some frame)
    (ho : BuiltFrom x.2.bytes x.2.handled.length o) : AtMessage P x l ↔ P o := by
  constructor
  · intro h
    obtain ⟨o', ho', hP⟩ := h (by rw [hl]; rfl)
    rw [ho.unique ho']
    exact hP
  · exact fun hP _ => ⟨o, ho, hP⟩

/-- A frame record is handled when its task is run. -/
theorem WsSession.handling_eq_some {s : WsSession} {l : WsLabel} {frame : WsFrame}
    (h : s.handling l = some frame) : l = .run ∧ ∃ st, s.stack = .handleWsFrame frame :: st := by
  cases l with
  | run =>
    simp only [handling] at h
    split at h
    · rename_i st hst
      obtain rfl := Option.some.inj h
      exact ⟨rfl, st, hst⟩
    · cases h
  | call c => cases h
  | ret => cases h
  | recv base data => cases h
  | recvErr => cases h
  | written status => cases h
  | file i result data => cases h

/-- One step of `unmasked_refused_iff`. -/
theorem Receiving.refusesUnmasked_iff {x : WsSession × Reception} (h : Receiving x) (l : WsLabel) :
    RefusesUnmasked x l ↔ UnmaskedAtLast x l := by
  cases hl : x.1.handling l with
  | none => exact iff_of_true (fun hs => by simp [hl] at hs) (fun hs => by simp [hl] at hs)
  | some frame =>
    obtain ⟨rfl, st, hst⟩ := WsSession.handling_eq_some hl
    obtain ⟨o, ho, hopcode, hlast⟩ := h.exists_builtFrom hst
    have hstep : wsMachine.step x.1 .run =
        some (({ x.1 with stack := st } : WsSession).handleWsFrame frame) := by
      show WsSession.step x.1 .run = _
      simp only [WsSession.step, hst]
      rfl
    rw [RefusesUnmasked, UnmaskedAtLast, atMessage_iff hl ho, atMessage_iff hl ho, hlast, ← hopcode]
    apply imp_congr_right
    intro _
    rw [hstep, Option.some_inj, ← refused_handleWsFrame_iff hst]
    simp

/-- **Unmasked fragments.**  In every run of a session, with any bytes in any chunks, each message
    that has an unmasked fragment is refused, if and only if each such message ends with one, or
    is a CLOSE that is handled while `onError` is not set. -/
theorem unmasked_refused_iff (serverCallback : Bool) (ls : List WsLabel) :
    wsReceiving.AllSteps RefusesUnmasked (fresh serverCallback) ls ↔
      wsReceiving.AllSteps UnmaskedAtLast (fresh serverCallback) ls :=
  wsReceiving.allSteps_congr (fun _ _ _ h hs => Receiving.step h hs)
    (fun _ l h => h.refusesUnmasked_iff l) (Receiving.fresh serverCallback) ls

/-- The first fragment of a text, without a mask. -/
def unmaskedFragment : Frame := .ofByte false 1 none 0x41

/-- Its last fragment, with a mask. -/
def maskedFragment : Frame := .ofByte true 0 (some (maskingKey 0 0 0 0)) 0x42

/-- The two are received, with `onMessage` set. -/
def unmaskedFirst : List WsLabel :=
  [.run, .call (.onMessage true),
    .recv true (encodeFrames [unmaskedFragment, maskedFragment]), .run]

/-- The message is delivered. -/
theorem unmaskedFirst_delivered :
    (wsMachine.exec (.onUpgrade false) unmaskedFirst).map (·.trace) =
        some [.uvReadStart, .onMessage ⟨true, 0, 0x1, true, 1, [0, 0, 0, 0], [0x41, 0x42]⟩] ∧
      BuiltFrom (encodeFrames [unmaskedFragment, maskedFragment]) 0 ⟨0x1, [false, true]⟩ ∧
      ¬ wsReceiving.AllSteps RefusesUnmasked (fresh false) unmaskedFirst := by
  have hbuilt : BuiltFrom (encodeFrames [unmaskedFragment, maskedFragment]) 0
      ⟨0x1, [false, true]⟩ := by
    refine ⟨[unmaskedFragment, maskedFragment], [], ⟨(List.append_nil _).symm, ?_⟩, rfl⟩
    simp [unmaskedFragment, maskedFragment, Frame.ofByte, limitPayloadLen]
  refine ⟨by decide, hbuilt, ?_⟩
  intro h
  -- the step that handles the message
  obtain ⟨x, s', hx, hhandling, hbytes, hcount, hstep, hstack⟩ : ∃ x s',
      wsReceiving.exec (fresh false) (unmaskedFirst.take 3) = some x ∧
        (x.1.handling .run).isSome = true ∧
        x.2.bytes = encodeFrames [unmaskedFragment, maskedFragment] ∧ x.2.handled.length = 0 ∧
        wsMachine.step x.1 .run = some s' ∧ s'.stack.count .interClose = 0 :=
    ⟨_, _, rfl, rfl, rfl, rfl, rfl, rfl⟩
  change wsReceiving.AllSteps _ _ (unmaskedFirst.take 3 ++ [.run]) at h
  obtain ⟨o, ho, hrefused⟩ := h.of_append _ hx hhandling
  rw [hbytes, hcount] at ho
  obtain rfl := hbuilt.unique ho
  have hcloses := (hrefused (by decide) s' hstep).closes
  rw [hstack] at hcloses
  exact absurd hcloses (Nat.succ_ne_zero _).symm

end MyWebSocket
