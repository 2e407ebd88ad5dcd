import MyWebSocket.WebSocket.Closing

namespace MyWebSocket

open Log

/-!
# What a closed session still does

Two more laws about the end of a session, each with the exact condition it depends on.

* `no_write_after_close_iff` — no `uv_write` follows the `uv_close` if and only if `inter_send`
  is never entered behind it: `send`, `sendPong` and the end of a file read do not ask;
* `close_for_good_iff` — `close()` closes the session for good if and only if `connect` has run:
  before that `readyState` has the same value as at the end, and the guard of `close()` takes
  the one for the other.
-/

/-! ### Writes behind the close -/

/-- The effect hands something to `uv_write`. -/
def WsEffect.isWrite : WsEffect → Bool
  | .uvWrite _ _ _ => true
  | _ => false

/-- Running the task sends a PONG. -/
def WsTask.pongs : WsTask → Bool
  | .handleWsFrame frame => frame.mask && frame.opcode == WsCode.ping.code
  | _ => false

/-- The step sends something: user code calls `send`, a masked PING is handled, or the close
    request of a file reader ends. -/
def WsSession.Sends (s : WsSession) : WsLabel → Bool
  | .call (.send _) => true
  | .run => s.stack.head?.any WsTask.pongs
  | .file i _ _ => s.readers[i]?.any (·.pending = some .close)
  | _ => false

/-- `t'` is `t` with effects added that close nothing; one of them is a write if and only if `b`
    is true. -/
def Writing (t t' : List WsEffect) (b : Bool) : Prop :=
  ∃ es, t' = t ++ es ∧ .uvClose ∉ es ∧ (Has WsEffect.isWrite es ↔ b = true)

theorem Writing.refl (t : List WsEffect) : Writing t t false := ⟨[], by simp [Has]⟩

theorem Writing.append (t : List WsEffect) {es : List WsEffect} (hclose : .uvClose ∉ es) :
    Writing t (t ++ es) (es.any WsEffect.isWrite) :=
  ⟨es, rfl, hclose, by simp [Has]⟩

theorem Writing.trans {t t' t'' : List WsEffect} {b b' : Bool} (h : Writing t t' b)
    (h' : Writing t' t'' b') : Writing t t'' (b || b') := by
  obtain ⟨es, rfl, hclose, hwrite⟩ := h
  obtain ⟨es', rfl, hclose', hwrite'⟩ := h'
  refine ⟨es ++ es', List.append_assoc _ _ _, List.not_mem_append hclose hclose', ?_⟩
  rw [has_append, hwrite, hwrite', Bool.or_eq_true]

namespace WsSession

theorem callback_writing (s : WsSession) (set : Bool) {e : WsEffect} (he : e ≠ .uvClose)
    (hwrite : e.isWrite = false) : Writing s.trace (s.callback set e).trace false := by
  rw [callback_trace]
  refine ⟨_, rfl, ?_, ?_⟩
  · split
    · simpa using he.symm
    · simp
  · split <;> simp [Has, hwrite]

theorem call_writing (s : WsSession) (c : WsCall) :
    Writing s.trace (s.call c).trace (s.Sends (.call c)) := by
  cases c with
  | close =>
    show Writing s.trace s.close.trace false
    unfold close
    split
    · exact .refl _
    · exact .refl _
  | send str => exact .append s.trace (by simp)
  | sendFile path => exact .append s.trace (by simp [FileReader.fileRead])
  | onConnect set => exact .refl _
  | onClose set => exact .refl _
  | onMessage set => exact .refl _
  | onError set => exact .refl _

theorem handleWsFrame_writing (s : WsSession) (frame : WsFrame) :
    Writing s.trace (s.handleWsFrame frame).trace (WsTask.handleWsFrame frame).pongs := by
  unfold handleWsFrame
  simp only [WsTask.pongs]
  cases hmask : frame.mask with
  | false => exact callback_writing _ _ (by simp) rfl
  | true =>
    rw [Bool.true_and, Bool.not_true, if_neg Bool.false_ne_true]
    by_cases hpong : frame.opcode = WsCode.pong.code
    · rw [if_pos hpong, hpong]
      exact .refl _
    · rw [if_neg hpong]
      by_cases hping : frame.opcode = WsCode.ping.code
      · rw [if_pos hping, beq_iff_eq.mpr hping]
        exact .append s.trace (by simp)
      · rw [if_neg hping, beq_false_of_ne hping]
        split
        · exact .refl _
        · exact callback_writing _ _ (by simp) rfl

/-- What a task writes, if it is not `inter_close`. -/
theorem runTask_writing (s : WsSession) {t : WsTask} (ht : t ≠ .interClose) :
    Writing s.trace (s.runTask t).trace t.pongs := by
  cases t with
  | user => exact .refl _
  | connect =>
    show Writing s.trace s.connect.trace false
    rw [connect_trace]
    refine ⟨_, rfl, ?_, ?_⟩
    · split <;> simp
    · split <;> simp [Has, WsEffect.isWrite]
  | interClose => exact absurd rfl ht
  | removeWsSession => exact .append s.trace (by simp)
  | handleWsFrame frame => exact s.handleWsFrame_writing frame
  | parsed err =>
    show Writing s.trace (s.parsed err).trace false
    unfold parsed
    split
    · exact callback_writing _ _ (by simp) rfl
    · exact .refl _
  | deleteCtx ctx => exact .append s.trace (by simp)

theorem fsAction_writing (i : Nat) (r : FileReader) (s : WsSession) (a : FsAction) :
    Writing s.trace (fsAction i r s a).trace (a == .onClose) := by
  have hfs : Writing s.trace (s.emit [.fs i a]).trace false := .append s.trace (by simp)
  cases a with
  | onError => exact hfs.trans (.append _ (by simp))
  | onClose => exact hfs.trans (.append _ (by simp))
  | fsOpen path => exact hfs
  | fsRead fd len => exact hfs
  | fsClose fd => exact hfs

theorem fsActions_writing (i : Nat) (r : FileReader) (s : WsSession) (as : List FsAction) :
    Writing s.trace (as.foldl (fsAction i r) s).trace (as.any (· == .onClose)) := by
  induction as generalizing s with
  | nil => exact .refl _
  | cons a as ih => exact (fsAction_writing i r s a).trans (ih _)

end WsSession

/-- **Who writes.**  A step other than `inter_close` writes if and only if it sends something. -/
theorem WsStep.writing {s s' : WsSession} {l : WsLabel} (h : WsStep s l s')
    (hclose : ¬ (l = .run ∧ s.stack.head? = some .interClose)) :
    Writing s.trace s'.trace (s.Sends l) := by
  cases h with
  | call c hu => exact s.call_writing c
  | ret hst => exact .refl _
  | @run t st hst ht =>
    have hne : t ≠ .interClose := by
      rintro rfl
      exact hclose ⟨rfl, by rw [hst]; rfl⟩
    have hsends : s.Sends .run = t.pongs := by
      rw [WsSession.Sends, hst]
      rfl
    rw [hsends]
    exact WsSession.runTask_writing { s with stack := st } hne
  | recv hst hr hs =>
    rcases WsSession.recvCb_cases hs with rfl | ⟨-, r, -, rfl⟩
    · exact .refl _
    · exact .refl _
  | recvErr hst hr => exact .refl _
  | written hst hw =>
    show Writing _ (WsSession.written _ _ _).trace false
    unfold WsSession.written
    split
    · exact WsSession.callback_writing _ _ (by simp) rfl
    · exact .refl _
  | @file i result data r r' as hst hr he =>
    have hsends : s.Sends (.file i result data) = as.any (· == .onClose) := by
      rw [Bool.eq_iff_iff, List.any_beq', List.contains_iff_mem, FileReader.event_onClose he]
      simp [WsSession.Sends, hr]
    rw [hsends]
    exact WsSession.fsActions_writing i r' { s with readers := s.readers.set i r' } as

/-- No `uv_write` once the handle has been closed. -/
abbrev NoWriteAfterClose (trace : List WsEffect) : Prop :=
  NoneAfter (· = .uvClose) (·.isWrite = true) trace

/-- Nothing is sent once the handle has been closed. -/
def SendsOpen (s : WsSession) (l : WsLabel) : Prop :=
  .uvClose ∈ s.trace → s.Sends l = false

instance (s : WsSession) (l : WsLabel) : Decidable (SendsOpen s l) := by
  unfold SendsOpen
  infer_instance

/-- `inter_close` itself writes nothing. -/
theorem WsStep.interClose_noWrite {s s' : WsSession} (h : WsStep s .run s')
    (hhead : s.stack.head? = some .interClose) :
    Grows (fun e => ¬ e.isWrite = true) s.trace s'.trace := by
  obtain ⟨st, -, -, rfl⟩ := h.run_head hhead
  show Grows _ s.trace (WsSession.interClose _).trace
  rw [WsSession.interClose_trace]
  apply Grows.append
  split <;> simp [WsEffect.isWrite]

theorem NoWriteAfterClose.step {s s' : WsSession} {l : WsLabel} (h : NoWriteAfterClose s.trace)
    (hs : WsStep s l s') (hopen : SendsOpen s l) : NoWriteAfterClose s'.trace := by
  by_cases hclose : l = .run ∧ s.stack.head? = some .interClose
  · obtain ⟨rfl, hhead⟩ := hclose
    exact h.grows (hs.interClose_noWrite hhead)
  · obtain ⟨es, htrace, hes, hwrite⟩ := hs.writing hclose
    rw [htrace]
    by_cases hmem : .uvClose ∈ s.trace
    · -- the handle has been closed, so nothing is sent
      rw [hopen hmem] at hwrite
      refine h.grows (.append _ fun e he hw => ?_)
      exact absurd (hwrite.mp ⟨e, he, hw⟩) Bool.false_ne_true
    · -- it has not been closed, and this step does not close it
      refine .grows_of_forall ?_ (.append _ ?_)
      · rintro e he rfl
        exact hmem he
      · rintro e he rfl
        exact hes he

/-- Sending on a closed handle is a write. -/
theorem NoWriteAfterClose.step_sends {s s' : WsSession} {l : WsLabel} (hs : WsStep s l s')
    (hopen : ¬ SendsOpen s l) : ¬ NoWriteAfterClose s'.trace := by
  obtain ⟨hmem, hsends⟩ : .uvClose ∈ s.trace ∧ s.Sends l = true := by
    simpa [SendsOpen] using hopen
  have hclose : ¬ (l = .run ∧ s.stack.head? = some .interClose) := by
    rintro ⟨rfl, hhead⟩
    rw [WsSession.Sends, hhead] at hsends
    exact absurd hsends Bool.false_ne_true
  obtain ⟨es, htrace, -, hwrite⟩ := hs.writing hclose
  obtain ⟨e, he, hw⟩ := hwrite.mpr hsends
  rw [htrace]
  exact not_noneAfter hmem rfl he hw

/-- **No write behind the close.**  In every run of a session, with any reads, write statuses,
    file results and user calls in any order, no `uv_write` follows the `uv_close`, if and only
    if behind it user code does not call `send`, no masked PING is handled and no file reader
    ends. -/
theorem no_write_after_close_iff {serverCallback : Bool} {ls : List WsLabel} {s : WsSession}
    (h : wsMachine.exec (.onUpgrade serverCallback) ls = some s) :
    NoWriteAfterClose s.trace ↔ wsMachine.AllSteps SendsOpen (.onUpgrade serverCallback) ls := by
  refine wsMachine.exec_iff_allSteps (I := fun s => NoWriteAfterClose s.trace)
    (B := fun s => ¬ NoWriteAfterClose s.trace) (Q := fun s => NoWriteAfterClose s.trace)
    ?_ ?_ ?_ ?_ ?_ noneAfter_nil h
  · exact fun s l s' hI hP hs => hI.step (WsSession.step_cases hs) hP
  · exact fun s l s' _ hP hs => NoWriteAfterClose.step_sends (WsSession.step_cases hs) hP
  · exact fun s l s' hB hs hQ => hB (hQ.of_grows (WsSession.step_cases hs).extends)
  · exact fun s hI => hI
  · exact fun s hB => hB

/-- User code sends a text, and the peer closes afterwards. -/
theorem no_write_after_close_iff_text :
    ∃ s, wsMachine.exec (.onUpgrade false)
        [.run, .call (.send [0x41]), .written 0, .run,
          .recv true [0x88, 0x82, 0, 0, 0, 0, 3, 232], .run, .run, .run, .run] = some s ∧
      NoWriteAfterClose s.trace := by
  obtain ⟨s, hs⟩ : ∃ s, wsMachine.exec (.onUpgrade false)
      [.run, .call (.send [0x41]), .written 0, .run,
        .recv true [0x88, 0x82, 0, 0, 0, 0, 3, 232], .run, .run, .run, .run] = some s :=
    Option.isSome_iff_exists.mp (by decide)
  exact ⟨s, hs, (no_write_after_close_iff hs).mpr (by decide)⟩

/-- User code says farewell in its `onClose` callback. -/
def farewell : List WsLabel :=
  [.run, .call (.onClose true), .recv true [0x88, 0x82, 0, 0, 0, 0, 3, 232], .run, .run,
    .call (.send [0x41])]

/-- The text is handed to `uv_write` behind the `uv_close`. -/
theorem farewell_written :
    (wsMachine.exec (.onUpgrade false) farewell).map (·.trace) =
        some [.uvReadStart, .uvReadStop, .uvClose, .onClose, .newCtx 0,
          .uvWrite 0 0x1 [[0x81, 1], [0x41]]] ∧
      ¬ NoWriteAfterClose [.uvReadStart, .uvReadStop, .uvClose, .onClose, .newCtx 0,
          .uvWrite 0 0x1 [[0x81, 1], [0x41]]] := by
  decide

/-! ### Leaving the server -/

/-- The session has left `m_wsSessions`, or is about to, exactly if its handle has been closed. -/
def WsMember (s : WsSession) : Prop :=
  .uvClose ∈ s.trace ↔ (.removeWsSession ∈ s.stack ∨ s.registered = false)

/-- `s'` comes from `s` by work that does not touch the membership. -/
structure WsSession.Stays (s s' : WsSession) : Prop where
  registered : s'.registered = s.registered
  stack : .removeWsSession ∈ s'.stack ↔ .removeWsSession ∈ s.stack

theorem Writing.uvClose_iff {t t' : List WsEffect} {b : Bool} (h : Writing t t' b) :
    .uvClose ∈ t' ↔ .uvClose ∈ t := by
  obtain ⟨es, rfl, hes, -⟩ := h
  rw [List.mem_append, or_iff_left hes]

theorem WsMember.stays {s s' : WsSession} {b : Bool} (h : WsMember s) (hs : s.Stays s')
    (hw : Writing s.trace s'.trace b) : WsMember s' := by
  unfold WsMember
  rw [hw.uvClose_iff, hs.stack, hs.registered]
  exact h

namespace WsSession

theorem Stays.refl (s : WsSession) : s.Stays s := ⟨rfl, Iff.rfl⟩

theorem Stays.trans {s t u : WsSession} (h : s.Stays t) (h' : t.Stays u) : s.Stays u :=
  ⟨h'.registered.trans h.registered, h'.stack.trans h.stack⟩

theorem Stays.callback (s : WsSession) (set : Bool) (e : WsEffect) :
    s.Stays (s.callback set e) := by
  unfold WsSession.callback
  split
  · exact ⟨rfl, by simp⟩
  · exact .refl s

theorem Stays.push (s : WsSession) {ts : List WsTask} (hts : .removeWsSession ∉ ts) :
    s.Stays (s.push ts) :=
  ⟨rfl, by rw [push_stack, List.mem_append, or_iff_right hts]⟩

theorem Stays.call (s : WsSession) (c : WsCall) : s.Stays (s.call c) := by
  cases c with
  | close =>
    show s.Stays s.close
    unfold close
    split
    · exact .refl s
    · exact .push s (by simp)
  | send str => exact ⟨rfl, Iff.rfl⟩
  | sendFile path => exact ⟨rfl, Iff.rfl⟩
  | onConnect set => exact ⟨rfl, Iff.rfl⟩
  | onClose set => exact ⟨rfl, Iff.rfl⟩
  | onMessage set => exact ⟨rfl, Iff.rfl⟩
  | onError set => exact ⟨rfl, Iff.rfl⟩

theorem Stays.handleWsFrame (s : WsSession) (frame : WsFrame) :
    s.Stays (s.handleWsFrame frame) := by
  unfold WsSession.handleWsFrame
  split
  · exact (Stays.push s (by simp)).trans (.callback _ _ _)
  · split
    · exact .refl s
    · split
      · exact ⟨rfl, Iff.rfl⟩
      · split
        · exact .push s (by simp)
        · exact .callback s _ _

/-- Only `inter_close` and the removal itself touch the membership. -/
theorem Stays.runTask (s : WsSession) {t : WsTask} (hclose : t ≠ .interClose)
    (hremove : t ≠ .removeWsSession) : s.Stays (s.runTask t) := by
  cases t with
  | user => exact .refl s
  | connect =>
    have hopen : s.Stays ({ s with readyState := .open, reading := true }.emit [.uvReadStart]) :=
      ⟨rfl, Iff.rfl⟩
    exact hopen.trans (.callback _ _ _)
  | interClose => exact absurd rfl hclose
  | removeWsSession => exact absurd rfl hremove
  | handleWsFrame frame => exact .handleWsFrame s frame
  | parsed err =>
    show s.Stays (s.parsed err)
    unfold WsSession.parsed
    split
    · exact (Stays.push s (by simp)).trans (.callback _ _ _)
    · exact .refl s
  | deleteCtx ctx => exact ⟨rfl, Iff.rfl⟩

theorem Stays.fsActions (i : Nat) (r : FileReader) (s : WsSession) (as : List FsAction) :
    s.Stays (as.foldl (fsAction i r) s) := by
  induction as generalizing s with
  | nil => exact .refl s
  | cons a as ih =>
    have hone : s.Stays (fsAction i r s a) := by
      cases a with
      | _ => exact ⟨rfl, Iff.rfl⟩
    exact hone.trans (ih _)

end WsSession

theorem WsMember.onUpgrade (serverCallback : Bool) : WsMember (.onUpgrade serverCallback) := by
  cases serverCallback <;> simp [WsMember, WsSession.onUpgrade]

theorem WsMember.runTask {s : WsSession} (h : WsMember s) {t : WsTask} {st : List WsTask}
    (hst : s.stack = t :: st) : WsMember ({ s with stack := st }.runTask t) := by
  by_cases hclose : t = .interClose
  · -- the handle is closed, and the removal is left on the stack
    subst hclose
    have htrace : .uvClose ∈ ({ s with stack := st } : WsSession).interClose.trace := by
      simp [WsSession.interClose_trace]
    refine iff_of_true htrace (.inl ?_)
    show _ ∈ (WsSession.interClose _).stack
    rw [WsSession.interClose, WsSession.callback_stack]
    simp
  · by_cases hremove : t = .removeWsSession
    · subst hremove
      have hmem : .uvClose ∈ s.trace := h.mpr (.inl (by simp [hst]))
      exact iff_of_true (List.mem_append_left _ hmem) (.inr rfl)
    · have hpop : WsMember { s with stack := st } := by
        unfold WsMember at h ⊢
        rw [h, hst, List.mem_cons, or_iff_right (Ne.symm hremove)]
      exact hpop.stays (.runTask _ hclose hremove) (WsSession.runTask_writing _ hclose)

/-- **Every step keeps the membership right.** -/
theorem WsMember.step {s s' : WsSession} {l : WsLabel} (h : WsMember s) (hs : WsStep s l s') :
    WsMember s' := by
  cases hs with
  | call c hu => exact h.stays (.call s c) (s.call_writing c)
  | ret hst =>
    unfold WsMember at h ⊢
    rw [h, hst]
    simp
  | run hst ht => exact h.runTask hst
  | recv hst hr hs =>
    rcases WsSession.recvCb_cases hs with rfl | ⟨-, r, -, rfl⟩
    · exact h
    · refine h.stays (b := false) ⟨rfl, ?_⟩ (.refl _)
      simp [hst]
  | recvErr hst hr =>
    refine h.stays (b := false) ⟨rfl, ?_⟩ (.refl _)
    simp [WsSession.recvErr, WsSession.push]
  | @written ctx ws status hst hw =>
    have hpop : WsMember { s with writes := ws } := h
    have hstep : WsStep s (.written status)
        (WsSession.written { s with writes := ws } ctx status) := .written hst hw
    have hwriting := hstep.writing (by simp)
    refine hpop.stays ?_ hwriting
    unfold WsSession.written
    split
    · exact (WsSession.Stays.push _ (by simp)).trans (.callback _ _ _)
    · exact .push _ (by simp)
  | @file i result data r r' as hst hr he =>
    have hset : WsMember { s with readers := s.readers.set i r' } := h
    exact hset.stays (.fsActions i r' _ as) (WsSession.fsActions_writing i r' _ as)

/-! ### Closing for good -/

/-- The session is closed: the handle too, and between two events it has left `m_wsSessions`. -/
structure ClosedForGood (s : WsSession) : Prop where
  readyState : s.readyState = .closed
  uvClose : .uvClose ∈ s.trace
  left : s.stack = [] → s.registered = false

/-- `connect` has run and the handle has been closed. -/
structure WsEnded (s : WsSession) : Prop where
  inv : WsInv s
  member : WsMember s
  connected : .connect ∉ s.stack
  uvClose : .uvClose ∈ s.trace

theorem WsEnded.closedForGood {s : WsSession} (h : WsEnded s) : ClosedForGood s := by
  refine ⟨(h.inv.closed_iff h.connected).mpr h.uvClose, h.uvClose, fun hst => ?_⟩
  rcases h.member.mp h.uvClose with hmem | hreg
  · rw [hst] at hmem
    exact absurd hmem List.not_mem_nil
  · exact hreg

/-- Nothing puts `connect` on the stack again. -/
theorem WsStep.connect_not_mem {s s' : WsSession} {l : WsLabel} (h : WsStep s l s')
    (hconnect : .connect ∉ s.stack) : .connect ∉ s'.stack := by
  cases h with
  | call c hu =>
    by_cases hc : c = .close
    · subst hc
      show _ ∉ s.close.stack
      unfold WsSession.close
      split
      · exact hconnect
      · simpa using hconnect
    · rw [(WsSession.Background.call s hc).stack]
      exact hconnect
  | ret hst =>
    rw [hst] at hconnect
    exact fun hmem => hconnect (List.mem_cons_of_mem _ hmem)
  | @run t st hst ht =>
    rw [hst, List.mem_cons, not_or] at hconnect
    by_cases hclose : t = .interClose
    · subst hclose
      show _ ∉ (WsSession.interClose _).stack
      rw [WsSession.interClose, WsSession.callback_stack]
      split <;> simpa [WsSession.push, WsSession.emit] using hconnect.2
    · have hdone := ({ s with stack := st } : WsSession).runTask_handling
        (Ne.symm hconnect.1) hclose
      obtain ⟨ts, hstack, hts⟩ := hdone.stack
      rw [hstack]
      exact List.not_mem_append hts hconnect.2
  | recv hst hr hs =>
    rcases WsSession.recvCb_cases hs with rfl | ⟨-, r, -, rfl⟩
    · exact hconnect
    · simp [hst]
  | recvErr hst hr => simp [WsSession.recvErr, WsSession.push, hst]
  | written hst hw =>
    unfold WsSession.written
    split
    · rw [WsSession.callback_stack]
      split <;> simp [hst]
    · simp [hst]
  | file hst hr he =>
    rw [(WsSession.Background.fsActions _ _ s _ _).stack]
    exact hconnect

theorem WsEnded.step {s s' : WsSession} {l : WsLabel} (h : WsEnded s) (hs : WsStep s l s') :
    WsEnded s' := by
  obtain ⟨es, htrace, -⟩ := hs.extends
  refine ⟨h.inv.step hs, h.member.step hs, hs.connect_not_mem h.connected, ?_⟩
  rw [htrace]
  exact List.mem_append_left _ h.uvClose

/-- Where `inter_close` is next, nothing else can happen first. -/
theorem WsStep.interClose_next {s s' : WsSession} {l : WsLabel} (h : WsStep s l s')
    (hhead : s.stack.head? = some .interClose) : l = .run := by
  cases h with
  | run hst ht => rfl
  | call c hu =>
    rcases hu with hst | huser
    · simp [hst] at hhead
    · rw [hhead] at huser
      cases huser
  | ret hst => simp [hst] at hhead
  | _ => simp_all

/-- `close()` called here closes the session for good: in every later state it is closed, but
    for the moment at which `close()` is about to enter `inter_close`. -/
def ClosesForGood (s : WsSession) : Prop :=
  ∀ ls s', wsMachine.exec s (.call .close :: ls) = some s' →
    (ls = [] ∧ s'.stack.head? = some .interClose) ∨ ClosedForGood s'

/-- **Close is final.**  Wherever user code holds a session, in a callback of the server or of
    the session or between two events, its call of `close()` closes the session for good if and
    only if `connect` has run. -/
theorem close_for_good_iff {serverCallback : Bool} {ls : List WsLabel} {s : WsSession}
    (h : wsMachine.exec (.onUpgrade serverCallback) ls = some s) (huser : s.AtUser) :
    ClosesForGood s ↔ .connect ∉ s.stack := by
  have hinv := wsInv_exec h
  have hmember : WsMember s := wsMachine.exec_invariant
    (fun _ _ _ hi hs => hi.step (WsSession.step_cases hs)) (WsMember.onUpgrade serverCallback) h
  have hcall : wsMachine.step s (.call .close) = some s.close := if_pos huser
  have hended : ∀ {t t' : WsSession} {ls' : List WsLabel}, WsEnded t →
      wsMachine.exec t ls' = some t' → ClosedForGood t' := fun ht hrun =>
    (wsMachine.exec_invariant (fun _ _ _ hi hs => hi.step (WsSession.step_cases hs)) ht
      hrun).closedForGood
  constructor
  · -- before `connect` the guard takes the session for a closed one, and nothing happens
    intro hgood hconnect
    obtain ⟨hclosed, hnot⟩ := hinv.fresh hconnect
    have hsame : s.close = s := if_pos hclosed
    have hrun : wsMachine.exec s [.call .close] = some s := by
      rw [wsMachine.exec_cons, hcall, hsame]
      rfl
    rcases hgood [] s hrun with ⟨-, hhead⟩ | hdone
    · rcases huser with hst | huser
      · simp [hst] at hhead
      · rw [hhead] at huser
        cases huser
    · exact hnot hdone.uvClose
  · intro hconnect ls' s' hrun
    obtain ⟨t, ht, hrun⟩ := (wsMachine.exec_cons_eq_some).mp hrun
    obtain rfl : s.close = t := Option.some.inj (hcall.symm.trans ht)
    by_cases hclosed : s.readyState = .closed
    · -- closed already: the call does nothing
      have hsame : s.close = s := if_pos hclosed
      rw [hsame] at hrun
      have hmem : .uvClose ∈ s.trace := (hinv.closed_iff hconnect).mp hclosed
      exact .inr (hended ⟨hinv, hmember, hconnect, hmem⟩ hrun)
    · have hpush : s.close = s.push [.interClose] := if_neg hclosed
      rw [hpush] at hrun
      have hstep := WsSession.step_cases ht
      have hinv' := hinv.step hstep
      have hmember' := hmember.step hstep
      have hconnect' := hstep.connect_not_mem hconnect
      rw [hpush] at hinv' hmember' hconnect'
      have hhead : (s.push [.interClose]).stack.head? = some .interClose := rfl
      cases ls' with
      | nil =>
        obtain rfl : s.push [.interClose] = s' := Option.some.inj hrun
        exact .inl ⟨rfl, hhead⟩
      | cons l ls' =>
        obtain ⟨u, hu, hrest⟩ := (wsMachine.exec_cons_eq_some).mp hrun
        have hustep := WsSession.step_cases hu
        obtain rfl := hustep.interClose_next hhead
        have hmem : .uvClose ∈ u.trace := by
          have hcount := (hustep.count_interClose hhead).1
          exact List.count_pos_iff.mp (by omega)
        exact .inr (hended ⟨hinv'.step hustep, hmember'.step hustep,
          hustep.connect_not_mem hconnect', hmem⟩ hrest)

/-- User code calls `close()` between two events; the session has been closed for good. -/
theorem close_for_good_iff_idle :
    ∃ s, wsMachine.exec (.onUpgrade true) [.ret, .run] = some s ∧ ClosesForGood s := by
  obtain ⟨s, hs, huser, hconnect⟩ : ∃ s, wsMachine.exec (.onUpgrade true) [.ret, .run] = some s ∧
      s.AtUser ∧ .connect ∉ s.stack :=
    ⟨_, rfl, by decide, by decide⟩
  exact ⟨s, hs, (close_for_good_iff hs huser).mpr hconnect⟩

/-- User code refuses a connection: it calls `close()` in the server's `onConnect` callback. -/
def refused : List WsLabel := [.call .close, .ret, .run]

/-- The session opens all the same, with its handle not closed. -/
theorem refused_opens :
    (wsMachine.exec (.onUpgrade true) refused).map
        (fun s => (s.readyState, s.registered, s.trace)) = some (.open, true, [.uvReadStart]) ∧
      ¬ ClosesForGood (.onUpgrade true) := by
  refine ⟨by decide, fun h => ?_⟩
  rcases h [.ret, .run] _ rfl with ⟨hnil, -⟩ | hdone
  · cases hnil
  · exact absurd hdone.readyState (by decide)

end MyWebSocket
