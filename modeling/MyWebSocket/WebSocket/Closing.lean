import MyWebSocket.WebSocket.Steps

namespace MyWebSocket

open Log

/-!
# Closing a WebSocket session

`inter_close` is entered from five places, and only the public `close()` looks at `readyState`
first; `recv_cb` looks at it once for all frames of a read.  Two results about all runs say
exactly what that costs.

* `uvClose_once_iff` — handle and user are told of the close at most once if and only if
  `inter_close` is never entered on a closed session;
* `quiet_after_close_iff` — after `inter_close` no frame causes a callback or a PONG if and only
  if no frame that would cause one is handled on a closed session.
-/

/-- What runs when the top of the stack is run. -/
theorem WsStep.run_head {s s' : WsSession} (h : WsStep s .run s') {t : WsTask}
    (ht : s.stack.head? = some t) :
    ∃ st, s.stack = t :: st ∧ t ≠ .user ∧ s' = { s with stack := st }.runTask t := by
  cases h with
  | @run t' st hst hne =>
    rw [hst, List.head?_cons] at ht
    obtain rfl := Option.some.inj ht
    exact ⟨st, hst, hne, rfl⟩

/-- Before `connect` has run only the server's callback and `connect` itself are on the
    stack. -/
theorem WsInv.connect_not_mem {s : WsSession} (h : WsInv s) {t : WsTask}
    (ht : s.stack.head? = some t) (huser : t ≠ .user) (hconnect : t ≠ .connect) :
    .connect ∉ s.stack := by
  intro hmem
  rcases h.waiting hmem with hw | hw
  · rw [hw] at ht
    exact huser (Option.some.inj ht).symm
  · rw [hw] at ht
    exact hconnect (Option.some.inj ht).symm

/-! ### Closing once -/

/-- `inter_close` is not entered on a closed session. -/
def EntersOpen (s : WsSession) (l : WsLabel) : Prop :=
  l = .run → s.stack.head? = some .interClose → s.readyState ≠ .closed

instance (s : WsSession) (l : WsLabel) : Decidable (EntersOpen s l) := by
  unfold EntersOpen
  infer_instance

/-- The handle has been closed at most once, and the user told at most as often. -/
structure ClosedOnce (s : WsSession) : Prop where
  inv : WsInv s
  uvClose : s.trace.count .uvClose ≤ 1
  onClose : s.trace.count .onClose ≤ s.trace.count .uvClose

/-- What `inter_close` adds to the two counts. -/
theorem WsStep.count_interClose {s s' : WsSession} (hs : WsStep s .run s')
    (hhead : s.stack.head? = some .interClose) :
    s'.trace.count .uvClose = s.trace.count .uvClose + 1 ∧
      s'.trace.count .onClose ≤ s.trace.count .onClose + 1 := by
  obtain ⟨st, -, -, rfl⟩ := hs.run_head hhead
  have htrace : (WsSession.runTask { s with stack := st } .interClose).trace = s.trace ++ _ :=
    WsSession.interClose_trace { s with stack := st }
  rw [htrace, List.count_append, List.count_append]
  constructor
  · split <;> rfl
  · split <;> simp

theorem ClosedOnce.step {s s' : WsSession} {l : WsLabel} (h : ClosedOnce s)
    (hs : WsStep s l s') (hopen : EntersOpen s l) : ClosedOnce s' := by
  by_cases henter : l = .run ∧ s.stack.head? = some .interClose
  · -- `inter_close` runs, for the first time
    obtain ⟨rfl, hhead⟩ := henter
    have hconnect := h.inv.connect_not_mem hhead (by simp) (by simp)
    have hnot : .uvClose ∉ s.trace :=
      fun hmem => hopen rfl hhead ((h.inv.closed_iff hconnect).mpr hmem)
    have hzero : s.trace.count .uvClose = 0 := List.count_eq_zero.mpr hnot
    obtain ⟨huv, hon⟩ := hs.count_interClose hhead
    have hle := h.onClose
    exact ⟨h.inv.step hs, by omega, by omega⟩
  · -- nothing else adds to the two counts
    have huv : s'.trace.count .uvClose = s.trace.count .uvClose :=
      hs.grows.count_eq fun he => henter (he.1 rfl)
    have hon : s'.trace.count .onClose = s.trace.count .onClose :=
      hs.grows.count_eq fun he => henter (he.1 rfl)
    exact ⟨h.inv.step hs, by rw [huv]; exact h.uvClose, by rw [huv, hon]; exact h.onClose⟩

/-- Entering `inter_close` on a closed session closes the handle again. -/
theorem ClosedOnce.step_again {s s' : WsSession} {l : WsLabel} (h : ClosedOnce s)
    (hs : WsStep s l s') (hopen : ¬ EntersOpen s l) : 2 ≤ s'.trace.count .uvClose := by
  obtain ⟨rfl, hhead, hclosed⟩ : l = .run ∧ s.stack.head? = some .interClose ∧
      s.readyState = .closed := by
    simpa [EntersOpen] using hopen
  have hconnect := h.inv.connect_not_mem hhead (by simp) (by simp)
  have hmem : .uvClose ∈ s.trace := (h.inv.closed_iff hconnect).mp hclosed
  have hpos : 0 < s.trace.count .uvClose := List.count_pos_iff.mpr hmem
  have huv := (hs.count_interClose hhead).1
  omega

/-- **Closing once.**  In every run of a session, with any reads, read errors, write statuses,
    file results and user calls in any order, `uv_close` is issued at most once and the
    `onClose` callback invoked at most once, if and only if `inter_close` is never entered
    while `readyState` is `CLOSED`. -/
theorem uvClose_once_iff {serverCallback : Bool} {ls : List WsLabel} {s : WsSession}
    (h : wsMachine.exec (.onUpgrade serverCallback) ls = some s) :
    (s.trace.count .uvClose ≤ 1 ∧ s.trace.count .onClose ≤ 1) ↔
      wsMachine.AllSteps EntersOpen (.onUpgrade serverCallback) ls := by
  have hinit : ClosedOnce (.onUpgrade serverCallback) :=
    ⟨WsInv.onUpgrade serverCallback, Nat.zero_le _, Nat.le_refl _⟩
  -- entering again makes the second `uv_close`, and counts never shrink
  refine wsMachine.exec_iff_allSteps (I := ClosedOnce) (B := fun s => 2 ≤ s.trace.count .uvClose)
    (Q := fun s => s.trace.count .uvClose ≤ 1 ∧ s.trace.count .onClose ≤ 1) ?_ ?_ ?_ ?_ ?_ hinit h
  · exact fun s l s' hI hP hs => hI.step (WsSession.step_cases hs) hP
  · exact fun s l s' hI hP hs => hI.step_again (WsSession.step_cases hs) hP
  · exact fun s l s' hB hs => hB.trans ((WsSession.step_cases hs).extends.count_le _)
  · exact fun s hI => ⟨hI.uvClose, hI.onClose.trans hI.uvClose⟩
  · intro s hB hQ
    have hle := hQ.1
    omega

/-- The peer's CLOSE frame closes the session once: the run stays within the condition. -/
theorem uvClose_once_iff_peer :
    ∃ s, wsMachine.exec (.onUpgrade false)
        [.run, .recv true [0x88, 0x82, 0, 0, 0, 0, 3, 232], .run, .run, .run, .run] = some s ∧
      s.trace.count .uvClose ≤ 1 ∧ s.trace.count .onClose ≤ 1 := by
  obtain ⟨s, hs⟩ : ∃ s, wsMachine.exec (.onUpgrade false)
      [.run, .recv true [0x88, 0x82, 0, 0, 0, 0, 3, 232], .run, .run, .run, .run] = some s :=
    Option.isSome_iff_exists.mp (by decide)
  exact ⟨s, hs, (uvClose_once_iff hs).mpr (by decide)⟩

/-- A message is being sent when the peer's CLOSE frame arrives.  libuv cancels the write and
    calls back with `UV_ECANCELED`. -/
def sendCancelledByClose : List WsLabel :=
  [.run, .call (.onClose true), .call (.send [0x41]),
    .recv true [0x88, 0x82, 0, 0, 0, 0, 3, 232], .run, .run, .ret, .run, .run,
    .written (-125), .run, .run, .ret]

/-- The callback of the cancelled write closes the session a second time. -/
theorem sendCancelledByClose_twice :
    (wsMachine.exec (.onUpgrade false) sendCancelledByClose).map
      (fun s => (s.trace.count .uvClose, s.trace.count .onClose)) = some (2, 2) := by
  decide

/-! ### Quiet after the close -/

/-- No frame causes a callback or a PONG once the handle has been closed. -/
abbrev QuietAfterClose (trace : List WsEffect) : Prop :=
  NoneAfter (· = .uvClose) (·.byFrame = true) trace

/-- No frame, and no parse error, that causes a callback or a PONG is handled on a closed
    session. -/
def HandlesOpen (s : WsSession) (l : WsLabel) : Prop :=
  l = .run → s.readyState = .closed → s.stack.head?.any (·.noisy s.callbacks) = false

instance (s : WsSession) (l : WsLabel) : Decidable (HandlesOpen s l) := by
  unfold HandlesOpen
  infer_instance

/-- A noisy task on top of the stack: `connect` has run, and it is not `inter_close`. -/
theorem WsInv.of_noisy {s : WsSession} (h : WsInv s)
    (hnoisy : s.stack.head?.any (·.noisy s.callbacks) = true) :
    ∃ t, s.stack.head? = some t ∧ t.noisy s.callbacks = true ∧ t ≠ .interClose ∧
      .connect ∉ s.stack := by
  rw [Option.any_eq_true] at hnoisy
  obtain ⟨t, ht, hn⟩ := hnoisy
  have hne : ∀ u : WsTask, u.noisy s.callbacks = false → t ≠ u := by
    rintro u hu rfl
    exact absurd hn (by simp [hu])
  exact ⟨t, ht, hn, hne _ rfl, h.connect_not_mem ht (hne _ rfl) (hne _ rfl)⟩

theorem QuietAfterClose.step {s s' : WsSession} {l : WsLabel} (hinv : WsInv s)
    (h : QuietAfterClose s.trace) (hs : WsStep s l s') (hopen : HandlesOpen s l) :
    QuietAfterClose s'.trace := by
  by_cases hnoisy : l = .run ∧ s.stack.head?.any (·.noisy s.callbacks) = true
  · -- a frame is handled, on a session that is not closed
    obtain ⟨rfl, hn⟩ := hnoisy
    obtain ⟨t, ht, -, hclose, hconnect⟩ := hinv.of_noisy hn
    have hready : s.readyState ≠ .closed := by
      intro hclosed
      exact absurd hn (by simp [hopen rfl hclosed])
    have hnot : .uvClose ∉ s.trace := fun hmem => hready ((hinv.closed_iff hconnect).mpr hmem)
    refine .grows_of_forall (fun a ha => ?_) (hs.grows.mono fun e he => ?_)
    · rintro rfl
      exact hnot ha
    · rintro rfl
      exact hclose (Option.some.inj (ht.symm.trans (he.1 rfl).2))
  · -- no other step causes an effect of a frame
    exact h.grows (hs.grows.mono fun e he hb => hnoisy (he.2 hb))

/-- Handling a frame that causes something on a closed session is heard. -/
theorem QuietAfterClose.step_noisy {s s' : WsSession} {l : WsLabel} (hinv : WsInv s)
    (hs : WsStep s l s') (hopen : ¬ HandlesOpen s l) : ¬ QuietAfterClose s'.trace := by
  obtain ⟨rfl, hclosed, hn⟩ : l = .run ∧ s.readyState = .closed ∧
      s.stack.head?.any (·.noisy s.callbacks) = true := by
    simpa [HandlesOpen] using hopen
  obtain ⟨t, ht, hnoisy, -, hconnect⟩ := hinv.of_noisy hn
  have hmem : .uvClose ∈ s.trace := (hinv.closed_iff hconnect).mp hclosed
  obtain ⟨st, -, -, rfl⟩ := hs.run_head ht
  obtain ⟨es, htrace, e, he, hframe⟩ :=
    WsSession.runTask_of_noisy { s with stack := st } hnoisy
  rw [htrace]
  exact not_noneAfter hmem rfl he hframe

/-- **Quiet after the close.**  In every run of a session no `onMessage`, no PONG and no
    `onError` of a frame or of the parser follows the `uv_close` of `inter_close`, if and only
    if no frame or parse error that causes one is handled while `readyState` is `CLOSED`. -/
theorem quiet_after_close_iff {serverCallback : Bool} {ls : List WsLabel} {s : WsSession}
    (h : wsMachine.exec (.onUpgrade serverCallback) ls = some s) :
    QuietAfterClose s.trace ↔ wsMachine.AllSteps HandlesOpen (.onUpgrade serverCallback) ls := by
  -- what is heard after the close stays in the trace
  refine wsMachine.exec_iff_allSteps (I := fun s => WsInv s ∧ QuietAfterClose s.trace)
    (B := fun s => ¬ QuietAfterClose s.trace) (Q := fun s => QuietAfterClose s.trace)
    ?_ ?_ ?_ ?_ ?_ ⟨WsInv.onUpgrade serverCallback, noneAfter_nil⟩ h
  · intro s l s' hI hP hs
    have hstep := WsSession.step_cases hs
    exact ⟨hI.1.step hstep, hI.2.step hI.1 hstep hP⟩
  · exact fun s l s' hI hP hs => QuietAfterClose.step_noisy hI.1 (WsSession.step_cases hs) hP
  · exact fun s l s' hB hs hQ => hB (hQ.of_grows (WsSession.step_cases hs).extends)
  · exact fun s hI => hI.2
  · exact fun s hB => hB

/-- A masked TEXT frame "A" in a read of its own, then the peer's CLOSE frame. -/
theorem quiet_after_close_iff_peer :
    ∃ s, wsMachine.exec (.onUpgrade false)
        [.run, .call (.onMessage true), .recv true [0x81, 0x81, 0, 0, 0, 0, 0x41], .run, .ret, .run,
          .recv true [0x88, 0x82, 0, 0, 0, 0, 3, 232], .run, .run, .run, .run] = some s ∧
      QuietAfterClose s.trace := by
  obtain ⟨s, hs⟩ : ∃ s, wsMachine.exec (.onUpgrade false)
      [.run, .call (.onMessage true), .recv true [0x81, 0x81, 0, 0, 0, 0, 0x41], .run, .ret, .run,
        .recv true [0x88, 0x82, 0, 0, 0, 0, 3, 232], .run, .run, .run, .run] = some s :=
    Option.isSome_iff_exists.mp (by decide)
  exact ⟨s, hs, (quiet_after_close_iff hs).mpr (by decide)⟩

/-- A CLOSE frame and a TEXT frame in one read, with `onMessage` set. -/
def textBehindClose : List WsLabel :=
  [.run, .call (.onMessage true),
    .recv true [0x88, 0x82, 0, 0, 0, 0, 3, 232, 0x81, 0x81, 0, 0, 0, 0, 0x41],
    .run, .run, .run, .run]

/-- The TEXT frame is delivered on the closed session. -/
theorem textBehindClose_delivered :
    (wsMachine.exec (.onUpgrade false) textBehindClose).map (·.trace) =
        some [.uvReadStart, .uvReadStop, .uvClose, .removeWsSession,
          .onMessage ⟨true, 0, 0x1, true, 1, [0, 0, 0, 0], [0x41]⟩] ∧
      ¬ QuietAfterClose [.uvReadStart, .uvReadStop, .uvClose, .removeWsSession,
          .onMessage ⟨true, 0, 0x1, true, 1, [0, 0, 0, 0], [0x41]⟩] := by
  decide

end MyWebSocket
