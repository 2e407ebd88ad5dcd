import MyWebSocket.Http.Release
import MyWebSocket.Http.ZeroRead

namespace MyWebSocket

/-!
# Connections whose parser has failed

`recv_cb` writes a message when the parser has failed and goes on.

* `Reclaimed` — a connection whose parser is in its error state has been closed and removed;
* `reclaimed_iff` — between the events of a run this holds throughout if and only if no read puts
  the parser into its error state: nothing closes the connection before the read is over.
-/

variable {ρ : Type} {cfg : HttpConfig} {P : HttpParser ρ}

namespace HttpSession

/-! ### What touches the parser -/

theorem parser_onWriteEnd (s : HttpSession ρ) (w : PendingWrite) (a : Answer) :
    (s.onWriteEnd cfg w a).parser = s.parser := by
  have hreleased : (s.released a).parser = s.parser := by
    unfold released
    split <;> rfl
  rw [onWriteEnd_eq, ← hreleased]
  generalize s.released a = t
  show HttpSession.parser (if _ then _ else t) = _
  split
  · split
    · split <;> rfl
    · unfold upgradeSession
      split <;> rfl
  · rfl

theorem parser_send (s : HttpSession ρ) (i : Nat) : (s.send cfg i).parser = s.parser := by
  unfold send
  split <;> rfl

theorem parser_call (s : HttpSession ρ) (i : Nat) (c : RespCall) :
    (s.call cfg i c).parser = s.parser := by
  cases c with
  | sendStr body => exact parser_send _ i
  | sendJson text => exact parser_send _ i
  | _ => rfl

theorem parser_fsActions (j i : Nat) (s : HttpSession ρ) (as : List FsAction) :
    (as.foldl (fsAction cfg j i) s).parser = s.parser := by
  induction as generalizing s with
  | nil => rfl
  | cons a as ih =>
    rw [List.foldl_cons, ih]
    cases a with
    | onError => exact parser_send _ i
    | onClose => exact parser_send _ i
    | _ => rfl

theorem parser_handleRequest (s : HttpSession ρ) (upgrade : Bool) :
    (s.handleRequest cfg upgrade).parser = s.parser := by
  rw [handleRequest_eq]
  split
  · exact parser_send _ _
  · unfold dispatchRequest
    split
    · rfl
    · exact parser_send _ _

theorem parser_onEvent (s : HttpSession ρ) (e : ReqEvent) :
    (s.onEvent cfg e).parser = s.parser := by
  cases e with
  | messageComplete upgrade => exact parser_handleRequest s upgrade
  | _ => rfl

end HttpSession

/-- Only a read with a buffer touches the parser. -/
theorem HttpStep.parser {s s' : HttpSession ρ} {l : HttpLabel} (h : HttpStep cfg P s l s')
    (hl : ∀ data, l ≠ .recv true data) : s'.parser = s.parser := by
  cases h with
  | call c hu hi => exact s.parser_call _ c
  | setReq req hu => rfl
  | ret hst => rfl
  | run hst => exact HttpSession.parser_onEvent _ _
  | recv base data hst hr =>
    cases base with
    | true => exact absurd rfl (hl data)
    | false => exact s.parser_stopOnRead
  | recvErr hst hr => rfl
  | timer hst ht =>
    show HttpSession.parser (if _ then _ else _) = _
    split <;> rfl
  | written status hst hw ha => exact HttpSession.parser_onWriteEnd _ _ _
  | file hst hr he => exact HttpSession.parser_fsActions _ _ _ _

/-- While code is being executed nothing touches the parser or closes the handle. -/
theorem HttpStep.at_work {s s' : HttpSession ρ} {l : HttpLabel} (h : HttpStep cfg P s l s')
    (hstack : s.stack ≠ []) : s'.parser = s.parser ∧ s'.closing = s.closing := by
  refine ⟨h.parser fun data hl => ?_, ?_⟩
  · subst hl
    cases h with
    | recv _ _ hst _ => exact hstack hst
  · cases h with
    | call c hu hi => exact (s.call_handle cfg _ c).2
    | setReq req hu => rfl
    | ret hst => rfl
    | @run e st hst =>
      cases e with
      | messageComplete upgrade =>
        exact (HttpSession.handleRequest_handle cfg { s with stack := st } upgrade).2
      | _ => rfl
    | recv base data hst hr => exact absurd hst hstack
    | recvErr hst hr => exact absurd hst hstack
    | timer hst ht => exact absurd hst hstack
    | written status hst hw ha => exact absurd hst hstack
    | file hst hr he => exact absurd hst hstack

/-! ### Runs -/

variable {κ : Type} {others : κ} {loop : HttpLoop κ}

/-- If the parser is in its error state, the connection has been closed and its session
    removed. -/
def HttpSession.Reclaimed (s : HttpSession (ParserData κ)) : Prop :=
  s.parser.httpErrno ≠ .ok → s.closing = true ∧ s.registered = false

/-- The read does not put the parser into its error state. -/
def HttpSession.ReadsWell (loop : HttpLoop κ) (s : HttpSession (ParserData κ)) :
    HttpLabel → Prop
  | .recv true data => (httpParserExecute loop s.parser data).1.httpErrno = .ok
  | _ => True

instance (loop : HttpLoop κ) (s : HttpSession (ParserData κ)) (l : HttpLabel) :
    Decidable (s.ReadsWell loop l) := by
  unfold HttpSession.ReadsWell
  split <;> infer_instance

theorem HttpSession.errno_step {s s' : HttpSession (ParserData κ)} {l : HttpLabel}
    (h : HttpStep cfg (httpParser others loop) s l s') (hs : s.parser.httpErrno = .ok)
    (hl : s.ReadsWell loop l) : s'.parser.httpErrno = .ok := by
  by_cases hread : ∃ data, l = .recv true data
  · obtain ⟨data, rfl⟩ := hread
    cases h with
    | recv _ _ hst hr =>
      rw [parser_recvCb]
      exact hl
  · rw [h.parser fun data hdata => hread ⟨data, hdata⟩]
    exact hs

/-- A run that ends between two events passes such a state after every step, with the parser and
    the handle as the step has left them. -/
theorem HttpSession.exists_between {s s' : HttpSession ρ} {ls : List HttpLabel}
    (h : (httpMachine cfg P).exec s ls = some s') (hend : s'.stack = []) :
    ∃ ls₁ ls₂ t, ls = ls₁ ++ ls₂ ∧ (httpMachine cfg P).exec s ls₁ = some t ∧ t.stack = [] ∧
      t.parser = s.parser ∧ t.closing = s.closing := by
  induction ls generalizing s with
  | nil =>
    obtain rfl : s = s' := Option.some.inj h
    exact ⟨[], [], s, rfl, rfl, hend, rfl, rfl⟩
  | cons l ls ih =>
    by_cases hstack : s.stack = []
    · exact ⟨[], l :: ls, s, rfl, rfl, hstack, rfl, rfl⟩
    · obtain ⟨u, hl, hu⟩ := (Machine.exec_cons_eq_some _).mp h
      obtain ⟨hparser, hclosing⟩ := (HttpSession.step_cases hl).at_work hstack
      obtain ⟨ls₁, ls₂, t, rfl, ht, htstack, htparser, htclosing⟩ := ih hu
      exact ⟨l :: ls₁, ls₂, t, rfl, (Machine.exec_cons_eq_some _).mpr ⟨u, hl, ht⟩, htstack,
        htparser.trans hparser, htclosing.trans hclosing⟩

/-- **Connections whose parser has failed are reclaimed** in every state between the events of a
    run if and only if no read of the run puts the parser into its error state. -/
theorem reclaimed_iff (cfg : HttpConfig) (others : κ) (loop : HttpLoop κ) (method : HttpMethod)
    {ls : List HttpLabel} {s : HttpSession (ParserData κ)}
    (hrun : (httpMachine cfg (httpParser others loop)).exec
      (.accepted (httpParser others loop) method) ls = some s) (hend : s.stack = []) :
    (∀ ls₁ ls₂ t, ls = ls₁ ++ ls₂ →
      (httpMachine cfg (httpParser others loop)).exec
          (.accepted (httpParser others loop) method) ls₁ = some t →
        t.stack = [] → t.Reclaimed) ↔
      (httpMachine cfg (httpParser others loop)).AllSteps (HttpSession.ReadsWell loop)
        (.accepted (httpParser others loop) method) ls := by
  constructor
  · intro hall
    by_contra hbad
    -- the first read that fails leaves an open connection
    obtain ⟨ls₁, l, ls₂, t, u, rfl, ht, hnot, hu, hs⟩ := Machine.exists_of_not_allSteps _ hrun hbad
    have hretired : t.Retired := Machine.exec_invariant _
      (fun s l s' hI hs => HttpSession.Retired.step hI (HttpSession.step_cases hs))
      (.accepted method) ht
    obtain ⟨data, rfl⟩ : ∃ data, l = .recv true data := by
      by_contra hno
      refine hnot ?_
      unfold HttpSession.ReadsWell
      split
      · next data => exact absurd ⟨data, rfl⟩ hno
      · trivial
    obtain ⟨hreading, rfl⟩ : t.reading = true ∧
        u = t.recvCb (httpParser others loop) true data := by
      cases HttpSession.step_cases hu with
      | recv _ _ hst hr => exact ⟨hr, rfl⟩
    obtain ⟨-, hopen⟩ := hretired.at_work (.inl hreading)
    -- nothing closes it before the next state between two events
    obtain ⟨ls₃, ls₄, v, rfl, hv, hvstack, hvparser, hvclosing⟩ :=
      HttpSession.exists_between hs hend
    have herrno : v.parser.httpErrno ≠ .ok := by
      rw [hvparser, HttpSession.parser_recvCb]
      exact hnot
    have hclosed := (hall (ls₁ ++ .recv true data :: ls₃) ls₄ v (by simp)
      (Machine.exec_append _ ht ((Machine.exec_cons_eq_some _).mpr ⟨_, hu, hv⟩)) hvstack herrno).1
    obtain ⟨-, hkeeps, -⟩ := t.recvCb_handle (P := httpParser others loop) true data
    rw [hvclosing, hkeeps, hopen] at hclosed
    cases hclosed
  · rintro hall ls₁ ls₂ t rfl ht - herrno
    refine absurd ?_ herrno
    exact Machine.exec_invariant_of_allSteps _ (I := fun s => s.parser.httpErrno = .ok)
      (fun s l s' hI hP hs => HttpSession.errno_step (HttpSession.step_cases hs) hI hP) rfl
      (Machine.AllSteps.left _ hall) ht

/-- The parser on a request that asks for keep-alive, and on a byte that begins no method. -/
def failingLoop : HttpLoop Unit :=
  tableLoop
    [((.startReq, keepAliveRequest), ⟨.startReq, .ok,
        [.messageBegin, .url (str "/a"), .headerField (str "Connection"),
          .headerValue (str "keep-alive"), .headersComplete .get 1 1, .messageComplete false],
        keepAliveRequest.length⟩),
      ((.startReq, str "?"), ⟨.startReq, .invalidMethod, [], 0⟩)]

/-- No read of this run fails. -/
theorem reclaimed_iff_idle :
    ∃ s, (httpMachine bareConfig (httpParser () failingLoop)).exec
      (.accepted (httpParser () failingLoop) .get) idleLabels = some s ∧ s.Reclaimed := by
  have hrun : ∃ s, (httpMachine bareConfig (httpParser () failingLoop)).exec
      (.accepted (httpParser () failingLoop) .get) idleLabels = some s ∧ s.stack = [] :=
    ⟨_, rfl, rfl⟩
  obtain ⟨s, hs, hstack⟩ := hrun
  refine ⟨s, hs, ?_⟩
  exact (reclaimed_iff bareConfig () failingLoop .get hs hstack).mpr (by decide) idleLabels [] s
    (List.append_nil _).symm hs hstack

/-- The byte leaves an open connection with its timer stopped and its parser in the error state;
    the next request is not parsed any more. -/
theorem failedParser_staysOpen :
    let P := httpParser () failingLoop
    let after (ls : List HttpLabel) := (httpMachine bareConfig P).exec (.accepted P .get) ls
    (after (idleLabels ++ [.recv true (str "?")])).map
        (fun s => (s.parser.httpErrno, s.closing, s.registered, s.timerArmed)) =
      some (.invalidMethod, false, true, false) ∧
    (after (idleLabels ++ [.recv true (str "?"), .recv true keepAliveRequest])).map
        (fun s => (s.stack, s.closing, s.registered, s.timerArmed)) =
      some ([], false, true, false) := by
  decide

end MyWebSocket
