import MyWebSocket.Http.Ordering

namespace MyWebSocket

open Log

/-!
# The callbacks of a file response

`httpResp::sendFile` leaves everything to the callbacks of its reader, `m_onError` and
`m_onClose`, and each of them calls `send`.

* `WriteEnds` — what the end of a write changes;
* `Numbered` — the responses handlers and readers refer to exist;
* `HttpStep.readers_cases` — which steps change the readers, and how;
* `fileWrites` — the writes that the callbacks of one reader issue, as a record beside the run;
* `sendFile_once_iff` — there is exactly one callback, and so one write, if and only if closing
  the file has not failed.
-/

variable {ρ : Type} {cfg : HttpConfig} {P : HttpParser ρ}

/-- What happens to the connection and its timer. -/
def HttpEffect.isConnection : HttpEffect → Bool
  | .uvReadStart | .uvReadStop | .uvClose | .uvTimerStart _ | .uvTimerStop | .removeSession
  | .onUpgrade | .assertFailed => true
  | _ => false

namespace HttpSession

/-! ### The end of a write -/

/-- What follows when the write of a response with the given reader has ended. -/
structure WriteEnds (s s' : HttpSession ρ) (w : PendingWrite) (a : Answer) : Prop where
  readers : s'.readers = s.readers
  answers : s'.answers = s.answers
  writes : s'.writes = s.writes
  nextCtx : s'.nextCtx = s.nextCtx
  stack : s'.stack = s.stack
  /-- The reader is deleted first, the context last. -/
  trace : ∃ es, (∀ e ∈ es, HttpEffect.isConnection e = true) ∧ s'.trace = s.trace ++
    ((if a.resp.sendType = .file then a.resp.reader.toList.map HttpEffect.deleteReader else []) ++
      es ++ [HttpEffect.deleteCtx w.ctx])

/-- A change of the connection only. -/
structure Connecting (s s' : HttpSession ρ) : Prop where
  readers : s'.readers = s.readers
  answers : s'.answers = s.answers
  writes : s'.writes = s.writes
  nextCtx : s'.nextCtx = s.nextCtx
  stack : s'.stack = s.stack
  trace : Grows (fun e => HttpEffect.isConnection e = true) s.trace s'.trace

theorem Connecting.refl (s : HttpSession ρ) : Connecting s s :=
  ⟨rfl, rfl, rfl, rfl, rfl, .refl _ _⟩

theorem Connecting.startKeepAliveTimer (s : HttpSession ρ) :
    Connecting s (s.startKeepAliveTimer cfg) :=
  ⟨rfl, rfl, rfl, rfl, rfl, .append _ (by simp [HttpEffect.isConnection])⟩

theorem Connecting.stopKeepAliveTimer (s : HttpSession ρ) :
    Connecting s s.stopKeepAliveTimer :=
  ⟨rfl, rfl, rfl, rfl, rfl, .append _ (by simp [HttpEffect.isConnection])⟩

theorem Connecting.closeSession (s : HttpSession ρ) (isUpgrade : Bool) :
    Connecting s (s.closeSession isUpgrade) := by
  have htrace := s.closeSession_trace isUpgrade
  have hgrows : Grows (fun e => HttpEffect.isConnection e = true) s.trace
      (s.closeSession isUpgrade).trace := by
    rw [htrace]
    cases isUpgrade <;> exact .append _ (by simp [HttpEffect.isConnection])
  cases isUpgrade <;> exact ⟨rfl, rfl, rfl, rfl, rfl, hgrows⟩

theorem Connecting.trans {s t u : HttpSession ρ} (h : Connecting s t) (h' : Connecting t u) :
    Connecting s u :=
  ⟨h'.readers.trans h.readers, h'.answers.trans h.answers, h'.writes.trans h.writes,
    h'.nextCtx.trans h.nextCtx, h'.stack.trans h.stack, h.trace.trans h'.trace⟩

theorem Connecting.upgradeSession (s : HttpSession ρ) : Connecting s (s.upgradeSession cfg) := by
  unfold HttpSession.upgradeSession
  split
  · apply (Connecting.closeSession s true).trans
    exact ⟨rfl, rfl, rfl, rfl, rfl, .append _ (by simp [HttpEffect.isConnection])⟩
  · exact ⟨rfl, rfl, rfl, rfl, rfl, .append _ (by simp [HttpEffect.isConnection])⟩

theorem onWriteEnd_ends (cfg : HttpConfig) (s : HttpSession ρ) (w : PendingWrite) (a : Answer) :
    WriteEnds s (s.onWriteEnd cfg w a) w a := by
  have hrel : (s.released a).readers = s.readers ∧ (s.released a).answers = s.answers ∧
      (s.released a).writes = s.writes ∧ (s.released a).nextCtx = s.nextCtx ∧
      (s.released a).stack = s.stack ∧ (s.released a).trace = s.trace ++
        if a.resp.sendType = .file then a.resp.reader.toList.map .deleteReader else [] := by
    unfold released
    split
    · exact ⟨rfl, rfl, rfl, rfl, rfl, rfl⟩
    · exact ⟨rfl, rfl, rfl, rfl, rfl, (List.append_nil _).symm⟩
  rw [onWriteEnd_eq]
  generalize s.released a = t at hrel
  obtain ⟨hreaders, hanswers, hwrites, hnext, hstack, htrace⟩ := hrel
  -- between the two deletions only the connection changes
  have hconn : ∀ u, Connecting t u → WriteEnds s (u.emit [.deleteCtx w.ctx]) w a := by
    intro u hu
    obtain ⟨es, hes, hall⟩ := hu.trace
    refine ⟨hu.readers.trans hreaders, hu.answers.trans hanswers, hu.writes.trans hwrites,
      hu.nextCtx.trans hnext, hu.stack.trans hstack, es, hall, ?_⟩
    rw [emit_trace, hes, htrace]
    simp only [List.append_assoc]
  apply hconn
  split
  · split
    · split
      · exact .startKeepAliveTimer t
      · exact .closeSession t false
    · exact .upgradeSession t
  · exact .refl t

/-! ### Readers -/

/-- Handlers and readers belong to responses that exist. -/
structure Numbered (s : HttpSession ρ) : Prop where
  handler : ∀ i, .handler i ∈ s.trace → i < s.answers.length
  reader : ∀ r ∈ s.readers, r.resp < s.answers.length

theorem Numbered.accepted (method : HttpMethod) : (accepted P method).Numbered :=
  ⟨fun i hi => by simp [HttpSession.accepted] at hi,
    fun r hr => by simp [HttpSession.accepted] at hr⟩

/-- No handler is called, and the readers are those of before or belong to known responses. -/
theorem Numbered.of_grows {s s' : HttpSession ρ} (h : s.Numbered)
    (hlen : s'.answers.length = s.answers.length)
    (hg : Grows (fun e => ∀ i, e ≠ .handler i) s.trace s'.trace)
    (hreaders : ∀ r ∈ s'.readers, r ∈ s.readers ∨ r.resp < s.answers.length) : s'.Numbered := by
  refine ⟨fun i hi => ?_, fun r hr => ?_⟩
  · rw [hlen]
    exact h.handler i ((hg.mem_iff fun hne => hne i rfl).mp hi)
  · rw [hlen]
    rcases hreaders r hr with hmem | hlt
    · exact h.reader r hmem
    · exact hlt

theorem Numbered.responding {s s' : HttpSession ρ} (h : s.Numbered) (hr : s.Responding s')
    (hreaders : ∀ r ∈ s'.readers, r ∈ s.readers ∨ r.resp < s.answers.length) : s'.Numbered := by
  refine h.of_grows hr.length (hr.trace.mono fun e he i hi => ?_) hreaders
  subst hi
  cases he

theorem Numbered.connecting {s s' : HttpSession ρ} (h : s.Numbered) (hc : s.Connecting s') :
    s'.Numbered := by
  refine h.of_grows (by rw [hc.answers]) (hc.trace.mono fun e he i hi => ?_) ?_
  · subst hi
    cases he
  · rw [hc.readers]
    exact fun r hr => .inl hr

theorem Numbered.handleRequest {s : HttpSession ρ} (h : s.Numbered) (upgrade : Bool) :
    (s.handleRequest cfg upgrade).Numbered := by
  have hspec := s.handleRequest_spec cfg upgrade
  have hlen : (s.handleRequest cfg upgrade).answers.length = s.answers.length + 1 := by
    simpa using congrArg List.length hspec.asked
  refine ⟨fun i hi => ?_, fun r hr => ?_⟩
  · -- the only handler that may be new is that of the new request
    rw [hlen]
    rcases hspec.answered with ⟨-, htrace⟩ | ⟨-, ctx, buffers, htrace⟩
    · rw [htrace, List.mem_append] at hi
      rcases hi with hi | hi
      · exact Nat.lt_succ_of_lt (h.handler i hi)
      · obtain rfl : i = s.answers.length := by simpa using hi
        exact Nat.lt_succ_self _
    · rw [htrace, List.mem_append] at hi
      rcases hi with hi | hi
      · exact Nat.lt_succ_of_lt (h.handler i hi)
      · simp at hi
  · rw [hlen]
    rw [hspec.readers] at hr
    exact Nat.lt_succ_of_lt (h.reader r hr)

@[simp] theorem call_readers (s : HttpSession ρ) (i : Nat) (c : RespCall) :
    (s.call cfg i c).readers =
      s.readers ++ match c with
        | .sendFile path => [⟨i, (FileReader.fileRead path).1⟩]
        | _ => [] := by
  cases c with
  | sendFile path => rfl
  | sendStr body => simp [call]
  | sendJson text => simp [call]
  | _ => exact (List.append_nil _).symm

/-- The actions of a reader change no reader. -/
theorem fsActions_readers (j i : Nat) (s : HttpSession ρ) (as : List FsAction) :
    (as.foldl (fsAction cfg j i) s).readers = s.readers := by
  induction as generalizing s with
  | nil => rfl
  | cons a as ih => rw [List.foldl_cons, ih, fsAction_readers]

/-- **Every step keeps the numbers.** -/
theorem Numbered.step {s s' : HttpSession ρ} {l : HttpLabel} (h : s.Numbered)
    (hs : HttpStep cfg P s l s') : s'.Numbered := by
  cases hs with
  | @call i c hu hi =>
    refine h.responding (.call s i c) fun r hr => ?_
    rw [call_readers, List.mem_append] at hr
    rcases hr with hr | hr
    · exact .inl hr
    · cases c with
      | sendFile path =>
        obtain rfl : r = ⟨i, (FileReader.fileRead path).1⟩ := by simpa using hr
        exact .inr (h.handler i hi)
      | _ => simp at hr
  | setReq req hu => exact ⟨h.handler, h.reader⟩
  | ret hst => exact ⟨h.handler, h.reader⟩
  | @run e st hst =>
    have hpop : Numbered { s with stack := st } := ⟨h.handler, h.reader⟩
    cases e with
    | messageComplete upgrade => exact hpop.handleRequest upgrade
    | _ => exact ⟨h.handler, h.reader⟩
  | recv base data hst hr =>
    have hspec := s.recvCb_spec (P := P) base data
    refine h.of_grows (by rw [hspec.answers]) ?_ (by rw [hspec.readers]; exact fun r hr => .inl hr)
    rw [hspec.trace]
    refine .append _ fun e he i hi => ?_
    subst hi
    split at he <;> simp at he
  | recvErr hst hr =>
    exact h.connecting ((Connecting.stopKeepAliveTimer s).trans (.closeSession _ false))
  | timer hst ht =>
    have hdis : Numbered { s with timerArmed := false } := ⟨h.handler, h.reader⟩
    show Numbered (if s.timerData then _ else _)
    split
    · exact hdis.connecting (.closeSession _ false)
    · exact hdis
  | @written w ws a status hst hw ha =>
    have hends := onWriteEnd_ends cfg { s with writes := ws } w a
    obtain ⟨es, hes, htrace⟩ := hends.trace
    refine h.of_grows (by rw [hends.answers]) ?_
      (by rw [hends.readers]; exact fun r hr => .inl hr)
    rw [htrace]
    refine .append _ fun e he i hi => ?_
    subst hi
    rw [List.mem_append, List.mem_append] at he
    rcases he with (he | he) | he
    · split at he
      · obtain ⟨k, -, hk⟩ := List.mem_map.mp he
        cases hk
      · simp at he
    · cases hes _ he
    · simp at he
  | @file j result data r r' as hst hr he =>
    refine h.responding (.fsActions cfg _ _ s _ _) fun x hx => ?_
    rw [fsActions_readers] at hx
    -- the reader that has gone on reads for the same response
    rcases List.mem_or_eq_of_mem_set hx with hmem | rfl
    · exact .inl hmem
    · exact .inr (h.reader r (List.mem_of_getElem? hr))

theorem onEvent_readers (s : HttpSession ρ) (e : ReqEvent) :
    (s.onEvent cfg e).readers = s.readers := by
  cases e with
  | messageComplete upgrade => exact (s.handleRequest_spec cfg upgrade).readers
  | _ => rfl

end HttpSession

/-- What a step does to the readers: `sendFile` adds one, the end of a file request changes one,
    and nothing else touches them. -/
theorem HttpStep.readers_cases {s s' : HttpSession ρ} {l : HttpLabel} (hs : HttpStep cfg P s l s') :
    (s'.readers = s.readers ∧ ∀ j result data, l ≠ .file j result data) ∨
      (∃ i path, l = .call i (.sendFile path) ∧ .handler i ∈ s.trace ∧
        s'.readers = s.readers ++ [⟨i, (FileReader.fileRead path).1⟩]) ∨
      ∃ j result data r r' as, l = .file j result data ∧ s.readers[j]? = some r ∧
        r.reader.event result data = some (r', as) ∧
        s' = as.foldl (HttpSession.fsAction cfg j r.resp)
          { s with readers := s.readers.set j { r with reader := r' } } := by
  cases hs with
  | @call i c hu hi =>
    cases c with
    | sendFile path => exact .inr (.inl ⟨i, path, rfl, hi, s.call_readers i (.sendFile path)⟩)
    | _ =>
      refine .inl ⟨(s.call_readers i _).trans (List.append_nil _), ?_⟩
      simp
  | setReq req hu => exact .inl ⟨rfl, by simp⟩
  | ret hst => exact .inl ⟨rfl, by simp⟩
  | @run e st hst =>
    exact .inl ⟨HttpSession.onEvent_readers { s with stack := st } e, by simp⟩
  | recv base data hst hr => exact .inl ⟨(s.recvCb_spec (P := P) base data).readers, by simp⟩
  | recvErr hst hr =>
    have hconn := (HttpSession.Connecting.stopKeepAliveTimer s).trans (.closeSession _ false)
    exact .inl ⟨hconn.readers, by simp⟩
  | timer hst ht =>
    refine .inl ⟨?_, by simp⟩
    show (if s.timerData then _ else _ : HttpSession ρ).readers = s.readers
    split
    · exact (HttpSession.Connecting.closeSession _ false).readers
    · rfl
  | @written w ws a status hst hw ha =>
    exact .inl ⟨(HttpSession.onWriteEnd_ends cfg { s with writes := ws } w a).readers, by simp⟩
  | @file j result data r r' as hst hr he =>
    exact .inr (.inr ⟨j, result, data, r, r', as, rfl, hr, he, rfl⟩)

/-! ### The writes of a file response -/

namespace HttpSession

/-- One write for each callback. -/
theorem fsAction_handedOver (cfg : HttpConfig) (j : Nat) {i : Nat} {s : HttpSession ρ}
    (hi : i < s.answers.length) (a : FsAction) :
    handedOver (fsAction cfg j i s a).trace =
      handedOver s.trace ++ if a.isCallback then [i] else [] := by
  cases a with
  | onError =>
    obtain ⟨ctx, buffers, htrace⟩ := send_trace cfg
      (s := (s.emit [.fs j .onError]).onResp i HttpResp.setErr) (by simpa using hi)
    have hall : (fsAction cfg j i s .onError).trace =
        s.trace ++ [.fs j .onError, .newCtx ctx, .uvWrite ctx i buffers, .deleteReader j] := by
      show (send cfg _ i).trace ++ _ = _
      rw [htrace]
      simp
    rw [hall, handedOver, List.filterMap_append]
    rfl
  | onClose =>
    obtain ⟨ctx, buffers, htrace⟩ := send_trace cfg
      (s := s.emit [.fs j .onClose]) (i := i) hi
    have hall : (fsAction cfg j i s .onClose).trace =
        s.trace ++ [.fs j .onClose, .newCtx ctx, .uvWrite ctx i buffers] := by
      show (send cfg _ i).trace = _
      rw [htrace]
      simp
    rw [hall, handedOver, List.filterMap_append]
    rfl
  | _ => simp [fsAction, handedOver, HttpEffect.written, FsAction.isCallback]

theorem fsActions_handedOver (cfg : HttpConfig) (j : Nat) {i : Nat} (as : List FsAction)
    {s : HttpSession ρ} (hi : i < s.answers.length) :
    handedOver (as.foldl (fsAction cfg j i) s).trace =
      handedOver s.trace ++ (FileReader.callbacks as).map fun _ => i := by
  induction as generalizing s with
  | nil => simp [FileReader.callbacks]
  | cons a as ih =>
    have hlen := (Responding.fsAction cfg j i s a).length
    rw [List.foldl_cons, ih (by rwa [hlen]), fsAction_handedOver cfg j hi, List.append_assoc]
    rcases ha : a.isCallback with _ | _
    · simp [FileReader.callbacks, ha]
    · simp [FileReader.callbacks, ha]

end HttpSession

/-- The responses whose writes the callbacks of reader `j` have issued, in that order. -/
def fileWrites (cfg : HttpConfig) (P : HttpParser ρ) (j : Nat) (w : List Nat)
    (s : HttpSession ρ) : HttpLabel → List Nat
  | .file k result data =>
    match (httpMachine cfg P).step s (.file k result data) with
    | some s' =>
      if k = j then w ++ (handedOver s'.trace).drop (handedOver s.trace).length else w
    | none => w
  | _ => w

/-- Reader `j` closes its file, and that fails. -/
def FileCloseFails (j : Nat) (s : HttpSession ρ) : HttpLabel → Prop
  | .file k result _ => k = j ∧ ∃ r ∈ s.readers[k]?, r.reader.CloseFails result
  | _ => False

instance (j : Nat) (s : HttpSession ρ) (l : HttpLabel) : Decidable (FileCloseFails j s l) := by
  unfold FileCloseFails
  split <;> infer_instance

/-- Reader `j` is at work and has caused no write, or it has called back once. -/
def WrittenOnce (j : Nat) (x : HttpSession ρ × List Nat) : Prop :=
  x.1.Numbered ∧
    match x.1.readers[j]? with
    | none => x.2 = []
    | some r => r.reader.pending ≠ none ∧ x.2 = [] ∨ r.reader.pending = none ∧ x.2 = [r.resp]

/-- Reader `j` has called back twice. -/
def WrittenTwice (j : Nat) (x : HttpSession ρ × List Nat) : Prop :=
  ∃ r, x.1.readers[j]? = some r ∧ r.reader.pending = none ∧ x.2 = [r.resp, r.resp]

/-- The record when reader `j` has done `as`. -/
theorem fileWrites_file {s s' : HttpSession ρ} {k j : Nat} {result : Int} {data : Bytes}
    {r : RespReader} {r' : FileReader} {as : List FsAction} (w : List Nat)
    (hl : (httpMachine cfg P).step s (.file k result data) = some s')
    (hi : r.resp < s.answers.length)
    (hs' : s' = as.foldl (HttpSession.fsAction cfg k r.resp)
      { s with readers := s.readers.set k { r with reader := r' } }) :
    fileWrites cfg P j w s (.file k result data) =
      if k = j then w ++ (FileReader.callbacks as).map fun _ => r.resp else w := by
  have hover := HttpSession.fsActions_handedOver cfg k as
    (s := { s with readers := s.readers.set k { r with reader := r' } }) hi
  rw [← hs'] at hover
  simp only [fileWrites, hl]
  rw [hover, List.drop_left]

/-- **One step.**  The record stays in order unless closing the file fails. -/
theorem WrittenOnce.step {j : Nat} {x x' : HttpSession ρ × List Nat} {l : HttpLabel}
    (h : WrittenOnce j x)
    (hl : ((httpMachine cfg P).noting (fileWrites cfg P j)).step x l = some x') :
    ¬ FileCloseFails j x.1 l ∧ WrittenOnce j x' ∨ FileCloseFails j x.1 l ∧ WrittenTwice j x' := by
  obtain ⟨s, w⟩ := x
  obtain ⟨s', w'⟩ := x'
  obtain ⟨hstep, rfl⟩ := (httpMachine cfg P).noting_step_eq_some.mp hl
  obtain ⟨hnum, hw⟩ := h
  have hs := HttpSession.step_cases hstep
  have hnum' := hnum.step hs
  dsimp only at hnum hw hstep hs hnum' ⊢
  rcases hs.readers_cases with ⟨hsame, hfile⟩ | ⟨i, path, rfl, -, hadd⟩ |
    ⟨k, result, data, r, r', as, rfl, hr, he, hs'⟩
  · refine .inl ⟨?_, hnum', ?_⟩
    · cases l with
      | file k result data => exact absurd rfl (hfile k result data)
      | _ => exact id
    · have hnote : fileWrites cfg P j w s l = w := by
        cases l with
        | file k result data => exact absurd rfl (hfile k result data)
        | _ => rfl
      dsimp only
      rw [hsame, hnote]
      exact hw
  · -- a new reader: the record is that of the readers before
    refine .inl ⟨id, hnum', ?_⟩
    show match s'.readers[j]? with | none => w = [] | some r => _
    rw [hadd]
    rcases Nat.lt_trichotomy j s.readers.length with hlt | rfl | hgt
    · rw [List.getElem?_append_left hlt]
      exact hw
    · rw [List.getElem?_eq_none (Nat.le_refl _)] at hw
      rw [List.getElem?_concat_length]
      exact .inl ⟨by simp [FileReader.fileRead], hw⟩
    · rw [List.getElem?_eq_none (Nat.le_of_lt hgt)] at hw
      rw [List.getElem?_eq_none (by rw [List.length_append, List.length_singleton]; exact hgt)]
      exact hw
  · have hnote := fileWrites_file (j := j) w hstep (hnum.reader r (List.mem_of_getElem? hr)) hs'
    have hreaders : s'.readers = s.readers.set k { r with reader := r' } := by
      rw [hs', HttpSession.fsActions_readers]
    by_cases hk : k = j
    · subst hk
      rw [if_pos rfl] at hnote
      rw [hr] at hw
      -- a request was in flight, so the record is empty
      obtain ⟨-, rfl⟩ : r.reader.pending ≠ none ∧ w = [] := by
        rcases hw with hw | ⟨hnone, -⟩
        · exact hw
        · exact absurd hnone (FileReader.pending_of_event he)
      rw [List.nil_append] at hnote
      have hlt : k < s.readers.length := (List.getElem?_eq_some_iff.mp hr).1
      have hnew : s'.readers[k]? = some { r with reader := r' } := by
        rw [hreaders, List.getElem?_set_self hlt]
      have hfails : FileCloseFails k s (.file k result data) ↔ r.reader.CloseFails result := by
        simp [FileCloseFails, hr]
      rw [hfails]
      rcases FileReader.event_callbacks he with ⟨hp, hf, has⟩ | ⟨hp, hf, has⟩ | ⟨hp, hf, has⟩
      · refine .inl ⟨hf, hnum', ?_⟩
        dsimp only
        rw [hnew, hnote, has]
        exact .inl ⟨hp, rfl⟩
      · refine .inl ⟨hf, hnum', ?_⟩
        dsimp only
        rw [hnew, hnote]
        rcases has with has | has
        · exact .inr ⟨hp, by rw [has]; rfl⟩
        · exact .inr ⟨hp, by rw [has]; rfl⟩
      · refine .inr ⟨hf, { r with reader := r' }, hnew, hp, ?_⟩
        rw [hnote, has]
        rfl
    · rw [if_neg hk] at hnote
      refine .inl ⟨fun hf => hk hf.1, hnum', ?_⟩
      dsimp only
      rw [hreaders, List.getElem?_set_ne hk, hnote]
      exact hw

/-- A reader that is done does nothing more. -/
theorem WrittenTwice.step {j : Nat} {x x' : HttpSession ρ × List Nat} {l : HttpLabel}
    (h : WrittenTwice j x)
    (hl : ((httpMachine cfg P).noting (fileWrites cfg P j)).step x l = some x') :
    WrittenTwice j x' := by
  obtain ⟨s, w⟩ := x
  obtain ⟨s', w'⟩ := x'
  obtain ⟨hstep, rfl⟩ := (httpMachine cfg P).noting_step_eq_some.mp hl
  obtain ⟨r, hr, hnone, hw⟩ := h
  have hs := HttpSession.step_cases hstep
  dsimp only at hr hw hstep hs ⊢
  rcases hs.readers_cases with ⟨hsame, hfile⟩ | ⟨i, path, rfl, -, hadd⟩ |
    ⟨k, result, data, r₁, r', as, rfl, hr₁, he, hs'⟩
  · have hnote : fileWrites cfg P j w s l = w := by
      cases l with
      | file k result data => exact absurd rfl (hfile k result data)
      | _ => rfl
    exact ⟨r, by dsimp only; rw [hsame]; exact hr, hnone, hnote.trans hw⟩
  · refine ⟨r, ?_, hnone, hw⟩
    dsimp only
    rw [hadd, List.getElem?_append_left (List.getElem?_eq_some_iff.mp hr).1]
    exact hr
  · have hk : k ≠ j := by
      rintro rfl
      obtain rfl : r₁ = r := Option.some.inj (hr₁.symm.trans hr)
      exact FileReader.pending_of_event he hnone
    have hnote : fileWrites cfg P j w s (.file k result data) = w := by
      simp [fileWrites, hstep, hk]
    refine ⟨r, ?_, hnone, hnote.trans hw⟩
    dsimp only
    rw [hs', HttpSession.fsActions_readers, List.getElem?_set_ne hk]
    exact hr

/-- **One callback, one write.**  Over every sequence of results up to the last request of a
    reader: exactly one of `m_onClose` and `m_onError` is called, and once, if and only if the
    close has not failed.  In every run of a session, the callbacks of reader `j` then issue
    exactly one `uv_write`, of the response the file was read for. -/
theorem sendFile_once_iff (cfg : HttpConfig) (P : HttpParser ρ) (method : HttpMethod) :
    (∀ path ls x, FileReader.readerMachine.exec (FileReader.fileRead path) ls = some x →
        x.1.pending = none →
        (FileReader.callbacks x.2 = [.onError] ∨ FileReader.callbacks x.2 = [.onClose] ↔
          FileReader.readerMachine.AllSteps (fun x l => ¬ x.1.CloseFails l.1)
            (FileReader.fileRead path) ls)) ∧
      ∀ j ls s w r, ((httpMachine cfg P).noting (fileWrites cfg P j)).exec
          (.accepted P method, []) ls = some (s, w) →
        s.readers[j]? = some r → r.reader.pending = none →
        (w = [r.resp] ↔
          (httpMachine cfg P).AllSteps (fun s l => ¬ FileCloseFails j s l)
            (.accepted P method) ls) := by
  refine ⟨fun path ls x h hend => FileReader.calledOnce_iff path h hend, ?_⟩
  intro j ls s w r h hr hend
  have hstart : WrittenOnce j (HttpSession.accepted P method, []) :=
    ⟨HttpSession.Numbered.accepted method, rfl⟩
  rw [← (httpMachine cfg P).allSteps_noting (fileWrites cfg P j) (.accepted P method, []) ls]
  rcases ((httpMachine cfg P).noting (fileWrites cfg P j)).exec_dichotomy
    (fun x l x' hI hP hl => ((WrittenOnce.step hI hl).resolve_right fun hb => hP hb.1).2)
    (fun x l x' hI hP hl => ((WrittenOnce.step hI hl).resolve_left fun hb => hP hb.1).2)
    (fun x l x' hB hl => WrittenTwice.step hB hl) hstart h with ⟨hI, hall⟩ | ⟨hB, hall⟩
  · refine iff_of_true ?_ hall
    have hw := hI.2
    dsimp only at hw
    rw [hr] at hw
    exact (hw.resolve_left fun hp => hp.1 hend).2
  · refine iff_of_false ?_ hall
    obtain ⟨r', hr', -, hw⟩ := hB
    obtain rfl : r' = r := Option.some.inj (hr'.symm.trans hr)
    rw [show w = [r'.resp, r'.resp] from hw]
    simp

/-- One request of `/f`, whose handler sends a file. -/
def oneFile : List HttpLabel :=
  [.recv true (str "GET /f HTTP/1.1\r\n\r\n"), .run, .run, .run, .run,
    .call 0 (.sendFile (str "a.txt")), .ret]

/-- The parser on this request. -/
def oneFileParser : HttpParser Bytes :=
  tableParser
    [(([], str "GET /f HTTP/1.1\r\n\r\n"),
      [.messageBegin, .url (str "/f"), .headersComplete .get 1 1, .messageComplete false])]

/-- The file is opened, it is empty, and it cannot be closed: both callbacks are called, and the
    response is written twice. -/
theorem closeFailure_twice :
    (FileReader.readerMachine.exec (FileReader.fileRead (str "a.txt"))
        [(7, []), (0, []), (-5, [])]).map
          (fun x => (x.1.pending, FileReader.callbacks x.2)) =
        some (none, [.onError, .onClose]) ∧
      (((httpMachine fileConfig oneFileParser).noting (fileWrites fileConfig oneFileParser 0)).exec
        (.accepted oneFileParser .get, [])
        (oneFile ++ [.file 0 7 [], .file 0 0 [], .file 0 (-5) []])).map Prod.snd =
        some [0, 0] := by
  decide

/-- A file that cannot be opened, and one that is read and closed. -/
theorem sendFile_once_iff_closed :
    (∃ x, FileReader.readerMachine.exec (FileReader.fileRead (str "a.txt")) [(-2, [])] = some x ∧
        (FileReader.callbacks x.2 = [.onError] ∨ FileReader.callbacks x.2 = [.onClose])) ∧
      ∃ s w r, ((httpMachine fileConfig oneFileParser).noting
          (fileWrites fileConfig oneFileParser 0)).exec (.accepted oneFileParser .get, [])
          (oneFile ++ [.file 0 7 [], .file 0 1 [0x61], .file 0 0 []]) = some (s, w) ∧
        s.readers[0]? = some r ∧ w = [r.resp] := by
  obtain ⟨hreader, hhttp⟩ := sendFile_once_iff fileConfig oneFileParser .get
  constructor
  · exact ⟨_, rfl, (hreader (str "a.txt") [(-2, [])] _ rfl rfl).mpr (by decide)⟩
  · have hrun : (((httpMachine fileConfig oneFileParser).noting
        (fileWrites fileConfig oneFileParser 0)).exec (.accepted oneFileParser .get, [])
        (oneFile ++ [.file 0 7 [], .file 0 1 [0x61], .file 0 0 []])).map
          (fun x => x.1.readers.map fun r => r.reader.pending) = some [none] := by
      decide
    obtain ⟨⟨s, w⟩, hx, hdone⟩ := Option.map_eq_some_iff.mp hrun
    obtain ⟨r, hreaders, hnone⟩ := List.map_eq_singleton_iff.mp hdone
    have hr : s.readers[0]? = some r := by
      rw [show s.readers = [r] from hreaders]
      rfl
    exact ⟨s, w, r, hx, hr, (hhttp 0 _ s w r hx hr hnone).mpr (by decide)⟩

end MyWebSocket
