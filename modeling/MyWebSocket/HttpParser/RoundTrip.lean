import MyWebSocket.Http.Pieces
import MyWebSocket.HttpParser.Streams
import MyWebSocket.HttpParser.Payloads

namespace MyWebSocket

open Transducer Transducer.Outcome

/-!
# Requests are parsed as they are sent

* `completes_request` — the parser on the text of a well formed request: it makes the callbacks of
  the request and no others, whatever stands behind it;
* `conversation_callbacks` — several requests in one read.
-/

namespace RequestParser

variable {u : Bool} {m : ParserMembers} {n : Nat} {rest : Bytes}

/-! ### What fields do not change -/

/-- The members that no field changes. -/
def fixed (m : ParserMembers) : ParserMembers :=
  { m with
    flags := { ParserFlags.none with trailing := m.flags.trailing, skipbody := m.flags.skipbody }
    headerState := .general, index := 0, usesTransferEncoding := false, nread := 0,
    contentLength := 0 }

theorem fixed_withWords (kind : HeaderKind) (ws : List Bytes) (m : ParserMembers) :
    fixed (withWords kind ws m) = fixed m := by
  induction ws generalizing m with
  | nil => rfl
  | cons w ws ih =>
    refine (ih (withWord kind (w.map lower) m)).trans ?_
    cases kind <;> rfl

theorem fixed_linesEffect (m : ParserMembers) (ls : List FieldLine) :
    fixed (linesEffect m ls) = fixed m := by
  induction ls generalizing m with
  | nil => rfl
  | cons l ls ih =>
    refine (ih (l.field.effect m)).trans ?_
    unfold Field.effect
    cases l.field with
    | list kind _ first _ others => exact fixed_withWords kind _ _
    | _ => rfl

/-! ### The end of the head -/

/-- The parser in front of the line feed that ends the head, when no body is skipped. -/
structure AtHeadEnd (m : ParserMembers) : Prop where
  strict : Strict m
  trailing : m.flags.trailing = false
  skipbody : m.flags.skipbody = false
  coding : m.usesTransferEncoding = true → m.flags.contentLength = false

theorem byteStep_headEnd (h : AtHeadEnd m) (hn : n < maxHeaderSize) :
    byteStep (parserAt .headersAlmostDone u m n) 0x0A =
      passed 0x0A (Op.before (.notify (.headersComplete m.method m.httpMajor m.httpMinor))
        (headersDoneCase (parserAt .headersDone (asksUpgrade m) m (n + 1)) 0x0A)) := by
  have htrailing : ¬(parserAt .headersAlmostDone u m (n + 1)).others.flags.trailing = true :=
    (Bool.not_eq_true _).mpr h.trailing
  have hcoding : ¬((parserAt .headersAlmostDone u m (n + 1)).others.usesTransferEncoding = true ∧
      (parserAt .headersAlmostDone u m (n + 1)).others.flags.contentLength = true ∧
      (if (parserAt .headersAlmostDone u m (n + 1)).others.flags.chunked
        then !(parserAt .headersAlmostDone u m (n + 1)).others.allowChunkedLength
        else !(parserAt .headersAlmostDone u m (n + 1)).others.lenientHttpHeaders) = true) :=
    fun ⟨huses, hlength, _⟩ => Bool.false_ne_true ((h.coding huses).symm.trans hlength)
  have hcase : headersAlmostDoneCase (parserAt .headersAlmostDone u m (n + 1)) 0x0A =
      Op.before (.notify (.headersComplete m.method m.httpMajor m.httpMinor))
        (headersDoneCase (parserAt .headersDone (asksUpgrade m) m (n + 1)) 0x0A) := by
    have hasks : (if m.flags.upgrade && m.flags.connectionUpgrade then true
        else decide (m.method = .connect)) = asksUpgrade m := by
      rw [asksUpgrade]
      split <;> simp [*]
    rw [headersAlmostDoneCase, if_neg (by decide), if_neg htrailing, if_neg hcoding, ← hasks]
    rfl
  rw [byteStep_parserAt _ rfl rfl hn]
  exact congrArg (passed 0x0A) hcase

variable {k : Nat}

theorem headersDone_atOnce (h : UpgradesAtOnce m) :
    headersDoneCase (parserAt .headersDone (asksUpgrade m) m k) 0x0A =
      (afterRequest (asksUpgrade m) m 0, [.notify (.messageComplete (asksUpgrade m))],
        some .exit) := by
  rw [headersDoneCase, if_neg (by decide)]
  exact if_pos ⟨h.1, h.2.imp_right .inr⟩

/-- The request stays with HTTP until its end. -/
theorem headersDone_stays (hskip : m.flags.skipbody = false) (h : ¬UpgradesAtOnce m) :
    headersDoneCase (parserAt .headersDone (asksUpgrade m) m k) 0x0A =
      if m.flags.chunked then next (parserAt .chunkSizeStart (asksUpgrade m) m 0)
      else if m.usesTransferEncoding then
        if m.lenientHttpHeaders then next (parserAt .bodyIdentityEof (asksUpgrade m) m 0)
        else fail (parserAt .headersDone (asksUpgrade m) m 0) .invalidTransferEncoding
      else if m.contentLength ≠ 0 ∧ m.contentLength ≠ ullongMax then
        next (parserAt .bodyIdentity (asksUpgrade m) m 0)
      else
        (afterRequest (asksUpgrade m) m 0, [.notify (.messageComplete (asksUpgrade m))], none) := by
  have hstays : ¬(asksUpgrade m = true ∧
      (m.method = .connect ∨ m.flags.skipbody = true ∨ ¬hasBody m)) := by
    rw [hskip]
    exact fun ⟨hasks, hbody⟩ => h ⟨hasks, by simpa using hbody⟩
  rw [headersDoneCase, if_neg (by decide)]
  refine (if_neg hstays).trans ?_
  refine (if_neg ((Bool.not_eq_true _).mpr hskip)).trans ?_
  refine ite_congr rfl (fun _ => rfl) fun _ => ite_congr rfl (fun _ => rfl) fun _ => ?_
  by_cases hzero : m.contentLength = 0
  · rw [if_neg (fun h : m.contentLength ≠ 0 ∧ _ => h.1 hzero)]
    exact if_pos hzero
  · refine (if_neg hzero).trans ?_
    by_cases hmax : m.contentLength = ullongMax
    · rw [if_neg (fun h : _ ∧ m.contentLength ≠ ullongMax => h.2 hmax)]
      exact if_neg (not_not.mpr hmax)
    · exact (if_pos hmax).trans (if_pos (And.intro hzero hmax)).symm

/-- What is reported at the end of the head. -/
def headEvent (m : ParserMembers) : ReqEvent := .headersComplete m.method m.httpMajor m.httpMinor

/-- **No payload.** -/
theorem headEnd_none (h : AtHeadEnd m) (hn : n < maxHeaderSize)
    (hnone : UpgradesAtOnce m ∨ m.flags.chunked = false ∧ m.usesTransferEncoding = false ∧
      (m.contentLength = 0 ∨ m.contentLength = ullongMax)) (rest : Bytes) :
    Completes (parserAt .headersAlmostDone u m n) [0x0A] rest
      [headEvent m, .messageComplete (asksUpgrade m)] (behindRequest (asksUpgrade m))
      (afterRequest (asksUpgrade m) m 0) := by
  have hstep := byteStep_headEnd (u := u) h hn
  by_cases hat : UpgradesAtOnce m
  · rw [headersDone_atOnce hat] at hstep
    rw [behindRequest, if_pos hat.1]
    exact .of_step hstep rfl rest
  · obtain ⟨hchunked, huses, hlength⟩ := hnone.resolve_left hat
    have hno : ¬(m.contentLength ≠ 0 ∧ m.contentLength ≠ ullongMax) := fun hsome =>
      hlength.elim hsome.1 hsome.2
    -- another protocol would begin at once
    have hasks : asksUpgrade m = false := by
      rw [← Bool.not_eq_true]
      intro hasks
      refine hat ⟨hasks, .inr ?_⟩
      rintro (hbody | ⟨hpos, hne⟩)
      · exact Bool.false_ne_true (hchunked.symm.trans hbody)
      · exact hno ⟨hpos.ne', hne⟩
    rw [headersDone_stays h.skipbody hat, hchunked, huses, if_neg hno] at hstep
    rw [hasks] at hstep ⊢
    exact .of_step hstep rfl rest

/-- **A payload with a length.** -/
theorem headEnd_identity (h : AtHeadEnd m) (hn : n < maxHeaderSize) (hat : ¬UpgradesAtOnce m)
    (hchunked : m.flags.chunked = false) (huses : m.usesTransferEncoding = false) {data : Bytes}
    (hlength : m.contentLength = data.length) (hne : data ≠ []) (hlt : data.length < ullongMax)
    (rest : Bytes) :
    Completes (parserAt .headersAlmostDone u m n) ([0x0A] ++ data) rest
      [headEvent m, .body data, .messageComplete (asksUpgrade m)] (behindRequest (asksUpgrade m))
      (afterRequest (asksUpgrade m) { m with contentLength := 0 } 0) := by
  have hsome : m.contentLength ≠ 0 ∧ m.contentLength ≠ ullongMax := by
    rw [hlength]
    exact ⟨(List.length_pos_of_ne_nil hne).ne', hlt.ne⟩
  have hstep := byteStep_headEnd (u := u) h hn
  rw [headersDone_stays h.skipbody hat, hchunked, huses, if_pos hsome] at hstep
  have hlf : Reports (parserAt .headersAlmostDone u m n) [0x0A] (data ++ rest) [headEvent m]
      (parserAt .bodyIdentity (asksUpgrade m) m 0) := ⟨_, .of_step hstep _, rfl⟩
  exact hlf.completes (completes_identity h.strict hlength hne hlt rest)

/-- **A payload in chunks.** -/
theorem headEnd_chunked (h : AtHeadEnd m) (hn : n < maxHeaderSize) (hat : ¬UpgradesAtOnce m)
    (hchunked : m.flags.chunked = true) {chunks : List Chunk} {last : ChunkLine}
    {trailer : List FieldLine} (hchunks : ∀ c ∈ chunks, c.Wf) (hlast : last.Wf 0)
    (htrailer : LinesWf (trailing (clear m)) trailer)
    (hsizes : ∀ c ∈ chunks, c.line.text.length ≤ maxHeaderSize)
    (hsize : last.text.length ≤ maxHeaderSize)
    (hlines : (linesText trailer ++ [0x0D, 0x0A]).length ≤ maxHeaderSize) (rest : Bytes) :
    ∃ m', clear m' = linesEffect (trailing (clear m)) trailer ∧
      Completes (parserAt .headersAlmostDone u m n)
        ([0x0A] ++ (chunks.flatMap Chunk.text ++
          (last.text ++ (linesText trailer ++ [0x0D, 0x0A])))) rest
        ([headEvent m] ++ ((chunks.map fun c => .body c.data) ++
          ([] ++ (linesEvents trailer ++ [.messageComplete (asksUpgrade m)]))))
        (behindRequest (asksUpgrade m))
        (afterRequest (asksUpgrade m) m' (linesText trailer ++ [0x0D, 0x0A]).length) := by
  have hstep := byteStep_headEnd (u := u) h hn
  rw [headersDone_stays h.skipbody hat, if_pos hchunked] at hstep
  have hlf : ∀ rest, Reports (parserAt .headersAlmostDone u m n) [0x0A] rest [headEvent m]
      (parserAt .chunkSizeStart (asksUpgrade m) m 0) := fun _ => ⟨_, .of_step hstep _, rfl⟩
  obtain ⟨k, hbody⟩ := reports_chunks (u := asksUpgrade m) hchunks h.strict hchunked hsizes
    (last.text ++ (linesText trailer ++ [0x0D, 0x0A]) ++ rest)
  have hend := reports_chunkLine (u := asksUpgrade m) (m := { m with contentLength := k }) hlast
    (Nat.zero_le _) hchunked hsize (linesText trailer ++ [0x0D, 0x0A] ++ rest)
  have htrailing : (linesEffect (trailing (clear m)) trailer).flags.trailing = true :=
    congrArg (fun m => m.flags.trailing) (fixed_linesEffect (trailing (clear m)) trailer)
  obtain ⟨m', hm', hcompletes⟩ := completes_trailer (u := asksUpgrade m) (m := trailing m) (n := 0)
    htrailer rfl htrailing (by omega) rest
  rw [Nat.zero_add] at hcompletes
  exact ⟨m', hm', (hlf _).completes (hbody.completes (hend.completes hcompletes))⟩

/-! ### Requests -/

variable {r : SentRequest}

theorem fixed_members (r : SentRequest) (hm : clear m = r.members) :
    fixed m = fixed (lineMembers r.method r.major r.minor) := by
  have hclear : fixed m = fixed (clear m) := rfl
  rw [hclear, hm, SentRequest.members, fixed_linesEffect]

theorem atHeadEnd_members (hwf : r.Wf) (hm : clear m = r.members) : AtHeadEnd m := by
  have hfixed := fixed_members r hm
  have hcoding := hwf.coding
  rw [← hm] at hcoding
  exact ⟨⟨congrArg ParserMembers.lenientHttpHeaders hfixed,
      congrArg ParserMembers.allowChunkedLength hfixed⟩,
    congrArg (fun m => m.flags.trailing) hfixed, congrArg (fun m => m.flags.skipbody) hfixed,
    hcoding⟩

/-- What is announced in the head. -/
theorem headersComplete_members (hm : clear m = r.members) :
    ReqEvent.headersComplete m.method m.httpMajor m.httpMinor =
      .headersComplete r.method (digit r.major) (digit r.minor) := by
  have hfixed := fixed_members r hm
  rw [show m.method = r.method from congrArg ParserMembers.method hfixed,
    show m.httpMajor = digit r.major from congrArg ParserMembers.httpMajor hfixed,
    show m.httpMinor = digit r.minor from congrArg ParserMembers.httpMinor hfixed]

/-- **The head**, up to its last line feed. -/
theorem reports_head (hwf : r.Wf) (hstrict : Strict m) (hn : n + r.head.length ≤ maxHeaderSize)
    (rest : Bytes) :
    ∃ m' k, clear m' = r.members ∧ k < maxHeaderSize ∧
      Reports (parserAt .startReq u m n) (r.requestLine ++ (linesText r.lines ++ [0x0D]))
        (0x0A :: rest) ([.messageBegin, .url r.target] ++ linesEvents r.lines)
        (parserAt .headersAlmostDone u m' k) := by
  have hlen : r.head.length = r.requestLine.length + (linesText r.lines).length + 2 := by
    simp only [SentRequest.head, List.length_append, List.length_cons, List.length_nil]
    omega
  rw [hlen] at hn
  obtain ⟨m₁, hm₁, hline⟩ := reports_requestLine (r := r) (u := u) (n := n) hwf.target hwf.major
    hwf.minor hstrict (by omega) (linesText r.lines ++ [0x0D] ++ 0x0A :: rest)
  obtain ⟨m', hm', hlines⟩ := reports_lines (u := u) (n := n + r.requestLine.length)
    hwf.lines hm₁ (by omega)
    (show LineStart ([0x0D] ++ 0x0A :: rest) from ⟨0x0D, 0x0A :: rest, rfl, by decide⟩)
  have hcr := reports_goTo .headerFieldStart 0x0D (u := u) (m := m') rfl rfl
    (show n + r.requestLine.length + (linesText r.lines).length < maxHeaderSize by omega) rfl
    (.refl _ (0x0A :: rest))
  have hbehind := hlines.append hcr
  rw [List.append_nil] at hbehind
  exact ⟨m', _, hm', by omega, hline.append hbehind⟩

/-- The members behind a request are strict, and say whether the connection is kept. -/
structure Behind (r : SentRequest) (m : ParserMembers) : Prop where
  strict : Strict m
  keepAlive : httpShouldKeepAlive m = r.keepAlive

theorem strict_linesEffect (h : Strict m) (ls : List FieldLine) : Strict (linesEffect m ls) :=
  ⟨(congrArg ParserMembers.lenientHttpHeaders (fixed_linesEffect m ls)).trans h.headers,
    (congrArg ParserMembers.allowChunkedLength (fixed_linesEffect m ls)).trans h.lengths⟩

theorem strict_endMembers (r : SentRequest) : Strict r.endMembers := by
  have hmembers : Strict r.members := strict_linesEffect ⟨rfl, rfl⟩ r.lines
  unfold SentRequest.endMembers
  split
  · refine strict_linesEffect ?_ _
    exact ⟨hmembers.headers, hmembers.lengths⟩
  · exact hmembers

theorem behind_endMembers (hm : clear m = r.endMembers) (k : Nat) :
    Behind r { m with contentLength := k } := by
  have hstrict := strict_endMembers r
  rw [← hm] at hstrict
  refine ⟨⟨hstrict.headers, hstrict.lengths⟩, ?_⟩
  rw [SentRequest.keepAlive, ← hm]
  rfl

/-- **A request is parsed as it is sent.**  The parser makes its callbacks, and no others, in front
    of whatever stands behind it; the loop is left if another protocol begins there. -/
theorem completes_request (hwf : r.Wf) (hroom : r.Room n) (hstrict : Strict m) (rest : Bytes) :
    ∃ m', Behind r m' ∧
      Completes (parserAt .startReq u m n) r.text rest r.events (behindRequest r.upgrade)
        (afterRequest r.upgrade m' r.leaves) := by
  obtain ⟨hhead, hpayload⟩ := hroom
  have hannounced := hwf.payload
  obtain ⟨m₁, k, hm₁, hk, hreads⟩ := reports_head (u := u) hwf hstrict hhead (r.body ++ rest)
  have hend := atHeadEnd_members hwf hm₁
  have hevent : headEvent m₁ = .headersComplete r.method (digit r.major) (digit r.minor) :=
    headersComplete_members hm₁
  have hup : r.upgrade = asksUpgrade m₁ := by
    rw [SentRequest.upgrade, ← hm₁]
    rfl
  have htext : r.text = (r.requestLine ++ (linesText r.lines ++ [0x0D])) ++ ([0x0A] ++ r.body) := by
    simp only [SentRequest.text, SentRequest.head, List.append_assoc, List.cons_append,
      List.nil_append]
  have hevents : r.events = ([.messageBegin, .url r.target] ++ linesEvents r.lines) ++
      ([headEvent m₁] ++ (r.payloadEvents ++ [.messageComplete (asksUpgrade m₁)])) := by
    rw [hevent, ← hup]
    simp only [SentRequest.events, List.append_assoc, List.cons_append, List.nil_append]
  -- what the line feed and the payload do
  suffices hbehind : ∃ m', Behind r m' ∧
      Completes (parserAt .headersAlmostDone u m₁ k) ([0x0A] ++ r.body) rest
        ([headEvent m₁] ++ (r.payloadEvents ++ [.messageComplete (asksUpgrade m₁)]))
        (behindRequest (asksUpgrade m₁)) (afterRequest (asksUpgrade m₁) m' r.leaves) by
    obtain ⟨m', hm', hcompletes⟩ := hbehind
    rw [htext, hevents, hup]
    exact ⟨m', hm', hreads.completes hcompletes⟩
  unfold SentRequest.Announced at hannounced
  rw [← hm₁] at hannounced
  cases hpl : r.payload with
  | none =>
    rw [hpl] at hannounced
    have hmembers : r.endMembers = r.members := by rw [SentRequest.endMembers, hpl]
    refine ⟨m₁, behind_endMembers (hm₁.trans hmembers.symm) m₁.contentLength, ?_⟩
    rw [SentRequest.body, SentRequest.payloadEvents, SentRequest.leaves, hpl]
    exact headEnd_none hend hk hannounced rest
  | identity data =>
    rw [hpl] at hannounced
    obtain ⟨hat, hchunked, huses, hlength, hne, hlt⟩ := hannounced
    have hmembers : r.endMembers = r.members := by rw [SentRequest.endMembers, hpl]
    refine ⟨_, behind_endMembers (hm₁.trans hmembers.symm) 0, ?_⟩
    rw [SentRequest.body, SentRequest.payloadEvents, SentRequest.leaves, hpl]
    exact headEnd_identity hend hk hat hchunked huses hlength hne hlt rest
  | chunked chunks last trailer =>
    rw [hpl] at hannounced hpayload
    obtain ⟨hat, hchunked, hchunks, hlast, htrailer⟩ := hannounced
    obtain ⟨hsizes, hsize, hlines⟩ := hpayload
    have hmembers : r.endMembers = linesEffect (trailing (clear m₁)) trailer := by
      rw [SentRequest.endMembers, hpl, SentRequest.trailerMembers, ← hm₁]
    have htrailer' : LinesWf (trailing (clear m₁)) trailer := by
      rw [SentRequest.trailerMembers, ← hm₁] at htrailer
      exact htrailer
    obtain ⟨m', hm', hcompletes⟩ := headEnd_chunked (u := u) hend hk hat hchunked hchunks hlast
      htrailer' hsizes hsize hlines rest
    refine ⟨m', behind_endMembers (hm'.trans hmembers.symm) m'.contentLength, ?_⟩
    rw [SentRequest.body, SentRequest.payloadEvents, SentRequest.leaves, hpl, List.append_assoc]
    exact hcompletes

/-! ### Conversations -/

/-- A parser in front of a request, with `n` bytes that still count. -/
structure Ready (n : Nat) (p : HttpParserData) : Prop where
  state : p.state = .startReq
  ok : p.httpErrno = .ok
  strict : Strict p.others
  nread : p.others.nread = n

variable {p q : HttpParserData} {rs : List SentRequest} {es : List ReqEvent} {w : Bytes}

theorem Ready.eq (h : Ready n p) : p = parserAt .startReq p.upgrade p.others n := by
  obtain ⟨st, errno, u, m⟩ := p
  obtain ⟨rfl, rfl, -, rfl⟩ := h
  rfl

theorem Behind.ready (h : Behind r m) (hkeep : r.keepAlive = true) (u : Bool) :
    Ready r.leaves (afterRequest u m r.leaves) := by
  refine ⟨?_, rfl, ⟨h.strict.headers, h.strict.lengths⟩, rfl⟩
  show newMessage m = .startReq
  rw [newMessage, h.keepAlive, hkeep]
  rfl

/-- **Several requests.** -/
theorem completes_conversation (h : Conversation n rs) (hne : rs ≠ []) (hready : Ready n p)
    (rest : Bytes) :
    ∃ m', Behind (rs.getLast hne) m' ∧
      Completes p (rs.flatMap SentRequest.text) rest (rs.flatMap SentRequest.events)
        (behindRequest (rs.getLast hne).upgrade)
        (afterRequest (rs.getLast hne).upgrade m' (rs.getLast hne).leaves) := by
  induction rs generalizing n p with
  | nil => exact absurd rfl hne
  | cons r rs ih =>
    obtain ⟨hwf, hroom, hgo, hrest⟩ := h
    rw [hready.eq]
    by_cases hnil : rs = []
    · subst hnil
      obtain ⟨m', hm', hcompletes⟩ := completes_request (u := p.upgrade) hwf hroom hready.strict
        rest
      refine ⟨m', hm', ?_⟩
      simp only [List.flatMap_cons, List.flatMap_nil, List.append_nil]
      exact hcompletes
    · obtain ⟨hkeep, hup⟩ := hgo.resolve_left hnil
      obtain ⟨m₁, hm₁, hcompletes⟩ := completes_request (u := p.upgrade) hwf hroom hready.strict
        (rs.flatMap SentRequest.text ++ rest)
      rw [hup] at hcompletes
      obtain ⟨m', hm', hothers⟩ := ih hrest hnil (hm₁.ready hkeep false)
      rw [List.getLast_cons hnil]
      exact ⟨m', hm', hcompletes.reports.completes hothers⟩

/-- A read that is completed. -/
theorem execute_completes {halt : Option Halt} (hinv : Inv p)
    (hstart : Marks.start p.state = Marks.unset) (h : Completes p w rest es halt q)
    (hhalt : halt = none ∧ rest = [] ∨ halt = some .exit)
    (hshort : (w ++ rest).length < 2 ^ 31) :
    execute? p (w ++ rest) = some (q, es, w.length) ∧ Inv q := by
  have hsafe := run_safe hinv (w ++ rest)
  rw [execute?, hstart]
  rcases hhalt with ⟨rfl, rfl⟩ | rfl
  · obtain ⟨os, hpass, hmarks⟩ := h.reports
    have hrun := hpass.run
    rw [List.append_nil] at hshort ⊢
    have hagrees := loop_agrees hinv le_rfl hshort
    rw [List.append_nil, hrun] at hsafe
    rw [hrun] at hagrees
    refine ⟨?_, hsafe.inv (fun h => by cases h)⟩
    cases hagrees with
    | exit _ stop' => cases stop'
    | error _ stop' => cases stop'
    | read stop stop' state ops hread =>
      rw [stop, ops Marks.unset, hmarks]
      dsimp only
      rw [if_pos (by decide), show (Marks.unset.run leftover).2 = [] from rfl, List.append_nil,
        state]
  · obtain ⟨os, hrun, hmarks⟩ := h.run
    have hpos : 0 < w.length := by
      obtain ⟨v, b, _, _, _, rfl, -⟩ := h
      simp
    have hagrees := loop_agrees hinv le_rfl hshort
    rw [hrun] at hagrees hsafe
    refine ⟨?_, hsafe.inv (fun h => by cases h)⟩
    cases hagrees with
    | read _ stop' => cases stop'
    | error _ stop' => cases stop'
    | exit stop stop' state ops hread =>
      rw [stop, ops Marks.unset, hmarks]
      dsimp only at hread ⊢
      rw [state, show (w ++ rest).length - _ = w.length by omega]

/-- The parser between two reads, in front of a request. -/
structure AtRest (n : Nat) (p : HttpParserData) : Prop where
  inv : Inv p
  state : p.state = .startReq
  nread : p.others.nread = n

theorem atRest_start : AtRest 0 start := ⟨Inv.init, rfl, rfl⟩

theorem AtRest.ready (h : AtRest n p) : Ready n p :=
  ⟨h.state, h.inv.base.ok, ⟨h.inv.base.strict, h.inv.base.lengths⟩, h.nread⟩

theorem flatMap_text_ne_nil (hne : rs ≠ []) : rs.flatMap SentRequest.text ≠ [] := by
  obtain ⟨r, rs, rfl⟩ := List.exists_cons_of_ne_nil hne
  intro h
  have htext := (List.append_eq_nil_iff.mp (List.flatMap_cons ▸ h)).1
  simp [SentRequest.text, SentRequest.head] at htext

/-- A request without a body, and one with a body in chunks. -/
def twoRequests : List SentRequest :=
  [{ method := .get, target := str "/a", major := 0x31, minor := 0x31,
     lines := [⟨[0x20], .other (str "Host") (str "b")⟩], payload := .none },
   { method := .post, target := str "/b", major := 0x31, minor := 0x31,
     lines := [⟨[0x20], .list .transferEncoding (str "Transfer-Encoding") (str "chunked") 0 []⟩],
     payload := .chunked [⟨⟨str "3", []⟩, str "abc"⟩] ⟨str "0", []⟩
       [⟨[], .other (str "Trailer") []⟩] }]

theorem conversation_twoRequests : Conversation 0 twoRequests := by decide +kernel

/-- The headers with those of several lines; the first of a name counts. -/
def withLines (h : HeaderMap) (ls : List FieldLine) : HeaderMap :=
  ls.foldl (fun h l => Entries.insertNew h (l.field.name.map toLower, l.field.value)) h

/-- The request as a handler is to see it: the names of headers are in lower case, the fields behind
    the body count as headers, and the body has no chunks. -/
def SentRequest.seen (r : SentRequest) : Seen :=
  { url := r.target, headers := withLines (withLines ∅ r.lines) r.trailer, body := r.content,
    method := r.method, version := [r.major, 0x2E, r.minor] }

theorem onAll_lines (s : ReqState) (ls : List FieldLine) :
    (s.onAll (linesEvents ls)).req = { s.req with headers := withLines s.req.headers ls } := by
  induction ls generalizing s with
  | nil => rfl
  | cons l ls ih => exact ih ((s.onReqHeaderField l.field.name).onReqHeaderValue l.field.value)

theorem onAll_chunks (s : ReqState) (chunks : List Chunk) :
    (s.onAll (chunks.map fun c => .body c.data)).req =
      { s.req with body := s.req.body ++ chunks.flatMap Chunk.data } := by
  induction chunks generalizing s with
  | nil =>
    rw [List.flatMap_nil, List.append_nil]
    rfl
  | cons c chunks ih =>
    refine (ih (s.onReqBody c.data)).trans ?_
    rw [List.flatMap_cons, ← List.append_assoc]
    rfl

/-- A version that is made from the digits is the one that was sent. -/
theorem str_digit (c : UInt8) : isNum c = true → str (toString (digit c)) = [c] := by
  refine forall_byte (P := fun c => isNum c = true → str (toString (digit c)) = [c]) ?_ c
  decide +kernel

theorem silent_lines (ls : List FieldLine) : Silent (linesEvents ls) := by
  intro u hmem
  obtain ⟨l, -, hl⟩ := List.mem_flatMap.mp hmem
  simp [FieldLine.events] at hl

theorem silent_payload (r : SentRequest) : Silent r.payloadEvents := by
  unfold SentRequest.payloadEvents
  split
  · exact fun u hmem => by cases hmem
  · exact fun u hmem => by simp at hmem
  · refine Silent.append (fun u hmem => ?_) (silent_lines _)
    obtain ⟨c, -, hc⟩ := List.mem_map.mp hmem
    cases hc

/-- Only the last callback completes the request. -/
theorem silent_front (r : SentRequest) :
    Silent ([.messageBegin, .url r.target] ++ linesEvents r.lines ++
      .headersComplete r.method (digit r.major) (digit r.minor) :: r.payloadEvents) := by
  refine Silent.append (Silent.append ?_ (silent_lines r.lines)) ?_
  · exact fun u hmem => by simp at hmem
  · intro u hmem
    rcases List.mem_cons.mp hmem with heq | hmem
    · cases heq
    · exact silent_payload r u hmem

/-- What the payload adds to a request. -/
theorem onAll_payload (s : ReqState) (r : SentRequest) :
    (s.onAll r.payloadEvents).req =
      { s.req with
        body := s.req.body ++ r.content, headers := withLines s.req.headers r.trailer } := by
  rw [SentRequest.payloadEvents, SentRequest.content, SentRequest.trailer]
  cases r.payload with
  | none =>
    rw [List.append_nil]
    rfl
  | identity data => rfl
  | chunked chunks last trailer =>
    dsimp only
    rw [ReqState.onAll, List.foldl_append]
    refine (onAll_lines _ trailer).trans ?_
    rw [show List.foldl ReqState.on s _ = s.onAll (chunks.map fun c => .body c.data) from rfl,
      onAll_chunks]

/-- A request is handled as it was sent. -/
theorem requestsSeen_events (hmajor : isNum r.major = true) (hminor : isNum r.minor = true)
    (s : ReqState) : requestsSeen s r.events = [r.seen] := by
  rw [SentRequest.events, requestsSeen_append, requestsSeen_silent (silent_front r),
    List.nil_append]
  refine congrArg (· :: []) ?_
  -- what the callbacks have made of the request
  have hlines := onAll_lines (s.onAll [.messageBegin, .url r.target]) r.lines
  rw [ReqState.onAll_append, ReqState.onAll_append]
  generalize (s.onAll [.messageBegin, .url r.target]).onAll (linesEvents r.lines) = s' at hlines
  show ((s'.onReqHeaderComplete r.method (digit r.major) (digit r.minor)).onAll
    r.payloadEvents).seen = r.seen
  rw [ReqState.seen, onAll_payload]
  show Seen.mk s'.req.url (withLines s'.req.headers r.trailer) (s'.req.body ++ r.content) r.method
    (str (toString (digit r.major)) ++ str "." ++ str (toString (digit r.minor))) = r.seen
  rw [hlines, str_digit _ hmajor, str_digit _ hminor]
  rfl

/-- Several requests are handled as they were sent. -/
theorem requestsSeen_conversation (h : Conversation n rs) (s : ReqState) :
    requestsSeen s (rs.flatMap SentRequest.events) = rs.map SentRequest.seen := by
  induction rs generalizing n s with
  | nil => rfl
  | cons r rs ih =>
    obtain ⟨hwf, -, -, hrest⟩ := h
    rw [List.flatMap_cons, requestsSeen_append, requestsSeen_events hwf.major hwf.minor, ih hrest]
    rfl

end RequestParser

end MyWebSocket
