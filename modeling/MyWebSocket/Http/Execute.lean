import MyWebSocket.Http.Steps

namespace MyWebSocket

/-!
# The parser's error state

The beginning of `http_parser_execute`: what it does in the error state and with a length of 0.
The loop over the bytes is a parameter, `HttpLoop`.
-/

/-- `enum state`. -/
inductive ParserState
  | dead | startReqOrRes | resOrRespH | startRes | resH | resHT | resHTT | resHTTP | resHttpMajor
  | resHttpDot | resHttpMinor | resHttpEnd | resFirstStatusCode | resStatusCode | resStatusStart
  | resStatus | resLineAlmostDone | startReq | reqMethod | reqSpacesBeforeUrl | reqSchema
  | reqSchemaSlash | reqSchemaSlashSlash | reqServerStart | reqServer | reqServerWithAt | reqPath
  | reqQueryStringStart | reqQueryString | reqFragmentStart | reqFragment | reqHttpStart
  | reqHttpH | reqHttpHT | reqHttpHTT | reqHttpHTTP | reqHttpI | reqHttpIC | reqHttpMajor
  | reqHttpDot | reqHttpMinor | reqHttpEnd | reqLineAlmostDone | headerFieldStart | headerField
  | headerValueDiscardWs | headerValueDiscardWsAlmostDone | headerValueDiscardLws
  | headerValueStart | headerValue | headerValueLws | headerAlmostDone | chunkSizeStart
  | chunkSize | chunkParameters | chunkSizeAlmostDone | headersAlmostDone | headersDone
  | chunkData | chunkDataAlmostDone | chunkDataDone | bodyIdentity | bodyIdentityEof
  | messageDone
deriving DecidableEq, Repr

/-- `enum http_errno`. -/
inductive HttpErrno
  | ok | cbMessageBegin | cbUrl | cbHeaderField | cbHeaderValue | cbHeadersComplete | cbBody
  | cbMessageComplete | cbStatus | cbChunkHeader | cbChunkComplete | invalidEofState
  | headerOverflow | closedConnection | invalidVersion | invalidStatus | invalidMethod
  | invalidUrl | invalidHost | invalidPort | invalidPath | invalidQueryString | invalidFragment
  | lfExpected | invalidHeaderToken | invalidContentLength | unexpectedContentLength
  | invalidChunkSize | invalidConstant | invalidInternalState | strict | paused | unknown
  | invalidTransferEncoding
deriving DecidableEq, Repr

/-- `http_parser`: the members that the beginning of `http_parser_execute` and its callbacks look
    at, and the others. -/
structure ParserData (κ : Type) where
  state : ParserState
  httpErrno : HttpErrno
  upgrade : Bool
  others : κ
deriving DecidableEq, Repr

/-- The rest of `http_parser_execute`, for a length that is not 0. -/
abbrev HttpLoop (κ : Type) := ParserData κ → Bytes → ParserData κ × List ReqEvent × Nat

variable {κ : Type}

/-- `http_parser_init` of a parser for requests; `others` are the other members, all 0. -/
def ParserData.init (others : κ) : ParserData κ :=
  { state := .startReq, httpErrno := .ok, upgrade := false, others := others }

/-- `http_parser_execute`: the parser afterwards, the callbacks, which return 0, and the number
    of bytes parsed. -/
def httpParserExecute (loop : HttpLoop κ) (p : ParserData κ) (data : Bytes) :
    ParserData κ × List ReqEvent × Nat :=
  -- "We're in an error state. Don't bother doing anything."
  if p.httpErrno ≠ .ok then (p, [], 0)
  else if data.length = 0 then
    match p.state with
    | .bodyIdentityEof => (p, [.messageComplete p.upgrade], 0)
    | .dead | .startReqOrRes | .startRes | .startReq => (p, [], 0)
    | _ => ({ p with httpErrno := .invalidEofState }, [], 1)
  else loop p data

/-- The parser of a session. -/
def httpParser (others : κ) (loop : HttpLoop κ) : HttpParser (ParserData κ) :=
  ⟨.init others, httpParserExecute loop⟩

/-- The states in which nothing has been read of a message that has not been completed. -/
def ParserState.IsStart (s : ParserState) : Prop :=
  s = .dead ∨ s = .startReqOrRes ∨ s = .startRes ∨ s = .startReq

instance (s : ParserState) : Decidable s.IsStart := by unfold ParserState.IsStart; infer_instance

/-- In the error state nothing is parsed. -/
theorem execute_errored (others : κ) (loop : HttpLoop κ) {p : ParserData κ} (h : p.httpErrno ≠ .ok)
    (data : Bytes) : (httpParser others loop).execute p data = (p, [], 0) :=
  if_pos h

/-- **A length of 0** changes nothing exactly in the error state and where no message has
    begun. -/
theorem execute_nil_iff (others : κ) (loop : HttpLoop κ) (p : ParserData κ) :
    (((httpParser others loop).execute p []).1 = p ∧
        ((httpParser others loop).execute p []).2.1 = []) ↔
      p.httpErrno ≠ .ok ∨ p.state.IsStart := by
  by_cases herrno : p.httpErrno = .ok
  · have hnil : (httpParser others loop).execute p [] =
        match p.state with
        | .bodyIdentityEof => (p, [.messageComplete p.upgrade], 0)
        | .dead | .startReqOrRes | .startRes | .startReq => (p, [], 0)
        | _ => ({ p with httpErrno := .invalidEofState }, [], 1) := by
      show httpParserExecute loop p [] = _
      rw [httpParserExecute, if_neg (not_not.mpr herrno), if_pos List.length_nil]
    rw [hnil, or_iff_right (not_not.mpr herrno), ParserState.IsStart]
    split
    · -- the message is completed, and again by every further read
      next hstate => simp [hstate]
    · next hstate => simp [hstate]
    · next hstate => simp [hstate]
    · next hstate => simp [hstate]
    · next hstate => simp [hstate]
    · next hdead hreqOrRes hres hreq =>
      have hchanged : { p with httpErrno := .invalidEofState } ≠ p := by
        intro h
        have hsame := congrArg ParserData.httpErrno h
        rw [herrno] at hsame
        exact absurd hsame (by simp)
      simp only [hchanged, false_and, false_iff, not_or]
      exact ⟨hdead, hreqOrRes, hres, hreq⟩
  · rw [execute_errored others loop herrno]
    exact iff_of_true ⟨rfl, rfl⟩ (.inl herrno)

/-! ### The parser in `recv_cb` -/

namespace HttpSession

variable {ρ : Type} {P : HttpParser ρ}

/-- What a read does to the timer. -/
def stopOnRead (s : HttpSession ρ) : HttpSession ρ :=
  if s.isKeepAlive then (s.emit [.recv]).stopKeepAliveTimer else s.emit [.recv]

/-- What a read gives to the parser, with the callbacks left on the stack. -/
def parseRead (P : HttpParser ρ) (base : Bool) (data : Bytes) (s : HttpSession ρ) :
    HttpSession ρ :=
  if base then { s with
    parser := (P.execute s.parser data).1
    stack := (P.execute s.parser data).2.1.map HttpTask.event ++ s.stack } else s

theorem recvCb_eq (s : HttpSession ρ) (base : Bool) (data : Bytes) :
    s.recvCb P base data = s.stopOnRead.parseRead P base data := rfl

theorem parser_stopOnRead (s : HttpSession ρ) : s.stopOnRead.parser = s.parser := by
  unfold stopOnRead
  split <;> rfl

theorem parser_recvCb (s : HttpSession ρ) (data : Bytes) :
    (s.recvCb P true data).parser = (P.execute s.parser data).1 := by
  rw [recvCb_eq, parseRead, if_pos rfl, parser_stopOnRead]

theorem recvCb_stack (s : HttpSession ρ) (data : Bytes) :
    (s.recvCb P true data).stack =
      (P.execute s.parser data).2.1.map HttpTask.event ++ s.stack := by
  rw [recvCb_eq, parseRead, if_pos rfl, parser_stopOnRead, stopOnRead]
  split <;> rfl

end HttpSession

/-! ### A loop to run -/

/-- What a loop does with one read. -/
structure LoopResult where
  state : ParserState
  httpErrno : HttpErrno
  callbacks : List ReqEvent
  parsed : Nat

/-- A loop that is known on some reads in some states. -/
def tableLoop (table : List ((ParserState × Bytes) × LoopResult)) : HttpLoop Unit := fun p data =>
  match table.lookup (p.state, data) with
  | some r => ({ p with state := r.state, httpErrno := r.httpErrno }, r.callbacks, r.parsed)
  | none => (p, [], data.length)

end MyWebSocket
