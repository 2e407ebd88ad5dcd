import MyWebSocket.HttpParser.Chars

namespace MyWebSocket

/-!
# `http_parser_execute`

The loop of `http_parser_execute` over the bytes of a read, for a parser of requests: the states
of responses are not modelled, `http_parser_init` is called with `HTTP_REQUEST`.

* Each case of the switch is a definition; `goto reexecute` is a call of the case it leads to.
* A `Step` is what a case does: the parser afterwards, the macros `MARK`, `CALLBACK_DATA` and
  `CALLBACK_NOTIFY` it runs and the moves of the cursor (`Op`), and how the loop is left, if it is.
* The cases that run over several bytes (`headerFieldCase`, `headerValueCase`, `bodyCase`) also
  return the bytes that are left behind them.
* A failed assertion is `Halt.abort`.
* `Marks.run` is what the macros do to the marks, and the callbacks that are made.

The callbacks of the session return 0 and leave the parser alone; the three it does not set
(`on_status`, `on_chunk_header`, `on_chunk_complete`) are not called.
-/

/-- `enum header_states`. -/
inductive HeaderState
  | general | c | co | con | matchingConnection | matchingProxyConnection
  | matchingContentLength | matchingTransferEncoding | matchingUpgrade | connection
  | contentLength | contentLengthNum | contentLengthWs | transferEncoding | upgrade
  | matchingTransferEncodingTokenStart | matchingTransferEncodingChunked
  | matchingTransferEncodingToken | matchingConnectionTokenStart | matchingConnectionKeepAlive
  | matchingConnectionClose | matchingConnectionUpgrade | matchingConnectionToken
  | transferEncodingChunked | connectionKeepAlive | connectionClose | connectionUpgrade
deriving DecidableEq, Repr

/-- `enum flags`, a member for each bit. -/
structure ParserFlags where
  chunked : Bool
  connectionKeepAlive : Bool
  connectionClose : Bool
  connectionUpgrade : Bool
  trailing : Bool
  upgrade : Bool
  skipbody : Bool
  contentLength : Bool
deriving DecidableEq, Repr

/-- The members of `http_parser` that the loop needs besides those of `ParserData`. -/
structure ParserMembers where
  flags : ParserFlags
  headerState : HeaderState
  /-- Five bits. -/
  index : Nat
  usesTransferEncoding : Bool
  allowChunkedLength : Bool
  lenientHttpHeaders : Bool
  /-- 32 bits. -/
  nread : Nat
  /-- 64 bits, all of them set if there is no Content-Length. -/
  contentLength : Nat
  httpMajor : Nat
  httpMinor : Nat
  method : HttpMethod
deriving DecidableEq, Repr

/-- No flag is set. -/
def ParserFlags.none : ParserFlags :=
  { chunked := false, connectionKeepAlive := false, connectionClose := false,
    connectionUpgrade := false, trailing := false, upgrade := false, skipbody := false,
    contentLength := false }

/-- The `memset` of `http_parser_init`. -/
def ParserMembers.zero : ParserMembers :=
  { flags := .none, headerState := .general, index := 0, usesTransferEncoding := false,
    allowChunkedLength := false, lenientHttpHeaders := false, nread := 0, contentLength := 0,
    httpMajor := 0, httpMinor := 0, method := .delete }

namespace RequestParser

/-- `http_parser`. -/
abbrev HttpParserData := ParserData ParserMembers

/-- `max_header_size`: `HTTP_MAX_HEADER_SIZE`. -/
def maxHeaderSize : Nat := 80 * 1024

/-- `ULLONG_MAX`. -/
def ullongMax : Nat := 2 ^ 64 - 1

/-- The data callbacks, each with a mark. -/
inductive DataFor
  | headerField | headerValue | url | body
deriving DecidableEq, Repr

/-- The callback with its data. -/
def DataFor.event : DataFor → Bytes → ReqEvent
  | headerField => .headerField
  | headerValue => .headerValue
  | url => .url
  | body => .body

/-- What the loop does besides changing the parser: the macros `MARK`, `CALLBACK_DATA` and
    `CALLBACK_NOTIFY`, and moving the cursor over bytes. -/
inductive Op
  | mark (k : DataFor)
  | data (k : DataFor)
  | notify (e : ReqEvent)
  | move (bs : Bytes)
deriving DecidableEq, Repr

/-- How the loop is left: `goto error` (or a `RETURN` with an error), `RETURN` behind the byte, or
    a failed assertion. -/
inductive Halt
  | error | exit | abort
deriving DecidableEq, Repr

/-- The parser after a case, what the case does besides, and how the loop is left. -/
abbrev Step := HttpParserData × List Op × Option Halt

/-- `break`. -/
def next (p : HttpParserData) : Step := (p, [], none)

/-- `SET_ERRNO` and `goto error`. -/
def fail (p : HttpParserData) (e : HttpErrno) : Step := ({ p with httpErrno := e }, [], some .error)

/-- A failed assertion. -/
def abort (p : HttpParserData) : Step := (p, [], some .abort)

/-- Something is done before a case. -/
def Op.before (o : Op) (r : Step) : Step := (r.1, o :: r.2.1, r.2.2)

/-- A case that goes on as another one. -/
def Step.andThen (r : Step) (k : HttpParserData → Step) : Step :=
  match r.2.2 with
  | none => ((k r.1).1, r.2.1 ++ (k r.1).2.1, (k r.1).2.2)
  | some _ => r

/-- `UPDATE_STATE` and `break`. -/
def goTo (st : ParserState) (p : HttpParserData) : Step := next { p with state := st }

/-! ### Header sizes -/

/-- `PARSING_HEADER`. -/
def parsingHeader : ParserState → Bool
  | .chunkData | .chunkDataAlmostDone | .chunkDataDone | .bodyIdentity | .bodyIdentityEof
  | .messageDone => false
  | _ => true

/-- `COUNT_HEADER_SIZE`. -/
def countHeaderSize (p : HttpParserData) (v : Nat) : Step :=
  let nread := (p.others.nread + v % 2 ^ 32) % 2 ^ 32
  let p := { p with others.nread := nread }
  if maxHeaderSize < nread then fail p .headerOverflow else next p

/-! ### The request line -/

/-- `http_should_keep_alive`; requests never need the end of the stream. -/
def httpShouldKeepAlive (m : ParserMembers) : Bool :=
  if 0 < m.httpMajor ∧ 0 < m.httpMinor then !m.flags.connectionClose
  else m.flags.connectionKeepAlive

/-- `NEW_MESSAGE`. -/
def newMessage (m : ParserMembers) : ParserState :=
  if httpShouldKeepAlive m then .startReq else .dead

/-- `case s_dead`. -/
def deadCase (p : HttpParserData) (ch : UInt8) : Step :=
  if ch = 0x0D ∨ ch = 0x0A then next p else fail p .closedConnection

/-- `case s_start_req`. -/
def startReqCase (p : HttpParserData) (ch : UInt8) : Step :=
  if ch = 0x0D ∨ ch = 0x0A then next p
  else
    let p := { p with
      others.flags := .none, others.usesTransferEncoding := false,
      others.contentLength := ullongMax }
    if !isAlpha ch then fail p .invalidMethod
    else
      let p := { p with others.method := .delete, others.index := 1 }
      match firstMethod ch with
      | some method =>
        Op.before (.notify .messageBegin) (goTo .reqMethod { p with others.method := method })
      | none => fail p .invalidMethod

/-- `++parser->index`. -/
def bump (p : HttpParserData) : HttpParserData :=
  { p with others.index := (p.others.index + 1) % 32 }

/-- `case s_req_method`. -/
def reqMethodCase (p : HttpParserData) (ch : UInt8) : Step :=
  if ch = 0 then fail p .invalidMethod
  else
    -- the string ends with a NUL
    match (methodString p.others.method ++ [0])[p.others.index]? with
    | none => abort p
    | some b =>
      if ch = 0x20 ∧ b = 0 then goTo .reqSpacesBeforeUrl (bump p)
      else if ch = b then next (bump p)
      else if (0x41 ≤ ch ∧ ch ≤ 0x5A) ∨ ch = 0x2D then
        match otherMethod p.others.method p.others.index ch with
        | some method => next (bump { p with others.method := method })
        | none => fail p .invalidMethod
      else fail p .invalidMethod

/-- The state after a character of the url, or an error. -/
def urlChar (p : HttpParserData) (ch : UInt8) : Step :=
  let p := { p with state := parseUrlChar p.state ch }
  if p.state = .dead then fail p .invalidUrl else next p

/-- `case s_req_spaces_before_url`. -/
def reqSpacesBeforeUrlCase (p : HttpParserData) (ch : UInt8) : Step :=
  if ch = 0x20 then next p
  else
    Op.before (.mark .url)
      (urlChar (if p.others.method = .connect then { p with state := .reqServerStart } else p) ch)

/-- `case s_req_schema` to `case s_req_server_start`. -/
def urlStartCase (p : HttpParserData) (ch : UInt8) : Step :=
  if ch = 0x20 ∨ ch = 0x0D ∨ ch = 0x0A then fail p .invalidUrl else urlChar p ch

/-- `case s_req_server` to `case s_req_fragment`. -/
def urlCase (p : HttpParserData) (ch : UInt8) : Step :=
  if ch = 0x20 then Op.before (.data .url) (goTo .reqHttpStart p)
  else if ch = 0x0D ∨ ch = 0x0A then
    -- a request of HTTP/0.9 has no version
    Op.before (.data .url)
      (goTo (if ch = 0x0D then .reqLineAlmostDone else .headerFieldStart)
        { p with others.httpMajor := 0, others.httpMinor := 9 })
  else urlChar p ch

/-- `case s_req_http_start`. -/
def reqHttpStartCase (p : HttpParserData) (ch : UInt8) : Step :=
  if ch = 0x20 then next p
  else if ch = 0x48 then goTo .reqHttpH p
  else if ch = 0x49 ∧ p.others.method = .source then goTo .reqHttpI p
  else fail p .invalidConstant

/-- A case that is `STRICT_CHECK(ch != want)` and `UPDATE_STATE(st)`. -/
def strictCase (want : UInt8) (st : ParserState) (p : HttpParserData) (ch : UInt8) : Step :=
  if ch ≠ want then fail p .strict else goTo st p

/-- `case s_req_http_major`. -/
def reqHttpMajorCase (p : HttpParserData) (ch : UInt8) : Step :=
  if !isNum ch then fail p .invalidVersion
  else goTo .reqHttpDot { p with others.httpMajor := ch.toNat - 0x30 }

/-- `case s_req_http_dot`. -/
def reqHttpDotCase (p : HttpParserData) (ch : UInt8) : Step :=
  if ch ≠ 0x2E then fail p .invalidVersion else goTo .reqHttpMinor p

/-- `case s_req_http_minor`. -/
def reqHttpMinorCase (p : HttpParserData) (ch : UInt8) : Step :=
  if !isNum ch then fail p .invalidVersion
  else goTo .reqHttpEnd { p with others.httpMinor := ch.toNat - 0x30 }

/-- `case s_req_http_end`. -/
def reqHttpEndCase (p : HttpParserData) (ch : UInt8) : Step :=
  if ch = 0x0D then goTo .reqLineAlmostDone p
  else if ch = 0x0A then goTo .headerFieldStart p
  else fail p .invalidVersion

/-- `case s_req_line_almost_done`. -/
def reqLineAlmostDoneCase (p : HttpParserData) (ch : UInt8) : Step :=
  if ch ≠ 0x0A then fail p .lfExpected else goTo .headerFieldStart p

/-! ### The end of the headers and of the message -/

/-- `UPDATE_STATE(NEW_MESSAGE())` and `CALLBACK_NOTIFY(message_complete)`; then the loop goes on,
    or is left for good. -/
def completeMessage (p : HttpParserData) (halt : Option Halt) : Step :=
  ({ p with state := newMessage p.others }, [.notify (.messageComplete p.upgrade)], halt)

/-- `case s_message_done`. -/
def messageDoneCase (p : HttpParserData) : Step :=
  completeMessage p (if p.upgrade then some .exit else none)

/-- The message has a body, in `case s_headers_done`. -/
def hasBody (m : ParserMembers) : Prop :=
  m.flags.chunked = true ∨ 0 < m.contentLength ∧ m.contentLength ≠ ullongMax

instance (m : ParserMembers) : Decidable (hasBody m) := by
  unfold hasBody
  infer_instance

/-- `case s_headers_done`. -/
def headersDoneCase (p : HttpParserData) (ch : UInt8) : Step :=
  if ch ≠ 0x0A then fail p .strict
  else
    let p := { p with others.nread := 0 }
    let m := p.others
    if p.upgrade = true ∧ (m.method = .connect ∨ m.flags.skipbody = true ∨ ¬hasBody m) then
      -- "the rest of the message is in a different protocol"
      completeMessage p (some .exit)
    else if m.flags.skipbody then completeMessage p none
    else if m.flags.chunked then goTo .chunkSizeStart p
    else if m.usesTransferEncoding then
      if m.lenientHttpHeaders then goTo .bodyIdentityEof p else fail p .invalidTransferEncoding
    else if m.contentLength = 0 then completeMessage p none
    else if m.contentLength ≠ ullongMax then goTo .bodyIdentity p
    -- `http_message_needs_eof` is 0: "assume content-length 0 - read the next"
    else completeMessage p none

/-- `case s_headers_almost_done`. -/
def headersAlmostDoneCase (p : HttpParserData) (ch : UInt8) : Step :=
  let m := p.others
  if ch ≠ 0x0A then fail p .strict
  else if m.flags.trailing then messageDoneCase { p with state := .messageDone }
  else if m.usesTransferEncoding = true ∧ m.flags.contentLength = true ∧
      (if m.flags.chunked then !m.allowChunkedLength else !m.lenientHttpHeaders) = true then
    fail p .unexpectedContentLength
  else
    let upgrade :=
      if m.flags.upgrade && m.flags.connectionUpgrade then true else decide (m.method = .connect)
    Op.before (.notify (.headersComplete m.method m.httpMajor m.httpMinor))
      (headersDoneCase { p with state := .headersDone, upgrade := upgrade } ch)

/-! ### Header fields -/

/-- The header that the first letter of its name stands for. -/
def firstHeader (c : UInt8) : HeaderState :=
  match Char.ofNat c.toNat with
  | 'c' => .c
  | 'p' => .matchingProxyConnection
  | 't' => .matchingTransferEncoding
  | 'u' => .matchingUpgrade
  | _ => .general

/-- `case s_header_field_start`. -/
def headerFieldStartCase (p : HttpParserData) (ch : UInt8) : Step :=
  if ch = 0x0D then goTo .headersAlmostDone p
  -- "they might be just sending \n instead of \r\n"
  else if ch = 0x0A then headersAlmostDoneCase { p with state := .headersAlmostDone } ch
  else if token ch = 0 then fail p .invalidHeaderToken
  else
    Op.before (.mark .headerField)
      (goTo .headerField
        { p with others.index := 0, others.headerState := firstHeader (token ch) })

/-- The matching of a character against a word that has been matched before `index`: `fail` at a
    mismatch, `done` at the last character of the word, `now` before. -/
def matchWord (word : Bytes) (index : Nat) (c : UInt8) (fail now done : HeaderState) :
    HeaderState :=
  if word.length < index ∨ (word ++ [0])[index]? ≠ some c then fail
  else if index = word.length - 1 then done
  else now

/-- The words that headers are matched against. -/
def connectionWord : Bytes := str "connection"
@[inherit_doc connectionWord] def proxyConnectionWord : Bytes := str "proxy-connection"
@[inherit_doc connectionWord] def contentLengthWord : Bytes := str "content-length"
@[inherit_doc connectionWord] def transferEncodingWord : Bytes := str "transfer-encoding"
@[inherit_doc connectionWord] def upgradeWord : Bytes := str "upgrade"
@[inherit_doc connectionWord] def chunkedWord : Bytes := str "chunked"
@[inherit_doc connectionWord] def keepAliveWord : Bytes := str "keep-alive"
@[inherit_doc connectionWord] def closeWord : Bytes := str "close"

/-- The switch of `case s_header_field` on a token character `ch`, `c` in lower case; `none` is
    the failed assertion. -/
def headerFieldChar (m : ParserMembers) (ch : UInt8) : Option ParserMembers :=
  let c := token ch
  let next := { m with index := (m.index + 1) % 32 }
  match m.headerState with
  | .general => some m
  | .c => some { next with headerState := if c = 0x6F then .co else .general }
  | .co => some { next with headerState := if c = 0x6E then .con else .general }
  | .con => some { next with
      headerState := if c = 0x6E then .matchingConnection
        else if c = 0x74 then .matchingContentLength else .general }
  | .matchingConnection => some { next with
      headerState := matchWord connectionWord next.index c .general .matchingConnection
        .connection }
  | .matchingProxyConnection => some { next with
      headerState := matchWord proxyConnectionWord next.index c .general .matchingProxyConnection
        .connection }
  | .matchingContentLength => some { next with
      headerState := matchWord contentLengthWord next.index c .general .matchingContentLength
        .contentLength }
  | .matchingTransferEncoding =>
    let st := matchWord transferEncodingWord next.index c .general .matchingTransferEncoding
      .transferEncoding
    some { next with
      headerState := st
      usesTransferEncoding := m.usesTransferEncoding || decide (st = .transferEncoding) }
  | .matchingUpgrade => some { next with
      headerState := matchWord upgradeWord next.index c .general .matchingUpgrade .upgrade }
  | .connection | .contentLength | .transferEncoding | .upgrade =>
    some { m with headerState := if ch ≠ 0x20 then .general else m.headerState }
  | _ => none

/-- The inner loop for `h_general`: it passes over token characters, `pe - p - 1` at most. -/
def skipTokens : Nat → Bytes → Bytes × Bytes
  | n + 1, c :: rest =>
    if token c ≠ 0 then (c :: (skipTokens n rest).1, (skipTokens n rest).2) else ([], c :: rest)
  | _, rest => ([], rest)

/-- The loop of `case s_header_field`: the parser's members, the bytes it has passed over and
    those from the cursor on. -/
def headerFieldLoop : Nat → ParserMembers → Bytes → Option (ParserMembers × Bytes × Bytes)
  | _, m, [] => some (m, [], [])
  | 0, _, _ => none
  | fuel + 1, m, ch :: rest =>
    if token ch = 0 then some (m, [], ch :: rest)
    else
      (headerFieldChar m ch).bind fun m' =>
        let skipped :=
          if m.headerState = .general then skipTokens (maxHeaderSize - 1) rest else ([], rest)
        (headerFieldLoop fuel m' skipped.2).map fun r =>
          (r.1, ch :: skipped.1 ++ r.2.1, r.2.2)

/-- `case s_header_field`, with the bytes from the cursor on; behind it, the bytes that are
    left. -/
def headerFieldCase (p : HttpParserData) (data : Bytes) : Step × Bytes :=
  match headerFieldLoop data.length p.others data with
  | none => (abort p, data)
  | some (m, taken, rest) =>
    let p := { p with others := m }
    match rest with
    | [] =>
      -- `--p`
      let r := countHeaderSize p (taken.length - 1)
      (Op.before (.move taken) r, if r.2.2 = none then [] else data.drop (data.length - 1))
    | ch :: rest' =>
      let r := (countHeaderSize p taken.length).andThen fun p =>
        if ch = 0x3A then Op.before (.data .headerField) ((goTo .headerValueDiscardWs p).andThen
          fun p => Op.before (.move [ch]) (next p))
        else fail p .invalidHeaderToken
      (Op.before (.move taken) r, if r.2.2 = none then rest' else rest)

/-! ### Header values -/

/-- The switch of `case s_header_value_start`. -/
def headerValueFirst (p : HttpParserData) (ch : UInt8) : Step :=
  let c := lower ch
  let go (st : HeaderState) : Step := next { p with others.headerState := st }
  match p.others.headerState with
  | .upgrade => next { p with others.flags.upgrade := true, others.headerState := .general }
  | .transferEncoding =>
    if c = 0x63 then go .matchingTransferEncodingChunked else go .matchingTransferEncodingToken
  | .matchingTransferEncodingTokenStart => next p
  | .contentLength =>
    if !isNum ch then fail p .invalidContentLength
    else if p.others.flags.contentLength then fail p .unexpectedContentLength
    else
      next { p with
        others.flags.contentLength := true, others.contentLength := ch.toNat - 0x30,
        others.headerState := .contentLengthNum }
  | .contentLengthWs => next p
  | .connection =>
    if c = 0x6B then go .matchingConnectionKeepAlive
    else if c = 0x63 then go .matchingConnectionClose
    else if c = 0x75 then go .matchingConnectionUpgrade
    else go .matchingConnectionToken
  | .matchingConnectionTokenStart => next p
  | _ => go .general

/-- `case s_header_value_start`. -/
def headerValueStartCase (p : HttpParserData) (ch : UInt8) : Step :=
  Op.before (.mark .headerValue)
    (headerValueFirst { p with state := .headerValue, others.index := 0 } ch)

/-- `case s_header_value_discard_ws`. -/
def headerValueDiscardWsCase (p : HttpParserData) (ch : UInt8) : Step :=
  if ch = 0x20 ∨ ch = 0x09 then next p
  else if ch = 0x0D then goTo .headerValueDiscardWsAlmostDone p
  else if ch = 0x0A then goTo .headerValueDiscardLws p
  else headerValueStartCase p ch

/-- What a character of a value does: the local `h_state` and the parser's members, or an
    error, or the failed assertion. -/
inductive ValueChar
  | go (hState : HeaderState) (m : ParserMembers)
  | fail (e : HttpErrno)
  | abort
deriving DecidableEq, Repr

/-- The state behind the first character of a word of a list that is none of those looked for:
    `word`, or `start` for a blank, or `other`. -/
def tokenStart (c : UInt8) (start word other : HeaderState) : HeaderState :=
  if token c ≠ 0 then word
  else if c = 0x20 ∨ c = 0x09 then start
  else other

/-- The word of a list has been read to its end: the flag it stands for. -/
def setConnectionFlag (hState : HeaderState) (m : ParserMembers) : ParserMembers :=
  match hState with
  | .connectionKeepAlive => { m with flags.connectionKeepAlive := true }
  | .connectionClose => { m with flags.connectionClose := true }
  | .connectionUpgrade => { m with flags.connectionUpgrade := true }
  | _ => m

/-- `case h_content_length_num`. -/
def contentLengthChar (m : ParserMembers) (ch : UInt8) : ValueChar :=
  if ch = 0x20 then .go .contentLengthWs m
  else if !isNum ch then .fail .invalidContentLength
  else if (ullongMax - 10) / 10 < m.contentLength then .fail .invalidContentLength
  else .go .contentLengthNum
    { m with contentLength := (m.contentLength * 10 + (ch.toNat - 0x30)) % 2 ^ 64 }

/-- The switch of `case s_header_value`, but for `h_general`. -/
def headerValueChar (hState : HeaderState) (m : ParserMembers) (ch : UInt8) : ValueChar :=
  let c := lower ch
  let next := { m with index := (m.index + 1) % 32 }
  match hState with
  | .connection | .transferEncoding => .abort
  | .contentLength => if ch = 0x20 then .go hState m else contentLengthChar m ch
  | .contentLengthNum => contentLengthChar m ch
  | .contentLengthWs => if ch = 0x20 then .go hState m else .fail .invalidContentLength
  | .matchingTransferEncodingTokenStart =>
    .go (if c = 0x63 then .matchingTransferEncodingChunked
      else tokenStart c hState .matchingTransferEncodingToken .general) m
  | .matchingTransferEncodingChunked =>
    .go (matchWord chunkedWord next.index c .matchingTransferEncodingToken hState
      .transferEncodingChunked) next
  | .matchingTransferEncodingToken =>
    if ch = 0x2C then .go .matchingTransferEncodingTokenStart { m with index := 0 }
    else .go hState m
  | .matchingConnectionTokenStart =>
    .go (if c = 0x6B then .matchingConnectionKeepAlive
      else if c = 0x63 then .matchingConnectionClose
      else if c = 0x75 then .matchingConnectionUpgrade
      else tokenStart c hState .matchingConnectionToken .general) m
  | .matchingConnectionKeepAlive =>
    .go (matchWord keepAliveWord next.index c .matchingConnectionToken hState
      .connectionKeepAlive) next
  | .matchingConnectionClose =>
    .go (matchWord closeWord next.index c .matchingConnectionToken hState .connectionClose) next
  | .matchingConnectionUpgrade =>
    .go (matchWord upgradeWord next.index c .matchingConnectionToken hState .connectionUpgrade)
      next
  | .matchingConnectionToken =>
    if ch = 0x2C then .go .matchingConnectionTokenStart { m with index := 0 } else .go hState m
  | .transferEncodingChunked =>
    .go (if ch ≠ 0x20 then .matchingTransferEncodingToken else hState) m
  | .connectionKeepAlive | .connectionClose | .connectionUpgrade =>
    if ch = 0x2C then
      .go .matchingConnectionTokenStart { setConnectionFlag hState m with index := 0 }
    else .go (if ch ≠ 0x20 then .matchingConnectionToken else hState) m
  | _ => .go .general m

/-- How the loop of `case s_header_value` is left: at the end of the read, at a CR or LF, with an
    error, or by a failed assertion. -/
inductive ValueEnd
  | stop | cr | lf | fail (e : HttpErrno) | abort
deriving DecidableEq, Repr

/-- What the loop of `case s_header_value` leaves: the local `h_state`, the parser's members, the
    bytes passed over and those from the cursor on. -/
structure ValueRun where
  hState : HeaderState
  members : ParserMembers
  taken : Bytes
  rest : Bytes
  stop : ValueEnd
deriving DecidableEq, Repr

/-- `!lenient && !IS_HEADER_CHAR(ch)`. -/
def badHeaderChar (m : ParserMembers) (ch : UInt8) : Bool :=
  !m.lenientHttpHeaders && !isHeaderChar ch

/-- The inner loop for `h_general` with `pe - p` bytes to go, and the `p++` of the outer loop
    behind it: the bytes passed over and those from the cursor on, and whether it has found an
    invalid character. -/
def skipValue (m : ParserMembers) : Nat → Bytes → Bytes × Bytes × Bool
  | _, [] => ([], [], false)
  -- at `pe`, and that is not the end: the `p++` passes over a byte no one has looked at
  | 0, ch :: rest => ([ch], rest, false)
  | n + 1, ch :: rest =>
    if ch = 0x0D ∨ ch = 0x0A then ([], ch :: rest, false)
    else if badHeaderChar m ch then ([], ch :: rest, true)
    else (ch :: (skipValue m n rest).1, (skipValue m n rest).2)

/-- The loop of `case s_header_value`. -/
def headerValueLoop : Nat → HeaderState → ParserMembers → Bytes → ValueRun
  | _, h, m, [] => ⟨h, m, [], [], .stop⟩
  | 0, h, m, data => ⟨h, m, [], data, .abort⟩
  | fuel + 1, h, m, ch :: rest =>
    if ch = 0x0D then ⟨h, m, [], ch :: rest, .cr⟩
    else if ch = 0x0A then ⟨h, m, [], ch :: rest, .lf⟩
    else if badHeaderChar m ch then ⟨h, m, [], ch :: rest, .fail .invalidHeaderToken⟩
    else if h = .general then
      let skipped := skipValue m maxHeaderSize (ch :: rest)
      if skipped.2.2 then ⟨h, m, skipped.1, skipped.2.1, .fail .invalidHeaderToken⟩
      else
        let r := headerValueLoop fuel h m skipped.2.1
        { r with taken := skipped.1 ++ r.taken }
    else
      match headerValueChar h m ch with
      | .abort => ⟨h, m, [], ch :: rest, .abort⟩
      | .fail e =>
        let h := if h = .contentLength then .contentLengthNum else h
        ⟨h, { m with headerState := h }, [], ch :: rest, .fail e⟩
      | .go h' m' =>
        let r := headerValueLoop fuel h' m' rest
        { r with taken := ch :: r.taken }

/-- `case s_header_almost_done`. -/
def headerAlmostDoneCase (p : HttpParserData) (ch : UInt8) : Step :=
  if ch ≠ 0x0A then fail p .lfExpected else goTo .headerValueLws p

/-- `case s_header_value` behind its loop. -/
def headerValueBehind (p : HttpParserData) (data : Bytes) (r : ValueRun) : Step × Bytes :=
  let p := { p with others := r.members }
  let bytes := r.rest.take 1
  match r.stop with
  | .stop =>
    -- `--p`
    let x := countHeaderSize { p with others.headerState := r.hState } (r.taken.length - 1)
    (Op.before (.move r.taken) x, if x.2.2 = none then [] else data.drop (data.length - 1))
  | .cr =>
    let p := { p with state := .headerAlmostDone, others.headerState := r.hState }
    let x := Op.before (.data .headerValue) ((countHeaderSize p r.taken.length).andThen
      fun p => Op.before (.move bytes) (next p))
    (Op.before (.move r.taken) x, if x.2.2 = none then r.rest.drop 1 else r.rest)
  | .lf =>
    let x := (countHeaderSize { p with state := .headerAlmostDone } r.taken.length).andThen fun p =>
      Op.before (.data .headerValue)
        ((headerAlmostDoneCase { p with others.headerState := r.hState } 0x0A).andThen
          fun p => Op.before (.move bytes) (next p))
    (Op.before (.move r.taken) x, if x.2.2 = none then r.rest.drop 1 else r.rest)
  | .fail e => (Op.before (.move r.taken) (fail p e), r.rest)
  | .abort => (abort p, r.rest)

/-- `case s_header_value`, like `headerFieldCase`. -/
def headerValueCase (p : HttpParserData) (data : Bytes) : Step × Bytes :=
  headerValueBehind p data (headerValueLoop data.length p.others.headerState p.others data)

/-- The flag of a header whose value has ended. -/
def finishHeader (m : ParserMembers) : ParserMembers :=
  match m.headerState with
  | .transferEncodingChunked => { m with flags.chunked := true }
  | h => setConnectionFlag h m

/-- `case s_header_value_lws`. -/
def headerValueLwsCase (p : HttpParserData) (ch : UInt8) : Step :=
  if ch = 0x20 ∨ ch = 0x09 then
    -- "treat obsolete line folding as space"
    let h := if p.others.headerState = .contentLengthNum then .contentLengthWs
      else p.others.headerState
    headerValueStartCase { p with state := .headerValueStart, others.headerState := h } ch
  else headerFieldStartCase { p with state := .headerFieldStart, others := finishHeader p.others } ch

/-- `case s_header_value_discard_lws`. -/
def headerValueDiscardLwsCase (p : HttpParserData) (ch : UInt8) : Step :=
  if ch = 0x20 ∨ ch = 0x09 then goTo .headerValueDiscardWs p
  -- "do not allow empty content length"
  else if p.others.headerState = .contentLength then fail p .invalidContentLength
  else
    Op.before (.mark .headerValue) (Op.before (.data .headerValue)
      (headerFieldStartCase
        { p with state := .headerFieldStart, others := finishHeader p.others } ch))

/-! ### Bodies -/

/-- `case s_chunk_size_start`. -/
def chunkSizeStartCase (p : HttpParserData) (ch : UInt8) : Step :=
  if p.others.nread ≠ 1 ∨ p.others.flags.chunked = false then abort p
  else
    match unhex ch with
    | none => fail p .invalidChunkSize
    | some v => goTo .chunkSize { p with others.contentLength := v }

/-- `case s_chunk_size`. -/
def chunkSizeCase (p : HttpParserData) (ch : UInt8) : Step :=
  if p.others.flags.chunked = false then abort p
  else if ch = 0x0D then goTo .chunkSizeAlmostDone p
  else
    match unhex ch with
    | none =>
      if ch = 0x3B ∨ ch = 0x20 then goTo .chunkParameters p else fail p .invalidChunkSize
    | some v =>
      if (ullongMax - 16) / 16 < p.others.contentLength then fail p .invalidContentLength
      else next { p with others.contentLength := (p.others.contentLength * 16 + v) % 2 ^ 64 }

/-- `case s_chunk_parameters`. -/
def chunkParametersCase (p : HttpParserData) (ch : UInt8) : Step :=
  if p.others.flags.chunked = false then abort p
  else if ch = 0x0D then goTo .chunkSizeAlmostDone p
  else next p

/-- `case s_chunk_size_almost_done`. -/
def chunkSizeAlmostDoneCase (p : HttpParserData) (ch : UInt8) : Step :=
  if p.others.flags.chunked = false then abort p
  else if ch ≠ 0x0A then fail p .strict
  else
    let p := { p with others.nread := 0 }
    if p.others.contentLength = 0 then
      goTo .headerFieldStart { p with others.flags.trailing := true }
    else goTo .chunkData p

/-- `case s_chunk_data_almost_done`. -/
def chunkDataAlmostDoneCase (p : HttpParserData) (ch : UInt8) : Step :=
  if p.others.flags.chunked = false ∨ p.others.contentLength ≠ 0 then abort p
  else if ch ≠ 0x0D then fail p .strict
  else Op.before (.data .body) (goTo .chunkDataDone p)

/-- `case s_chunk_data_done`. -/
def chunkDataDoneCase (p : HttpParserData) (ch : UInt8) : Step :=
  if p.others.flags.chunked = false then abort p
  else if ch ≠ 0x0A then fail p .strict
  else goTo .chunkSizeStart { p with others.nread := 0 }

/-- The assertion in front of a piece of body. -/
def bodyAsserts (m : ParserMembers) : Prop := m.contentLength ≠ 0 ∧ m.contentLength ≠ ullongMax

instance (m : ParserMembers) : Decidable (bodyAsserts m) := by
  unfold bodyAsserts
  infer_instance

/-- `case s_body_identity`, `case s_chunk_data` and `case s_body_identity_eof`, like
    `headerFieldCase`. -/
def bodyCase (p : HttpParserData) (data : Bytes) : Step × Bytes :=
  let toRead := min p.others.contentLength data.length
  let left := p.others.contentLength - toRead
  let q := { p with others.contentLength := left }
  if p.state = .bodyIdentity then
    if ¬bodyAsserts p.others then (abort p, data)
    else
      let r :=
        -- the last byte of the body completes the message as well
        if left = 0 then Op.before (.data .body) (messageDoneCase { q with state := .messageDone })
        else next q
      (Op.before (.mark .body) (Op.before (.move (data.take toRead)) r), data.drop toRead)
  else if p.state = .chunkData then
    if p.others.flags.chunked = false ∨ ¬bodyAsserts p.others then (abort p, data)
    else
      let r := if left = 0 then goTo .chunkDataAlmostDone q else next q
      (Op.before (.mark .body) (Op.before (.move (data.take toRead)) r), data.drop toRead)
  else (Op.before (.mark .body) (Op.before (.move data) (next p)), [])

/-! ### The loop -/

/-- The switch, but for the cases that run over several bytes. -/
def byteCase (p : HttpParserData) (ch : UInt8) : Step :=
  match p.state with
  | .dead => deadCase p ch
  | .startReq => startReqCase p ch
  | .reqMethod => reqMethodCase p ch
  | .reqSpacesBeforeUrl => reqSpacesBeforeUrlCase p ch
  | .reqSchema | .reqSchemaSlash | .reqSchemaSlashSlash | .reqServerStart => urlStartCase p ch
  | .reqServer | .reqServerWithAt | .reqPath | .reqQueryStringStart | .reqQueryString
  | .reqFragmentStart | .reqFragment => urlCase p ch
  | .reqHttpStart => reqHttpStartCase p ch
  | .reqHttpH => strictCase 0x54 .reqHttpHT p ch
  | .reqHttpHT => strictCase 0x54 .reqHttpHTT p ch
  | .reqHttpHTT => strictCase 0x50 .reqHttpHTTP p ch
  | .reqHttpI => strictCase 0x43 .reqHttpIC p ch
  -- "treat 'ICE' as 'HTTP'"
  | .reqHttpIC => strictCase 0x45 .reqHttpHTTP p ch
  | .reqHttpHTTP => strictCase 0x2F .reqHttpMajor p ch
  | .reqHttpMajor => reqHttpMajorCase p ch
  | .reqHttpDot => reqHttpDotCase p ch
  | .reqHttpMinor => reqHttpMinorCase p ch
  | .reqHttpEnd => reqHttpEndCase p ch
  | .reqLineAlmostDone => reqLineAlmostDoneCase p ch
  | .headerFieldStart => headerFieldStartCase p ch
  | .headerValueDiscardWs => headerValueDiscardWsCase p ch
  | .headerValueDiscardWsAlmostDone => strictCase 0x0A .headerValueDiscardLws p ch
  | .headerValueDiscardLws => headerValueDiscardLwsCase p ch
  | .headerValueStart => headerValueStartCase p ch
  | .headerAlmostDone => headerAlmostDoneCase p ch
  | .headerValueLws => headerValueLwsCase p ch
  | .headersAlmostDone => headersAlmostDoneCase p ch
  | .headersDone => headersDoneCase p ch
  | .chunkSizeStart => chunkSizeStartCase p ch
  | .chunkSize => chunkSizeCase p ch
  | .chunkParameters => chunkParametersCase p ch
  | .chunkSizeAlmostDone => chunkSizeAlmostDoneCase p ch
  | .chunkDataAlmostDone => chunkDataAlmostDoneCase p ch
  | .chunkDataDone => chunkDataDoneCase p ch
  | .messageDone => messageDoneCase p
  -- the states of responses
  | _ => abort p

/-- The `p++` of the loop behind a case that looks at one byte. -/
def passed (ch : UInt8) (r : Step) : Step := r.andThen fun p => Op.before (.move [ch]) (next p)

/-- The switch, with the bytes from the cursor on; behind it, the bytes that are left. -/
def switch (p : HttpParserData) (ch : UInt8) (rest : Bytes) : Step × Bytes :=
  match p.state with
  | .headerField => headerFieldCase p (ch :: rest)
  | .headerValue => headerValueCase p (ch :: rest)
  | .bodyIdentity | .chunkData | .bodyIdentityEof => bodyCase p (ch :: rest)
  | _ =>
    let r := byteCase p ch
    -- `RETURN((p - data) + 1)`
    (passed ch r, if r.2.2 = none ∨ r.2.2 = some .exit then rest else ch :: rest)

/-- The beginning of a pass: the byte is counted. -/
def countByte (p : HttpParserData) : Step :=
  if parsingHeader p.state then countHeaderSize p 1 else next p

/-- The loop over the bytes of a read. -/
def loop : Nat → HttpParserData → Bytes → Step × Bytes
  | _, p, [] => (next p, [])
  | 0, p, data => (abort p, data)
  | fuel + 1, p, ch :: rest =>
    let c := countByte p
    if c.2.2 = none then
      let r := switch c.1 ch rest
      if r.1.2.2 = none then
        let q := loop fuel r.1.1 r.2
        ((q.1.1, r.1.2.1 ++ q.1.2.1, q.1.2.2), q.2)
      else r
    else (c, ch :: rest)

/-! ### The marks -/

/-- The marks.  One that is set is given by the bytes from it up to the cursor. -/
structure Marks where
  headerField : Option Bytes
  headerValue : Option Bytes
  url : Option Bytes
  body : Option Bytes
deriving DecidableEq, Repr

namespace Marks

def get (m : Marks) : DataFor → Option Bytes
  | .headerField => m.headerField
  | .headerValue => m.headerValue
  | .url => m.url
  | .body => m.body

def set (m : Marks) (k : DataFor) (d : Option Bytes) : Marks :=
  match k with
  | .headerField => { m with headerField := d }
  | .headerValue => { m with headerValue := d }
  | .url => { m with url := d }
  | .body => { m with body := d }

/-- One thing the loop does: the marks afterwards and the callback, if it makes one. -/
def apply (m : Marks) : Op → Marks × List ReqEvent
  | .mark k => (if (m.get k).isNone then m.set k (some []) else m, [])
  | .data k =>
    match m.get k with
    | some d => (m.set k none, [k.event d])
    | none => (m, [])
  | .notify e => (m, [e])
  | .move bs =>
    ({ headerField := m.headerField.map (· ++ bs), headerValue := m.headerValue.map (· ++ bs),
       url := m.url.map (· ++ bs), body := m.body.map (· ++ bs) }, [])

/-- Several of them. -/
def run (m : Marks) : List Op → Marks × List ReqEvent
  | [] => (m, [])
  | o :: os => (((m.apply o).1.run os).1, (m.apply o).2 ++ ((m.apply o).1.run os).2)

/-- "There should be at most one of these set." -/
def AtMostOne (m : Marks) : Prop :=
  ([m.headerField, m.headerValue, m.url, m.body].filter Option.isSome).length ≤ 1

instance (m : Marks) : Decidable m.AtMostOne := by
  unfold AtMostOne
  infer_instance

/-- The marks at the start of a read: that of the element that goes on. -/
def start (st : ParserState) : Marks :=
  { headerField := if st = .headerField then some [] else none
    headerValue := if st = .headerValue then some [] else none
    url := if inUrl st then some [] else none
    body := none }

end Marks

/-- "Run callbacks for any marks that we have leftover after we ran out of bytes." -/
def leftover : List Op := [.data .headerField, .data .headerValue, .data .url, .data .body]

/-- `http_parser_execute` from the loop on: the parser, the callbacks, and the number of bytes
    parsed; `none` if an assertion fails. -/
def execute? (p : HttpParserData) (data : Bytes) : Option (HttpParserData × List ReqEvent × Nat) :=
  let r := loop data.length p data
  let m := (Marks.start p.state).run r.1.2.1
  match r.1.2.2 with
  | none =>
    if m.1.AtMostOne then some (r.1.1, m.2 ++ (m.1.run leftover).2, data.length) else none
  | some .abort => none
  | some _ => some (r.1.1, m.2, data.length - r.2.length)

end RequestParser

/-- The loop of `http_parser_execute`.  Where an assertion fails, nothing is said. -/
def requestLoop : HttpLoop ParserMembers := fun p data =>
  (RequestParser.execute? p data).getD (p, [], 0)

/-- The parser of a session: `http_parser_init` with `HTTP_REQUEST`. -/
def requestParser : HttpParser (ParserData ParserMembers) := httpParser .zero requestLoop

end MyWebSocket
