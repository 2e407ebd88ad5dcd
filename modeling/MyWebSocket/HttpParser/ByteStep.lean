import MyWebSocket.Library.Transducer
import MyWebSocket.HttpParser.Execute

namespace MyWebSocket

open Transducer Transducer.Outcome

/-!
# The request parser as a byte machine

`http_parser_execute` runs over header names, header values and bodies in loops of their own.  This
file has the machine that reads one byte at a time, and its invariant:

* `byteMachine` — each case of the switch on one byte;
* `Inv` — what holds of the parser between two bytes;
* `byteStep_safe` — a byte keeps the invariant, or ends in the error state; no assertion fails.

That both do the same is shown in `HttpParser.Agreement`.
-/

namespace RequestParser

/-! ### One byte -/

/-- `case s_header_field` on one byte. -/
def headerFieldByte (p : HttpParserData) (ch : UInt8) : Step :=
  if token ch = 0 then
    if ch = 0x3A then Op.before (.data .headerField) (goTo .headerValueDiscardWs p)
    else fail p .invalidHeaderToken
  else
    match headerFieldChar p.others ch with
    | some m => next { p with others := m }
    | none => abort p

/-- `case s_header_value` on one byte. -/
def headerValueByte (p : HttpParserData) (ch : UInt8) : Step :=
  if ch = 0x0D then Op.before (.data .headerValue) (goTo .headerAlmostDone p)
  else if ch = 0x0A then Op.before (.data .headerValue) (goTo .headerValueLws p)
  else if badHeaderChar p.others ch then fail p .invalidHeaderToken
  else
    match headerValueChar p.others.headerState p.others ch with
    | .go h m => next { p with others := { m with headerState := h } }
    | .fail e => fail p e
    | .abort => abort p

/-- The states whose cases run over several bytes. -/
def runsOver : ParserState → Bool
  | .headerField | .headerValue | .bodyIdentity | .chunkData | .bodyIdentityEof => true
  | _ => false

/-- The switch on one byte, and the `p++` behind it. -/
def byteSwitch (p : HttpParserData) (ch : UInt8) : Step :=
  match p.state with
  | .headerField => passed ch (headerFieldByte p ch)
  | .headerValue => passed ch (headerValueByte p ch)
  | .bodyIdentity | .chunkData | .bodyIdentityEof => (bodyCase p [ch]).1
  | _ => passed ch (byteCase p ch)

/-- A pass of the loop over one byte. -/
def byteStep (p : HttpParserData) (ch : UInt8) : Step :=
  (countByte p).andThen fun p => byteSwitch p ch

/-- The parser, reading one byte at a time. -/
def byteMachine : Transducer HttpParserData UInt8 Op Halt := ⟨byteStep⟩

/-! ### The invariant -/

/-- The states of header names. -/
def nameState : HeaderState → Bool
  | .general | .c | .co | .con | .matchingConnection | .matchingProxyConnection
  | .matchingContentLength | .matchingTransferEncoding | .matchingUpgrade | .connection
  | .contentLength | .transferEncoding | .upgrade => true
  | _ => false

/-- The states of header values. -/
def valueState : HeaderState → Bool
  | .connection | .transferEncoding => false
  | _ => true

/-- What a state says about the other members. -/
def StateInv (p : HttpParserData) : Prop :=
  match p.state with
  | .reqMethod => p.others.index ≤ (methodString p.others.method).length
  | .headerField => nameState p.others.headerState = true
  | .headerValue => valueState p.others.headerState = true
  | .chunkSizeStart => p.others.flags.chunked = true ∧ p.others.nread = 0
  | .chunkSize | .chunkParameters | .chunkSizeAlmostDone =>
    p.others.flags.chunked = true ∧ p.others.contentLength < ullongMax
  | .chunkData =>
    p.others.flags.chunked = true ∧ p.others.contentLength ≠ 0 ∧
      p.others.contentLength < ullongMax
  | .chunkDataAlmostDone => p.others.flags.chunked = true ∧ p.others.contentLength = 0
  | .chunkDataDone => p.others.flags.chunked = true
  | .bodyIdentity => p.others.contentLength ≠ 0 ∧ p.others.contentLength < ullongMax
  -- only a lenient parser reads up to the end of the stream
  | .bodyIdentityEof => False
  | .startReqOrRes | .resOrRespH | .startRes | .resH | .resHT | .resHTT | .resHTTP | .resHttpMajor
  | .resHttpDot | .resHttpMinor | .resHttpEnd | .resFirstStatusCode | .resStatusCode
  | .resStatusStart | .resStatus | .resLineAlmostDone => False
  | _ => True

/-- What holds of a parser that is not in the error state, whatever its state. -/
structure Base (p : HttpParserData) : Prop where
  ok : p.httpErrno = .ok
  nread : p.others.nread ≤ maxHeaderSize
  contentLength : p.others.contentLength ≤ ullongMax
  strict : p.others.lenientHttpHeaders = false
  lengths : p.others.allowChunkedLength = false

/-- The invariant between two bytes. -/
structure Inv (p : HttpParserData) : Prop where
  base : Base p
  state : StateInv p

theorem Inv.init : Inv (ParserData.init ParserMembers.zero) :=
  ⟨⟨rfl, Nat.zero_le _, Nat.zero_le _, rfl, rfl⟩, trivial⟩

/-- The states that say nothing about the other members. -/
def freeState : ParserState → Bool
  | .reqMethod | .headerField | .headerValue | .chunkSizeStart | .chunkSize | .chunkParameters
  | .chunkSizeAlmostDone | .chunkData | .chunkDataAlmostDone | .chunkDataDone | .bodyIdentity
  | .bodyIdentityEof | .startReqOrRes | .resOrRespH | .startRes | .resH | .resHT | .resHTT
  | .resHTTP | .resHttpMajor | .resHttpDot | .resHttpMinor | .resHttpEnd | .resFirstStatusCode
  | .resStatusCode | .resStatusStart | .resStatus | .resLineAlmostDone => false
  | _ => true

theorem stateInv_of_free {p : HttpParserData} (h : freeState p.state = true) : StateInv p := by
  unfold StateInv
  unfold freeState at h
  split <;> simp_all

/-- A step that fails no assertion and keeps the invariant, or ends in the error state. -/
structure Step.Safe (r : Step) : Prop where
  abort : r.2.2 ≠ some .abort
  inv : r.2.2 ≠ some .error → Inv r.1
  error : r.2.2 = some .error → r.1.httpErrno ≠ .ok

theorem safe_next {p : HttpParserData} (h : Inv p) : (next p).Safe :=
  ⟨nofun, fun _ => h, nofun⟩

theorem safe_fail (p : HttpParserData) {e : HttpErrno} (he : e ≠ .ok) : (fail p e).Safe :=
  ⟨nofun, fun h => absurd rfl h, fun _ => he⟩

theorem Step.Safe.before {r : Step} (h : r.Safe) (o : Op) : (o.before r).Safe :=
  ⟨h.abort, h.inv, h.error⟩

theorem Step.Safe.andThen {r : Step} {k : HttpParserData → Step} (h : r.Safe)
    (hk : Inv r.1 → (k r.1).Safe) : (r.andThen k).Safe := by
  unfold Step.andThen
  split
  · rename_i hnone
    have hsafe := hk (h.inv (by rw [hnone]; nofun))
    exact ⟨hsafe.abort, hsafe.inv, hsafe.error⟩
  · exact h

theorem next_andThen (p : HttpParserData) (k : HttpParserData → Step) :
    (next p).andThen k = k p := rfl

theorem ite_safe {c : Prop} [Decidable c] {r r' : Step} (h : r.Safe) (h' : r'.Safe) :
    (if c then r else r').Safe := by
  split
  · exact h
  · exact h'

/-- A state that says nothing. -/
theorem safe_goTo {p : HttpParserData} {st : ParserState} (h : Base p)
    (hst : freeState st = true) : (goTo st p).Safe := by
  apply safe_next
  exact ⟨⟨h.ok, h.nread, h.contentLength, h.strict, h.lengths⟩, stateInv_of_free hst⟩

/-- The state is left as it is, and says nothing. -/
theorem safe_stay {p : HttpParserData} (h : Base p) (hst : freeState p.state = true) :
    (next p).Safe :=
  safe_next ⟨h, stateInv_of_free hst⟩

/-! ### The request line -/

theorem length_methodString (method : HttpMethod) : (methodString method).length ≤ 11 := by
  cases method <;> decide

theorem safe_startReqCase {p : HttpParserData} (h : Base p) (hst : p.state = .startReq)
    (ch : UInt8) : (startReqCase p ch).Safe := by
  unfold startReqCase
  split
  · exact safe_stay h (by rw [hst]; rfl)
  · dsimp only
    split
    · exact safe_fail _ nofun
    · split
      · rename_i method hmethod
        apply Step.Safe.before
        apply safe_next
        refine ⟨⟨h.ok, h.nread, le_rfl, h.strict, h.lengths⟩, ?_⟩
        -- every method has a first letter
        show 1 ≤ (methodString method).length
        cases method <;> decide
      · exact safe_fail _ nofun

theorem otherMethod_index {method method' : HttpMethod} {index : Nat} {ch : UInt8}
    (h : otherMethod method index ch = some method') :
    index + 1 ≤ (methodString method').length := by
  unfold otherMethod at h
  split at h <;> first
    | (cases h; decide)
    | cases h

theorem safe_reqMethodCase {p : HttpParserData} (h : Base p) (hst : p.state = .reqMethod)
    (hindex : p.others.index ≤ (methodString p.others.method).length) (ch : UInt8) :
    (reqMethodCase p ch).Safe := by
  unfold reqMethodCase
  split
  · exact safe_fail _ nofun
  · rename_i hzero
    have hsome : p.others.index < (methodString p.others.method ++ [0]).length := by
      rw [List.length_append, List.length_singleton]
      omega
    rw [List.getElem?_eq_getElem hsome]
    dsimp only
    have hbump : ∀ method : HttpMethod, p.others.index + 1 ≤ (methodString method).length →
        Inv (bump { p with others.method := method }) := by
      intro method hle
      refine ⟨⟨h.ok, h.nread, h.contentLength, h.strict, h.lengths⟩, ?_⟩
      rw [StateInv]
      simp only [bump, hst]
      have hshort := length_methodString method
      rw [Nat.mod_eq_of_lt (by omega)]
      exact hle
    split
    · exact safe_goTo ⟨h.ok, h.nread, h.contentLength, h.strict, h.lengths⟩ rfl
    · split
      · rename_i hmatch
        apply safe_next
        apply hbump
        -- the byte is not the NUL at the end
        refine Nat.succ_le_of_lt (lt_of_le_of_ne hindex fun hend => hzero ?_)
        rw [hmatch]
        simp [hend]
      · split
        · split
          · rename_i hother
            exact safe_next (hbump _ (otherMethod_index hother))
          · exact safe_fail _ nofun
        · exact safe_fail _ nofun

theorem free_of_inUrl {st : ParserState} (h : inUrl st = true) : freeState st = true := by
  unfold inUrl at h
  split at h <;> first
    | rfl
    | cases h

theorem safe_urlChar {p : HttpParserData} (h : Base p) (ch : UInt8) : (urlChar p ch).Safe := by
  unfold urlChar
  dsimp only
  split
  · exact safe_fail _ nofun
  · rename_i hdead
    refine safe_next ⟨⟨h.ok, h.nread, h.contentLength, h.strict, h.lengths⟩, ?_⟩
    rcases parseUrlChar_spec p.state ch with hbad | ⟨hurl, -⟩
    · exact absurd hbad hdead
    · exact stateInv_of_free (free_of_inUrl hurl)

theorem safe_reqSpacesBeforeUrlCase {p : HttpParserData} (h : Base p)
    (hst : p.state = .reqSpacesBeforeUrl) (ch : UInt8) : (reqSpacesBeforeUrlCase p ch).Safe := by
  unfold reqSpacesBeforeUrlCase
  split
  · exact safe_stay h (by rw [hst]; rfl)
  · apply Step.Safe.before
    split
    · refine safe_urlChar ?_ ch
      exact ⟨h.ok, h.nread, h.contentLength, h.strict, h.lengths⟩
    · exact safe_urlChar h ch

theorem safe_urlStartCase {p : HttpParserData} (h : Base p) (ch : UInt8) :
    (urlStartCase p ch).Safe := by
  unfold urlStartCase
  split
  · exact safe_fail _ nofun
  · exact safe_urlChar h ch

theorem safe_urlCase {p : HttpParserData} (h : Base p) (ch : UInt8) : (urlCase p ch).Safe := by
  unfold urlCase
  split
  · exact (safe_goTo h rfl).before _
  · split
    · apply Step.Safe.before
      refine safe_goTo ?_ ?_
      · exact ⟨h.ok, h.nread, h.contentLength, h.strict, h.lengths⟩
      · split <;> rfl
    · exact safe_urlChar h ch

theorem safe_strictCase {p : HttpParserData} (h : Base p) (want : UInt8) {st : ParserState}
    (hst : freeState st = true) (ch : UInt8) : (strictCase want st p ch).Safe := by
  unfold strictCase
  split
  · exact safe_fail _ nofun
  · exact safe_goTo h hst

theorem safe_reqHttpMajorCase {p : HttpParserData} (h : Base p) (ch : UInt8) :
    (reqHttpMajorCase p ch).Safe := by
  unfold reqHttpMajorCase
  split
  · exact safe_fail _ nofun
  · refine safe_goTo ?_ rfl
    exact ⟨h.ok, h.nread, h.contentLength, h.strict, h.lengths⟩

theorem safe_reqHttpDotCase {p : HttpParserData} (h : Base p) (ch : UInt8) :
    (reqHttpDotCase p ch).Safe := by
  unfold reqHttpDotCase
  split
  · exact safe_fail _ nofun
  · exact safe_goTo h rfl

theorem safe_reqHttpMinorCase {p : HttpParserData} (h : Base p) (ch : UInt8) :
    (reqHttpMinorCase p ch).Safe := by
  unfold reqHttpMinorCase
  split
  · exact safe_fail _ nofun
  · refine safe_goTo ?_ rfl
    exact ⟨h.ok, h.nread, h.contentLength, h.strict, h.lengths⟩

theorem safe_reqHttpEndCase {p : HttpParserData} (h : Base p) (ch : UInt8) :
    (reqHttpEndCase p ch).Safe := by
  unfold reqHttpEndCase
  split
  · exact safe_goTo h rfl
  · split
    · exact safe_goTo h rfl
    · exact safe_fail _ nofun

theorem safe_reqLineAlmostDoneCase {p : HttpParserData} (h : Base p) (ch : UInt8) :
    (reqLineAlmostDoneCase p ch).Safe := by
  unfold reqLineAlmostDoneCase
  split
  · exact safe_fail _ nofun
  · exact safe_goTo h rfl

theorem safe_headerAlmostDoneCase {p : HttpParserData} (h : Base p) (ch : UInt8) :
    (headerAlmostDoneCase p ch).Safe := by
  unfold headerAlmostDoneCase
  split
  · exact safe_fail _ nofun
  · exact safe_goTo h rfl

theorem safe_reqHttpStartCase {p : HttpParserData} (h : Base p) (hst : p.state = .reqHttpStart)
    (ch : UInt8) : (reqHttpStartCase p ch).Safe := by
  unfold reqHttpStartCase
  split
  · exact safe_stay h (by rw [hst]; rfl)
  · split
    · exact safe_goTo h rfl
    · split
      · exact safe_goTo h rfl
      · exact safe_fail _ nofun

/-! ### The end of the headers and of the message -/

theorem free_newMessage (m : ParserMembers) : freeState (newMessage m) = true := by
  unfold newMessage
  split <;> rfl

theorem safe_completeMessage {p : HttpParserData} (h : Base p) {halt : Option Halt}
    (hhalt : halt = none ∨ halt = some .exit) : (completeMessage p halt).Safe := by
  have hinv : Inv { p with state := newMessage p.others } :=
    ⟨⟨h.ok, h.nread, h.contentLength, h.strict, h.lengths⟩,
      stateInv_of_free (free_newMessage p.others)⟩
  refine ⟨?_, fun _ => hinv, ?_⟩
  · rcases hhalt with rfl | rfl <;> nofun
  · rcases hhalt with rfl | rfl <;> nofun

theorem safe_messageDoneCase {p : HttpParserData} (h : Base p) : (messageDoneCase p).Safe := by
  apply safe_completeMessage h
  split
  · exact .inr rfl
  · exact .inl rfl

theorem safe_headersDoneCase {p : HttpParserData} (h : Base p) (ch : UInt8) :
    (headersDoneCase p ch).Safe := by
  have hbase : Base { p with others.nread := 0 } :=
    ⟨h.ok, Nat.zero_le _, h.contentLength, h.strict, h.lengths⟩
  unfold headersDoneCase
  split
  · exact safe_fail _ nofun
  · dsimp only
    split
    · exact safe_completeMessage hbase (.inr rfl)
    · split
      · exact safe_completeMessage hbase (.inl rfl)
      · split
        · rename_i hchunked
          apply safe_next
          exact ⟨⟨h.ok, Nat.zero_le _, h.contentLength, h.strict, h.lengths⟩, hchunked, rfl⟩
        · split
          · rw [if_neg (by rw [h.strict]; exact Bool.false_ne_true)]
            exact safe_fail _ nofun
          · split
            · exact safe_completeMessage hbase (.inl rfl)
            · rename_i hzero
              split
              · rename_i hmax
                apply safe_next
                refine ⟨⟨h.ok, Nat.zero_le _, h.contentLength, h.strict, h.lengths⟩, hzero, ?_⟩
                exact lt_of_le_of_ne h.contentLength hmax
              · exact safe_completeMessage hbase (.inl rfl)

theorem safe_headersAlmostDoneCase {p : HttpParserData} (h : Base p) (ch : UInt8) :
    (headersAlmostDoneCase p ch).Safe := by
  unfold headersAlmostDoneCase
  dsimp only
  split
  · exact safe_fail _ nofun
  · split
    · refine safe_messageDoneCase ?_
      exact ⟨h.ok, h.nread, h.contentLength, h.strict, h.lengths⟩
    · refine ite_safe (safe_fail _ nofun) (Step.Safe.before ?_ _)
      refine safe_headersDoneCase ?_ ch
      exact ⟨h.ok, h.nread, h.contentLength, h.strict, h.lengths⟩

/-! ### Headers -/

theorem nameState_firstHeader (c : UInt8) : nameState (firstHeader c) = true := by
  unfold firstHeader
  split <;> rfl

theorem safe_headerFieldStartCase {p : HttpParserData} (h : Base p) (ch : UInt8) :
    (headerFieldStartCase p ch).Safe := by
  unfold headerFieldStartCase
  split
  · exact safe_goTo h rfl
  · split
    · refine safe_headersAlmostDoneCase ?_ ch
      exact ⟨h.ok, h.nread, h.contentLength, h.strict, h.lengths⟩
    · split
      · exact safe_fail _ nofun
      · apply Step.Safe.before
        apply safe_next
        exact ⟨⟨h.ok, h.nread, h.contentLength, h.strict, h.lengths⟩,
          nameState_firstHeader (token ch)⟩

/-- What the characters of names and values leave alone. -/
structure Kept (m m' : ParserMembers) : Prop where
  nread : m'.nread = m.nread
  strict : m'.lenientHttpHeaders = m.lenientHttpHeaders
  lengths : m'.allowChunkedLength = m.allowChunkedLength
  method : m'.method = m.method
  major : m'.httpMajor = m.httpMajor
  minor : m'.httpMinor = m.httpMinor
  chunked : m'.flags.chunked = m.flags.chunked
  trailing : m'.flags.trailing = m.flags.trailing
  skipbody : m'.flags.skipbody = m.flags.skipbody

theorem Kept.refl (m : ParserMembers) : Kept m m :=
  ⟨rfl, rfl, rfl, rfl, rfl, rfl, rfl, rfl, rfl⟩

theorem matchWord_cases (word : Bytes) (index : Nat) (c : UInt8) (fail now done : HeaderState) :
    matchWord word index c fail now done = fail ∨ matchWord word index c fail now done = now ∨
      matchWord word index c fail now done = done := by
  unfold matchWord
  split
  · exact .inl rfl
  · split
    · exact .inr (.inr rfl)
    · exact .inr (.inl rfl)

/-- A character of a name. -/
theorem headerFieldChar_spec {m : ParserMembers} (h : nameState m.headerState = true)
    (ch : UInt8) : ∃ m', headerFieldChar m ch = some m' ∧ nameState m'.headerState = true ∧
      Kept m m' ∧ m'.flags = m.flags ∧ m'.contentLength = m.contentLength := by
  have hword : ∀ (word : Bytes) (index : Nat) (c : UInt8) (now done : HeaderState),
      nameState now = true → nameState done = true →
      nameState (matchWord word index c .general now done) = true := by
    intro word index c now done hnow hdone
    rcases matchWord_cases word index c .general now done with heq | heq | heq <;> rw [heq]
    · rfl
    · exact hnow
    · exact hdone
  have hkept : ∀ (i : Nat) (st : HeaderState) (ute : Bool), Kept m { m with
      index := i, headerState := st, usesTransferEncoding := ute } := fun i st ute =>
    ⟨rfl, rfl, rfl, rfl, rfl, rfl, rfl, rfl, rfl⟩
  unfold headerFieldChar
  dsimp only
  split
  · exact ⟨_, rfl, h, .refl m, rfl, rfl⟩
  · refine ⟨_, rfl, ?_, hkept _ _ _, rfl, rfl⟩
    dsimp only
    split <;> rfl
  · refine ⟨_, rfl, ?_, hkept _ _ _, rfl, rfl⟩
    dsimp only
    split <;> rfl
  · refine ⟨_, rfl, ?_, hkept _ _ _, rfl, rfl⟩
    dsimp only
    split
    · rfl
    · split <;> rfl
  · exact ⟨_, rfl, hword _ _ _ _ _ rfl rfl, hkept _ _ _, rfl, rfl⟩
  · exact ⟨_, rfl, hword _ _ _ _ _ rfl rfl, hkept _ _ _, rfl, rfl⟩
  · exact ⟨_, rfl, hword _ _ _ _ _ rfl rfl, hkept _ _ _, rfl, rfl⟩
  · exact ⟨_, rfl, hword _ _ _ _ _ rfl rfl, hkept _ _ _, rfl, rfl⟩
  · exact ⟨_, rfl, hword _ _ _ _ _ rfl rfl, hkept _ _ _, rfl, rfl⟩
  -- behind the name of a header that is looked for
  iterate 4
    refine ⟨_, rfl, ?_, hkept _ _ _, rfl, rfl⟩
    dsimp only
    split
    · rfl
    · exact h
  · rename_i hgeneral hc hco hcon h₁ h₂ h₃ h₄ h₅ h₆ h₇ h₈ h₉
    unfold nameState at h
    split at h <;> simp_all

theorem safe_headerFieldByte {p : HttpParserData} (h : Base p) (hst : p.state = .headerField)
    (hname : nameState p.others.headerState = true) (ch : UInt8) : (headerFieldByte p ch).Safe := by
  unfold headerFieldByte
  split
  · split
    · exact (safe_goTo h rfl).before _
    · exact safe_fail _ nofun
  · obtain ⟨m, hm, hname', hkept, -, hlength⟩ := headerFieldChar_spec hname ch
    rw [hm]
    apply safe_next
    refine ⟨⟨h.ok, ?_, ?_, hkept.strict.trans h.strict, hkept.lengths.trans h.lengths⟩, ?_⟩
    · exact hkept.nread.trans_le h.nread
    · exact hlength.trans_le h.contentLength
    · rw [StateInv]
      simp only [hst]
      exact hname'

theorem contentLengthChar_spec (m : ParserMembers) (ch : UInt8)
    (hlength : m.contentLength ≤ ullongMax) :
    (∃ e, e ≠ .ok ∧ contentLengthChar m ch = .fail e) ∨
      ∃ h' m', contentLengthChar m ch = .go h' m' ∧ valueState h' = true ∧ Kept m m' ∧
        m'.contentLength ≤ ullongMax := by
  unfold contentLengthChar
  split
  · exact .inr ⟨_, _, rfl, rfl, .refl m, hlength⟩
  · split
    · exact .inl ⟨.invalidContentLength, nofun, rfl⟩
    · split
      · exact .inl ⟨.invalidContentLength, nofun, rfl⟩
      · refine .inr ⟨_, _, rfl, rfl, ⟨rfl, rfl, rfl, rfl, rfl, rfl, rfl, rfl, rfl⟩, ?_⟩
        exact Nat.le_pred_of_lt (Nat.mod_lt _ (by decide))

theorem kept_setConnectionFlag (h : HeaderState) (m : ParserMembers) (i : Nat) :
    Kept m { setConnectionFlag h m with index := i } ∧
      (setConnectionFlag h m).contentLength = m.contentLength := by
  unfold setConnectionFlag
  split <;> exact ⟨⟨rfl, rfl, rfl, rfl, rfl, rfl, rfl, rfl, rfl⟩, rfl⟩

/-- A character of a value. -/
theorem headerValueChar_spec {h : HeaderState} (hvalue : valueState h = true) (m : ParserMembers)
    (ch : UInt8) (hlength : m.contentLength ≤ ullongMax) :
    (∃ e, e ≠ .ok ∧ headerValueChar h m ch = .fail e) ∨
      ∃ h' m', headerValueChar h m ch = .go h' m' ∧ valueState h' = true ∧ Kept m m' ∧
        m'.contentLength ≤ ullongMax := by
  have hword : ∀ (word : Bytes) (index : Nat) (c : UInt8) (fail now done : HeaderState),
      valueState fail = true → valueState now = true → valueState done = true →
      valueState (matchWord word index c fail now done) = true := by
    intro word index c fail now done hfail hnow hdone
    rcases matchWord_cases word index c fail now done with heq | heq | heq <;> rw [heq]
    · exact hfail
    · exact hnow
    · exact hdone
  have hstart : ∀ (c : UInt8) (start word other : HeaderState), valueState start = true →
      valueState word = true → valueState other = true →
      valueState (tokenStart c start word other) = true := by
    intro c start word other hs hw ho
    unfold tokenStart
    split
    · exact hw
    · split
      · exact hs
      · exact ho
  have hindex : ∀ i : Nat, Kept m { m with index := i } := fun i =>
    ⟨rfl, rfl, rfl, rfl, rfl, rfl, rfl, rfl, rfl⟩
  have hgo : ∀ (h' : HeaderState) (m' : ParserMembers), valueState h' = true → Kept m m' →
      m'.contentLength = m.contentLength →
      (∃ e, e ≠ .ok ∧ ValueChar.go h' m' = .fail e) ∨
        ∃ h'' m'', ValueChar.go h' m' = .go h'' m'' ∧ valueState h'' = true ∧ Kept m m'' ∧
          m''.contentLength ≤ ullongMax := by
    intro h' m' hv hk hl
    exact .inr ⟨h', m', rfl, hv, hk, hl.trans_le hlength⟩
  unfold headerValueChar
  dsimp only
  split
  · cases hvalue
  · cases hvalue
  · split
    · exact hgo _ _ rfl (.refl m) rfl
    · exact contentLengthChar_spec m ch hlength
  · exact contentLengthChar_spec m ch hlength
  · split
    · exact hgo _ _ rfl (.refl m) rfl
    · exact .inl ⟨.invalidContentLength, nofun, rfl⟩
  · apply hgo _ _ _ (.refl m) rfl
    split
    · rfl
    · exact hstart _ _ _ _ rfl rfl rfl
  · exact hgo _ _ (hword _ _ _ _ _ _ rfl rfl rfl) (hindex _) rfl
  · split
    · exact hgo _ _ rfl (hindex _) rfl
    · exact hgo _ _ rfl (.refl m) rfl
  · apply hgo _ _ _ (.refl m) rfl
    split
    · rfl
    · split
      · rfl
      · split
        · rfl
        · exact hstart _ _ _ _ rfl rfl rfl
  · exact hgo _ _ (hword _ _ _ _ _ _ rfl rfl rfl) (hindex _) rfl
  · exact hgo _ _ (hword _ _ _ _ _ _ rfl rfl rfl) (hindex _) rfl
  · exact hgo _ _ (hword _ _ _ _ _ _ rfl rfl rfl) (hindex _) rfl
  · split
    · exact hgo _ _ rfl (hindex _) rfl
    · exact hgo _ _ rfl (.refl m) rfl
  · apply hgo _ _ _ (.refl m) rfl
    split <;> rfl
  -- behind a word that is looked for
  iterate 3
    split
    · exact hgo _ _ rfl (kept_setConnectionFlag _ m 0).1 (kept_setConnectionFlag _ m 0).2
    · apply hgo _ _ _ (.refl m) rfl
      split <;> rfl
  · exact hgo _ _ rfl (.refl m) rfl

theorem safe_headerValueByte {p : HttpParserData} (h : Base p) (hst : p.state = .headerValue)
    (hvalue : valueState p.others.headerState = true) (ch : UInt8) :
    (headerValueByte p ch).Safe := by
  unfold headerValueByte
  split
  · exact (safe_goTo h rfl).before _
  · split
    · exact (safe_goTo h rfl).before _
    · split
      · exact safe_fail _ nofun
      · rcases headerValueChar_spec hvalue p.others ch h.contentLength with
          ⟨e, he, heq⟩ | ⟨h', m', heq, hv, hk, hl⟩
        · rw [heq]
          exact safe_fail _ he
        · rw [heq]
          apply safe_next
          refine ⟨⟨h.ok, ?_, hl, hk.strict.trans h.strict, hk.lengths.trans h.lengths⟩, ?_⟩
          · exact hk.nread.trans_le h.nread
          · rw [StateInv]
            simp only [hst]
            exact hv

theorem safe_headerValueFirst {p : HttpParserData} (h : Base p) (hst : p.state = .headerValue)
    (ch : UInt8) : (headerValueFirst p ch).Safe := by
  have hgo : ∀ m : ParserMembers, Kept p.others m → m.contentLength ≤ ullongMax →
      valueState m.headerState = true → (next { p with others := m }).Safe := by
    intro m hk hl hv
    apply safe_next
    refine ⟨⟨h.ok, hk.nread.trans_le h.nread, hl, hk.strict.trans h.strict,
      hk.lengths.trans h.lengths⟩, ?_⟩
    rw [StateInv]
    simp only [hst]
    exact hv
  have hset : ∀ st : HeaderState, valueState st = true →
      (next { p with others.headerState := st }).Safe := fun st hv =>
    hgo _ ⟨rfl, rfl, rfl, rfl, rfl, rfl, rfl, rfl, rfl⟩ h.contentLength hv
  unfold headerValueFirst
  dsimp only
  split
  · exact hgo _ ⟨rfl, rfl, rfl, rfl, rfl, rfl, rfl, rfl, rfl⟩ h.contentLength rfl
  · split <;> exact hset _ rfl
  · rename_i hs
    exact hgo _ (.refl _) h.contentLength (by rw [hs]; rfl)
  · split
    · exact safe_fail _ nofun
    · split
      · exact safe_fail _ nofun
      · refine hgo _ ⟨rfl, rfl, rfl, rfl, rfl, rfl, rfl, rfl, rfl⟩ ?_ rfl
        have hlt := ch.toNat_lt
        show ch.toNat - 0x30 ≤ ullongMax
        rw [ullongMax]
        omega
  · rename_i hs
    exact hgo _ (.refl _) h.contentLength (by rw [hs]; rfl)
  · split
    · exact hset _ rfl
    · split
      · exact hset _ rfl
      · split <;> exact hset _ rfl
  · rename_i hs
    exact hgo _ (.refl _) h.contentLength (by rw [hs]; rfl)
  · exact hset _ rfl

theorem safe_headerValueStartCase {p : HttpParserData} (h : Base p) (ch : UInt8) :
    (headerValueStartCase p ch).Safe := by
  unfold headerValueStartCase
  apply Step.Safe.before
  refine safe_headerValueFirst ?_ rfl ch
  exact ⟨h.ok, h.nread, h.contentLength, h.strict, h.lengths⟩

theorem safe_headerValueDiscardWsCase {p : HttpParserData} (h : Base p)
    (hst : p.state = .headerValueDiscardWs) (ch : UInt8) : (headerValueDiscardWsCase p ch).Safe := by
  unfold headerValueDiscardWsCase
  split
  · exact safe_stay h (by rw [hst]; rfl)
  · split
    · exact safe_goTo h rfl
    · split
      · exact safe_goTo h rfl
      · exact safe_headerValueStartCase h ch

theorem finishHeader_spec (m : ParserMembers) :
    (finishHeader m).nread = m.nread ∧ (finishHeader m).contentLength = m.contentLength ∧
      (finishHeader m).lenientHttpHeaders = m.lenientHttpHeaders ∧
      (finishHeader m).allowChunkedLength = m.allowChunkedLength := by
  unfold finishHeader setConnectionFlag
  split
  · exact ⟨rfl, rfl, rfl, rfl⟩
  · split <;> exact ⟨rfl, rfl, rfl, rfl⟩

theorem Base.finishHeader {p : HttpParserData} (h : Base p) (st : ParserState) :
    Base { p with state := st, others := finishHeader p.others } := by
  obtain ⟨hnread, hlength, hlenient, hallow⟩ := finishHeader_spec p.others
  exact ⟨h.ok, hnread.trans_le h.nread, hlength.trans_le h.contentLength,
    hlenient.trans h.strict, hallow.trans h.lengths⟩

theorem safe_headerValueLwsCase {p : HttpParserData} (h : Base p) (ch : UInt8) :
    (headerValueLwsCase p ch).Safe := by
  unfold headerValueLwsCase
  split
  · refine safe_headerValueStartCase ?_ ch
    exact ⟨h.ok, h.nread, h.contentLength, h.strict, h.lengths⟩
  · exact safe_headerFieldStartCase (h.finishHeader _) ch

theorem safe_headerValueDiscardLwsCase {p : HttpParserData} (h : Base p) (ch : UInt8) :
    (headerValueDiscardLwsCase p ch).Safe := by
  unfold headerValueDiscardLwsCase
  split
  · exact safe_goTo h rfl
  · split
    · exact safe_fail _ nofun
    · exact ((safe_headerFieldStartCase (h.finishHeader _) ch).before _).before _

/-! ### Bodies -/

theorem unhex_le {c : UInt8} {v : Nat} (h : unhex c = some v) : v ≤ 15 := by
  have hall : ∀ n : Fin 256, ∀ v ∈ unhex (UInt8.ofFin n), v ≤ 15 := by decide +kernel
  exact hall c.toFin v h

theorem safe_chunkSizeStartCase {p : HttpParserData} (h : Base p)
    (hchunked : p.others.flags.chunked = true) (hnread : p.others.nread = 1) (ch : UInt8) :
    (chunkSizeStartCase p ch).Safe := by
  unfold chunkSizeStartCase
  rw [if_neg (by simp [hchunked, hnread])]
  split
  · exact safe_fail _ nofun
  · rename_i v hv
    have hle := unhex_le hv
    apply safe_next
    refine ⟨⟨h.ok, h.nread, ?_, h.strict, h.lengths⟩, hchunked, ?_⟩
    · show v ≤ ullongMax
      rw [ullongMax]
      omega
    · show v < ullongMax
      rw [ullongMax]
      omega

theorem safe_chunkSizeCase {p : HttpParserData} (h : Base p) (hst : p.state = .chunkSize)
    (hchunked : p.others.flags.chunked = true) (hlength : p.others.contentLength < ullongMax)
    (ch : UInt8) : (chunkSizeCase p ch).Safe := by
  have hbase : Base p := h
  unfold chunkSizeCase
  rw [if_neg (by simp [hchunked])]
  split
  · apply safe_next
    exact ⟨⟨h.ok, h.nread, h.contentLength, h.strict, h.lengths⟩, hchunked, hlength⟩
  · split
    · split
      · apply safe_next
        exact ⟨⟨h.ok, h.nread, h.contentLength, h.strict, h.lengths⟩, hchunked, hlength⟩
      · exact safe_fail _ nofun
    · rename_i v hv
      have hle := unhex_le hv
      split
      · exact safe_fail _ nofun
      · rename_i hfits
        have hnew : (p.others.contentLength * 16 + v) % 2 ^ 64 < ullongMax := by
          rw [ullongMax] at hfits ⊢
          omega
        apply safe_next
        refine ⟨⟨h.ok, h.nread, hnew.le, h.strict, h.lengths⟩, ?_⟩
        rw [StateInv]
        simp only [hst]
        exact ⟨hchunked, hnew⟩

theorem safe_chunkParametersCase {p : HttpParserData} (h : Base p)
    (hst : p.state = .chunkParameters) (hchunked : p.others.flags.chunked = true)
    (hlength : p.others.contentLength < ullongMax) (ch : UInt8) :
    (chunkParametersCase p ch).Safe := by
  unfold chunkParametersCase
  rw [if_neg (by simp [hchunked])]
  split
  · apply safe_next
    exact ⟨⟨h.ok, h.nread, h.contentLength, h.strict, h.lengths⟩, hchunked, hlength⟩
  · apply safe_next
    refine ⟨h, ?_⟩
    rw [StateInv]
    simp only [hst]
    exact ⟨hchunked, hlength⟩

theorem safe_chunkSizeAlmostDoneCase {p : HttpParserData} (h : Base p)
    (hchunked : p.others.flags.chunked = true) (hlength : p.others.contentLength < ullongMax)
    (ch : UInt8) : (chunkSizeAlmostDoneCase p ch).Safe := by
  unfold chunkSizeAlmostDoneCase
  rw [if_neg (by simp [hchunked])]
  split
  · exact safe_fail _ nofun
  · dsimp only
    split
    · refine safe_goTo ?_ rfl
      exact ⟨h.ok, Nat.zero_le _, h.contentLength, h.strict, h.lengths⟩
    · rename_i hzero
      apply safe_next
      exact ⟨⟨h.ok, Nat.zero_le _, h.contentLength, h.strict, h.lengths⟩, hchunked, hzero,
        hlength⟩

theorem safe_chunkDataAlmostDoneCase {p : HttpParserData} (h : Base p)
    (hchunked : p.others.flags.chunked = true) (hlength : p.others.contentLength = 0)
    (ch : UInt8) : (chunkDataAlmostDoneCase p ch).Safe := by
  unfold chunkDataAlmostDoneCase
  rw [if_neg (by simp [hchunked, hlength])]
  split
  · exact safe_fail _ nofun
  · apply Step.Safe.before
    apply safe_next
    exact ⟨⟨h.ok, h.nread, h.contentLength, h.strict, h.lengths⟩, hchunked⟩

theorem safe_chunkDataDoneCase {p : HttpParserData} (h : Base p)
    (hchunked : p.others.flags.chunked = true) (ch : UInt8) : (chunkDataDoneCase p ch).Safe := by
  unfold chunkDataDoneCase
  rw [if_neg (by simp [hchunked])]
  split
  · exact safe_fail _ nofun
  · apply safe_next
    exact ⟨⟨h.ok, Nat.zero_le _, h.contentLength, h.strict, h.lengths⟩, hchunked, rfl⟩

theorem safe_bodyCase {p : HttpParserData} (h : Inv p)
    (hst : p.state = .bodyIdentity ∨ p.state = .chunkData) (data : Bytes) :
    (bodyCase p data).1.Safe := by
  obtain ⟨hbase, hstate⟩ := h
  rw [StateInv] at hstate
  have hleft : ∀ n, p.others.contentLength - n ≤ p.others.contentLength := fun n => Nat.sub_le _ n
  unfold bodyCase
  dsimp only
  rcases hst with hst | hst
  · simp only [hst] at hstate
    obtain ⟨hzero, hlt⟩ := hstate
    rw [if_pos hst, if_neg (not_not.mpr ⟨hzero, hlt.ne⟩)]
    apply Step.Safe.before
    apply Step.Safe.before
    split
    · apply Step.Safe.before
      apply safe_messageDoneCase
      exact ⟨hbase.ok, hbase.nread, (hleft _).trans hbase.contentLength, hbase.strict,
        hbase.lengths⟩
    · rename_i hmore
      apply safe_next
      refine ⟨⟨hbase.ok, hbase.nread, (hleft _).trans hbase.contentLength, hbase.strict,
        hbase.lengths⟩, ?_⟩
      rw [StateInv]
      simp only [hst]
      exact ⟨hmore, (hleft _).trans_lt hlt⟩
  · simp only [hst] at hstate
    obtain ⟨hchunked, hzero, hlt⟩ := hstate
    rw [if_neg (by rw [hst]; nofun), if_pos hst,
      if_neg (by simp [hchunked, bodyAsserts, hzero, hlt.ne])]
    apply Step.Safe.before
    apply Step.Safe.before
    split
    · rename_i hdone
      apply safe_next
      exact ⟨⟨hbase.ok, hbase.nread, (hleft _).trans hbase.contentLength, hbase.strict,
        hbase.lengths⟩, hchunked, hdone⟩
    · rename_i hmore
      apply safe_next
      refine ⟨⟨hbase.ok, hbase.nread, (hleft _).trans hbase.contentLength, hbase.strict,
        hbase.lengths⟩, ?_⟩
      rw [StateInv]
      simp only [hst]
      exact ⟨hchunked, hmore, (hleft _).trans_lt hlt⟩

/-! ### A byte -/

theorem Step.Safe.passed {r : Step} (h : r.Safe) (ch : UInt8) : (passed ch r).Safe :=
  h.andThen fun hinv => (safe_next hinv).before _

/-- What a state says about the other members once the byte has been counted. -/
structure Counted (p : HttpParserData) : Prop where
  base : Base p
  state : StateInv { p with others.nread := 0 }
  chunkSizeStart : p.state = .chunkSizeStart → p.others.nread = 1

/-- The cases that look at one byte. -/
theorem Counted.byteCase {p : HttpParserData} (h : Counted p) (ch : UInt8)
    (hover : runsOver p.state = false) : (byteCase p ch).Safe := by
  obtain ⟨hbase, hstate, hone⟩ := h
  rw [StateInv] at hstate
  rw [RequestParser.byteCase.eq_def]
  cases hst : p.state <;> dsimp only <;> simp only [hst] at hstate hover
  case dead =>
    unfold deadCase
    exact ite_safe (safe_stay hbase (by rw [hst]; rfl)) (safe_fail _ nofun)
  case startReq => exact safe_startReqCase hbase hst ch
  case reqMethod => exact safe_reqMethodCase hbase hst hstate ch
  case reqSpacesBeforeUrl => exact safe_reqSpacesBeforeUrlCase hbase hst ch
  case reqSchema | reqSchemaSlash | reqSchemaSlashSlash | reqServerStart =>
    exact safe_urlStartCase hbase ch
  case reqServer | reqServerWithAt | reqPath | reqQueryStringStart | reqQueryString
      | reqFragmentStart | reqFragment =>
    exact safe_urlCase hbase ch
  case reqHttpStart => exact safe_reqHttpStartCase hbase hst ch
  case reqHttpH | reqHttpHT | reqHttpHTT | reqHttpHTTP | reqHttpI | reqHttpIC
      | headerValueDiscardWsAlmostDone =>
    exact safe_strictCase hbase _ rfl ch
  case reqHttpMajor => exact safe_reqHttpMajorCase hbase ch
  case reqHttpDot => exact safe_reqHttpDotCase hbase ch
  case reqHttpMinor => exact safe_reqHttpMinorCase hbase ch
  case reqHttpEnd => exact safe_reqHttpEndCase hbase ch
  case reqLineAlmostDone => exact safe_reqLineAlmostDoneCase hbase ch
  case headerFieldStart => exact safe_headerFieldStartCase hbase ch
  case headerValueDiscardWs => exact safe_headerValueDiscardWsCase hbase hst ch
  case headerValueDiscardLws => exact safe_headerValueDiscardLwsCase hbase ch
  case headerValueStart => exact safe_headerValueStartCase hbase ch
  case headerAlmostDone => exact safe_headerAlmostDoneCase hbase ch
  case headerValueLws => exact safe_headerValueLwsCase hbase ch
  case headersAlmostDone => exact safe_headersAlmostDoneCase hbase ch
  case headersDone => exact safe_headersDoneCase hbase ch
  case chunkSizeStart => exact safe_chunkSizeStartCase hbase hstate.1 (hone hst) ch
  case chunkSize => exact safe_chunkSizeCase hbase hst hstate.1 hstate.2 ch
  case chunkParameters => exact safe_chunkParametersCase hbase hst hstate.1 hstate.2 ch
  case chunkSizeAlmostDone => exact safe_chunkSizeAlmostDoneCase hbase hstate.1 hstate.2 ch
  case chunkDataAlmostDone => exact safe_chunkDataAlmostDoneCase hbase hstate.1 hstate.2 ch
  case chunkDataDone => exact safe_chunkDataDoneCase hbase hstate ch
  case messageDone => exact safe_messageDoneCase hbase
  -- the cases that run over several bytes
  all_goals exact absurd hover nofun

theorem countHeaderSize_eq {p : HttpParserData} {v : Nat} (hv : p.others.nread + v < 2 ^ 32) :
    countHeaderSize p v =
      if maxHeaderSize < p.others.nread + v then
        fail { p with others.nread := p.others.nread + v } .headerOverflow
      else next { p with others.nread := p.others.nread + v } := by
  unfold countHeaderSize
  dsimp only
  rw [Nat.mod_eq_of_lt (show v < 2 ^ 32 by omega), Nat.mod_eq_of_lt hv]

/-- A byte is counted. -/
theorem Inv.countByte {p : HttpParserData} (h : Inv p) :
    (countByte p = fail { p with others.nread := p.others.nread + 1 } .headerOverflow ∧
        parsingHeader p.state = true ∧ maxHeaderSize < p.others.nread + 1) ∨
      ∃ q, countByte p = next q ∧ Counted q ∧ q.state = p.state ∧
        q = (if parsingHeader p.state then { p with others.nread := p.others.nread + 1 } else p) := by
  obtain ⟨hbase, hstate⟩ := h
  have hcounted : StateInv { p with others.nread := 0 } := by
    unfold StateInv at hstate ⊢
    dsimp only
    split at hstate <;> rename_i hst <;> first
      | exact hstate
      | exact ⟨hstate.1, rfl⟩
  have hsmall : p.others.nread + 1 < 2 ^ 32 := by
    have hle := hbase.nread
    rw [maxHeaderSize] at hle
    omega
  unfold RequestParser.countByte
  split
  · rename_i hheader
    rw [countHeaderSize_eq hsmall]
    split
    · rename_i hover
      exact .inl ⟨rfl, hheader, hover⟩
    · rename_i hfits
      refine .inr ⟨_, rfl, ⟨⟨hbase.ok, Nat.le_of_not_lt hfits, hbase.contentLength, hbase.strict,
        hbase.lengths⟩, hcounted, ?_⟩, rfl, rfl⟩
      intro hst
      have hst : p.state = .chunkSizeStart := hst
      unfold StateInv at hstate
      simp only [hst] at hstate
      show p.others.nread + 1 = 1
      rw [hstate.2]
  · rename_i hbody
    refine .inr ⟨p, rfl, ⟨hbase, hcounted, ?_⟩, rfl, rfl⟩
    intro hst
    rw [hst] at hbody
    exact absurd rfl hbody

theorem Counted.byteSwitch {p : HttpParserData} (h : Counted p) (ch : UInt8) :
    (byteSwitch p ch).Safe := by
  have hstate := h.state
  have hinv : ∀ st, p.state = st → (st = .bodyIdentity ∨ st = .chunkData) → Inv p := by
    rintro st hst (rfl | rfl) <;> refine ⟨h.base, ?_⟩ <;> unfold StateInv at hstate ⊢ <;>
      simp only [hst] at hstate ⊢ <;> exact hstate
  unfold RequestParser.byteSwitch
  split
  · rename_i hst
    unfold StateInv at hstate
    simp only [hst] at hstate
    exact (safe_headerFieldByte h.base hst hstate ch).passed ch
  · rename_i hst
    unfold StateInv at hstate
    simp only [hst] at hstate
    exact (safe_headerValueByte h.base hst hstate ch).passed ch
  · rename_i hst
    exact safe_bodyCase (hinv _ hst (.inl rfl)) (.inl hst) [ch]
  · rename_i hst
    exact safe_bodyCase (hinv _ hst (.inr rfl)) (.inr hst) [ch]
  · rename_i hst
    unfold StateInv at hstate
    simp only [hst] at hstate
  · apply Step.Safe.passed
    apply h.byteCase
    unfold runsOver
    split <;> simp_all

/-- **A byte keeps the invariant**, or ends in the error state; no assertion fails. -/
theorem byteStep_safe {p : HttpParserData} (h : Inv p) (ch : UInt8) : (byteStep p ch).Safe := by
  unfold byteStep
  rcases h.countByte with ⟨heq, -, -⟩ | ⟨q, heq, hq, hst, -⟩
  · rw [heq]
    exact safe_fail _ nofun
  · rw [heq]
    rw [next_andThen]
    exact hq.byteSwitch ch

end RequestParser

end MyWebSocket
