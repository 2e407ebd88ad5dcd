import MyWebSocket.HttpParser.Agreement

namespace MyWebSocket

open Transducer Transducer.Outcome

/-!
# The phases of a message

What the parser does, seen from its marks and callbacks alone: a message goes through phases, and
in each of them only some of the operations are made, over only some of the bytes.

* `Phase.op` — the phase behind an operation;
* `Fits` — the phases a state of the parser stands for;
* `byteStep_goes` — a byte goes from one phase to another (or ends in the error state).
-/

namespace RequestParser

/-- How far a message has been read.  `t` is set for the headers behind a chunked body; `b`
    where the body is marked. -/
inductive Phase
  /-- Between two messages. -/
  | idle
  /-- Behind `on_message_begin`. -/
  | begun
  /-- In the url. -/
  | url
  /-- Behind the url, before the first header. -/
  | line
  /-- In the name of a header. -/
  | name (t : Bool)
  /-- Between the name of a header and its value. -/
  | colon (t : Bool)
  /-- In the value of a header. -/
  | value (t : Bool)
  /-- Behind the value of a header. -/
  | ended (t : Bool)
  /-- Behind `on_headers_complete`. -/
  | body (b : Bool)
deriving DecidableEq, Repr

namespace Phase

/-- The bytes of an element of a message. -/
def Ok : Phase → UInt8 → Prop
  | url, c => Visible c
  | name _, c => token c ≠ 0
  | value _, c => c ≠ 0x0D ∧ c ≠ 0x0A
  | _, _ => True

instance (ph : Phase) (c : UInt8) : Decidable (ph.Ok c) := by
  unfold Ok
  split <;> infer_instance

instance (ph : Phase) (bs : Bytes) : Decidable (∀ b ∈ bs, ph.Ok b) :=
  List.decidableBAll (ph.Ok ·) bs

/-- The phase behind an operation; no phase if the operation is out of place. -/
def op : Phase → Op → Option Phase
  | idle, .notify .messageBegin => some begun
  | begun, .mark .url => some url
  | url, .data .url => some line
  | line, .mark .headerField => some (name false)
  | ended t, .mark .headerField => some (name t)
  | body false, .mark .headerField => some (name true)
  | name t, .data .headerField => some (colon t)
  | colon t, .mark .headerValue => some (value t)
  -- a value may go on in the next line
  | ended t, .mark .headerValue => some (value t)
  | value t, .data .headerValue => some (ended t)
  | line, .notify (.headersComplete _ _ _) => some (body false)
  | ended false, .notify (.headersComplete _ _ _) => some (body false)
  | body _, .mark .body => some (body true)
  | body _, .data .body => some (body false)
  | body false, .notify (.messageComplete _) => some idle
  | ended true, .notify (.messageComplete _) => some idle
  | ph, .move bs => if ∀ b ∈ bs, ph.Ok b then some ph else none
  | _, _ => none

/-- The phase behind several operations. -/
def ops (ph : Phase) (os : List Op) : Option Phase := os.foldlM op ph

@[simp] theorem ops_nil (ph : Phase) : ph.ops [] = some ph := rfl

theorem ops_cons (ph : Phase) (o : Op) (os : List Op) :
    ph.ops (o :: os) = (ph.op o).bind fun ph' => ph'.ops os := rfl

theorem ops_append (ph : Phase) (os os' : List Op) :
    ph.ops (os ++ os') = (ph.ops os).bind fun ph' => ph'.ops os' := by
  rw [ops, List.foldlM_append]
  rfl

theorem op_move (ph : Phase) (bs : Bytes) :
    ph.op (.move bs) = if ∀ b ∈ bs, ph.Ok b then some ph else none := by
  unfold op
  split <;> simp_all

theorem op_move_one {ph : Phase} {ch : UInt8} (h : ph.Ok ch) : ph.op (.move [ch]) = some ph := by
  rw [op_move, if_pos]
  intro b hb
  rw [List.mem_singleton.mp hb]
  exact h

end Phase

/-- The phase in which a block of headers begins. -/
def Phase.block : Bool → Phase
  | true => body false
  | false => line

/-- The phases of a state; `t` is `F_TRAILING`. -/
def FitsIn (st : ParserState) (t : Bool) (ph : Phase) : Prop :=
  match st with
  | .dead | .startReq => ph = .idle
  | .reqMethod | .reqSpacesBeforeUrl => ph = .begun ∧ t = false
  | .reqSchema | .reqSchemaSlash | .reqSchemaSlashSlash | .reqServerStart | .reqServer
  | .reqServerWithAt | .reqPath | .reqQueryStringStart | .reqQueryString | .reqFragmentStart
  | .reqFragment => ph = .url ∧ t = false
  | .reqHttpStart | .reqHttpH | .reqHttpHT | .reqHttpHTT | .reqHttpI | .reqHttpIC | .reqHttpHTTP
  | .reqHttpMajor | .reqHttpDot | .reqHttpMinor | .reqHttpEnd | .reqLineAlmostDone =>
    ph = .line ∧ t = false
  | .headerFieldStart => ph = .block t
  | .headerField => ph = .name t
  | .headerValueDiscardWs | .headerValueDiscardWsAlmostDone | .headerValueDiscardLws =>
    ph = .colon t
  | .headerValue => ph = .value t
  | .headerAlmostDone | .headerValueLws => ph = .ended t
  | .headersAlmostDone => ph = .ended t ∨ ph = .block t
  | .chunkSizeStart | .chunkSize | .chunkParameters | .chunkSizeAlmostDone | .chunkDataDone =>
    ph = .body false ∧ t = false
  | .chunkData | .chunkDataAlmostDone | .bodyIdentity => (∃ b, ph = .body b) ∧ t = false
  | _ => False

/-- The phases of a parser. -/
def Fits (p : HttpParserData) (ph : Phase) : Prop := FitsIn p.state p.others.flags.trailing ph

/-- Operations lead from one phase to another.  It is one of the parser behind them, unless that is
    in the error state; and the loop is left behind an upgrade. -/
structure Leads (ph : Phase) (os : List Op) (halt : Option Halt) (p : HttpParserData)
    (ph' : Phase) : Prop where
  ops : ph.ops os = some ph'
  fits : halt ≠ some .error → Fits p ph'
  exit : halt = some .exit → ∃ os', os = os' ++ [.notify (.messageComplete true)]

/-- A step over the byte `ch` goes from one phase to another, or ends in the error state. -/
def Step.Goes (r : Step) (ch : UInt8) (ph : Phase) : Prop :=
  ∃ ph', Leads ph r.2.1 r.2.2 r.1 ph' ∧ (r.2.2 = none → ph'.Ok ch)

variable {p : HttpParserData} {ph : Phase} {ch : UInt8}

theorem goes_next (hfits : Fits p ph) (hok : ph.Ok ch) : (next p).Goes ch ph :=
  ⟨ph, ⟨rfl, fun _ => hfits, nofun⟩, fun _ => hok⟩

theorem fits_of {st : ParserState} (hst : p.state = st)
    (h : FitsIn st p.others.flags.trailing ph) : Fits p ph := by
  rw [Fits, hst]
  exact h

theorem goes_abort (hfits : Fits p ph) : (abort p).Goes ch ph :=
  ⟨ph, ⟨rfl, fun _ => hfits, nofun⟩, nofun⟩

theorem goes_fail (p : HttpParserData) (e : HttpErrno) (ch : UInt8) (ph : Phase) :
    (fail p e).Goes ch ph :=
  ⟨ph, ⟨rfl, fun h => absurd rfl h, nofun⟩, nofun⟩

theorem Leads.cons {os : List Op} {halt : Option Halt} {o : Op} {ph' ph'' : Phase}
    (hop : ph.op o = some ph') (h : Leads ph' os halt p ph'') : Leads ph (o :: os) halt p ph'' := by
  refine ⟨?_, h.fits, fun hexit => ?_⟩
  · rw [Phase.ops_cons, hop]
    exact h.ops
  · obtain ⟨os', hos⟩ := h.exit hexit
    exact ⟨o :: os', congrArg (o :: ·) hos⟩

theorem goes_before {r : Step} {o : Op} (ph' : Phase) (hop : ph.op o = some ph')
    (h : r.Goes ch ph') : (o.before r).Goes ch ph := by
  obtain ⟨ph'', hleads, hok⟩ := h
  exact ⟨ph'', hleads.cons hop, hok⟩

theorem ite_goes {c : Prop} [Decidable c] {r r' : Step} (h : r.Goes ch ph) (h' : r'.Goes ch ph) :
    (if c then r else r').Goes ch ph := by
  split
  · exact h
  · exact h'

/-- The `p++` behind a case. -/
theorem Step.Goes.passed {r : Step} (h : r.Goes ch ph) :
    ∃ ph', Leads ph (passed ch r).2.1 (passed ch r).2.2 (passed ch r).1 ph' := by
  obtain ⟨ph', hleads, hok⟩ := h
  obtain ⟨q, os, halt⟩ := r
  cases halt with
  | none =>
    refine ⟨ph', ?_, fun _ => hleads.fits nofun, nofun⟩
    show ph.ops (os ++ [.move [ch]]) = some ph'
    rw [Phase.ops_append, show ph.ops os = some ph' from hleads.ops, Option.bind_some,
      Phase.ops_cons, Phase.op_move_one (hok rfl)]
    rfl
  | some halt => exact ⟨ph', hleads⟩

/-! ### The request line -/

theorem goes_deadCase (hst : p.state = .dead) (hph : ph = .idle) (ch : UInt8) :
    (deadCase p ch).Goes ch ph := by
  subst hph
  unfold deadCase
  exact ite_goes (goes_next (fits_of hst rfl) trivial) (goes_fail _ _ _ _)

theorem goes_startReqCase (hst : p.state = .startReq) (hph : ph = .idle) (ch : UInt8) :
    (startReqCase p ch).Goes ch ph := by
  subst hph
  unfold startReqCase
  split
  · exact goes_next (fits_of hst rfl) trivial
  · refine ite_goes (goes_fail _ _ _ _) ?_
    dsimp only
    split
    · refine goes_before .begun rfl ?_
      exact goes_next ⟨rfl, rfl⟩ trivial
    · exact goes_fail _ _ _ _

theorem goes_reqMethodCase (hst : p.state = .reqMethod)
    (hph : ph = .begun ∧ p.others.flags.trailing = false) (ch : UInt8) :
    (reqMethodCase p ch).Goes ch ph := by
  obtain ⟨rfl, htrailing⟩ := hph
  have hstay : ∀ method, Fits (bump { p with others.method := method }) .begun := by
    intro method
    exact fits_of hst ⟨rfl, htrailing⟩
  unfold reqMethodCase
  refine ite_goes (goes_fail _ _ _ _) ?_
  split
  · exact goes_abort (fits_of hst ⟨rfl, htrailing⟩)
  · split
    · exact goes_next ⟨rfl, htrailing⟩ trivial
    · split
      · exact goes_next (hstay p.others.method) trivial
      · split
        · split
          · exact goes_next (hstay _) trivial
          · exact goes_fail _ _ _ _
        · exact goes_fail _ _ _ _

theorem fits_url (h : inUrl p.state = true) (htrailing : p.others.flags.trailing = false) :
    Fits p .url := by
  unfold inUrl at h
  split at h <;> first
    | (rename_i hst; exact fits_of hst ⟨rfl, htrailing⟩)
    | cases h

theorem goes_urlChar (htrailing : p.others.flags.trailing = false) (ch : UInt8) :
    (urlChar p ch).Goes ch .url := by
  unfold urlChar
  dsimp only
  split
  · exact goes_fail _ _ _ _
  · rename_i hdead
    obtain ⟨hurl, hvisible⟩ := (parseUrlChar_spec p.state ch).resolve_left hdead
    exact goes_next (fits_url hurl htrailing) hvisible

theorem goes_reqSpacesBeforeUrlCase (hst : p.state = .reqSpacesBeforeUrl)
    (hph : ph = .begun ∧ p.others.flags.trailing = false) (ch : UInt8) :
    (reqSpacesBeforeUrlCase p ch).Goes ch ph := by
  obtain ⟨rfl, htrailing⟩ := hph
  unfold reqSpacesBeforeUrlCase
  split
  · exact goes_next (fits_of hst ⟨rfl, htrailing⟩) trivial
  · refine goes_before .url rfl (goes_urlChar ?_ ch)
    split
    · exact htrailing
    · exact htrailing

theorem goes_urlStartCase (hph : ph = .url ∧ p.others.flags.trailing = false) (ch : UInt8) :
    (urlStartCase p ch).Goes ch ph := by
  obtain ⟨rfl, htrailing⟩ := hph
  exact ite_goes (goes_fail _ _ _ _) (goes_urlChar htrailing ch)

theorem goes_urlCase (hph : ph = .url ∧ p.others.flags.trailing = false) (ch : UInt8) :
    (urlCase p ch).Goes ch ph := by
  obtain ⟨rfl, htrailing⟩ := hph
  unfold urlCase
  split
  · exact goes_before .line rfl (goes_next ⟨rfl, htrailing⟩ trivial)
  · split
    · refine goes_before .line rfl (goes_next ?_ trivial)
      split
      · exact ⟨rfl, htrailing⟩
      · exact congrArg Phase.block htrailing.symm
    · exact goes_urlChar htrailing ch

/-- A case of the request line behind the url that goes on to another one, or fails. -/
theorem goes_line {c : Prop} [Decidable c] {st : ParserState} {q : HttpParserData} {e : HttpErrno}
    (hfits : Fits { q with state := st } .line) (ch : UInt8) :
    (if c then fail p e else goTo st q).Goes ch .line :=
  ite_goes (goes_fail _ _ _ _) (goes_next hfits trivial)

theorem goes_reqHttpStartCase (hst : p.state = .reqHttpStart)
    (hph : ph = .line ∧ p.others.flags.trailing = false) (ch : UInt8) :
    (reqHttpStartCase p ch).Goes ch ph := by
  obtain ⟨rfl, htrailing⟩ := hph
  unfold reqHttpStartCase
  refine ite_goes (goes_next ?_ trivial) (ite_goes ?_ (ite_goes ?_ (goes_fail _ _ _ _)))
  · exact fits_of hst ⟨rfl, htrailing⟩
  · exact goes_next ⟨rfl, htrailing⟩ trivial
  · exact goes_next ⟨rfl, htrailing⟩ trivial

theorem fits_headerFieldStart (htrailing : p.others.flags.trailing = false) :
    Fits { p with state := .headerFieldStart } .line := by
  exact congrArg Phase.block htrailing.symm

theorem goes_reqHttpEndCase (hph : ph = .line ∧ p.others.flags.trailing = false) (ch : UInt8) :
    (reqHttpEndCase p ch).Goes ch ph := by
  obtain ⟨rfl, htrailing⟩ := hph
  unfold reqHttpEndCase
  refine ite_goes (goes_next ⟨rfl, htrailing⟩ trivial) (ite_goes ?_ (goes_fail _ _ _ _))
  exact goes_next (fits_headerFieldStart htrailing) trivial

/-! ### The end of the headers and of the message -/

theorem goes_completeMessage {halt : Option Halt} (hhalt : halt = some .exit → p.upgrade = true)
    (hph : ph = .body false ∨ ph = .ended true) (ch : UInt8) :
    (completeMessage p halt).Goes ch ph := by
  refine ⟨.idle, ⟨?_, fun _ => ?_, fun hexit => ⟨[], ?_⟩⟩, fun _ => trivial⟩
  · rcases hph with rfl | rfl <;> rfl
  · unfold completeMessage newMessage
    split <;> rfl
  · show [Op.notify (.messageComplete p.upgrade)] = _
    rw [hhalt hexit]
    rfl

theorem goes_messageDoneCase (hph : ph = .body false ∨ ph = .ended true) (ch : UInt8) :
    (messageDoneCase p).Goes ch ph := by
  refine goes_completeMessage (fun hexit => ?_) hph ch
  split at hexit
  · assumption
  · cases hexit

theorem goes_headersDoneCase (hstrict : p.others.lenientHttpHeaders = false)
    (htrailing : p.others.flags.trailing = false) (ch : UInt8) :
    (headersDoneCase p ch).Goes ch (.body false) := by
  have hnone : ∀ q : HttpParserData, (completeMessage q none).Goes ch (.body false) := by
    intro q
    apply goes_completeMessage
    · nofun
    · exact .inl rfl
  unfold headersDoneCase
  dsimp only
  refine ite_goes (goes_fail _ _ _ _) ?_
  split
  · rename_i hupgrade
    apply goes_completeMessage
    · exact fun _ => hupgrade.1
    · exact .inl rfl
  · refine ite_goes (hnone _) (ite_goes ?_ (ite_goes ?_ (ite_goes (hnone _)
      (ite_goes ?_ (hnone _)))))
    · exact goes_next ⟨rfl, htrailing⟩ trivial
    · rw [hstrict]
      exact goes_fail _ _ _ _
    · exact goes_next ⟨⟨false, rfl⟩, htrailing⟩ trivial

/-- Where a header begins, or the block of headers ends. -/
def AtHeader (p : HttpParserData) (ph : Phase) : Prop :=
  ph = .ended p.others.flags.trailing ∨ ph = .block p.others.flags.trailing

theorem goes_headersAlmostDoneCase (hstrict : p.others.lenientHttpHeaders = false)
    (hph : AtHeader p ph) (ch : UInt8) : (headersAlmostDoneCase p ch).Goes ch ph := by
  unfold headersAlmostDoneCase
  dsimp only
  rw [AtHeader] at hph
  refine ite_goes (goes_fail _ _ _ _) ?_
  split
  · rename_i htrailing
    rw [htrailing] at hph
    exact goes_messageDoneCase hph.symm ch
  · rename_i htrailing
    rw [Bool.eq_false_of_not_eq_true htrailing] at hph
    refine ite_goes (goes_fail _ _ _ _) (goes_before (.body false) ?_ ?_)
    · rcases hph with rfl | rfl <;> rfl
    · refine goes_headersDoneCase ?_ ?_ ch
      · exact hstrict
      · exact Bool.eq_false_of_not_eq_true htrailing

/-! ### Headers -/

theorem goes_headerFieldStartCase (hstrict : p.others.lenientHttpHeaders = false)
    (hph : AtHeader p ph) (ch : UInt8) : (headerFieldStartCase p ch).Goes ch ph := by
  unfold headerFieldStartCase
  split
  · refine goes_next hph ?_
    rcases hph with rfl | rfl
    · trivial
    · cases p.others.flags.trailing <;> trivial
  · split
    · refine goes_headersAlmostDoneCase ?_ ?_ ch
      · exact hstrict
      · exact hph
    · split
      · exact goes_fail _ _ _ _
      · rename_i htoken
        refine goes_before (.name p.others.flags.trailing) ?_ (goes_next rfl htoken)
        rcases hph with rfl | rfl
        · rfl
        · cases p.others.flags.trailing <;> rfl

theorem goes_headerFieldByte (hst : p.state = .headerField)
    (hname : nameState p.others.headerState = true) (hph : ph = .name p.others.flags.trailing)
    (ch : UInt8) : (headerFieldByte p ch).Goes ch ph := by
  subst hph
  unfold headerFieldByte
  split
  · refine ite_goes ?_ (goes_fail _ _ _ _)
    exact goes_before (.colon p.others.flags.trailing) rfl (goes_next rfl trivial)
  · rename_i htoken
    obtain ⟨m, hm, -, -, hflags, -⟩ := headerFieldChar_spec hname ch
    rw [hm]
    refine goes_next ?_ htoken
    exact fits_of hst (by rw [hflags]; rfl)

theorem goes_headerValueByte (hst : p.state = .headerValue) (hbase : Base p)
    (hvalue : valueState p.others.headerState = true) (hph : ph = .value p.others.flags.trailing)
    (ch : UInt8) : (headerValueByte p ch).Goes ch ph := by
  subst hph
  unfold headerValueByte
  split
  · exact goes_before (.ended p.others.flags.trailing) rfl (goes_next rfl trivial)
  · rename_i hcr
    split
    · exact goes_before (.ended p.others.flags.trailing) rfl (goes_next rfl trivial)
    · rename_i hlf
      refine ite_goes (goes_fail _ _ _ _) ?_
      rcases headerValueChar_spec hvalue p.others ch hbase.contentLength with
        ⟨e, -, heq⟩ | ⟨h', m', heq, -, hkept, -⟩
      · rw [heq]
        exact goes_fail _ _ _ _
      · rw [heq]
        refine goes_next ?_ ⟨hcr, hlf⟩
        exact fits_of hst (congrArg Phase.value hkept.trailing.symm)

theorem goes_headerValueFirst (hst : p.state = .headerValue)
    (hch : ch ≠ 0x0D ∧ ch ≠ 0x0A) :
    (headerValueFirst p ch).Goes ch (.value p.others.flags.trailing) := by
  have hgo : ∀ m : ParserMembers, m.flags.trailing = p.others.flags.trailing →
      (next { p with others := m }).Goes ch (.value p.others.flags.trailing) := by
    intro m hm
    exact goes_next (fits_of hst (congrArg Phase.value hm.symm)) hch
  unfold headerValueFirst
  dsimp only
  split
  · exact hgo _ rfl
  · exact ite_goes (hgo _ rfl) (hgo _ rfl)
  · exact hgo _ rfl
  · exact ite_goes (goes_fail _ _ _ _) (ite_goes (goes_fail _ _ _ _) (hgo _ rfl))
  · exact hgo _ rfl
  · exact ite_goes (hgo _ rfl) (ite_goes (hgo _ rfl) (ite_goes (hgo _ rfl) (hgo _ rfl)))
  · exact hgo _ rfl
  · exact hgo _ rfl

theorem goes_headerValueStartCase (hph : ph = .colon p.others.flags.trailing ∨
    ph = .ended p.others.flags.trailing) (hch : ch ≠ 0x0D ∧ ch ≠ 0x0A) :
    (headerValueStartCase p ch).Goes ch ph := by
  refine goes_before (.value p.others.flags.trailing) ?_ ?_
  · rcases hph with rfl | rfl
    · rfl
    · cases p.others.flags.trailing <;> rfl
  · exact goes_headerValueFirst (p := { p with state := .headerValue, others.index := 0 }) rfl hch

theorem goes_headerValueDiscardWsCase (hst : p.state = .headerValueDiscardWs)
    (hph : ph = .colon p.others.flags.trailing) (ch : UInt8) :
    (headerValueDiscardWsCase p ch).Goes ch ph := by
  unfold headerValueDiscardWsCase
  split
  · subst hph
    exact goes_next (fits_of hst rfl) trivial
  · split
    · subst hph
      exact goes_next rfl trivial
    · rename_i hcr
      split
      · subst hph
        exact goes_next rfl trivial
      · rename_i hlf
        exact goes_headerValueStartCase (.inl hph) ⟨hcr, hlf⟩

theorem finishHeader_trailing (m : ParserMembers) :
    (finishHeader m).flags.trailing = m.flags.trailing := by
  unfold finishHeader setConnectionFlag
  split
  · rfl
  · split <;> rfl

/-- The header has ended, and the byte belongs to the next one. -/
theorem goes_finishHeader (hbase : Base p) (hph : ph = .ended p.others.flags.trailing)
    (ch : UInt8) :
    (headerFieldStartCase
      { p with state := .headerFieldStart, others := finishHeader p.others } ch).Goes ch ph := by
  refine goes_headerFieldStartCase ?_ (.inl ?_) ch
  · exact (finishHeader_spec p.others).2.2.1.trans hbase.strict
  · rw [hph]
    exact congrArg Phase.ended (finishHeader_trailing p.others).symm

theorem goes_headerValueLwsCase (hbase : Base p) (hph : ph = .ended p.others.flags.trailing)
    (ch : UInt8) : (headerValueLwsCase p ch).Goes ch ph := by
  unfold headerValueLwsCase
  split
  · rename_i hblank
    refine goes_headerValueStartCase ?_ ?_
    · exact .inr hph
    · rcases hblank with rfl | rfl <;> decide
  · exact goes_finishHeader hbase hph ch

theorem goes_headerValueDiscardLwsCase (hbase : Base p)
    (hph : ph = .colon p.others.flags.trailing) (ch : UInt8) :
    (headerValueDiscardLwsCase p ch).Goes ch ph := by
  subst hph
  unfold headerValueDiscardLwsCase
  refine ite_goes (goes_next rfl trivial) (ite_goes (goes_fail _ _ _ _) ?_)
  -- the value is empty
  refine goes_before (.value p.others.flags.trailing) rfl
    (goes_before (.ended p.others.flags.trailing) rfl ?_)
  exact goes_finishHeader hbase rfl ch

/-! ### Bodies -/

theorem goes_chunkSizeStartCase (hst : p.state = .chunkSizeStart)
    (hph : ph = .body false ∧ p.others.flags.trailing = false) (ch : UInt8) :
    (chunkSizeStartCase p ch).Goes ch ph := by
  obtain ⟨rfl, htrailing⟩ := hph
  unfold chunkSizeStartCase
  split
  · exact goes_abort (fits_of hst ⟨rfl, htrailing⟩)
  · split
    · exact goes_fail _ _ _ _
    · exact goes_next ⟨rfl, htrailing⟩ trivial

theorem goes_chunkSizeCase (hst : p.state = .chunkSize)
    (hph : ph = .body false ∧ p.others.flags.trailing = false) (ch : UInt8) :
    (chunkSizeCase p ch).Goes ch ph := by
  obtain ⟨rfl, htrailing⟩ := hph
  unfold chunkSizeCase
  split
  · exact goes_abort (fits_of hst ⟨rfl, htrailing⟩)
  · refine ite_goes (goes_next ⟨rfl, htrailing⟩ trivial) ?_
    split
    · exact ite_goes (goes_next ⟨rfl, htrailing⟩ trivial) (goes_fail _ _ _ _)
    · exact ite_goes (goes_fail _ _ _ _) (goes_next (fits_of hst ⟨rfl, htrailing⟩) trivial)

theorem goes_chunkParametersCase (hst : p.state = .chunkParameters)
    (hph : ph = .body false ∧ p.others.flags.trailing = false) (ch : UInt8) :
    (chunkParametersCase p ch).Goes ch ph := by
  obtain ⟨rfl, htrailing⟩ := hph
  have hstay : Fits p (.body false) := fits_of hst ⟨rfl, htrailing⟩
  unfold chunkParametersCase
  split
  · exact goes_abort hstay
  · exact ite_goes (goes_next ⟨rfl, htrailing⟩ trivial) (goes_next hstay trivial)

theorem goes_chunkSizeAlmostDoneCase (hst : p.state = .chunkSizeAlmostDone)
    (hph : ph = .body false ∧ p.others.flags.trailing = false) (ch : UInt8) :
    (chunkSizeAlmostDoneCase p ch).Goes ch ph := by
  obtain ⟨rfl, htrailing⟩ := hph
  unfold chunkSizeAlmostDoneCase
  split
  · exact goes_abort (fits_of hst ⟨rfl, htrailing⟩)
  · refine ite_goes (goes_fail _ _ _ _) (ite_goes (goes_next rfl trivial) ?_)
    exact goes_next ⟨⟨false, rfl⟩, htrailing⟩ trivial

theorem goes_chunkDataAlmostDoneCase (hst : p.state = .chunkDataAlmostDone)
    (hph : (∃ b, ph = .body b) ∧ p.others.flags.trailing = false) (ch : UInt8) :
    (chunkDataAlmostDoneCase p ch).Goes ch ph := by
  obtain ⟨⟨b, rfl⟩, htrailing⟩ := hph
  unfold chunkDataAlmostDoneCase
  split
  · exact goes_abort (fits_of hst ⟨⟨b, rfl⟩, htrailing⟩)
  · refine ite_goes (goes_fail _ _ _ _) (goes_before (.body false) ?_ ?_)
    · cases b <;> rfl
    · exact goes_next ⟨rfl, htrailing⟩ trivial

theorem goes_chunkDataDoneCase (hst : p.state = .chunkDataDone)
    (hph : ph = .body false ∧ p.others.flags.trailing = false) (ch : UInt8) :
    (chunkDataDoneCase p ch).Goes ch ph := by
  obtain ⟨rfl, htrailing⟩ := hph
  unfold chunkDataDoneCase
  split
  · exact goes_abort (fits_of hst ⟨rfl, htrailing⟩)
  · exact ite_goes (goes_fail _ _ _ _) (goes_next ⟨rfl, htrailing⟩ trivial)

/-! ### A byte -/

/-- The cases that look at one byte. -/
theorem goes_byteCase (hbase : Base p) (hfits : Fits p ph) (ch : UInt8)
    (hover : runsOver p.state = false) : (byteCase p ch).Goes ch ph := by
  have hph : FitsIn p.state p.others.flags.trailing ph := hfits
  rw [byteCase.eq_def]
  cases hst : p.state <;> dsimp only <;> rw [hst] at hph hover
  case dead => exact goes_deadCase hst hph ch
  case startReq => exact goes_startReqCase hst hph ch
  case reqMethod => exact goes_reqMethodCase hst hph ch
  case reqSpacesBeforeUrl => exact goes_reqSpacesBeforeUrlCase hst hph ch
  case reqSchema | reqSchemaSlash | reqSchemaSlashSlash | reqServerStart =>
    exact goes_urlStartCase hph ch
  case reqServer | reqServerWithAt | reqPath | reqQueryStringStart | reqQueryString
      | reqFragmentStart | reqFragment =>
    exact goes_urlCase hph ch
  case reqHttpStart => exact goes_reqHttpStartCase hst hph ch
  case reqHttpH | reqHttpHT | reqHttpHTT | reqHttpHTTP | reqHttpI | reqHttpIC =>
    obtain ⟨rfl, htrailing⟩ := hph
    refine goes_line ?_ ch
    exact ⟨rfl, htrailing⟩
  case reqHttpMajor | reqHttpDot | reqHttpMinor =>
    obtain ⟨rfl, htrailing⟩ := hph
    refine goes_line ?_ ch
    exact ⟨rfl, htrailing⟩
  case reqHttpEnd => exact goes_reqHttpEndCase hph ch
  case reqLineAlmostDone =>
    obtain ⟨rfl, htrailing⟩ := hph
    refine goes_line ?_ ch
    exact fits_headerFieldStart htrailing
  case headerFieldStart => exact goes_headerFieldStartCase hbase.strict (.inr hph) ch
  case headerValueDiscardWs => exact goes_headerValueDiscardWsCase hst hph ch
  case headerValueDiscardWsAlmostDone =>
    subst hph
    exact ite_goes (goes_fail _ _ _ _) (goes_next rfl trivial)
  case headerValueDiscardLws => exact goes_headerValueDiscardLwsCase hbase hph ch
  case headerAlmostDone =>
    subst hph
    exact ite_goes (goes_fail _ _ _ _) (goes_next rfl trivial)
  case headerValueLws => exact goes_headerValueLwsCase hbase hph ch
  case headersAlmostDone => exact goes_headersAlmostDoneCase hbase.strict hph ch
  case chunkSizeStart => exact goes_chunkSizeStartCase hst hph ch
  case chunkSize => exact goes_chunkSizeCase hst hph ch
  case chunkParameters => exact goes_chunkParametersCase hst hph ch
  case chunkSizeAlmostDone => exact goes_chunkSizeAlmostDoneCase hst hph ch
  case chunkDataAlmostDone => exact goes_chunkDataAlmostDoneCase hst hph ch
  case chunkDataDone => exact goes_chunkDataDoneCase hst hph ch
  -- the cases that run over several bytes, and those that no byte begins with
  all_goals first
    | exact absurd hover Bool.noConfusion
    | exact False.elim hph

/-- What follows a byte of the body. -/
theorem goes_bodyBehind (p : HttpParserData) (ch : UInt8)
    (hst : p.state = .bodyIdentity ∨ p.state = .chunkData)
    (htrailing : p.others.flags.trailing = false) :
    (bodyBehind p).Goes ch (.body true) := by
  unfold bodyBehind
  split
  · refine goes_next ?_ trivial
    rcases hst with hst | hst <;> exact fits_of hst ⟨⟨true, rfl⟩, htrailing⟩
  · refine ite_goes (goes_before (.body false) rfl (goes_messageDoneCase (.inl rfl) ch)) ?_
    exact goes_next ⟨⟨true, rfl⟩, htrailing⟩ trivial

/-- **A byte goes from one phase to another**, or ends in the error state. -/
theorem byteStep_goes (hinv : Inv p) (hfits : Fits p ph) (ch : UInt8) :
    ∃ ph', Leads ph (byteStep p ch).2.1 (byteStep p ch).2.2 (byteStep p ch).1 ph' := by
  have hph : FitsIn p.state p.others.flags.trailing ph := hfits
  by_cases hbody : p.state = .bodyIdentity ∨ p.state = .chunkData
  · have htrailing : (∃ b, ph = .body b) ∧ p.others.flags.trailing = false := by
      rcases hbody with hst | hst <;> rw [hst] at hph <;> exact hph
    obtain ⟨⟨b, rfl⟩, htrailing⟩ := htrailing
    obtain ⟨ph', hleads, -⟩ := goes_bodyBehind (toCome p (p.others.contentLength - 1)) ch hbody
      htrailing
    rw [byteStep_body hbody hinv]
    have hmark : (Phase.body b).op (.mark .body) = some (.body true) := by
      cases b <;> rfl
    have hmove : (Phase.body true).op (.move [ch]) = some (.body true) :=
      Phase.op_move_one trivial
    exact ⟨ph', (hleads.cons hmove).cons hmark⟩
  · rcases hinv.countByte with ⟨heq, -, -⟩ | ⟨q, heq, hq, hst, hcount⟩
    · rw [byteStep, heq]
      exact ⟨ph, rfl, fun h => absurd rfl h, fun h => by cases h⟩
    · rw [byteStep, heq, next_andThen]
      have htrailing : q.others.flags.trailing = p.others.flags.trailing := by
        rw [hcount]
        split <;> rfl
      have hfits' : Fits q ph := by
        rw [Fits, hst, htrailing]
        exact hph
      have hstate := hq.state
      unfold StateInv at hstate
      unfold byteSwitch
      split
      · rename_i hs
        simp only [hs] at hstate
        rw [Fits, hs] at hfits'
        exact (goes_headerFieldByte hs hstate hfits' ch).passed
      · rename_i hs
        simp only [hs] at hstate
        rw [Fits, hs] at hfits'
        exact (goes_headerValueByte hs hq.base hstate hfits' ch).passed
      · rename_i hs
        exact absurd (.inl (hst.symm.trans hs)) hbody
      · rename_i hs
        exact absurd (.inr (hst.symm.trans hs)) hbody
      · rename_i hs
        simp only [hs] at hstate
      · refine (goes_byteCase hq.base hfits' ch ?_).passed
        unfold runsOver
        split <;> simp_all

/-- **So do several bytes.** -/
theorem run_goes (hinv : Inv p) (hfits : Fits p ph) (data : Bytes) :
    ∃ ph', Leads ph (byteMachine.run p data).out (byteMachine.run p data).stop
      (byteMachine.run p data).state ph' := by
  induction data generalizing p ph with
  | nil => exact ⟨ph, rfl, fun _ => hfits, nofun⟩
  | cons ch data ih =>
    have hsafe := byteStep_safe hinv ch
    obtain ⟨ph₁, hleads⟩ := byteStep_goes hinv hfits ch
    rw [run_cons]
    rcases hr : byteStep p ch with ⟨p', os, halt⟩
    rw [hr] at hsafe hleads
    cases halt with
    | none =>
      rw [one_of_step hr, andThen_of_none rfl]
      obtain ⟨ph', hleads'⟩ := ih (hsafe.inv nofun) (hleads.fits nofun)
      refine ⟨ph', ?_, hleads'.fits, fun hexit => ?_⟩
      · rw [Phase.ops_append, show ph.ops os = some ph₁ from hleads.ops]
        exact hleads'.ops
      · obtain ⟨os', hos⟩ := hleads'.exit hexit
        refine ⟨os ++ os', ?_⟩
        rw [List.append_assoc, ← hos]
    | some halt =>
      rw [one_of_error hr, andThen_of_stop rfl]
      exact ⟨ph₁, hleads⟩

end RequestParser

end MyWebSocket
