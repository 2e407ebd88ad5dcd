import MyWebSocket.HttpParser.Fields

namespace MyWebSocket

/-!
# Requests as clients send them

The text of a request, and what the parser is to report of it.

* `FieldLine`, `Chunk`, `Payload`, `SentRequest` — a request with all that is written of it;
* `SentRequest.Wf` — it is well formed, and its payload is the one its fields announce;
* `SentRequest.text`, `SentRequest.events` — its bytes, and the callbacks it is to make;
* `SentRequest.Room` — its lines are not longer than the parser allows.
-/

namespace RequestParser

/-! ### Field lines -/

/-- A field, with the blanks behind its colon. -/
structure FieldLine where
  blanks : Bytes
  field : Field
deriving DecidableEq, Repr

/-- A space or a tab. -/
def Blank (c : UInt8) : Prop := c = 0x20 ∨ c = 0x09

instance (c : UInt8) : Decidable (Blank c) := by
  unfold Blank
  infer_instance

namespace FieldLine

def text (l : FieldLine) : Bytes :=
  l.field.name ++ 0x3A :: (l.blanks ++ (l.field.value ++ [0x0D, 0x0A]))

def events (l : FieldLine) : List ReqEvent :=
  [.headerField l.field.name, .headerValue l.field.value]

def Wf (l : FieldLine) : Prop := (∀ c ∈ l.blanks, Blank c) ∧ l.field.Wf

instance (l : FieldLine) : Decidable l.Wf :=
  have : Decidable (∀ c ∈ l.blanks, Blank c) := List.decidableBAll _ l.blanks
  inferInstanceAs (Decidable (_ ∧ _))

end FieldLine

/-- The text of several lines. -/
def linesText (ls : List FieldLine) : Bytes := ls.flatMap FieldLine.text

/-- The callbacks of several lines. -/
def linesEvents (ls : List FieldLine) : List ReqEvent := ls.flatMap FieldLine.events

/-- What several lines change about the parser. -/
def linesEffect (m : ParserMembers) (ls : List FieldLine) : ParserMembers :=
  ls.foldl (fun m l => l.field.effect m) m

/-- Lines that are well formed, and admitted behind those that come before them. -/
def LinesWf (m : ParserMembers) : List FieldLine → Prop
  | [] => True
  | l :: ls => l.Wf ∧ l.field.Admitted m ∧ LinesWf (l.field.effect m) ls

instance instDecidableLinesWf (m : ParserMembers) :
    (ls : List FieldLine) → Decidable (LinesWf m ls)
  | [] => inferInstanceAs (Decidable True)
  | l :: ls =>
    have := instDecidableLinesWf (l.field.effect m) ls
    inferInstanceAs (Decidable (_ ∧ _ ∧ _))

theorem clear_linesEffect (m : ParserMembers) (ls : List FieldLine) :
    clear (linesEffect m ls) = linesEffect (clear m) ls := by
  induction ls generalizing m with
  | nil => rfl
  | cons l ls ih =>
    show clear (linesEffect (l.field.effect m) ls) = _
    rw [ih, Field.clear_effect]
    rfl

/-! ### Chunks -/

/-- The value of a hexadecimal digit. -/
def hexDigit (c : UInt8) : Nat := (unhex c).getD 0

/-- Hexadecimal digits.  The bytes from 0x80 on are none. -/
def IsHex (c : UInt8) : Prop := c < 0x80 ∧ (unhex c).isSome = true

instance (c : UInt8) : Decidable (IsHex c) := by
  unfold IsHex
  infer_instance

/-- The number of a chunk size. -/
def hexNumber (digits : Bytes) : Nat := Nat.ofDigits 16 (digits.map hexDigit).reverse

/-- The line in front of a chunk: its size, and what may stand behind it. -/
structure ChunkLine where
  size : Bytes
  extension : Bytes
deriving DecidableEq, Repr

namespace ChunkLine

def text (l : ChunkLine) : Bytes := l.size ++ (l.extension ++ [0x0D, 0x0A])

/-- The line of a chunk of `n` bytes. -/
structure Wf (l : ChunkLine) (n : Nat) : Prop where
  ne_nil : l.size ≠ []
  hex : ∀ c ∈ l.size, IsHex c
  number : hexNumber l.size = n
  first : ∀ c ∈ l.extension.head?, c = 0x3B ∨ c = 0x20
  line : ∀ c ∈ l.extension, c ≠ 0x0D

instance (l : ChunkLine) (n : Nat) : Decidable (l.Wf n) :=
  have : Decidable (∀ c ∈ l.size, IsHex c) := List.decidableBAll _ l.size
  have : Decidable (∀ c ∈ l.extension.head?, c = 0x3B ∨ c = 0x20) := Option.decidableForallMem _
  have : Decidable (∀ c ∈ l.extension, c ≠ 0x0D) := List.decidableBAll _ l.extension
  decidable_of_iff (l.size ≠ [] ∧ (∀ c ∈ l.size, IsHex c) ∧ hexNumber l.size = n ∧
      (∀ c ∈ l.extension.head?, c = 0x3B ∨ c = 0x20) ∧ ∀ c ∈ l.extension, c ≠ 0x0D)
    ⟨fun ⟨h₁, h₂, h₃, h₄, h₅⟩ => ⟨h₁, h₂, h₃, h₄, h₅⟩,
      fun h => ⟨h.ne_nil, h.hex, h.number, h.first, h.line⟩⟩

end ChunkLine

/-- A chunk of a body. -/
structure Chunk where
  line : ChunkLine
  data : Bytes
deriving DecidableEq, Repr

namespace Chunk

def text (c : Chunk) : Bytes := c.line.text ++ (c.data ++ [0x0D, 0x0A])

/-- The largest size that is not an error is 18446744073709551599. -/
def Wf (c : Chunk) : Prop :=
  c.line.Wf c.data.length ∧ c.data ≠ [] ∧ c.data.length ≤ 18446744073709551599

instance (c : Chunk) : Decidable c.Wf := by
  unfold Wf
  infer_instance

end Chunk

/-! ### Requests -/

/-- What follows the head of a request. -/
inductive Payload
  | none
  | identity (data : Bytes)
  | chunked (chunks : List Chunk) (last : ChunkLine) (trailer : List FieldLine)
deriving DecidableEq, Repr

/-- A request as it is sent. -/
structure SentRequest where
  method : HttpMethod
  target : Bytes
  /-- The digits of the version. -/
  major : UInt8
  minor : UInt8
  lines : List FieldLine
  payload : Payload
deriving DecidableEq, Repr

/-- The states in which a url may end. -/
def endsUrl : ParserState → Bool
  | .reqServer | .reqServerWithAt | .reqPath | .reqQueryStringStart | .reqQueryString
  | .reqFragmentStart | .reqFragment => true
  | _ => false

/-- The state in which a url begins. -/
def urlStart (method : HttpMethod) : ParserState :=
  if method = .connect then .reqServerStart else .reqSpacesBeforeUrl

/-- The members behind the request line. -/
def lineMembers (method : HttpMethod) (major minor : UInt8) : ParserMembers :=
  { ParserMembers.zero with
    contentLength := ullongMax, method := method, httpMajor := digit major,
    httpMinor := digit minor }

/-- The request asks for another protocol. -/
def asksUpgrade (m : ParserMembers) : Bool :=
  (m.flags.upgrade && m.flags.connectionUpgrade) || decide (m.method = .connect)

/-- The other protocol begins behind the head. -/
def UpgradesAtOnce (m : ParserMembers) : Prop :=
  asksUpgrade m = true ∧ (m.method = .connect ∨ ¬hasBody m)

instance (m : ParserMembers) : Decidable (UpgradesAtOnce m) := by
  unfold UpgradesAtOnce
  infer_instance

/-- The members in front of a trailer. -/
def trailing (m : ParserMembers) : ParserMembers :=
  { m with flags.trailing := true, contentLength := 0 }

namespace SentRequest

variable (r : SentRequest)

def requestLine : Bytes :=
  methodString r.method ++
    0x20 :: (r.target ++ str " HTTP/" ++ [r.major, 0x2E, r.minor, 0x0D, 0x0A])

/-- The request line, the fields and the empty line. -/
def head : Bytes := r.requestLine ++ (linesText r.lines ++ [0x0D, 0x0A])

def body : Bytes :=
  match r.payload with
  | .none => []
  | .identity data => data
  | .chunked chunks last trailer =>
    chunks.flatMap Chunk.text ++ (last.text ++ (linesText trailer ++ [0x0D, 0x0A]))

def text : Bytes := r.head ++ r.body

/-- The members behind the head. -/
def members : ParserMembers := linesEffect (lineMembers r.method r.major r.minor) r.lines

/-- The request asks for another protocol. -/
def upgrade : Bool := asksUpgrade r.members

/-- The members behind the last chunk. -/
def trailerMembers : ParserMembers := trailing r.members

/-- The payload is the one the fields announce. -/
def Announced : Prop :=
  match r.payload with
  | .none => UpgradesAtOnce r.members ∨ r.members.flags.chunked = false ∧
      r.members.usesTransferEncoding = false ∧ (r.members.contentLength = 0 ∨ r.members.contentLength = ullongMax)
  | .identity data => ¬UpgradesAtOnce r.members ∧ r.members.flags.chunked = false ∧
      r.members.usesTransferEncoding = false ∧ r.members.contentLength = data.length ∧
      data ≠ [] ∧ data.length < ullongMax
  | .chunked chunks last trailer => ¬UpgradesAtOnce r.members ∧ r.members.flags.chunked = true ∧
      (∀ c ∈ chunks, c.Wf) ∧ last.Wf 0 ∧ LinesWf r.trailerMembers trailer

instance : Decidable r.Announced := by
  unfold Announced
  split <;> infer_instance

/-- The request is well formed. -/
structure Wf : Prop where
  target : endsUrl (r.target.foldl parseUrlChar (urlStart r.method)) = true
  major : isNum r.major = true
  minor : isNum r.minor = true
  lines : LinesWf (lineMembers r.method r.major r.minor) r.lines
  /-- The length of the body is not given twice. -/
  coding : r.members.usesTransferEncoding = true → r.members.flags.contentLength = false
  payload : r.Announced

instance : Decidable r.Wf :=
  decidable_of_iff (endsUrl (r.target.foldl parseUrlChar (urlStart r.method)) = true ∧
      isNum r.major = true ∧ isNum r.minor = true ∧
      LinesWf (lineMembers r.method r.major r.minor) r.lines ∧
      (r.members.usesTransferEncoding = true → r.members.flags.contentLength = false) ∧
      r.Announced)
    ⟨fun ⟨h₁, h₂, h₃, h₄, h₅, h₆⟩ => ⟨h₁, h₂, h₃, h₄, h₅, h₆⟩,
      fun h => ⟨h.target, h.major, h.minor, h.lines, h.coding, h.payload⟩⟩

/-- What is reported of the payload. -/
def payloadEvents : List ReqEvent :=
  match r.payload with
  | .none => []
  | .identity data => [.body data]
  | .chunked chunks _ trailer => chunks.map (fun c => .body c.data) ++ linesEvents trailer

/-- The callbacks of the request. -/
def events : List ReqEvent :=
  [.messageBegin, .url r.target] ++ linesEvents r.lines ++
    .headersComplete r.method (digit r.major) (digit r.minor) :: r.payloadEvents ++
    [.messageComplete r.upgrade]

/-- The members behind the request. -/
def endMembers : ParserMembers :=
  match r.payload with
  | .chunked _ _ trailer => linesEffect r.trailerMembers trailer
  | _ => r.members

/-- The connection is kept. -/
def keepAlive : Bool := httpShouldKeepAlive r.endMembers

/-- The fields behind the body. -/
def trailer : List FieldLine :=
  match r.payload with
  | .chunked _ _ trailer => trailer
  | _ => []

/-- The body without the lengths of its chunks. -/
def content : Bytes :=
  match r.payload with
  | .none => []
  | .identity data => data
  | .chunked chunks _ _ => chunks.flatMap Chunk.data

/-- The bytes that still count when the next request begins. -/
def leaves : Nat :=
  match r.payload with
  | .chunked _ _ trailer => (linesText trailer ++ [0x0D, 0x0A]).length
  | _ => 0

/-- The lines are not too long, behind `n` bytes that already count. -/
def Room (n : Nat) : Prop :=
  n + r.head.length ≤ maxHeaderSize ∧
    match r.payload with
    | .chunked chunks last trailer =>
      (∀ c ∈ chunks, c.line.text.length ≤ maxHeaderSize) ∧ last.text.length ≤ maxHeaderSize ∧
        (linesText trailer ++ [0x0D, 0x0A]).length ≤ maxHeaderSize
    | _ => True

instance (n : Nat) : Decidable (r.Room n) := by
  unfold Room
  split <;> infer_instance

end SentRequest

/-- Requests on one connection: each but the last keeps it. -/
def Conversation : Nat → List SentRequest → Prop
  | _, [] => True
  | n, r :: rs => r.Wf ∧ r.Room n ∧ (rs = [] ∨ r.keepAlive = true ∧ r.upgrade = false) ∧
      Conversation r.leaves rs

instance instDecidableConversation : (n : Nat) → (rs : List SentRequest) →
    Decidable (Conversation n rs)
  | _, [] => inferInstanceAs (Decidable True)
  | _, r :: rs =>
    have := instDecidableConversation r.leaves rs
    inferInstanceAs (Decidable (_ ∧ _ ∧ _ ∧ _))

end RequestParser

end MyWebSocket
