import Mathlib.Data.Fintype.Basic
import MyWebSocket.Http.Execute

namespace MyWebSocket

/-!
# Characters, methods and urls of `http_parser`

The tables and the character classes of `http_parser.c` with `HTTP_PARSER_STRICT`, which is its
default, the names of the methods, and `parse_url_char`.  Everything is given as the source has
it; what the classes contain is decided on all 256 bytes (`forall_byte`).
-/

/-- A property of bytes is decided on all of them. -/
theorem forall_byte {P : UInt8 → Prop} (h : ∀ n : Fin 256, P (UInt8.ofFin n)) (c : UInt8) : P c :=
  h c.toFin

namespace RequestParser

/-! ### Character classes -/

/-- `tokens`: the token characters in lower case, 0 for the others.  The table of the source ends
    at 127, the entries behind are 0. -/
def tokens (c : UInt8) : UInt8 :=
  List.getD
    [0, 0, 0, 0, 0, 0, 0, 0, 0, 0, 0, 0, 0, 0, 0, 0,
      0, 0, 0, 0, 0, 0, 0, 0, 0, 0, 0, 0, 0, 0, 0, 0,
      0x20, 0x21, 0, 0x23, 0x24, 0x25, 0x26, 0x27, 0, 0, 0x2A, 0x2B, 0, 0x2D, 0x2E, 0,
      0x30, 0x31, 0x32, 0x33, 0x34, 0x35, 0x36, 0x37, 0x38, 0x39, 0, 0, 0, 0, 0, 0,
      0, 0x61, 0x62, 0x63, 0x64, 0x65, 0x66, 0x67, 0x68, 0x69, 0x6A, 0x6B, 0x6C, 0x6D, 0x6E, 0x6F,
      0x70, 0x71, 0x72, 0x73, 0x74, 0x75, 0x76, 0x77, 0x78, 0x79, 0x7A, 0, 0, 0, 0x5E, 0x5F,
      0x60, 0x61, 0x62, 0x63, 0x64, 0x65, 0x66, 0x67, 0x68, 0x69, 0x6A, 0x6B, 0x6C, 0x6D, 0x6E, 0x6F,
      0x70, 0x71, 0x72, 0x73, 0x74, 0x75, 0x76, 0x77, 0x78, 0x79, 0x7A, 0, 0x7C, 0, 0x7E, 0]
    c.toNat 0

/-- `STRICT_TOKEN`, and so `TOKEN`. -/
def token (c : UInt8) : UInt8 := if c = 0x20 then 0 else tokens c

/-- `unhex`; `none` is -1.  The table of the source has 128 entries, those behind are 0: a byte
    from 0x80 on counts as the digit 0. -/
def unhex (c : UInt8) : Option Nat :=
  if 0x30 ≤ c ∧ c ≤ 0x39 then some (c.toNat - 0x30)
  else if 0x41 ≤ c ∧ c ≤ 0x46 then some (c.toNat - 0x41 + 10)
  else if 0x61 ≤ c ∧ c ≤ 0x66 then some (c.toNat - 0x61 + 10)
  else if 0x80 ≤ c then some 0
  else none

/-- `normal_url_char`, with `T(v)` 0. -/
def normalUrlChar : List UInt8 :=
  [0, 0, 0, 0, 0xF6, 0xFF, 0xFF, 0x7F, 0xFF, 0xFF, 0xFF, 0xFF, 0xFF, 0xFF, 0xFF, 0x7F,
    0, 0, 0, 0, 0, 0, 0, 0, 0, 0, 0, 0, 0, 0, 0, 0]

/-- `IS_URL_CHAR`. -/
def isUrlChar (c : UInt8) : Bool :=
  (normalUrlChar.getD (c.toNat >>> 3) 0).toNat.testBit (c.toNat % 8)

/-- `LOWER`. -/
def lower (c : UInt8) : UInt8 := c ||| 0x20

/-- `IS_ALPHA`. -/
def isAlpha (c : UInt8) : Bool := decide (0x61 ≤ lower c ∧ lower c ≤ 0x7A)

/-- `IS_NUM`. -/
def isNum (c : UInt8) : Bool := decide (0x30 ≤ c ∧ c ≤ 0x39)

/-- `IS_MARK`. -/
def isMark (c : UInt8) : Bool := (str "-_.!~*'()").contains c

/-- `IS_USERINFO_CHAR`. -/
def isUserinfoChar (c : UInt8) : Bool :=
  isAlpha c || isNum c || isMark c || (str "%;:&=+$,").contains c

/-- `IS_HEADER_CHAR`. -/
def isHeaderChar (c : UInt8) : Bool :=
  decide (c = 0x0D ∨ c = 0x0A ∨ c = 9 ∨ (31 < c ∧ c ≠ 127))

/-! ### Methods -/

/-- `method_strings`. -/
def methodString : HttpMethod → Bytes
  | .delete => str "DELETE"
  | .get => str "GET"
  | .head => str "HEAD"
  | .post => str "POST"
  | .put => str "PUT"
  | .connect => str "CONNECT"
  | .options => str "OPTIONS"
  | .trace => str "TRACE"
  | .copy => str "COPY"
  | .lock => str "LOCK"
  | .mkcol => str "MKCOL"
  | .move => str "MOVE"
  | .propfind => str "PROPFIND"
  | .proppatch => str "PROPPATCH"
  | .search => str "SEARCH"
  | .unlock => str "UNLOCK"
  | .bind => str "BIND"
  | .rebind => str "REBIND"
  | .unbind => str "UNBIND"
  | .acl => str "ACL"
  | .report => str "REPORT"
  | .mkactivity => str "MKACTIVITY"
  | .checkout => str "CHECKOUT"
  | .merge => str "MERGE"
  | .msearch => str "M-SEARCH"
  | .notify => str "NOTIFY"
  | .subscribe => str "SUBSCRIBE"
  | .unsubscribe => str "UNSUBSCRIBE"
  | .patch => str "PATCH"
  | .purge => str "PURGE"
  | .mkcalendar => str "MKCALENDAR"
  | .link => str "LINK"
  | .unlink => str "UNLINK"
  | .source => str "SOURCE"

/-- The method that the first letter stands for until another shows up, in `s_start_req`. -/
def firstMethod (c : UInt8) : Option HttpMethod :=
  match Char.ofNat c.toNat with
  | 'A' => some .acl
  | 'B' => some .bind
  | 'C' => some .connect
  | 'D' => some .delete
  | 'G' => some .get
  | 'H' => some .head
  | 'L' => some .lock
  | 'M' => some .mkcol
  | 'N' => some .notify
  | 'O' => some .options
  | 'P' => some .post
  | 'R' => some .report
  | 'S' => some .subscribe
  | 'T' => some .trace
  | 'U' => some .unlock
  | _ => none

/-- The other method that a letter at a position stands for, in `s_req_method`. -/
def otherMethod (method : HttpMethod) (index : Nat) (c : UInt8) : Option HttpMethod :=
  match method, index, Char.ofNat c.toNat with
  | .post, 1, 'U' => some .put
  | .post, 1, 'A' => some .patch
  | .post, 1, 'R' => some .propfind
  | .put, 2, 'R' => some .purge
  | .connect, 1, 'H' => some .checkout
  | .connect, 2, 'P' => some .copy
  | .mkcol, 1, 'O' => some .move
  | .mkcol, 1, 'E' => some .merge
  | .mkcol, 1, '-' => some .msearch
  | .mkcol, 2, 'A' => some .mkactivity
  | .mkcol, 3, 'A' => some .mkcalendar
  | .subscribe, 1, 'E' => some .search
  | .subscribe, 1, 'O' => some .source
  | .report, 2, 'B' => some .rebind
  | .propfind, 4, 'P' => some .proppatch
  | .lock, 1, 'I' => some .link
  | .unlock, 2, 'S' => some .unsubscribe
  | .unlock, 2, 'B' => some .unbind
  | .unlock, 3, 'I' => some .unlink
  | _, _, _ => none

/-! ### Urls -/

/-- `parse_url_char` from `case s_req_server_start` on. -/
def parseServerChar (c : UInt8) : ParserState :=
  if c = 0x2F then .reqPath
  else if c = 0x3F then .reqQueryStringStart
  else if c = 0x40 then .reqServerWithAt
  else if isUserinfoChar c ∨ c = 0x5B ∨ c = 0x5D then .reqServer
  else .dead

/-- `parse_url_char`. -/
def parseUrlChar (s : ParserState) (c : UInt8) : ParserState :=
  if c = 0x20 ∨ c = 0x0D ∨ c = 0x0A ∨ c = 0x09 ∨ c = 0x0C then .dead
  else
    match s with
    | .reqSpacesBeforeUrl =>
      if c = 0x2F ∨ c = 0x2A then .reqPath
      else if isAlpha c then .reqSchema
      else .dead
    | .reqSchema =>
      if isAlpha c then .reqSchema
      else if c = 0x3A then .reqSchemaSlash
      else .dead
    | .reqSchemaSlash => if c = 0x2F then .reqSchemaSlashSlash else .dead
    | .reqSchemaSlashSlash => if c = 0x2F then .reqServerStart else .dead
    -- a second `@` is an error
    | .reqServerWithAt => if c = 0x40 then .dead else parseServerChar c
    | .reqServerStart | .reqServer => parseServerChar c
    | .reqPath =>
      if isUrlChar c then .reqPath
      else if c = 0x3F then .reqQueryStringStart
      else if c = 0x23 then .reqFragmentStart
      else .dead
    | .reqQueryStringStart | .reqQueryString =>
      -- a further `?` belongs to the query
      if isUrlChar c ∨ c = 0x3F then .reqQueryString
      else if c = 0x23 then .reqFragmentStart
      else .dead
    | .reqFragmentStart =>
      if isUrlChar c ∨ c = 0x3F then .reqFragment
      else if c = 0x23 then .reqFragmentStart
      else .dead
    | .reqFragment => if isUrlChar c ∨ c = 0x3F ∨ c = 0x23 then .reqFragment else .dead
    | _ => .dead

/-- The states inside a url that has begun: those that set `url_mark` at the start of a read. -/
def inUrl : ParserState → Bool
  | .reqPath | .reqSchema | .reqSchemaSlash | .reqSchemaSlashSlash | .reqServerStart
  | .reqServer | .reqServerWithAt | .reqQueryStringStart | .reqQueryString | .reqFragmentStart
  | .reqFragment => true
  | _ => false

/-- The characters of urls are visible. -/
def Visible (c : UInt8) : Prop := 0x21 ≤ c ∧ c ≤ 0x7E

instance (c : UInt8) : Decidable (Visible c) := by
  unfold Visible
  infer_instance

theorem visible_of_isAlpha (c : UInt8) : isAlpha c = true → Visible c := by
  refine forall_byte (P := fun c => isAlpha c = true → Visible c) ?_ c
  decide +kernel

theorem visible_of_isUserinfoChar (c : UInt8) : isUserinfoChar c = true → Visible c := by
  refine forall_byte (P := fun c => isUserinfoChar c = true → Visible c) ?_ c
  decide +kernel

theorem visible_of_isUrlChar (c : UInt8) : isUrlChar c = true → Visible c := by
  refine forall_byte (P := fun c => isUrlChar c = true → Visible c) ?_ c
  decide +kernel

theorem parseServerChar_spec (c : UInt8) :
    parseServerChar c = .dead ∨ inUrl (parseServerChar c) = true ∧ Visible c := by
  have huserinfo := visible_of_isUserinfoChar c
  fun_cases parseServerChar c <;> first
    | exact .inl rfl
    | exact .inr ⟨rfl, by grind [Visible]⟩

/-- A character of a url leads to another state of the url, and is a visible one. -/
theorem parseUrlChar_spec (s : ParserState) (c : UInt8) :
    parseUrlChar s c = .dead ∨ inUrl (parseUrlChar s c) = true ∧ Visible c := by
  have halpha := visible_of_isAlpha c
  have hurl := visible_of_isUrlChar c
  fun_cases parseUrlChar s c <;> first
    | exact .inl rfl
    | exact parseServerChar_spec c
    | exact .inr ⟨rfl, by grind [Visible]⟩

/-- The characters of a path. -/
theorem isUrlChar_iff (c : UInt8) :
    isUrlChar c = true ↔ 0x21 ≤ c ∧ c ≤ 0x7E ∧ c ≠ 0x23 ∧ c ≠ 0x3F := by
  refine forall_byte (P := fun c => isUrlChar c = true ↔
    0x21 ≤ c ∧ c ≤ 0x7E ∧ c ≠ 0x23 ∧ c ≠ 0x3F) ?_ c
  decide +kernel

end RequestParser

end MyWebSocket
