import MyWebSocket.Json.Value

namespace MyWebSocket

/-!
# The JSON parser

`lept_context` and `lept_value::parse`.

* The text is `json` with the `'\0'` that `parse` puts at its end; a context holds what is left
  of it from `ptr` on.
* A failed assertion is `Halt.assertion`, a loop or recursion that outlives its fuel `Halt.fuel`.
  The assertions are those of a build without `NDEBUG`.
* The loops of `parse_array` and `parse_object` take `parse_value` as a parameter; `parseValue`
  hands itself to them with less fuel.
-/

/-- `LEPT_PARSE_*`, the values other than `LEPT_PARSE_OK`. -/
inductive LeptError
  | expectValue
  | invalidValue
  | rootNotSingular
  | numberTooBig
  | missQuotationMark
  | invalidStringEscape
  | invalidStringChar
  | invalidUnicodeHex
  | invalidUnicodeSurrogate
  | missCommaOrSquareBracket
  | missKey
  | missColon
  | missCommaOrCurlyBracket
deriving DecidableEq, Repr

/-- `lept_context`. -/
structure LeptContext where
  /-- `json` from `ptr` on. -/
  rest : Bytes
  strTop : Nat
  stkStr : Bytes
deriving DecidableEq, Repr

/-- What a parse function does: it returns `LEPT_PARSE_OK` with a result, or an error. -/
inductive LeptOutcome (β : Type)
  | ok (b : β) (c : LeptContext)
  | error (ret : LeptError) (c : LeptContext)
  | halt (h : Halt)

/-- Go on after `LEPT_PARSE_OK`. -/
def LeptOutcome.andThen {β γ : Type} (r : LeptOutcome β) (f : β → LeptContext → LeptOutcome γ) : LeptOutcome γ :=
  match r with
  | .ok b c => f b c
  | .error ret c => .error ret c
  | .halt h => .halt h

@[simp] theorem LeptOutcome.ok_andThen {β γ : Type} (b : β) (c : LeptContext)
    (f : β → LeptContext → LeptOutcome γ) : (LeptOutcome.ok b c).andThen f = f b c := rfl

theorem LeptOutcome.andThen_eq_ok {β γ : Type} {r : LeptOutcome β} {f : β → LeptContext → LeptOutcome γ}
    {d : γ} {c' : LeptContext} :
    r.andThen f = .ok d c' ↔ ∃ b c, r = .ok b c ∧ f b c = .ok d c' := by
  cases r <;> simp [LeptOutcome.andThen]

/-! ### Strings -/

/-- The digit of a character in `parse_hex4`; letters go up to `Z`. -/
def hexDigit (ch : UInt8) : Option Nat :=
  if 0x30 ≤ ch ∧ ch ≤ 0x39 then some (ch.toNat - 0x30)
  else if 0x41 ≤ ch ∧ ch ≤ 0x5A then some (ch.toNat - (0x41 - 10))
  else if 0x61 ≤ ch ∧ ch ≤ 0x7A then some (ch.toNat - (0x61 - 10))
  else none

/-- The loop of `parse_hex4`, with `n` rounds to go. -/
def hex4Loop : Nat → Nat → Bytes → Option (Nat × Bytes)
  | 0, u, tmp => some (u, tmp)
  | n + 1, u, tmp =>
    match hexDigit (tmp.headD 0) with
    | none => none
    | some d => hex4Loop n ((u <<< 4) ||| d) tmp.tail

/-- `lept_context::parse_hex4`: the number and what follows it. -/
def parseHex4 (tmp : Bytes) : Option (Nat × Bytes) := hex4Loop 4 0 tmp

/-- `lept_context::encode_utf8`, unless its assertion fails. -/
def encodeUtf8 (u : Nat) : Option Bytes :=
  if u ≤ 0x7F then some [UInt8.ofNat u]
  else if u ≤ 0x7FF then
    some [UInt8.ofNat (0xC0 ||| ((u >>> 6) &&& 0xFF)), UInt8.ofNat (0x80 ||| (u &&& 0x3F))]
  else if u ≤ 0xFFFF then
    some [UInt8.ofNat (0xE0 ||| ((u >>> 12) &&& 0xFF)), UInt8.ofNat (0x80 ||| ((u >>> 6) &&& 0x3F)),
      UInt8.ofNat (0x80 ||| (u &&& 0x3F))]
  else if u ≤ 0x10FFFF then
    some [UInt8.ofNat (0xF0 ||| ((u >>> 18) &&& 0xFF)),
      UInt8.ofNat (0x80 ||| ((u >>> 12) &&& 0x3F)), UInt8.ofNat (0x80 ||| ((u >>> 6) &&& 0x3F)), UInt8.ofNat (0x80 ||| (u &&& 0x3F))]
  else none

/-- One round of the loop of `parse_string`. -/
inductive StringRound
  /-- The characters are pushed. -/
  | push (bs : Bytes) (tmp : Bytes)
  /-- The closing quotation mark. -/
  | close (tmp : Bytes)
  /-- An error, after `str_top` and `stk_str` have been reset. -/
  | reset (ret : LeptError)
  /-- An error that leaves `str_top` and `stk_str` as they are. -/
  | fail (ret : LeptError)
  /-- The assertion of `encode_utf8` fails. -/
  | abort
deriving DecidableEq, Repr

/-- `encode_utf8(u); break;`. -/
def pushUtf8 (u : Nat) (tmp : Bytes) : StringRound :=
  match encodeUtf8 u with
  | some bs => .push bs tmp
  | none => .abort

/-- `case 'u'`, `tmp` being what follows the `u`. -/
def unicodeRound (tmp : Bytes) : StringRound :=
  match parseHex4 tmp with
  | none => .fail .invalidUnicodeHex
  | some (u, tmp) =>
    if 0xD800 ≤ u ∧ u ≤ 0xDBFF then
      if tmp.headD 0 ≠ 0x5C then .fail .invalidUnicodeSurrogate
      else if tmp.tail.headD 0 ≠ 0x75 then .fail .invalidUnicodeSurrogate
      else
        match parseHex4 tmp.tail.tail with
        | none => .fail .invalidUnicodeHex
        | some (u2, tmp) =>
          if u2 < 0xDC00 ∨ 0xDFFF < u2 then .fail .invalidUnicodeSurrogate
          else pushUtf8 ((((u - 0xD800) <<< 10) ||| (u2 - 0xDC00)) + 0x10000) tmp
    else pushUtf8 u tmp

/-- The escapes of one character. -/
def simpleEscape (ch : UInt8) : Option UInt8 :=
  if ch = 0x22 ∨ ch = 0x5C ∨ ch = 0x2F then some ch
  else if ch = 0x62 then some 0x08
  else if ch = 0x74 then some 0x09
  else if ch = 0x6E then some 0x0A
  else if ch = 0x72 then some 0x0D
  else if ch = 0x66 then some 0x0C
  else none

/-- `case '\\'`, `tmp` being what follows the backslash. -/
def escapeRound (tmp : Bytes) : StringRound :=
  match simpleEscape (tmp.headD 0) with
  | some b => .push [b] tmp.tail
  | none => if tmp.headD 0 = 0x75 then unicodeRound tmp.tail else .fail .invalidStringChar

/-- One round of the loop of `parse_string`, `tmp` being what it has not looked at yet. -/
def stringRound (tmp : Bytes) : StringRound :=
  let ch := tmp.headD 0
  if ch = 0x22 then .close tmp.tail
  else if ch = 0x5C then escapeRound tmp.tail
  else if ch = 0 then .reset .missQuotationMark
  else if ch < 0x20 then .reset .invalidStringChar
  else .push [ch] tmp.tail

namespace LeptContext

/-- A context as `lept_context::lept_context` leaves it, with the text. -/
def init (json : Bytes) : LeptContext := { rest := json, strTop := 0, stkStr := [] }

/-- `json[ptr]`. -/
def ch (c : LeptContext) : UInt8 := c.rest.headD 0

/-- `ptr++`. -/
def next (c : LeptContext) : LeptContext := { c with rest := c.rest.tail }

/-- `lept_context::push_char`, for each of the characters. -/
def pushChars (c : LeptContext) (bs : Bytes) : LeptContext :=
  { c with strTop := c.strTop + bs.length, stkStr := c.stkStr ++ bs }

/-- The loop of `parse_string`. -/
def stringLoop (head : Nat) : Nat → Bytes → LeptContext → LeptOutcome Bytes
  | 0, _, _ => .halt .fuel
  | n + 1, tmp, c =>
    match stringRound tmp with
    | .push bs tmp => stringLoop head n tmp (c.pushChars bs)
    | .close tmp =>
      -- the assertion of `pop_string`, `len` being a `size_t`; all of `stk_str` is taken
      if head ≤ c.strTop then .ok c.stkStr ⟨tmp, head, []⟩ else .halt .assertion
    | .reset ret => .error ret { c with strTop := 0, stkStr := [] }
    | .fail ret => .error ret c
    | .abort => .halt .assertion

/-- `lept_context::parse_string`; each round takes a character. -/
def parseString (c : LeptContext) : LeptOutcome Bytes :=
  if c.ch = 0x22 then c.stringLoop c.strTop c.rest.length c.rest.tail else .halt .assertion

/-! ### Literals and numbers -/

/-- A white-space character of `parse_whitespace`. -/
def isWhitespace (ch : UInt8) : Bool := ch == 0x20 || ch == 0x09 || ch == 0x0A || ch == 0x0D

/-- `lept_context::parse_whitespace`. -/
def parseWhitespace (c : LeptContext) : LeptContext :=
  { c with rest := c.rest.dropWhile isWhitespace }

/-- `lept_context::parse_literal`, `v` being what the literal stands for. -/
def parseLiteral {β : Type} (literal : Bytes) (v : β) (c : LeptContext) : LeptOutcome β :=
  if c.ch ≠ literal.headD 0 then .halt .assertion
  else if literal.isPrefixOf c.rest then .ok v { c with rest := c.rest.drop literal.length }
  else .error .invalidValue c

/-- `ISDIGIT`. -/
def isDigit (ch : UInt8) : Bool := 0x30 ≤ ch && ch ≤ 0x39

/-- `ISDIGIT1TO9`. -/
def isDigit1to9 (ch : UInt8) : Bool := 0x31 ≤ ch && ch ≤ 0x39

/-- `if (!ISDIGIT(json[tmp])) return ...; for (tmp++; ISDIGIT(json[tmp]); tmp++);`. -/
def scanDigits (tmp : Bytes) : Option Bytes :=
  if isDigit (tmp.headD 0) then some (tmp.tail.dropWhile isDigit) else none

/-- The integer part of a number, behind its sign. -/
def scanInt (tmp : Bytes) : Option Bytes :=
  if tmp.headD 0 = 0x30 then some tmp.tail
  else if isDigit1to9 (tmp.headD 0) then some (tmp.tail.dropWhile isDigit)
  else none

/-- The fraction, with `is_integer` after it. -/
def scanFrac (tmp : Bytes) : Option (Bytes × Bool) :=
  if tmp.headD 0 = 0x2E then (scanDigits tmp.tail).map (·, false) else some (tmp, true)

/-- The exponent, with `is_integer` before and after it. -/
def scanExp (tmp : Bytes) (isInteger : Bool) : Option (Bytes × Bool) :=
  if tmp.headD 0 = 0x65 ∨ tmp.headD 0 = 0x45 then
    let tmp := tmp.tail
    let tmp := if tmp.headD 0 = 0x2B ∨ tmp.headD 0 = 0x2D then tmp.tail else tmp
    (scanDigits tmp).map (·, false)
  else some (tmp, isInteger)

/-- What `parse_number` finds: the end of the number, and `is_integer`. -/
def scanNumber (tmp : Bytes) : Option (Bytes × Bool) :=
  let tmp := if tmp.headD 0 = 0x2D then tmp.tail else tmp
  (scanInt tmp).bind fun tmp => (scanFrac tmp).bind fun r => scanExp r.1 r.2

/-- `std::stoll` on a sign and digits, unless it throws `out_of_range`. -/
def stoll (text : Bytes) : Option Int :=
  let n : Int := if text.headD 0 = 0x2D then -Http11.number text.tail else Http11.number text
  if -2 ^ 63 ≤ n ∧ n < 2 ^ 63 then some n else none

variable {δ : Type}

/-- `lept_context::parse_number`. -/
def parseNumber (fp : DoubleText δ) (c : LeptContext) : LeptOutcome (LeptValue δ) :=
  match scanNumber c.rest with
  | none => .error .invalidValue c
  | some (tmp, isInteger) =>
    let text := c.rest.take (c.rest.length - tmp.length)
    if isInteger then
      match stoll text with
      | none => .error .numberTooBig c
      -- `set_integer` takes an `int`
      | some n => .ok (.integer (Int32.ofInt n)) { c with rest := tmp }
    else
      match fp.read text with
      | none => .error .numberTooBig c
      | some num => .ok (.number num) { c with rest := tmp }

/-! ### Arrays and objects -/

/-- The loop of `parse_array`, `n` bounding its rounds. -/
def arrayLoop (parseValue : LeptContext → LeptOutcome (LeptValue δ)) :
    Nat → List (LeptValue δ) → LeptContext → LeptOutcome (LeptValue δ)
  | 0, _, _ => .halt .fuel
  | n + 1, arr, c =>
    (parseValue c).andThen fun e c =>
    let arr := arr ++ [e]
    let c := c.parseWhitespace
    if c.ch = 0x2C then arrayLoop parseValue n arr c.next.parseWhitespace
    else if c.ch = 0x5D then .ok (.array arr) c.next
    else .error .missCommaOrSquareBracket c

/-- `lept_context::parse_array`. -/
def parseArray (parseValue : LeptContext → LeptOutcome (LeptValue δ)) (c : LeptContext) :
    LeptOutcome (LeptValue δ) :=
  if c.ch ≠ 0x5B then .halt .assertion
  else
    let c := c.next.parseWhitespace
    if c.ch = 0x5D then .ok (.array []) c.next
    else arrayLoop parseValue (c.rest.length + 1) [] c

/-- The loop of `parse_object`, `n` bounding its rounds. -/
def objectLoop (parseValue : LeptContext → LeptOutcome (LeptValue δ)) :
    Nat → List (Bytes × LeptValue δ) → LeptContext → LeptOutcome (LeptValue δ)
  | 0, _, _ => .halt .fuel
  | n + 1, mp, c =>
    if c.ch ≠ 0x22 then .error .missKey c
    else
      c.parseString.andThen fun str c =>
      let c := c.parseWhitespace
      if c.ch ≠ 0x3A then .error .missColon c
      else
        (parseValue c.next.parseWhitespace).andThen fun e c =>
        let mp := OrderedMap.insert (str, e) mp
        let c := c.parseWhitespace
        if c.ch = 0x7D then .ok (.object mp) c.next
        else if c.ch = 0x2C then objectLoop parseValue n mp c.next.parseWhitespace
        else .error .missCommaOrCurlyBracket c

/-- `lept_context::parse_object`. -/
def parseObject (parseValue : LeptContext → LeptOutcome (LeptValue δ)) (c : LeptContext) :
    LeptOutcome (LeptValue δ) :=
  if c.ch ≠ 0x7B then .halt .assertion
  else
    let c := c.next.parseWhitespace
    if c.ch = 0x7D then .ok (.object []) c.next
    else objectLoop parseValue (c.rest.length + 1) [] c

/-- `lept_context::parse_value`. -/
def parseValue (fp : DoubleText δ) : Nat → LeptContext → LeptOutcome (LeptValue δ)
  | 0, _ => .halt .fuel
  | d + 1, c =>
    if c.ch = 0x74 then c.parseLiteral (str "true") (.boolean true)
    else if c.ch = 0x66 then c.parseLiteral (str "false") (.boolean false)
    else if c.ch = 0x6E then c.parseLiteral (str "null") .null
    else if c.ch = 0 then .error .expectValue c
    else if c.ch = 0x22 then c.parseString.andThen fun s c => .ok (.string s) c
    else if c.ch = 0x5B then c.parseArray (parseValue fp d)
    else if c.ch = 0x7B then c.parseObject (parseValue fp d)
    else c.parseNumber fp

end LeptContext

namespace LeptValue

variable {δ : Type}

/-- `lept_value::parse`: the value, and `ret` unless it is `LEPT_PARSE_OK`. -/
def parse (fp : DoubleText δ) (json : Bytes) : Except Halt (LeptValue δ × Option LeptError) :=
  match (LeptContext.init (json ++ [0])).parseWhitespace.parseValue fp (json.length + 2) with
  | .ok v c => if c.strTop = 0 then .ok (v, none) else .error .assertion
  | .error ret c =>
    -- what follows is looked at only after an error; the value is still the null it was set to
    let c := c.parseWhitespace
    let ret := if c.rest.length ≠ 1 then .rootNotSingular else ret
    if c.strTop = 0 then .ok (.null, some ret) else .error .assertion
  | .halt h => .error h

end LeptValue

end MyWebSocket
