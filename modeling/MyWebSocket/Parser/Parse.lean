import MyWebSocket.Parser.Frame

namespace MyWebSocket

/-!
# `websocket_parser::parse`

The loop as the source writes it: a cursor `ch` into the buffer, one `switch` on the status
in each iteration, the bulk copy of payload bytes with `ch += to_read - 1`, and `ch ++` in
the loop head.

* A `case` of the switch that reads one byte is a function of the state and that byte
  (`onFinAndOpcode`, `onPayloadLenAndMask`, `onPayloadLen`, `onMaskKey`); the `payload` case
  (`onPayload`) works on the buffer and falls through into `complete` (`onComplete`).
* Every read through a pointer or an index is checked: a read that C++ leaves undefined is a
  `Fault` here, and so is a loop that outlives its fuel.  `ByteStep.lean` proves that neither
  happens in any reachable state.
* The cursor is an `Int`, relative to `data_`: on an empty payload the source adds
  `size_t(0) - 1`, which in a flat address space is one step back.
-/

/-- Where the model stops because the source's behaviour would be undefined, or because the
    loop ran out of fuel. -/
inductive Fault
  | dataIndex
  | maskKeyIndex
  | fuel
deriving DecidableEq, Repr

/-! ### The cases of the switch -/

/-- `SWITCH_TO_MASK`. -/
def switchToMask (s : ParseState) : ParseState :=
  if s.frame.mask then
    { parser := { s.parser with status := .maskKey, byteNeed := 4 }
      frame := { s.frame with maskKey := [] } }
  else
    { s with parser := { s.parser with status := .payload, byteNeed := s.frame.payloadLen } }

/-- `case Status::finAndOpcode`. -/
def onFinAndOpcode (s : ParseState) (ch : UInt8) : ParseState :=
  let frame := { s.frame with fin := getFin ch, rsv := getRsv ch }
  let opcode := getOpcode ch
  { parser := { s.parser with status := .payloadLenAndMask }
    frame :=
      -- while a message is open the opcode is not stored, whatever it is
      if !s.parser.isContinuation && opcode != 0 then
        { frame with opcode := opcode, maskKey := [], payload := [] }
      else frame }

/-- `case Status::payloadLenAndMask`. -/
def onPayloadLenAndMask (s : ParseState) (ch : UInt8) : ParseState :=
  let frame := { s.frame with mask := getMask ch, payloadLen := getPayloadLen ch }
  -- 126 announces two more bytes of length, 127 eight
  if frame.payloadLen ≤ 125 then
    switchToMask { s with frame := frame }
  else if frame.payloadLen = 126 then
    { parser := { s.parser with status := .payloadLen, byteNeed := 2 }
      frame := { frame with payloadLen := 0 } }
  else
    { parser := { s.parser with status := .payloadLen, byteNeed := 8 }
      frame := { frame with payloadLen := 0 } }

/-- One byte of an extended length. -/
def takeLenByte (s : ParseState) (ch : UInt8) : ParseState :=
  { parser := { s.parser with byteNeed := s.parser.byteNeed - 1 }
    frame := { s.frame with payloadLen := pushLenByte s.frame.payloadLen ch } }

/-- `case Status::payloadLen`. -/
def onPayloadLen (s : ParseState) (ch : UInt8) : ParseState :=
  let s' := if s.parser.byteNeed ≠ 0 then takeLenByte s ch else s
  if s'.parser.byteNeed = 0 then switchToMask s' else s'

/-- One byte of the masking key. -/
def takeKeyByte (s : ParseState) (ch : UInt8) : ParseState :=
  { parser := { s.parser with byteNeed := s.parser.byteNeed - 1 }
    frame := { s.frame with maskKey := s.frame.maskKey ++ [ch] } }

/-- `case Status::maskKey`. -/
def onMaskKey (s : ParseState) (ch : UInt8) : ParseState :=
  -- `byteNeed` counts the key down first and the payload afterwards
  let s' := if s.parser.byteNeed ≠ 0 then takeKeyByte s ch else s
  if s'.parser.byteNeed = 0 then
    { s' with parser := { s'.parser with byteNeed := s'.frame.payloadLen, status := .payload } }
  else s'

/-- `case Status::complete`.  The second component is the frame `m_onComplete` sees, if the
    callback fires. -/
def onComplete (s : ParseState) : ParseState × List WsFrame :=
  let parser := { s.parser with maskIndex := 0, byteNeed := 0, status := .finAndOpcode }
  if s.frame.fin then
    ({ s with parser := { parser with isContinuation := false } }, [s.frame])
  else
    ({ s with parser := { parser with isContinuation := true } }, [])

/-- While bytes of the length are missing, the guards of the source are true. -/
theorem onPayloadLen_eq {s : ParseState} (h : 1 ≤ s.parser.byteNeed) (ch : UInt8) :
    onPayloadLen s ch =
      if s.parser.byteNeed = 1 then switchToMask (takeLenByte s ch) else takeLenByte s ch := by
  have hne : s.parser.byteNeed ≠ 0 := by omega
  have hlast : s.parser.byteNeed - 1 = 0 ↔ s.parser.byteNeed = 1 := by omega
  simp [onPayloadLen, hne, takeLenByte, hlast]

/-- While bytes of the key are missing, the guards of the source are true. -/
theorem onMaskKey_eq {s : ParseState} (h : 1 ≤ s.parser.byteNeed) (ch : UInt8) :
    onMaskKey s ch =
      if s.parser.byteNeed = 1 then
        { parser := { s.parser with byteNeed := s.frame.payloadLen, status := .payload }
          frame := { s.frame with maskKey := s.frame.maskKey ++ [ch] } }
      else takeKeyByte s ch := by
  have hne : s.parser.byteNeed ≠ 0 := by omega
  have hlast : s.parser.byteNeed - 1 = 0 ↔ s.parser.byteNeed = 1 := by omega
  simp [onMaskKey, hne, takeKeyByte, hlast]

/-- The early return of `case Status::payload`. -/
def onLimit (s : ParseState) : ParseState :=
  { s with parser := { s.parser with status := .finAndOpcode, isContinuation := false } }

/-! ### Reading the buffer -/

/-- `*p`, for `p` at offset `ch` of the buffer. -/
def readAt (data : List UInt8) (ch : Int) : Except Fault UInt8 :=
  if 0 ≤ ch then
    match data[ch.toNat]? with
    | some b => .ok b
    | none => .error .dataIndex
  else .error .dataIndex

/-- `frame->mask_key[i]`. -/
def maskKeyAt (key : List UInt8) (i : Nat) : Except Fault UInt8 :=
  match key[i]? with
  | some k => .ok k
  | none => .error .maskKeyIndex

/-- The unmasking loop: append `n` bytes from offset `ch` on, each xored with the key byte
    under the running mask index. -/
def pushUnmasked (data key : List UInt8) :
    Nat → Int → Nat → List UInt8 → Except Fault (List UInt8 × Nat)
  | 0, _, maskIndex, payload => .ok (payload, maskIndex)
  | n + 1, ch, maskIndex, payload => do
    let b ← readAt data ch
    let k ← maskKeyAt key maskIndex
    pushUnmasked data key n (ch + 1) ((maskIndex + 1) % 4) (payload ++ [b ^^^ k])

/-- `payload.insert(payload.end(), ch, ch + n)`. -/
def insertRange (data : List UInt8) : Nat → Int → List UInt8 → Except Fault (List UInt8)
  | 0, _, payload => .ok payload
  | n + 1, ch, payload => do
    let b ← readAt data ch
    insertRange data n (ch + 1) (payload ++ [b])

/-! ### The loop -/

/-- The loop's variables: parser and frame, the cursor and the frames fired so far. -/
structure Cursor where
  state : ParseState
  ch : Int
  fired : List WsFrame
deriving DecidableEq, Repr

/-- How one pass through the switch ends: `break`, or `return`. -/
inductive Flow
  | next (c : Cursor)
  | ret (err : WsParseErr) (c : Cursor)
deriving DecidableEq, Repr

/-- The copy of `to_read` payload bytes: the new payload and mask index. -/
def copyPayload (data : List UInt8) (c : Cursor) (toRead : Nat) :
    Except Fault (List UInt8 × Nat) :=
  let s := c.state
  if s.frame.mask then
    pushUnmasked data s.frame.maskKey toRead c.ch s.parser.maskIndex s.frame.payload
  else do
    let payload ← insertRange data toRead c.ch s.frame.payload
    pure (payload, s.parser.maskIndex)

/-- The rest of the `payload` case: the counters, and the fall-through into `complete`. -/
def afterCopy (c : Cursor) (toRead : Nat) (payload : List UInt8) (maskIndex : Nat) : Cursor :=
  let s : ParseState :=
    { parser := { c.state.parser with
        byteNeed := c.state.parser.byteNeed - toRead, maskIndex := maskIndex }
      frame := { c.state.frame with payload := payload } }
  -- the `ch ++` of the loop head makes up for the `- 1`
  let ch := c.ch + (toRead : Int) - 1
  if s.parser.byteNeed = 0 then
    { state := (onComplete s).1, ch := ch, fired := c.fired ++ (onComplete s).2 }
  else
    { c with state := s, ch := ch }

/-- `case Status::payload`, with the fall-through into `complete`. -/
def onPayload (data : List UInt8) (c : Cursor) : Except Fault Flow :=
  if limitPayloadLen < c.state.frame.payloadLen then
    .ok (.ret .invalidPayloadLen { c with state := onLimit c.state })
  else do
    let toRead := min ((data.length : Int) - c.ch).toNat c.state.parser.byteNeed
    let (payload, maskIndex) ← copyPayload data c toRead
    pure (.next (afterCopy c toRead payload maskIndex))

/-- The `switch` of the loop body. -/
def switchStatus (data : List UInt8) (c : Cursor) : Except Fault Flow :=
  match c.state.parser.status with
  | .finAndOpcode => do
    let b ← readAt data c.ch
    pure (.next { c with state := onFinAndOpcode c.state b })
  | .payloadLenAndMask => do
    let b ← readAt data c.ch
    pure (.next { c with state := onPayloadLenAndMask c.state b })
  | .payloadLen => do
    let b ← readAt data c.ch
    pure (.next { c with state := onPayloadLen c.state b })
  | .maskKey => do
    let b ← readAt data c.ch
    pure (.next { c with state := onMaskKey c.state b })
  | .payload => onPayload data c
  | .complete =>
    let r := onComplete c.state
    pure (.next { c with state := r.1, fired := c.fired ++ r.2 })

/-- What a call leaves behind: the code it returns, the cursor at the return, parser and
    frame, and the frames at the firings of `m_onComplete`, oldest first. -/
structure ParseResult where
  err : WsParseErr
  pos : Int
  state : ParseState
  fired : List WsFrame
deriving DecidableEq, Repr

/-- `for (ch = data_; ch != data_ + len; ch ++) switch …`, with fuel. -/
def parseLoop (data : List UInt8) : Nat → Cursor → Except Fault ParseResult
  | 0, _ => .error .fuel
  | fuel + 1, c =>
    if c.ch = data.length then .ok ⟨.success, c.ch, c.state, c.fired⟩
    else
      match switchStatus data c with
      | .error e => .error e
      | .ok (.ret err c') => .ok ⟨err, c'.ch, c'.state, c'.fired⟩
      | .ok (.next c') => parseLoop data fuel { c' with ch := c'.ch + 1 }

/-- `websocket_parser::parse` on the first `len` bytes of the buffer.  Two iterations a byte
    are enough: one that completes an empty frame gives its byte back. -/
def parse (s : ParseState) (data : List UInt8) : Except Fault ParseResult :=
  if data.length = 0 then .ok ⟨.success, 0, s, []⟩
  else parseLoop data (2 * data.length + 2) { state := s, ch := 0, fired := [] }

/-- Successive calls of `parse` on one parser and one frame, up to the first that does not
    return `SUCCESS`.  Positions count from the start of the first buffer. -/
def feed : ParseState → List (List UInt8) → Except Fault ParseResult
  | s, [] => .ok ⟨.success, 0, s, []⟩
  | s, c :: cs => do
    -- the first call that does not succeed is the last
    let r ← parse s c
    if r.err = .success then
      let r' ← feed r.state cs
      pure ⟨r'.err, r.pos + r'.pos, r'.state, r.fired ++ r'.fired⟩
    else
      pure r

/-- The states between two calls of `parse`, after any number of calls with any buffers and
    whatever they returned, on one parser and one frame. -/
inductive Reachable : ParseState → Prop
  | init (frame : WsFrame) : Reachable (.init frame)
  | parse {s : ParseState} {r : ParseResult} (data : List UInt8) :
      Reachable s → MyWebSocket.parse s data = .ok r → Reachable r.state

end MyWebSocket
