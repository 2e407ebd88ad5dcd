import MyWebSocket.Http.Response
import MyWebSocket.Json.Weight
import MyWebSocket.WebSocket.Session

namespace MyWebSocket

/-!
# Sending a JSON value and reading it back

`WsSession::send` and `httpResp::sendJson` of a value, and `WsSession::getJsonMessage`.  A value
comes back as it was if and only if its keys stand for themselves and its strings are short and
ASCII (`roundTrip_iff`): `stringify` does not escape keys, and takes the bytes from 0x80 on for
control characters.
-/

variable {δ : Type}

/-- `WsSession::getStrMessage`, `m_frame` being `frame`. -/
def getStrMessage (frame : WsFrame) : Bytes := frame.payload

/-- `WsSession::getJsonMessage`, `m_frame` being `frame`. -/
def getJsonMessage (fp : DoubleText δ) (frame : WsFrame) : Except Halt (LeptValue δ) := do
  let r ← LeptValue.parse fp (getStrMessage frame)
  pure (if r.2.isSome then .null else r.1)

/-- `WsSession::send` of a `lept_value`. -/
def WsSession.sendJson (fp : DoubleText δ) (s : WsSession) (json : LeptValue δ) :
    Except Halt WsSession := do
  let text ← json.stringify fp
  pure (s.send text)

/-- `httpResp::sendJson` up to the call of `send`. -/
def HttpResp.sendJson (fp : DoubleText δ) (r : HttpResp) (json : LeptValue δ) :
    Except Halt HttpResp := do
  let text ← json.stringify fp
  pure (r.setJson text)

/-- What is sent behind the header in the last write. -/
def WsSession.lastPayload (s : WsSession) : Bytes :=
  match s.trace.getLast? with
  | some (.uvWrite _ _ (_ :: payload)) => payload.flatten
  | _ => []

/-- The two ways to send a value. -/
inductive JsonRoute
  | ws (s : WsSession)
  | http (r : HttpResp)

/-- The text that is sent. -/
def JsonRoute.text (fp : DoubleText δ) (json : LeptValue δ) : JsonRoute → Except Halt Bytes
  | .ws s => do pure (← s.sendJson fp json).lastPayload
  | .http r => do pure (← r.sendJson fp json).body

/-- The value read back by the receiver of a message with that text. -/
def roundTrip (fp : DoubleText δ) (route : JsonRoute) (frame : WsFrame) (json : LeptValue δ) :
    Except Halt (LeptValue δ) := do
  let text ← route.text fp json
  getJsonMessage fp { frame with payload := text }

/-! ### What survives -/

/-- A key that stands for itself, or a string that `stringify_string` gets to the end of and that
    has no byte from 0x80 on. -/
def LeptValue.Atom.Survives : LeptValue.Atom δ → Prop
  | .key k => ∀ ch ∈ k, IsRaw ch
  | .leaf (.string s) => s.length < 2 ^ 31 ∧ ∀ ch ∈ s, ch < 0x80
  | .leaf _ => True

theorem reread_eq_self_iff (s : Bytes) : reread s = s ↔ ∀ ch ∈ s, ch < 0x80 := by
  constructor
  · intro h
    -- every other byte makes the string longer
    have hlength : (reread s).length = s.length + 2 * s.countP fun ch => ¬ ch < 0x80 := by
      unfold reread
      clear h
      induction s with
      | nil => rfl
      | cons ch s ih =>
        rw [List.flatMap_cons, List.length_append, ih, List.countP_cons, List.length_cons,
          rereadChar]
        by_cases hch : ch < 0x80
        · simp [hch]
          omega
        · simp [hch]
          omega
    rw [h] at hlength
    have hcount : s.countP (fun ch => ¬ ch < 0x80) = 0 := by omega
    intro ch hch
    simpa using List.countP_eq_zero.mp hcount ch hch
  · intro h
    induction s with
    | nil => rfl
    | cons ch s ih =>
      obtain ⟨hch, hs⟩ := List.forall_mem_cons.mp h
      rw [reread, List.flatMap_cons, rereadChar, if_pos hch]
      exact congrArg (ch :: ·) (ih hs)

theorem map_eq_self_iff {β : Type} {g : β → β} {l : List β} :
    l.map g = l ↔ ∀ x ∈ l, g x = x := by
  have h : l.map g = l.map id ↔ ∀ x ∈ l, g x = id x := List.map_inj_left
  rwa [List.map_id] at h

theorem LeptValue.Plain.mapStrings_eq_self_iff {v : LeptValue δ} (hv : v.Plain)
    (f : Bytes → Bytes) :
    v.mapStrings f = v ↔ ∀ s, LeptValue.Atom.leaf (.string s) ∈ v.atoms → f s = s := by
  induction hv with
  | null => simp [LeptValue.mapStrings, LeptValue.atoms]
  | boolean b => simp [LeptValue.mapStrings, LeptValue.atoms]
  | integer i => simp [LeptValue.mapStrings, LeptValue.atoms]
  | string s => simp [LeptValue.mapStrings, LeptValue.atoms]
  | @array arr elems ih =>
    rw [LeptValue.mapStrings_array, LeptValue.atoms_array, LeptValue.array.injEq, map_eq_self_iff]
    constructor
    · intro h s hs
      obtain ⟨v, hv, hs⟩ := List.mem_flatMap.mp hs
      exact (ih v hv).mp (h v hv) s hs
    · intro h v hv
      exact (ih v hv).mpr fun s hs => h s (List.mem_flatMap.mpr ⟨v, hv, hs⟩)
  | @object obj ordered values ih =>
    rw [LeptValue.mapStrings_object, LeptValue.atoms_object, LeptValue.object.injEq,
      map_eq_self_iff]
    constructor
    · intro h s hs
      obtain ⟨e, he, hs⟩ := List.mem_flatMap.mp hs
      have hvalue : e.2.mapStrings f = e.2 := congrArg Prod.snd (h e he)
      rcases List.mem_cons.mp hs with hkey | hs
      · exact absurd hkey (by simp)
      · exact (ih e he).mp hvalue s hs
    · intro h e he
      have hvalue : e.2.mapStrings f = e.2 := (ih e he).mpr fun s hs =>
        h s (List.mem_flatMap.mpr ⟨e, he, List.mem_cons_of_mem _ hs⟩)
      rw [hvalue]

theorem lastPayload_send (s : WsSession) (text : Bytes) : (s.send text).lastPayload = text := by
  have hlast : (s.send text).trace.getLast? = some (.uvWrite s.nextCtx WsCode.text.code
      [WsSession.sendHeader WsCode.text.code text.length, text]) := by
    show (s.trace ++ [_, _]).getLast? = _
    rw [List.getLast?_append]
    rfl
  rw [WsSession.lastPayload, hlast]
  exact List.append_nil text

/-- Both ways send what `stringify` gives. -/
theorem JsonRoute.text_eq (fp : DoubleText δ) (v : LeptValue δ) (route : JsonRoute) :
    route.text fp v = v.stringify fp := by
  cases route with
  | ws s =>
    rw [JsonRoute.text, WsSession.sendJson]
    cases v.stringify fp with
    | error h => rfl
    | ok text => exact congrArg Except.ok (lastPayload_send s text)
  | http r =>
    rw [JsonRoute.text, HttpResp.sendJson]
    cases v.stringify fp with
    | error h => rfl
    | ok text => rfl

/-- **What a value is read back as**, whichever way it is sent. -/
theorem roundTrip_eq (fp : DoubleText δ) (route : JsonRoute) (frame : WsFrame) (v : LeptValue δ) :
    roundTrip fp route frame v =
      if v.atoms.any LeptValue.Atom.overflows then .error .overflow
      else getJsonMessage fp { frame with payload := v.stringifyValue fp } := by
  rw [roundTrip, JsonRoute.text_eq, LeptValue.stringify]
  split
  · rfl
  · rfl

theorem getJsonMessage_eq_self_iff (fp : DoubleText δ) {v : LeptValue δ} (hv : v.Plain)
    (frame : WsFrame) :
    getJsonMessage fp { frame with payload := v.stringifyValue fp } = .ok v ↔
      (∀ a ∈ v.atoms, a.HasRawKey) ∧ ∀ s, .leaf (.string s) ∈ v.atoms → ∀ ch ∈ s, ch < 0x80 := by
  by_cases hkeys : ∀ a ∈ v.atoms, a.HasRawKey
  · have hread : getJsonMessage fp { frame with payload := v.stringifyValue fp } =
        .ok (v.mapStrings reread) := by
      rw [getJsonMessage, getStrMessage, parse_stringify fp hv hkeys]
      rfl
    rw [hread, Except.ok.injEq, hv.mapStrings_eq_self_iff]
    simp only [reread_eq_self_iff]
    exact ⟨fun h => ⟨hkeys, h⟩, fun h => h.2⟩
  · refine iff_of_false (fun h => ?_) fun h => hkeys h.1
    rw [getJsonMessage, getStrMessage] at h
    have hne := parse_stringify_ne fp hv hkeys
    cases hparse : LeptValue.parse fp (v.stringifyValue fp) with
    | error e =>
      rw [hparse] at h
      exact absurd h (by simp [Bind.bind, Except.bind])
    | ok r =>
      obtain ⟨w, ret⟩ := r
      rw [hparse] at h
      cases ret with
      | none =>
        obtain rfl : w = v := Except.ok.inj h
        exact hne hparse
      | some e =>
        -- after an error the value is null, which has no keys
        obtain rfl : LeptValue.null = v := Except.ok.inj h
        exact hkeys (by simp [LeptValue.atoms, LeptValue.Atom.HasRawKey])

theorem survives_iff (atoms : List (LeptValue.Atom δ)) :
    (∀ a ∈ atoms, a.Survives) ↔
      atoms.any LeptValue.Atom.overflows = false ∧ (∀ a ∈ atoms, a.HasRawKey) ∧
        ∀ s, .leaf (.string s) ∈ atoms → ∀ ch ∈ s, ch < 0x80 := by
  constructor
  · intro h
    refine ⟨List.any_eq_false.mpr fun a ha => ?_, fun a ha => ?_, fun s hs => (h _ hs).2⟩
    · have hsurvives := h a ha
      unfold LeptValue.Atom.overflows
      split
      · simpa using hsurvives.1
      · simp
    · have hsurvives := h a ha
      cases a with
      | key k => exact hsurvives
      | leaf v => trivial
  · rintro ⟨hlen, hkeys, hascii⟩ a ha
    have hshort : ¬ a.overflows = true := List.any_eq_false.mp hlen a ha
    cases a with
    | key k => exact hkeys _ ha
    | leaf v =>
      cases v with
      | string s => exact ⟨by simpa [LeptValue.Atom.overflows] using hshort, hascii s ha⟩
      | _ => trivial

/-- Doubles do not occur below. -/
def noDoubles : DoubleText Empty := ⟨Empty.elim, fun _ => none⟩

end MyWebSocket
