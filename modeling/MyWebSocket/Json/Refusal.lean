import MyWebSocket.Json.Grammar
import MyWebSocket.Json.Message

namespace MyWebSocket

/-!
# What `getJsonMessage` makes of a payload that is no JSON text

It ought to be `null`.  It is, unless

* a string breaks off at a bad escape behind other characters: `parse_string` leaves these on its
  stack and the assertion of `parse` fails;
* or the payload begins with a value, apart from letters beyond `F` in `\u` escapes: `parse` looks
  at what follows the value only after an error.

`getJsonMessage_refuses_iff` says that these are all the payloads where it goes wrong.
-/

open JsonGrammar (Document Utf8)
open JsonText (Space)

variable {δ : Type} {good : Bytes → Prop}

/-- The payload is a JSON text. -/
def IsJson (payload : Bytes) : Prop := Utf8 payload ∧ Document payload

/-- The text begins with a value, and `rest` follows that. -/
def Begins (good : Bytes → Prop) (fp : DoubleText δ) (tmp rest : Bytes) : Prop :=
  ∃ v : LeptValue δ, JsonReads good fp tmp (.value v) rest

/-- The literal `null` is the only text of a null. -/
theorem eq_null_iff {fp : DoubleText δ} {tmp rest : Bytes} {v : LeptValue δ}
    (h : JsonReads good fp tmp (.value v) rest) : v = .null ↔ str "null" <+: tmp := by
  constructor
  · rintro rfl
    generalize hp : JsonPart.value LeptValue.null = p at h
    cases h with
    | null rest => exact ⟨rest, rfl⟩
    | number h =>
      obtain rfl := JsonPart.value.inj hp
      obtain ⟨-, -, ⟨i, hi⟩ | ⟨n, hn⟩, -⟩ := LeptContext.parseNumber_eq_ok h
      · cases hi
      · cases hn
    | _ => cases hp
  · rintro ⟨r, rfl⟩
    exact (LeptContext.reads_unique h (.null r : JsonReads AnyRound fp _ _ r)).1

theorem getJsonMessage_eq (fp : DoubleText δ) (frame : WsFrame) :
    getJsonMessage fp frame = (LeptValue.parse fp frame.payload).map fun r =>
      if r.2.isSome then .null else r.1 := by
  unfold getJsonMessage getStrMessage
  cases LeptValue.parse fp frame.payload <;> rfl

/-- What holds of the null and of every value that is read, holds of what is returned, and
    something is unless a string breaks off. -/
theorem getJsonMessage_ok_iff (fp : DoubleText δ) (frame : WsFrame) {P : LeptValue δ → Prop}
    (hnull : P .null) :
    (∃ v, getJsonMessage fp frame = .ok v ∧ P v) ↔
      ¬ JsonBreaks fp .value (parsedText frame.payload) ∧
        ∀ v rest, JsonReads AnyRound fp (parsedText frame.payload) (.value v) rest → P v := by
  rw [getJsonMessage_eq]
  constructor
  · rintro ⟨v, hv, hP⟩
    constructor
    · intro hbreaks
      rw [parse_of_breaks hbreaks] at hv
      exact absurd hv (by simp [Except.map])
    · intro w rest hw
      rw [parse_of_reads hw] at hv
      obtain rfl : w = v := Except.ok.inj hv
      exact hP
  · rintro ⟨hbreaks, hreads⟩
    by_cases hany : ∃ v rest, JsonReads AnyRound fp (parsedText frame.payload) (.value v) rest
    · obtain ⟨v, rest, hv⟩ := hany
      exact ⟨v, by rw [parse_of_reads hv]; rfl, hreads v rest hv⟩
    · obtain ⟨ret, herror⟩ :=
        parse_of_neither (fun v rest hv => hany ⟨v, rest, hv⟩) hbreaks
      exact ⟨.null, by rw [herror]; rfl, hnull⟩

/-- **`getJsonMessage` returns a value, and that is `null` for a payload that is no JSON text, if
    and only if no string of the payload breaks off, and what follows a value other than `null` at
    its beginning is white space, with hexadecimal digits in its `\u` escapes and UTF-8
    throughout.** -/
theorem getJsonMessage_refuses_iff (fp : DoubleText δ) (frame : WsFrame) :
    (∃ v, getJsonMessage fp frame = .ok v ∧ (¬ IsJson frame.payload → v = .null)) ↔
      ¬ JsonBreaks fp .value (parsedText frame.payload) ∧
        ∀ rest, Begins AnyRound fp (parsedText frame.payload) rest →
          ¬ str "null" <+: parsedText frame.payload →
            Utf8 frame.payload ∧ Begins HexRound fp (parsedText frame.payload) rest ∧
              ∃ w, Space w ∧ rest = w ++ [0] := by
  rw [getJsonMessage_ok_iff fp frame fun _ => rfl]
  refine and_congr_right fun _ => ⟨?_, ?_⟩
  · rintro hnull rest ⟨v, hv⟩ hne
    have hjson : IsJson frame.payload :=
      by_contra fun h => hne ((eq_null_iff hv).mp (hnull v rest hv h))
    obtain ⟨hhex, hrest⟩ := (document_iff hv).mp hjson.2
    exact ⟨hjson.1, ⟨v, hhex⟩, hrest⟩
  · intro hwhole v rest hv hjson
    by_contra hne
    obtain ⟨hutf8, ⟨w, hw⟩, hrest⟩ :=
      hwhole rest ⟨v, hv⟩ fun hprefix => hne ((eq_null_iff hv).mpr hprefix)
    obtain ⟨rfl, -⟩ := LeptContext.reads_unique hw hv
    exact hjson ⟨hutf8, (document_iff hv).mpr ⟨hw, hrest⟩⟩

/-- `"a\x"` makes the assertion fail. -/
theorem badEscape_aborts :
    ¬ ∃ v, getJsonMessage noDoubles { WsFrame.init with payload := str "\"a\\x\"" } = .ok v ∧
      (¬ IsJson (str "\"a\\x\"") → v = .null) := by
  rintro ⟨v, hv, -⟩
  have habort : getJsonMessage noDoubles { WsFrame.init with payload := str "\"a\\x\"" } =
      .error .assertion := rfl
  rw [habort] at hv
  cases hv

-- what follows a value is not looked at
example : getJsonMessage noDoubles { WsFrame.init with payload := str "1 2" } = .ok (.integer 1) :=
  rfl

end MyWebSocket
