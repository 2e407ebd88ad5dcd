import MyWebSocket.HttpParser.Values

namespace MyWebSocket

open Transducer Numerals

/-!
# Header fields

The fields of a request as a client writes them, and what each of them means to the parser.

* `Field` — a field: its name and the parts of its value; `Field.Wf` says when it is well formed;
* `Field.effect` — what it changes about the members of the parser that outlive the field;
* `Field.reads` — the characters of its value do just that.
-/

namespace RequestParser

/-! ### What outlives a field -/

/-- The members without those that are only used within a field, and the count. -/
def clear (m : ParserMembers) : ParserMembers :=
  { m with headerState := .general, index := 0, nread := 0 }

theorem clear_withWord (kind : HeaderKind) (w : Bytes) (m : ParserMembers) :
    clear (withWord kind w m) = withWord kind w (clear m) := by
  cases kind <;> rfl

/-- The members once several words of a list count. -/
def withWords (kind : HeaderKind) (ws : List Bytes) (m : ParserMembers) : ParserMembers :=
  ws.foldl (fun m w => withWord kind (w.map lower) m) m

theorem clear_withWords (kind : HeaderKind) (ws : List Bytes) (m : ParserMembers) :
    clear (withWords kind ws m) = withWords kind ws (clear m) := by
  induction ws generalizing m with
  | nil => rfl
  | cons w ws ih =>
    show clear (withWords kind ws (withWord kind (w.map lower) m)) = _
    rw [ih, clear_withWord]
    rfl

/-! ### Lists -/

/-- A word of a list, with the blanks around it. -/
structure ListWord where
  before : Nat
  word : Bytes
  behind : Nat
deriving DecidableEq, Repr

/-- The word as it is written. -/
def ListWord.text (e : ListWord) : Bytes :=
  List.replicate e.before 0x20 ++ e.word ++ List.replicate e.behind 0x20

/-- The words of a list behind the first one. -/
def othersText (es : List ListWord) : Bytes := es.flatMap fun e => 0x2C :: e.text

instance (kind : HeaderKind) (word : Bytes) : Decidable (IsWord kind word) :=
  -- along the list, not over all bytes
  have : Decidable (∀ c ∈ word, token c ≠ 0) := List.decidableBAll _ word
  have : Decidable (∀ c ∈ word.head?, token (lower c) ≠ 0) := Option.decidableForallMem _
  decidable_of_iff (word ≠ [] ∧ (∀ c ∈ word, token c ≠ 0) ∧
      (∀ c ∈ word.head?, token (lower c) ≠ 0) ∧
      ∀ w ∈ listWords kind, word.map lower <+: w → word.map lower = w)
    ⟨fun ⟨h₁, h₂, h₃, h₄⟩ => ⟨h₁, h₂, h₃, h₄⟩, fun h => ⟨h.ne_nil, h.token, h.first, h.whole⟩⟩

/-- In `Transfer-Encoding`, `chunked` comes last if at all. -/
def ChunkedLast (kind : HeaderKind) (ws : List Bytes) : Prop :=
  kind = .transferEncoding → ∀ w ∈ ws.dropLast, w.map lower ≠ chunkedWord

instance (kind : HeaderKind) (ws : List Bytes) : Decidable (ChunkedLast kind ws) := by
  unfold ChunkedLast
  infer_instance

/-- The words of a list behind the first one, which is `w`. -/
theorem foldlM_others {kind : HeaderKind} (hkind : kind.IsList) {es : List ListWord}
    (hes : ∀ e ∈ es, IsWord kind e.word) {w : Bytes}
    (hlast : ChunkedLast kind (w :: es.map ListWord.word)) {m : ParserMembers}
    (hst : m.headerState = wordState kind (w.map lower)) :
    ∃ m', (othersText es).foldlM valueChar m = some m' ∧
      clear (finishHeader m') = clear (withWords kind (w :: es.map ListWord.word) m) := by
  induction es generalizing w m with
  | nil =>
    refine ⟨m, rfl, ?_⟩
    rw [finishHeader_word hkind hst]
    rfl
  | cons e es ih =>
    have hw : kind = .transferEncoding → w.map lower ≠ chunkedWord := fun h =>
      hlast h w (List.mem_cons_self)
    have hcomma := valueChar_comma hkind hst hw
    -- the members behind the comma
    have hword := hes e List.mem_cons_self
    obtain ⟨i, hfold⟩ := foldlM_word hkind hword
      (m := { withWord kind (w.map lower) m with index := 0, headerState := listStart kind })
      rfl rfl
    obtain ⟨m', hrest, hclear⟩ := ih (m := { withWord kind (w.map lower) m with
        index := i, headerState := wordState kind (e.word.map lower) })
      (fun e' he' => hes e' (List.mem_cons_of_mem e he'))
      (fun h w' hw' => hlast h w' (List.mem_cons_of_mem w hw')) rfl
    refine ⟨m', ?_, ?_⟩
    · rw [othersText, List.flatMap_cons, List.cons_append, List.foldlM_cons, hcomma, ListWord.text,
        List.append_assoc, List.append_assoc]
      show List.foldlM valueChar _ _ = _
      rw [List.foldlM_append, foldlM_blanks hkind (.inl rfl)]
      show List.foldlM valueChar _ _ = _
      rw [List.foldlM_append, hfold]
      show List.foldlM valueChar _ _ = _
      rw [List.foldlM_append, foldlM_blanks hkind (.inr ⟨_, rfl⟩)]
      exact hrest
    · rw [hclear, clear_withWords, List.map_cons]
      show _ = clear
        (withWords kind (e.word :: es.map ListWord.word) (withWord kind (w.map lower) m))
      rw [clear_withWords]
      rfl

/-! ### Fields -/

/-- A header field, as a client writes it. -/
inductive Field
  /-- A field that the parser does not act on. -/
  | other (name value : Bytes)
  | upgrade (name value : Bytes)
  /-- `Connection` or `Transfer-Encoding`. -/
  | list (kind : HeaderKind) (name : Bytes) (first : Bytes) (behind : Nat)
    (others : List ListWord)
  | contentLength (name digits : Bytes)
deriving DecidableEq, Repr

namespace Field

def name : Field → Bytes
  | other name _ | upgrade name _ | list _ name _ _ _ | contentLength name _ => name

def value : Field → Bytes
  | other _ value | upgrade _ value => value
  | list _ _ first behind others => first ++ List.replicate behind 0x20 ++ othersText others
  | contentLength _ digits => digits

/-- The header that the field is to be. -/
def kind : Field → HeaderKind
  | other _ _ => .other
  | upgrade _ _ => .upgrade
  | list kind _ _ _ _ => kind
  | contentLength _ _ => .contentLength

/-- A value that the parser passes over: no blank comes first, and no control character at all. -/
def PlainValue (value : Bytes) : Prop :=
  (∀ c ∈ value, c ≠ 0x0D ∧ c ≠ 0x0A ∧ isHeaderChar c = true) ∧
    ∀ c ∈ value.head?, c ≠ 0x20 ∧ c ≠ 0x09

instance (value : Bytes) : Decidable (PlainValue value) :=
  have : Decidable (∀ c ∈ value, c ≠ 0x0D ∧ c ≠ 0x0A ∧ isHeaderChar c = true) :=
    List.decidableBAll _ value
  have : Decidable (∀ c ∈ value.head?, c ≠ 0x20 ∧ c ≠ 0x09) := Option.decidableForallMem _
  inferInstanceAs (Decidable (_ ∧ _))

/-- The number of a `Content-Length`. -/
def number (digits : Bytes) : Nat := Nat.ofDigits 10 (digits.map digit).reverse

/-- What is asked of the value. -/
def WfValue : Field → Prop
  | other _ value => PlainValue value
  | upgrade _ value => PlainValue value ∧ value ≠ []
  | list kind _ first _ others =>
    (kind = .connection ∨ kind = .transferEncoding) ∧ IsWord kind first ∧
      (∀ e ∈ others, IsWord kind e.word) ∧ ChunkedLast kind (first :: others.map ListWord.word)
  | contentLength _ digits =>
    digits ≠ [] ∧ (∀ c ∈ digits, isNum c = true) ∧ number digits ≤ 18446744073709551609

instance (digits : Bytes) : Decidable (∀ c ∈ digits, isNum c = true) := List.decidableBAll _ digits

instance (f : Field) : Decidable f.WfValue := by
  cases f <;> unfold WfValue <;> infer_instance

/-- The field is well formed: its name is a token, and the one its value is written for. -/
structure Wf (f : Field) : Prop where
  ne_nil : f.name ≠ []
  token : ∀ c ∈ f.name, RequestParser.token c ≠ 0
  kind : headerKind f.name = f.kind
  value : f.WfValue

instance (f : Field) : Decidable f.Wf :=
  have : Decidable (∀ c ∈ f.name, RequestParser.token c ≠ 0) := List.decidableBAll _ f.name
  decidable_of_iff (f.name ≠ [] ∧ (∀ c ∈ f.name, RequestParser.token c ≠ 0) ∧
      headerKind f.name = f.kind ∧ f.WfValue)
    ⟨fun ⟨h₁, h₂, h₃, h₄⟩ => ⟨h₁, h₂, h₃, h₄⟩, fun h => ⟨h.ne_nil, h.token, h.kind, h.value⟩⟩

/-- What the value of the field changes about the parser. -/
def valueEffect (m : ParserMembers) : Field → ParserMembers
  | other _ _ => m
  | upgrade _ _ => { m with flags.upgrade := true }
  | list kind _ first _ others => withWords kind (first :: others.map ListWord.word) m
  | contentLength _ digits =>
    { m with flags.contentLength := true, contentLength := number digits }

/-- What the field changes about the parser. -/
def effect (m : ParserMembers) (f : Field) : ParserMembers :=
  f.valueEffect { m with
    usesTransferEncoding := m.usesTransferEncoding ||
      decide (transferEncodingWord <+: f.name.map RequestParser.token) }

/-- A second `Content-Length` is an error. -/
def Admitted (m : ParserMembers) : Field → Prop
  | contentLength _ _ => m.flags.contentLength = false
  | _ => True

instance (m : ParserMembers) (f : Field) : Decidable (f.Admitted m) := by
  cases f <;> unfold Admitted <;> infer_instance

theorem clear_valueEffect (m : ParserMembers) (f : Field) :
    clear (f.valueEffect m) = f.valueEffect (clear m) := by
  cases f with
  | list kind _ first _ others => exact clear_withWords kind _ m
  | _ => rfl

theorem clear_effect (m : ParserMembers) (f : Field) :
    clear (f.effect m) = f.effect (clear m) :=
  clear_valueEffect _ f

theorem admitted_clear (m : ParserMembers) (f : Field) : f.Admitted (clear m) ↔ f.Admitted m := by
  cases f <;> exact Iff.rfl

theorem ordinary {value : Bytes} (h : PlainValue value) (m : ParserMembers) {c : UInt8}
    (hc : c ∈ value) : Ordinary m c := by
  obtain ⟨hcr, hlf, hheader⟩ := h.1 c hc
  refine ⟨not_or.mpr ⟨hcr, hlf⟩, ?_⟩
  rw [not_badHeaderChar hheader]
  nofun

/-- The value of a field that the parser does not act on. -/
theorem reads_other {p : HttpParserData}
    (hbegins : HeaderKind.other.Begins p.others.headerState) (c : UInt8) :
    headerValueFirst p c = next { p with others.headerState := .general } := by
  obtain ⟨hname, hst⟩ := hbegins
  simp only [List.mem_cons, List.not_mem_nil, or_false, not_or] at hst
  unfold headerValueFirst
  split <;> simp_all [nameState]

/-- The number of a field is the one the digits stand for. -/
theorem guarded_number {c : UInt8} {ds : Bytes} (hds : ∀ b ∈ c :: ds, isNum b = true)
    (hlimit : number (c :: ds) ≤ 18446744073709551609) :
    guarded 10 lengthLimit (digit c) (ds.map digit) = some (number (c :: ds)) := by
  have hvalue : number (c :: ds) = horner 10 (digit c) (ds.map digit) := by
    rw [number, ← horner_eq_ofDigits, List.map_cons, horner_cons, Nat.zero_mul, Nat.zero_add]
  have hdigit : ∀ d ∈ ds.map digit, d < 10 := by
    intro d hd
    obtain ⟨b, hb, rfl⟩ := List.mem_map.mp hd
    exact (isNum_spec b (hds b (List.mem_cons_of_mem c hb))).2.2.2.2
  have hlarge : lengthLimit = 1844674407370955160 := by decide
  rw [guarded_eq (by omega) hdigit, ← hvalue, if_pos (.inr (by omega))]

/-- **A value**, from its first character on: it changes what the field is to change. -/
theorem reads {f : Field} (hf : f.WfValue) {p : HttpParserData}
    (hbegins : f.kind.Begins p.others.headerState) (hadmitted : f.Admitted p.others) {c : UInt8}
    {v : Bytes} (htext : f.value = c :: v) :
    ∃ m m', m.nread = p.others.nread ∧ headerValueStartCase p c =
        Op.before (.mark .headerValue) (next { p with state := .headerValue, others := m }) ∧
      v.foldlM valueChar m = some m' ∧
      clear (finishHeader m') = clear (f.valueEffect p.others) := by
  cases f with
  | other name value =>
    obtain rfl : value = c :: v := htext
    refine ⟨{ p.others with index := 0, headerState := .general }, _, rfl, ?_,
      foldlM_ordinary rfl fun b hb => ordinary hf _ (List.mem_cons_of_mem c hb), rfl⟩
    exact congrArg (Op.before (.mark .headerValue))
      (reads_other (p := { p with state := .headerValue, others.index := 0 }) hbegins c)
  | upgrade name value =>
    obtain rfl : value = c :: v := htext
    refine ⟨{ p.others with index := 0, flags.upgrade := true, headerState := .general }, _, rfl,
      ?_,
      foldlM_ordinary rfl fun b hb => ordinary hf.1 _ (List.mem_cons_of_mem c hb), rfl⟩
    rw [headerValueStartCase, headerValueFirst]
    simp only [show p.others.headerState = .upgrade from hbegins]
  | list kind name first behind others =>
    obtain ⟨hkind, hfirst, hothers, hlast⟩ := hf
    obtain ⟨b, w, rfl⟩ := List.exists_cons_of_ne_nil hfirst.ne_nil
    have hcons : b :: (w ++ List.replicate behind 0x20 ++ othersText others) = c :: v := htext
    obtain ⟨rfl, rfl⟩ := List.cons.inj hcons
    obtain ⟨i, hword⟩ := foldlM_word_rest hkind hfirst
      (m := { p.others with index := 0, headerState := wordStart kind (lower b) }) rfl rfl
    obtain ⟨m', hrest, hclear⟩ := foldlM_others hkind hothers hlast
      (m := { p.others with index := i, headerState := wordState kind ((b :: w).map lower) }) rfl
    refine ⟨{ p.others with index := 0, headerState := wordStart kind (lower b) }, m', rfl, ?_, ?_,
      ?_⟩
    · rw [headerValueStartCase, headerValueFirst]
      rcases hkind with rfl | rfl
      · simp only [show p.others.headerState = .connection from hbegins, wordStart_connection]
        split_ifs <;> rfl
      · simp only [show p.others.headerState = .transferEncoding from hbegins, wordStart_encoding]
        split_ifs <;> rfl
    · rw [List.foldlM_append, List.foldlM_append, hword]
      show ((List.replicate behind 0x20).foldlM valueChar _).bind _ = _
      rw [foldlM_blanks hkind (.inr ⟨_, rfl⟩)]
      exact hrest
    · rw [hclear, clear_withWords]
      show _ = clear (withWords kind _ p.others)
      rw [clear_withWords]
      rfl
  | contentLength name digits =>
    obtain rfl : digits = c :: v := htext
    obtain ⟨-, hnum, hlimit⟩ := hf
    refine ⟨{ p.others with
      index := 0, flags.contentLength := true, contentLength := digit c,
      headerState := .contentLengthNum },
      { p.others with
        index := 0, flags.contentLength := true, contentLength := number (c :: v),
        headerState := .contentLengthNum },
      rfl, ?_, (foldlM_digits rfl fun b hb => hnum b (List.mem_cons_of_mem c hb)).trans ?_, rfl⟩
    · have hfirst : isNum c = true := hnum c List.mem_cons_self
      have hflag : p.others.flags.contentLength = false := hadmitted
      rw [headerValueStartCase, headerValueFirst]
      simp only [show p.others.headerState = .contentLength from hbegins, hfirst, hflag]
      rfl
    · rw [guarded_number hnum hlimit]
      rfl

end Field

end RequestParser

end MyWebSocket
