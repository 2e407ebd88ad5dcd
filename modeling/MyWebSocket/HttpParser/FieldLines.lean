import MyWebSocket.HttpParser.RequestLine

namespace MyWebSocket

open Transducer

/-!
# Field lines are parsed as they are sent

* `reports_name` — the name of a field and its colon;
* `reports_value`, `reports_noValue` — its value, up to the end of the line;
* `reports_line`, `reports_lines` — whole lines, of a header or of a trailer.

What a value means is decided when the next line begins: the parser must see that it is not a line
that goes on.  So each line is read in front of what starts another one (`LineStart`).
-/

namespace RequestParser

variable {st : ParserState} {u : Bool} {m : ParserMembers} {n : Nat} {rest : Bytes}

/-- The text of a line that is not the continuation of another one. -/
def LineStart (s : Bytes) : Prop := ∃ b v, s = b :: v ∧ ¬Blank b

theorem not_blank_of_token {c : UInt8} (h : token c ≠ 0) : ¬Blank c := by
  rintro (rfl | rfl)
  · exact h rfl
  · exact h rfl

/-! ### Names -/

/-- The first character of a name. -/
theorem byteStep_nameFirst {c : UInt8} (hn : n < maxHeaderSize) (hc : token c ≠ 0) :
    byteStep (parserAt .headerFieldStart u m n) c =
      (parserAt .headerField u { m with index := 0, headerState := firstHeader (token c) } (n + 1),
        [.mark .headerField, .move [c]], none) := by
  obtain ⟨hcr, hlf, -⟩ := token_spec c hc
  rw [byteStep_parserAt _ rfl rfl hn]
  have hcase : headerFieldStartCase (parserAt .headerFieldStart u m (n + 1)) c =
      Op.before (.mark .headerField) (next
        (parserAt .headerField u { m with index := 0, headerState := firstHeader (token c) }
          (n + 1))) := by
    rw [headerFieldStartCase, if_neg hcr, if_neg hlf, if_neg hc]
    rfl
  exact congrArg (passed c) hcase

/-- The colon behind a name. -/
theorem byteStep_colon (hn : n < maxHeaderSize) :
    byteStep (parserAt .headerField u m n) 0x3A =
      (parserAt .headerValueDiscardWs u m (n + 1), [.data .headerField, .move [0x3A]], none) := by
  have hcount := countByte_counted (p := parserAt .headerField u m n) rfl m hn.le
  rw [if_neg hn.ne] at hcount
  have hstep : countByte (parserAt .headerField u m n) = next (parserAt .headerField u m (n + 1)) :=
    hcount
  rw [byteStep, hstep, next_andThen, byteSwitch_headerField rfl]
  rfl

/-- **The name of a field**, and its colon. -/
theorem reports_name {name : Bytes} (hne : name ≠ []) (hname : ∀ c ∈ name, token c ≠ 0)
    (hn : n + name.length < maxHeaderSize) (rest : Bytes) :
    ∃ i st, (headerKind name).Begins st ∧
      Reports (parserAt .headerFieldStart u m n) (name ++ [0x3A]) rest [.headerField name]
        (parserAt .headerValueDiscardWs u (named m (name.map token) i st)
          (n + name.length + 1)) := by
  obtain ⟨c, w, rfl⟩ := List.exists_cons_of_ne_nil hne
  obtain ⟨i, st, hbegins, hfold⟩ := foldlM_name m hname
  rw [List.length_cons] at hn ⊢
  refine ⟨i, st, hbegins, ?_⟩
  have hrun := run_taken (steps_nameChar (p := parserAt .headerField u m 0) rfl) hfold
    (show n + 1 + w.length ≤ maxHeaderSize by omega)
  have hall := Reports.element
    (byteStep_nameFirst (u := u) (m := m) (n := n) (by omega) (hname c List.mem_cons_self)) hrun
    (byteStep_colon (by omega)) rest
  rw [show n + 1 + w.length + 1 = n + (w.length + 1) + 1 by omega] at hall
  exact hall

/-- The blanks behind a colon. -/
theorem reports_blanks {blanks : Bytes} (hblanks : ∀ c ∈ blanks, Blank c)
    (hn : n + blanks.length ≤ maxHeaderSize) (rest : Bytes) :
    Reports (parserAt .headerValueDiscardWs u m n) blanks rest []
      (parserAt .headerValueDiscardWs u m (n + blanks.length)) := by
  induction blanks generalizing n with
  | nil => exact .refl _ rest
  | cons c blanks ih =>
    rw [List.length_cons] at hn ⊢
    have hcase : headerValueDiscardWsCase (parserAt .headerValueDiscardWs u m (n + 1)) c =
        next (parserAt .headerValueDiscardWs u m (n + 1)) := if_pos (hblanks c List.mem_cons_self)
    have hall := reports_goTo .headerValueDiscardWs _ rfl rfl (by omega) hcase
      (ih (fun b hb => hblanks b (List.mem_cons_of_mem c hb)) (by omega))
    rw [show n + 1 + blanks.length = n + (blanks.length + 1) by omega] at hall
    exact hall

/-! ### Values -/

theorem finishHeader_count (m : ParserMembers) (k : Nat) :
    finishHeader { m with nread := k } = { finishHeader m with nread := k } := by
  rcases m with ⟨_, hs, _⟩
  cases hs <;> rfl

/-- The byte behind a line with a value: the value counts. -/
theorem byteStep_behindValue (hn : n < maxHeaderSize) {b : UInt8} (hb : ¬Blank b) :
    byteStep (parserAt .headerValueLws u m n) b =
      byteStep (parserAt .headerFieldStart u (finishHeader m) n) b := by
  have hb' : ¬(b = 0x20 ∨ b = 0x09) := hb
  have hcase : headerValueLwsCase (parserAt .headerValueLws u m (n + 1)) b =
      headerFieldStartCase (parserAt .headerFieldStart u (finishHeader m) (n + 1)) b := by
    rw [headerValueLwsCase, if_neg hb', parserAt, parserAt, finishHeader_count]
  rw [byteStep_parserAt .headerValueLws rfl rfl hn,
    byteStep_parserAt .headerFieldStart rfl rfl hn]
  exact congrArg (passed b) hcase

/-- The byte behind a line without a value: an empty value is reported. -/
theorem byteStep_behindNoValue (hn : n < maxHeaderSize) (hst : m.headerState ≠ .contentLength)
    {b : UInt8} (hb : ¬Blank b) :
    byteStep (parserAt .headerValueDiscardLws u m n) b =
      Op.before (.mark .headerValue) (Op.before (.data .headerValue)
        (byteStep (parserAt .headerFieldStart u (finishHeader m) n) b)) := by
  have hb' : ¬(b = 0x20 ∨ b = 0x09) := hb
  have hst' : ¬(parserAt .headerValueDiscardLws u m (n + 1)).others.headerState =
    .contentLength := hst
  have hcase : headerValueDiscardLwsCase (parserAt .headerValueDiscardLws u m (n + 1)) b =
      Op.before (.mark .headerValue) (Op.before (.data .headerValue)
        (headerFieldStartCase (parserAt .headerFieldStart u (finishHeader m) (n + 1)) b)) := by
    rw [headerValueDiscardLwsCase, if_neg hb', if_neg hst', parserAt, parserAt, finishHeader_count]
  rw [byteStep_parserAt .headerValueDiscardLws rfl rfl hn,
    byteStep_parserAt .headerFieldStart rfl rfl hn]
  refine (congrArg (passed b) hcase).trans ?_
  show passed b (Op.before _ (Op.before _ (headerFieldStartCase _ b))) =
    Op.before _ (Op.before _ (passed b (headerFieldStartCase _ b)))
  generalize headerFieldStartCase _ b = r
  obtain ⟨q, os, halt⟩ := r
  cases halt <;> rfl

/-- A value, up to the end of its line. -/
theorem reports_value {f : Field} (hf : f.WfValue) (hbegins : f.kind.Begins m.headerState)
    (hadmitted : f.Admitted m) {c : UInt8} {v : Bytes} (hvalue : f.value = c :: v)
    (hc : c ≠ 0x0D ∧ c ≠ 0x0A ∧ ¬Blank c) (hn : n + v.length + 3 < maxHeaderSize)
    (hrest : LineStart rest) :
    ∃ m', clear m' = clear (f.valueEffect m) ∧
      Reports (parserAt .headerValueDiscardWs u m n) (c :: v ++ [0x0D, 0x0A]) rest
        [.headerValue (c :: v)] (parserAt .headerFieldStart u m' (n + v.length + 3)) := by
  obtain ⟨hcr, hlf, hblank⟩ := hc
  obtain ⟨m₁, m₂, hcount, hcase, hfold, hclear⟩ := f.reads hf
    (p := parserAt .headerValueDiscardWs u m (n + 1)) hbegins hadmitted hvalue
  refine ⟨finishHeader m₂, hclear.trans ?_, ?_⟩
  · rw [Field.clear_valueEffect, Field.clear_valueEffect]
    rfl
  -- the first character is marked
  have hfirst : byteStep (parserAt .headerValueDiscardWs u m n) c =
      (counted (parserAt .headerValue u m 0) m₁ (n + 1), [.mark .headerValue, .move [c]],
        none) := by
    have hm₁ : { m₁ with nread := n + 1 } = m₁ := by
      have hnread : m₁.nread = n + 1 := hcount
      rw [← hnread]
    have hblank' : ¬(c = 0x20 ∨ c = 0x09) := hblank
    have hbyte : headerValueDiscardWsCase (parserAt .headerValueDiscardWs u m (n + 1)) c =
        Op.before (.mark .headerValue)
          (next (counted (parserAt .headerValue u m 0) m₁ (n + 1))) := by
      rw [headerValueDiscardWsCase, if_neg hblank', if_neg hcr, if_neg hlf, hcase, counted, hm₁]
      rfl
    rw [byteStep_parserAt _ rfl rfl (by omega)]
    exact congrArg (passed c) hbyte
  have hrun := run_taken (steps_valueChar (p := parserAt .headerValue u m 0) rfl) hfold
    (show n + 1 + v.length ≤ maxHeaderSize by omega)
  have hend := byteStep_lineEnd (p := parserAt .headerValue u m 0) rfl m₂
    (show n + 1 + v.length < maxHeaderSize by omega) (.inl rfl)
  have helement := Reports.element (k := .headerValue) hfirst hrun hend (0x0A :: rest)
  -- behind the line feed, the value counts
  have hbehind : Reports (parserAt .headerValueLws u m₂ (n + v.length + 3)) [] rest []
      (parserAt .headerFieldStart u (finishHeader m₂) (n + v.length + 3)) := by
    obtain ⟨b, w, rfl, hb⟩ := hrest
    exact ⟨[], .of_owed (byteStep_behindValue hn hb), rfl⟩
  have hlf : Reports (parserAt .headerAlmostDone u m₂ (n + v.length + 2)) [0x0A] rest []
      (parserAt .headerFieldStart u (finishHeader m₂) (n + v.length + 3)) :=
    reports_goTo .headerAlmostDone _ rfl rfl (by omega) rfl hbehind
  rw [show n + v.length + 2 = n + 1 + v.length + 1 by omega] at hlf
  have hall := helement.append hlf
  rw [List.cons_append, List.append_assoc] at hall
  exact hall

/-- Nothing counts of a header that is not acted on. -/
theorem finishHeader_other (hst : HeaderKind.other.Begins m.headerState) : finishHeader m = m := by
  obtain ⟨hname, -⟩ := hst
  unfold finishHeader setConnectionFlag
  split
  · rename_i hchunked
    rw [hchunked] at hname
    exact absurd hname Bool.false_ne_true
  · split <;> simp_all [nameState]

/-- No value. -/
theorem reports_noValue (hst : HeaderKind.other.Begins m.headerState) (hn : n + 2 < maxHeaderSize)
    (hrest : LineStart rest) :
    Reports (parserAt .headerValueDiscardWs u m n) [0x0D, 0x0A] rest [.headerValue []]
      (parserAt .headerFieldStart u m (n + 2)) := by
  obtain ⟨b, w, rfl, hb⟩ := hrest
  have hlength : m.headerState ≠ .contentLength := fun h => by
    have hmem := hst.2
    rw [h] at hmem
    exact hmem (by decide)
  have hbehind : Reports (parserAt .headerValueDiscardLws u m (n + 2)) [] (b :: w)
      [.headerValue []] (parserAt .headerFieldStart u m (n + 2)) := by
    have hstep := byteStep_behindNoValue (u := u) hn hlength hb
    rw [finishHeader_other hst] at hstep
    exact ⟨[.mark .headerValue, .data .headerValue], .of_owed hstep, rfl⟩
  have hlf := reports_goTo .headerValueDiscardWsAlmostDone 0x0A rfl rfl (by omega)
    rfl hbehind
  exact reports_goTo .headerValueDiscardWs 0x0D rfl rfl (by omega) rfl hlf

/-! ### Lines -/

/-- No value begins with a blank, and only fields that are not acted on have none. -/
theorem Field.value_cases {f : Field} (hf : f.WfValue) :
    (∃ c v, f.value = c :: v ∧ c ≠ 0x0D ∧ c ≠ 0x0A ∧ ¬Blank c) ∨
      f.value = [] ∧ f.kind = .other ∧ ∀ m, f.valueEffect m = m := by
  have hplain : ∀ {c : UInt8} {v : Bytes}, PlainValue (c :: v) →
      c ≠ 0x0D ∧ c ≠ 0x0A ∧ ¬Blank c := by
    intro c v h
    obtain ⟨hcr, hlf, -⟩ := h.1 c List.mem_cons_self
    obtain ⟨hspace, htab⟩ := h.2 c rfl
    exact ⟨hcr, hlf, not_or.mpr ⟨hspace, htab⟩⟩
  cases f with
  | other name value =>
    cases value with
    | nil => exact .inr ⟨rfl, rfl, fun _ => rfl⟩
    | cons c v => exact .inl ⟨c, v, rfl, hplain hf⟩
  | upgrade name value =>
    obtain ⟨c, v, rfl⟩ := List.exists_cons_of_ne_nil hf.2
    exact .inl ⟨c, v, rfl, hplain hf.1⟩
  | list kind name first behind others =>
    obtain ⟨-, hfirst, -, -⟩ := hf
    obtain ⟨c, w, rfl⟩ := List.exists_cons_of_ne_nil hfirst.ne_nil
    have htoken := hfirst.token c List.mem_cons_self
    obtain ⟨hcr, hlf, -⟩ := token_spec c htoken
    exact .inl ⟨c, _, rfl, hcr, hlf, not_blank_of_token htoken⟩
  | contentLength name digits =>
    obtain ⟨hne, hnum, -⟩ := hf
    obtain ⟨c, v, rfl⟩ := List.exists_cons_of_ne_nil hne
    have hc := hnum c List.mem_cons_self
    obtain ⟨hcr, hlf, hspace, -⟩ := isNum_spec c hc
    have htab : c ≠ 0x09 := by
      rintro rfl
      exact absurd hc (by decide)
    exact .inl ⟨c, v, rfl, hcr, hlf, not_or.mpr ⟨hspace, htab⟩⟩

/-- **A line**: the parser reports the field, and does with it what the field means. -/
theorem reports_line {l : FieldLine} (hwf : l.Wf) (hadmitted : l.field.Admitted m)
    (hn : n + l.text.length < maxHeaderSize) (hrest : LineStart rest) :
    ∃ m', clear m' = clear (l.field.effect m) ∧
      Reports (parserAt .headerFieldStart u m n) l.text rest l.events
        (parserAt .headerFieldStart u m' (n + l.text.length)) := by
  obtain ⟨hblanks, hne, htoken, hkind, hvalue⟩ := hwf
  have htext : l.text =
      (l.field.name ++ [0x3A]) ++ (l.blanks ++ (l.field.value ++ [0x0D, 0x0A])) := by
    rw [FieldLine.text, List.append_assoc]
    rfl
  have hlen : l.text.length =
      l.field.name.length + 1 + l.blanks.length + l.field.value.length + 2 := by
    rw [htext]
    simp only [List.length_append, List.length_cons, List.length_nil]
    omega
  rw [hlen] at hn ⊢
  -- the name says what the value is read for
  obtain ⟨i, st, hbegins, hname⟩ := reports_name (u := u) (m := m) (n := n) hne htoken (by omega)
    ((l.blanks ++ (l.field.value ++ [0x0D, 0x0A])) ++ rest)
  rw [hkind] at hbegins
  generalize hnamed : named m (l.field.name.map RequestParser.token) i st = m₁ at hname
  have hclear : clear m₁ = clear { m with
      usesTransferEncoding := m.usesTransferEncoding ||
        decide (transferEncodingWord <+: l.field.name.map RequestParser.token) } := by
    rw [← hnamed]
    rfl
  have hstate : m₁.headerState = st := by
    rw [← hnamed]
    rfl
  have hblank := reports_blanks (u := u) (m := m₁) (n := n + l.field.name.length + 1) hblanks
    (by omega) ((l.field.value ++ [0x0D, 0x0A]) ++ rest)
  have heffect : ∀ m₂, clear m₂ = clear (l.field.valueEffect m₁) →
      clear m₂ = clear (l.field.effect m) := by
    intro m₂ h
    rw [h, Field.clear_valueEffect, hclear, Field.effect, Field.clear_valueEffect]
  rcases Field.value_cases hvalue with ⟨c, v, hcons, hc⟩ | ⟨hnil, hother, hsame⟩
  · have hadmitted₁ : l.field.Admitted m₁ := by
      rw [← Field.admitted_clear, hclear, Field.admitted_clear]
      exact hadmitted
    rw [hcons, List.length_cons] at hn ⊢
    obtain ⟨m₂, hm₂, hreads⟩ := reports_value (u := u)
      (n := n + l.field.name.length + 1 + l.blanks.length) hvalue (hstate ▸ hbegins) hadmitted₁
      hcons hc (by omega) hrest
    rw [hcons] at hblank hname htext
    refine ⟨m₂, heffect m₂ hm₂, ?_⟩
    have hall := hname.append (hblank.append hreads)
    rw [← htext, show n + l.field.name.length + 1 + l.blanks.length + v.length + 3 =
      n + (l.field.name.length + 1 + l.blanks.length + (v.length + 1) + 2) by omega] at hall
    rw [FieldLine.events, hcons]
    exact hall
  · rw [hnil, List.length_nil] at hn ⊢
    have hreads := reports_noValue (u := u) (m := m₁)
      (n := n + l.field.name.length + 1 + l.blanks.length) (hstate ▸ hother ▸ hbegins) (by omega)
      hrest
    rw [hnil] at hblank hname htext
    refine ⟨m₁, heffect m₁ (by rw [hsame]), ?_⟩
    have hall := hname.append (hblank.append hreads)
    rw [← htext, show n + l.field.name.length + 1 + l.blanks.length + 2 =
      n + (l.field.name.length + 1 + l.blanks.length + 0 + 2) by omega] at hall
    rw [FieldLine.events, hnil]
    exact hall

theorem lineStart_lines {ls : List FieldLine} (hwf : LinesWf m ls) (hrest : LineStart rest) :
    LineStart (linesText ls ++ rest) := by
  cases ls with
  | nil => exact hrest
  | cons l ls =>
    obtain ⟨⟨-, hne, htoken, -⟩, -⟩ := hwf
    obtain ⟨c, name, hname⟩ := List.exists_cons_of_ne_nil hne
    rw [hname] at htoken
    refine ⟨c,
      name ++ 0x3A :: (l.blanks ++ (l.field.value ++ [0x0D, 0x0A])) ++ linesText ls ++ rest,
      ?_, not_blank_of_token (htoken c List.mem_cons_self)⟩
    rw [linesText, List.flatMap_cons, FieldLine.text, hname]
    rfl

/-- **Several lines**: each of them is reported, and all of them have their effect. -/
theorem reports_lines {ls : List FieldLine} {m₀ : ParserMembers} (hwf : LinesWf m₀ ls)
    (hm : clear m = m₀) (hn : n + (linesText ls).length < maxHeaderSize) (hrest : LineStart rest) :
    ∃ m', clear m' = linesEffect m₀ ls ∧
      Reports (parserAt .headerFieldStart u m n) (linesText ls) rest (linesEvents ls)
        (parserAt .headerFieldStart u m' (n + (linesText ls).length)) := by
  induction ls generalizing m n m₀ with
  | nil => exact ⟨m, hm, .refl _ rest⟩
  | cons l ls ih =>
    obtain ⟨hl, hadmitted, hls⟩ := hwf
    have hlen : (linesText (l :: ls)).length = l.text.length + (linesText ls).length :=
      List.length_append
    rw [hlen] at hn ⊢
    have hadmitted₁ : l.field.Admitted m := by
      rw [← Field.admitted_clear, hm]
      exact hadmitted
    obtain ⟨m₁, hm₁, hline⟩ := reports_line (u := u) (n := n) hl hadmitted₁ (by omega)
      (lineStart_lines hls hrest)
    rw [Field.clear_effect, hm] at hm₁
    obtain ⟨m', hm', hlines⟩ := ih hls hm₁ (n := n + l.text.length) (by omega)
    refine ⟨m', hm', ?_⟩
    have hall := hline.append hlines
    rw [Nat.add_assoc] at hall
    exact hall

end RequestParser

end MyWebSocket
