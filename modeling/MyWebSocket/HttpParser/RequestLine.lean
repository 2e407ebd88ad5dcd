import MyWebSocket.HttpParser.Wire

namespace MyWebSocket

open Transducer Transducer.Outcome

/-!
# The request line is parsed as it is sent

The parser on the parts of a request: `Reports` says that it makes the callbacks of a part and no
others, and is then ready for the next one.

* `Reports` — the parser reads a part and reports it; nothing is marked before or behind it;
* `reports_method`, `reports_target`, `reports_version` — the parts of the request line;
* `reports_requestLine` — the line.
-/

namespace RequestParser

/-! ### Parts of a request -/

/-- No mark is set. -/
def Marks.unset : Marks := ⟨none, none, none, none⟩

/-- In front of `rest`, the parser reads `w`, makes the callbacks `es` and goes on from `q`; no
    mark is set before and behind. -/
def Reports (p : HttpParserData) (w rest : Bytes) (es : List ReqEvent) (q : HttpParserData) :
    Prop :=
  ∃ os, byteMachine.Passes p w rest os q ∧ Marks.unset.run os = (Marks.unset, es)

variable {p q r : HttpParserData} {w v rest : Bytes} {es es' : List ReqEvent}

theorem Reports.refl (p : HttpParserData) (rest : Bytes) : Reports p [] rest [] p :=
  ⟨[], .refl p rest, rfl⟩

theorem Reports.append (h : Reports p w (v ++ rest) es q) (h' : Reports q v rest es' r) :
    Reports p (w ++ v) rest (es ++ es') r := by
  obtain ⟨os, hpass, hmarks⟩ := h
  obtain ⟨os', hpass', hmarks'⟩ := h'
  refine ⟨os ++ os', hpass.append hpass', ?_⟩
  rw [Marks.run_append, hmarks, hmarks']

/-- A byte that makes no callback. -/
theorem Reports.step {ch : UInt8} (h : byteStep p ch = (q, [.move [ch]], none)) (rest : Bytes) :
    Reports p [ch] rest [] q :=
  ⟨_, .of_step h rest, rfl⟩

theorem Reports.cons {ch : UInt8} (h : byteStep p ch = (q, [.move [ch]], none))
    (h' : Reports q w rest es r) : Reports p (ch :: w) rest es r :=
  (Reports.step h (w ++ rest)).append h'

/-- Bytes that make no callback. -/
theorem Reports.moves
    (h : byteMachine.run p w = ⟨q, w.flatMap fun b => [.move [b]], none, w.length⟩) (rest : Bytes) :
    Reports p w rest [] q :=
  ⟨_, .of_run h rest, same_moves w Marks.unset⟩

/-- The operations of an element, from its first byte to the one behind it. -/
theorem run_element (k : DataFor) (c b : UInt8) (w : Bytes) :
    Marks.unset.run ([.mark k, .move [c]] ++ (w.flatMap fun b => [.move [b]]) ++
      [.data k, .move [b]]) = (Marks.unset, [k.event (c :: w)]) := by
  have hsame := ((Same.refl [.mark k, .move [c]]).append (same_moves w)).append
    (Same.refl [.data k, .move [b]])
  rw [hsame Marks.unset]
  cases k <;> rfl

/-- **An element**, from its first byte to the one behind it. -/
theorem Reports.element {k : DataFor} {p₁ p₂ : HttpParserData} {c b : UInt8}
    (hfirst : byteStep p c = (p₁, [.mark k, .move [c]], none))
    (hrest : byteMachine.run p₁ w = ⟨p₂, w.flatMap fun b => [.move [b]], none, w.length⟩)
    (hend : byteStep p₂ b = (q, [.data k, .move [b]], none)) (rest : Bytes) :
    Reports p (c :: (w ++ [b])) rest [k.event (c :: w)] q := by
  refine ⟨_, ?_, run_element k c b w⟩
  have hbytes : c :: (w ++ [b]) = [c] ++ w ++ [b] := rfl
  rw [hbytes]
  exact ((Passes.of_step hfirst _).append (.of_run hrest _)).append (.of_step hend rest)

/-! ### States that count -/

/-- The parser in a state, with `n` bytes counted. -/
def parserAt (st : ParserState) (u : Bool) (m : ParserMembers) (n : Nat) : HttpParserData :=
  ⟨st, .ok, u, { m with nread := n }⟩

variable {st : ParserState} {u : Bool} {m : ParserMembers} {n : Nat}

/-- A byte of a header. -/
theorem byteStep_parserAt (st : ParserState) (hheader : parsingHeader st = true)
    (hover : runsOver st = false) (hn : n < maxHeaderSize) (ch : UInt8) :
    byteStep (parserAt st u m n) ch = passed ch (byteCase (parserAt st u m (n + 1)) ch) := by
  have hcount := countByte_counted (p := parserAt st u m n) hheader m hn.le
  rw [if_neg hn.ne] at hcount
  have hstep : countByte (parserAt st u m n) = next (parserAt st u m (n + 1)) := hcount
  rw [byteStep, hstep, next_andThen, byteSwitch_eq hover]

/-- A byte that only leads to another state. -/
theorem reports_goTo (st : ParserState) (ch : UInt8) {st' : ParserState} {m' : ParserMembers}
    (hheader : parsingHeader st = true) (hover : runsOver st = false) (hn : n < maxHeaderSize)
    (hcase : byteCase (parserAt st u m (n + 1)) ch = next (parserAt st' u m' (n + 1)))
    (h : Reports (parserAt st' u m' (n + 1)) w rest es q) :
    Reports (parserAt st u m n) (ch :: w) rest es q := by
  refine .cons ?_ h
  rw [byteStep_parserAt _ hheader hover hn, hcase]
  rfl

/-! ### The request line -/

/-- A character of a method, with the method it may become and its position. -/
def methodChar (x : HttpMethod × Nat) (ch : UInt8) : Option (HttpMethod × Nat) :=
  match (methodString x.1 ++ [0])[x.2]? with
  | none => none
  | some b =>
    if ch = 0 ∨ ch = 0x20 ∧ b = 0 then none
    else if ch = b then some (x.1, (x.2 + 1) % 32)
    else if (0x41 ≤ ch ∧ ch ≤ 0x5A) ∨ ch = 0x2D then
      (otherMethod x.1 x.2 ch).map fun method => (method, (x.2 + 1) % 32)
    else none

/-- The parser within a method. -/
def inMethod (u : Bool) (m : ParserMembers) (x : HttpMethod × Nat) (n : Nat) : HttpParserData :=
  parserAt .reqMethod u { m with method := x.1, index := x.2 } n

theorem byteStep_inMethod {x x' : HttpMethod × Nat} {ch : UInt8} (hn : n < maxHeaderSize)
    (h : methodChar x ch = some x') :
    byteStep (inMethod u m x n) ch = (inMethod u m x' (n + 1), [.move [ch]], none) := by
  have hcase : reqMethodCase (inMethod u m x (n + 1)) ch = next (inMethod u m x' (n + 1)) := by
    unfold methodChar at h
    unfold reqMethodCase
    split at h
    · cases h
    · rename_i b hb
      have hget : (methodString (inMethod u m x (n + 1)).others.method ++
          [0])[(inMethod u m x (n + 1)).others.index]? = some b := hb
      rw [hget]
      split at h
      · cases h
      · rename_i hend
        obtain ⟨hzero, hspace⟩ := not_or.mp hend
        rw [if_neg hzero]
        dsimp only
        rw [if_neg hspace]
        split at h
        · rename_i hsame
          cases h
          rw [if_pos hsame]
          rfl
        · rename_i hother
          split at h
          · rename_i hletter
            obtain ⟨method, hmethod, heq⟩ := Option.map_eq_some_iff.mp h
            cases heq
            have hfound : otherMethod (inMethod u m x (n + 1)).others.method
                (inMethod u m x (n + 1)).others.index ch = some method := hmethod
            rw [if_neg hother, if_pos hletter, hfound]
            rfl
          · cases h
  rw [inMethod, byteStep_parserAt _ rfl rfl hn]
  exact congrArg (passed ch) hcase

/-- The methods are told apart letter by letter. -/
theorem methodString_spec (method : HttpMethod) :
    ∃ c w x, methodString method = c :: w ∧ isAlpha c = true ∧ c ≠ 0x0D ∧ c ≠ 0x0A ∧
      firstMethod c = some x ∧
      w.foldlM methodChar (x, 1) = some (method, (methodString method).length) := by
  cases method <;> exact ⟨_, _, _, rfl, by decide, by decide, by decide, rfl, by decide⟩

/-- The members when a request begins. -/
def newMembers (m : ParserMembers) : ParserMembers :=
  { m with flags := .none, usesTransferEncoding := false, contentLength := ullongMax }

/-- The first letter of a method. -/
theorem byteStep_startReq {c : UInt8} {x : HttpMethod} (hn : n < maxHeaderSize)
    (halpha : isAlpha c = true) (hcr : c ≠ 0x0D) (hlf : c ≠ 0x0A)
    (hfirst : firstMethod c = some x) :
    byteStep (parserAt .startReq u m n) c =
      (inMethod u (newMembers m) (x, 1) (n + 1), [.notify .messageBegin, .move [c]], none) := by
  rw [byteStep_parserAt _ rfl rfl hn]
  have hcase : startReqCase (parserAt .startReq u m (n + 1)) c =
      Op.before (.notify .messageBegin) (next (inMethod u (newMembers m) (x, 1) (n + 1))) := by
    rw [startReqCase, if_neg (not_or.mpr ⟨hcr, hlf⟩), halpha]
    simp only [Bool.not_true, Bool.false_eq_true, if_false, hfirst]
    rfl
  exact congrArg (passed c) hcase

/-- The blank behind a method. -/
theorem byteStep_methodEnd (method : HttpMethod) (hn : n < maxHeaderSize) :
    byteStep (inMethod u m (method, (methodString method).length) n) 0x20 =
      (parserAt .reqSpacesBeforeUrl u
        { m with method := method, index := ((methodString method).length + 1) % 32 } (n + 1),
        [.move [0x20]], none) := by
  rw [inMethod, byteStep_parserAt _ rfl rfl hn]
  have hget : (methodString method ++ [0])[(methodString method).length]? = some 0 := by simp
  have hcase : reqMethodCase (inMethod u m (method, (methodString method).length) (n + 1)) 0x20 =
      next (parserAt .reqSpacesBeforeUrl u
        { m with method := method, index := ((methodString method).length + 1) % 32 } (n + 1)) := by
    rw [reqMethodCase, if_neg (by decide)]
    show (match (methodString method ++ [0])[(methodString method).length]? with
      | none => _
      | some b => _) = _
    rw [hget]
    rfl
  exact congrArg (passed 0x20) hcase

/-- **The method**, and the blank behind it. -/
theorem reports_method (method : HttpMethod) (u : Bool) (m : ParserMembers) {n : Nat}
    (hn : n + (methodString method).length < maxHeaderSize) (rest : Bytes) :
    Reports (parserAt .startReq u m n) (methodString method ++ [0x20]) rest [.messageBegin]
      (parserAt .reqSpacesBeforeUrl u
        { newMembers m with
          method := method, index := ((methodString method).length + 1) % 32 }
        (n + (methodString method).length + 1)) := by
  obtain ⟨c, w, x, hstring, halpha, hcr, hlf, hfirst, hfold⟩ := methodString_spec method
  have hlen : (methodString method).length = w.length + 1 := by rw [hstring, List.length_cons]
  have hbegin : Reports (parserAt .startReq u m n) [c] (w ++ ([0x20] ++ rest)) [.messageBegin]
      (inMethod u (newMembers m) (x, 1) (n + 1)) :=
    ⟨_, .of_step (byteStep_startReq (by omega) halpha hcr hlf hfirst) _, rfl⟩
  have hrun := run_of_foldlM byteMachine (inMethod u (newMembers m)) (fun b => [.move [b]])
    maxHeaderSize (fun x x' ch k hk hchar => byteStep_inMethod hk hchar) hfold
    (show n + 1 + w.length ≤ maxHeaderSize by omega)
  have hcount : n + 1 + w.length = n + (methodString method).length := by omega
  rw [hcount] at hrun
  have hend := Reports.step (byteStep_methodEnd (u := u) (m := newMembers m) method hn) rest
  have hall := (hbegin.append (.moves hrun ([0x20] ++ rest))).append hend
  have hbytes : [c] ++ w = methodString method := hstring.symm
  rw [hbytes] at hall
  exact hall

/-- The state behind a character of a url that goes on. -/
def urlNext (st : ParserState) (c : UInt8) : Option ParserState :=
  if inUrl st = true ∧ parseUrlChar st c ≠ .dead then some (parseUrlChar st c) else none

theorem not_line_of_parseUrlChar {c : UInt8} (h : parseUrlChar st c ≠ .dead) :
    c ≠ 0x20 ∧ c ≠ 0x0D ∧ c ≠ 0x0A := by
  unfold parseUrlChar at h
  split at h
  · exact absurd rfl h
  · rename_i hc
    simp only [not_or] at hc
    exact ⟨hc.1, hc.2.1, hc.2.2.1⟩

/-- The character of a url. -/
theorem urlChar_parserAt {c : UInt8} (h : parseUrlChar st c ≠ .dead) :
    urlChar (parserAt st u m n) c = next (parserAt (parseUrlChar st c) u m n) := by
  unfold urlChar
  exact if_neg h

theorem byteStep_inUrl (hn : n < maxHeaderSize) {st' : ParserState} {c : UInt8}
    (h : urlNext st c = some st') :
    byteStep (parserAt st u m n) c = (parserAt st' u m (n + 1), [.move [c]], none) := by
  unfold urlNext at h
  split at h
  · rename_i hurl
    cases h
    obtain ⟨hurl, hparse⟩ := hurl
    obtain ⟨hspace, hcr, hlf⟩ := not_line_of_parseUrlChar hparse
    have hcase : byteCase (parserAt st u m (n + 1)) c =
        next (parserAt (parseUrlChar st c) u m (n + 1)) := by
      rw [← urlChar_parserAt hparse]
      have hstart : urlStartCase (parserAt st u m (n + 1)) c =
          urlChar (parserAt st u m (n + 1)) c := if_neg (by simp [hspace, hcr, hlf])
      have hgoes : urlCase (parserAt st u m (n + 1)) c =
          urlChar (parserAt st u m (n + 1)) c := by
        rw [urlCase, if_neg hspace, if_neg (by simp [hcr, hlf])]
      cases st <;> first
        | exact hstart
        | exact hgoes
        | cases hurl
    have hstate : parsingHeader st = true ∧ runsOver st = false := by
      cases st <;> first
        | exact ⟨rfl, rfl⟩
        | cases hurl
    rw [byteStep_parserAt _ hstate.1 hstate.2 hn, hcase]
    rfl
  · cases h

theorem parseUrlChar_dead (c : UInt8) : parseUrlChar .dead c = .dead := by
  unfold parseUrlChar
  split <;> rfl

/-- A url that ends in a state of urls has no error within it. -/
theorem foldlM_urlNext {w : Bytes} (hurl : inUrl st = true)
    (h : w.foldl parseUrlChar st ≠ .dead) :
    w.foldlM urlNext st = some (w.foldl parseUrlChar st) := by
  induction w generalizing st with
  | nil => rfl
  | cons c w ih =>
    have hparse : parseUrlChar st c ≠ .dead := by
      intro hdead
      rw [List.foldl_cons, hdead] at h
      exact h (List.foldl_fixed' parseUrlChar_dead w)
    have hnext : urlNext st c = some (parseUrlChar st c) := if_pos ⟨hurl, hparse⟩
    rw [List.foldlM_cons, hnext, List.foldl_cons]
    rcases parseUrlChar_spec st c with hnone | ⟨hurl', -⟩
    · exact absurd hnone hparse
    · exact ih hurl' h

/-- The first character of a url. -/
theorem byteStep_urlFirst {c : UInt8} (hn : n < maxHeaderSize)
    (hparse : parseUrlChar (urlStart m.method) c ≠ .dead) :
    byteStep (parserAt .reqSpacesBeforeUrl u m n) c =
      (parserAt (parseUrlChar (urlStart m.method) c) u m (n + 1), [.mark .url, .move [c]],
        none) := by
  have hstart : (if (parserAt .reqSpacesBeforeUrl u m (n + 1)).others.method = .connect
      then { parserAt .reqSpacesBeforeUrl u m (n + 1) with state := .reqServerStart }
      else parserAt .reqSpacesBeforeUrl u m (n + 1)) =
        parserAt (urlStart m.method) u m (n + 1) := by
    show (if m.method = .connect then _ else _) =
      parserAt (if m.method = .connect then _ else _) _ _ _
    split <;> rfl
  have hcase : reqSpacesBeforeUrlCase (parserAt .reqSpacesBeforeUrl u m (n + 1)) c =
      Op.before (.mark .url)
        (next (parserAt (parseUrlChar (urlStart m.method) c) u m (n + 1))) := by
    rw [reqSpacesBeforeUrlCase, if_neg (not_line_of_parseUrlChar hparse).1, hstart,
      urlChar_parserAt hparse]
  rw [byteStep_parserAt _ rfl rfl hn]
  exact congrArg (passed c) hcase

/-- The blank behind a url. -/
theorem byteStep_urlEnd (hends : endsUrl st = true) (hn : n < maxHeaderSize) :
    byteStep (parserAt st u m n) 0x20 =
      (parserAt .reqHttpStart u m (n + 1), [.data .url, .move [0x20]], none) := by
  have hstate : parsingHeader st = true ∧ runsOver st = false ∧
      byteCase (parserAt st u m (n + 1)) 0x20 = urlCase (parserAt st u m (n + 1)) 0x20 := by
    cases st <;> first
      | exact ⟨rfl, rfl, rfl⟩
      | cases hends
  obtain ⟨hheader, hover, hcase⟩ := hstate
  rw [byteStep_parserAt _ hheader hover hn, hcase]
  rfl

/-- **The target**, and the blank behind it. -/
theorem reports_target {target : Bytes}
    (htarget : endsUrl (target.foldl parseUrlChar (urlStart m.method)) = true)
    (hn : n + target.length < maxHeaderSize) (rest : Bytes) :
    Reports (parserAt .reqSpacesBeforeUrl u m n) (target ++ [0x20]) rest [.url target]
      (parserAt .reqHttpStart u m (n + target.length + 1)) := by
  obtain ⟨c, w, rfl⟩ : ∃ c w, target = c :: w := by
    apply List.exists_cons_of_ne_nil
    rintro rfl
    unfold urlStart at htarget
    split at htarget <;> cases htarget
  rw [List.foldl_cons] at htarget
  rw [List.length_cons] at hn ⊢
  -- the error state is not left again
  have hend : w.foldl parseUrlChar (parseUrlChar (urlStart m.method) c) ≠ .dead := by
    intro hdead
    rw [hdead] at htarget
    cases htarget
  have hparse : parseUrlChar (urlStart m.method) c ≠ .dead := fun hdead =>
    hend (hdead ▸ List.foldl_fixed' parseUrlChar_dead w)
  have hurl : inUrl (parseUrlChar (urlStart m.method) c) = true := by
    rcases parseUrlChar_spec (urlStart m.method) c with hdead | ⟨hurl, -⟩
    · exact absurd hdead hparse
    · exact hurl
  have hrun := run_of_foldlM byteMachine (fun st n => parserAt st u m n) (fun b => [.move [b]])
    maxHeaderSize (fun _ _ _ _ hk hchar => byteStep_inUrl hk hchar) (foldlM_urlNext hurl hend)
    (show n + 1 + w.length ≤ maxHeaderSize by omega)
  have hall := Reports.element (byteStep_urlFirst (n := n) (u := u) (by omega) hparse) hrun
    (byteStep_urlEnd htarget (by omega)) rest
  rw [show n + 1 + w.length + 1 = n + (w.length + 1) + 1 by omega] at hall
  exact hall

/-- **The version**, up to the end of the line. -/
theorem reports_version {major minor : UInt8} (hmajor : isNum major = true)
    (hminor : isNum minor = true) (hn : n + 10 ≤ maxHeaderSize) (rest : Bytes) :
    Reports (parserAt .reqHttpStart u m n) (str "HTTP/" ++ [major, 0x2E, minor, 0x0D, 0x0A]) rest []
      (parserAt .headerFieldStart u { m with httpMajor := digit major, httpMinor := digit minor }
        (n + 10)) := by
  -- each byte leads to the next state
  have hline := (Reports.refl (parserAt .headerFieldStart u
    { m with httpMajor := digit major, httpMinor := digit minor } (n + 10)) rest)
  have hlf := reports_goTo .reqLineAlmostDone 0x0A rfl rfl (by omega) rfl hline
  have hcr := reports_goTo .reqHttpEnd 0x0D rfl rfl (by omega) rfl hlf
  have hnumber := reports_goTo .reqHttpMinor minor
    (m := { m with httpMajor := digit major }) rfl rfl (by omega)
    (show reqHttpMinorCase _ _ = _ by rw [reqHttpMinorCase, hminor]; rfl) hcr
  have hdot := reports_goTo .reqHttpDot 0x2E rfl rfl (by omega) rfl hnumber
  have hfirst := reports_goTo .reqHttpMajor major (m := m) rfl rfl (by omega)
    (show reqHttpMajorCase _ _ = _ by rw [reqHttpMajorCase, hmajor]; rfl) hdot
  have hslash := reports_goTo .reqHttpHTTP 0x2F rfl rfl (by omega) rfl hfirst
  have hp := reports_goTo .reqHttpHTT 0x50 rfl rfl (by omega) rfl hslash
  have ht := reports_goTo .reqHttpHT 0x54 rfl rfl (by omega) rfl hp
  have ht' := reports_goTo .reqHttpH 0x54 rfl rfl (by omega) rfl ht
  exact reports_goTo .reqHttpStart 0x48 rfl rfl (by omega) rfl ht'

/-- A parser of requests is strict. -/
structure Strict (m : ParserMembers) : Prop where
  headers : m.lenientHttpHeaders = false
  lengths : m.allowChunkedLength = false

/-- **The request line.**  Nothing of what the parser knew is left behind it. -/
theorem reports_requestLine {r : SentRequest}
    (htarget : endsUrl (r.target.foldl parseUrlChar (urlStart r.method)) = true)
    (hmajor : isNum r.major = true) (hminor : isNum r.minor = true) (hstrict : Strict m)
    (hn : n + r.requestLine.length ≤ maxHeaderSize) (rest : Bytes) :
    ∃ m', clear m' = lineMembers r.method r.major r.minor ∧
      Reports (parserAt .startReq u m n) r.requestLine rest [.messageBegin, .url r.target]
        (parserAt .headerFieldStart u m' (n + r.requestLine.length)) := by
  have hline : r.requestLine = (methodString r.method ++ [0x20]) ++ ((r.target ++ [0x20]) ++
      (str "HTTP/" ++ [r.major, 0x2E, r.minor, 0x0D, 0x0A])) := by
    simp only [SentRequest.requestLine, show str " HTTP/" = [0x20] ++ str "HTTP/" from rfl,
      List.append_assoc, List.cons_append, List.nil_append]
  have hlen : r.requestLine.length =
      (methodString r.method).length + 1 + (r.target.length + 1) + 10 := by
    rw [hline]
    simp only [List.length_append, List.length_cons, List.length_nil,
      show (str "HTTP/").length = 5 from rfl]
    omega
  rw [hlen] at hn ⊢
  have hmethod := reports_method r.method u m (n := n) (by omega) ((r.target ++ [0x20]) ++
    (str "HTTP/" ++ [r.major, 0x2E, r.minor, 0x0D, 0x0A]) ++ rest)
  have hurl := reports_target (u := u) (n := n + (methodString r.method).length + 1)
    (m := { newMembers m with
      method := r.method, index := ((methodString r.method).length + 1) % 32 })
    htarget (by omega) (str "HTTP/" ++ [r.major, 0x2E, r.minor, 0x0D, 0x0A] ++ rest)
  have hversion := reports_version (u := u)
    (n := n + (methodString r.method).length + 1 + r.target.length + 1)
    (m := { newMembers m with
      method := r.method, index := ((methodString r.method).length + 1) % 32 })
    hmajor hminor (by omega) rest
  refine ⟨{ newMembers m with
    method := r.method, index := ((methodString r.method).length + 1) % 32,
    httpMajor := digit r.major, httpMinor := digit r.minor }, ?_, ?_⟩
  · obtain ⟨hheaders, hlengths⟩ := hstrict
    rw [clear, newMembers, hheaders, hlengths]
    rfl
  · have hall := hmethod.append (hurl.append hversion)
    rw [← hline, show n + (methodString r.method).length + 1 + r.target.length + 1 + 10 =
      n + ((methodString r.method).length + 1 + (r.target.length + 1) + 10) by omega] at hall
    exact hall

end RequestParser

end MyWebSocket
