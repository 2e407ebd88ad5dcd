import MyWebSocket.Library.Regex

/-!
# The syntax of regular expressions

The ECMAScript grammar of `std::regex` over bytes, in the "C" locale: `compile` reads a text one
character at a time and gives the expression with its number of groups, or `none` where the
constructor throws `std::regex_error`.  As in the usual implementations `]` and `}` stand for
themselves outside brackets and counts, the ends of a range are compared as signed characters,
and a collating element is a single character.

A much smaller machine, `Lex`, reads any text at all and only follows what decides whether a
parenthesis opens a capture group: escapes and brackets.  On what compiles the two agree
(`groups_compile`).
-/

namespace Regex

/-! ### Characters -/

def isDigit (c : UInt8) : Bool := 0x30 ≤ c && c ≤ 0x39
def isUpper (c : UInt8) : Bool := 0x41 ≤ c && c ≤ 0x5A
def isLower (c : UInt8) : Bool := 0x61 ≤ c && c ≤ 0x7A
def isAlpha (c : UInt8) : Bool := isUpper c || isLower c
def isAlnum (c : UInt8) : Bool := isAlpha c || isDigit c
def isSpace (c : UInt8) : Bool := c == 0x20 || (0x09 ≤ c && c ≤ 0x0D)
def isGraph (c : UInt8) : Bool := 0x21 ≤ c && c ≤ 0x7E

/-- `\w`. -/
def isWord (c : UInt8) : Bool := isAlnum c || c == 0x5F

/-- The characters `.` does not match. -/
def isNewline (c : UInt8) : Bool := c == 0x0A || c == 0x0D

/-- The value of a hexadecimal digit. -/
def hexValue (c : UInt8) : Option Nat :=
  if isDigit c then some (c.toNat - 0x30)
  else if 0x41 ≤ c && c ≤ 0x46 then some (c.toNat - 0x37)
  else if 0x61 ≤ c && c ≤ 0x66 then some (c.toNat - 0x57)
  else none

/-- `regex_traits::lookup_classname`. -/
def lookupClassname (name : List UInt8) : Option (UInt8 → Bool) :=
  [("alnum", isAlnum), ("alpha", isAlpha), ("blank", fun c => c == 0x20 || c == 0x09),
    ("cntrl", fun c => c < 0x20 || c == 0x7F), ("digit", isDigit), ("d", isDigit),
    ("graph", isGraph), ("lower", isLower), ("print", fun c => isGraph c || c == 0x20),
    ("punct", fun c => isGraph c && !isAlnum c), ("space", isSpace), ("s", isSpace),
    ("upper", isUpper), ("w", isWord),
    ("xdigit", fun c => (hexValue c).isSome)].findSome? fun e =>
      if e.1.toList.map (fun c => UInt8.ofNat c.toNat) = name then some e.2 else none

/-- The rounds that `*`, `+` and `?` ask for. -/
def quantifier (c : UInt8) : Option (Nat × Option Nat) :=
  [(0x2A, 0, none), (0x2B, 1, none), (0x3F, 0, some 1)].lookup c

/-- The characters that `\0`, `\f`, `\n`, `\r`, `\t` and `\v` stand for. -/
def escapedChar (c : UInt8) : Option UInt8 :=
  [(0x30, 0x00), (0x66, 0x0C), (0x6E, 0x0A), (0x72, 0x0D), (0x74, 0x09), (0x76, 0x0B)].lookup c

/-- The classes that `\d`, `\s` and `\w`, and their complements, stand for. -/
def escapedClass (c : UInt8) : Option (UInt8 → Bool) :=
  [(0x64, isDigit), (0x44, fun c => !isDigit c), (0x73, isSpace), (0x53, fun c => !isSpace c),
    (0x77, isWord), (0x57, fun c => !isWord c)].lookup c

/-- The characters from `lo` to `hi`, as signed characters. -/
def inRange (lo hi c : UInt8) : Bool := lo.toInt8 ≤ c.toInt8 && c.toInt8 ≤ hi.toInt8

/-- A word starts or ends here. -/
def atBoundary (past rest : List UInt8) : Bool :=
  past.head?.any isWord != rest.head?.any isWord

/-! ### Brackets -/

/-- The inside of a bracket: what it contains so far, the latest first, what a dash would make
    a range of (`some none` is a class, of which there is no range) and whether there was one. -/
structure Bracket where
  negated : Bool := false
  items : List (UInt8 → Bool) := []
  prior : Option (Option UInt8) := none
  dash : Bool := false

namespace Bracket

/-- One more character. -/
def addChar (b : Bracket) (c : UInt8) : Option Bracket :=
  if b.dash then
    match b.prior with
    | some (some lo) =>
      if lo.toInt8 ≤ c.toInt8 then
        some { b with items := inRange lo c :: b.items, prior := none, dash := false }
      else none
    | _ => none
  else some { b with items := (· == c) :: b.items, prior := some (some c) }

/-- One more class. -/
def addClass (b : Bracket) (p : UInt8 → Bool) : Option Bracket :=
  if b.dash then none else some { b with items := p :: b.items, prior := some none }

/-- The characters the bracket stands for; a dash at the end is a character. -/
def toSet (b : Bracket) (c : UInt8) : Bool :=
  b.negated != ((b.dash && c == 0x2D) || b.items.any (· c))

end Bracket

/-! ### The reader -/

/-- What a closing parenthesis makes of what is inside. -/
inductive Kind
  | capture (i : Nat)
  | plain
  | look (positive : Bool)

/-- An expression under construction: the alternatives before the last `|` and the terms of the
    current one, both the latest first. -/
structure Frame where
  kind : Kind
  alts : List (Re UInt8) := []
  terms : List (Re UInt8) := []

/-- What the next character belongs to. -/
inductive Mode
  /-- Nothing special; `quantifiable` where the last term can be repeated. -/
  | plain (quantifiable : Bool)
  /-- Behind a quantifier. -/
  | quantified
  /-- Behind `{`, with the two counts so far. -/
  | counting (least : Option Nat) (most : Option (Option Nat))
  /-- Behind `\`, `\c`, inside `\xHH` and `\uHHHH`, and inside a back reference. -/
  | escape
  | control
  | hex (digits value : Nat)
  | number (n : Nat)
  /-- Behind `(` and behind `(?`. -/
  | opened
  | marked
  /-- Behind `[`, behind a `[` inside a bracket, and inside `[:name:]` and the like. -/
  | bracket
  | inner
  | named (kind : UInt8) (name : List UInt8)
  | namedEnd (kind : UInt8) (name : List UInt8)

/-- The reader: the innermost expression under construction and those around it, the number of
    groups opened so far, and the bracket it is in. -/
structure Reader where
  frame : Frame
  outer : List Frame
  groups : Nat
  bracket : Option Bracket
  mode : Mode

/-- The terms of an alternative. -/
def sequence (terms : List (Re UInt8)) : Re UInt8 := terms.foldl (fun acc t => .seq t acc) .eps

/-- All alternatives. -/
def Frame.content (f : Frame) : Re UInt8 :=
  f.alts.foldl (fun acc a => .alt a acc) (sequence f.terms)

namespace Reader

def init : Reader :=
  { frame := { kind := .plain }, outer := [], groups := 0, bracket := none, mode := .plain false }

/-- One more term. -/
def push (r : Reader) (t : Re UInt8) (quantifiable : Bool) : Reader :=
  { r with frame := { r.frame with terms := t :: r.frame.terms }, mode := .plain quantifiable }

/-- A character that stands for itself. -/
def emitChar (r : Reader) (c : UInt8) : Option Reader :=
  match r.bracket with
  | none => some (r.push (.set (· == c)) true)
  | some b => (b.addChar c).map fun b => { r with bracket := some b, mode := .plain false }

/-- A class of characters. -/
def emitClass (r : Reader) (p : UInt8 → Bool) : Option Reader :=
  match r.bracket with
  | none => some (r.push (.set p) true)
  | some b => (b.addClass p).map fun b => { r with bracket := some b, mode := .plain false }

/-- The last term is repeated. -/
def quantify (r : Reader) (least : Nat) (most : Option Nat) : Option Reader :=
  match r.frame.terms with
  | [] => none
  | t :: ts =>
    some { r with
      frame := { r.frame with terms := .rep least most true t :: ts }, mode := .quantified }

/-- The last quantifier is lazy. -/
def makeLazy (r : Reader) : Reader :=
  match r.frame.terms with
  | .rep least most _ t :: ts =>
    { r with frame := { r.frame with terms := .rep least most false t :: ts },
             mode := .plain false }
  | _ => { r with mode := .plain false }

/-- A parenthesis of this kind is open. -/
def enter (r : Reader) (kind : Kind) : Reader :=
  { r with frame := { kind := kind }, outer := r.frame :: r.outer, mode := .plain false }

/-- The next group is open. -/
def openGroup (r : Reader) : Reader :=
  { r.enter (.capture (r.groups + 1)) with groups := r.groups + 1 }

/-- `)`. -/
def close (r : Reader) : Option Reader :=
  match r.outer with
  | [] => none
  | f :: fs =>
    let back : Reader := { r with frame := f, outer := fs }
    match r.frame.kind with
    | .capture i => some (back.push (.group i r.frame.content) true)
    | .plain => some (back.push r.frame.content true)
    | .look positive => some (back.push (.look positive r.frame.content) false)

/-- `|`. -/
def alternative (r : Reader) : Reader :=
  { r with
    frame := { r.frame with alts := sequence r.frame.terms :: r.frame.alts, terms := [] },
    mode := .plain false }

/-- A back reference must be to a group that is closed already. -/
def emitBackref (r : Reader) (n : Nat) : Option Reader :=
  let isOpen := (r.frame :: r.outer).any fun f =>
    match f.kind with
    | .capture i => i == n
    | _ => false
  if n ≤ r.groups && !isOpen then some (r.push (.backref n) true) else none

/-- A character outside brackets. -/
def onTerm (r : Reader) (quantifiable : Bool) (c : UInt8) : Option Reader :=
  match quantifier c with
  | some (least, most) => if quantifiable then r.quantify least most else none
  | none =>
    if c = 0x7B then  -- {
      if quantifiable then some { r with mode := .counting none none } else none
    else if c = 0x28 then some { r with mode := .opened }  -- (
    else if c = 0x29 then r.close  -- )
    else if c = 0x7C then some r.alternative  -- |
    else if c = 0x5B then some { r with bracket := some {}, mode := .bracket }  -- [
    else if c = 0x5C then some { r with mode := .escape }  -- \
    else if c = 0x5E then some (r.push (.assert fun past _ => past.isEmpty) false)  -- ^
    else if c = 0x24 then some (r.push (.assert fun _ rest => rest.isEmpty) false)  -- $
    else if c = 0x2E then some (r.push (.set fun c => !isNewline c) true)  -- .
    else r.emitChar c

/-- A character inside brackets. -/
def onBracket (r : Reader) (b : Bracket) (c : UInt8) : Option Reader :=
  if c = 0x5D then some ({ r with bracket := none }.push (.set b.toSet) true)  -- ]
  else if c = 0x5B then some { r with mode := .inner }  -- [
  else if c = 0x5C then some { r with mode := .escape }  -- \
  else if c = 0x2D && !b.dash && b.prior.isSome then  -- -
    some { r with bracket := some { b with dash := true }, mode := .plain false }
  else r.emitChar c

/-- A character wherever the reader is. -/
def onPlain (r : Reader) (quantifiable : Bool) (c : UInt8) : Option Reader :=
  match r.bracket with
  | none => r.onTerm quantifiable c
  | some b => r.onBracket b c

/-- The character behind a backslash. -/
def onEscape (r : Reader) (c : UInt8) : Option Reader :=
  match escapedChar c, escapedClass c with
  | some x, _ => r.emitChar x
  | none, some p => r.emitClass p
  | none, none =>
    if c = 0x63 then some { r with mode := .control }  -- \c
    else if c = 0x78 then some { r with mode := .hex 2 0 }  -- \x
    else if c = 0x75 then some { r with mode := .hex 4 0 }  -- \u
    else if r.bracket.isSome then
      if c = 0x62 then r.emitChar 0x08 else if isDigit c then none else r.emitChar c
    else if c = 0x62 then some (r.push (.assert atBoundary) false)  -- \b
    else if c = 0x42 then some (r.push (.assert fun past rest => !atBoundary past rest) false)
    else if isDigit c then some { r with mode := .number (c.toNat - 0x30) }
    else r.emitChar c

/-- A character inside `{..}`. -/
def onCount (r : Reader) (least : Option Nat) (most : Option (Option Nat)) (c : UInt8) :
    Option Reader :=
  if isDigit c then
    let digit := c.toNat - 0x30
    match most with
    | none => some { r with mode := .counting (some (least.getD 0 * 10 + digit)) none }
    | some m => some { r with mode := .counting least (some (some (m.getD 0 * 10 + digit))) }
  else if c = 0x2C then  -- ,
    if least.isSome && most.isNone then some { r with mode := .counting least (some none) }
    else none
  else if c = 0x7D then  -- }
    match least, most with
    | none, _ => none
    | some lo, none => r.quantify lo (some lo)
    | some lo, some none => r.quantify lo none
    | some lo, some (some hi) => if lo ≤ hi then r.quantify lo (some hi) else none
  else none

/-- `[:name:]`, `[.x.]` or `[=x=]` is complete. -/
def onNamed (r : Reader) (kind : UInt8) (name : List UInt8) : Option Reader :=
  if kind = 0x3A then (lookupClassname name).bind r.emitClass
  else
    match name with
    | [c] => if kind = 0x2E then r.emitChar c else r.emitClass (· == c)
    | _ => none

/-- One character. -/
def step (r : Reader) (c : UInt8) : Option Reader :=
  match r.mode with
  | .plain quantifiable => r.onPlain quantifiable c
  | .quantified => if c = 0x3F then some r.makeLazy else r.onTerm false c
  | .counting least most => r.onCount least most c
  | .escape => r.onEscape c
  | .control => if isAlpha c then r.emitChar (c &&& 0x1F) else none
  | .hex digits value =>
    (hexValue c).bind fun d =>
      if digits = 1 then r.emitChar (UInt8.ofNat (value * 16 + d))
      else some { r with mode := .hex (digits - 1) (value * 16 + d) }
  | .number n =>
    if isDigit c then some { r with mode := .number (n * 10 + (c.toNat - 0x30)) }
    else (r.emitBackref n).bind fun r => r.onTerm true c
  | .opened => if c = 0x3F then some { r with mode := .marked } else r.openGroup.onTerm false c
  | .marked =>
    if c = 0x3A then some (r.enter .plain)  -- (?:
    else if c = 0x3D then some (r.enter (.look true))  -- (?=
    else if c = 0x21 then some (r.enter (.look false))  -- (?!
    else none
  | .bracket =>
    if c = 0x5E then some { r with bracket := some { negated := true }, mode := .plain false }
    else r.onPlain false c
  | .inner =>
    if c = 0x3A || c = 0x2E || c = 0x3D then some { r with mode := .named c [] }
    else (r.emitChar 0x5B).bind fun r => r.onPlain false c
  | .named kind name =>
    if c = kind then some { r with mode := .namedEnd kind name }
    else some { r with mode := .named kind (name ++ [c]) }
  | .namedEnd kind name => if c = 0x5D then r.onNamed kind name else none

/-- The expression, where the text may end here. -/
def finish (r : Reader) : Option (Re UInt8 × Nat) :=
  let done (r : Reader) : Option (Re UInt8 × Nat) :=
    if r.outer.isEmpty && r.bracket.isNone then some (r.frame.content, r.groups) else none
  match r.mode with
  | .plain _ | .quantified => done r
  | .number n => (r.emitBackref n).bind done
  | _ => none

end Reader

/-- The constructor of `std::regex`: the expression and the number of its groups, `none` where
    it throws. -/
def compile (text : List UInt8) : Option (Re UInt8 × Nat) :=
  (text.foldlM Reader.step Reader.init).bind Reader.finish

/-! ### Plain text -/

/-- The characters with a meaning of their own somewhere outside brackets. -/
def isMeta (c : UInt8) : Bool :=
  [0x5E, 0x24, 0x5C, 0x2E, 0x2A, 0x2B, 0x3F, 0x28, 0x29, 0x5B, 0x5D, 0x7B, 0x7D, 0x7C].contains c

/-- Terms one behind the other. -/
def inOrder (ts : List (Re UInt8)) : Re UInt8 := ts.foldr .seq .eps

theorem sequence_reverse (ts : List (Re UInt8)) : sequence ts.reverse = inOrder ts := by
  rw [sequence, List.foldl_reverse]
  rfl

/-- `r'` comes from `r` by these terms, `n` of them groups, with nothing left open. -/
structure Reader.Extends (r : Reader) (ts : List (Re UInt8)) (n : Nat) (r' : Reader) : Prop where
  frame : r'.frame = { r.frame with terms := ts.reverse ++ r.frame.terms }
  outer : r'.outer = r.outer
  groups : r'.groups = r.groups + n
  bracket : r'.bracket = none
  mode : ∃ q, r'.mode = .plain q

namespace Reader

variable {r : Reader}

theorem Extends.trans {r' r'' : Reader} {ts ts' : List (Re UInt8)} {n n' : Nat}
    (h : Extends r ts n r') (h' : Extends r' ts' n' r'') :
    Extends r (ts ++ ts') (n + n') r'' := by
  refine ⟨?_, h'.outer.trans h.outer, ?_, h'.bracket, h'.mode⟩
  · rw [h'.frame, h.frame]
    simp
  · rw [h'.groups, h.groups, Nat.add_assoc]

theorem Extends.refl (hb : r.bracket = none) {q : Bool} (hm : r.mode = .plain q) :
    Extends r [] 0 r :=
  ⟨rfl, rfl, rfl, hb, q, hm⟩

/-- A character without a meaning stands for itself. -/
theorem step_literal (hb : r.bracket = none) {q : Bool} (hm : r.mode = .plain q) {c : UInt8}
    (hc : isMeta c = false) : r.step c = some (r.push (.set (· == c)) true) := by
  simp only [isMeta, List.contains_eq_mem, List.mem_cons, List.not_mem_nil, or_false,
    decide_eq_false_iff_not, not_or] at hc
  obtain ⟨hcaret, hdollar, hescape, hdot, hstar, hplus, hmark, hopen, hclose, hbracket, -, hbrace,
    -, hbar⟩ := hc
  have hquantifier : quantifier c = none := by
    simp [quantifier, List.lookup_cons, beq_eq_false_iff_ne.mpr hstar,
      beq_eq_false_iff_ne.mpr hplus, beq_eq_false_iff_ne.mpr hmark]
  have hterm : r.step c = r.onTerm q c := by
    rw [step, hm]
    show r.onPlain q c = _
    rw [onPlain, hb]
  rw [hterm, onTerm, hquantifier]
  show (if c = 0x7B then _ else _) = _
  rw [if_neg hbrace, if_neg hopen, if_neg hclose, if_neg hbar, if_neg hbracket, if_neg hescape,
    if_neg hcaret, if_neg hdollar, if_neg hdot, emitChar, hb]

/-- A text of such characters. -/
theorem run_literal : ∀ {t : List UInt8} {r : Reader}, r.bracket = none →
    (∃ q, r.mode = .plain q) → (∀ c ∈ t, isMeta c = false) →
    ∃ r', t.foldlM step r = some r' ∧ Extends r (t.map fun c => .set (· == c)) 0 r' := by
  intro t
  induction t with
  | nil =>
    rintro r hb ⟨q, hm⟩ -
    exact ⟨r, rfl, Extends.refl hb hm⟩
  | cons c t ih =>
    rintro r hb ⟨q, hm⟩ ht
    have hstep := step_literal hb hm (ht c List.mem_cons_self)
    have hpush : Extends r [.set (· == c)] 0 (r.push (.set (· == c)) true) :=
      ⟨rfl, rfl, rfl, hb, true, rfl⟩
    obtain ⟨r', hr', hext⟩ := ih hpush.bracket hpush.mode
      fun d hd => ht d (List.mem_cons_of_mem _ hd)
    refine ⟨r', ?_, hpush.trans hext⟩
    rw [List.foldlM_cons, hstep]
    exact hr'

end Reader

/-- What is left open decides whether a text may end. -/
theorem compile_of_extends {text : List UInt8} {r : Reader} {ts : List (Re UInt8)} {n : Nat}
    (hrun : text.foldlM Reader.step Reader.init = some r) (h : Reader.Extends .init ts n r) :
    compile text = some (inOrder ts, n) := by
  obtain ⟨q, hm⟩ := h.mode
  have hcontent : r.frame.content = inOrder ts := by
    rw [h.frame]
    show sequence (ts.reverse ++ []) = _
    rw [List.append_nil, sequence_reverse]
  have hgroups : r.groups = n := h.groups.trans (Nat.zero_add n)
  rw [compile, hrun]
  show Reader.finish r = _
  simp only [Reader.finish, hm, h.outer, h.bracket, hcontent, hgroups]
  rfl

/-! ### Capture groups in a text -/

/-- Where a text is, as far as its parentheses are concerned. -/
inductive Lex
  | plain
  | escape
  | opened
  | bracket
  | bracketEscape
  | inner
  | named (kind : UInt8)
  | namedEnd (kind : UInt8)
deriving DecidableEq

namespace Lex

/-- A character outside brackets. -/
def onPlain (c : UInt8) : Lex :=
  if c = 0x28 then .opened
  else if c = 0x5B then .bracket
  else if c = 0x5C then .escape
  else .plain

/-- A character inside brackets. -/
def onBracket (c : UInt8) : Lex :=
  if c = 0x5D then .plain
  else if c = 0x5B then .inner
  else if c = 0x5C then .bracketEscape
  else .bracket

/-- One character. -/
def next : Lex → UInt8 → Lex
  | .plain, c => onPlain c
  | .escape, _ => .plain
  | .opened, c => if c = 0x3F then .plain else onPlain c
  | .bracket, c => onBracket c
  | .bracketEscape, _ => .bracket
  | .inner, c => if c = 0x3A || c = 0x2E || c = 0x3D then .named c else onBracket c
  | .named kind, c => if c = kind then .namedEnd kind else .named kind
  | .namedEnd _, _ => .bracket

/-- The capture groups this character opens: the one of the parenthesis before it, unless it
    makes that a parenthesis of another kind. -/
def opens : Lex → UInt8 → Nat
  | .opened, c => if c = 0x3F then 0 else 1
  | _, _ => 0

/-- Where the text is behind these characters, and how many capture groups they opened. -/
def read : Lex → List UInt8 → Lex × Nat
  | l, [] => (l, 0)
  | l, c :: cs => ((read (l.next c) cs).1, l.opens c + (read (l.next c) cs).2)

@[simp] theorem read_nil (l : Lex) : l.read [] = (l, 0) := rfl

theorem read_append (l : Lex) (cs ds : List UInt8) :
    l.read (cs ++ ds) =
      (((l.read cs).1.read ds).1, (l.read cs).2 + ((l.read cs).1.read ds).2) := by
  induction cs generalizing l with
  | nil => simp
  | cons c cs ih =>
    rw [List.cons_append, read, read, ih, Nat.add_assoc]

end Lex

namespace Reader

/-- Outside escapes and parentheses just opened, only the bracket matters. -/
def base (r : Reader) : Lex := if r.bracket.isSome then .bracket else .plain

/-- What the small machine sees of the reader. -/
def lex (r : Reader) : Lex :=
  match r.mode with
  | .escape => if r.bracket.isSome then .bracketEscape else .escape
  | .opened => .opened
  | .inner => .inner
  | .named kind _ => .named kind
  | .namedEnd kind _ => .namedEnd kind
  | _ => r.base

/-- The reader is in a bracket where its mode says so. -/
def Coherent (r : Reader) : Prop :=
  match r.mode with
  | .quantified | .counting _ _ | .number _ | .opened | .marked => r.bracket = none
  | .bracket | .inner | .named _ _ | .namedEnd _ _ => r.bracket.isSome
  | _ => True

theorem onPlain_of_ne {c : UInt8} (h : c ≠ 0x28 ∧ c ≠ 0x5B ∧ c ≠ 0x5C) :
    Lex.onPlain c = .plain := by
  rw [Lex.onPlain, if_neg h.1, if_neg h.2.1, if_neg h.2.2]

theorem onPlain_of_isDigit {c : UInt8} (h : isDigit c = true) : Lex.onPlain c = .plain := by
  refine onPlain_of_ne ⟨?_, ?_, ?_⟩ <;> rintro rfl <;> exact absurd h (by decide)

theorem ne_of_isAlpha {c : UInt8} (h : isAlpha c = true) :
    c ≠ 0x28 ∧ c ≠ 0x5B ∧ c ≠ 0x5C ∧ c ≠ 0x5D := by
  refine ⟨?_, ?_, ?_, ?_⟩ <;> rintro rfl <;> exact absurd h (by decide)

theorem ne_of_hexValue {c : UInt8} {d : Nat} (h : hexValue c = some d) :
    c ≠ 0x28 ∧ c ≠ 0x5B ∧ c ≠ 0x5C ∧ c ≠ 0x5D := by
  refine ⟨?_, ?_, ?_, ?_⟩ <;> rintro rfl <;>
    exact absurd (h.symm.trans (by decide)) (Option.some_ne_none d)

/-- `r'` comes from `r` without a group, and the small machine is in `l` then. -/
structure Seen (r : Reader) (l : Lex) (r' : Reader) : Prop where
  lex : r'.lex = l
  groups : r'.groups = r.groups
  coherent : r'.Coherent

variable {r r' : Reader} {c : UInt8}

theorem Seen.push (t : Re UInt8) (q : Bool) : Seen r r.base (r.push t q) :=
  ⟨rfl, rfl, trivial⟩

theorem Seen.emitChar (h : r.emitChar c = some r') : Seen r r.base r' := by
  unfold Reader.emitChar at h
  split at h
  · rw [← Option.some.inj h]
    exact Seen.push _ _
  · rename_i b hb
    obtain ⟨b', -, rfl⟩ := Option.map_eq_some_iff.mp h
    exact ⟨by simp [Reader.lex, base, hb], rfl, trivial⟩

theorem base_of_emitChar (h : r.emitChar c = some r') : r'.base = r.base := by
  unfold Reader.emitChar at h
  split at h
  · rw [← Option.some.inj h]
    rfl
  · rename_i b hb
    obtain ⟨b', -, rfl⟩ := Option.map_eq_some_iff.mp h
    simp [base, hb]

theorem Seen.emitClass {p : UInt8 → Bool} (h : r.emitClass p = some r') :
    Seen r r.base r' := by
  unfold Reader.emitClass at h
  split at h
  · rw [← Option.some.inj h]
    exact Seen.push _ _
  · rename_i b hb
    obtain ⟨b', -, rfl⟩ := Option.map_eq_some_iff.mp h
    exact ⟨by simp [Reader.lex, base, hb], rfl, trivial⟩

theorem Seen.quantify {least : Nat} {most : Option Nat} (hb : r.bracket = none)
    (h : r.quantify least most = some r') : Seen r .plain r' := by
  unfold Reader.quantify at h
  split at h
  · simp at h
  · rw [← Option.some.inj h]
    exact ⟨by simp [Reader.lex, base, hb], rfl, hb⟩

theorem Seen.makeLazy (hb : r.bracket = none) : Seen r .plain r.makeLazy := by
  unfold Reader.makeLazy
  split <;> exact ⟨by simp [Reader.lex, base, hb], rfl, trivial⟩

theorem Seen.close (hb : r.bracket = none) (h : r.close = some r') : Seen r .plain r' := by
  unfold Reader.close at h
  split at h
  · simp at h
  · split at h <;>
    · rw [← Option.some.inj h]
      exact ⟨by simp [Reader.lex, Reader.push, base, hb], rfl, trivial⟩

theorem Seen.emitBackref {n : Nat} (hb : r.bracket = none) (h : r.emitBackref n = some r') :
    Seen r .plain r' ∧ r'.bracket = none := by
  simp only [Reader.emitBackref] at h
  split at h
  · rw [← Option.some.inj h]
    exact ⟨⟨by simp [Reader.lex, Reader.push, base, hb], rfl, trivial⟩, hb⟩
  · simp at h

theorem onPlain_of_quantifier {q : Nat × Option Nat} (h : quantifier c = some q) :
    Lex.onPlain c = .plain := by
  have hc : c = 0x2A ∨ c = 0x2B ∨ c = 0x3F := by
    by_contra hne
    rw [not_or, not_or] at hne
    obtain ⟨hstar, hplus, hmark⟩ := hne
    have hnone : quantifier c = none := by
      simp [quantifier, List.lookup_cons, beq_eq_false_iff_ne.mpr hstar,
        beq_eq_false_iff_ne.mpr hplus, beq_eq_false_iff_ne.mpr hmark]
    rw [hnone] at h
    simp at h
  rcases hc with rfl | rfl | rfl <;> rfl

/-- Outside brackets the two machines go on alike. -/
theorem Seen.onTerm {q : Bool} (hb : r.bracket = none) (h : r.onTerm q c = some r') :
    Seen r (Lex.onPlain c) r' := by
  have hbase : r.base = .plain := by simp [base, hb]
  have hpush : ∀ (t : Re UInt8) (q : Bool), Seen r .plain (r.push t q) := by
    intro t q
    rw [← hbase]
    exact Seen.push t q
  unfold Reader.onTerm at h
  split at h
  · rename_i least most hquantifier
    rw [onPlain_of_quantifier hquantifier]
    split at h
    · exact Seen.quantify hb h
    · simp at h
  -- the other characters in the order in which the reader looks for them
  by_cases hbrace : c = 0x7B
  · rw [if_pos hbrace] at h
    rw [hbrace]
    split at h
    · rw [← Option.some.inj h]
      exact ⟨by simp [Reader.lex, base, hb, Lex.onPlain], rfl, hb⟩
    · simp at h
  rw [if_neg hbrace] at h
  by_cases hopen : c = 0x28
  · rw [if_pos hopen] at h
    rw [hopen, ← Option.some.inj h]
    exact ⟨rfl, rfl, hb⟩
  rw [if_neg hopen] at h
  by_cases hclose : c = 0x29
  · rw [if_pos hclose] at h
    rw [hclose]
    exact Seen.close hb h
  rw [if_neg hclose] at h
  by_cases hbar : c = 0x7C
  · rw [if_pos hbar] at h
    rw [hbar, ← Option.some.inj h]
    exact ⟨by simp [Reader.lex, Reader.alternative, base, hb, Lex.onPlain], rfl, trivial⟩
  rw [if_neg hbar] at h
  by_cases hbracket : c = 0x5B
  · rw [if_pos hbracket] at h
    rw [hbracket, ← Option.some.inj h]
    exact ⟨rfl, rfl, rfl⟩
  rw [if_neg hbracket] at h
  by_cases hescape : c = 0x5C
  · rw [if_pos hescape] at h
    rw [hescape, ← Option.some.inj h]
    exact ⟨by simp [Reader.lex, hb, Lex.onPlain], rfl, trivial⟩
  rw [if_neg hescape] at h
  have hplain : Lex.onPlain c = .plain := by
    rw [Lex.onPlain, if_neg hopen, if_neg hbracket, if_neg hescape]
  rw [hplain]
  -- what is left is one term
  by_cases hcaret : c = 0x5E
  · rw [if_pos hcaret] at h
    rw [← Option.some.inj h]
    exact hpush _ _
  rw [if_neg hcaret] at h
  by_cases hdollar : c = 0x24
  · rw [if_pos hdollar] at h
    rw [← Option.some.inj h]
    exact hpush _ _
  rw [if_neg hdollar] at h
  by_cases hdot : c = 0x2E
  · rw [if_pos hdot] at h
    rw [← Option.some.inj h]
    exact hpush _ _
  rw [if_neg hdot] at h
  rw [← hbase]
  exact Seen.emitChar h

/-- And inside. -/
theorem Seen.onBracket {b : Bracket} (hb : r.bracket = some b)
    (h : r.onBracket b c = some r') : Seen r (Lex.onBracket c) r' := by
  unfold Reader.onBracket at h
  by_cases hclose : c = 0x5D
  · rw [if_pos hclose] at h
    rw [hclose, ← Option.some.inj h]
    exact ⟨rfl, rfl, trivial⟩
  rw [if_neg hclose] at h
  by_cases hopen : c = 0x5B
  · rw [if_pos hopen] at h
    rw [hopen, ← Option.some.inj h]
    exact ⟨rfl, rfl, by simp [Coherent, hb]⟩
  rw [if_neg hopen] at h
  by_cases hescape : c = 0x5C
  · rw [if_pos hescape] at h
    rw [hescape, ← Option.some.inj h]
    exact ⟨by simp [Reader.lex, hb, Lex.onBracket], rfl, trivial⟩
  rw [if_neg hescape] at h
  have hbracket : Lex.onBracket c = .bracket := by
    rw [Lex.onBracket, if_neg hclose, if_neg hopen, if_neg hescape]
  rw [hbracket]
  split at h
  · rw [← Option.some.inj h]
    exact ⟨rfl, rfl, trivial⟩
  · have hbase : r.base = .bracket := by simp [base, hb]
    rw [← hbase]
    exact Seen.emitChar h

theorem Seen.onPlain {q : Bool} (h : r.onPlain q c = some r') :
    Seen r (r.base.next c) r' := by
  unfold Reader.onPlain at h
  split at h
  · rename_i hb
    have hbase : r.base = .plain := by simp [base, hb]
    rw [hbase]
    exact Seen.onTerm hb h
  · rename_i b hb
    have hbase : r.base = .bracket := by simp [base, hb]
    rw [hbase]
    exact Seen.onBracket hb h

theorem Seen.onEscape (h : r.onEscape c = some r') : Seen r r.base r' := by
  unfold Reader.onEscape at h
  split at h
  · exact Seen.emitChar h
  · exact Seen.emitClass h
  · have hmode : ∀ m : Mode, ({ r with mode := m } : Reader).lex = r.base →
        ({ r with mode := m } : Reader).Coherent → some { r with mode := m } = some r' →
        Seen r r.base r' := by
      intro m hlex hcoherent hm
      rw [← Option.some.inj hm]
      exact ⟨hlex, rfl, hcoherent⟩
    split at h
    · exact hmode .control rfl trivial h
    split at h
    · exact hmode (.hex 2 0) rfl trivial h
    split at h
    · exact hmode (.hex 4 0) rfl trivial h
    split at h
    · split at h
      · exact Seen.emitChar h
      split at h
      · simp at h
      · exact Seen.emitChar h
    rename_i hb
    split at h
    · rw [← Option.some.inj h]
      exact Seen.push _ _
    split at h
    · rw [← Option.some.inj h]
      exact Seen.push _ _
    split at h
    · have hnone : r.bracket = none := by simpa using hb
      exact hmode (.number _) rfl hnone h
    · exact Seen.emitChar h

theorem Seen.onCount {least : Option Nat} {most : Option (Option Nat)} (hb : r.bracket = none)
    (h : r.onCount least most c = some r') : Seen r (Lex.onPlain c) r' := by
  have hcount : ∀ (l : Option Nat) (m : Option (Option Nat)),
      Seen r .plain { r with mode := .counting l m } := by
    intro l m
    exact ⟨by simp [Reader.lex, base, hb], rfl, hb⟩
  unfold Reader.onCount at h
  split at h
  · rename_i hdigit
    rw [onPlain_of_isDigit hdigit]
    split at h
    · rw [← Option.some.inj h]
      exact hcount _ _
    · rw [← Option.some.inj h]
      exact hcount _ _
  split at h
  · rename_i hc
    rw [hc]
    split at h
    · rw [← Option.some.inj h]
      exact hcount _ _
    · simp at h
  split at h
  · rename_i hc
    rw [hc]
    split at h
    · simp at h
    · exact Seen.quantify hb h
    · exact Seen.quantify hb h
    · split at h
      · exact Seen.quantify hb h
      · simp at h
  · simp at h

theorem Seen.onNamed {kind : UInt8} {name : List UInt8} (hb : r.bracket.isSome)
    (h : r.onNamed kind name = some r') : Seen r .bracket r' := by
  have hbase : r.base = .bracket := by rw [base, if_pos hb]
  rw [← hbase]
  unfold Reader.onNamed at h
  split at h
  · obtain ⟨p, -, hp⟩ := Option.bind_eq_some_iff.mp h
    exact Seen.emitClass hp
  · split at h
    · split at h
      · exact Seen.emitChar h
      · exact Seen.emitClass h
    · simp at h

/-- One character, as the small machine sees it. -/
theorem lex_step (hr : r.Coherent) (h : r.step c = some r') :
    r'.lex = r.lex.next c ∧ r'.groups = r.groups + r.lex.opens c ∧ r'.Coherent := by
  -- all but the character behind a parenthesis open no group
  have hseen : Seen r (r.lex.next c) r' → r.lex.opens c = 0 →
      r'.lex = r.lex.next c ∧ r'.groups = r.groups + r.lex.opens c ∧ r'.Coherent := by
    intro hs hopens
    exact ⟨hs.lex, by rw [hs.groups, hopens, Nat.add_zero], hs.coherent⟩
  have hbase : r.base.opens c = 0 := by
    rw [base]
    split <;> rfl
  have hletter : ∀ {d : UInt8}, d ≠ 0x28 ∧ d ≠ 0x5B ∧ d ≠ 0x5C ∧ d ≠ 0x5D →
      r.base.next d = r.base := by
    intro d hd
    rw [base]
    split
    · show Lex.onBracket d = .bracket
      rw [Lex.onBracket, if_neg hd.2.2.2, if_neg hd.2.1, if_neg hd.2.2.1]
    · exact onPlain_of_ne ⟨hd.1, hd.2.1, hd.2.2.1⟩
  have hplain : r.bracket = none → r.base = .plain := by
    intro hb
    simp [base, hb]
  unfold Reader.step at h
  unfold Coherent at hr
  cases hmode : r.mode with
  | plain q =>
    have hlex : r.lex = r.base := by simp [Reader.lex, hmode]
    rw [hmode] at h
    rw [hlex] at hseen ⊢
    exact hseen (Seen.onPlain h) hbase
  | quantified =>
    rw [hmode] at h hr
    have hlex : r.lex = .plain := by simp [Reader.lex, hmode, hplain hr]
    rw [hlex] at hseen ⊢
    refine hseen ?_ rfl
    change (if c = 0x3F then some r.makeLazy else r.onTerm false c) = some r' at h
    split at h
    · rename_i hc
      rw [hc, ← Option.some.inj h]
      exact Seen.makeLazy hr
    · exact Seen.onTerm hr h
  | counting least most =>
    rw [hmode] at h hr
    have hlex : r.lex = .plain := by simp [Reader.lex, hmode, hplain hr]
    rw [hlex] at hseen ⊢
    exact hseen (Seen.onCount hr h) rfl
  | escape =>
    have hlex : r.lex.next c = r.base ∧ r.lex.opens c = 0 := by
      simp only [Reader.lex, hmode, base]
      split <;> exact ⟨rfl, rfl⟩
    rw [hmode] at h
    rw [hlex.1] at hseen ⊢
    exact hseen (Seen.onEscape h) hlex.2
  | control =>
    have hlex : r.lex = r.base := by simp [Reader.lex, hmode]
    rw [hmode] at h
    change (if isAlpha c then r.emitChar (c &&& 0x1F) else none) = some r' at h
    rw [hlex] at hseen ⊢
    split at h
    · rename_i hc
      refine hseen ?_ hbase
      rw [hletter (ne_of_isAlpha hc)]
      exact Seen.emitChar h
    · simp at h
  | hex digits value =>
    have hlex : r.lex = r.base := by simp [Reader.lex, hmode]
    rw [hmode] at h
    rw [hlex] at hseen ⊢
    obtain ⟨d, hd, h⟩ := Option.bind_eq_some_iff.mp h
    have hc : r.base.next c = r.base := hletter (ne_of_hexValue hd)
    rw [hc] at hseen ⊢
    refine hseen ?_ hbase
    split at h
    · exact Seen.emitChar h
    · rw [← Option.some.inj h]
      exact ⟨rfl, rfl, trivial⟩
  | number n =>
    rw [hmode] at h hr
    have hlex : r.lex = .plain := by simp [Reader.lex, hmode, hplain hr]
    rw [hlex] at hseen ⊢
    refine hseen ?_ rfl
    change (if isDigit c then some { r with mode := .number (n * 10 + (c.toNat - 0x30)) }
      else (r.emitBackref n).bind fun r => r.onTerm true c) = some r' at h
    split at h
    · rename_i hc
      rw [← Option.some.inj h, show Lex.next .plain c = Lex.onPlain c from rfl,
        onPlain_of_isDigit hc]
      exact ⟨hplain hr, rfl, hr⟩
    · obtain ⟨s, hs, h⟩ := Option.bind_eq_some_iff.mp h
      obtain ⟨hback, hb⟩ := Seen.emitBackref hr hs
      have hterm := Seen.onTerm hb h
      exact ⟨hterm.lex, hterm.groups.trans hback.groups, hterm.coherent⟩
  | opened =>
    rw [hmode] at h hr
    have hlex : r.lex = .opened := by simp [Reader.lex, hmode]
    rw [hlex] at hseen ⊢
    change (if c = 0x3F then some { r with mode := .marked }
      else r.openGroup.onTerm false c) = some r' at h
    split at h
    · rename_i hc
      rw [hc, ← Option.some.inj h]
      exact ⟨hplain hr, rfl, hr⟩
    · rename_i hc
      have hterm := Seen.onTerm (r := r.openGroup) hr h
      refine ⟨?_, ?_, hterm.coherent⟩
      · rw [hterm.lex, Lex.next, if_neg hc]
      · rw [hterm.groups, Lex.opens, if_neg hc]
        rfl
  | marked =>
    rw [hmode] at h hr
    have hlex : r.lex = .plain := by simp [Reader.lex, hmode, hplain hr]
    rw [hlex] at hseen ⊢
    refine hseen ?_ rfl
    have henter : ∀ k : Kind, Seen r .plain (r.enter k) := by
      intro k
      exact ⟨hplain hr, rfl, trivial⟩
    change (if c = 0x3A then some (r.enter .plain)
      else if c = 0x3D then some (r.enter (.look true))
      else if c = 0x21 then some (r.enter (.look false)) else none) = some r' at h
    split at h
    · rename_i hc
      rw [hc, ← Option.some.inj h]
      exact henter _
    split at h
    · rename_i hc
      rw [hc, ← Option.some.inj h]
      exact henter _
    split at h
    · rename_i hc
      rw [hc, ← Option.some.inj h]
      exact henter _
    · simp at h
  | bracket =>
    rw [hmode] at h hr
    have hlex : r.lex = .bracket := by
      rw [Reader.lex, hmode]
      exact if_pos hr
    have hbracket : r.base = .bracket := if_pos hr
    rw [hlex] at hseen ⊢
    refine hseen ?_ rfl
    change (if c = 0x5E then
      some { r with bracket := some { negated := true }, mode := .plain false }
      else r.onPlain false c) = some r' at h
    split at h
    · rename_i hc
      rw [hc, ← Option.some.inj h]
      exact ⟨rfl, rfl, trivial⟩
    · rw [← hbracket]
      exact Seen.onPlain h
  | inner =>
    rw [hmode] at h hr
    have hlex : r.lex = .inner := by simp [Reader.lex, hmode]
    rw [hlex] at hseen ⊢
    refine hseen ?_ rfl
    change (if (c = 0x3A || c = 0x2E || c = 0x3D) = true then
      some { r with mode := .named c [] }
      else (r.emitChar 0x5B).bind fun r => r.onPlain false c) = some r' at h
    rw [Lex.next]
    split at h
    · rename_i hc
      rw [if_pos hc, ← Option.some.inj h]
      exact ⟨rfl, rfl, hr⟩
    · rename_i hc
      rw [if_neg hc]
      obtain ⟨s, hs, h⟩ := Option.bind_eq_some_iff.mp h
      have hbracket : s.base = .bracket := (base_of_emitChar hs).trans (if_pos hr)
      have hplain := Seen.onPlain h
      rw [hbracket] at hplain
      exact ⟨hplain.lex, hplain.groups.trans (Seen.emitChar hs).groups, hplain.coherent⟩
  | named kind name =>
    rw [hmode] at h hr
    have hlex : r.lex = .named kind := by simp [Reader.lex, hmode]
    rw [hlex] at hseen ⊢
    refine hseen ?_ rfl
    change (if c = kind then some { r with mode := .namedEnd kind name }
      else some { r with mode := .named kind (name ++ [c]) }) = some r' at h
    rw [Lex.next]
    split at h
    · rename_i hc
      rw [if_pos hc, ← Option.some.inj h]
      exact ⟨rfl, rfl, hr⟩
    · rename_i hc
      rw [if_neg hc, ← Option.some.inj h]
      exact ⟨rfl, rfl, hr⟩
  | namedEnd kind name =>
    rw [hmode] at h hr
    have hlex : r.lex = .namedEnd kind := by simp [Reader.lex, hmode]
    rw [hlex] at hseen ⊢
    refine hseen ?_ rfl
    change (if c = 0x5D then r.onNamed kind name else none) = some r' at h
    split at h
    · exact Seen.onNamed hr h
    · simp at h

/-- A whole text. -/
theorem lex_run {cs : List UInt8} : ∀ {r r' : Reader}, r.Coherent → cs.foldlM step r = some r' →
    r'.lex = (r.lex.read cs).1 ∧ r'.groups = r.groups + (r.lex.read cs).2 ∧ r'.Coherent := by
  induction cs with
  | nil =>
    intro r r' hr h
    rw [← Option.some.inj h]
    exact ⟨rfl, rfl, hr⟩
  | cons c cs ih =>
    intro r r' hr h
    obtain ⟨s, hs, h⟩ := Option.bind_eq_some_iff.mp h
    obtain ⟨hlex, hgroups, hcoherent⟩ := lex_step hr hs
    obtain ⟨hlex', hgroups', hcoherent'⟩ := ih hcoherent h
    rw [hlex] at hlex' hgroups'
    refine ⟨hlex', ?_, hcoherent'⟩
    rw [hgroups', hgroups, Nat.add_assoc]
    rfl

end Reader

/-- The groups of what compiles are the capture groups its text opens. -/
theorem groups_compile {text : List UInt8} {re : Re UInt8} {n : Nat}
    (h : compile text = some (re, n)) : (Lex.plain.read text).2 = n := by
  obtain ⟨r, hr, hfinish⟩ := Option.bind_eq_some_iff.mp h
  obtain ⟨-, hgroups, hcoherent⟩ := Reader.lex_run (r := Reader.init) trivial hr
  have hdone : ∀ {s : Reader},
      (if (s.outer.isEmpty && s.bracket.isNone) = true then some (s.frame.content, s.groups)
        else none) = some (re, n) → s.groups = n := by
    intro s hs
    split at hs
    · exact congrArg Prod.snd (Option.some.inj hs)
    · simp at hs
  have hn : r.groups = n := by
    unfold Reader.Coherent at hcoherent
    simp only [Reader.finish] at hfinish
    split at hfinish
    · exact hdone hfinish
    · exact hdone hfinish
    · rename_i k hmode
      rw [hmode] at hcoherent
      obtain ⟨s, hs, hfinish⟩ := Option.bind_eq_some_iff.mp hfinish
      exact (Reader.Seen.emitBackref hcoherent hs).1.groups.symm.trans (hdone hfinish)
    · simp at hfinish
  rw [← hn, hgroups]
  exact (Nat.zero_add _).symm

end Regex
