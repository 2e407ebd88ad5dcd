import MyWebSocket.HttpParser.ByteStep

namespace MyWebSocket

open Transducer Transducer.Outcome

/-!
# The loop agrees with the byte machine

`http_parser_execute` passes over names, values and bodies in one go and counts their bytes
behind them.  This file shows that it still does what `byteMachine` does on each byte in turn:

* `Same` — two lists of operations that no marks tell apart;
* `Agrees` — how the loop is left, compared with how the machine is: alike, but for the count and
  the kind of the error where both end in the error state;
* `loop_agrees` — the loop, from any parser that keeps the invariant.
-/

namespace RequestParser

/-! ### Operations -/

namespace Marks

theorem run_append (m : Marks) (os os' : List Op) :
    m.run (os ++ os') = (((m.run os).1.run os').1, (m.run os).2 ++ ((m.run os).1.run os').2) := by
  induction os generalizing m with
  | nil => rfl
  | cons o os ih =>
    rw [List.cons_append, run, ih]
    simp only [run, List.append_assoc]

@[simp] theorem get_set (m : Marks) (k : DataFor) (d : Option Bytes) : (m.set k d).get k = d := by
  cases k <;> rfl

theorem get_set_of_ne (m : Marks) {k k' : DataFor} (h : k' ≠ k) (d : Option Bytes) :
    (m.set k d).get k' = m.get k' := by
  cases k <;> cases k' <;> first
    | rfl
    | exact absurd rfl h

@[ext] theorem ext_get {m m' : Marks} (h : ∀ k, m.get k = m'.get k) : m = m' := by
  have hfield := h .headerField
  have hvalue := h .headerValue
  have hurl := h .url
  have hbody := h .body
  cases m
  cases m'
  simp only [get] at hfield hvalue hurl hbody
  rw [hfield, hvalue, hurl, hbody]

theorem get_move (m : Marks) (bs : Bytes) (k : DataFor) :
    (m.apply (.move bs)).1.get k = (m.get k).map (· ++ bs) := by
  cases k <;> rfl

theorem get_mark (m : Marks) (k k' : DataFor) :
    (m.apply (.mark k)).1.get k' =
      if k' = k then some ((m.get k).getD []) else m.get k' := by
  rw [apply]
  rcases hget : m.get k with _ | d
  · rw [if_pos (show (none : Option Bytes).isNone = true from rfl)]
    split
    · rename_i heq
      rw [heq]
      exact get_set m k _
    · rename_i hne
      exact get_set_of_ne m hne _
  · rw [if_neg (show ¬(some d).isNone = true from Bool.false_ne_true)]
    split
    · rename_i heq
      rw [heq]
      exact hget
    · rfl

end Marks

/-- Two lists of operations that do the same to any marks. -/
def Same (os os' : List Op) : Prop := ∀ m : Marks, m.run os = m.run os'

theorem Same.refl (os : List Op) : Same os os := fun _ => rfl

theorem Same.symm {os os' : List Op} (h : Same os os') : Same os' os := fun m => (h m).symm

theorem Same.trans {os os' os'' : List Op} (h : Same os os') (h' : Same os' os'') :
    Same os os'' := fun m => (h m).trans (h' m)

theorem Same.append {os₁ os₁' os₂ os₂' : List Op} (h₁ : Same os₁ os₁') (h₂ : Same os₂ os₂') :
    Same (os₁ ++ os₂) (os₁' ++ os₂') := by
  intro m
  rw [Marks.run_append, Marks.run_append, h₁ m, h₂]

theorem same_move_move (bs bs' : Bytes) : Same [.move bs, .move bs'] [.move (bs ++ bs')] := by
  intro m
  refine Prod.ext ?_ rfl
  apply Marks.ext_get
  intro k
  simp only [Marks.run, Marks.get_move, Option.map_map]
  congr 1
  funext d
  exact List.append_assoc d bs bs'

theorem same_move_nil : Same [.move []] [] := by
  intro m
  refine Prod.ext ?_ rfl
  apply Marks.ext_get
  intro k
  simp only [Marks.run, Marks.get_move, List.append_nil, Option.map_id']

/-- The cursor is moved over a byte at a time. -/
theorem same_moves (bs : Bytes) : Same (bs.flatMap fun b => [.move [b]]) [.move bs] := by
  induction bs with
  | nil => exact same_move_nil.symm
  | cons b bs ih => exact ((Same.refl [.move [b]]).append ih).trans (same_move_move [b] bs)

/-- A mark that is set stays where it is. -/
theorem same_mark_move_mark (k : DataFor) (bs : Bytes) :
    Same [.mark k, .move bs, .mark k] [.mark k, .move bs] := by
  intro m
  refine Prod.ext ?_ ?_
  · apply Marks.ext_get
    intro k'
    simp only [Marks.run, Marks.get_mark, Marks.get_move]
    by_cases heq : k' = k
    · simp only [heq, if_true]
      rfl
    · rw [if_neg heq]
  · rfl

/-- The body is marked again at every byte. -/
theorem same_marks (k : DataFor) {bs : Bytes} (h : bs ≠ []) :
    Same (bs.flatMap fun b => [.mark k, .move [b]]) [.mark k, .move bs] := by
  induction bs with
  | nil => exact absurd rfl h
  | cons b bs ih =>
    by_cases hbs : bs = []
    · rw [hbs]
      exact .refl _
    · refine ((Same.refl [.mark k, .move [b]]).append (ih hbs)).trans ?_
      refine ((same_mark_move_mark k [b]).append (.refl [.move bs])).trans ?_
      exact (Same.refl [.mark k]).append (same_move_move [b] bs)

/-- Operations that make no callback but `on_header_value`. -/
def Quiet (os : List Op) : Prop := ∀ o ∈ os, o = .data .headerValue ∨ ∃ bs, o = .move bs

/-! ### Agreement -/

/-- How a part of the loop with its input is left, compared with the machine on that input. -/
inductive Agrees (n : Nat) (r : Step × Bytes) (o : Outcome HttpParserData Op Halt) : Prop
  /-- The input has been read. -/
  | read (stop : r.1.2.2 = none) (stop' : o.stop = none) (state : r.1.1 = o.state)
      (ops : Same r.1.2.1 o.out) (rest : r.2.length + o.consumed = n)
  /-- The loop is left behind a byte. -/
  | exit (stop : r.1.2.2 = some .exit) (stop' : o.stop = some .exit) (state : r.1.1 = o.state)
      (ops : Same r.1.2.1 o.out) (rest : r.2.length + (o.consumed + 1) = n)
  /-- Both are in the error state, and have completed the same messages. -/
  | error (stop : r.1.2.2 = some .error) (stop' : o.stop = some .error)
      (errno : r.1.1.httpErrno ≠ .ok) (errno' : o.state.httpErrno ≠ .ok)
      (os e e' : List Op) (ops : Same r.1.2.1 (os ++ e)) (ops' : o.out = os ++ e')
      (quiet : Quiet e) (quiet' : Quiet e')

/-- A part of the loop, then the rest of it. -/
theorem Agrees.append {n : Nat} {r r' : Step × Bytes} {p : HttpParserData} {w rest : Bytes}
    (h : Agrees w.length (r.1, []) (byteMachine.run p w)) (hstop : r.1.2.2 = none)
    (h' : Agrees n r' (byteMachine.run r.1.1 rest)) :
    Agrees (w.length + n) ((r'.1.1, r.1.2.1 ++ r'.1.2.1, r'.1.2.2), r'.2)
      (byteMachine.run p (w ++ rest)) := by
  cases h with
  | exit stop => exact absurd (hstop.symm.trans stop) nofun
  | error stop => exact absurd (hstop.symm.trans stop) nofun
  | read stop stop' state ops hread =>
    rw [run_append, andThen_of_none stop', ← state]
    have hread : (byteMachine.run p w).consumed = w.length := (Nat.zero_add _).symm.trans hread
    cases h' with
    | read s s' st os hr => exact .read s s' st (ops.append os) (by dsimp only; omega)
    | exit s s' st os hr => exact .exit s s' st (ops.append os) (by dsimp only; omega)
    | error s s' en en' os e e' hos hos' q q' =>
      refine .error s s' en en' ((byteMachine.run p w).out ++ os) e e' ?_ ?_ q q'
      · rw [List.append_assoc]
        exact ops.append hos
      · rw [List.append_assoc]
        exact congrArg ((byteMachine.run p w).out ++ ·) hos'

/-- An error without another callback than `on_header_value`. -/
theorem Agrees.of_quiet {n : Nat} {r : Step × Bytes} {o : Outcome HttpParserData Op Halt}
    (hstop : r.1.2.2 = some .error) (herrno : r.1.1.httpErrno ≠ .ok) (hquiet : Quiet r.1.2.1)
    (h : o.stop = some .error ∧ o.state.httpErrno ≠ .ok ∧ Quiet o.out) : Agrees n r o :=
  .error hstop h.1 herrno h.2.1 [] r.1.2.1 o.out (.refl _) rfl hquiet h.2.2

/-- A pass of the loop agrees with the machine: on the bytes it takes if the loop goes on, and on
    all of them if the loop is left. -/
inductive PassAgrees (p : HttpParserData) (data : Bytes) (r : Step × Bytes) : Prop
  | goOn (w : Bytes) (nonempty : w ≠ []) (data_eq : data = w ++ r.2) (stop : r.1.2.2 = none)
      (agrees : Agrees w.length (r.1, []) (byteMachine.run p w))
  | left (stop : r.1.2.2 ≠ none) (agrees : Agrees data.length r (byteMachine.run p data))

/-! ### Counting -/

/-- The parser with these members, and this many bytes counted. -/
def counted (p : HttpParserData) (m : ParserMembers) (n : Nat) : HttpParserData :=
  { p with others := { m with nread := n } }

theorem countHeaderSize_counted (p : HttpParserData) (m : ParserMembers) {n v : Nat}
    (hv : n + v < 2 ^ 32) :
    countHeaderSize (counted p m n) v =
      if maxHeaderSize < n + v then fail (counted p m (n + v)) .headerOverflow
      else next (counted p m (n + v)) :=
  countHeaderSize_eq hv

theorem countByte_counted {p : HttpParserData} (hheader : parsingHeader p.state = true)
    (m : ParserMembers) {n : Nat} (hn : n ≤ maxHeaderSize) :
    countByte (counted p m n) =
      if n = maxHeaderSize then fail (counted p m (n + 1)) .headerOverflow
      else next (counted p m (n + 1)) := by
  have hsmall : n + 1 < 2 ^ 32 := by
    rw [maxHeaderSize] at hn
    omega
  rw [countByte, if_pos (show parsingHeader (counted p m n).state = true from hheader),
    countHeaderSize_counted p m hsmall]
  congr 1
  rw [eq_iff_iff]
  omega

/-- A byte that is one too many. -/
theorem byteStep_overflow {p : HttpParserData} (hheader : parsingHeader p.state = true)
    (m : ParserMembers) (ch : UInt8) :
    byteStep (counted p m maxHeaderSize) ch =
      fail (counted p m (maxHeaderSize + 1)) .headerOverflow := by
  rw [byteStep, countByte_counted hheader m le_rfl, if_pos rfl]
  rfl

/-- A step over a byte of a name or a value. -/
def Steps (f : ParserMembers → UInt8 → Option ParserMembers) (p : HttpParserData) : Prop :=
  ∀ m m' ch n, n < maxHeaderSize → f m ch = some m' →
    byteStep (counted p m n) ch = (counted p m' (n + 1), [.move [ch]], none)

variable {f : ParserMembers → UInt8 → Option ParserMembers} {p : HttpParserData}

/-- The machine over a name or a value that fits. -/
theorem run_taken (hsteps : Steps f p) {m m' : ParserMembers} {w : Bytes}
    (h : w.foldlM f m = some m') {n : Nat} (hn : n + w.length ≤ maxHeaderSize) :
    byteMachine.run (counted p m n) w =
      ⟨counted p m' (n + w.length), w.flatMap fun b => [.move [b]], none, w.length⟩ :=
  run_of_foldlM byteMachine _ _ _ (fun m m' ch n => hsteps m m' ch n) h hn

theorem quiet_moves (w : Bytes) : Quiet (w.flatMap fun b => [.move [b]]) := by
  intro o hmem
  obtain ⟨b, -, hb⟩ := List.mem_flatMap.mp hmem
  exact .inr ⟨[b], List.mem_singleton.mp hb⟩

/-- The machine over a name or a value that does not fit, with the bytes behind it. -/
theorem run_overflow (hheader : parsingHeader p.state = true) (hsteps : Steps f p)
    {m : ParserMembers} {n : Nat} (data : Bytes) (hn : n ≤ maxHeaderSize)
    (htaken : maxHeaderSize ≤ n + (scan f m data).taken.length)
    (hdata : maxHeaderSize < n + data.length) :
    (byteMachine.run (counted p m n) data).stop = some .error ∧
      (byteMachine.run (counted p m n) data).state.httpErrno ≠ .ok ∧
      Quiet (byteMachine.run (counted p m n) data).out := by
  obtain ⟨k, hk⟩ := Nat.exists_eq_add_of_le hn
  obtain ⟨m', hm'⟩ := foldlM_take (foldlM_taken f m data) k
  -- the bytes that are counted up to the limit
  have htake : (scan f m data).taken.take k = data.take k := by
    conv_rhs => rw [← taken_append_rest f m data]
    rw [List.take_append_of_le_length (by omega)]
  rw [htake] at hm'
  have hlen : n + (data.take k).length = maxHeaderSize := by
    rw [List.length_take]
    omega
  obtain ⟨c, v, hv⟩ : ∃ c v, data.drop k = c :: v := by
    cases hdrop : data.drop k with
    | nil =>
      have hle := List.drop_eq_nil_iff.mp hdrop
      omega
    | cons c v => exact ⟨c, v, rfl⟩
  have hrun := run_taken hsteps hm' hlen.le
  rw [hlen] at hrun
  have hone : byteMachine.one (counted p m' maxHeaderSize) c =
      ⟨{ counted p m' (maxHeaderSize + 1) with httpErrno := .headerOverflow }, [], some .error,
        0⟩ := by
    rw [one, show byteMachine.step _ _ = _ from byteStep_overflow hheader m' c]
    rfl
  rw [← List.take_append_drop k data, run_append, hrun, andThen_of_none rfl, hv, run_cons, hone,
    andThen_of_stop rfl]
  exact ⟨rfl, (fun h => by cases h), (List.append_nil _).symm ▸ quiet_moves _⟩

/-! ### Names -/

/-- A character of a name; the name ends at any other. -/
def nameChar (m : ParserMembers) (ch : UInt8) : Option ParserMembers :=
  if token ch = 0 then none else headerFieldChar m ch

theorem headerFieldChar_nread (m : ParserMembers) (ch : UInt8) (n : Nat) :
    headerFieldChar { m with nread := n } ch =
      (headerFieldChar m ch).map fun m' => { m' with nread := n } := by
  rcases m with ⟨_, hs, _⟩
  cases hs <;> rfl

theorem byteSwitch_headerField {p : HttpParserData} (hst : p.state = .headerField) (ch : UInt8) :
    byteSwitch p ch = passed ch (headerFieldByte p ch) := by
  unfold byteSwitch
  simp only [hst]

theorem steps_nameChar (hst : p.state = .headerField) : Steps nameChar p := by
  intro m m' ch n hn h
  rw [nameChar] at h
  split at h
  · cases h
  · rename_i htoken
    rw [byteStep, countByte_counted (by rw [hst]; rfl) m hn.le, if_neg hn.ne, next_andThen,
      byteSwitch_headerField (p := counted p m (n + 1)) hst, headerFieldByte, if_neg htoken]
    simp only [counted, headerFieldChar_nread, h]
    rfl

/-- A character of a name leaves the count alone. -/
theorem nameChar_keeps {k : Nat} {m m' : ParserMembers} {ch : UInt8}
    (hm : nameState m.headerState = true ∧ m.nread = k) (h : nameChar m ch = some m') :
    nameState m'.headerState = true ∧ m'.nread = k := by
  rw [nameChar] at h
  split at h
  · cases h
  · obtain ⟨m₁, hm₁, hname, hkept, -⟩ := headerFieldChar_spec hm.1 ch
    cases hm₁.symm.trans h
    exact ⟨hname, hkept.nread.trans hm.2⟩

theorem skipTokens_spec (n : Nat) (data : Bytes) :
    (skipTokens n data).1 ++ (skipTokens n data).2 = data ∧
      ∀ c ∈ (skipTokens n data).1, token c ≠ 0 := by
  induction n generalizing data with
  | zero => exact ⟨rfl, nofun⟩
  | succ n ih =>
    cases data with
    | nil => exact ⟨rfl, nofun⟩
    | cons c rest =>
      rw [skipTokens]
      split
      · rename_i htoken
        obtain ⟨happend, hall⟩ := ih rest
        refine ⟨congrArg (c :: ·) happend, ?_⟩
        intro b hb
        rcases List.mem_cons.mp hb with rfl | hb
        · exact htoken
        · exact hall b hb
      · exact ⟨rfl, nofun⟩

/-- The characters of a name that is of no interest. -/
theorem foldlM_general {m : ParserMembers} (hgeneral : m.headerState = .general) {w : Bytes}
    (hw : ∀ c ∈ w, token c ≠ 0) : w.foldlM nameChar m = some m := by
  induction w with
  | nil => rfl
  | cons c w ih =>
    have hchar : nameChar m c = some m := by
      rw [nameChar, if_neg (hw c (by simp)), headerFieldChar, hgeneral]
    rw [List.foldlM_cons, hchar]
    exact ih fun b hb => hw b (by simp [hb])

/-- The loop of `case s_header_field` is a scan. -/
theorem headerFieldLoop_eq {m : ParserMembers} (hname : nameState m.headerState = true)
    {fuel : Nat} {data : Bytes} (hfuel : data.length ≤ fuel) :
    headerFieldLoop fuel m data =
      some ((scan nameChar m data).state, (scan nameChar m data).taken,
        (scan nameChar m data).rest) := by
  induction fuel generalizing m data with
  | zero =>
    rw [List.length_eq_zero_iff.mp (Nat.le_zero.mp hfuel)]
    rfl
  | succ fuel ih =>
    cases data with
    | nil => rfl
    | cons ch rest =>
      rw [headerFieldLoop]
      split
      · rename_i htoken
        rw [scan_cons_none (if_pos htoken)]
      · rename_i htoken
        obtain ⟨m', hm', hname', -⟩ := headerFieldChar_spec hname ch
        have hchar : nameChar m ch = some m' := (if_neg htoken).trans hm'
        rw [hm', Option.bind_some, scan_cons_some hchar]
        dsimp only
        split
        · rename_i hgeneral
          have hsame : m' = m := by
            rw [headerFieldChar, hgeneral] at hm'
            exact (Option.some.inj hm').symm
          rw [hsame]
          obtain ⟨happend, hall⟩ := skipTokens_spec (maxHeaderSize - 1) rest
          have hshort := congrArg List.length happend
          rw [List.length_append] at hshort
          rw [List.length_cons] at hfuel
          rw [ih hname (by omega)]
          have hscan := scan_append (foldlM_general hgeneral hall)
            (skipTokens (maxHeaderSize - 1) rest).2
          rw [happend] at hscan
          rw [hscan]
          rfl
        · rw [ih hname' (Nat.le_of_succ_le_succ hfuel)]
          rfl

/-- A step of the machine, as a run over one byte. -/
theorem one_of_step {p p' : HttpParserData} {ch : UInt8} {os : List Op}
    (h : byteStep p ch = (p', os, none)) : byteMachine.one p ch = ⟨p', os, none, 1⟩ := by
  rw [one, show byteMachine.step p ch = _ from h]

@[inherit_doc one_of_step]
theorem one_of_error {p p' : HttpParserData} {ch : UInt8} {os : List Op} {e : Halt}
    (h : byteStep p ch = (p', os, some e)) : byteMachine.one p ch = ⟨p', os, some e, 0⟩ := by
  rw [one, show byteMachine.step p ch = _ from h]

theorem quiet_singleton_move (w : Bytes) : Quiet [.move w] := by
  intro o hmem
  exact .inr ⟨w, List.mem_singleton.mp hmem⟩

/-- The byte behind a name or a value that fits, where it does not fail. -/
theorem run_taken_one (hsteps : Steps f p) {m m' : ParserMembers} {w : Bytes}
    (h : w.foldlM f m = some m') {n : Nat} (hn : n + w.length ≤ maxHeaderSize) {ch : UInt8}
    {p' : HttpParserData} {os : List Op}
    (hbyte : byteStep (counted p m' (n + w.length)) ch = (p', os, none)) :
    byteMachine.run (counted p m n) (w ++ [ch]) =
      ⟨p', (w.flatMap fun b => [.move [b]]) ++ os, none, w.length + 1⟩ := by
  rw [run_append, run_taken hsteps h hn, andThen_of_none rfl, run_singleton, one_of_step hbyte]

/-- The byte behind a name or a value that fits, where it fails. -/
theorem run_taken_error (hsteps : Steps f p) {m m' : ParserMembers} {w : Bytes}
    (h : w.foldlM f m = some m') {n : Nat} (hn : n + w.length ≤ maxHeaderSize) {ch : UInt8}
    {e : HttpErrno} (he : e ≠ .ok) {p' : HttpParserData}
    (hbyte : byteStep (counted p m' (n + w.length)) ch = fail p' e) (rest : Bytes) :
    (byteMachine.run (counted p m n) (w ++ ch :: rest)).stop = some .error ∧
      (byteMachine.run (counted p m n) (w ++ ch :: rest)).state.httpErrno ≠ .ok ∧
      Quiet (byteMachine.run (counted p m n) (w ++ ch :: rest)).out := by
  rw [run_append, run_taken hsteps h hn, andThen_of_none rfl, run_cons, one_of_error hbyte,
    andThen_of_stop rfl]
  exact ⟨rfl, he, (List.append_nil _).symm ▸ quiet_moves _⟩

/-- `case s_header_field`, behind the count of its first byte. -/
theorem headerFieldCase_agrees (hst : p.state = .headerField)
    (hname : nameState p.others.headerState = true) (hfirst : p.others.nread < maxHeaderSize)
    {data : Bytes} (hdata : data ≠ []) (hshort : data.length < 2 ^ 31) :
    PassAgrees p data
      (headerFieldCase (counted p p.others (p.others.nread + 1)) data) := by
  set n := p.others.nread with hn
  set m := (counted p p.others (n + 1)).others with hm
  have hp : counted p m n = p := rfl
  have hheader : parsingHeader p.state = true := by rw [hst]; rfl
  have hsteps := steps_nameChar hst
  have hmax : maxHeaderSize = 81920 := rfl
  have hloop := headerFieldLoop_eq (m := m) hname (le_refl data.length)
  have happend := taken_append_rest nameChar m data
  have hfold := foldlM_taken nameChar m data
  have hkeeps : nameState (scan nameChar m data).state.headerState = true ∧
      (scan nameChar m data).state.nread = n + 1 :=
    foldlM_invariant (fun _ _ _ h h' => nameChar_keeps h h') hfold ⟨hname, rfl⟩
  have hoverflow := run_overflow (m := m) hheader hsteps data hfirst.le
  rw [hp] at hoverflow
  have hrest := @scan_rest _ _ nameChar m data
  generalize scan nameChar m data = s at hloop happend hfold hkeeps hoverflow hrest
  obtain ⟨m', w, rest⟩ := s
  dsimp only at hloop happend hfold hkeeps hoverflow hrest
  have hq : { counted p p.others (n + 1) with others := m' } = counted p m' (n + 1) := by
    rw [counted, counted, ← hkeeps.2]
  have hlen := congrArg List.length happend
  rw [List.length_append] at hlen
  rw [headerFieldCase, hloop]
  dsimp only
  rw [hq]
  cases rest with
  | nil =>
    rw [List.append_nil] at happend
    subst happend
    have hpos := List.length_pos_of_ne_nil hdata
    dsimp only
    rw [countHeaderSize_counted p m' (by omega),
      show n + 1 + (w.length - 1) = n + w.length by omega]
    split
    · rename_i hover
      refine .left nofun ?_
      exact .of_quiet rfl nofun (quiet_singleton_move w) (hoverflow (by omega) (by omega))
    · rename_i hfits
      have hrun := run_taken hsteps hfold (Nat.le_of_not_lt hfits)
      rw [hp] at hrun
      refine .goOn w hdata (List.append_nil w).symm rfl ?_
      rw [hrun]
      exact .read rfl rfl rfl (same_moves w).symm (Nat.zero_add _)
  | cons c t =>
    rw [List.length_cons] at hlen
    dsimp only
    rw [countHeaderSize_counted p m' (by omega)]
    split
    · rename_i hover
      refine .left nofun ?_
      exact .of_quiet rfl nofun (quiet_singleton_move w) (hoverflow (by omega) (by omega))
    · rename_i hfits
      rw [next_andThen]
      -- the byte behind the name is not a token
      have htoken : token c = 0 := by
        by_contra htoken
        obtain ⟨m₁, hm₁, -⟩ := headerFieldChar_spec hkeeps.1 c
        have hnone := hrest (rfl : c :: t = c :: t)
        rw [nameChar, if_neg htoken, hm₁] at hnone
        cases hnone
      have hbyte : byteStep (counted p m' (n + w.length)) c =
          passed c (headerFieldByte (counted p m' (n + w.length + 1)) c) := by
        rw [byteStep, countByte_counted hheader m' (by omega), if_neg (by omega), next_andThen]
        exact byteSwitch_headerField (p := counted p m' (n + w.length + 1)) hst c
      rw [headerFieldByte, if_pos htoken] at hbyte
      split
      · rename_i hcolon
        rw [if_pos hcolon] at hbyte
        have hrun := run_taken_one hsteps hfold (by omega) hbyte
        rw [hp] at hrun
        have hsplit : data = (w ++ [c]) ++ t := by
          rw [List.append_assoc]
          exact happend.symm
        refine .goOn (w ++ [c]) (by simp) hsplit rfl ?_
        rw [hrun]
        refine .read rfl rfl ?_ ?_ ?_
        · show _ = _
          rw [show n + w.length + 1 = n + 1 + w.length by omega]
          rfl
        · exact (same_moves w).symm.append (.refl _)
        · show 0 + (w.length + 1) = _
          simp
      · rename_i hcolon
        rw [if_neg hcolon] at hbyte
        have hrun := run_taken_error hsteps hfold (by omega) (by nofun) hbyte t
        rw [hp, happend] at hrun
        refine .left nofun ?_
        exact .of_quiet rfl nofun (quiet_singleton_move w) hrun

/-! ### Values -/

/-- A character of a value; the value ends at any other. -/
def valueChar (m : ParserMembers) (ch : UInt8) : Option ParserMembers :=
  if ch = 0x0D ∨ ch = 0x0A ∨ badHeaderChar m ch = true then none
  else
    match headerValueChar m.headerState m ch with
    | .go h m' => some { m' with headerState := h }
    | _ => none

/-- The members of the parser in what a character does. -/
def ValueChar.map (g : ParserMembers → ParserMembers) : ValueChar → ValueChar
  | .go h m => .go h (g m)
  | .fail e => .fail e
  | .abort => .abort

/-- The switch looks at neither the count nor the member that its local `h_state` is loaded
    from. -/
theorem headerValueChar_update (h : HeaderState) (m : ParserMembers) (ch : UInt8) (n : Nat)
    (x : HeaderState) :
    headerValueChar h { m with nread := n, headerState := x } ch =
      (headerValueChar h m ch).map fun m' => { m' with nread := n, headerState := x } := by
  cases h <;> unfold headerValueChar contentLengthChar <;> dsimp only [setConnectionFlag] <;>
    repeat' first
      | rfl
      | split

theorem byteSwitch_headerValue {p : HttpParserData} (hst : p.state = .headerValue) (ch : UInt8) :
    byteSwitch p ch = passed ch (headerValueByte p ch) := by
  unfold byteSwitch
  simp only [hst]

theorem badHeaderChar_eq {m m' : ParserMembers} (h : m'.lenientHttpHeaders = m.lenientHttpHeaders)
    (ch : UInt8) : badHeaderChar m' ch = badHeaderChar m ch := by
  rw [badHeaderChar, badHeaderChar, h]

theorem steps_valueChar (hst : p.state = .headerValue) : Steps valueChar p := by
  intro m m' ch n hn h
  rw [valueChar] at h
  split at h
  · cases h
  · rename_i hchar
    obtain ⟨hcr, hlf, hbad⟩ := not_or.mp hchar |>.imp_right not_or.mp
    rw [byteStep, countByte_counted (by rw [hst]; rfl) m hn.le, if_neg hn.ne, next_andThen,
      byteSwitch_headerValue (p := counted p m (n + 1)) hst, headerValueByte, if_neg hcr,
      if_neg hlf, if_neg (by rw [counted, badHeaderChar_eq rfl]; exact hbad)]
    have hupdate := headerValueChar_update m.headerState m ch (n + 1) m.headerState
    simp only [counted]
    rw [hupdate]
    split at h
    · rename_i h' m₁ hgo
      cases h
      rw [hgo]
      rfl
    · cases h

/-- What the characters of a value keep. -/
structure InValue (k : Nat) (m : ParserMembers) : Prop where
  value : valueState m.headerState = true
  nread : m.nread = k
  contentLength : m.contentLength ≤ ullongMax
  strict : m.lenientHttpHeaders = false

theorem valueChar_keeps {k : Nat} {m m' : ParserMembers} {ch : UInt8} (hm : InValue k m)
    (h : valueChar m ch = some m') : InValue k m' := by
  rw [valueChar] at h
  split at h
  · cases h
  · rcases headerValueChar_spec hm.value m ch hm.contentLength with
      ⟨e, -, heq⟩ | ⟨h', m₁, heq, hvalue, hkept, hlength⟩
    · rw [heq] at h
      cases h
    · rw [heq] at h
      cases h
      exact ⟨hvalue, hkept.nread.trans hm.nread, hlength, hkept.strict.trans hm.strict⟩

/-- A byte that the inner loop for `h_general` passes over. -/
def Ordinary (m : ParserMembers) (c : UInt8) : Prop :=
  ¬(c = 0x0D ∨ c = 0x0A) ∧ ¬badHeaderChar m c = true

theorem foldlM_ordinary {m : ParserMembers} (hgeneral : m.headerState = .general) {w : Bytes}
    (hw : ∀ c ∈ w, Ordinary m c) : w.foldlM valueChar m = some m := by
  induction w with
  | nil => rfl
  | cons c w ih =>
    obtain ⟨hline, hbad⟩ := hw c (by simp)
    have hchar : valueChar m c = some m := by
      have hsame : { m with headerState := HeaderState.general } = m := by
        rw [← hgeneral]
      rw [valueChar, if_neg (by rw [← or_assoc]; exact not_or.mpr ⟨hline, hbad⟩), hgeneral]
      exact congrArg some hsame
    rw [List.foldlM_cons, hchar]
    exact ih fun b hb => hw b (by simp [hb])

/-- Where the inner loop for `h_general` stops: at an invalid character, at the end of the line or
    of the read, or behind one byte more than it may look at. -/
theorem skipValue_spec (m : ParserMembers) (n : Nat) (data : Bytes) :
    (skipValue m n data).1 ++ (skipValue m n data).2.1 = data ∧
      (((∀ c ∈ (skipValue m n data).1, Ordinary m c) ∧
          ((skipValue m n data).2.2 = true →
            ∃ c t, (skipValue m n data).2.1 = c :: t ∧ ¬(c = 0x0D ∨ c = 0x0A) ∧
              badHeaderChar m c = true)) ∨
        (skipValue m n data).2.2 = false ∧ (skipValue m n data).1.length = n + 1 ∧
          ∀ c ∈ (skipValue m n data).1.take n, Ordinary m c) := by
  induction n generalizing data with
  | zero =>
    cases data with
    | nil => exact ⟨rfl, .inl ⟨nofun, nofun⟩⟩
    | cons c rest => exact ⟨rfl, .inr ⟨rfl, rfl, nofun⟩⟩
  | succ n ih =>
    cases data with
    | nil => exact ⟨rfl, .inl ⟨nofun, nofun⟩⟩
    | cons c rest =>
      rw [skipValue]
      split
      · exact ⟨rfl, .inl ⟨nofun, nofun⟩⟩
      · rename_i hline
        split
        · rename_i hbad
          exact ⟨rfl, .inl ⟨nofun, fun _ => ⟨c, rest, rfl, hline, hbad⟩⟩⟩
        · rename_i hbad
          obtain ⟨happend, hcases⟩ := ih rest
          refine ⟨congrArg (c :: ·) happend, ?_⟩
          rcases hcases with ⟨hall, hstop⟩ | ⟨hfine, hlen, hall⟩
          · refine .inl ⟨?_, hstop⟩
            intro b hb
            rcases List.mem_cons.mp hb with rfl | hb
            · exact ⟨hline, hbad⟩
            · exact hall b hb
          · refine .inr ⟨hfine, congrArg (· + 1) hlen, ?_⟩
            intro b hb
            rcases List.mem_cons.mp hb with rfl | hb
            · exact ⟨hline, hbad⟩
            · exact hall b hb

/-- How the loop over a value is left, by the byte it is left at. -/
def ValueStop (how : ValueEnd) : Bytes → Prop
  | [] => how = .stop
  | c :: _ =>
    if c = 0x0D then how = .cr
    else if c = 0x0A then how = .lf
    else ∃ e, e ≠ .ok ∧ how = .fail e

theorem ValueStop.ne_abort {how : ValueEnd} {rest : Bytes} (h : ValueStop how rest) :
    how ≠ .abort := by
  rintro rfl
  unfold ValueStop at h
  split at h
  · cases h
  · split at h
    · cases h
    · split at h
      · cases h
      · obtain ⟨e, -, he⟩ := h
        cases he

theorem ValueStop.ne_ok {how : ValueEnd} {rest : Bytes} (h : ValueStop how rest) :
    ∀ e, how = .fail e → e ≠ .ok := by
  rintro e rfl
  unfold ValueStop at h
  split at h
  · cases h
  · split at h
    · cases h
    · split at h
      · cases h
      · obtain ⟨e', he', heq⟩ := h
        cases heq
        exact he'

/-- What the loop over a value may leave at all. -/
structure ValueRun.Sound (r : ValueRun) (k : Nat) (data : Bytes) : Prop where
  taken : r.taken.length ≤ data.length
  nread : r.members.nread = k
  abort : r.stop ≠ .abort
  fail : ∀ e, r.stop = .fail e → e ≠ .ok

/-- What the loop over a value leaves, compared with a scan of its bytes: the same, or both more
    than a header may have. -/
structure ValueAgrees (k : Nat) (r : ValueRun) (s : Scan ParserMembers UInt8) (data : Bytes) :
    Prop where
  sound : r.Sound k data
  same : (((∀ e, r.stop ≠ .fail e) → { r.members with headerState := r.hState } = s.state) ∧
      r.taken = s.taken ∧ r.rest = s.rest ∧ ValueStop r.stop r.rest) ∨
    maxHeaderSize < r.taken.length ∧ maxHeaderSize ≤ s.taken.length

/-- Nothing has been passed over. -/
theorem ValueAgrees.of_nil {k : Nat} {r : ValueRun} {s : Scan ParserMembers UInt8} {data : Bytes}
    (hr : r.taken = []) (hs : s.taken = []) (hrest : r.rest = s.rest)
    (hstate : (∀ e, r.stop ≠ .fail e) → { r.members with headerState := r.hState } = s.state)
    (hnread : r.members.nread = k) (hstop : ValueStop r.stop r.rest) : ValueAgrees k r s data :=
  ⟨⟨hr ▸ Nat.zero_le _, hnread, hstop.ne_abort, hstop.ne_ok⟩,
    .inl ⟨hstate, hr.trans hs.symm, hrest, hstop⟩⟩

theorem ValueAgrees.append {k : Nat} {r : ValueRun} {s : Scan ParserMembers UInt8} {data : Bytes}
    (h : ValueAgrees k r s data) (u : Bytes) :
    ValueAgrees k { r with taken := u ++ r.taken } { s with taken := u ++ s.taken }
      (u ++ data) := by
  obtain ⟨⟨hle, hnread, habort, hfail⟩, hcases⟩ := h
  refine ⟨⟨?_, hnread, habort, hfail⟩, ?_⟩
  · simp only [List.length_append]
    omega
  · rcases hcases with ⟨hstate, htaken, hrest, hstop⟩ | ⟨hlong, hscan⟩
    · exact .inl ⟨hstate, congrArg (u ++ ·) htaken, hrest, hstop⟩
    · refine .inr ⟨?_, ?_⟩ <;> simp only [List.length_append] <;> omega

theorem skipValue_ne_nil {m : ParserMembers} {ch : UInt8} (h : Ordinary m ch) (n : Nat)
    (rest : Bytes) : (skipValue m n (ch :: rest)).1 ≠ [] := by
  cases n with
  | zero => exact List.cons_ne_nil _ _
  | succ n =>
    rw [skipValue, if_neg h.1, if_neg h.2]
    exact List.cons_ne_nil _ _

/-- The inner loop for `h_general`, and the outer one behind it. -/
theorem skipValue_agrees {m : ParserMembers} {fuel : Nat}
    (ih : ∀ data : Bytes, data.length ≤ fuel →
      ValueAgrees m.nread (headerValueLoop fuel .general m data)
        (scan valueChar { m with headerState := .general } data) data)
    {ch : UInt8} {rest : Bytes} (hch : Ordinary m ch) (hfuel : rest.length ≤ fuel) :
    ValueAgrees m.nread
      (let skipped := skipValue m maxHeaderSize (ch :: rest)
        if skipped.2.2 then ⟨.general, m, skipped.1, skipped.2.1, .fail .invalidHeaderToken⟩
        else
          let r := headerValueLoop fuel .general m skipped.2.1
          { r with taken := skipped.1 ++ r.taken })
      (scan valueChar { m with headerState := .general } (ch :: rest)) (ch :: rest) := by
  obtain ⟨happend, hcases⟩ := skipValue_spec m maxHeaderSize (ch :: rest)
  have hne := skipValue_ne_nil hch maxHeaderSize rest
  generalize skipValue m maxHeaderSize (ch :: rest) = skipped at happend hcases hne
  obtain ⟨u, v, bad⟩ := skipped
  dsimp only at happend hcases hne ⊢
  have hlen := congrArg List.length happend
  rw [List.length_append, List.length_cons] at hlen
  have hpos := List.length_pos_of_ne_nil hne
  have hrest := ih v (by omega)
  rw [← happend]
  rcases hcases with ⟨hall, hbad⟩ | ⟨hfine, hlong, hall⟩
  · -- all that has been passed over is fine
    rw [scan_append (foldlM_ordinary (m := { m with headerState := .general }) rfl hall)]
    split
    · rename_i hstop
      obtain ⟨c, t, rfl, hline, hinvalid⟩ := hbad hstop
      obtain ⟨hcr, hlf⟩ := not_or.mp hline
      rw [scan_cons_none (if_pos (.inr (.inr hinvalid)))]
      refine ⟨⟨?_, rfl, nofun, ?_⟩, .inl ⟨fun _ => rfl, (List.append_nil u).symm, rfl, ?_⟩⟩
      · rw [List.length_append]
        exact Nat.le_add_right _ _
      · rintro e ⟨⟩
        nofun
      · rw [ValueStop, if_neg hcr, if_neg hlf]
        exact ⟨.invalidHeaderToken, nofun, rfl⟩
    · exact hrest.append u
  · -- one byte has been passed over that may be anything
    rw [hfine, if_neg Bool.false_ne_true]
    have hscan := scan_append (foldlM_ordinary (m := { m with headerState := .general }) rfl hall)
      (u.drop maxHeaderSize ++ v)
    rw [← List.append_assoc, List.take_append_drop] at hscan
    rw [hscan]
    have hle := hrest.sound.taken
    refine ⟨⟨?_, hrest.sound.nread, hrest.sound.abort, hrest.sound.fail⟩, .inr ⟨?_, ?_⟩⟩ <;>
      simp only [List.length_append, List.length_take] <;> omega

/-- The loop of `case s_header_value`. -/
theorem headerValueLoop_agrees {k : Nat} {h : HeaderState} {m : ParserMembers}
    (hm : InValue k { m with headerState := h }) {fuel : Nat} {data : Bytes}
    (hfuel : data.length ≤ fuel) :
    ValueAgrees k (headerValueLoop fuel h m data)
      (scan valueChar { m with headerState := h } data) data := by
  induction fuel generalizing h m data with
  | zero =>
    rw [List.length_eq_zero_iff.mp (Nat.le_zero.mp hfuel)]
    exact .of_nil rfl rfl rfl (fun _ => rfl) hm.nread rfl
  | succ fuel ih =>
    cases data with
    | nil => exact .of_nil rfl rfl rfl (fun _ => rfl) hm.nread rfl
    | cons ch rest =>
      have hk : m.nread = k := hm.nread
      have hstop : valueChar { m with headerState := h } ch = none →
          scan valueChar { m with headerState := h } (ch :: rest) =
            ⟨{ m with headerState := h }, [], ch :: rest⟩ := fun hnone => scan_cons_none hnone rest
      rw [headerValueLoop]
      split
      · rename_i hcr
        rw [hstop (if_pos (.inl hcr))]
        refine .of_nil rfl rfl rfl (fun _ => rfl) hk ?_
        rw [ValueStop, if_pos hcr]
      · rename_i hcr
        split
        · rename_i hlf
          rw [hstop (if_pos (.inr (.inl hlf)))]
          refine .of_nil rfl rfl rfl (fun _ => rfl) hk ?_
          rw [ValueStop, if_neg hcr, if_pos hlf]
        · rename_i hlf
          split
          · rename_i hbad
            rw [hstop (if_pos (.inr (.inr hbad)))]
            refine .of_nil rfl rfl rfl (fun _ => rfl) hk ?_
            rw [ValueStop, if_neg hcr, if_neg hlf]
            exact ⟨.invalidHeaderToken, (fun h => by cases h), rfl⟩
          · rename_i hbad
            split
            · rename_i hgeneral
              subst hgeneral hk
              exact skipValue_agrees (fun data => ih hm) ⟨not_or.mpr ⟨hcr, hlf⟩, hbad⟩
                (Nat.le_of_succ_le_succ hfuel)
            · have hchar : valueChar { m with headerState := h } ch =
                  match (headerValueChar h m ch).map
                    fun m' => { m' with nread := m.nread, headerState := h } with
                  | .go h' m' => some { m' with headerState := h' }
                  | _ => none := by
                rw [valueChar, if_neg (by rintro (hc | hc | hc) <;> contradiction),
                  ← headerValueChar_update]
              rcases headerValueChar_spec hm.value m ch hm.contentLength with
                ⟨e, he, heq⟩ | ⟨h', m', heq, -, hkept, -⟩
              · rw [heq] at hchar ⊢
                rw [hstop hchar]
                refine .of_nil rfl rfl rfl (fun hfail => absurd rfl (hfail e)) hk ?_
                rw [ValueStop, if_neg hcr, if_neg hlf]
                exact ⟨e, he, rfl⟩
              · have hsome : valueChar { m with headerState := h } ch =
                    some { m' with headerState := h' } := by
                  rw [hchar, heq]
                  show some { m' with nread := m.nread, headerState := h' } = _
                  rw [← hkept.nread]
                rw [heq, scan_cons_some hsome]
                exact (ih (valueChar_keeps hm hsome) (Nat.le_of_succ_le_succ hfuel)).append [ch]

/-- The end of a line, behind a value that fits. -/
theorem byteStep_lineEnd (hst : p.state = .headerValue) (m : ParserMembers) {n : Nat}
    (hn : n < maxHeaderSize) {ch : UInt8} (hch : ch = 0x0D ∨ ch = 0x0A) :
    byteStep (counted p m n) ch =
      ({ counted p m (n + 1) with
          state := if ch = 0x0D then .headerAlmostDone else .headerValueLws },
        [.data .headerValue, .move [ch]], none) := by
  rw [byteStep, countByte_counted (by rw [hst]; rfl) m hn.le, if_neg hn.ne, next_andThen,
    byteSwitch_headerValue (p := counted p m (n + 1)) hst, headerValueByte]
  rcases hch with rfl | rfl <;> rfl

/-- Any other byte behind a value that fits. -/
theorem byteStep_badValue (hst : p.state = .headerValue) {k : Nat} {m : ParserMembers}
    (hm : InValue k m) {n : Nat} (hn : n < maxHeaderSize) {ch : UInt8} (hcr : ch ≠ 0x0D)
    (hlf : ch ≠ 0x0A) (hnone : valueChar m ch = none) :
    ∃ e p', e ≠ .ok ∧ byteStep (counted p m n) ch = fail p' e := by
  rw [byteStep, countByte_counted (by rw [hst]; rfl) m hn.le, if_neg hn.ne, next_andThen,
    byteSwitch_headerValue (p := counted p m (n + 1)) hst, headerValueByte, if_neg hcr, if_neg hlf]
  split
  · exact ⟨.invalidHeaderToken, _, nofun, rfl⟩
  · rename_i hbad
    rw [counted, badHeaderChar_eq rfl] at hbad
    rw [valueChar, if_neg (by rintro (hc | hc | hc) <;> contradiction)] at hnone
    have hupdate := headerValueChar_update m.headerState m ch (n + 1) m.headerState
    simp only [counted]
    rw [hupdate]
    rcases headerValueChar_spec hm.value m ch hm.contentLength with
      ⟨e, he, heq⟩ | ⟨h', m', heq, -⟩
    · rw [heq]
      exact ⟨e, _, he, rfl⟩
    · rw [heq] at hnone
      cases hnone

/-- A value that is too long, or ends with a byte that is not allowed. -/
theorem headerValueBehind_error (p : HttpParserData) {n : Nat} {data : Bytes} {r : ValueRun}
    (hsound : r.Sound (n + 1) data) (hn : n < maxHeaderSize) (hshort : data.length < 2 ^ 31)
    (hover : (∀ e, r.stop ≠ .fail e) → 0 < r.taken.length ∧
      maxHeaderSize < n + r.taken.length + if r.stop = .stop then 0 else 1) :
    (headerValueBehind p data r).1.2.2 = some .error ∧
      (headerValueBehind p data r).1.1.httpErrno ≠ .ok ∧
      Quiet (headerValueBehind p data r).1.2.1 := by
  have hmax : maxHeaderSize = 81920 := rfl
  have hle := hsound.taken
  have hnread := hsound.nread
  -- behind the value the bytes are counted
  have hcount : ∀ (p : HttpParserData) (v : Nat), p.others.nread = n + 1 → v < 2 ^ 31 →
      maxHeaderSize < n + 1 + v →
      countHeaderSize p v = fail { p with others.nread := n + 1 + v } .headerOverflow := by
    intro p v hp hv hlong
    rw [countHeaderSize_eq (by omega), hp, if_pos hlong]
  have hquiet : Quiet [.move r.taken, .data .headerValue] := by
    intro o hmem
    rcases List.mem_cons.mp hmem with rfl | hmem
    · exact .inr ⟨_, rfl⟩
    · exact .inl (List.mem_singleton.mp hmem)
  rw [headerValueBehind]
  cases hstop : r.stop with
  | stop =>
    obtain ⟨hpos, hlong⟩ := hover (by rw [hstop]; nofun)
    rw [if_pos hstop] at hlong
    dsimp only
    rw [hcount _ _ hnread (by omega) (by omega)]
    exact ⟨rfl, nofun, quiet_singleton_move _⟩
  | cr =>
    obtain ⟨hpos, hlong⟩ := hover (by rw [hstop]; nofun)
    rw [if_neg (by rw [hstop]; nofun)] at hlong
    dsimp only
    rw [hcount _ _ hnread (by omega) (by omega)]
    exact ⟨rfl, nofun, hquiet⟩
  | lf =>
    obtain ⟨hpos, hlong⟩ := hover (by rw [hstop]; nofun)
    rw [if_neg (by rw [hstop]; nofun)] at hlong
    dsimp only
    rw [hcount _ _ hnread (by omega) (by omega)]
    exact ⟨rfl, nofun, quiet_singleton_move _⟩
  | fail e => exact ⟨rfl, hsound.fail e hstop, quiet_singleton_move _⟩
  | abort => exact absurd hstop hsound.abort

@[inherit_doc headerValueBehind_error]
theorem headerValueBehind_left (q : HttpParserData) {n : Nat} {data : Bytes} {r : ValueRun}
    (hsound : r.Sound (n + 1) data) (hn : n < maxHeaderSize) (hshort : data.length < 2 ^ 31)
    (hover : (∀ e, r.stop ≠ .fail e) → 0 < r.taken.length ∧
      maxHeaderSize < n + r.taken.length + if r.stop = .stop then 0 else 1)
    (hmachine : (byteMachine.run p data).stop = some .error ∧
      (byteMachine.run p data).state.httpErrno ≠ .ok ∧ Quiet (byteMachine.run p data).out) :
    PassAgrees p data (headerValueBehind q data r) := by
  obtain ⟨hstop, herrno, hquiet⟩ := headerValueBehind_error q hsound hn hshort hover
  refine .left (by rw [hstop]; nofun) ?_
  exact .of_quiet hstop herrno hquiet hmachine

/-- `case s_header_value`, behind the count of its first byte. -/
theorem headerValueCase_agrees (hst : p.state = .headerValue) (hinv : Inv p)
    (hfirst : p.others.nread < maxHeaderSize) {data : Bytes} (hdata : data ≠ [])
    (hshort : data.length < 2 ^ 31) :
    PassAgrees p data (headerValueCase (counted p p.others (p.others.nread + 1)) data) := by
  set n := p.others.nread with hn
  set m := (counted p p.others (n + 1)).others with hm
  have hp : counted p m n = p := rfl
  have hheader : parsingHeader p.state = true := by rw [hst]; rfl
  have hsteps := steps_valueChar hst
  have hmax : maxHeaderSize = 81920 := rfl
  have hstate := hinv.state
  unfold StateInv at hstate
  simp only [hst] at hstate
  have hstart : InValue (n + 1) m :=
    ⟨hstate, rfl, hinv.base.contentLength, hinv.base.strict⟩
  have hloop : ValueAgrees (n + 1) (headerValueLoop data.length m.headerState m data)
      (scan valueChar m data) data := headerValueLoop_agrees hstart (le_refl data.length)
  have happend := taken_append_rest valueChar m data
  have hfold := foldlM_taken valueChar m data
  have hkeeps : InValue (n + 1) (scan valueChar m data).state :=
    foldlM_invariant (fun _ _ _ h h' => valueChar_keeps h h') hfold hstart
  have hoverflow := run_overflow (m := m) hheader hsteps data hfirst.le
  rw [hp] at hoverflow
  have hrest := @scan_rest _ _ valueChar m data
  rw [headerValueCase]
  generalize headerValueLoop data.length (counted p p.others (n + 1)).others.headerState
    (counted p p.others (n + 1)).others data = r at hloop
  generalize scan valueChar m data = s at hloop happend hfold hkeeps hoverflow hrest
  have hleft := headerValueBehind_left (p := p) (counted p p.others (n + 1)) hloop.sound hfirst
    hshort
  have hle := hloop.sound.taken
  rcases hloop.same with ⟨hstate, htaken, hrest', hstop⟩ | ⟨hlong, hscan⟩
  · obtain ⟨h, m₁, taken, rest₁, how⟩ := r
    obtain ⟨m', w, rest⟩ := s
    dsimp only at hstate htaken hrest' hstop hleft hle happend hfold hkeeps hoverflow hrest
    subst htaken hrest'
    have hlen := congrArg List.length happend
    rw [List.length_append] at hlen
    have hq : { counted p p.others (n + 1) with others := m' } = counted p m' (n + 1) := by
      rw [counted, counted, ← hkeeps.nread]
    cases rest₁ with
    | nil =>
      rw [List.append_nil] at happend
      subst happend hstop
      have hpos := List.length_pos_of_ne_nil hdata
      by_cases hfits : n + taken.length ≤ maxHeaderSize
      · have hrun := run_taken hsteps hfold hfits
        rw [hp] at hrun
        have hbehind : headerValueBehind (counted p p.others (n + 1)) taken
            ⟨h, m₁, taken, [], .stop⟩ =
              ((counted p m' (n + taken.length), [.move taken], none), []) := by
          rw [headerValueBehind]
          dsimp only
          rw [hstate (fun _ h => by cases h), hq, countHeaderSize_counted p m' (by omega),
            if_neg (by omega),
            show n + 1 + (taken.length - 1) = n + taken.length by omega]
          rfl
        rw [hbehind]
        refine .goOn taken hdata (List.append_nil taken).symm rfl ?_
        rw [hrun]
        exact .read rfl rfl rfl (same_moves taken).symm (Nat.zero_add _)
      · refine hleft (fun _ => ⟨hpos, ?_⟩) (hoverflow (by omega) (by omega))
        rw [if_pos rfl]
        omega
    | cons c t =>
      rw [List.length_cons] at hlen
      have hnone := hrest (rfl : c :: t = c :: t)
      by_cases hfits : n + taken.length < maxHeaderSize
      · by_cases hline : c = 0x0D ∨ c = 0x0A
        · have hbyte := byteStep_lineEnd hst m' hfits hline
          have hrun := run_taken_one hsteps hfold hfits.le hbyte
          rw [hp] at hrun
          have hbehind : headerValueBehind (counted p p.others (n + 1)) data
              ⟨h, m₁, taken, c :: t, how⟩ =
                (({ counted p m' (n + taken.length + 1) with
                    state := if c = 0x0D then .headerAlmostDone else .headerValueLws },
                  [.move taken, .data .headerValue, .move [c]], none), t) := by
            have hcount : ∀ st (m₂ : ParserMembers), m₂.nread = n + 1 → countHeaderSize
                { counted p p.others (n + 1) with state := st, others := m₂ } taken.length =
                  next { counted p m₂ (n + taken.length + 1) with state := st } := by
              intro st m₂ hm₂
              have hsmall : m₂.nread + taken.length < 2 ^ 32 := by
                rw [hm₂]
                omega
              rw [countHeaderSize_eq hsmall]
              dsimp only
              rw [hm₂, if_neg (by omega), Nat.add_right_comm]
              rfl
            rw [ValueStop] at hstop
            rw [headerValueBehind]
            by_cases hcr : c = 0x0D
            · rw [if_pos hcr] at hstop ⊢
              subst hstop
              obtain rfl := hstate (fun _ h => by cases h)
              dsimp only
              rw [hcount _ _ hkeeps.nread]
              rfl
            · have hlf := hline.resolve_left hcr
              rw [if_neg hcr, if_pos hlf] at hstop
              subst hstop
              obtain rfl := hstate (fun _ h => by cases h)
              dsimp only
              rw [hcount _ m₁ hloop.sound.nread, next_andThen, if_neg hcr]
              rfl
          rw [hbehind]
          have hsplit : data = (taken ++ [c]) ++ t := by
            rw [List.append_assoc]
            exact happend.symm
          refine .goOn (taken ++ [c]) (by simp) hsplit rfl ?_
          rw [hrun]
          refine .read rfl rfl rfl ?_ ?_
          · exact (same_moves taken).symm.append (.refl _)
          · show 0 + (taken.length + 1) = _
            simp
        · obtain ⟨hcr, hlf⟩ := not_or.mp hline
          obtain ⟨e, p', he, hbyte⟩ := byteStep_badValue hst hkeeps hfits hcr hlf hnone
          have hrun := run_taken_error hsteps hfold hfits.le he hbyte t
          rw [hp, happend] at hrun
          refine hleft (fun hfail => ?_) hrun
          rw [ValueStop, if_neg hcr, if_neg hlf] at hstop
          obtain ⟨e', -, heq⟩ := hstop
          exact absurd heq (hfail e')
      · refine hleft (fun hfail => ⟨by omega, ?_⟩) (hoverflow (by omega) (by omega))
        have hne : how ≠ .stop := by
          rintro rfl
          rw [ValueStop] at hstop
          split at hstop
          · cases hstop
          · split at hstop
            · cases hstop
            · obtain ⟨e, -, he⟩ := hstop
              cases he
        rw [if_neg hne]
        omega
  · refine hleft (fun _ => ⟨by omega, ?_⟩) (hoverflow (by omega) (by omega))
    split <;> omega

/-! ### Bodies -/

/-- The parser with this many bytes of the body to come. -/
def toCome (p : HttpParserData) (n : Nat) : HttpParserData :=
  { p with others := { p.others with contentLength := n } }

/-- What follows a piece of the body. -/
def bodyBehind (p : HttpParserData) : Step :=
  if p.others.contentLength ≠ 0 then next p
  else if p.state = .bodyIdentity then
    Op.before (.data .body) (messageDoneCase { p with state := .messageDone })
  else goTo .chunkDataAlmostDone p

theorem bodyBehind_more {n : Nat} (hn : n ≠ 0) : bodyBehind (toCome p n) = next (toCome p n) :=
  if_pos hn

theorem bodyBehind_identity (hst : p.state = .bodyIdentity) :
    bodyBehind (toCome p 0) =
      Op.before (.data .body) (messageDoneCase { toCome p 0 with state := .messageDone }) := by
  have hzero : ¬(toCome p 0).others.contentLength ≠ 0 := not_not.mpr rfl
  rw [bodyBehind, if_neg hzero]
  exact if_pos hst

theorem bodyBehind_chunk (hst : p.state = .chunkData) :
    bodyBehind (toCome p 0) = goTo .chunkDataAlmostDone (toCome p 0) := by
  have hne : ¬(toCome p 0).state = .bodyIdentity := by
    show ¬p.state = .bodyIdentity
    rw [hst]
    nofun
  have hzero : ¬(toCome p 0).others.contentLength ≠ 0 := not_not.mpr rfl
  rw [bodyBehind, if_neg hzero, if_neg hne]

theorem bodyCase_eq (hst : p.state = .bodyIdentity ∨ p.state = .chunkData) (hinv : Inv p)
    (data : Bytes) :
    bodyCase p data =
      (Op.before (.mark .body) (Op.before
          (.move (data.take (min p.others.contentLength data.length)))
          (bodyBehind (toCome p
            (p.others.contentLength - min p.others.contentLength data.length)))),
        data.drop (min p.others.contentLength data.length)) := by
  have hstate := hinv.state
  unfold StateInv at hstate
  rw [bodyCase]
  dsimp only
  rcases hst with hst | hst <;> simp only [hst] at hstate
  · rw [if_pos hst, if_neg (not_not.mpr ⟨hstate.1, hstate.2.ne⟩)]
    split
    · rename_i hzero
      rw [hzero, bodyBehind_identity hst]
      rfl
    · rename_i hmore
      rw [bodyBehind_more hmore]
      rfl
  · rw [if_neg (by rw [hst]; nofun), if_pos hst,
      if_neg (by simp [hstate.1, bodyAsserts, hstate.2.1, hstate.2.2.ne])]
    split
    · rename_i hzero
      rw [hzero, bodyBehind_chunk hst]
      rfl
    · rename_i hmore
      rw [bodyBehind_more hmore]
      rfl

theorem inv_toCome (hst : p.state = .bodyIdentity ∨ p.state = .chunkData) (hinv : Inv p) {n : Nat}
    (hn : n ≠ 0) (hle : n ≤ p.others.contentLength) : Inv (toCome p n) := by
  obtain ⟨hbase, hstate⟩ := hinv
  refine ⟨⟨hbase.ok, hbase.nread, hle.trans hbase.contentLength, hbase.strict, hbase.lengths⟩, ?_⟩
  unfold StateInv at hstate ⊢
  rcases hst with hst | hst
  · simp only [hst] at hstate
    simp only [toCome, hst]
    exact ⟨hn, hle.trans_lt hstate.2⟩
  · simp only [hst] at hstate
    simp only [toCome, hst]
    exact ⟨hstate.1, hn, hle.trans_lt hstate.2.2⟩

/-- One byte of a body. -/
theorem byteStep_body (hst : p.state = .bodyIdentity ∨ p.state = .chunkData) (hinv : Inv p)
    (ch : UInt8) :
    byteStep p ch = Op.before (.mark .body) (Op.before (.move [ch])
      (bodyBehind (toCome p (p.others.contentLength - 1)))) := by
  have hstate := hinv.state
  unfold StateInv at hstate
  have hpos : p.others.contentLength ≠ 0 := by
    rcases hst with hst | hst <;> simp only [hst] at hstate
    · exact hstate.1
    · exact hstate.2.1
  have hcount : countByte p = next p := by
    rw [countByte, if_neg]
    rcases hst with hst | hst <;> rw [hst] <;> nofun
  have hswitch : byteSwitch p ch = (bodyCase p [ch]).1 := by
    unfold byteSwitch
    rcases hst with hst | hst <;> simp only [hst]
  have hmin : min p.others.contentLength [ch].length = 1 := by
    rw [List.length_singleton]
    omega
  rw [byteStep, hcount, next_andThen, hswitch, bodyCase_eq hst hinv, hmin]
  rfl

/-- The machine over a piece of the body that is not the end of it. -/
theorem run_body (hst : p.state = .bodyIdentity ∨ p.state = .chunkData) (hinv : Inv p) {w : Bytes}
    (hw : w.length < p.others.contentLength) :
    byteMachine.run p w =
      ⟨toCome p (p.others.contentLength - w.length),
        w.flatMap fun b => [.mark .body, .move [b]], none, w.length⟩ := by
  have hfold : ∀ w : Bytes, w.foldlM (fun (_ : Unit) (_ : UInt8) => some ()) () = some () := by
    intro w
    induction w with
    | nil => rfl
    | cons b w ih => exact ih
  have hrun := run_of_foldlM byteMachine (fun (_ : Unit) n => toCome p (p.others.contentLength - n))
    (fun b => [.mark .body, .move [b]]) (p.others.contentLength - 1) ?_ (hfold w)
    (show 0 + w.length ≤ p.others.contentLength - 1 by omega)
  · rw [Nat.zero_add] at hrun
    exact hrun
  · intro s s' ch n hn hs
    have hmore : p.others.contentLength - n - 1 ≠ 0 := by omega
    have hinv' := inv_toCome hst hinv (show p.others.contentLength - n ≠ 0 by omega)
      (Nat.sub_le _ _)
    refine (byteStep_body (p := toCome p (p.others.contentLength - n)) hst hinv' ch).trans ?_
    rw [show (toCome p (p.others.contentLength - n)).others.contentLength - 1 =
      p.others.contentLength - n - 1 from rfl, bodyBehind_more hmore]
    rfl

theorem bodyBehind_halt (p : HttpParserData) :
    (bodyBehind p).2.2 = none ∨ (bodyBehind p).2.2 = some .exit := by
  unfold bodyBehind
  split
  · exact .inl rfl
  · split
    · show (messageDoneCase _).2.2 = none ∨ (messageDoneCase _).2.2 = some .exit
      unfold messageDoneCase completeMessage
      dsimp only
      split
      · exact .inr rfl
      · exact .inl rfl
    · exact .inl rfl

/-- A piece of the body, in one go. -/
theorem bodyCase_agrees (hst : p.state = .bodyIdentity ∨ p.state = .chunkData) (hinv : Inv p)
    {data : Bytes} (hdata : data ≠ []) : PassAgrees p data (bodyCase p data) := by
  rw [bodyCase_eq hst hinv]
  have hpos := List.length_pos_of_ne_nil hdata
  have hcome : 0 < p.others.contentLength := by
    have hstate := hinv.state
    unfold StateInv at hstate
    rcases hst with hst | hst <;> simp only [hst] at hstate
    · exact Nat.pos_of_ne_zero hstate.1
    · exact Nat.pos_of_ne_zero hstate.2.1
  by_cases hmore : data.length < p.others.contentLength
  · rw [Nat.min_eq_right hmore.le, List.take_length, List.drop_length,
      bodyBehind_more (by omega : p.others.contentLength - data.length ≠ 0)]
    refine .goOn data hdata (List.append_nil data).symm rfl ?_
    rw [run_body hst hinv hmore]
    exact .read rfl rfl rfl (same_marks .body hdata).symm (Nat.zero_add _)
  · -- the last byte of the body is in this read
    have hle : p.others.contentLength ≤ data.length := Nat.le_of_not_lt hmore
    rw [Nat.min_eq_left hle, Nat.sub_self]
    obtain ⟨u, b, hub⟩ : ∃ u b, data.take p.others.contentLength = u ++ [b] := by
      rcases List.eq_nil_or_concat (data.take p.others.contentLength) with hnil | ⟨u, b, hub⟩
      · have hlen := congrArg List.length hnil
        rw [List.length_take, List.length_nil] at hlen
        omega
      · exact ⟨u, b, by rw [hub, List.concat_eq_append]⟩
    have hlen : u.length + 1 = p.others.contentLength := by
      have hlen := congrArg List.length hub
      rw [List.length_take, Nat.min_eq_left hle, List.length_append, List.length_singleton] at hlen
      exact hlen.symm
    have hbyte : byteStep (toCome p 1) b =
        Op.before (.mark .body) (Op.before (.move [b]) (bodyBehind (toCome p 0))) :=
      byteStep_body (p := toCome p 1) hst (inv_toCome hst hinv Nat.one_ne_zero (by omega)) b
    have hrun := run_body hst hinv (show u.length < p.others.contentLength by omega)
    rw [show p.others.contentLength - u.length = 1 by omega] at hrun
    have hsame : Same ([.mark .body, .move (u ++ [b])] ++ (bodyBehind (toCome p 0)).2.1)
        ((u.flatMap fun b => [.mark .body, .move [b]]) ++
          ([.mark .body, .move [b]] ++ (bodyBehind (toCome p 0)).2.1)) := by
      rw [← List.append_assoc]
      refine Same.append ?_ (.refl _)
      have hne : u ++ [b] ≠ [] := List.append_ne_nil_of_right_ne_nil u (List.cons_ne_nil b [])
      have hmarks := same_marks .body hne
      rw [List.flatMap_append] at hmarks
      exact hmarks.symm
    rw [hub]
    have hsplit := List.take_append_drop p.others.contentLength data
    rw [hub] at hsplit
    have hhalt := bodyBehind_halt (toCome p 0)
    generalize bodyBehind (toCome p 0) = r at hbyte hsame hhalt
    obtain ⟨p', os, halt⟩ := r
    cases halt with
    | none =>
      refine .goOn (u ++ [b]) (by simp) hsplit.symm rfl ?_
      rw [run_append, hrun, andThen_of_none rfl, run_singleton, one_of_step hbyte]
      exact .read rfl rfl rfl hsame (by simp)
    | some halt =>
      obtain rfl : halt = .exit := Option.some.inj (hhalt.resolve_left nofun)
      refine .left nofun ?_
      have hdrop := congrArg List.length hsplit
      rw [List.length_append, List.length_append, List.length_singleton] at hdrop
      have hexit : byteMachine.run p data =
          ⟨p', (u.flatMap fun b => [.mark .body, .move [b]]) ++ ([.mark .body, .move [b]] ++ os),
            some .exit, u.length⟩ := by
        conv_lhs => rw [← hsplit]
        rw [List.append_assoc, run_append, hrun, andThen_of_none rfl, List.singleton_append,
          run_cons, one_of_error hbyte, andThen_of_stop rfl]
        rfl
      rw [hexit]
      refine .exit rfl rfl rfl hsame ?_
      dsimp only
      omega

/-! ### The loop -/

/-- What the machine leaves: it keeps the invariant, or ends in the error state. -/
structure OutcomeSafe (o : Outcome HttpParserData Op Halt) : Prop where
  abort : o.stop ≠ some .abort
  inv : o.stop ≠ some .error → Inv o.state
  error : o.stop = some .error → o.state.httpErrno ≠ .ok

/-- **The machine keeps the invariant**, or ends in the error state. -/
theorem run_safe {p : HttpParserData} (hinv : Inv p) (data : Bytes) :
    OutcomeSafe (byteMachine.run p data) := by
  induction data generalizing p with
  | nil => exact ⟨nofun, fun _ => hinv, nofun⟩
  | cons ch data ih =>
    have hsafe := byteStep_safe hinv ch
    rw [run_cons]
    rcases hr : byteStep p ch with ⟨p', os, halt⟩
    rw [hr] at hsafe
    cases halt with
    | none =>
      rw [one_of_step hr, andThen_of_none rfl]
      obtain ⟨habort, hinv', herror⟩ := ih (hsafe.inv nofun)
      exact ⟨habort, hinv', herror⟩
    | some halt =>
      rw [one_of_error hr, andThen_of_stop rfl]
      exact ⟨hsafe.abort, hsafe.inv, hsafe.error⟩

theorem byteSwitch_eq {q : HttpParserData} (hover : runsOver q.state = false) (ch : UInt8) :
    byteSwitch q ch = passed ch (byteCase q ch) := by
  unfold byteSwitch
  unfold runsOver at hover
  split <;> simp_all

/-- The cases that look at one byte. -/
theorem byteCase_agrees (hinv : Inv p) {q : HttpParserData} (hcount : countByte p = next q)
    (hover : runsOver q.state = false) (ch : UInt8) (rest : Bytes) :
    PassAgrees p (ch :: rest)
      (passed ch (byteCase q ch),
        if (byteCase q ch).2.2 = none ∨ (byteCase q ch).2.2 = some .exit then rest
        else ch :: rest) := by
  have hbyte : byteStep p ch = passed ch (byteCase q ch) := by
    rw [byteStep, hcount, next_andThen, byteSwitch_eq hover]
  have hsafe := byteStep_safe hinv ch
  rw [hbyte] at hsafe
  generalize byteCase q ch = r at hbyte hsafe
  obtain ⟨p', os, halt⟩ := r
  cases halt with
  | none =>
    refine .goOn [ch] (List.cons_ne_nil _ _) rfl rfl ?_
    rw [run_singleton, one_of_step hbyte]
    exact .read rfl rfl rfl (.refl _) rfl
  | some halt =>
    refine .left nofun ?_
    rw [run_cons, one_of_error hbyte, andThen_of_stop rfl]
    cases halt with
    | exit => exact .exit rfl rfl rfl (.refl _) (by simp)
    | error =>
      have herrno := hsafe.error rfl
      refine .error rfl rfl herrno herrno os [] [] ?_ (List.append_nil os).symm nofun nofun
      rw [List.append_nil]
      exact .refl _
    | abort => exact absurd rfl hsafe.abort

/-- A pass of the loop. -/
theorem switch_agrees (hinv : Inv p) {q : HttpParserData} (hcount : countByte p = next q)
    (ch : UInt8) (rest : Bytes) (hshort : (ch :: rest).length < 2 ^ 31) :
    PassAgrees p (ch :: rest) (switch q ch rest) := by
  obtain ⟨q', hq', -, hst, hq⟩ := hinv.countByte.resolve_left (by rw [hcount]; nofun)
  obtain rfl : q = q' := congrArg Prod.fst (hcount.symm.trans hq')
  have hstate := hinv.state
  -- there is room for the byte
  have hfirst : parsingHeader p.state = true → p.others.nread < maxHeaderSize := by
    intro hheader
    have heq := countByte_counted hheader p.others hinv.base.nread
    rw [show counted p p.others p.others.nread = p from rfl, hcount] at heq
    split at heq
    · cases heq
    · have hle := hinv.base.nread
      omega
  unfold switch
  split
  · rename_i hs
    have hs : p.state = .headerField := hst.symm.trans hs
    have hone : q = counted p p.others (p.others.nread + 1) := hq.trans (if_pos (by rw [hs]; rfl))
    rw [hone]
    unfold StateInv at hstate
    simp only [hs] at hstate
    exact headerFieldCase_agrees hs hstate (hfirst (by rw [hs]; rfl)) (List.cons_ne_nil _ _) hshort
  · rename_i hs
    have hs : p.state = .headerValue := hst.symm.trans hs
    have hone : q = counted p p.others (p.others.nread + 1) := hq.trans (if_pos (by rw [hs]; rfl))
    rw [hone]
    exact headerValueCase_agrees hs hinv (hfirst (by rw [hs]; rfl)) (List.cons_ne_nil _ _) hshort
  · rename_i hs
    have hs : p.state = .bodyIdentity := hst.symm.trans hs
    have hsame : q = p := hq.trans (if_neg (by rw [hs]; nofun))
    rw [hsame]
    exact bodyCase_agrees (.inl hs) hinv (List.cons_ne_nil _ _)
  · rename_i hs
    have hs : p.state = .chunkData := hst.symm.trans hs
    have hsame : q = p := hq.trans (if_neg (by rw [hs]; nofun))
    rw [hsame]
    exact bodyCase_agrees (.inr hs) hinv (List.cons_ne_nil _ _)
  · rename_i hs
    have hs : p.state = .bodyIdentityEof := hst.symm.trans hs
    unfold StateInv at hstate
    simp only [hs] at hstate
  · apply byteCase_agrees hinv hcount
    unfold runsOver
    split <;> simp_all

/-- **The loop does what the machine does.** -/
theorem loop_agrees {fuel : Nat} {p : HttpParserData} (hinv : Inv p) {data : Bytes}
    (hfuel : data.length ≤ fuel) (hshort : data.length < 2 ^ 31) :
    Agrees data.length (loop fuel p data) (byteMachine.run p data) := by
  induction fuel generalizing p data with
  | zero =>
    rw [List.length_eq_zero_iff.mp (Nat.le_zero.mp hfuel)]
    exact .read rfl rfl rfl (.refl _) rfl
  | succ fuel ih =>
    cases data with
    | nil => exact .read rfl rfl rfl (.refl _) rfl
    | cons ch rest =>
      rw [loop]
      dsimp only
      rcases hinv.countByte with ⟨hcount, -, -⟩ | ⟨q, hcount, -⟩
      · rw [hcount, if_neg (by nofun)]
        have hbyte : byteStep p ch = fail { p with others.nread := p.others.nread + 1 }
            .headerOverflow := by
          rw [byteStep, hcount]
          rfl
        rw [run_cons, one_of_error hbyte, andThen_of_stop rfl]
        exact .error rfl rfl nofun nofun [] [] [] (.refl _) rfl nofun nofun
      · have hpass := switch_agrees hinv hcount ch rest hshort
        have hgo : (next q).2.2 = none := rfl
        rw [hcount, if_pos hgo]
        show Agrees _ (if (switch q ch rest).1.2.2 = none then _ else _) _
        cases hpass with
        | left hstop hagrees =>
          rw [if_neg hstop]
          exact hagrees
        | goOn w hne hdata hstop hagrees =>
          rw [if_pos hstop]
          have hsafe := run_safe hinv w
          have hlen := congrArg List.length hdata
          rw [List.length_append] at hlen
          have hpos := List.length_pos_of_ne_nil hne
          have hinv' : Inv (switch q ch rest).1.1 := by
            cases hagrees with
            | read stop stop' state ops hread =>
              rw [show (switch q ch rest).1.1 = _ from state]
              exact hsafe.inv (by rw [stop']; nofun)
            | exit stop => exact absurd (hstop.symm.trans stop) nofun
            | error stop => exact absurd (hstop.symm.trans stop) nofun
          have hfuel' : (switch q ch rest).2.length ≤ fuel := by omega
          have hrest := ih hinv' hfuel' (by omega)
          rw [hlen, hdata]
          exact hagrees.append hstop hrest

end RequestParser

end MyWebSocket
