import MyWebSocket.HttpParser.Phases

namespace MyWebSocket

open Transducer Transducer.Outcome

/-!
# The callbacks of a parser, read by read

What the marks make of the phases of a message:

* `Turn` — the order of the callbacks;
* `Clean` — what the data of a callback is made of;
* `Running` — what holds of a parser between two reads;
* `execute_running` — what one call of `http_parser_execute` does.
-/

namespace RequestParser

/-! ### The order of the callbacks -/

/-- How far the callbacks of a message have come.  `t` is set for the headers behind a chunked
    body. -/
inductive Turn
  | idle
  | begun
  | line
  | name (t : Bool)
  | value (t : Bool)
  | body
deriving DecidableEq, Repr

namespace Turn

/-- The callbacks that may come next.  Those of one element may come again, with further pieces
    of it. -/
def next : Turn → ReqEvent → Option Turn
  | idle, .messageBegin => some begun
  | begun, .url _ => some line
  | line, .url _ => some line
  | line, .headerField _ => some (name false)
  | name t, .headerField _ => some (name t)
  | value t, .headerField _ => some (name t)
  | body, .headerField _ => some (name true)
  | name t, .headerValue _ => some (value t)
  | value t, .headerValue _ => some (value t)
  | line, .headersComplete _ _ _ => some body
  | value false, .headersComplete _ _ _ => some body
  | body, .body _ => some body
  | body, .messageComplete _ => some idle
  | value true, .messageComplete _ => some idle
  | _, _ => none

/-- The callbacks `es` may come next, in this order. -/
def all (tn : Turn) (es : List ReqEvent) : Option Turn := es.foldlM next tn

@[simp] theorem all_nil (tn : Turn) : tn.all [] = some tn := rfl

theorem all_singleton (tn : Turn) (e : ReqEvent) : tn.all [e] = tn.next e := by
  rw [all, List.foldlM_cons]
  cases tn.next e <;> rfl

theorem all_append (tn : Turn) (es es' : List ReqEvent) :
    tn.all (es ++ es') = (tn.all es).bind fun tn' => tn'.all es' := by
  rw [all, List.foldlM_append]
  rfl

end Turn

/-- What the data of a callback is made of. -/
def Clean : ReqEvent → Prop
  | .url d => ∀ b ∈ d, Visible b
  | .headerField d => ∀ b ∈ d, token b ≠ 0
  | .headerValue d => ∀ b ∈ d, b ≠ 0x0D ∧ b ≠ 0x0A
  | _ => True

/-! ### Phases and marks -/

namespace Phase

/-- The mark that is set in a phase. -/
def mark : Phase → Option DataFor
  | url => some .url
  | name _ => some .headerField
  | value _ => some .headerValue
  | body true => some .body
  | _ => none

/-- The phase in which the next read begins: the body is marked anew. -/
def cut : Phase → Phase
  | body _ => body false
  | ph => ph

end Phase

/-- The callbacks made up to a phase. -/
def Sees (ph : Phase) (tn : Turn) : Prop :=
  match ph with
  | .idle => tn = .idle
  | .begun => tn = .begun
  | .url => tn = .begun ∨ tn = .line
  | .line => tn = .line
  | .name t => tn = .name t ∨ tn = .value t ∨ tn = (if t then .body else .line)
  | .colon t => tn = .name t
  | .value t => tn = .name t ∨ tn = .value t
  | .ended t => tn = .value t
  | .body _ => tn = .body

/-- The marks in a phase: one at most, and over bytes of the element. -/
structure Marked (ph : Phase) (m : Marks) : Prop where
  set : ∀ k, ph.mark = some k → ∃ d, m.get k = some d ∧ ∀ b ∈ d, ph.Ok b
  unset : ∀ k, ph.mark ≠ some k → m.get k = none

theorem Marked.of_none {ph : Phase} {m : Marks} (hmark : ph.mark = none)
    (h : ∀ k, m.get k = none) : Marked ph m :=
  ⟨fun _ hk => absurd (hmark.symm.trans hk) nofun, fun k _ => h k⟩

theorem Marked.get_none {ph : Phase} {m : Marks} (h : Marked ph m) (hmark : ph.mark = none)
    (k : DataFor) : m.get k = none :=
  h.unset k (by rw [hmark]; nofun)

/-- A phase with a mark begins. -/
theorem Marked.mark {ph ph' : Phase} {m : Marks} {k : DataFor} (h : Marked ph m)
    (hmark : ph.mark = none) (hmark' : ph'.mark = some k) : Marked ph' (m.apply (.mark k)).1 := by
  refine ⟨fun k' hk' => ?_, fun k' hk' => ?_⟩
  · obtain rfl : k = k' := Option.some.inj (hmark'.symm.trans hk')
    rw [Marks.get_mark, if_pos rfl, h.get_none hmark]
    exact ⟨[], rfl, nofun⟩
  · rw [Marks.get_mark, if_neg (by rintro rfl; exact hk' hmark')]
    exact h.get_none hmark k'

/-- A phase with a mark goes on. -/
theorem Marked.remark {ph : Phase} {m : Marks} {k : DataFor} (h : Marked ph m)
    (hmark : ph.mark = some k) : (m.apply (.mark k)).1 = m := by
  obtain ⟨d, hd, -⟩ := h.set k hmark
  rw [Marks.apply, hd]
  rfl

/-- A phase with a mark ends. -/
theorem Marked.data {ph : Phase} (ph' : Phase) {m : Marks} {k : DataFor} (h : Marked ph m)
    (hmark : ph.mark = some k) (hmark' : ph'.mark = none) :
    ∃ d, (m.apply (.data k)).2 = [k.event d] ∧ (∀ b ∈ d, ph.Ok b) ∧
      Marked ph' (m.apply (.data k)).1 := by
  obtain ⟨d, hd, hok⟩ := h.set k hmark
  have happly : m.apply (.data k) = (m.set k none, [k.event d]) := by
    rw [Marks.apply, hd]
  rw [happly]
  refine ⟨d, rfl, hok, .of_none hmark' fun k' => ?_⟩
  by_cases heq : k' = k
  · rw [heq]
    exact Marks.get_set m k none
  · rw [Marks.get_set_of_ne m heq]
    exact h.unset k' (by rw [hmark]; exact fun hs => heq (Option.some.inj hs).symm)

theorem Marked.move {ph : Phase} {m : Marks} {bs : Bytes} (h : Marked ph m)
    (hok : ∀ b ∈ bs, ph.Ok b) : Marked ph (m.apply (.move bs)).1 := by
  refine ⟨fun k hk => ?_, fun k hk => ?_⟩
  · obtain ⟨d, hd, hd'⟩ := h.set k hk
    refine ⟨d ++ bs, ?_, ?_⟩
    · rw [Marks.get_move, hd]
      rfl
    · intro b hb
      rcases List.mem_append.mp hb with hb | hb
      · exact hd' b hb
      · exact hok b hb
  · rw [Marks.get_move, h.unset k hk]
    rfl

/-- What an operation leaves. -/
structure OpDone (ph' : Phase) (tn : Turn) (m' : Marks) (es : List ReqEvent) : Prop where
  turn : ∃ tn', tn.all es = some tn' ∧ Sees ph' tn'
  marked : Marked ph' m'
  clean : ∀ e ∈ es, Clean e

variable {ph ph' : Phase} {tn : Turn} {m : Marks}

/-- No callback is made. -/
theorem OpDone.quiet {m' : Marks} (hsees : Sees ph' tn) (hm : Marked ph' m') :
    OpDone ph' tn m' [] :=
  ⟨⟨tn, rfl, hsees⟩, hm, nofun⟩

/-- One callback is made. -/
theorem OpDone.one {m' : Marks} {e : ReqEvent} {tn' : Turn} (hnext : tn.next e = some tn')
    (hsees : Sees ph' tn') (hm : Marked ph' m') (hclean : Clean e) : OpDone ph' tn m' [e] := by
  refine ⟨⟨tn', (Turn.all_singleton tn e).trans hnext, hsees⟩, hm, ?_⟩
  intro e' he'
  rw [List.mem_singleton.mp he']
  exact hclean

/-- **An operation in its place** makes a callback in its turn. -/
theorem op_done {o : Op} (hop : ph.op o = some ph') (hm : Marked ph m) (hsees : Sees ph tn) :
    OpDone ph' tn (m.apply o).1 (m.apply o).2 := by
  unfold Phase.op at hop
  split at hop
  case h_1 =>
    cases hop
    cases hsees
    exact .one (e := .messageBegin) rfl rfl (.of_none rfl (hm.get_none rfl)) trivial
  case h_2 =>
    cases hop
    exact .quiet (.inl hsees) (hm.mark rfl rfl)
  case h_3 =>
    cases hop
    obtain ⟨d, hes, hok, hm'⟩ := hm.data .line rfl rfl
    rw [hes]
    rcases hsees with rfl | rfl
    · exact .one rfl rfl hm' hok
    · exact .one rfl rfl hm' hok
  case h_4 =>
    cases hop
    exact .quiet (.inr (.inr hsees)) (hm.mark rfl rfl)
  case h_5 =>
    cases hop
    exact .quiet (.inr (.inl hsees)) (hm.mark (by rfl) rfl)
  case h_6 =>
    cases hop
    exact .quiet (.inr (.inr hsees)) (hm.mark rfl rfl)
  case h_7 t =>
    cases hop
    obtain ⟨d, hes, hok, hm'⟩ := hm.data (.colon t) rfl rfl
    rw [hes]
    refine .one (show tn.next _ = some (.name t) from ?_) rfl hm' hok
    rcases hsees with rfl | rfl | rfl
    · rfl
    · rfl
    · cases t <;> rfl
  case h_8 =>
    cases hop
    exact .quiet (.inl hsees) (hm.mark rfl rfl)
  case h_9 =>
    cases hop
    exact .quiet (.inr hsees) (hm.mark rfl rfl)
  case h_10 t =>
    cases hop
    obtain ⟨d, hes, hok, hm'⟩ := hm.data (.ended t) rfl rfl
    rw [hes]
    refine .one (show tn.next _ = some (.value t) from ?_) rfl hm' hok
    rcases hsees with rfl | rfl <;> rfl
  case h_11 =>
    cases hop
    cases hsees
    exact .one rfl rfl (.of_none rfl (hm.get_none rfl)) trivial
  case h_12 =>
    cases hop
    cases hsees
    exact .one rfl rfl (.of_none rfl (hm.get_none rfl)) trivial
  case h_13 b =>
    cases hop
    refine .quiet hsees ?_
    cases b with
    | false => exact hm.mark rfl rfl
    | true =>
      rw [hm.remark rfl]
      exact hm
  case h_14 b =>
    cases hop
    cases b with
    | false =>
      have happly : m.apply (.data .body) = (m, []) := by
        rw [Marks.apply, hm.get_none rfl]
      rw [happly]
      exact .quiet hsees hm
    | true =>
      obtain ⟨d, hes, -, hm'⟩ := hm.data (.body false) rfl rfl
      rw [hes]
      cases hsees
      exact .one rfl rfl hm' trivial
  case h_15 =>
    cases hop
    cases hsees
    exact .one rfl rfl (.of_none rfl (hm.get_none rfl)) trivial
  case h_16 =>
    cases hop
    cases hsees
    exact .one rfl rfl (.of_none rfl (hm.get_none rfl)) trivial
  case h_17 bs =>
    split at hop
    · rename_i hok
      cases hop
      exact .quiet hsees (hm.move hok)
    · cases hop
  case h_18 => cases hop

/-- **Operations in their places** make callbacks in turn. -/
theorem ops_done {os : List Op} (hops : ph.ops os = some ph') (hm : Marked ph m)
    (hsees : Sees ph tn) : OpDone ph' tn (m.run os).1 (m.run os).2 := by
  induction os generalizing ph tn m with
  | nil =>
    cases hops
    exact .quiet hsees hm
  | cons o os ih =>
    rw [Phase.ops_cons] at hops
    obtain ⟨ph₁, hop, hrest⟩ := Option.bind_eq_some_iff.mp hops
    obtain ⟨⟨tn₁, hall, hsees₁⟩, hm₁, hclean⟩ := op_done hop hm hsees
    obtain ⟨⟨tn₂, hall₂, hsees₂⟩, hm₂, hclean₂⟩ := ih hrest hm₁ hsees₁
    refine ⟨⟨tn₂, ?_, hsees₂⟩, hm₂, ?_⟩
    · rw [Marks.run, Turn.all_append, hall]
      exact hall₂
    · intro e he
      rcases List.mem_append.mp he with he | he
      · exact hclean e he
      · exact hclean₂ e he

/-! ### The end and the start of a read -/

theorem run_leftover_some {k : DataFor} {d : Bytes} (hget : m.get k = some d)
    (hother : ∀ k' ≠ k, m.get k' = none) : (m.run leftover).2 = [k.event d] := by
  have hfield := hother .headerField
  have hvalue := hother .headerValue
  have hurl := hother .url
  have hbody := hother .body
  cases m
  cases k <;> simp_all [Marks.run, leftover, Marks.apply, Marks.get, Marks.set]

theorem run_leftover_none (hget : ∀ k, m.get k = none) : (m.run leftover).2 = [] := by
  have hfield := hget .headerField
  have hvalue := hget .headerValue
  have hurl := hget .url
  have hbody := hget .body
  cases m
  simp_all [Marks.run, leftover, Marks.apply, Marks.get]

/-- "There should be at most one of these set." -/
theorem Marked.atMostOne (hm : Marked ph m) : m.AtMostOne := by
  have hone : ∀ k, ph.mark = some k → ∀ k' ≠ k, m.get k' = none := by
    intro k hk k' hne
    exact hm.unset k' (by rw [hk]; exact fun hs => hne (Option.some.inj hs).symm)
  rcases hmark : ph.mark with _ | k
  · have hnone := hm.get_none hmark
    have hfield := hnone .headerField
    have hvalue := hnone .headerValue
    have hurl := hnone .url
    have hbody := hnone .body
    cases m
    simp_all [Marks.AtMostOne, Marks.get]
  · have hother := hone k hmark
    have hfield := hother .headerField
    have hvalue := hother .headerValue
    have hurl := hother .url
    have hbody := hother .body
    cases m
    cases k <;> simp_all [Marks.AtMostOne, Marks.get] <;> grind

/-- What is left over at the end of a read. -/
theorem leftover_done (hm : Marked ph m) (hsees : Sees ph tn) :
    (∃ tn', tn.all (m.run leftover).2 = some tn' ∧ Sees ph.cut tn') ∧
      ∀ e ∈ (m.run leftover).2, Clean e := by
  rcases hmark : ph.mark with _ | k
  · rw [run_leftover_none (hm.get_none hmark)]
    refine ⟨⟨tn, rfl, ?_⟩, nofun⟩
    cases ph <;> exact hsees
  · obtain ⟨d, hd, hok⟩ := hm.set k hmark
    have hother : ∀ k' ≠ k, m.get k' = none := by
      intro k' hne
      exact hm.unset k' (by rw [hmark]; exact fun hs => hne (Option.some.inj hs).symm)
    rw [run_leftover_some hd hother]
    have hone : ∀ tn', tn.next (k.event d) = some tn' → Sees ph.cut tn' → Clean (k.event d) →
        (∃ tn', tn.all [k.event d] = some tn' ∧ Sees ph.cut tn') ∧
          ∀ e ∈ [k.event d], Clean e := by
      intro tn' hnext hsees' hclean
      refine ⟨⟨tn', (Turn.all_singleton tn _).trans hnext, hsees'⟩, ?_⟩
      intro e he
      rw [List.mem_singleton.mp he]
      exact hclean
    cases ph with
    | url =>
      cases hmark
      rcases hsees with rfl | rfl
      · exact hone .line rfl (.inr rfl) hok
      · exact hone .line rfl (.inr rfl) hok
    | name t =>
      cases hmark
      refine hone (.name t) ?_ (.inl rfl) hok
      rcases hsees with rfl | rfl | rfl
      · rfl
      · rfl
      · cases t <;> rfl
    | value t =>
      cases hmark
      refine hone (.value t) ?_ (.inr rfl) hok
      rcases hsees with rfl | rfl <;> rfl
    | body b =>
      cases b with
      | false => cases hmark
      | true =>
        cases hmark
        cases hsees
        exact hone .body rfl rfl trivial
    | _ => cases hmark

/-- The mark that is set at the start of a read. -/
def startMark : ParserState → Option DataFor
  | .headerField => some .headerField
  | .headerValue => some .headerValue
  | st => if inUrl st then some .url else none

theorem get_start (st : ParserState) (k : DataFor) :
    (Marks.start st).get k = if startMark st = some k then some [] else none := by
  cases st <;> cases k <;> rfl

theorem mark_cut {st : ParserState} {t : Bool} (h : FitsIn st t ph) :
    ph.cut.mark = startMark st := by
  cases st <;> unfold FitsIn at h
  case headersAlmostDone =>
    rcases h with rfl | rfl
    · rfl
    · cases t <;> rfl
  all_goals first
    | (subst h; rfl)
    | (obtain ⟨rfl, -⟩ := h; rfl)
    | (obtain ⟨⟨b, rfl⟩, -⟩ := h; rfl)
    | (subst h; cases t <;> rfl)
    | exact h.elim

theorem FitsIn.cut {st : ParserState} {t : Bool} (h : FitsIn st t ph) : FitsIn st t ph.cut := by
  cases st <;> unfold FitsIn at h
  case headersAlmostDone =>
    rcases h with rfl | rfl
    · exact .inl rfl
    · refine .inr ?_
      cases t <;> rfl
  all_goals first
    | (subst h; rfl)
    | (obtain ⟨rfl, ht⟩ := h; exact ⟨rfl, ht⟩)
    | (obtain ⟨⟨b, rfl⟩, ht⟩ := h; exact ⟨⟨false, rfl⟩, ht⟩)
    | (subst h; cases t <;> rfl)
    | exact h.elim

/-- The marks at the start of a read are those of the phase the parser is in. -/
theorem marked_start {st : ParserState} {t : Bool} (h : FitsIn st t ph) :
    Marked ph.cut (Marks.start st) := by
  refine ⟨fun k hk => ⟨[], ?_, nofun⟩, fun k hk => ?_⟩
  · rw [get_start, ← mark_cut h, if_pos hk]
  · rw [get_start, ← mark_cut h, if_neg hk]

theorem Sees.cut (h : Sees ph tn) : Sees ph.cut tn := by
  cases ph <;> exact h

/-! ### A read -/

/-- What holds of a parser between two reads, where the callbacks of its message have come as far
    as `tn`. -/
structure Running (p : HttpParserData) (tn : Turn) : Prop where
  inv : Inv p
  phase : ∃ ph, Fits p ph ∧ ph.cut = ph ∧ Sees ph tn

theorem Running.init : Running (ParserData.init ParserMembers.zero) .idle :=
  ⟨Inv.init, .idle, rfl, rfl, rfl⟩

theorem Running.of_fits {p : HttpParserData} (hinv : Inv p) (hfits : Fits p ph)
    (hsees : Sees ph.cut tn) : Running p tn := by
  refine ⟨hinv, ph.cut, hfits.cut, ?_, hsees⟩
  cases ph <;> rfl

/-- What a read does to a parser that is not in the error state.  The data of the callbacks is
    clean, but perhaps that of a last `on_header_value` in front of the error state. -/
structure ReadDone (tn : Turn) (p' : HttpParserData) (es : List ReqEvent) : Prop where
  turn : ∃ tn', tn.all es = some tn' ∧ (p'.httpErrno = .ok → Running p' tn')
  clean : ∃ es₁ es₂, es = es₁ ++ es₂ ∧ (∀ e ∈ es₁, Clean e) ∧
    (es₂ = [] ∨ p'.httpErrno ≠ .ok ∧ ∃ d, es₂ = [.headerValue d])

/-- Operations without another callback than `on_header_value` make it once at most. -/
theorem run_quiet {os : List Op} (hos : Quiet os) (m : Marks) :
    (m.run os).2 = [] ∨
      (m.get .headerValue).isSome = true ∧ ∃ d, (m.run os).2 = [.headerValue d] := by
  induction os generalizing m with
  | nil => exact .inl rfl
  | cons o os ih =>
    have hrest : Quiet os := fun o ho => hos o (List.mem_cons_of_mem _ ho)
    rcases hos o List.mem_cons_self with rfl | ⟨bs, rfl⟩
    · rcases hget : m.get .headerValue with _ | d
      · have happly : m.apply (.data .headerValue) = (m, []) := by
          rw [Marks.apply, hget]
        rw [Marks.run, happly]
        rcases ih hrest m with hnil | ⟨hsome, -⟩
        · exact .inl hnil
        · rw [hget] at hsome
          cases hsome
      · have happly : m.apply (.data .headerValue) =
            (m.set .headerValue none, [.headerValue d]) := by
          rw [Marks.apply, hget]
          rfl
        rw [Marks.run, happly]
        rcases ih hrest (m.set .headerValue none) with hnil | ⟨hsome, -⟩
        · refine .inr ⟨rfl, d, ?_⟩
          exact congrArg (ReqEvent.headerValue d :: ·) hnil
        · cases hsome
    · rw [Marks.run]
      rcases ih hrest (m.apply (.move bs)).1 with hnil | ⟨hsome, hone⟩
      · exact .inl hnil
      · rw [Marks.get_move, Option.isSome_map] at hsome
        exact .inr ⟨hsome, hone⟩

/-- **A read fails no assertion**, and makes its callbacks in turn.  All of its bytes are parsed
    unless it ends in the error state or with an upgrade. -/
theorem execute_running {p : HttpParserData} {tn : Turn} (h : Running p tn) {data : Bytes}
    (hshort : data.length < 2 ^ 31) :
    ∃ p' es n, execute? p data = some (p', es, n) ∧ ReadDone tn p' es ∧
      (n = data.length ∨ p'.httpErrno ≠ .ok ∨
        ∃ es', es = es' ++ [.messageComplete true]) := by
  obtain ⟨hinv, ph, hfits, hcut, hsees⟩ := h
  have hsafe := run_safe hinv data
  obtain ⟨ph', hleads⟩ := run_goes hinv hfits data
  have hmarked : Marked ph (Marks.start p.state) := hcut ▸ marked_start hfits
  have hdone := ops_done hleads.ops hmarked hsees
  rw [execute?]
  cases loop_agrees hinv le_rfl hshort with
  | read stop stop' state ops rest =>
    have hinv' := hsafe.inv (by rw [stop']; nofun)
    have hfits' := hleads.fits (by rw [stop']; nofun)
    rw [← state] at hinv' hfits'
    rw [← ops (Marks.start p.state)] at hdone
    obtain ⟨⟨tn₁, hall, hsees₁⟩, hm, hclean⟩ := hdone
    obtain ⟨⟨tn₂, hall₂, hsees₂⟩, hclean₂⟩ := leftover_done hm hsees₁
    rw [stop]
    dsimp only
    rw [if_pos hm.atMostOne]
    refine ⟨_, _, _, rfl, ⟨⟨tn₂, ?_, fun _ => .of_fits hinv' hfits' hsees₂⟩, _, [],
      (List.append_nil _).symm, ?_, .inl rfl⟩, .inl rfl⟩
    · rw [Turn.all_append, hall]
      exact hall₂
    · intro e he
      rcases List.mem_append.mp he with he | he
      · exact hclean e he
      · exact hclean₂ e he
  | exit stop stop' state ops rest =>
    have hinv' := hsafe.inv (by rw [stop']; nofun)
    have hfits' := hleads.fits (by rw [stop']; nofun)
    obtain ⟨os', hos⟩ := hleads.exit stop'
    have hlast := ops (Marks.start p.state)
    rw [hos, Marks.run_append] at hlast
    rw [← state] at hinv' hfits'
    rw [← ops (Marks.start p.state)] at hdone
    obtain ⟨⟨tn₁, hall, hsees₁⟩, -, hclean⟩ := hdone
    rw [stop]
    refine ⟨_, _, _, rfl, ⟨⟨tn₁, hall, fun _ => .of_fits hinv' hfits' hsees₁.cut⟩, _, [],
      (List.append_nil _).symm, hclean, .inl rfl⟩, .inr (.inr ⟨_, congrArg Prod.snd hlast⟩)⟩
  | error stop stop' errno errno' os e e' ops ops' quiet quiet' =>
    have hops := hleads.ops
    rw [ops', Phase.ops_append] at hops
    obtain ⟨ph₁, hos, -⟩ := Option.bind_eq_some_iff.mp hops
    obtain ⟨⟨tn₁, hall, hsees₁⟩, hm, hclean⟩ := ops_done hos hmarked hsees
    have hrun := ops (Marks.start p.state)
    rw [Marks.run_append] at hrun
    rw [stop]
    refine ⟨_, _, _, rfl, ?_, .inr (.inl errno)⟩
    rw [hrun]
    generalize (Marks.start p.state).run os = r at hall hm hclean
    obtain ⟨m₁, es₁⟩ := r
    rcases run_quiet quiet m₁ with hnil | ⟨hsome, d, hd⟩
    · dsimp only at hclean hall ⊢
      rw [hnil, List.append_nil]
      exact ⟨⟨tn₁, hall, fun hok => absurd hok errno⟩, es₁, [], (List.append_nil _).symm, hclean,
        .inl rfl⟩
    · dsimp only at hclean hall ⊢
      rw [hd]
      -- the mark of a value is set
      obtain ⟨t, rfl⟩ : ∃ t, ph₁ = .value t := by
        by_contra hnot
        have hne : ph₁.mark ≠ some .headerValue := by
          intro hmark
          cases ph₁ with
          | value t => exact hnot ⟨t, rfl⟩
          | body b => cases b <;> cases hmark
          | _ => cases hmark
        have hnone := hm.unset _ hne
        dsimp only at hnone
        rw [hnone] at hsome
        cases hsome
      refine ⟨⟨.value t, ?_, fun hok => absurd hok errno⟩, es₁, [.headerValue d], rfl, hclean,
        .inr ⟨errno, d, rfl⟩⟩
      rw [Turn.all_append, hall, Option.bind_some, Turn.all_singleton]
      rcases hsees₁ with rfl | rfl <;> rfl

end RequestParser

end MyWebSocket
