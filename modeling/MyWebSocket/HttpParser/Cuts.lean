import MyWebSocket.Library.Fragments
import MyWebSocket.HttpParser.Reads

namespace MyWebSocket

open Transducer Transducer.Outcome Fragments

/-!
# Where a stream is cut

At the end of a read `http_parser_execute` hands on what it has of an element, and the rest of it
at the next read.  So the callbacks of a stream in several reads are those of the stream in one
read, with elements in fragments:

* `flushed_split` — a cut in front of some operations;
* `machinePieces_fragmented` — the callbacks of the byte machine, read by read;
* `callbacks_fragmented` — those of the parser.
-/

namespace RequestParser

/-- The data callbacks that may come in fragments. -/
def fragment (K : DataFor → Prop) (k : { k // K k }) (d : Bytes) : ReqEvent := k.1.event d

theorem event_injective {k k' : DataFor} {d d' : Bytes} (h : k.event d = k'.event d') :
    k = k' ∧ d = d' := by
  cases k <;> cases k' <;> cases h <;> exact ⟨rfl, rfl⟩

theorem fragment_injective (K : DataFor → Prop) (k k' : { k // K k }) (d d' : Bytes)
    (h : fragment K k d = fragment K k' d') : k = k' ∧ d = d' := by
  obtain ⟨hk, hd⟩ := event_injective h
  exact ⟨Subtype.ext hk, hd⟩

/-! ### A cut in front of some operations -/

/-- The callbacks of some operations at the end of a read. -/
def flushed (m : Marks) (os : List Op) : List ReqEvent :=
  (m.run os).2 ++ ((m.run os).1.run leftover).2

theorem flushed_append (m : Marks) (os os' : List Op) :
    flushed m (os ++ os') = (m.run os).2 ++ flushed (m.run os).1 os' := by
  rw [flushed, Marks.run_append, flushed, List.append_assoc]

theorem flushed_cons (m : Marks) (o : Op) (os : List Op) :
    flushed m (o :: os) = (m.apply o).2 ++ flushed (m.apply o).1 os := by
  rw [flushed, Marks.run, flushed, List.append_assoc]

variable {ph ph' : Phase} {m m' : Marks} {k : DataFor} {K : DataFor → Prop}

/-- The operations in a phase with a mark. -/
theorem op_of_mark {o : Op} (hop : ph.op o = some ph') (hmark : ph.mark = some k) :
    o = .data k ∧ ph'.mark = none ∨ o = .mark k ∧ ph' = ph ∨
      ∃ bs, o = .move bs ∧ ph' = ph ∧ ∀ b ∈ bs, ph.Ok b := by
  unfold Phase.op at hop
  split at hop
  case h_3 | h_7 | h_10 =>
    cases hop
    cases hmark
    exact .inl ⟨rfl, rfl⟩
  case h_13 b =>
    cases hop
    cases b with
    | false => cases hmark
    | true =>
      cases hmark
      exact .inr (.inl ⟨rfl, rfl⟩)
  case h_14 b =>
    cases hop
    cases b with
    | false => cases hmark
    | true =>
      cases hmark
      exact .inl ⟨rfl, rfl⟩
  case h_17 bs =>
    split at hop
    · rename_i hok
      cases hop
      exact .inr (.inr ⟨bs, rfl, rfl, hok⟩)
    · cases hop
  case h_18 => cases hop
  -- the other phases have no mark
  all_goals
    cases hop
    cases hmark

/-- Only this mark is set, on this data. -/
structure Marks.Only (m : Marks) (k : DataFor) (d : Bytes) : Prop where
  set : m.get k = some d
  unset : ∀ k' ≠ k, m.get k' = none

theorem Marked.only (hm : Marked ph m) (hmark : ph.mark = some k) : ∃ d, m.Only k d := by
  obtain ⟨d, hd, -⟩ := hm.set k hmark
  refine ⟨d, hd, fun k' hne => hm.unset k' ?_⟩
  rw [hmark]
  exact fun hs => hne (Option.some.inj hs).symm

namespace Marks.Only

variable {d x : Bytes}

theorem data (h : m.Only k d) : m.apply (.data k) = (m.set k none, [k.event d]) := by
  rw [Marks.apply, h.set]

theorem mark (h : m.Only k d) : m.apply (.mark k) = (m, []) := by
  rw [Marks.apply, h.set]
  rfl

theorem move (h : m.Only k d) (bs : Bytes) : (m.apply (.move bs)).1.Only k (d ++ bs) := by
  refine ⟨?_, fun k' hne => ?_⟩
  · rw [Marks.get_move, h.set]
    rfl
  · rw [Marks.get_move, h.unset k' hne]
    rfl

theorem set_none (h : m.Only k d) (h' : m'.Only k x) : m.set k none = m'.set k none := by
  apply Marks.ext_get
  intro k'
  by_cases hk : k' = k
  · rw [hk, Marks.get_set, Marks.get_set]
  · rw [Marks.get_set_of_ne m hk, Marks.get_set_of_ne m' hk, h.unset k' hk, h'.unset k' hk]

theorem leftover (h : m.Only k d) : (m.run leftover).2 = [k.event d] :=
  run_leftover_some h.set h.unset

end Marks.Only

/-- A mark that has been set anew, at the cut. -/
theorem flushed_cut {os : List Op} (hops : ph.ops os = some ph') (hmark : ph.mark = some k)
    (hK : K k) {d x : Bytes} (hm : m.Only k (d ++ x)) (hm' : m'.Only k x) :
    Fragmented (fragment K) (k.event d :: flushed m' os) (flushed m os) := by
  induction os generalizing ph m m' x with
  | nil =>
    have hwhole : flushed m [] = [k.event (d ++ x)] := hm.leftover
    have hrest : flushed m' [] = [k.event x] := hm'.leftover
    rw [hwhole, hrest]
    exact .cut (⟨k, hK⟩ : { k // K k }) d x (.refl (fragment K) _)
  | cons o os ih =>
    rw [Phase.ops_cons] at hops
    obtain ⟨ph₁, hop, hrest⟩ := Option.bind_eq_some_iff.mp hops
    rw [flushed_cons, flushed_cons]
    rcases op_of_mark hop hmark with ⟨rfl, -⟩ | ⟨rfl, rfl⟩ | ⟨bs, rfl, rfl, -⟩
    · rw [hm.data, hm'.data, hm.set_none hm']
      exact .cut (⟨k, hK⟩ : { k // K k }) d x (.refl (fragment K) _)
    · rw [hm.mark, hm'.mark]
      exact ih hrest hmark hm hm'
    · have hwhole := hm.move bs
      rw [List.append_assoc] at hwhole
      exact ih hrest hmark hwhole (hm'.move bs)

/-- **A cut in front of some operations.**  A body that is marked is marked again, or is at its
    end. -/
theorem flushed_split {os : List Op} (hops : ph.ops os = some ph') (hm : Marked ph m)
    (hm' : Marked ph.cut m') (hempty : ∀ k d, m'.get k = some d → d = [])
    (hK : ∀ k, ph.mark = some k → K k)
    (hbody : ph = .body true →
      os = [] ∨ ∃ os', os = .mark .body :: os' ∨ os = .data .body :: os') :
    Fragmented (fragment K) ((m.run leftover).2 ++ flushed m' os) (flushed m os) := by
  rcases hmark : ph.mark with _ | k
  · have hcut : ph.cut = ph := by
      cases ph with
      | body b =>
        cases b with
        | false => rfl
        | true => cases hmark
      | _ => rfl
    have hsame : m' = m := by
      apply Marks.ext_get
      intro k
      rw [hm.get_none hmark, hm'.get_none ((congrArg Phase.mark hcut).trans hmark)]
    rw [run_leftover_none (hm.get_none hmark), hsame]
    exact .refl _ _
  · obtain ⟨d, hd⟩ := hm.only hmark
    rw [hd.leftover]
    by_cases hph : ph = .body true
    · subst hph
      cases hmark
      have hnone := hm'.get_none rfl
      rcases hbody rfl with rfl | ⟨os', rfl | rfl⟩
      · have hwhole : flushed m [] = [DataFor.body.event d] := hd.leftover
        have hrest : flushed m' [] = [] := run_leftover_none hnone
        rw [hwhole, hrest]
        exact .refl _ _
      · -- the mark is set on what comes behind the cut
        rw [flushed_cons, flushed_cons, hd.mark]
        have hnew : (m'.apply (.mark .body)).1.Only .body [] := by
          refine ⟨?_, fun k hne => ?_⟩
          · rw [Marks.get_mark, if_pos rfl, hnone]
            rfl
          · rw [Marks.get_mark, if_neg hne]
            exact hnone k
        rw [Phase.ops_cons] at hops
        have hd' : m.Only .body (d ++ []) := (List.append_nil d).symm ▸ hd
        have hmark : (Phase.body true).mark = some .body := rfl
        exact flushed_cut (by exact hops) hmark (hK _ rfl) hd' hnew
      · -- nothing comes behind the cut
        rw [flushed_cons, flushed_cons, hd.data]
        have happly : m'.apply (.data .body) = (m', []) := by
          rw [Marks.apply, hnone]
        have hset : m.set .body none = m' := by
          apply Marks.ext_get
          intro k
          by_cases hk : k = .body
          · rw [hk, Marks.get_set, hnone]
          · rw [Marks.get_set_of_ne m hk, hd.unset k hk, hnone]
        rw [happly, hset]
        exact .refl _ _
    · have hcut : ph.cut = ph := by
        cases ph with
        | body b =>
          cases b with
          | false => rfl
          | true => exact absurd rfl hph
        | _ => rfl
      rw [hcut] at hm'
      obtain ⟨d', hd'⟩ := hm'.only hmark
      rw [hempty k d' hd'.set] at hd'
      have hwhole : m.Only k (d ++ []) := (List.append_nil d).symm ▸ hd
      exact flushed_cut hops hmark (hK k hmark) hwhole hd'

/-! ### The byte machine, read by read -/

/-- The element a parser is in. -/
def inElement : ParserState → Option DataFor
  | .bodyIdentity | .chunkData | .chunkDataAlmostDone => some .body
  | st => startMark st

theorem mark_inElement {st : ParserState} {t : Bool} (h : FitsIn st t ph)
    (hmark : ph.mark = some k) : inElement st = some k := by
  cases st <;> unfold FitsIn at h
  case headersAlmostDone =>
    rcases h with rfl | rfl
    · cases hmark
    · cases t <;> cases hmark
  case bodyIdentity | chunkData | chunkDataAlmostDone =>
    obtain ⟨⟨b, rfl⟩, -⟩ := h
    cases b with
    | false => cases hmark
    | true => exact hmark
  all_goals first
    | (subst h; exact hmark)
    | (obtain ⟨rfl, -⟩ := h; exact hmark)
    | (subst h; cases t <;> cases hmark)
    | exact h.elim

theorem inElement_body {st : ParserState} (h : inElement st = some .body) :
    st = .bodyIdentity ∨ st = .chunkData ∨ st = .chunkDataAlmostDone := by
  cases st <;> first
    | exact .inl rfl
    | exact .inr (.inl rfl)
    | exact .inr (.inr rfl)
    | cases h

variable {p : HttpParserData} {tn : Turn}

/-- A byte in a body that is marked marks it again, or ends it. -/
theorem run_body_head (hinv : Inv p) (hfits : Fits p (.body true)) (data : Bytes) :
    (byteMachine.run p data).out = [] ∨ ∃ os', (byteMachine.run p data).out = .mark .body :: os' ∨
      (byteMachine.run p data).out = .data .body :: os' := by
  cases data with
  | nil => exact .inl rfl
  | cons ch data =>
    have hhead : ∀ {q : HttpParserData} {o os halt}, byteStep p ch = (q, o :: os, halt) →
        ∃ os', (byteMachine.run p (ch :: data)).out = o :: os' := by
      intro q o os halt heq
      rw [run_cons]
      cases halt with
      | none =>
        rw [one_of_step heq, andThen_of_none rfl]
        exact ⟨_, List.cons_append⟩
      | some halt =>
        rw [one_of_error heq, andThen_of_stop rfl]
        exact ⟨os, rfl⟩
    have hstop : ∀ {q : HttpParserData} {halt}, byteStep p ch = (q, [], some halt) →
        (byteMachine.run p (ch :: data)).out = [] := by
      intro q halt heq
      rw [run_cons, one_of_error heq, andThen_of_stop rfl]
    have hph : FitsIn p.state p.others.flags.trailing (.body true) := hfits
    have hstate := hinv.state
    unfold StateInv at hstate
    have hbody : p.state = .bodyIdentity ∨ p.state = .chunkData → ∃ os',
        (byteMachine.run p (ch :: data)).out = .mark .body :: os' := fun hst =>
      hhead (byteStep_body hst hinv ch)
    rcases inElement_body (mark_inElement hph rfl) with hst | hst | hst
    · obtain ⟨os', hos⟩ := hbody (.inl hst)
      exact .inr ⟨os', .inl hos⟩
    · obtain ⟨os', hos⟩ := hbody (.inr hst)
      exact .inr ⟨os', .inl hos⟩
    · rcases hinv.countByte with ⟨heq, -, -⟩ | ⟨q, heq, -, hq, hcount⟩
      · have hover : byteStep p ch =
            fail { p with others.nread := p.others.nread + 1 } .headerOverflow := by
          rw [byteStep, heq]
          rfl
        exact .inl (hstop hover)
      · simp only [hst] at hstate
        have hmembers : q.others.flags.chunked = true ∧ q.others.contentLength = 0 := by
          rw [hcount]
          split <;> exact hstate
        have hbyte : byteStep p ch = passed ch (chunkDataAlmostDoneCase q ch) := by
          rw [byteStep, heq, next_andThen, byteSwitch_eq (by rw [hq, hst]; rfl), byteCase, hq, hst]
        rw [chunkDataAlmostDoneCase, if_neg (by simp [hmembers])] at hbyte
        split at hbyte
        · exact .inl (hstop hbyte)
        · obtain ⟨os', hos⟩ := hhead hbyte
          exact .inr ⟨os', .inr hos⟩

/-- The callbacks of a read, as the byte machine makes them. -/
def machineEvents (p : HttpParserData) (data : Bytes) : List ReqEvent :=
  flushed (Marks.start p.state) (byteMachine.run p data).out

/-- A run that has not stopped leaves a parser between two reads. -/
theorem running_run (h : Running p tn) {data : Bytes}
    (hstop : (byteMachine.run p data).stop = none) :
    ∃ tn', Running (byteMachine.run p data).state tn' := by
  obtain ⟨hinv, ph, hfits, hcut, hsees⟩ := h
  obtain ⟨ph', hleads⟩ := run_goes hinv hfits data
  have hdone := ops_done hleads.ops (hcut ▸ marked_start hfits : Marked ph (Marks.start p.state))
    hsees
  obtain ⟨tn', -, hsees'⟩ := hdone.turn
  exact ⟨tn', .of_fits ((run_safe hinv data).inv (by rw [hstop]; nofun))
    (hleads.fits (by rw [hstop]; nofun)) hsees'.cut⟩

/-- **A cut of a read in two.** -/
theorem machineEvents_append (h : Running p tn) (a b : Bytes)
    (hstop : (byteMachine.run p a).stop = none)
    (hK : ∀ k, inElement (byteMachine.run p a).state.state = some k → K k) :
    Fragmented (fragment K) (machineEvents p a ++ machineEvents (byteMachine.run p a).state b)
      (machineEvents p (a ++ b)) := by
  obtain ⟨hinv, ph, hfits, hcut, hsees⟩ := h
  obtain ⟨ph₁, hleads⟩ := run_goes hinv hfits a
  have hdone := ops_done hleads.ops (hcut ▸ marked_start hfits : Marked ph (Marks.start p.state))
    hsees
  have hinv₁ := (run_safe hinv a).inv (by rw [hstop]; nofun)
  have hfits₁ := hleads.fits (by rw [hstop]; nofun)
  obtain ⟨ph₂, hleads₂⟩ := run_goes hinv₁ hfits₁ b
  have hout : (byteMachine.run p (a ++ b)).out =
      (byteMachine.run p a).out ++ (byteMachine.run (byteMachine.run p a).state b).out := by
    rw [run_append, andThen_of_none hstop]
  rw [machineEvents, machineEvents, machineEvents, hout, flushed_append, flushed, List.append_assoc]
  refine (Fragmented.refl _ _).append ?_
  refine flushed_split hleads₂.ops hdone.marked (marked_start hfits₁) ?_ ?_ ?_
  · intro k d hd
    rw [get_start] at hd
    split at hd
    · exact (Option.some.inj hd).symm
    · cases hd
  · intro k hmark
    exact hK k (mark_inElement hfits₁ hmark)
  · rintro rfl
    exact run_body_head hinv₁ hfits₁ b

/-- The callbacks of several reads, as the byte machine makes them. -/
def machinePieces (p : HttpParserData) : List Bytes → List ReqEvent
  | [] => []
  | r :: rs =>
    machineEvents p r ++
      if (byteMachine.run p r).stop = none then machinePieces (byteMachine.run p r).state rs else []

/-- The reads end in elements that may be cut. -/
def CutIn (K : DataFor → Prop) (p : HttpParserData) : List Bytes → Prop
  | r :: r' :: rs =>
    (byteMachine.run p r).stop = none →
      (∀ k, inElement (byteMachine.run p r).state.state = some k → K k) ∧
        CutIn K (byteMachine.run p r).state (r' :: rs)
  | _ => True

/-- **Several reads** make the callbacks of one, with elements in fragments. -/
theorem machinePieces_fragmented (h : Running p tn) {reads : List Bytes} (hne : reads ≠ [])
    (hcut : CutIn K p reads) :
    Fragmented (fragment K) (machinePieces p reads) (machineEvents p reads.flatten) := by
  induction reads generalizing p tn with
  | nil => exact absurd rfl hne
  | cons r rs ih =>
    rw [machinePieces, List.flatten_cons]
    cases rs with
    | nil =>
      rw [List.flatten_nil, List.append_nil, machinePieces, ite_self, List.append_nil]
      exact .refl _ _
    | cons r' rs =>
      by_cases hstop : (byteMachine.run p r).stop = none
      · rw [if_pos hstop]
        obtain ⟨hK, hcut'⟩ := hcut hstop
        obtain ⟨tn', hrunning⟩ := running_run h hstop
        have hrest := ih hrunning (List.cons_ne_nil _ _) hcut'
        refine Fragmented.trans (fragment_injective K) ?_
          (machineEvents_append h r (r' :: rs).flatten hstop hK)
        exact (Fragmented.refl _ _).append hrest
      · -- nothing is read behind an error or an upgrade
        rw [if_neg hstop, List.append_nil]
        obtain ⟨e, he⟩ := Option.ne_none_iff_exists'.mp hstop
        have hsame : machineEvents p (r ++ (r' :: rs).flatten) = machineEvents p r := by
          rw [machineEvents, machineEvents, run_append, andThen_of_stop he]
        rw [hsame]
        exact .refl _ _

/-! ### The parser, read by read -/

/-- No message is completed. -/
def Silent (es : List ReqEvent) : Prop := ∀ up, .messageComplete up ∉ es

theorem Silent.append {es es' : List ReqEvent} (h : Silent es) (h' : Silent es') :
    Silent (es ++ es') := by
  intro up hmem
  rcases List.mem_append.mp hmem with hmem | hmem
  · exact h up hmem
  · exact h' up hmem

/-- Every callback is one of the data callbacks, or is made by name. -/
theorem mem_run {e : ReqEvent} {os : List Op} (h : e ∈ (m.run os).2) :
    .notify e ∈ os ∨ ∃ k d, e = DataFor.event k d := by
  induction os generalizing m with
  | nil => cases h
  | cons o os ih =>
    rcases List.mem_append.mp h with h | h
    · cases o with
      | mark k => cases h
      | data k =>
        rw [Marks.apply] at h
        split at h
        · exact .inr ⟨k, _, List.mem_singleton.mp h⟩
        · cases h
      | notify e' =>
        rw [List.mem_singleton.mp h]
        exact .inl List.mem_cons_self
      | move bs => cases h
    · rcases ih h with h | h
      · exact .inl (List.mem_cons_of_mem _ h)
      · exact .inr h

theorem silent_of_data {os : List Op} (hos : ∀ e, .notify e ∉ os) (m : Marks) :
    Silent (m.run os).2 := by
  intro up hmem
  rcases mem_run hmem with h | ⟨k, d, h⟩
  · exact hos _ h
  · cases k <;> cases h

theorem Quiet.silent {os : List Op} (h : Quiet os) (m : Marks) : Silent (m.run os).2 := by
  apply silent_of_data
  intro e he
  rcases h _ he with h | ⟨bs, h⟩ <;> cases h

theorem silent_leftover (m : Marks) : Silent (m.run leftover).2 := by
  apply silent_of_data
  intro e he
  simp [leftover] at he

theorem idle_of_complete {up : Bool} (h : ph.op (.notify (.messageComplete up)) = some ph') :
    ph' = .idle := by
  unfold Phase.op at h
  split at h <;> simp_all

/-- **A read** makes the callbacks of the byte machine; in the error state but for what follows
    the last message that is complete. -/
theorem execute_machine (h : Running p tn) {data : Bytes} (hshort : data.length < 2 ^ 31) :
    ∃ p' es n, execute? p data = some (p', es, n) ∧
      ((byteMachine.run p data).stop ≠ some .error →
        p' = (byteMachine.run p data).state ∧ es = machineEvents p data) ∧
      ((byteMachine.run p data).stop = some .error → p'.httpErrno ≠ .ok ∧
        ∃ a t t', es = a ++ t ∧ machineEvents p data = a ++ t' ∧ Silent t ∧ Silent t') := by
  obtain ⟨hinv, ph, hfits, hcut, hsees⟩ := h
  obtain ⟨ph', hleads⟩ := run_goes hinv hfits data
  have hmarked : Marked ph (Marks.start p.state) := hcut ▸ marked_start hfits
  have hdone := ops_done hleads.ops hmarked hsees
  rw [execute?, machineEvents]
  cases loop_agrees hinv le_rfl hshort with
  | read stop stop' state ops rest =>
    rw [stop]
    dsimp only
    rw [ops (Marks.start p.state), if_pos hdone.marked.atMostOne]
    refine ⟨_, _, _, rfl, fun _ => ⟨state, rfl⟩, fun herror => ?_⟩
    rw [stop'] at herror
    cases herror
  | exit stop stop' state ops rest =>
    rw [stop]
    dsimp only
    refine ⟨_, _, _, rfl, fun _ => ⟨state, ?_⟩, fun herror => ?_⟩
    · -- nothing is marked behind an upgrade
      obtain ⟨os', hos⟩ := hleads.exit stop'
      have hops := hleads.ops
      rw [hos, Phase.ops_append] at hops
      obtain ⟨ph₁, -, hlast⟩ := Option.bind_eq_some_iff.mp hops
      rw [Phase.ops_cons] at hlast
      obtain ⟨ph₂, hop, hnil⟩ := Option.bind_eq_some_iff.mp hlast
      cases hnil
      have hidle := idle_of_complete hop
      have hnone := hdone.marked.get_none (by rw [hidle]; rfl)
      rw [flushed, run_leftover_none hnone, List.append_nil, ops (Marks.start p.state)]
    · rw [stop'] at herror
      cases herror
  | error stop stop' errno errno' os e e' ops ops' quiet quiet' =>
    rw [stop]
    dsimp only
    refine ⟨_, _, _, rfl, fun hne => absurd stop' hne, fun _ => ⟨errno, ?_⟩⟩
    have hrun := ops (Marks.start p.state)
    rw [Marks.run_append] at hrun
    rw [ops', flushed_append, hrun]
    refine ⟨_, _, _, rfl, rfl, quiet.silent _, ?_⟩
    exact (quiet'.silent _).append (silent_leftover _)

end RequestParser

/-- The parser behind some reads. -/
def HttpParser.after {ρ : Type} (P : HttpParser ρ) (p : ρ) (reads : List Bytes) : ρ :=
  reads.foldl (fun p d => (P.execute p d).1) p

namespace RequestParser

theorem execute_of_ok {p : HttpParserData} (hok : p.httpErrno = .ok) {data : Bytes}
    (hne : data ≠ []) {p' : HttpParserData} {es : List ReqEvent} {n : Nat}
    (h : execute? p data = some (p', es, n)) : requestParser.execute p data = (p', es, n) := by
  show httpParserExecute requestLoop p data = _
  rw [httpParserExecute, if_neg (not_not.mpr hok), if_neg (mt List.length_eq_zero_iff.mp hne),
    requestLoop, h]
  rfl

/-- In the error state nothing is read. -/
theorem callbacks_errored {p : HttpParserData} (h : p.httpErrno ≠ .ok) (reads : List Bytes) :
    requestParser.callbacks p reads = [] ∧ requestParser.after p reads = p := by
  induction reads with
  | nil => exact ⟨rfl, rfl⟩
  | cons r rs ih =>
    have hexecute : requestParser.execute p r = (p, [], 0) :=
      execute_errored ParserMembers.zero requestLoop h r
    rw [HttpParser.callbacks, HttpParser.after, List.foldl_cons, hexecute]
    exact ih

/-- **Several reads** make the callbacks of the byte machine, read by read. -/
theorem callbacks_machine {p : HttpParserData} {tn : Turn} (h : Running p tn) {reads : List Bytes}
    (hne : ∀ r ∈ reads, r ≠ []) (hshort : ∀ r ∈ reads, r.length < 2 ^ 31)
    (hexit : (byteMachine.run p reads.flatten).stop ≠ some .exit) :
    ((byteMachine.run p reads.flatten).stop = none →
      requestParser.after p reads = (byteMachine.run p reads.flatten).state ∧
        requestParser.callbacks p reads = machinePieces p reads) ∧
    ((byteMachine.run p reads.flatten).stop = some .error →
      (requestParser.after p reads).httpErrno ≠ .ok ∧
        ∃ a t t', requestParser.callbacks p reads = a ++ t ∧ machinePieces p reads = a ++ t' ∧
          Silent t ∧ Silent t') := by
  induction reads generalizing p tn with
  | nil => exact ⟨fun _ => ⟨rfl, rfl⟩, nofun⟩
  | cons r rs ih =>
    obtain ⟨p', es, n, hexecute, hfine, herror⟩ := execute_machine h (hshort r List.mem_cons_self)
    have hcall := execute_of_ok h.inv.base.ok (hne r List.mem_cons_self) hexecute
    rw [List.flatten_cons, run_append] at hexit ⊢
    rw [HttpParser.callbacks, HttpParser.after, List.foldl_cons, hcall, machinePieces]
    rcases hstop : (byteMachine.run p r).stop with _ | halt
    · obtain ⟨rfl, rfl⟩ := hfine (by rw [hstop]; exact fun h => by cases h)
      obtain ⟨tn', hrunning⟩ := running_run h hstop
      rw [andThen_of_none hstop] at hexit ⊢
      obtain ⟨hnone, hsome⟩ := ih hrunning (fun r hr => hne r (List.mem_cons_of_mem _ hr))
        (fun r hr => hshort r (List.mem_cons_of_mem _ hr)) hexit
      rw [if_pos rfl]
      refine ⟨fun hs => ?_, fun hs => ?_⟩
      · obtain ⟨hstate, hevents⟩ := hnone hs
        exact ⟨hstate, congrArg (machineEvents p r ++ ·) hevents⟩
      · obtain ⟨herrno, a, t, t', hevents, hmachine, ht, ht'⟩ := hsome hs
        refine ⟨herrno, machineEvents p r ++ a, t, t', ?_, ?_, ht, ht'⟩
        · rw [List.append_assoc]
          exact congrArg (machineEvents p r ++ ·) hevents
        · rw [hmachine, List.append_assoc]
    · rw [andThen_of_stop hstop] at hexit ⊢
      rw [if_neg (by nofun)]
      refine ⟨fun hs => absurd (hstop.symm.trans hs) nofun, fun hs => ?_⟩
      obtain ⟨herrno, a, t, t', hevents, hmachine, ht, ht'⟩ := herror hs
      obtain ⟨hnil, hsame⟩ := callbacks_errored herrno rs
      rw [HttpParser.after] at hsame
      dsimp only
      rw [hnil, hsame, List.append_nil, List.append_nil]
      exact ⟨herrno, a, t, t', hevents, hmachine, ht, ht'⟩

end RequestParser

end MyWebSocket
