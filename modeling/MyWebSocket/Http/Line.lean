import MyWebSocket.Library.Log
import MyWebSocket.Http.Session

namespace MyWebSocket

open Log

/-!
# The line of requests

What the trace of a session says about its responses, and the invariant behind the order they
are handed to `uv_write` in.  Nothing in the server holds a response back until the ones before
it have been sent: `sendStr`, `sendJson`, the 404 and the 101 write at once, `sendFile` writes
when its file has been read.

* `InTurn` — where a response is handed over, the earlier ones have been or are being read;
* `eachInTurn_append` — what may be added to a trace in which everything is in turn;
* `Line` — the requests of a session as a line: who has a running handler, whose file is being
  read, whose response has been handed over.
-/

/-! ### Responses in the trace -/

/-- Response `i` is handed to `uv_write`. -/
def HttpEffect.handsOver (i : Nat) : HttpEffect → Bool
  | .uvWrite _ j _ => j == i
  | _ => false

/-- Response `i` is handed to `uv_write`, or its file is begun to be read. -/
def HttpEffect.answers (i : Nat) : HttpEffect → Bool
  | .uvWrite _ j _ => j == i
  | .newReader _ j => j == i
  | _ => false

/-- Reader `j` calls back its response. -/
def HttpEffect.callsBack (j : Nat) : HttpEffect → Bool
  | .fs k a => k == j && a.isCallback
  | _ => false

/-- Response `i` has been handed to `uv_write`. -/
abbrev HandedOver (t : List HttpEffect) (i : Nat) : Prop := Has (HttpEffect.handsOver i) t

/-- Response `i` has been sent, at once or by `sendFile`. -/
abbrev Answered (t : List HttpEffect) (i : Nat) : Prop := Has (HttpEffect.answers i) t

/-- Reader `j` has called back. -/
abbrev CalledBack (t : List HttpEffect) (j : Nat) : Prop := Has (HttpEffect.callsBack j) t

/-- Response `i` has a file reader that has not called back. -/
def ReadingFile (t : List HttpEffect) (i : Nat) : Prop :=
  ∃ j, .newReader j i ∈ t ∧ ¬ CalledBack t j

/-- Where a response is handed over, the file of each earlier one is still being read, or that
    one has been handed over for good. -/
def InTurn (pre : List HttpEffect) (e : HttpEffect) (post : List HttpEffect) : Prop :=
  ∀ j, e.handsOver j = true → ∀ i < j,
    ReadingFile pre i ∨ HandedOver pre i ∧ ¬ HandedOver post i

theorem handedOver_append {t u : List HttpEffect} {i : Nat} :
    HandedOver (t ++ u) i ↔ HandedOver t i ∨ HandedOver u i := has_append

theorem answered_append {t u : List HttpEffect} {i : Nat} :
    Answered (t ++ u) i ↔ Answered t i ∨ Answered u i := has_append

theorem calledBack_append {t u : List HttpEffect} {j : Nat} :
    CalledBack (t ++ u) j ↔ CalledBack t j ∨ CalledBack u j := has_append

theorem handedOver_uvWrite {ctx i k : Nat} {buffers : List Bytes} :
    HandedOver [.uvWrite ctx i buffers] k ↔ i = k := has_singleton.trans beq_iff_eq

theorem answered_uvWrite {ctx i k : Nat} {buffers : List Bytes} :
    Answered [.uvWrite ctx i buffers] k ↔ i = k := has_singleton.trans beq_iff_eq

theorem answered_newReader {j i k : Nat} : Answered [.newReader j i] k ↔ i = k :=
  has_singleton.trans beq_iff_eq

/-- Sending is answering. -/
theorem answered_send (t : List HttpEffect) (ctx i : Nat) (buffers : List Bytes) :
    Answered (t ++ [.newCtx ctx, .uvWrite ctx i buffers]) i :=
  ⟨.uvWrite ctx i buffers, by simp, by simp [HttpEffect.answers]⟩

theorem answered_iff {t : List HttpEffect} {i : Nat} :
    Answered t i ↔ HandedOver t i ∨ ∃ j, .newReader j i ∈ t := by
  constructor
  · rintro ⟨e, he, hi⟩
    cases e with
    | uvWrite ctx j buffers => exact .inl ⟨_, he, hi⟩
    | newReader reader j =>
      obtain rfl : j = i := by simpa [HttpEffect.answers] using hi
      exact .inr ⟨reader, he⟩
    | _ => simp [HttpEffect.answers] at hi
  · rintro (⟨e, he, hi⟩ | ⟨j, hj⟩)
    · cases e with
      | uvWrite ctx j buffers => exact ⟨_, he, hi⟩
      | _ => simp [HttpEffect.handsOver] at hi
    · exact ⟨_, hj, by simp [HttpEffect.answers]⟩

/-- What is added to a trace in which everything is in turn: one response at most is handed
    over, for the first time and in turn, and only its reader calls back. -/
theorem eachInTurn_append {t es : List HttpEffect} (h : Each InTurn t)
    (hfirst : ∀ i, HandedOver es i → ¬ HandedOver t i)
    (hturn : ∀ i, HandedOver es i → ∀ k < i, ReadingFile t k ∨ HandedOver t k)
    (honly : ∀ i k, HandedOver es i → HandedOver es k → k = i)
    (hreaders : ∀ i j k, HandedOver es i → CalledBack es j → .newReader j k ∈ t → k = i) :
    Each InTurn (t ++ es) := by
  refine h.append ?_ ?_
  · -- an entry that was there: what is handed over now was not handed over before
    rintro pre e post rfl hold j hj k hk
    rcases hold j hj k hk with hreading | ⟨hover, hpost⟩
    · exact .inl hreading
    · refine .inr ⟨hover, fun hlater => ?_⟩
      rcases handedOver_append.mp hlater with hlater | hlater
      · exact hpost hlater
      · exact hfirst k hlater (hover.mono (List.subset_append_left _ _))
  · -- an entry that is added
    rintro pre e post rfl j hj k hk
    have hj' : HandedOver (pre ++ e :: post) j := ⟨e, by simp, hj⟩
    -- `k` is still being read, or has been handed over and is not handed over again
    rcases hturn j hj' k hk with ⟨r, hr, hquiet⟩ | hover
    · refine .inl ⟨r, List.mem_append_left _ hr, fun hcalled => ?_⟩
      rcases calledBack_append.mp hcalled with hcalled | hcalled
      · exact hquiet hcalled
      · have hmem := hcalled.mono (List.subset_append_left pre (e :: post))
        exact Nat.ne_of_lt hk (hreaders j r k hj' hmem hr)
    · refine .inr ⟨hover.mono (List.subset_append_left _ _), fun hlater => ?_⟩
      have hk' : HandedOver (pre ++ e :: post) k := hlater.mono (by simp)
      exact Nat.ne_of_lt hk (honly j k hj' hk')

/-- Effects that hand nothing over disturb no turn. -/
theorem eachInTurn_append_of_not {t es : List HttpEffect} (h : Each InTurn t)
    (hes : ∀ i, ¬ HandedOver es i) : Each InTurn (t ++ es) := by
  apply eachInTurn_append h
  · exact fun i hi => absurd hi (hes i)
  · exact fun i hi => absurd hi (hes i)
  · exact fun i k hi => absurd hi (hes i)
  · exact fun i j k hi => absurd hi (hes i)

/-! ### The line -/

/-- The line of `n` requests with what is on the stack, the file readers (the response of each,
    and whether it has called back) and the trace. -/
structure Line (n : Nat) (stack : List HttpTask) (readers : List (Nat × Bool))
    (t : List HttpEffect) : Prop where
  /-- The handler of the newest request may be running; below it there are only callbacks of
      the parser. -/
  shape : ∃ es : List ReqEvent, stack = es.map .event ∨
    ∃ i, i + 1 = n ∧ stack = .user i :: es.map .event
  reader_iff : ∀ j i : Nat, .newReader j i ∈ t ↔ ∃ done, readers[j]? = some (i, done)
  callback_iff : ∀ j : Nat, CalledBack t j ↔ ∃ i, readers[j]? = some (i, true)
  unique : ∀ j j' i : Nat, .newReader j i ∈ t → .newReader j' i ∈ t → j = j'
  done_iff : ∀ (j i : Nat) (done : Bool), readers[j]? = some (i, done) →
    (done = true ↔ HandedOver t i)
  answered_lt : ∀ i, Answered t i → i < n
  settled : ∀ i < n, .user i ∈ stack ∨ Answered t i
  inTurn : Each InTurn t

variable {n : Nat} {stack : List HttpTask} {readers : List (Nat × Bool)} {t : List HttpEffect}

/-- A response that has been sent is handed over, or its file is still being read. -/
theorem Line.of_answered (h : Line n stack readers t) {i : Nat} (hi : Answered t i) :
    ReadingFile t i ∨ HandedOver t i := by
  rcases answered_iff.mp hi with hover | ⟨j, hj⟩
  · exact .inr hover
  · obtain ⟨done, hdone⟩ := (h.reader_iff j i).mp hj
    cases done with
    | true => exact .inr ((h.done_iff j i true hdone).mp rfl)
    | false =>
      refine .inl ⟨j, hj, fun hcalled => ?_⟩
      obtain ⟨i', hi'⟩ := (h.callback_iff j).mp hcalled
      rw [hdone] at hi'
      cases hi'

/-- All responses before that of the newest request have been sent. -/
theorem Line.earlier (h : Line n stack readers t) {i k : Nat} (hi : i < n) (hk : k < i) :
    ReadingFile t k ∨ HandedOver t k := by
  rcases h.settled k (hk.trans hi) with hmem | hans
  -- only the newest request has a running handler, and `k` is not the newest
  · obtain ⟨es, hst | ⟨i', hi', hst⟩⟩ := h.shape
    · simp [hst] at hmem
    · obtain rfl : k = i' := by simpa [hst] using hmem
      omega
  · exact h.of_answered hans

/-- What is added answers requests of the line only. -/
theorem Line.answered_lt_append (h : Line n stack readers t) {es : List HttpEffect}
    (hes : ∀ k, Answered es k → k < n) (k : Nat) (hk : Answered (t ++ es) k) : k < n := by
  rcases answered_append.mp hk with hk | hk
  · exact h.answered_lt k hk
  · exact hes k hk

theorem Line.settled_append (h : Line n stack readers t) (es : List HttpEffect) (k : Nat)
    (hk : k < n) : .user k ∈ stack ∨ Answered (t ++ es) k :=
  (h.settled k hk).imp_right fun hk' => answered_append.mpr (.inl hk')

/-- Response `i` is handed over for the first time: all before it have had their turn. -/
theorem Line.inTurn_append (h : Line n stack readers t) {es : List HttpEffect} {i : Nat}
    (hi : i < n) (hfirst : ¬ HandedOver t i) (honly : ∀ k, HandedOver es k → i = k)
    (hreaders : ∀ r k : Nat, CalledBack es r → .newReader r k ∈ t → k = i) :
    Each InTurn (t ++ es) := by
  apply eachInTurn_append h.inTurn
  · intro k hk
    obtain rfl := honly k hk
    exact hfirst
  · intro k hk
    obtain rfl := honly k hk
    exact fun k' hk' => h.earlier hi hk'
  · intro k k' hk hk'
    rw [← honly k hk, ← honly k' hk']
  · intro k r k' hk hr hmem
    rw [← honly k hk]
    exact hreaders r k' hr hmem

/-- The effect matters for the line. -/
def HttpEffect.inLine : HttpEffect → Bool
  | .uvWrite _ _ _ => true
  | .newReader _ _ => true
  | .fs _ a => a.isCallback
  | _ => false

theorem HttpEffect.inLine_of_handsOver {e : HttpEffect} {i : Nat} (h : e.handsOver i = true) :
    e.inLine = true := by
  cases e with
  | uvWrite ctx j buffers => rfl
  | _ => simp [HttpEffect.handsOver] at h

theorem HttpEffect.inLine_of_answers {e : HttpEffect} {i : Nat} (h : e.answers i = true) :
    e.inLine = true := by
  cases e with
  | uvWrite ctx j buffers => rfl
  | newReader reader j => rfl
  | _ => simp [HttpEffect.answers] at h

theorem HttpEffect.inLine_of_callsBack {e : HttpEffect} {j : Nat} (h : e.callsBack j = true) :
    e.inLine = true := by
  cases e with
  | fs k a =>
    simp only [HttpEffect.callsBack, Bool.and_eq_true] at h
    exact h.2
  | _ => simp [HttpEffect.callsBack] at h

theorem not_answered_append {t es : List HttpEffect} {i : Nat} (h : ¬ Answered t i)
    (hes : ∀ e ∈ es, e.inLine = false) : ¬ Answered (t ++ es) i := by
  intro hans
  rcases answered_append.mp hans with hans | ⟨e, he, hi⟩
  · exact h hans
  · exact absurd (HttpEffect.inLine_of_answers hi) (by simp [hes e he])

/-- Effects that do not matter. -/
theorem Line.append (h : Line n stack readers t) {es : List HttpEffect}
    (hes : ∀ e ∈ es, e.inLine = false) : Line n stack readers (t ++ es) := by
  have hnot : ∀ p : HttpEffect → Bool, (∀ e, p e = true → e.inLine = true) →
      ∀ e ∈ es, p e = false := by
    intro p hp e he
    rw [← Bool.not_eq_true]
    intro hpe
    exact absurd (hp e hpe) (by simp [hes e he])
  have hover : ∀ i, HandedOver (t ++ es) i ↔ HandedOver t i := fun i =>
    has_append_of_forall (hnot _ fun _ => HttpEffect.inLine_of_handsOver)
  have hans : ∀ i, Answered (t ++ es) i ↔ Answered t i := fun i =>
    has_append_of_forall (hnot _ fun _ => HttpEffect.inLine_of_answers)
  have hcalled : ∀ j, CalledBack (t ++ es) j ↔ CalledBack t j := fun j =>
    has_append_of_forall (hnot _ fun _ => HttpEffect.inLine_of_callsBack)
  have hreader : ∀ j i : Nat, .newReader j i ∈ t ++ es ↔ .newReader j i ∈ t := by
    intro j i
    rw [List.mem_append, or_iff_left_iff_imp]
    intro hmem
    exact absurd (hes _ hmem) (by simp [HttpEffect.inLine])
  have hnone : ∀ i, ¬ HandedOver es i := by
    rintro i ⟨e, he, hi⟩
    exact absurd (HttpEffect.inLine_of_handsOver hi) (by simp [hes e he])
  exact
    { shape := h.shape
      reader_iff := by simpa only [hreader] using h.reader_iff
      callback_iff := by simpa only [hcalled] using h.callback_iff
      unique := by simpa only [hreader] using h.unique
      done_iff := by simpa only [hover] using h.done_iff
      answered_lt := by simpa only [hans] using h.answered_lt
      settled := by simpa only [hans] using h.settled
      inTurn := eachInTurn_append_of_not h.inTurn hnone }

/-! ### What happens to the line -/

/-- Only the newest request has a running handler. -/
theorem Line.user_eq {st : List HttpTask} {i : Nat} (h : Line n (.user i :: st) readers t) :
    i + 1 = n ∧ ∃ es : List ReqEvent, st = es.map .event := by
  obtain ⟨es, hst | ⟨i', hi', hst⟩⟩ := h.shape
  · cases es with
    | nil => cases hst
    | cons e es => cases hst
  · obtain ⟨hhead, htail⟩ := List.cons.inj hst
    cases hhead
    exact ⟨hi', es, htail⟩

theorem Line.event_eq {st : List HttpTask} {e : ReqEvent}
    (h : Line n (.event e :: st) readers t) : ∃ es : List ReqEvent, st = es.map .event := by
  obtain ⟨es, hst | ⟨i', hi', hst⟩⟩ := h.shape
  · cases es with
    | nil => cases hst
    | cons e es => exact ⟨es, (List.cons.inj hst).2⟩
  · cases hst

/-- The callbacks of a read are left on the stack. -/
theorem Line.recv (h : Line n [] readers t) (es : List ReqEvent) :
    Line n (es.map .event) readers t :=
  { h with
    shape := ⟨es, .inl rfl⟩
    settled := fun i hi => (h.settled i hi).elim (fun hmem => by simp at hmem) .inr }

/-- A callback of the parser is made. -/
theorem Line.event {st : List HttpTask} {e : ReqEvent} (h : Line n (.event e :: st) readers t) :
    Line n st readers t := by
  obtain ⟨es, rfl⟩ := h.event_eq
  refine { h with shape := ⟨es, .inl rfl⟩, settled := fun i hi => ?_ }
  rcases h.settled i hi with hmem | hans
  · simp at hmem
  · exact .inr hans

/-- The next request is handled. -/
theorem Line.handle {st : List HttpTask} {e : ReqEvent} (h : Line n (.event e :: st) readers t) :
    Line (n + 1) (.user n :: st) readers t := by
  obtain ⟨es, rfl⟩ := h.event_eq
  refine { h with shape := ⟨es, .inr ⟨n, rfl, rfl⟩⟩, answered_lt := fun i hi => ?_,
                  settled := fun i hi => ?_ }
  · exact (h.answered_lt i hi).trans (Nat.lt_succ_self n)
  · rcases Nat.lt_succ_iff_lt_or_eq.mp hi with hlt | rfl
    · rcases h.settled i hlt with hmem | hans
      · simp at hmem
      · exact .inr hans
    · exact .inl List.mem_cons_self

/-- A handler that has sent its response returns. -/
theorem Line.ret {st : List HttpTask} {i : Nat} (h : Line n (.user i :: st) readers t)
    (hans : Answered t i) : Line n st readers t := by
  obtain ⟨hi, es, rfl⟩ := h.user_eq
  refine { h with shape := ⟨es, .inl rfl⟩, settled := fun k hk => ?_ }
  rcases h.settled k hk with hmem | hk'
  · obtain rfl : k = i := by simpa using hmem
    exact .inr hans
  · exact .inr hk'

/-- The running handler sends its response at once. -/
theorem Line.handOver {st : List HttpTask} {i : Nat} (h : Line n (.user i :: st) readers t)
    (hnew : ¬ Answered t i) (ctx : Nat) (buffers : List Bytes) :
    Line n (.user i :: st) readers (t ++ [.uvWrite ctx i buffers]) := by
  have hi : i < n := by
    have hn := h.user_eq.1
    omega
  have hcalled : ∀ j, CalledBack (t ++ [.uvWrite ctx i buffers]) j ↔ CalledBack t j := fun j =>
    has_append_of_forall (by simp [HttpEffect.callsBack])
  have hreader : ∀ j k : Nat, .newReader j k ∈ t ++ [.uvWrite ctx i buffers] ↔
      .newReader j k ∈ t := by
    intro j k
    simp
  have hnoReader : ∀ j, .newReader j i ∉ t := fun j hj => hnew (answered_iff.mpr (.inr ⟨j, hj⟩))
  refine
    { shape := h.shape
      reader_iff := by simpa only [hreader] using h.reader_iff
      callback_iff := by simpa only [hcalled] using h.callback_iff
      unique := by simpa only [hreader] using h.unique
      done_iff := fun j k done hj => ?_
      answered_lt := h.answered_lt_append fun k hk => answered_uvWrite.mp hk ▸ hi
      settled := h.settled_append _
      inTurn := ?_ }
  · -- the response has no reader, so nothing changes for the readers there are
    rw [handedOver_append, handedOver_uvWrite, h.done_iff j k done hj, iff_self_or]
    rintro rfl
    exact absurd ((h.reader_iff j i).mpr ⟨done, hj⟩) (hnoReader j)
  · apply h.inTurn_append hi
    · exact fun hk => hnew (answered_iff.mpr (.inl hk))
    · exact fun k hk => handedOver_uvWrite.mp hk
    · rintro j k ⟨e, he, hj⟩
      simp [List.mem_singleton.mp he, HttpEffect.callsBack] at hj

/-- `send` called for the running handler. -/
theorem Line.send {st : List HttpTask} {i : Nat} (h : Line n (.user i :: st) readers t)
    (hnew : ¬ Answered t i) (ctx : Nat) (buffers : List Bytes) :
    Line n (.user i :: st) readers (t ++ [.newCtx ctx, .uvWrite ctx i buffers]) := by
  have hctx : ∀ e ∈ [HttpEffect.newCtx ctx], e.inLine = false := by simp [HttpEffect.inLine]
  have hsend := (h.append hctx).handOver (not_answered_append hnew hctx) ctx buffers
  rw [List.append_assoc] at hsend
  exact hsend

/-- The running handler sends a file: a reader is made. -/
theorem Line.read {st : List HttpTask} {i : Nat} (h : Line n (.user i :: st) readers t)
    (hnew : ¬ Answered t i) :
    Line n (.user i :: st) (readers ++ [(i, false)]) (t ++ [.newReader readers.length i]) := by
  have hi : i < n := by
    have hn := h.user_eq.1
    omega
  -- the new reader stands at the end, under the number the trace gives it
  have hsome : ∀ (j k : Nat) (done : Bool), (readers ++ [(i, false)])[j]? = some (k, done) ↔
      readers[j]? = some (k, done) ∨ j = readers.length ∧ i = k ∧ false = done := by
    intro j k done
    rcases Nat.lt_trichotomy j readers.length with hj | rfl | hj
    · simp [List.getElem?_append_left hj, Nat.ne_of_lt hj]
    · simp
    · rw [List.getElem?_eq_none (by simp; omega), List.getElem?_eq_none (Nat.le_of_lt hj)]
      simp [Nat.ne_of_gt hj]
  have hreader : ∀ j k : Nat, .newReader j k ∈ t ++ [.newReader readers.length i] ↔
      .newReader j k ∈ t ∨ j = readers.length ∧ i = k := by
    intro j k
    simp [eq_comm]
  have hover : ∀ k, HandedOver (t ++ [.newReader readers.length i]) k ↔ HandedOver t k := fun k =>
    has_append_of_forall (by simp [HttpEffect.handsOver])
  have hcalled : ∀ j, CalledBack (t ++ [.newReader readers.length i]) j ↔ CalledBack t j :=
    fun j => has_append_of_forall (by simp [HttpEffect.callsBack])
  have hnoReader : ∀ j, .newReader j i ∉ t := fun j hj => hnew (answered_iff.mpr (.inr ⟨j, hj⟩))
  refine
    { shape := h.shape
      reader_iff := fun j k => ?_
      callback_iff := fun j => ?_
      unique := fun j j' k hj hj' => ?_
      done_iff := fun j k done hj => ?_
      answered_lt := h.answered_lt_append fun k hk => answered_newReader.mp hk ▸ hi
      settled := h.settled_append _
      inTurn := ?_ }
  · simp only [hreader, hsome, h.reader_iff, exists_or, exists_and_left, exists_eq', and_true]
  · simp only [hcalled, hsome, h.callback_iff, Bool.false_eq_true, and_false, or_false]
  · -- the new reader is the only one of its response
    rcases (hreader j k).mp hj with hold | ⟨rfl, rfl⟩
    · rcases (hreader j' k).mp hj' with hold' | ⟨rfl, rfl⟩
      · exact h.unique j j' k hold hold'
      · exact absurd hold (hnoReader j)
    · rcases (hreader j' i).mp hj' with hold' | ⟨rfl, -⟩
      · exact absurd hold' (hnoReader j')
      · rfl
  · rw [hover]
    rcases (hsome j k done).mp hj with hold | ⟨-, rfl, rfl⟩
    · exact h.done_iff j k done hold
    · have hnot : ¬ HandedOver t i := fun hk => hnew (answered_iff.mpr (.inl hk))
      exact iff_of_false Bool.false_ne_true hnot
  · apply eachInTurn_append_of_not h.inTurn
    rintro k ⟨e, he, hk⟩
    simp [List.mem_singleton.mp he, HttpEffect.handsOver] at hk

/-- A reader calls back, and its response is handed over. -/
theorem Line.callBack {j i : Nat} (h : Line n stack readers t) (hj : readers[j]? = some (i, false))
    {es : List HttpEffect} (hreader : ∀ r k : Nat, .newReader r k ∉ es)
    (hover : ∀ k, HandedOver es k ↔ i = k) (hcalled : ∀ r, CalledBack es r ↔ j = r) :
    Line n stack (readers.set j (i, true)) (t ++ es) := by
  have hmem : .newReader j i ∈ t := (h.reader_iff j i).mpr ⟨false, hj⟩
  have hi : i < n := h.answered_lt i (answered_iff.mpr (.inr ⟨j, hmem⟩))
  have hfirst : ¬ HandedOver t i := fun hk =>
    absurd ((h.done_iff j i false hj).mpr hk) Bool.false_ne_true
  have hlen : j < readers.length := (List.getElem?_eq_some_iff.mp hj).1
  have hself : (readers.set j (i, true))[j]? = some (i, true) := by
    rw [List.getElem?_set_self hlen]
  have hother : ∀ r, j ≠ r → (readers.set j (i, true))[r]? = readers[r]? := fun r hr =>
    List.getElem?_set_ne hr
  have hold : ∀ r k : Nat, .newReader r k ∈ t ++ es ↔ .newReader r k ∈ t := by
    intro r k
    rw [List.mem_append, or_iff_left (hreader r k)]
  refine
    { shape := h.shape
      reader_iff := fun r k => ?_
      callback_iff := fun r => ?_
      unique := by simpa only [hold] using h.unique
      done_iff := fun r k done hr => ?_
      answered_lt := h.answered_lt_append fun k hk => ?_
      settled := h.settled_append _
      inTurn := ?_ }
  · rw [hold, h.reader_iff]
    by_cases hr : j = r
    · subst hr
      rw [hself, hj]
      simp
    · rw [hother r hr]
  · rw [calledBack_append, hcalled, h.callback_iff]
    by_cases hr : j = r
    · subst hr
      rw [hself]
      simp
    · rw [hother r hr]
      simp [hr]
  · rw [handedOver_append, hover]
    by_cases hr' : j = r
    · subst hr'
      rw [hself] at hr
      cases hr
      simp
    · -- another reader reads for another response
      rw [hother r hr'] at hr
      rw [h.done_iff r k done hr, iff_self_or]
      rintro rfl
      exact absurd (h.unique j r i hmem ((h.reader_iff r i).mpr ⟨done, hr⟩)) hr'
  · rcases answered_iff.mp hk with hk | ⟨r, hr⟩
    · exact (hover k).mp hk ▸ hi
    · exact absurd hr (hreader r k)
  · apply h.inTurn_append hi hfirst
    · exact fun k hk => (hover k).mp hk
    · intro r k hr hmem'
      obtain rfl := (hcalled r).mp hr
      obtain ⟨done, hdone⟩ := (h.reader_iff j k).mp hmem'
      rw [hj] at hdone
      cases hdone
      rfl

/-! ### The file reader of a response -/

/-- What is added to the trace while reader `j` of response `i` does `as`. -/
structure FileEffects (j i : Nat) (as : List FsAction) (es : List HttpEffect) : Prop where
  reader : ∀ r k : Nat, .newReader r k ∉ es
  handed : ∀ k, HandedOver es k ↔ i = k ∧ ∃ a ∈ as, a.isCallback = true
  called : ∀ r, CalledBack es r ↔ j = r ∧ ∃ a ∈ as, a.isCallback = true

theorem FileEffects.nil (j i : Nat) : FileEffects j i [] [] :=
  ⟨by simp, by simp [Has], by simp [Has]⟩

theorem FileEffects.cons {j i : Nat} {a : FsAction} {as : List FsAction}
    {es es' : List HttpEffect} (h : FileEffects j i [a] es) (h' : FileEffects j i as es') :
    FileEffects j i (a :: as) (es ++ es') := by
  refine ⟨fun r k hmem => ?_, fun k => ?_, fun r => ?_⟩
  · rcases List.mem_append.mp hmem with hmem | hmem
    · exact h.reader r k hmem
    · exact h'.reader r k hmem
  · rw [handedOver_append, h.handed, h'.handed, ← and_or_left]
    simp
  · rw [calledBack_append, h.called, h'.called, ← and_or_left]
    simp

/-- A reader that does not call back adds nothing that matters for the line. -/
theorem FileEffects.inLine_of_not {j i : Nat} {as : List FsAction} {es : List HttpEffect}
    (h : FileEffects j i as es) (hcall : ¬ ∃ a ∈ as, a.isCallback = true) :
    ∀ e ∈ es, e.inLine = false := by
  intro e he
  cases e with
  | uvWrite ctx k buffers =>
    exact absurd ((h.handed k).mp ⟨_, he, by simp [HttpEffect.handsOver]⟩).2 hcall
  | newReader r k => exact absurd he (h.reader r k)
  | fs r a =>
    cases hback : a.isCallback with
    | false => exact hback
    | true => exact absurd ((h.called r).mp ⟨_, he, by simp [HttpEffect.callsBack, hback]⟩).2 hcall
  | _ => rfl

end MyWebSocket
