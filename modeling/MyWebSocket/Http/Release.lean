import MyWebSocket.Core.Heap
import MyWebSocket.Http.SendFile

namespace MyWebSocket

open Log

/-!
# Who releases what an HTTP session sends with

A write context is deleted in `onWriteEnd`.  The reader of a file is deleted there as well, through
the response, if the response still is that of a file; the reader of a file that could not be read
is deleted in its `m_onError`.  libuv does not call back a write it has refused.

* `HttpSession.Awaits` — the objects whose callbacks have not all run;
* `HttpSession.Accountable` — the steps after which each object is still released by one callback;
* `HttpBooks` — what they keep: the heap operations balance, and what is awaited is live.
-/

variable {ρ : Type} {cfg : HttpConfig} {P : HttpParser ρ}

/-- The heap operation of an effect. -/
def HttpEffect.heapOp : HttpEffect → Option (HeapOp HeapObject)
  | .newCtx ctx => some (.new (.ctx ctx))
  | .deleteCtx ctx => some (.delete (.ctx ctx))
  | .newReader reader _ => some (.new (.reader reader))
  | .deleteReader reader => some (.delete (.reader reader))
  | _ => none

/-- The reader that `onWriteEnd` deletes. -/
def HttpResp.file (r : HttpResp) : Option Nat := if r.sendType = .file then r.reader else none

namespace HttpSession

/-- The heap operations so far. -/
def heapOps (s : HttpSession ρ) : List (HeapOp HeapObject) :=
  s.trace.filterMap HttpEffect.heapOp

/-- The reader of the file that response `i` sends. -/
def fileOf (s : HttpSession ρ) (i : Nat) : Option Nat :=
  (s.answers[i]?).bind fun a => a.resp.file

/-- Response `i` is being written. -/
def InFlight (s : HttpSession ρ) (i : Nat) : Prop := ∃ w ∈ s.writes, w.resp = i

/-- The objects whose callbacks have not all run: the write of a context has not been called
    back; a reader has a request in flight, or its file is being written. -/
def Awaits (s : HttpSession ρ) : HeapObject → Prop
  | .ctx n => ∃ w ∈ s.writes, w.ctx = n
  | .reader j => ∃ r ∈ s.readers[j]?,
      r.reader.pending ≠ none ∨ s.fileOf r.resp = some j ∧ s.InFlight r.resp

/-- A file that has been read is being written for response `i`. -/
def SendsFile (s : HttpSession ρ) (i : Nat) : Prop :=
  s.InFlight i ∧ ∃ j ∈ s.fileOf i, ∃ r ∈ s.readers[j]?, r.reader.pending = none

instance (s : HttpSession ρ) (i : Nat) : Decidable (s.SendsFile i) := by
  unfold SendsFile InFlight
  infer_instance

/-- The step writes to no handle that is closing; it changes no response while its file is being
    written, and sends no file but that of the response; and where the write of a file ends, the
    file has been read and is not being written a second time. -/
def Accountable (s : HttpSession ρ) : HttpLabel → Prop
  | .call i .clearContent => ¬ s.SendsFile i
  | .call i (.sendFile _) => ¬ s.SendsFile i
  | .call i (.sendStr _) => s.closing = false ∧ ¬ s.SendsFile i
  | .call i (.sendJson _) => s.closing = false ∧ ¬ s.SendsFile i
  | .written _ => ∀ w ∈ s.writes.head?, ∀ j ∈ s.fileOf w.resp,
      (∀ r ∈ s.readers[j]?, r.reader.pending = none) ∧ ∀ v ∈ s.writes.tail, v.resp ≠ w.resp
  | .file j result _ => ∀ r ∈ s.readers[j]?,
      (result < 0 → s.closing = false ∧ ¬ s.SendsFile r.resp) ∧
      (r.reader.pending = some .close → 0 ≤ result →
        s.closing = false ∧ s.fileOf r.resp = some j)
  | _ => True

instance (s : HttpSession ρ) : (l : HttpLabel) → Decidable (s.Accountable l)
  | .call i .clearContent => inferInstanceAs (Decidable (¬ s.SendsFile i))
  | .call i (.sendFile _) => inferInstanceAs (Decidable (¬ s.SendsFile i))
  | .call i (.sendStr _) => inferInstanceAs (Decidable (s.closing = false ∧ ¬ s.SendsFile i))
  | .call i (.sendJson _) => inferInstanceAs (Decidable (s.closing = false ∧ ¬ s.SendsFile i))
  | .call _ (.setHeader _ _) => isTrue trivial
  | .call _ (.setStatus _) => isTrue trivial
  | .written _ => inferInstanceAs (Decidable (∀ w ∈ s.writes.head?, ∀ j ∈ s.fileOf w.resp,
      (∀ r ∈ s.readers[j]?, r.reader.pending = none) ∧ ∀ v ∈ s.writes.tail, v.resp ≠ w.resp))
  | .file j result _ => inferInstanceAs (Decidable (∀ r ∈ s.readers[j]?,
      (result < 0 → s.closing = false ∧ ¬ s.SendsFile r.resp) ∧
      (r.reader.pending = some .close → 0 ≤ result →
        s.closing = false ∧ s.fileOf r.resp = some j)))
  | .setReq _ => isTrue trivial
  | .ret => isTrue trivial
  | .run => isTrue trivial
  | .recv _ _ => isTrue trivial
  | .recvErr => isTrue trivial
  | .timer => isTrue trivial

end HttpSession

/-- What accountable steps keep. -/
structure HttpBooks (s : HttpSession ρ) : Prop where
  balanced : Books s.heapOps s.nextCtx s.readers.length s.Awaits
  /-- No context is written with twice. -/
  nodup : (s.writes.map PendingWrite.ctx).Nodup
  /-- The file of a response has been read for it. -/
  file : ∀ i j, s.fileOf i = some j → ∃ r, s.readers[j]? = some r ∧ r.resp = i

namespace HttpSession

/-! ### Responses and their files -/

theorem heapOps_emit (s : HttpSession ρ) (es : List HttpEffect) :
    (s.emit es).heapOps = s.heapOps ++ es.filterMap HttpEffect.heapOp :=
  List.filterMap_append

theorem fileOf_onResp (s : HttpSession ρ) (i k : Nat) (f : HttpResp → HttpResp) :
    (s.onResp i f).fileOf k =
      if i = k then (s.answers[k]?).bind fun a => (f a.resp).file else s.fileOf k := by
  unfold fileOf onResp
  rw [List.getElem?_modify]
  split
  · cases s.answers[k]? <;> rfl
  · cases s.answers[k]? <;> rfl

theorem fileOf_onResp_ne (s : HttpSession ρ) {i k : Nat} (f : HttpResp → HttpResp) (hk : k ≠ i) :
    (s.onResp i f).fileOf k = s.fileOf k := by
  rw [fileOf_onResp, if_neg (Ne.symm hk)]

/-- A response without a file. -/
theorem fileOf_onResp_self (s : HttpSession ρ) (i : Nat) {f : HttpResp → HttpResp}
    (hf : ∀ r, (f r).file = none) : (s.onResp i f).fileOf i = none := by
  rw [fileOf_onResp, if_pos rfl]
  simp [hf]

/-- A change that has nothing to do with the file. -/
theorem fileOf_onResp_of_eq (s : HttpSession ρ) (i k : Nat) {f : HttpResp → HttpResp}
    (hf : ∀ r, (f r).file = r.file) : (s.onResp i f).fileOf k = s.fileOf k := by
  rw [fileOf_onResp]
  split
  · simp only [hf]
    rfl
  · rfl

@[simp] theorem fileOf_send (cfg : HttpConfig) (s : HttpSession ρ) (i k : Nat) :
    (s.send cfg i).fileOf k = s.fileOf k := by
  rw [fileOf, send_answers]
  rfl

/-! ### Sending -/

theorem send_heapOps (cfg : HttpConfig) {s : HttpSession ρ} {i : Nat}
    (hi : i < s.answers.length) :
    (s.send cfg i).heapOps = s.heapOps ++ [.new (.ctx s.nextCtx)] := by
  unfold send
  rw [List.getElem?_eq_getElem hi]
  exact heapOps_emit _ _

theorem send_writes (cfg : HttpConfig) {s : HttpSession ρ} {i : Nat}
    (hi : i < s.answers.length) (hopen : s.closing = false) :
    (s.send cfg i).writes = s.writes ++ [⟨s.nextCtx, i⟩] := by
  unfold send
  rw [List.getElem?_eq_getElem hi]
  simp [emit, hopen]

theorem send_nextCtx (cfg : HttpConfig) {s : HttpSession ρ} {i : Nat}
    (hi : i < s.answers.length) : (s.send cfg i).nextCtx = s.nextCtx + 1 := by
  unfold send
  rw [List.getElem?_eq_getElem hi]
  rfl

/-- What is owed after a response has been sent. -/
theorem books_send (cfg : HttpConfig) {s : HttpSession ρ} {i n : Nat} {owed : HeapObject → Prop}
    (h : Books s.heapOps s.nextCtx n owed) (hi : i < s.answers.length) :
    Books (s.send cfg i).heapOps (s.send cfg i).nextCtx n
      (fun x => x = .ctx s.nextCtx ∨ owed x) := by
  rw [send_heapOps cfg hi, send_nextCtx cfg hi]
  exact h.newCtx fun _ => Iff.rfl

/-- The write that a response has been sent with is the only new one. -/
theorem awaits_ctx_send (cfg : HttpConfig) {s : HttpSession ρ} {i : Nat}
    (hi : i < s.answers.length) (hopen : s.closing = false) (n : Nat) :
    (s.send cfg i).Awaits (.ctx n) ↔ n = s.nextCtx ∨ s.Awaits (.ctx n) := by
  show (∃ w ∈ (s.send cfg i).writes, w.ctx = n) ↔ n = s.nextCtx ∨ ∃ w ∈ s.writes, w.ctx = n
  rw [send_writes cfg hi hopen]
  simp only [List.mem_append, List.mem_singleton, or_and_right, exists_or, exists_eq_left]
  rw [or_comm, eq_comm]

theorem inFlight_send (cfg : HttpConfig) {s : HttpSession ρ} {i : Nat}
    (hi : i < s.answers.length) (hopen : s.closing = false) (k : Nat) :
    (s.send cfg i).InFlight k ↔ k = i ∨ s.InFlight k := by
  unfold InFlight
  rw [send_writes cfg hi hopen]
  simp only [List.mem_append, List.mem_singleton, or_and_right, exists_or, exists_eq_left]
  rw [or_comm, eq_comm]

theorem awaits_reader (s : HttpSession ρ) (j : Nat) :
    s.Awaits (.reader j) ↔ ∃ r ∈ s.readers[j]?,
      r.reader.pending ≠ none ∨ s.fileOf r.resp = some j ∧ s.InFlight r.resp := Iff.rfl

/-- A reader is awaited as before, if nothing has changed but response `i` and its writes, and the
    reader has no part in it. -/
theorem awaits_reader_congr {s s' : HttpSession ρ} {i j : Nat}
    (hreader : s'.readers[j]? = s.readers[j]?) (hafter : s'.fileOf i ≠ some j)
    (hbefore : s.fileOf i = some j → ¬ s.SendsFile i)
    (hfile : ∀ k, k ≠ i → s'.fileOf k = s.fileOf k)
    (hwrites : ∀ k, k ≠ i → (s'.InFlight k ↔ s.InFlight k)) :
    s'.Awaits (.reader j) ↔ s.Awaits (.reader j) := by
  rw [awaits_reader, awaits_reader, hreader]
  refine exists_congr fun r => and_congr_right fun hr => ?_
  by_cases hri : r.resp = i
  · rw [hri, or_iff_left fun h => hafter h.1]
    refine ⟨.inl, ?_⟩
    rintro (hp | ⟨hf, hw⟩)
    · exact hp
    · exact fun hnone => hbefore hf ⟨hw, j, hf, r, hr, hnone⟩
  · rw [hfile _ hri, hwrites _ hri]

/-- `s'` differs from `s` in nothing that concerns the heap. -/
structure Untouched (s s' : HttpSession ρ) : Prop where
  heapOps : s'.heapOps = s.heapOps
  nextCtx : s'.nextCtx = s.nextCtx
  writes : s'.writes = s.writes
  readers : s'.readers = s.readers
  fileOf : ∀ i, s'.fileOf i = s.fileOf i

theorem Untouched.trans {s t u : HttpSession ρ} (h : Untouched s t) (h' : Untouched t u) :
    Untouched s u :=
  ⟨h'.heapOps.trans h.heapOps, h'.nextCtx.trans h.nextCtx, h'.writes.trans h.writes,
    h'.readers.trans h.readers, fun i => (h'.fileOf i).trans (h.fileOf i)⟩

theorem Untouched.emit (s : HttpSession ρ) {es : List HttpEffect}
    (h : es.filterMap HttpEffect.heapOp = []) : Untouched s (s.emit es) := by
  refine ⟨?_, rfl, rfl, rfl, fun _ => rfl⟩
  rw [heapOps_emit, h, List.append_nil]

/-- The connection has nothing to do with the heap. -/
theorem Untouched.connecting {s s' : HttpSession ρ} (h : Connecting s s') : Untouched s s' := by
  obtain ⟨es, htrace, hes⟩ := h.trace
  have hnone : es.filterMap HttpEffect.heapOp = [] := by
    rw [List.filterMap_eq_nil_iff]
    intro e he
    have hconn := hes e he
    cases e <;> first | rfl | cases hconn
  refine ⟨?_, h.nextCtx, h.writes, h.readers, fun i => ?_⟩
  · rw [HttpSession.heapOps, htrace, List.filterMap_append, hnone, List.append_nil]
    rfl
  · rw [HttpSession.fileOf, h.answers]
    rfl

/-- A new response has no file. -/
theorem Untouched.begun (s : HttpSession ρ) (upgrade : Bool) : Untouched s (s.begun upgrade) := by
  refine ⟨(heapOps_emit _ _).trans (List.append_nil _), rfl, rfl, rfl, fun i => ?_⟩
  show ((s.answers ++ [_])[i]?).bind _ = (s.answers[i]?).bind _
  rcases Nat.lt_trichotomy i s.answers.length with hlt | rfl | hgt
  · rw [List.getElem?_append_left hlt]
  · rw [List.getElem?_concat_length, List.getElem?_eq_none (Nat.le_refl _)]
    rfl
  · rw [List.getElem?_eq_none (l := s.answers) (Nat.le_of_lt hgt), List.getElem?_eq_none]
    rw [List.length_append]
    exact hgt

/-- A response that does not exist sends no file. -/
theorem not_sendsFile_length (s : HttpSession ρ) : ¬ s.SendsFile s.answers.length := by
  rintro ⟨-, j, hj, -⟩
  rw [fileOf, List.getElem?_eq_none (Nat.le_refl _)] at hj
  cases hj

theorem Untouched.sendsFile {s s' : HttpSession ρ} (h : Untouched s s') (i : Nat) :
    s'.SendsFile i ↔ s.SendsFile i := by
  rw [SendsFile, SendsFile, InFlight, InFlight, h.writes, h.fileOf, h.readers]

end HttpSession

/-! ### What keeps the books -/

theorem HttpBooks.untouched {s s' : HttpSession ρ} (h : HttpBooks s) (hu : s.Untouched s') :
    HttpBooks s' := by
  refine ⟨?_, ?_, fun i j hij => ?_⟩
  · rw [hu.heapOps, hu.nextCtx, hu.readers]
    refine h.balanced.congr (fun _ => Iff.rfl) fun x => ?_
    cases x with
    | ctx n => simp only [HttpSession.Awaits, hu.writes]
    | reader j =>
      simp only [HttpSession.Awaits, hu.readers, hu.fileOf, HttpSession.InFlight, hu.writes]
  · rw [hu.writes]
    exact h.nodup
  · rw [hu.readers]
    exact h.file i j ((hu.fileOf i).symm.trans hij)

theorem HttpBooks.ctx_lt {s : HttpSession ρ} (h : HttpBooks s) {w : PendingWrite}
    (hw : w ∈ s.writes) : w.ctx < s.nextCtx :=
  h.balanced.known_of_owed (x := .ctx w.ctx) ⟨w, hw, rfl⟩

/-- A response loses its file. -/
theorem HttpBooks.onResp {s : HttpSession ρ} (h : HttpBooks s) {i : Nat}
    {f : HttpResp → HttpResp} (hf : ∀ r, (f r).file = none) (hfree : ¬ s.SendsFile i) :
    HttpBooks (s.onResp i f) := by
  have hnone := s.fileOf_onResp_self i hf
  refine ⟨h.balanced.congr (fun _ => Iff.rfl) fun x => ?_, h.nodup, fun k j hkj => ?_⟩
  · cases x with
    | ctx n => exact Iff.rfl
    | reader j =>
      have hreaders : (s.onResp i f).readers[j]? = s.readers[j]? := rfl
      refine (HttpSession.awaits_reader_congr (i := i) hreaders ?_ (fun _ => hfree) ?_ ?_).symm
      · rw [hnone]
        exact (Option.some_ne_none j).symm
      · exact fun k hk => s.fileOf_onResp_ne f hk
      · exact fun k _ => Iff.rfl
  · by_cases hk : k = i
    · subst hk
      rw [hnone] at hkj
      cases hkj
    · rw [s.fileOf_onResp_ne f hk] at hkj
      exact h.file k j hkj

@[simp] theorem HttpSession.send_closing (cfg : HttpConfig) (s : HttpSession ρ) (i : Nat) :
    (s.send cfg i).closing = s.closing := by
  unfold HttpSession.send
  split <;> rfl

/-- `v` is a session just before `send` for response `i`, with the books and the writes of `s`. -/
structure BeforeSend (s v : HttpSession ρ) (i : Nat) : Prop where
  heapOps : v.heapOps = s.heapOps
  nextCtx : v.nextCtx = s.nextCtx
  writes : v.writes = s.writes
  known : i < v.answers.length
  isOpen : v.closing = false

theorem BeforeSend.books {s v : HttpSession ρ} {i : Nat} (hv : BeforeSend s v i)
    (h : HttpBooks s) : Books (v.send cfg i).heapOps (v.send cfg i).nextCtx s.readers.length
      (fun x => x = .ctx v.nextCtx ∨ s.Awaits x) := by
  have hbase : Books v.heapOps v.nextCtx s.readers.length s.Awaits := by
    rw [hv.heapOps, hv.nextCtx]
    exact h.balanced
  exact HttpSession.books_send cfg hbase hv.known

theorem BeforeSend.awaits_ctx {s v : HttpSession ρ} {i : Nat} (hv : BeforeSend s v i) (n : Nat) :
    (v.send cfg i).Awaits (.ctx n) ↔ n = v.nextCtx ∨ s.Awaits (.ctx n) := by
  have hold : v.Awaits (.ctx n) ↔ s.Awaits (.ctx n) := by
    rw [HttpSession.Awaits, HttpSession.Awaits, hv.writes]
  rw [HttpSession.awaits_ctx_send cfg hv.known hv.isOpen, hold]

theorem BeforeSend.inFlight {s v : HttpSession ρ} {i k : Nat} (hv : BeforeSend s v i)
    (hk : k ≠ i) : (v.send cfg i).InFlight k ↔ s.InFlight k := by
  rw [HttpSession.inFlight_send cfg hv.known hv.isOpen, or_iff_right hk, HttpSession.InFlight,
    HttpSession.InFlight, hv.writes]

/-- The new context is written with once. -/
theorem BeforeSend.nodup {s v : HttpSession ρ} {i : Nat} (hv : BeforeSend s v i)
    (h : HttpBooks s) : ((v.send cfg i).writes.map PendingWrite.ctx).Nodup := by
  rw [HttpSession.send_writes cfg hv.known hv.isOpen, List.map_append, List.nodup_append_comm,
    hv.writes, hv.nextCtx]
  refine List.nodup_cons.mpr ⟨fun hmem => ?_, h.nodup⟩
  obtain ⟨w, hw, heq⟩ := List.mem_map.mp hmem
  exact Nat.ne_of_lt (h.ctx_lt hw) heq

/-- A response without a file is sent. -/
theorem HttpBooks.send {s : HttpSession ρ} (h : HttpBooks s) {i : Nat}
    (hi : i < s.answers.length) (hopen : s.closing = false) (hfile : s.fileOf i = none) :
    HttpBooks (s.send cfg i) := by
  have hv : BeforeSend s s i := ⟨rfl, rfl, rfl, hi, hopen⟩
  refine ⟨?_, hv.nodup h, fun k j hkj => ?_⟩
  · rw [HttpSession.send_readers]
    refine (hv.books h).congr (fun _ => Iff.rfl) fun x => ?_
    cases x with
    | ctx n => rw [hv.awaits_ctx, HeapObject.ctx.injEq]
    | reader j =>
      rw [or_iff_right (by simp)]
      refine (HttpSession.awaits_reader_congr (i := i) (by rw [HttpSession.send_readers]) ?_
        (fun hij => ?_) (fun k _ => s.fileOf_send cfg i k) fun k hk => hv.inFlight hk).symm
      · rw [HttpSession.fileOf_send, hfile]
        exact (Option.some_ne_none j).symm
      · rw [hfile] at hij
        cases hij
  · rw [HttpSession.fileOf_send] at hkj
    rw [HttpSession.send_readers]
    exact h.file k j hkj

/-- A response loses its file and is sent. -/
theorem HttpBooks.onResp_send {s : HttpSession ρ} (h : HttpBooks s) {i : Nat}
    {f : HttpResp → HttpResp} (hf : ∀ r, (f r).file = none) (hfree : ¬ s.SendsFile i)
    (hi : i < s.answers.length) (hopen : s.closing = false) :
    HttpBooks ((s.onResp i f).send cfg i) := by
  have hlen : i < (s.onResp i f).answers.length := by simpa using hi
  exact (h.onResp hf hfree).send hlen hopen (s.fileOf_onResp_self i hf)

/-- A handler sends a file. -/
theorem HttpBooks.sendFile {s : HttpSession ρ} (h : HttpBooks s) {i : Nat} (path : Bytes)
    (hi : i < s.answers.length) (hfree : ¬ s.SendsFile i) : HttpBooks (s.sendFile i path) := by
  have hreaders : (s.sendFile i path).readers =
      s.readers ++ [⟨i, (FileReader.fileRead path).1⟩] := rfl
  have hops : (s.sendFile i path).heapOps =
      s.heapOps ++ [.new (.reader s.readers.length)] := HttpSession.heapOps_emit _ _
  have hself : (s.sendFile i path).fileOf i = some s.readers.length := by
    have hset := s.fileOf_onResp i i (·.setFile path s.readers.length)
    rw [if_pos rfl, List.getElem?_eq_getElem hi] at hset
    exact hset
  have hother : ∀ k, k ≠ i → (s.sendFile i path).fileOf k = s.fileOf k :=
    fun k hk => s.fileOf_onResp_ne (·.setFile path s.readers.length) hk
  refine ⟨?_, h.nodup, fun k j hkj => ?_⟩
  · rw [hops, hreaders, List.length_append]
    refine Books.newReader h.balanced fun x => ?_
    cases x with
    | ctx n => simp [HttpSession.Awaits, HttpSession.sendFile, HttpSession.emit,
        HttpSession.onResp]
    | reader j =>
      rw [HeapObject.reader.injEq]
      rcases Nat.lt_trichotomy j s.readers.length with hlt | rfl | hgt
      · -- an older reader is awaited as before
        rw [or_iff_right (Nat.ne_of_lt hlt)]
        refine (HttpSession.awaits_reader_congr (i := i) ?_ ?_ (fun _ => hfree) hother
          fun k _ => Iff.rfl).symm
        · rw [hreaders, List.getElem?_append_left hlt]
        · rw [hself]
          exact fun heq => Nat.ne_of_lt hlt (Option.some.inj heq).symm
      · refine iff_of_true (.inl rfl) ?_
        rw [HttpSession.awaits_reader, hreaders, List.getElem?_concat_length]
        exact ⟨_, rfl, .inl (Option.some_ne_none _)⟩
      · have hnone : s.readers[j]? = none := List.getElem?_eq_none (Nat.le_of_lt hgt)
        have hnone' : (s.sendFile i path).readers[j]? = none := by
          rw [hreaders, List.getElem?_eq_none_iff, List.length_append]
          exact hgt
        rw [HttpSession.awaits_reader, HttpSession.awaits_reader, hnone, hnone']
        simp [Nat.ne_of_gt hgt]
  · rw [hreaders]
    by_cases hk : k = i
    · subst hk
      obtain rfl : s.readers.length = j := Option.some.inj (hself.symm.trans hkj)
      exact ⟨_, List.getElem?_concat_length, rfl⟩
    · rw [hother k hk] at hkj
      obtain ⟨r, hr, hresp⟩ := h.file k j hkj
      have hlt : j < s.readers.length := (List.getElem?_eq_some_iff.mp hr).1
      exact ⟨r, by rw [List.getElem?_append_left hlt, hr], hresp⟩

/-! ### The callbacks of a reader -/

/-- A reader that goes on still reads for the same response. -/
theorem exists_resp_set {s : HttpSession ρ} {i j k : Nat} {r : RespReader} {r' : FileReader}
    (hr : s.readers[j]? = some r) (h : ∃ x, s.readers[k]? = some x ∧ x.resp = i) :
    ∃ x, (s.readers.set j { r with reader := r' })[k]? = some x ∧ x.resp = i := by
  have hset := exists_getElem?_set (p := fun x : RespReader => x.resp = i)
    (a := { r with reader := r' }) hr Iff.rfl k
  exact hset.mpr h

/-- The next request of a reader is made. -/
theorem HttpBooks.goesOn {s : HttpSession ρ} (h : HttpBooks s) {j : Nat} {r : RespReader}
    {r' : FileReader} (hr : s.readers[j]? = some r) (hbefore : r.reader.pending ≠ none)
    (hafter : r'.pending ≠ none) :
    HttpBooks { s with readers := s.readers.set j { r with reader := r' } } := by
  refine ⟨?_, h.nodup, fun i k hik => exists_resp_set hr (h.file i k hik)⟩
  show Books _ s.nextCtx (s.readers.set j { r with reader := r' }).length _
  rw [List.length_set]
  refine h.balanced.congr (fun _ => Iff.rfl) fun x => ?_
  cases x with
  | ctx n => exact Iff.rfl
  | reader k =>
    have hset := exists_getElem?_set (p := fun x : RespReader =>
      x.reader.pending ≠ none ∨ s.fileOf x.resp = some k ∧ s.InFlight x.resp)
      (a := { r with reader := r' }) hr (iff_of_true (.inl hafter) (.inl hbefore)) k
    exact hset.symm

/-- `m_onError`: the response is sent with an error status, and the reader is deleted. -/
theorem HttpBooks.onError (cfg : HttpConfig) {s : HttpSession ρ} (h : HttpBooks s) {j : Nat}
    {r : RespReader} {r' : FileReader} (hr : s.readers[j]? = some r)
    (hi : r.resp < s.answers.length) (hbefore : r.reader.pending ≠ none)
    (hafter : r'.pending = none) (hopen : s.closing = false) (hfree : ¬ s.SendsFile r.resp) :
    HttpBooks (HttpSession.fsAction cfg j r.resp
      { s with readers := s.readers.set j { r with reader := r' } } .onError) := by
  -- `v` is the session just before `send`
  generalize hv : (({ s with readers := s.readers.set j { r with reader := r' } }).emit
    [.fs j .onError]).onResp r.resp HttpResp.setErr = v
  have hsend : BeforeSend s v r.resp := by
    rw [← hv]
    exact ⟨(HttpSession.heapOps_emit _ _).trans (List.append_nil _), rfl, rfl, by simpa using hi,
      hopen⟩
  have hreaders : v.readers = s.readers.set j { r with reader := r' } := by
    rw [← hv]
    rfl
  have hself : v.fileOf r.resp = none := by
    rw [← hv]
    exact HttpSession.fileOf_onResp_self _ _ fun _ => rfl
  have hother : ∀ k, k ≠ r.resp → v.fileOf k = s.fileOf k := by
    intro k hk
    rw [← hv]
    exact HttpSession.fileOf_onResp_ne _ _ hk
  have hfinal : HttpSession.fsAction cfg j r.resp
      { s with readers := s.readers.set j { r with reader := r' } } .onError =
      (v.send cfg r.resp).emit [.deleteReader j] := by
    rw [← hv]
    rfl
  rw [hfinal]
  refine ⟨?_, hsend.nodup h, fun i k hik => ?_⟩
  · have hdelete : ((v.send cfg r.resp).emit [.deleteReader j]).heapOps =
        (v.send cfg r.resp).heapOps ++ [.delete (.reader j)] := HttpSession.heapOps_emit _ _
    have hcount : ((v.send cfg r.resp).emit [.deleteReader j]).readers.length =
        s.readers.length := by
      rw [HttpSession.emit_readers, HttpSession.send_readers, hreaders, List.length_set]
    rw [hdelete, hcount]
    refine Books.release (hsend.books h) (x := .reader j) (.inr ⟨r, hr, .inl hbefore⟩) fun x => ?_
    cases x with
    | ctx n =>
      rw [and_iff_right (by simp), HeapObject.ctx.injEq]
      exact (hsend.awaits_ctx n).symm
    | reader k =>
      show _ ↔ (v.send cfg r.resp).Awaits (.reader k)
      rw [or_iff_right (by simp), ne_eq, HeapObject.reader.injEq]
      by_cases hk : k = j
      · -- this reader is done, and no response has it any more
        subst hk
        refine iff_of_false (fun hne => hne.1 rfl) ?_
        rw [HttpSession.awaits_reader, HttpSession.send_readers, hreaders]
        rintro ⟨x, hx, hcase⟩
        rw [List.getElem?_set_self (List.getElem?_eq_some_iff.mp hr).1] at hx
        obtain rfl := Option.some.inj hx
        rcases hcase with hp | ⟨hf, -⟩
        · exact hp hafter
        · rw [HttpSession.fileOf_send, hself] at hf
          cases hf
      · rw [and_iff_right hk]
        refine (HttpSession.awaits_reader_congr (i := r.resp) ?_ ?_ (fun _ => hfree)
          (fun l hl => ?_) fun l hl => hsend.inFlight hl).symm
        · rw [HttpSession.send_readers, hreaders, List.getElem?_set_ne (Ne.symm hk)]
        · rw [HttpSession.fileOf_send, hself]
          exact (Option.some_ne_none k).symm
        · rw [HttpSession.fileOf_send, hother l hl]
  · rw [HttpSession.emit_readers, HttpSession.send_readers, hreaders]
    have hik' : v.fileOf i = some k := by
      rw [← HttpSession.fileOf_send cfg v r.resp i]
      exact hik
    have hir : i ≠ r.resp := by
      rintro rfl
      rw [hself] at hik'
      cases hik'
    rw [hother i hir] at hik'
    exact exists_resp_set hr (h.file i k hik')

/-- `m_onClose` of the file that its response sends. -/
theorem HttpBooks.onClose (cfg : HttpConfig) {s : HttpSession ρ} (h : HttpBooks s) {j : Nat}
    {r : RespReader} {r' : FileReader} (hr : s.readers[j]? = some r)
    (hi : r.resp < s.answers.length) (hbefore : r.reader.pending ≠ none)
    (hopen : s.closing = false) (hfile : s.fileOf r.resp = some j) :
    HttpBooks (HttpSession.fsAction cfg j r.resp
      { s with readers := s.readers.set j { r with reader := r' } } .onClose) := by
  -- `v` is the session just before `send`
  generalize hv : ({ s with readers := s.readers.set j { r with reader := r' } }).emit
    [.fs j .onClose] = v
  have hsend : BeforeSend s v r.resp := by
    rw [← hv]
    exact ⟨(HttpSession.heapOps_emit _ _).trans (List.append_nil _), rfl, rfl, hi, hopen⟩
  have hreaders : v.readers = s.readers.set j { r with reader := r' } := by
    rw [← hv]
    rfl
  have hanswers : v.answers = s.answers := by
    rw [← hv]
    rfl
  have hfinal : HttpSession.fsAction cfg j r.resp
      { s with readers := s.readers.set j { r with reader := r' } } .onClose =
      v.send cfg r.resp := by
    rw [← hv]
    rfl
  have hfiles : ∀ k, (v.send cfg r.resp).fileOf k = s.fileOf k := by
    intro k
    rw [HttpSession.fileOf_send, HttpSession.fileOf, HttpSession.fileOf, hanswers]
  rw [hfinal]
  refine ⟨?_, hsend.nodup h, fun i k hik => ?_⟩
  · rw [HttpSession.send_readers, hreaders, List.length_set]
    refine (hsend.books h).congr (fun _ => Iff.rfl) fun x => ?_
    cases x with
    | ctx n =>
      rw [HeapObject.ctx.injEq]
      exact (hsend.awaits_ctx n).symm
    | reader k =>
      rw [or_iff_right (by simp)]
      by_cases hk : k = j
      · -- this reader is done, and its file is being written
        subst hk
        refine iff_of_true ⟨r, hr, .inl hbefore⟩ ?_
        rw [HttpSession.awaits_reader, HttpSession.send_readers, hreaders]
        refine ⟨{ r with reader := r' }, ?_, .inr ⟨?_, ?_⟩⟩
        · exact List.getElem?_set_self (List.getElem?_eq_some_iff.mp hr).1
        · rw [hfiles]
          exact hfile
        · rw [HttpSession.inFlight_send cfg hsend.known hsend.isOpen]
          exact .inl rfl
      · have hne : s.fileOf r.resp ≠ some k := by
          rw [hfile]
          exact fun heq => hk (Option.some.inj heq).symm
        refine (HttpSession.awaits_reader_congr (i := r.resp) ?_ ?_ (fun hf => absurd hf hne)
          (fun l _ => hfiles l) fun l hl => hsend.inFlight hl).symm
        · rw [HttpSession.send_readers, hreaders, List.getElem?_set_ne (Ne.symm hk)]
        · rw [hfiles]
          exact hne
  · rw [HttpSession.send_readers, hreaders]
    rw [hfiles] at hik
    exact exists_resp_set hr (h.file i k hik)

/-- The end of a file request. -/
theorem HttpBooks.event {s : HttpSession ρ} (h : HttpBooks s) {j : Nat} {result : Int}
    {data : Bytes} {r : RespReader} {r' : FileReader} {as : List FsAction}
    (hr : s.readers[j]? = some r) (he : r.reader.event result data = some (r', as))
    (hi : r.resp < s.answers.length)
    (hfails : result < 0 → s.closing = false ∧ ¬ s.SendsFile r.resp)
    (hcloses : r.reader.pending = some .close → 0 ≤ result →
      s.closing = false ∧ s.fileOf r.resp = some j) :
    HttpBooks (as.foldl (HttpSession.fsAction cfg j r.resp)
      { s with readers := s.readers.set j { r with reader := r' } }) := by
  have hbefore := FileReader.pending_of_event he
  have herror := FileReader.event_onError he
  rcases FileReader.event_cases he with
    ⟨hp, hnone, ⟨hresult, rfl⟩ | ⟨hresult, rfl⟩⟩ | ⟨-, ⟨hnone, rfl⟩ | ⟨hsome, a, rfl, ha⟩⟩
  · obtain ⟨hopen, hfile⟩ := hcloses hp hresult
    exact h.onClose cfg hr hi hbefore hopen hfile
  · -- a close that fails: the response is sent again, without a file
    obtain ⟨hopen, hfree⟩ := hfails hresult
    have hdone := h.onError cfg hr hi hbefore hnone hopen hfree
    have hnote : ([.fs j .onClose] : List HttpEffect).filterMap HttpEffect.heapOp = [] := rfl
    refine (hdone.untouched (.emit _ hnote)).send ?_ ?_ ?_
    · have hlen := (HttpSession.Responding.fsAction cfg j r.resp
        { s with readers := s.readers.set j { r with reader := r' } } .onError).length
      exact hlen.symm ▸ hi
    · exact (HttpSession.send_closing cfg _ _).trans hopen
    · exact (HttpSession.fileOf_send cfg _ _ _).trans
        (HttpSession.fileOf_onResp_self _ _ fun _ => rfl)
  · obtain ⟨hopen, hfree⟩ := hfails (herror.mp List.mem_cons_self)
    exact h.onError cfg hr hi hbefore hnone hopen hfree
  · have hnext : HttpSession.fsAction cfg j r.resp
        { s with readers := s.readers.set j { r with reader := r' } } a =
        ({ s with readers := s.readers.set j { r with reader := r' } }).emit [.fs j a] := by
      cases a with
      | onError => cases ha
      | onClose => cases ha
      | _ => rfl
    rw [List.foldl_cons, List.foldl_nil, hnext]
    exact (h.goesOn hr hbefore hsome).untouched (.emit _ rfl)

/-! ### The end of a write -/

theorem HttpResp.heapOps_file (r : HttpResp) :
    (if r.sendType = .file then r.reader.toList.map HttpEffect.deleteReader else []).filterMap
      HttpEffect.heapOp = r.file.toList.map fun j => .delete (.reader j) := by
  unfold HttpResp.file
  split
  · cases r.reader <;> rfl
  · rfl

/-- `onWriteEnd` deletes the reader of the file that has been written, and the context. -/
theorem HttpBooks.onWriteEnd (cfg : HttpConfig) {s : HttpSession ρ} (h : HttpBooks s)
    {w : PendingWrite} {ws : List PendingWrite} {a : Answer} (hw : s.writes = w :: ws)
    (ha : s.answers[w.resp]? = some a)
    (hfile : ∀ j, s.fileOf w.resp = some j →
      (∀ r, s.readers[j]? = some r → r.reader.pending = none) ∧ ∀ v ∈ ws, v.resp ≠ w.resp) :
    HttpBooks ({ s with writes := ws }.onWriteEnd cfg w a) := by
  have hends := HttpSession.onWriteEnd_ends cfg { s with writes := ws } w a
  obtain ⟨es, hes, htrace⟩ := hends.trace
  generalize { s with writes := ws }.onWriteEnd cfg w a = s' at hends htrace
  have hwrites : s'.writes = ws := hends.writes
  have hreaders : s'.readers = s.readers := hends.readers
  have hfiles : ∀ k, s'.fileOf k = s.fileOf k := fun k => by
    rw [HttpSession.fileOf, hends.answers]
    rfl
  have hself : s.fileOf w.resp = a.resp.file := by
    rw [HttpSession.fileOf, ha]
    rfl
  have hops : s'.heapOps =
      s.heapOps ++ (a.resp.file.toList.map fun j => .delete (.reader j)) ++
        [.delete (.ctx w.ctx)] := by
    have hnone : es.filterMap HttpEffect.heapOp = [] := by
      rw [List.filterMap_eq_nil_iff]
      intro e he
      have hconn := hes e he
      cases e <;> first | rfl | cases hconn
    rw [HttpSession.heapOps, htrace]
    simp only [List.filterMap_append, HttpResp.heapOps_file, hnone, List.append_nil,
      ← List.append_assoc]
    rfl
  have hnodup := h.nodup
  rw [hw, List.map_cons, List.nodup_cons] at hnodup
  -- the writes of the other responses are still there
  have hother : ∀ k, k ≠ w.resp → (s'.InFlight k ↔ s.InFlight k) := by
    intro k hk
    unfold HttpSession.InFlight
    rw [hwrites, hw]
    simp [Ne.symm hk]
  have hreader : ∀ k, s.fileOf w.resp ≠ some k →
      (s'.Awaits (.reader k) ↔ s.Awaits (.reader k)) := by
    intro k hk
    refine HttpSession.awaits_reader_congr (i := w.resp) (by rw [hreaders]) ?_
      (fun hf => absurd hf hk) (fun l _ => hfiles l) hother
    rwa [hfiles]
  -- what is still owed when the reader has been deleted
  have hmiddle : Books (s.heapOps ++ a.resp.file.toList.map fun j => .delete (.reader j))
      s.nextCtx s.readers.length fun x =>
        match x with
        | .ctx n => s.Awaits (.ctx n)
        | .reader k => s'.Awaits (.reader k) := by
    cases hf : a.resp.file with
    | none =>
      rw [Option.toList_none, List.map_nil, List.append_nil]
      refine h.balanced.congr (fun _ => Iff.rfl) fun x => ?_
      cases x with
      | ctx n => exact Iff.rfl
      | reader k =>
        refine (hreader k ?_).symm
        rw [hself, hf]
        exact (Option.some_ne_none k).symm
    | some j =>
      have hj : s.fileOf w.resp = some j := hself.trans hf
      obtain ⟨hdone, honly⟩ := hfile j hj
      obtain ⟨r, hr, hresp⟩ := h.file w.resp j hj
      refine Books.release h.balanced (x := .reader j) ⟨r, hr, .inr ?_⟩ fun x => ?_
      · rw [hresp, hj]
        exact ⟨rfl, w, by rw [hw]; exact List.mem_cons_self, rfl⟩
      · cases x with
        | ctx n => exact and_iff_right (by simp)
        | reader k =>
          show _ ∧ _ ↔ s'.Awaits (.reader k)
          rw [ne_eq, HeapObject.reader.injEq]
          by_cases hk : k = j
          · subst hk
            refine iff_of_false (fun hne => hne.1 rfl) ?_
            rw [HttpSession.awaits_reader, hreaders]
            rintro ⟨x, hx, hp | ⟨-, v, hv, hvr⟩⟩
            · exact hp (hdone x hx)
            · rw [hwrites] at hv
              obtain rfl : x = r := Option.some.inj (hx.symm.trans hr)
              exact honly v hv (hvr.trans hresp)
          · rw [and_iff_right hk]
            refine (hreader k ?_).symm
            rw [hj]
            exact fun heq => hk (Option.some.inj heq).symm
  refine ⟨?_, ?_, fun i j hij => ?_⟩
  · have hnext : s'.nextCtx = s.nextCtx := hends.nextCtx
    rw [hops, hnext, hreaders]
    refine Books.release hmiddle (x := .ctx w.ctx) ⟨w, by rw [hw]; exact List.mem_cons_self, rfl⟩
      fun x => ?_
    cases x with
    | ctx n =>
      show _ ∧ (∃ v ∈ s.writes, v.ctx = n) ↔ ∃ v ∈ s'.writes, v.ctx = n
      rw [hw, hwrites, ne_eq, HeapObject.ctx.injEq, List.exists_mem_cons_iff]
      constructor
      · rintro ⟨hne, heq | hmem⟩
        · exact absurd heq.symm hne
        · exact hmem
      · rintro ⟨v, hv, rfl⟩
        exact ⟨fun heq => hnodup.1 (heq ▸ List.mem_map_of_mem hv), .inr ⟨v, hv, rfl⟩⟩
    | reader k => exact and_iff_right (by simp)
  · rw [hwrites]
    exact hnodup.2
  · rw [hreaders]
    rw [hfiles] at hij
    exact h.file i j hij

/-! ### Sessions that have been removed -/

namespace HttpSession

/-- A closed handle belongs to a session that has been removed, and such a session reads nothing
    and executes nothing. -/
structure Retired (s : HttpSession ρ) : Prop where
  closed : s.closing = true → s.registered = false
  removed : s.registered = false → s.reading = false ∧ s.stack = []

theorem Retired.accepted (method : HttpMethod) : (accepted P method).Retired :=
  ⟨fun hc => absurd hc Bool.false_ne_true, fun hr => absurd hr.symm Bool.false_ne_true⟩

/-- Nothing has happened to the handle. -/
theorem Retired.of_eq {s s' : HttpSession ρ} (h : s.Retired)
    (hclosing : s'.closing = s.closing) (hregistered : s'.registered = s.registered)
    (hreading : s'.reading = s.reading) (hstack : s.stack = [] → s'.stack = []) : s'.Retired := by
  refine ⟨fun hc => ?_, fun hr => ?_⟩
  · rw [hregistered]
    exact h.closed (hclosing.symm.trans hc)
  · obtain ⟨hread, hst⟩ := h.removed (hregistered.symm.trans hr)
    exact ⟨hreading.trans hread, hstack hst⟩

/-- A session at work has not been removed, and its handle is open. -/
theorem Retired.at_work {s : HttpSession ρ} (h : s.Retired)
    (hw : s.reading = true ∨ s.stack ≠ []) : s.registered = true ∧ s.closing = false := by
  have hreg : s.registered = true := by
    by_contra hno
    obtain ⟨hread, hst⟩ := h.removed (Bool.eq_false_iff.mpr hno)
    rcases hw with hw | hw
    · rw [hread] at hw
      cases hw
    · exact hw hst
  refine ⟨hreg, Bool.eq_false_iff.mpr fun hc => ?_⟩
  rw [h.closed hc] at hreg
  cases hreg

theorem Retired.closeSession {s : HttpSession ρ} (hst : s.stack = []) (isUpgrade : Bool) :
    (s.closeSession isUpgrade).Retired := by
  cases isUpgrade <;> exact ⟨fun _ => rfl, fun _ => ⟨rfl, hst⟩⟩

@[simp] theorem send_reading (cfg : HttpConfig) (s : HttpSession ρ) (i : Nat) :
    (s.send cfg i).reading = s.reading := by
  unfold send
  split <;> rfl

theorem call_handle (cfg : HttpConfig) (s : HttpSession ρ) (i : Nat) (c : RespCall) :
    (s.call cfg i c).reading = s.reading ∧ (s.call cfg i c).closing = s.closing := by
  cases c with
  | sendStr body => exact ⟨send_reading cfg _ i, send_closing cfg _ i⟩
  | sendJson text => exact ⟨send_reading cfg _ i, send_closing cfg _ i⟩
  | _ => exact ⟨rfl, rfl⟩

theorem fsActions_handle (cfg : HttpConfig) (j i : Nat) (s : HttpSession ρ) (as : List FsAction) :
    (as.foldl (fsAction cfg j i) s).reading = s.reading ∧
      (as.foldl (fsAction cfg j i) s).closing = s.closing := by
  induction as generalizing s with
  | nil => exact ⟨rfl, rfl⟩
  | cons a as ih =>
    rw [List.foldl_cons, (ih _).1, (ih _).2]
    cases a with
    | onError => exact ⟨send_reading cfg _ i, send_closing cfg _ i⟩
    | onClose => exact ⟨send_reading cfg _ i, send_closing cfg _ i⟩
    | _ => exact ⟨rfl, rfl⟩

theorem handleRequest_handle (cfg : HttpConfig) (s : HttpSession ρ) (upgrade : Bool) :
    (s.handleRequest cfg upgrade).reading = s.reading ∧
      (s.handleRequest cfg upgrade).closing = s.closing := by
  rw [handleRequest_eq]
  cases upgrade with
  | true => exact ⟨send_reading cfg _ _, send_closing cfg _ _⟩
  | false =>
    rw [if_neg Bool.false_ne_true]
    unfold dispatchRequest
    split
    · exact ⟨rfl, rfl⟩
    · exact ⟨send_reading cfg _ _, send_closing cfg _ _⟩

/-- A read changes neither the handle nor the writes. -/
theorem recvCb_handle (s : HttpSession ρ) (base : Bool) (data : Bytes) :
    (s.recvCb P base data).reading = s.reading ∧ (s.recvCb P base data).closing = s.closing ∧
      (s.recvCb P base data).writes = s.writes ∧
      (s.recvCb P base data).nextCtx = s.nextCtx := by
  cases hflag : s.isKeepAlive with
  | true =>
    simp only [recvCb, emit_isKeepAlive, hflag, if_true]
    split <;> exact ⟨rfl, rfl, rfl, rfl⟩
  | false =>
    simp only [recvCb, emit_isKeepAlive, hflag, Bool.false_eq_true, if_false]
    split <;> exact ⟨rfl, rfl, rfl, rfl⟩

theorem Untouched.recvCb (s : HttpSession ρ) (base : Bool) (data : Bytes) :
    Untouched s (s.recvCb P base data) := by
  have hspec := s.recvCb_spec (P := P) base data
  obtain ⟨-, -, hwrites, hnext⟩ := s.recvCb_handle (P := P) base data
  refine ⟨?_, hnext, hwrites, hspec.readers, fun i => ?_⟩
  · rw [HttpSession.heapOps, hspec.trace, List.filterMap_append]
    have hnone : (HttpEffect.recv :: if s.isKeepAlive then [.uvTimerStop] else []).filterMap
        HttpEffect.heapOp = [] := by
      cases s.isKeepAlive <;> rfl
    rw [hnone, List.append_nil]
    rfl
  · rw [HttpSession.fileOf, hspec.answers]
    rfl

/-- The end of a write closes the session, hands the connection over, or leaves it alone. -/
theorem Retired.onWriteEnd {s : HttpSession ρ} (h : s.Retired) (hst : s.stack = [])
    (w : PendingWrite) (a : Answer) : (s.onWriteEnd cfg w a).Retired := by
  have hrel : (s.released a).Retired ∧ (s.released a).stack = [] := by
    unfold released
    split
    · exact ⟨⟨h.closed, h.removed⟩, hst⟩
    · exact ⟨h, hst⟩
  rw [onWriteEnd_eq]
  generalize s.released a = t at hrel
  obtain ⟨ht, htst⟩ := hrel
  have hemit : ∀ u : HttpSession ρ, u.Retired → (u.emit [.deleteCtx w.ctx]).Retired :=
    fun u hu => ⟨hu.closed, hu.removed⟩
  apply hemit
  split
  · split
    · split
      · exact ⟨ht.closed, ht.removed⟩
      · exact .closeSession htst false
    · unfold upgradeSession
      split
      · have hclose := Retired.closeSession htst true
        exact ⟨hclose.closed, hclose.removed⟩
      · exact ⟨ht.closed, ht.removed⟩
  · exact ht

theorem Retired.step {s s' : HttpSession ρ} {l : HttpLabel} (h : s.Retired)
    (hs : HttpStep cfg P s l s') : s'.Retired := by
  cases hs with
  | @call i c hu hi =>
    have hresp : s.Responding (s.call cfg i c) := .call s i c
    obtain ⟨hreading, hclosing⟩ := s.call_handle cfg i c
    exact h.of_eq hclosing hresp.registered hreading fun hst => hresp.stack.trans hst
  | setReq req hu => exact ⟨h.closed, h.removed⟩
  | @ret i st hst => exact h.of_eq rfl rfl rfl fun hnil => by simp [hst] at hnil
  | @run e st hst =>
    have hne : s.stack ≠ [] := by simp [hst]
    cases e with
    | messageComplete upgrade =>
      have hspec := HttpSession.handleRequest_spec cfg { s with stack := st } upgrade
      obtain ⟨hreading, hclosing⟩ :=
        handleRequest_handle cfg { s with stack := st } upgrade
      exact h.of_eq hclosing hspec.registered hreading fun hnil => absurd hnil hne
    | _ => exact h.of_eq rfl rfl rfl fun hnil => absurd hnil hne
  | recv base data hst hr =>
    obtain ⟨hreg, hopen⟩ := h.at_work (.inl hr)
    obtain ⟨-, hclosing, -⟩ := s.recvCb_handle (P := P) base data
    have hreg' : (s.recvCb P base data).registered = true :=
      (s.recvCb_spec (P := P) base data).registered.trans hreg
    refine ⟨fun hc => ?_, fun hno => ?_⟩
    · rw [hclosing, hopen] at hc
      cases hc
    · rw [hreg'] at hno
      cases hno
  | recvErr hst hr =>
    have hstop : s.stopKeepAliveTimer.stack = [] := hst
    exact .closeSession hstop false
  | timer hst ht =>
    have hdis : ({ s with timerArmed := false }).stack = [] := hst
    show Retired (if s.timerData then _ else _)
    split
    · exact .closeSession hdis false
    · exact ⟨h.closed, h.removed⟩
  | @written w ws a status hst hw ha =>
    have hrest : Retired { s with writes := ws } := ⟨h.closed, h.removed⟩
    exact hrest.onWriteEnd hst w a
  | @file j result data r r' as hst hr he =>
    have hfold := Responding.fsActions cfg j r.resp s
      (s.readers.set j { r with reader := r' }) as
    obtain ⟨hreading, hclosing⟩ := fsActions_handle cfg j r.resp
      { s with readers := s.readers.set j { r with reader := r' } } as
    exact h.of_eq hclosing hfold.registered hreading fun hnil => hfold.stack.trans hnil

end HttpSession

/-! ### The steps -/

/-- A request is handed to its handler, or answered at once by a response without a file. -/
theorem HttpBooks.handleRequest {s : HttpSession ρ} (h : HttpBooks s) (hopen : s.closing = false)
    (upgrade : Bool) : HttpBooks (s.handleRequest cfg upgrade) := by
  have hbegun : HttpBooks (s.begun upgrade) := h.untouched (.begun s upgrade)
  have hlen : s.answers.length < (s.begun upgrade).answers.length := by
    simp [HttpSession.begun]
  have hfree : ¬ (s.begun upgrade).SendsFile s.answers.length := by
    rw [(HttpSession.Untouched.begun s upgrade).sendsFile]
    exact s.not_sendsFile_length
  -- a change of the request object does not matter
  have hreq : ∀ req, HttpBooks { s.begun upgrade with req := req } := fun req =>
    hbegun.untouched ⟨rfl, rfl, rfl, rfl, fun _ => rfl⟩
  rw [HttpSession.handleRequest_eq]
  cases upgrade with
  | true =>
    rw [if_pos rfl]
    exact (hreq _).onResp_send (f := (·.setUpgrade _)) (fun _ => rfl) hfree hlen hopen
  | false =>
    rw [if_neg Bool.false_ne_true]
    unfold HttpSession.dispatchRequest
    split
    · refine hbegun.untouched ⟨?_, rfl, rfl, rfl, fun _ => rfl⟩
      exact (HttpSession.heapOps_emit _ _).trans (List.append_nil _)
    · exact (hreq _).onResp_send (fun _ => rfl) hfree hlen hopen

/-- **Accountable steps keep the books.** -/
theorem HttpBooks.step {s s' : HttpSession ρ} {l : HttpLabel} (h : HttpBooks s)
    (hnum : s.Numbered) (hret : s.Retired) (hl : s.Accountable l) (hs : HttpStep cfg P s l s') :
    HttpBooks s' := by
  cases hs with
  | @call i c hu hi =>
    have hlen := hnum.handler i hi
    cases c with
    | setHeader key value =>
      exact h.untouched ⟨rfl, rfl, rfl, rfl, fun k =>
        s.fileOf_onResp_of_eq i k (f := (·.setHeader key value)) fun _ => rfl⟩
    | setStatus status =>
      exact h.untouched ⟨rfl, rfl, rfl, rfl, fun k =>
        s.fileOf_onResp_of_eq i k (f := (·.setStatus status)) fun _ => rfl⟩
    | clearContent => exact h.onResp (f := HttpResp.clearContent) (fun _ => rfl) hl
    | sendStr body => exact h.onResp_send (f := (·.setStr body)) (fun _ => rfl) hl.2 hlen hl.1
    | sendJson text => exact h.onResp_send (f := (·.setJson text)) (fun _ => rfl) hl.2 hlen hl.1
    | sendFile path => exact h.sendFile path hlen hl
  | setReq req hu => exact h.untouched ⟨rfl, rfl, rfl, rfl, fun _ => rfl⟩
  | ret hst => exact h.untouched ⟨rfl, rfl, rfl, rfl, fun _ => rfl⟩
  | @run e st hst =>
    have hpop : HttpBooks { s with stack := st } :=
      h.untouched ⟨rfl, rfl, rfl, rfl, fun _ => rfl⟩
    cases e with
    | messageComplete upgrade =>
      exact hpop.handleRequest (hret.at_work (.inr (by simp [hst]))).2 upgrade
    | _ => exact hpop.untouched ⟨rfl, rfl, rfl, rfl, fun _ => rfl⟩
  | recv base data hst hr => exact h.untouched (.recvCb s base data)
  | recvErr hst hr =>
    have hconn := (HttpSession.Connecting.stopKeepAliveTimer s).trans (.closeSession _ false)
    exact h.untouched (.connecting hconn)
  | timer hst ht =>
    have hdis : HttpBooks { s with timerArmed := false } :=
      h.untouched ⟨rfl, rfl, rfl, rfl, fun _ => rfl⟩
    show HttpBooks (if s.timerData then _ else _)
    split
    · exact hdis.untouched (.connecting (.closeSession _ false))
    · exact hdis
  | @written w ws a status hst hw ha =>
    refine h.onWriteEnd cfg hw ha fun j hj => ?_
    have hcond := hl w (by rw [hw]; rfl) j hj
    rw [hw] at hcond
    exact hcond
  | @file j result data r r' as hst hr he =>
    obtain ⟨hfails, hcloses⟩ := hl r hr
    exact h.event hr he (hnum.reader r (List.mem_of_getElem? hr)) hfails hcloses

end MyWebSocket
