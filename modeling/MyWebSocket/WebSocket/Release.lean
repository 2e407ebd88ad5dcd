import MyWebSocket.Core.Heap
import MyWebSocket.WebSocket.Steps

namespace MyWebSocket

/-!
# Who releases what a WebSocket session sends with

A write context is deleted in the callback of its write, and the reader of `sendFile` in its
`m_onError`.  The callback of a failed write deletes its context twice, `m_onClose` deletes no
reader, and libuv does not call back a write it has refused.

* `WsSession.Awaits` — the objects whose callbacks have not all run;
* `WsSession.Accountable` — the steps that take none of these branches;
* `WsBooks` — what they keep: the heap operations balance, and what is awaited is live.
-/

/-- The heap operation of an effect. -/
def WsEffect.heapOp : WsEffect → Option (HeapOp HeapObject)
  | .newCtx ctx => some (.new (.ctx ctx))
  | .deleteCtx ctx => some (.delete (.ctx ctx))
  | .newReader reader => some (.new (.reader reader))
  | .deleteReader reader => some (.delete (.reader reader))
  | _ => none

/-- The context a task is going to delete. -/
def WsTask.deletes : WsTask → Option Nat
  | .deleteCtx ctx => some ctx
  | _ => none

/-- The task answers a PING. -/
def WsTask.sendsPong : WsTask → Bool
  | .handleWsFrame frame => frame.mask && frame.opcode == WsCode.ping.code
  | _ => false

namespace WsSession

/-- The heap operations so far. -/
def heapOps (s : WsSession) : List (HeapOp HeapObject) := s.trace.filterMap WsEffect.heapOp

/-- The contexts whose write callback is running. -/
def ending (s : WsSession) : List Nat := s.stack.filterMap WsTask.deletes

/-- The objects whose callbacks have not all run: the write of a context has not been called
    back, or its callback is still running; a reader has a request in flight. -/
def Awaits (s : WsSession) : HeapObject → Prop
  | .ctx n => n ∈ s.writes ∨ n ∈ s.ending
  | .reader j => ∃ r ∈ s.readers[j]?, r.pending ≠ none

/-- The step writes to no handle that is closing, ends no write with an error and closes no file
    with success. -/
def Accountable (s : WsSession) : WsLabel → Prop
  | .call (.send _) => s.closing = false
  | .run => ∀ t ∈ s.stack.head?, t.sendsPong = true → s.closing = false
  | .written status => 0 ≤ status
  | .file j result _ =>
    ∀ r ∈ s.readers[j]?, r.pending = some .close → result < 0 ∧ s.closing = false
  | _ => True

instance (s : WsSession) (l : WsLabel) : Decidable (s.Accountable l) := by
  unfold Accountable
  split <;> infer_instance

end WsSession

/-- What accountable steps keep. -/
structure WsBooks (s : WsSession) : Prop where
  balanced : Books s.heapOps s.nextCtx s.readers.length s.Awaits
  /-- No context is in two places. -/
  nodup : (s.writes ++ s.ending).Nodup

namespace WsSession

/-- `s'` differs from `s` in nothing that concerns the heap. -/
structure Untouched (s s' : WsSession) : Prop where
  heapOps : s'.heapOps = s.heapOps
  nextCtx : s'.nextCtx = s.nextCtx
  writes : s'.writes = s.writes
  readers : s'.readers = s.readers
  ending : s'.ending = s.ending

theorem Untouched.refl (s : WsSession) : Untouched s s := ⟨rfl, rfl, rfl, rfl, rfl⟩

theorem Untouched.trans {s t u : WsSession} (h : Untouched s t) (h' : Untouched t u) :
    Untouched s u :=
  ⟨h'.heapOps.trans h.heapOps, h'.nextCtx.trans h.nextCtx, h'.writes.trans h.writes,
    h'.readers.trans h.readers, h'.ending.trans h.ending⟩

theorem heapOps_emit (s : WsSession) (es : List WsEffect) :
    (s.emit es).heapOps = s.heapOps ++ es.filterMap WsEffect.heapOp :=
  List.filterMap_append

theorem ending_push (s : WsSession) (ts : List WsTask) :
    (s.push ts).ending = ts.filterMap WsTask.deletes ++ s.ending :=
  List.filterMap_append

theorem Untouched.emit (s : WsSession) {es : List WsEffect}
    (h : es.filterMap WsEffect.heapOp = []) : Untouched s (s.emit es) := by
  refine ⟨?_, rfl, rfl, rfl, rfl⟩
  rw [heapOps_emit, h, List.append_nil]

theorem Untouched.push (s : WsSession) {ts : List WsTask}
    (h : ts.filterMap WsTask.deletes = []) : Untouched s (s.push ts) := by
  refine ⟨rfl, rfl, rfl, rfl, ?_⟩
  rw [ending_push, h, List.nil_append]

theorem Untouched.callback (s : WsSession) (set : Bool) {e : WsEffect} (h : e.heapOp = none) :
    Untouched s (s.callback set e) := by
  unfold WsSession.callback
  split
  · have hemit : Untouched s (s.emit [e]) := .emit s (by simp [h])
    exact hemit.trans (.push _ rfl)
  · exact .refl s

theorem Untouched.connect (s : WsSession) : Untouched s s.connect := by
  refine Untouched.trans ?_ (.callback _ _ rfl)
  have hemit : Untouched s (s.emit [.uvReadStart]) := .emit s rfl
  exact ⟨hemit.heapOps, rfl, rfl, rfl, rfl⟩

theorem Untouched.interClose (s : WsSession) : Untouched s s.interClose := by
  have hemit : Untouched s (s.emit ([.uvReadStop] ++ [.uvClose])) := .emit s rfl
  refine Untouched.trans ?_ (.callback _ _ rfl)
  refine Untouched.trans ?_ (.push _ rfl)
  refine ⟨?_, rfl, rfl, rfl, rfl⟩
  rw [← hemit.heapOps]
  simp [WsSession.heapOps, WsSession.emit]

theorem Untouched.removeWsSession (s : WsSession) :
    Untouched s (s.runTask .removeWsSession) := by
  have hemit : Untouched s (s.emit [.removeWsSession]) := .emit s rfl
  exact ⟨hemit.heapOps, rfl, rfl, rfl, rfl⟩

end WsSession

theorem WsBooks.untouched {s s' : WsSession} (h : WsBooks s) (hu : s.Untouched s') :
    WsBooks s' := by
  refine ⟨?_, ?_⟩
  · rw [hu.heapOps, hu.nextCtx, hu.readers]
    refine h.balanced.congr (fun _ => Iff.rfl) fun x => ?_
    cases x with
    | ctx n => simp only [WsSession.Awaits, hu.writes, hu.ending]
    | reader j => simp only [WsSession.Awaits, hu.readers]
  · rw [hu.writes, hu.ending]
    exact h.nodup

/-! ### Sending -/

/-- A write that libuv takes is awaited. -/
theorem WsBooks.interSend {s : WsSession} (h : WsBooks s) (hopen : s.closing = false)
    (opcode : UInt8) (payloadLen : Nat) (payload : List (List UInt8)) :
    WsBooks (s.interSend opcode payloadLen payload) := by
  have hwrites : (s.interSend opcode payloadLen payload).writes = s.writes ++ [s.nextCtx] := by
    simp [WsSession.interSend, WsSession.emit, hopen]
  refine ⟨?_, ?_⟩
  · have hops : (s.interSend opcode payloadLen payload).heapOps =
        s.heapOps ++ [.new (.ctx s.nextCtx)] := WsSession.heapOps_emit _ _
    rw [hops]
    refine Books.newCtx h.balanced fun x => ?_
    cases x with
    | ctx n =>
      simp only [WsSession.Awaits, hwrites, List.mem_append, List.mem_singleton,
        HeapObject.ctx.injEq]
      show _ ↔ _ ∨ n ∈ s.ending
      tauto
    | reader j => simp [WsSession.Awaits, WsSession.interSend, WsSession.emit]
  · -- the new context is in neither place
    have hfresh : ∀ n, n ∈ s.writes ∨ n ∈ s.ending → n < s.nextCtx := fun n hn =>
      h.balanced.known_of_owed (x := .ctx n) hn
    rw [hwrites]
    show (s.writes ++ [s.nextCtx] ++ s.ending).Nodup
    rw [List.append_assoc, List.singleton_append, List.nodup_middle, List.nodup_cons]
    refine ⟨fun hmem => ?_, h.nodup⟩
    exact Nat.lt_irrefl _ (hfresh _ (List.mem_append.mp hmem))

theorem WsBooks.sendFile {s : WsSession} (h : WsBooks s) (path : List UInt8) :
    WsBooks (s.sendFile path) := by
  refine ⟨?_, h.nodup⟩
  have hops : (s.sendFile path).heapOps = s.heapOps ++ [.new (.reader s.readers.length)] :=
    WsSession.heapOps_emit _ _
  have hlen : (s.sendFile path).readers.length = s.readers.length + 1 := by
    simp [WsSession.sendFile, WsSession.emit]
  rw [hops, hlen]
  refine Books.newReader h.balanced fun x => ?_
  cases x with
  | ctx n => simp [WsSession.Awaits, WsSession.sendFile, WsSession.emit, WsSession.ending]
  | reader j =>
    rw [HeapObject.reader.injEq]
    have hpending : (FileReader.fileRead path).1.pending ≠ none := Option.some_ne_none _
    exact (exists_getElem?_concat (p := fun r : FileReader => r.pending ≠ none) hpending j).symm

/-! ### The steps -/

/-- A context is deleted by the callback of its write. -/
theorem WsBooks.deleteCtx {s : WsSession} {ctx : Nat} {st : List WsTask} (h : WsBooks s)
    (hst : s.stack = .deleteCtx ctx :: st) :
    WsBooks ({ s with stack := st }.emit [.deleteCtx ctx]) := by
  have hending : s.ending = ctx :: st.filterMap WsTask.deletes := by
    rw [WsSession.ending, hst]
    rfl
  have hnodup := h.nodup
  rw [hending, List.nodup_middle, List.nodup_cons] at hnodup
  refine ⟨?_, hnodup.2⟩
  have hops : ({ s with stack := st }.emit [.deleteCtx ctx]).heapOps =
      s.heapOps ++ [.delete (.ctx ctx)] := WsSession.heapOps_emit _ _
  rw [hops]
  refine Books.release h.balanced (x := .ctx ctx) (.inr ?_) fun x => ?_
  · rw [hending]
    exact List.mem_cons_self
  · cases x with
    | ctx n =>
      show _ ∧ (n ∈ s.writes ∨ n ∈ s.ending) ↔ n ∈ s.writes ∨ n ∈ st.filterMap WsTask.deletes
      rw [hending, List.mem_cons, ne_eq, HeapObject.ctx.injEq, ← List.mem_append]
      have hne : n ∈ s.writes ++ st.filterMap WsTask.deletes → n ≠ ctx := by
        rintro hmem rfl
        exact hnodup.1 hmem
      rw [List.mem_append] at hne ⊢
      tauto
    | reader j => simp [WsSession.Awaits, WsSession.emit]

/-- The callback of a write that has succeeded. -/
theorem WsBooks.written {s : WsSession} {ctx : Nat} {ws : List Nat} {status : Int}
    (h : WsBooks s) (hst : s.stack = []) (hw : s.writes = ctx :: ws) (hstatus : 0 ≤ status) :
    WsBooks ({ s with writes := ws }.written ctx status) := by
  have hnone : s.ending = [] := by
    rw [WsSession.ending, hst]
    rfl
  have heq : { s with writes := ws }.written ctx status =
      { s with writes := ws, stack := [.deleteCtx ctx] } := by
    rw [WsSession.written, if_neg (Int.not_lt.mpr hstatus), WsSession.push, hst]
    rfl
  rw [heq]
  refine ⟨h.balanced.congr (fun _ => Iff.rfl) fun x => ?_, ?_⟩
  · cases x with
    | ctx n =>
      show n ∈ s.writes ∨ n ∈ s.ending ↔ n ∈ ws ∨ n ∈ [ctx]
      rw [hw, hnone, List.mem_cons, List.mem_singleton]
      simp [or_comm]
    | reader j => exact Iff.rfl
  · have hnodup := h.nodup
    rw [hw, hnone, List.append_nil, List.nodup_cons] at hnodup
    show (ws ++ [ctx]).Nodup
    rw [List.nodup_append_comm]
    exact List.nodup_cons.mpr hnodup

theorem WsBooks.handleWsFrame {s : WsSession} (h : WsBooks s) (frame : WsFrame)
    (hopen : (WsTask.handleWsFrame frame).sendsPong = true → s.closing = false) :
    WsBooks (s.handleWsFrame frame) := by
  unfold WsSession.handleWsFrame
  split
  · have hpush : s.Untouched (s.push [.interClose]) := .push s rfl
    exact h.untouched (hpush.trans (.callback _ _ rfl))
  · rename_i hmask
    split
    · exact h
    · split
      · rename_i hping
        refine h.interSend (hopen ?_) _ _ _
        simpa [WsTask.sendsPong, hping] using hmask
      · split
        · exact h.untouched (.push s rfl)
        · exact h.untouched (.callback s _ rfl)

theorem WsBooks.runTask {s : WsSession} {t : WsTask} {st : List WsTask} (h : WsBooks s)
    (hst : s.stack = t :: st) (hopen : t.sendsPong = true → s.closing = false) :
    WsBooks ({ s with stack := st }.runTask t) := by
  have hending : s.ending = (t :: st).filterMap WsTask.deletes := by rw [WsSession.ending, hst]
  -- every task but one deletes no context
  have hpop : t.deletes = none → WsBooks { s with stack := st } := by
    intro ht
    refine h.untouched ⟨rfl, rfl, rfl, rfl, ?_⟩
    rw [hending, List.filterMap_cons_none ht]
    rfl
  cases t with
  | user => exact hpop rfl
  | connect => exact (hpop rfl).untouched (.connect _)
  | interClose => exact (hpop rfl).untouched (.interClose _)
  | removeWsSession => exact (hpop rfl).untouched (.removeWsSession _)
  | handleWsFrame frame => exact (hpop rfl).handleWsFrame frame hopen
  | parsed err =>
    show WsBooks (if err ≠ .success then _ else _)
    split
    · have hpush : WsSession.Untouched { s with stack := st }
        (WsSession.push { s with stack := st } [.interClose]) := .push _ rfl
      exact (hpop rfl).untouched (hpush.trans (.callback _ _ rfl))
    · exact hpop rfl
  | deleteCtx ctx => exact h.deleteCtx hst

/-- The callbacks of a reader: `m_onError` deletes it; a failed close sends what it has read
    after that. -/
theorem WsBooks.file {s : WsSession} {j : Nat} {result : Int} {data : List UInt8}
    {r r' : FileReader} {as : List FsAction} (h : WsBooks s) (hr : s.readers[j]? = some r)
    (he : r.event result data = some (r', as))
    (hclose : r.pending = some .close → result < 0 ∧ s.closing = false) :
    WsBooks (as.foldl (WsSession.fsAction j r') { s with readers := s.readers.set j r' }) := by
  have hsome := FileReader.pending_of_event he
  -- a callback of `m_onError` releases the reader
  have herror : r'.pending = none →
      WsBooks (WsSession.fsAction j r' { s with readers := s.readers.set j r' } .onError) := by
    intro hnone
    refine ⟨?_, h.nodup⟩
    have hops : (WsSession.fsAction j r' { s with readers := s.readers.set j r' }
        .onError).heapOps = s.heapOps ++ [.delete (.reader j)] := by
      show ((s.emit [.fs j .onError]).emit [.deleteReader j]).heapOps = _
      rw [WsSession.heapOps_emit, WsSession.heapOps_emit]
      simp [WsEffect.heapOp]
    rw [hops]
    show Books _ s.nextCtx (s.readers.set j r').length _
    rw [List.length_set]
    refine Books.release h.balanced (x := .reader j) ⟨r, hr, hsome⟩ fun x => ?_
    cases x with
    | ctx n => simp [WsSession.Awaits, WsSession.fsAction, WsSession.emit, WsSession.ending]
    | reader k =>
      rw [ne_eq, HeapObject.reader.injEq]
      exact (exists_getElem?_set_of_not (p := fun r : FileReader => r.pending ≠ none)
        (not_not.mpr hnone) j k).symm
  rcases FileReader.event_cases he with
    ⟨hp, hnone, ⟨hresult, rfl⟩ | ⟨-, rfl⟩⟩ | ⟨-, ⟨hnone, rfl⟩ | ⟨hsome', a, rfl, ha⟩⟩
  · -- closed with success
    exact absurd (hclose hp).1 (Int.not_lt.mpr hresult)
  · -- closed with an error
    have hsend : WsBooks ((WsSession.fsAction j r' { s with readers := s.readers.set j r' }
        .onError).emit [.fs j .onClose]) := (herror hnone).untouched (.emit _ rfl)
    exact hsend.interSend (hclose hp).2 _ _ _
  · exact herror hnone
  · -- the next request is in flight
    have hnext : WsSession.fsAction j r' { s with readers := s.readers.set j r' } a =
        { s with readers := s.readers.set j r' }.emit [.fs j a] := by
      cases a with
      | onError => cases ha
      | onClose => cases ha
      | _ => rfl
    have hset : WsBooks { s with readers := s.readers.set j r' } := by
      refine ⟨?_, h.nodup⟩
      show Books _ s.nextCtx (s.readers.set j r').length _
      rw [List.length_set]
      refine h.balanced.congr (fun _ => Iff.rfl) fun x => ?_
      cases x with
      | ctx n => exact Iff.rfl
      | reader k =>
        exact (exists_getElem?_set (p := fun r : FileReader => r.pending ≠ none) hr
          (iff_of_true hsome' hsome) k).symm
    rw [List.foldl_cons, List.foldl_nil, hnext]
    exact hset.untouched (.emit _ rfl)

/-- **Accountable steps keep the books.** -/
theorem WsBooks.step {s s' : WsSession} {l : WsLabel} (h : WsBooks s) (hl : s.Accountable l)
    (hs : WsStep s l s') : WsBooks s' := by
  cases hs with
  | call c hu =>
    cases c with
    | close =>
      show WsBooks s.close
      unfold WsSession.close
      split
      · exact h
      · exact h.untouched (.push s rfl)
    | send str => exact h.interSend hl _ _ _
    | sendFile path => exact h.sendFile path
    | _ => exact h.untouched ⟨rfl, rfl, rfl, rfl, rfl⟩
  | @ret st hst =>
    refine h.untouched ⟨rfl, rfl, rfl, rfl, ?_⟩
    rw [WsSession.ending, WsSession.ending, hst]
    rfl
  | @run t st hst ht =>
    refine h.runTask hst (hl t ?_)
    rw [hst]
    rfl
  | recv hst hr hcb =>
    rcases WsSession.recvCb_cases hcb with rfl | ⟨-, r, -, rfl⟩
    · exact h
    · -- the frames and the result are handled later; neither task deletes a context
      have hparse : s.Untouched { s with parse := r.state } := ⟨rfl, rfl, rfl, rfl, rfl⟩
      refine h.untouched (hparse.trans (.push _ ?_))
      rw [List.filterMap_append, List.filterMap_map]
      simp [WsTask.deletes, Function.comp_def]
  | recvErr hst hr =>
    have hstop : s.Untouched { s with reading := false } := ⟨rfl, rfl, rfl, rfl, rfl⟩
    exact h.untouched (hstop.trans (.push _ rfl))
  | @written ctx ws status hst hw => exact h.written hst hw hl
  | @file j result data r r' as hst hr he => exact h.file hr he (hl r hr)

theorem WsBooks.onUpgrade (serverCallback : Bool) : WsBooks (.onUpgrade serverCallback) := by
  have hnone : (WsSession.onUpgrade serverCallback).ending = [] := by
    cases serverCallback <;> rfl
  refine ⟨Books.nil fun x => ?_, ?_⟩
  · cases x with
    | ctx n =>
      show ¬ (n ∈ [] ∨ n ∈ (WsSession.onUpgrade serverCallback).ending)
      simp [hnone]
    | reader j => simp [WsSession.Awaits, WsSession.onUpgrade]
  · rw [hnone]
    exact List.nodup_nil

/-- **A WebSocket session releases once**, as long as every step is accountable. -/
theorem WsSession.releasedOnce {serverCallback : Bool} {ls : List WsLabel} {s : WsSession}
    (h : wsMachine.exec (.onUpgrade serverCallback) ls = some s)
    (hl : wsMachine.AllSteps WsSession.Accountable (.onUpgrade serverCallback) ls) :
    ReleasedOnce s.heapOps s.Awaits := by
  have hbooks := wsMachine.exec_invariant_of_allSteps
    (fun s l s' hI hP hs => WsBooks.step hI hP (WsSession.step_cases hs))
    (WsBooks.onUpgrade serverCallback) hl h
  exact hbooks.balanced.releasedOnce

end MyWebSocket
