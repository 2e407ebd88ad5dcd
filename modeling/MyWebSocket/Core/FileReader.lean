import Mathlib.Data.List.Basic
import MyWebSocket.Library.Machine

namespace MyWebSocket

/-!
# The file reader

`FileReader.cpp`: a chain of libuv file requests (open, reads, close) that fills a vector of
1024-byte buffers and ends in the owner's `m_onClose` or `m_onError`.  A reader is driven by
the results of its requests (`FileReader.event`); what it asks of libuv and of its owner comes
back as a list of `FsAction`s.
-/

/-- `DEFAULT_FILE_READER_BUFF_SIZE`. -/
def defaultFileReaderBuffSize : Nat := 1024

/-- `FileReaderErr`. -/
inductive FileReaderErr
  | readSuccess
  | openFailed
  | readFailed
  | closeFailed
deriving DecidableEq, Repr

/-- A `uv_buf_t` of the reader: the bytes written at `base` so far, and `len`. -/
structure FileBuf where
  base : List UInt8
  len : Nat
deriving DecidableEq, Repr

/-- A buffer of the default size, nothing written yet. -/
def FileBuf.fresh : FileBuf := { base := [], len := defaultFileReaderBuffSize }

/-- The request libuv is working on. -/
inductive FsReq
  | open
  | read
  | close
deriving DecidableEq, Repr

/-- What a reader does when it runs: requests to libuv and calls of its two callbacks. -/
inductive FsAction
  | fsOpen (path : List UInt8)
  | fsRead (fd : Int) (len : Nat)
  | fsClose (fd : Int)
  | onError
  | onClose
deriving DecidableEq, Repr

/-- The reader calls back its owner. -/
def FsAction.isCallback : FsAction → Bool
  | .onError | .onClose => true
  | _ => false

/-- The members of a `FileReader`, and the request in flight.  `m_fd` and `m_result` have no
    initial value. -/
structure FileReader where
  path : List UInt8
  bufferVec : List FileBuf
  buffUsed : Nat
  readByte : Nat
  fd : Option Int
  result : Option FileReaderErr
  pending : Option FsReq
deriving DecidableEq, Repr

namespace FileReader

/-- `FileReader::FileReader` followed by `fileRead(path)`. -/
def fileRead (path : List UInt8) : FileReader × List FsAction :=
  ({ path := path, bufferVec := [.fresh], buffUsed := 0, readByte := 0, fd := none,
     result := none, pending := some .open },
    [.fsOpen path])

/-- The `len` of the buffer a read goes to. -/
def bufLen (r : FileReader) : Nat := (r.bufferVec.getD r.buffUsed ⟨[], 0⟩).len

/-- `FileReader::onOpen`. -/
def onOpen (r : FileReader) (result : Int) : FileReader × List FsAction :=
  if result < 0 then
    ({ r with result := some .openFailed, pending := none }, [.onError])
  else
    let bufferVec := if r.bufferVec.length = 0 then [.fresh] else r.bufferVec
    let r' := { r with bufferVec := bufferVec, buffUsed := 0, fd := some result,
                       pending := some .read }
    (r', [.fsRead result r'.bufLen])

/-- `FileReader::onRead`; `data` are the bytes libuv has written, `result` of them. -/
def onRead (r : FileReader) (result : Int) (data : List UInt8) : FileReader × List FsAction :=
  let fd := r.fd.getD 0
  if result < 0 then
    ({ r with result := some .readFailed, pending := none }, [.onError])
  else
    let filled := r.bufferVec.modify r.buffUsed fun b => { b with base := data }
    let readByte := r.readByte + result.toNat
    if result = r.bufLen then
      let buffUsed := r.buffUsed + 1
      -- a full buffer: read on into the next one
      let bufferVec := if buffUsed = filled.length then filled ++ [.fresh] else filled
      let r' := { r with bufferVec := bufferVec, buffUsed := buffUsed, readByte := readByte,
                         pending := some .read }
      (r', [.fsRead fd r'.bufLen])
    else
      ({ r with
          bufferVec := filled.modify r.buffUsed fun b => { b with len := result.toNat }
          buffUsed := r.buffUsed + 1, readByte := readByte, pending := some .close },
        [.fsClose fd])

/-- `FileReader::onClose`: a failure calls `m_onError`, and `m_onClose` is called either way. -/
def onClose (r : FileReader) (result : Int) : FileReader × List FsAction :=
  if result < 0 then
    ({ r with result := some .closeFailed, pending := none }, [.onError, .onClose])
  else
    ({ r with pending := none }, [.onClose])

/-- The request in flight ends with `result`, a read having written `data`.  libuv writes no
    more than the buffer holds, and `result` counts what it has written. -/
def event (r : FileReader) (result : Int) (data : List UInt8) :
    Option (FileReader × List FsAction) :=
  match r.pending with
  | none => none
  | some .open => some (r.onOpen result)
  | some .read =>
    if result < 0 ∨ (result = data.length ∧ data.length ≤ r.bufLen) then some (r.onRead result data)
    else none
  | some .close => some (r.onClose result)

/-- `FileReader::getReadByte`. -/
def getReadByte (r : FileReader) : Nat := r.readByte

/-- `FileReader::appendToBuff`: the bytes of the buffers it appends. -/
def appendToBuff (r : FileReader) : List (List UInt8) :=
  (r.bufferVec.take r.buffUsed).map fun b => b.base.take b.len

/-! ### What a reader still owes -/

/-- Only a request in flight can end. -/
theorem pending_of_event {r : FileReader} {result : Int} {data : List UInt8}
    {x : FileReader × List FsAction} (h : r.event result data = some x) : r.pending ≠ none := by
  intro hnone
  simp [event, hnone] at h

/-- What the end of a request leads to: the owner is called back, or the next request is made. -/
theorem event_cases {r r' : FileReader} {result : Int} {data : List UInt8}
    {as : List FsAction} (h : r.event result data = some (r', as)) :
    r.pending = some .close ∧ r'.pending = none ∧
        (0 ≤ result ∧ as = [.onClose] ∨ result < 0 ∧ as = [.onError, .onClose]) ∨
      r.pending ≠ some .close ∧
        (r'.pending = none ∧ as = [.onError] ∨
          r'.pending ≠ none ∧ ∃ a, as = [a] ∧ FsAction.isCallback a = false) := by
  unfold event at h
  cases hp : r.pending with
  | none => simp [hp] at h
  | some req =>
    -- one case for each request: it asks for the next one, or calls back
    cases req with
    | «open» =>
      simp only [hp, onOpen] at h
      split at h <;> cases h <;> simp [FsAction.isCallback]
    | read =>
      simp only [hp, onRead] at h
      split at h
      · split at h
        · cases h
          simp
        · split at h <;> cases h <;> simp [FsAction.isCallback]
      · cases h
    | close =>
      simp only [hp, onClose] at h
      split at h
      · cases h
        simp [*]
      · cases h
        simp [*, Int.not_lt.mp ‹_›]

/-- **A reader works until it calls back.**  As long as no callback is called, a request is in
    flight; once one is called, none is. -/
theorem event_pending {r r' : FileReader} {result : Int} {data : List UInt8}
    {as : List FsAction} (h : r.event result data = some (r', as)) :
    r'.pending = none ↔ ∃ a ∈ as, FsAction.isCallback a = true := by
  rcases event_cases h with
    ⟨-, hnone, ⟨-, rfl⟩ | ⟨-, rfl⟩⟩ | ⟨-, ⟨hnone, rfl⟩ | ⟨hsome, a, rfl, ha⟩⟩
  · simp [hnone, FsAction.isCallback]
  · simp [hnone, FsAction.isCallback]
  · simp [hnone, FsAction.isCallback]
  · simp [hsome, ha]

/-- The owner's `m_onClose` is called when the close request ends, whatever its result, and at no
    other time. -/
theorem event_onClose {r r' : FileReader} {result : Int} {data : List UInt8}
    {as : List FsAction} (h : r.event result data = some (r', as)) :
    .onClose ∈ as ↔ r.pending = some .close := by
  rcases event_cases h with ⟨hp, -, ⟨-, rfl⟩ | ⟨-, rfl⟩⟩ | ⟨hp, ⟨-, rfl⟩ | ⟨-, a, rfl, ha⟩⟩
  · simp [hp]
  · simp [hp]
  · simp [hp]
  · have hne : FsAction.onClose ≠ a := by
      rintro rfl
      simp [FsAction.isCallback] at ha
    simp [hp, hne]

/-- The owner's `m_onError` is called when a request fails, and at no other time. -/
theorem event_onError {r r' : FileReader} {result : Int} {data : List UInt8}
    {as : List FsAction} (h : r.event result data = some (r', as)) :
    .onError ∈ as ↔ result < 0 := by
  unfold event at h
  cases hp : r.pending with
  | none => simp [hp] at h
  | some req =>
    cases req with
    | «open» =>
      simp only [hp, onOpen] at h
      split at h <;> cases h <;> simp [*]
    | read =>
      simp only [hp, onRead] at h
      split at h
      · split at h
        · cases h
          simp [*]
        · split at h <;> cases h <;> simp [*]
      · cases h
    | close =>
      simp only [hp, onClose] at h
      split at h <;> cases h <;> simp [*]

/-! ### The callbacks of a reader -/

/-- A reader with all it has done, driven by the results of its requests. -/
def readerMachine : Machine (FileReader × List FsAction) (Int × List UInt8) :=
  ⟨fun x l => (x.1.event l.1 l.2).map fun y => (y.1, x.2 ++ y.2)⟩

/-- The calls of the owner among several actions. -/
def callbacks (as : List FsAction) : List FsAction := as.filter FsAction.isCallback

/-- The request that ends is a close, and it has failed. -/
def CloseFails (r : FileReader) (result : Int) : Prop := r.pending = some .close ∧ result < 0

instance (r : FileReader) (result : Int) : Decidable (r.CloseFails result) := by
  unfold CloseFails; infer_instance

theorem callbacks_append (as bs : List FsAction) :
    callbacks (as ++ bs) = callbacks as ++ callbacks bs := List.filter_append ..

/-- The callbacks the end of a request leads to. -/
theorem event_callbacks {r r' : FileReader} {result : Int} {data : List UInt8}
    {as : List FsAction} (h : r.event result data = some (r', as)) :
    r'.pending ≠ none ∧ ¬ r.CloseFails result ∧ callbacks as = [] ∨
      r'.pending = none ∧ ¬ r.CloseFails result ∧
        (callbacks as = [.onError] ∨ callbacks as = [.onClose]) ∨
      r'.pending = none ∧ r.CloseFails result ∧ callbacks as = [.onError, .onClose] := by
  rcases event_cases h with
    ⟨hp, hnone, ⟨hres, rfl⟩ | ⟨hres, rfl⟩⟩ | ⟨hp, ⟨hnone, rfl⟩ | ⟨hsome, a, rfl, ha⟩⟩
  · exact .inr (.inl ⟨hnone, fun hf => Int.not_lt.mpr hres hf.2, .inr rfl⟩)
  · exact .inr (.inr ⟨hnone, ⟨hp, hres⟩, rfl⟩)
  · exact .inr (.inl ⟨hnone, fun hf => hp hf.1, .inl rfl⟩)
  · exact .inl ⟨hsome, fun hf => hp hf.1, by simp [callbacks, ha]⟩

/-- At work, and no callback has been made; or done, with exactly one. -/
def CalledOnce (x : FileReader × List FsAction) : Prop :=
  x.1.pending ≠ none ∧ callbacks x.2 = [] ∨
    x.1.pending = none ∧ (callbacks x.2 = [.onError] ∨ callbacks x.2 = [.onClose])

/-- Done, with both callbacks. -/
def CalledTwice (x : FileReader × List FsAction) : Prop :=
  x.1.pending = none ∧ callbacks x.2 = [.onError, .onClose]

/-- A result after which a reader that was at work has made its callbacks. -/
theorem called_step {x x' : FileReader × List FsAction} {l : Int × List UInt8}
    (h : CalledOnce x) (hl : readerMachine.step x l = some x') :
    ¬ x.1.CloseFails l.1 ∧ CalledOnce x' ∨ x.1.CloseFails l.1 ∧ CalledTwice x' := by
  obtain ⟨⟨r', as⟩, he, rfl⟩ := Option.map_eq_some_iff.mp hl
  -- a request was in flight, so nothing has been called yet
  have hnil : callbacks x.2 = [] := by
    rcases h with ⟨-, hnil⟩ | ⟨hnone, -⟩
    · exact hnil
    · exact absurd hnone (pending_of_event he)
  have hall : callbacks (x.2 ++ as) = callbacks as := by
    rw [callbacks_append, hnil, List.nil_append]
  rcases event_callbacks he with ⟨hp, hf, has⟩ | ⟨hp, hf, has⟩ | ⟨hp, hf, has⟩
  · exact .inl ⟨hf, .inl ⟨hp, hall.trans has⟩⟩
  · refine .inl ⟨hf, .inr ⟨hp, ?_⟩⟩
    show callbacks (x.2 ++ as) = _ ∨ callbacks (x.2 ++ as) = _
    rw [hall]
    exact has
  · exact .inr ⟨hf, hp, hall.trans has⟩

/-- **One callback.**  When the last request of a reader has ended, exactly one of its callbacks
    has been called, and once, if and only if the close has not failed. -/
theorem calledOnce_iff (path : List UInt8) {ls : List (Int × List UInt8)}
    {x : FileReader × List FsAction} (h : readerMachine.exec (fileRead path) ls = some x)
    (hend : x.1.pending = none) :
    callbacks x.2 = [.onError] ∨ callbacks x.2 = [.onClose] ↔
      readerMachine.AllSteps (fun x l => ¬ x.1.CloseFails l.1) (fileRead path) ls := by
  have hiff := readerMachine.exec_iff_allSteps (P := fun x l => ¬ x.1.CloseFails l.1)
    (I := CalledOnce) (B := CalledTwice)
    (Q := fun x => x.1.pending = none → callbacks x.2 = [.onError] ∨ callbacks x.2 = [.onClose])
    (fun x l x' hI hP hl => ((called_step hI hl).resolve_right fun hb => hP hb.1).2)
    (fun x l x' hI hP hl => ((called_step hI hl).resolve_left fun hb => hP hb.1).2)
    (fun x l x' hB hl => by
      -- nothing is in flight any more
      obtain ⟨y, he, -⟩ := Option.map_eq_some_iff.mp hl
      exact absurd hB.1 (pending_of_event he))
    (fun x hI hnone => hI.elim (fun hw => absurd hnone hw.1) fun hd => hd.2)
    (fun x hB hQ => by
      rcases hQ hB.1 with hone | hone
      · rw [hB.2] at hone
        cases hone
      · rw [hB.2] at hone
        cases hone)
    (.inl ⟨by simp [fileRead], rfl⟩) h
  rw [← hiff]
  exact ⟨fun hone _ => hone, fun hone => hone hend⟩

/-! ### What has been read -/

/-- The bytes the end of a request delivers. -/
def delivered (r : FileReader) (result : Int) (data : List UInt8) : List UInt8 :=
  if r.pending = some .read ∧ 0 ≤ result then data else []

/-- A reader that was made for `path` and has since been driven by the results of its requests;
    `bytes` are those its reads have delivered. -/
inductive HasRead (path : List UInt8) : FileReader → List UInt8 → Prop
  | fileRead : HasRead path (fileRead path).1 []
  | event {r r' : FileReader} {bytes : List UInt8} {as : List FsAction} (result : Int)
      (data : List UInt8) (h : HasRead path r bytes) (he : r.event result data = some (r', as)) :
      HasRead path r' (bytes ++ r.delivered result data)

/-- The buffers hold `bytes`, and a read in flight goes to a fresh one behind them. -/
structure Holds (r : FileReader) (bytes : List UInt8) : Prop where
  readByte : r.readByte = bytes.length
  flatten : r.appendToBuff.flatten = bytes
  opening : r.pending = some .open → r.bufferVec = [.fresh] ∧ r.buffUsed = 0
  reading : r.pending = some .read → ∃ front, r.bufferVec = front ++ [.fresh] ∧
    r.buffUsed = front.length

theorem modify_concat {α : Type} (l : List α) (a : α) (f : α → α) :
    (l ++ [a]).modify l.length f = l ++ [f a] := by
  simp [List.modify_eq_take_cons_drop]

theorem Holds.fileRead (path : List UInt8) : Holds (fileRead path).1 [] :=
  ⟨rfl, rfl, fun _ => ⟨rfl, rfl⟩, nofun⟩

theorem Holds.onRead {r : FileReader} {bytes : List UInt8} (h : Holds r bytes)
    (hp : r.pending = some .read) (data : List UInt8) :
    Holds (r.onRead data.length data).1 (bytes ++ data) := by
  obtain ⟨front, hvec, hused⟩ := h.reading hp
  have hlen : r.bufLen = defaultFileReaderBuffSize := by
    simp [bufLen, hvec, hused, FileBuf.fresh]
  have hfront : (front.map fun b => b.base.take b.len).flatten = bytes := by
    have hflat := h.flatten
    rw [appendToBuff, hvec, hused, List.take_left] at hflat
    exact hflat
  have hfilled : (r.bufferVec.modify r.buffUsed fun b => { b with base := data }) =
      front ++ [{ base := data, len := defaultFileReaderBuffSize }] := by
    rw [hvec, hused, modify_concat]
    rfl
  unfold FileReader.onRead
  simp only [hfilled]
  rw [if_neg (by omega)]
  by_cases hfull : (data.length : Int) = r.bufLen
  · -- a full buffer: a fresh one is added behind it
    rw [if_pos hfull]
    have hmore : r.buffUsed + 1 =
        (front ++ [(⟨data, defaultFileReaderBuffSize⟩ : FileBuf)]).length := by
      rw [List.length_append, List.length_singleton, hused]
    rw [if_pos hmore]
    refine ⟨?_, ?_, nofun, fun _ => ⟨_, rfl, hmore⟩⟩
    · simp [h.readByte]
    · have htake : data.take defaultFileReaderBuffSize = data :=
        List.take_of_length_le (by omega)
      show ((List.take (r.buffUsed + 1) _).map _).flatten = _
      rw [hmore, List.take_left, List.map_append, List.flatten_append, hfront]
      simp [htake]
  · rw [if_neg hfull]
    refine ⟨?_, ?_, nofun, nofun⟩
    · simp [h.readByte]
    · show ((List.take (r.buffUsed + 1) _).map _).flatten = _
      rw [hused, modify_concat, List.take_of_length_le (by simp), List.map_append,
        List.flatten_append, hfront]
      simp

/-- **Every event of a reader leaves its buffers holding what has been delivered.** -/
theorem Holds.event {r r' : FileReader} {bytes : List UInt8} (h : Holds r bytes) {result : Int}
    {data : List UInt8} {as : List FsAction} (he : r.event result data = some (r', as)) :
    Holds r' (bytes ++ r.delivered result data) := by
  unfold FileReader.event at he
  cases hp : r.pending with
  | none => simp [hp] at he
  | some req =>
    cases req with
    | «open» =>
      obtain ⟨hvec, hused⟩ := h.opening hp
      have hnone : r.delivered result data = [] := by simp [delivered, hp]
      have hempty : bytes = [] := by
        rw [← h.flatten, appendToBuff, hused]
        rfl
      simp only [hp, onOpen] at he
      rw [hnone, List.append_nil, hempty]
      have hread : r.readByte = 0 := by
        rw [h.readByte, hempty]
        rfl
      split at he
      · cases he
        refine ⟨hread, ?_, nofun, nofun⟩
        simp [appendToBuff, hused]
      · cases he
        refine ⟨hread, rfl, nofun, fun _ => ⟨[], ?_, rfl⟩⟩
        simp [hvec]
    | read =>
      simp only [hp] at he
      split at he
      · rename_i hcond
        obtain ⟨rfl, -⟩ : (r.onRead result data).1 = r' ∧ _ := by simpa [Prod.ext_iff] using he
        by_cases hneg : result < 0
        · -- a failed read delivers nothing
          have hnone : r.delivered result data = [] := if_neg fun h => Int.not_lt.mpr h.2 hneg
          have hstate : (r.onRead result data).1 =
              { r with result := some .readFailed, pending := none } := by
            simp [FileReader.onRead, hneg]
          rw [hnone, List.append_nil, hstate]
          exact ⟨h.readByte, h.flatten, nofun, nofun⟩
        · obtain ⟨rfl, -⟩ := hcond.resolve_left hneg
          have hall : r.delivered data.length data = data := by simp [delivered, hp]
          rw [hall]
          exact h.onRead hp data
      · cases he
    | close =>
      have hnone : r.delivered result data = [] := by simp [delivered, hp]
      simp only [hp, onClose] at he
      rw [hnone, List.append_nil]
      split at he <;> cases he <;>
        exact ⟨h.readByte, h.flatten, nofun, nofun⟩

/-- **A reader's buffers hold what has been read**, and `getReadByte` counts it. -/
theorem HasRead.holds {path : List UInt8} {r : FileReader} {bytes : List UInt8}
    (h : HasRead path r bytes) : Holds r bytes := by
  induction h with
  | fileRead => exact .fileRead path
  | event result data _ he ih => exact ih.event he

end FileReader

end MyWebSocket
