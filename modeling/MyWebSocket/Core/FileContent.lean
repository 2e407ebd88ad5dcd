import MyWebSocket.Core.FileReader

namespace MyWebSocket

/-!
# The file behind a reader

What a reader has of its file when it calls `m_onClose`, and whether it has closed the file by
then.

* `fileMachine` — a reader on a file: a read may return less than its buffer holds, as read(2)
  may, and nothing only at the end of the file;
* `content_iff` — the buffers hold the whole file if and only if no read has returned less than
  its buffer holds and less than was left of the file;
* `closedOnce_iff` — a file that has been opened is closed, and once, before the last callback if
  and only if no read has failed.
-/

namespace FileReader

/-! ### The content -/

/-- A reader, what it has done, and what the file holds behind the place it reads from. -/
structure OnFile where
  reader : FileReader
  actions : List FsAction
  left : List UInt8
deriving DecidableEq, Repr

/-- The constructor followed by `fileRead(path)`, on a file with the given content. -/
def OnFile.fileRead (path content : List UInt8) : OnFile :=
  { reader := (FileReader.fileRead path).1, actions := (FileReader.fileRead path).2,
    left := content }

/-- A read is in flight and has ended well. -/
def OnFile.Reads (x : OnFile) (result : Int) : Prop := x.reader.pending = some .read ∧ 0 ≤ result

instance (x : OnFile) (result : Int) : Decidable (x.Reads result) := by
  unfold OnFile.Reads; infer_instance

/-- What read(2) may return: no more than is left of the file, and nothing only when nothing is
    left.  That it fits into the buffer is part of `FileReader.event`. -/
def OnFile.Permitted (x : OnFile) (result : Int) : Prop :=
  result.toNat ≤ x.left.length ∧ (result = 0 → x.left = [])

instance (x : OnFile) (result : Int) : Decidable (x.Permitted result) := by
  unfold OnFile.Permitted; infer_instance

/-- The request in flight ends. -/
def OnFile.event (x : OnFile) (result : Int) : Option OnFile :=
  if x.Reads result then
    if x.Permitted result then
      (x.reader.event result (x.left.take result.toNat)).map fun y =>
        ⟨y.1, x.actions ++ y.2, x.left.drop result.toNat⟩
    else none
  else (x.reader.event result []).map fun y => ⟨y.1, x.actions ++ y.2, x.left⟩

/-- A reader on a file, driven by the results of its requests. -/
def fileMachine : Machine OnFile Int := ⟨OnFile.event⟩

/-- A read returns less than a buffer holds, and more is left of the file. -/
def OnFile.ShortRead (x : OnFile) (result : Int) : Prop :=
  x.Reads result ∧ result < defaultFileReaderBuffSize ∧ result < x.left.length

instance (x : OnFile) (result : Int) : Decidable (x.ShortRead result) := by
  unfold OnFile.ShortRead; infer_instance

/-- What a step does: the reader gets the bytes `data`, and the file is behind them. -/
theorem OnFile.event_cases {x x' : OnFile} {result : Int} (h : x.event result = some x') :
    ∃ data as, x.reader.event result data = some (x'.reader, as) ∧
      x'.actions = x.actions ++ as ∧
      x.reader.delivered result data ++ x'.left = x.left ∧
      (¬ x.Reads result → x'.left = x.left) ∧
      (x.Reads result → x'.left = x.left.drop result.toNat) := by
  unfold OnFile.event at h
  by_cases hreads : x.Reads result
  · rw [if_pos hreads] at h
    split at h
    · obtain ⟨⟨r', as⟩, he, rfl⟩ := Option.map_eq_some_iff.mp h
      refine ⟨_, as, he, rfl, ?_, fun hn => absurd hreads hn, fun _ => rfl⟩
      have hall : x.reader.delivered result (x.left.take result.toNat) =
          x.left.take result.toNat := if_pos hreads
      rw [hall]
      exact List.take_append_drop _ _
    · cases h
  · rw [if_neg hreads] at h
    obtain ⟨⟨r', as⟩, he, rfl⟩ := Option.map_eq_some_iff.mp h
    refine ⟨_, as, he, rfl, ?_, fun _ => rfl, fun hr => absurd hr hreads⟩
    have hnone : x.reader.delivered result [] = [] := by
      unfold delivered
      split <;> rfl
    rw [hnone]
    rfl

/-- A reader that holds what it has read goes on to close its file when a read has ended well and
    returned less than the buffer holds; otherwise it reads on, or is done. -/
theorem Holds.pending_event {r r' : FileReader} {bytes data : List UInt8} {result : Int}
    {as : List FsAction} (h : Holds r bytes) (he : r.event result data = some (r', as)) :
    r'.pending = some .close ↔
      r.pending = some .read ∧ 0 ≤ result ∧ result < defaultFileReaderBuffSize := by
  unfold FileReader.event at he
  cases hp : r.pending with
  | none => simp [hp] at he
  | some req =>
    cases req with
    | «open» =>
      simp only [hp, onOpen] at he
      split at he <;> cases he <;> simp
    | close =>
      simp only [hp, onClose] at he
      split at he <;> cases he <;> simp
    | read =>
      -- the buffer of a read has the default size
      obtain ⟨front, hvec, hused⟩ := h.reading hp
      have hlen : r.bufLen = defaultFileReaderBuffSize := by
        simp [bufLen, hvec, hused, FileBuf.fresh]
      simp only [hp] at he
      split at he
      · rename_i hcond
        obtain ⟨rfl, -⟩ : (r.onRead result data).1 = r' ∧ _ := by simpa [Prod.ext_iff] using he
        unfold FileReader.onRead
        rw [hlen] at hcond ⊢
        by_cases hneg : result < 0
        · simp only [if_pos hneg, true_and]
          simp
          omega
        · obtain ⟨hres, hle⟩ := hcond.resolve_left hneg
          by_cases hfull : result = defaultFileReaderBuffSize
          · simp only [if_neg hneg, if_pos hfull, true_and]
            simp
            omega
          · simp only [if_neg hneg, if_neg hfull, true_and, true_iff]
            omega
      · cases he

/-- The buffers hold the file up to the place it is read from, and when the file is to be closed,
    or has been, nothing is left of it. -/
def OnFile.Whole (content : List UInt8) (x : OnFile) : Prop :=
  (∃ bytes, Holds x.reader bytes ∧ bytes ++ x.left = content) ∧
    (x.reader.pending = some .close ∨ .onClose ∈ x.actions → x.left = [])

/-- The reader has stopped reading before the end of the file. -/
def OnFile.Cut (content : List UInt8) (x : OnFile) : Prop :=
  (∃ bytes, Holds x.reader bytes ∧ bytes ++ x.left = content) ∧ x.left ≠ [] ∧
    x.reader.pending ≠ some .open ∧ x.reader.pending ≠ some .read

/-- The buffers go on holding what has been read. -/
theorem OnFile.held_event {content : List UInt8} {x x' : OnFile} {result : Int}
    (h : ∃ bytes, Holds x.reader bytes ∧ bytes ++ x.left = content)
    (he : x.event result = some x') :
    ∃ bytes, Holds x'.reader bytes ∧ bytes ++ x'.left = content := by
  obtain ⟨bytes, hholds, hall⟩ := h
  obtain ⟨data, as, hevent, -, hleft, -⟩ := event_cases he
  refine ⟨bytes ++ x.reader.delivered result data, hholds.event hevent, ?_⟩
  rw [List.append_assoc, hleft, hall]

/-- A step that is no short read loses nothing. -/
theorem OnFile.Whole.event {content : List UInt8} {x x' : OnFile} {result : Int}
    (h : x.Whole content) (hshort : ¬ x.ShortRead result) (he : x.event result = some x') :
    x'.Whole content := by
  refine ⟨held_event h.1 he, fun hend => ?_⟩
  obtain ⟨⟨bytes, hholds, -⟩, hleft⟩ := h
  obtain ⟨data, as, hevent, hactions, -, hsame, hdrop⟩ := event_cases he
  have hclosing : x.reader.pending = some .close → x'.left = [] := by
    intro hp
    have hreads : ¬ x.Reads result := by
      rintro ⟨hread, -⟩
      rw [hp] at hread
      cases hread
    rw [hsame hreads]
    exact hleft (.inl hp)
  rcases hend with hend | hend
  · -- the reader goes on to close its file: the read it ends has reached the end
    obtain ⟨hp, hpos, hlt⟩ := (hholds.pending_event hevent).mp hend
    rw [hdrop ⟨hp, hpos⟩, List.drop_eq_nil_iff]
    have hnot : ¬ result < x.left.length := fun hless => hshort ⟨⟨hp, hpos⟩, hlt, hless⟩
    omega
  · rw [hactions, List.mem_append] at hend
    rcases hend with hend | hend
    · -- the file has been closed already, so nothing is read
      by_cases hreads : x.Reads result
      · rw [hdrop hreads, hleft (.inr hend), List.drop_nil]
      · rw [hsame hreads]
        exact hleft (.inr hend)
    · exact hclosing ((event_onClose hevent).mp hend)

/-- A short read ends the reading before the end of the file. -/
theorem OnFile.Whole.cut {content : List UInt8} {x x' : OnFile} {result : Int}
    (h : x.Whole content) (hshort : x.ShortRead result) (he : x.event result = some x') :
    x'.Cut content := by
  obtain ⟨hreads, hlt, hless⟩ := hshort
  obtain ⟨⟨bytes, hholds, -⟩, -⟩ := id h
  obtain ⟨data, as, hevent, -, -, -, hdrop⟩ := event_cases he
  have hp := (hholds.pending_event hevent).mpr ⟨hreads.1, hreads.2, hlt⟩
  refine ⟨held_event h.1 he, ?_, by rw [hp]; simp, by rw [hp]; simp⟩
  have hpos := hreads.2
  rw [hdrop hreads, ne_eq, List.drop_eq_nil_iff]
  omega

/-- Nothing more is read then. -/
theorem OnFile.Cut.event {content : List UInt8} {x x' : OnFile} {result : Int}
    (h : x.Cut content) (he : x.event result = some x') : x'.Cut content := by
  obtain ⟨hheld, hleft, hopen, hread⟩ := h
  obtain ⟨data, as, hevent, -, -, hsame, -⟩ := event_cases he
  have hreads : ¬ x.Reads result := fun hr => hread hr.1
  have hclose : x.reader.pending = some .close := by
    have hsome := pending_of_event hevent
    cases hp : x.reader.pending with
    | none => exact absurd hp hsome
    | some req =>
      cases req with
      | «open» => exact absurd hp hopen
      | read => exact absurd hp hread
      | close => rfl
  have hnone : x'.reader.pending = none := by
    rcases FileReader.event_cases hevent with ⟨-, hdone, -⟩ | ⟨hgoes, -⟩
    · exact hdone
    · exact absurd hclose hgoes
  exact ⟨held_event hheld he, by rw [hsame hreads]; exact hleft, by rw [hnone]; simp,
    by rw [hnone]; simp⟩

/-- **The whole file.**  When `m_onClose` is called, the buffers hold exactly the content of the
    file if and only if no read has returned less than its buffer holds and less than was left. -/
theorem content_iff (path content : List UInt8) {results : List Int} {x : OnFile}
    (h : fileMachine.exec (.fileRead path content) results = some x)
    (hclose : .onClose ∈ x.actions) :
    x.reader.appendToBuff.flatten = content ↔
      fileMachine.AllSteps (fun x result => ¬ x.ShortRead result) (.fileRead path content)
        results := by
  have hstart : (OnFile.fileRead path content).Whole content := by
    refine ⟨⟨[], .fileRead path, rfl⟩, fun hend => ?_⟩
    simp [OnFile.fileRead, FileReader.fileRead] at hend
  rcases fileMachine.exec_dichotomy (fun x result x' hI hP he => OnFile.Whole.event hI hP he)
    (fun x result x' hI hP he => OnFile.Whole.cut hI (not_not.mp hP) he)
    (fun x result x' hB he => OnFile.Cut.event hB he) hstart h with
    ⟨⟨⟨bytes, hholds, hall⟩, hend⟩, hsteps⟩ | ⟨⟨⟨bytes, hholds, hall⟩, hleft, -⟩, hsteps⟩
  · refine iff_of_true ?_ hsteps
    rw [hend (.inr hclose), List.append_nil] at hall
    rw [hholds.flatten, hall]
  · refine iff_of_false (fun heq => hleft ?_) hsteps
    rw [hholds.flatten, ← hall] at heq
    exact List.self_eq_append_right.mp heq

/-- A file of two bytes that is read in one go. -/
theorem content_iff_two :
    ∃ x, fileMachine.exec (.fileRead [0x66] [0x61, 0x62]) [3, 2, 0] = some x ∧
      x.reader.appendToBuff.flatten = [0x61, 0x62] := by
  have hrun : ∃ x, fileMachine.exec (.fileRead [0x66] [0x61, 0x62]) [3, 2, 0] = some x ∧
      .onClose ∈ x.actions := ⟨_, rfl, by decide⟩
  obtain ⟨x, hx, hclose⟩ := hrun
  exact ⟨x, hx, (content_iff [0x66] [0x61, 0x62] hx hclose).mpr (by decide)⟩

/-- The first read of the same file returns one byte: the other one is never asked for. -/
theorem shortRead_truncates :
    ∃ x, fileMachine.exec (.fileRead [0x66] [0x61, 0x62]) [3, 1, 0] = some x ∧
      .onClose ∈ x.actions ∧ x.reader.appendToBuff.flatten = [0x61] :=
  ⟨_, rfl, by decide, by decide⟩

/-! ### The descriptor -/

/-- The descriptors a reader has been given. -/
def opened (fds : List Int) (x : FileReader × List FsAction) (l : Int × List UInt8) : List Int :=
  if x.1.pending = some .open ∧ 0 ≤ l.1 then fds ++ [l.1] else fds

/-- Before the last callback, `uv_fs_close` is called once for each descriptor. -/
def DescriptorsClosed (fds : List Int) (actions : List FsAction) : Prop :=
  ∀ front a back, actions = front ++ a :: back → a.isCallback = true →
    (∀ b ∈ back, b.isCallback = false) → ∀ fd ∈ fds, front.count (.fsClose fd) = 1

/-- A read is in flight and fails. -/
def ReadFails (r : FileReader) (result : Int) : Prop := r.pending = some .read ∧ result < 0

instance (r : FileReader) (result : Int) : Decidable (r.ReadFails result) := by
  unfold ReadFails; infer_instance

/-- No callback has been called, and the descriptors are those of the file that is open. -/
structure AtWork (r : FileReader) (actions : List FsAction) (fds : List Int) : Prop where
  quiet : ∀ a ∈ actions, a.isCallback = false
  opening : r.pending = some .open → fds = [] ∧ ∀ fd, .fsClose fd ∉ actions
  reading : r.pending = some .read →
    (∃ fd, r.fd = some fd ∧ fds = [fd]) ∧ ∀ fd, .fsClose fd ∉ actions
  closing : r.pending = some .close → ∀ fd ∈ fds, actions.count (.fsClose fd) = 1

/-- The reader is at work, or the file has been closed as it should. -/
def ClosesFile (x : (FileReader × List FsAction) × List Int) : Prop :=
  x.1.1.pending ≠ none ∧ AtWork x.1.1 x.1.2 x.2 ∨
    x.1.1.pending = none ∧ DescriptorsClosed x.2 x.1.2

/-- The reader is done, and its file has not been closed. -/
def LeaksFile (x : (FileReader × List FsAction) × List Int) : Prop :=
  x.1.1.pending = none ∧ ¬ DescriptorsClosed x.2 x.1.2

/-- The last callback stands at the end. -/
theorem descriptorsClosed_concat {fds : List Int} {actions : List FsAction} {a : FsAction}
    (ha : a.isCallback = true) :
    DescriptorsClosed fds (actions ++ [a]) ↔ ∀ fd ∈ fds, actions.count (.fsClose fd) = 1 := by
  constructor
  · intro h
    exact h actions a [] rfl ha fun b hb => absurd hb List.not_mem_nil
  · intro h front b back heq hb hback
    -- a callback with none behind it is the one at the end
    have hnil : back = [] := by
      rcases List.eq_nil_or_concat back with hnil | ⟨back', c, rfl⟩
      · exact hnil
      · rw [List.concat_eq_append, ← List.cons_append, ← List.append_assoc] at heq
        obtain ⟨-, hc⟩ := List.append_inj' heq rfl
        have hquiet := hback a (by rw [List.concat_eq_append, List.cons.inj hc |>.1]; simp)
        rw [ha] at hquiet
        cases hquiet
    subst hnil
    obtain ⟨rfl, -⟩ := List.append_inj' heq rfl
    exact h

/-- A request is made. -/
theorem quiet_concat {actions : List FsAction} {a : FsAction}
    (h : ∀ b ∈ actions, b.isCallback = false) (ha : a.isCallback = false) :
    ∀ b ∈ actions ++ [a], b.isCallback = false := by
  intro b hb
  rcases List.mem_append.mp hb with hb | hb
  · exact h b hb
  · rw [List.mem_singleton.mp hb]
    exact ha

theorem not_mem_concat {actions : List FsAction} {a : FsAction}
    (h : ∀ fd, .fsClose fd ∉ actions) (ha : ∀ fd, .fsClose fd ≠ a) (fd : Int) :
    .fsClose fd ∉ actions ++ [a] := by
  intro hmem
  rcases List.mem_append.mp hmem with hmem | hmem
  · exact h fd hmem
  · exact ha fd (List.mem_singleton.mp hmem)

/-- **One request ends.**  A reader at work goes on as it should, or is done with its file closed,
    unless a read fails. -/
theorem ClosesFile.step {x x' : (FileReader × List FsAction) × List Int} {l : Int × List UInt8}
    (h : ClosesFile x) (hl : (readerMachine.noting opened).step x l = some x') :
    ¬ x.1.1.ReadFails l.1 ∧ ClosesFile x' ∨ x.1.1.ReadFails l.1 ∧ LeaksFile x' := by
  obtain ⟨⟨r, actions⟩, fds⟩ := x
  obtain ⟨⟨r', actions'⟩, fds'⟩ := x'
  obtain ⟨hstep, rfl⟩ := readerMachine.noting_step_eq_some.mp hl
  obtain ⟨⟨r₁, as⟩, he, heq⟩ := Option.map_eq_some_iff.mp hstep
  obtain ⟨rfl, rfl⟩ := Prod.mk.inj heq
  have hwork : AtWork r actions fds := by
    rcases h with ⟨-, hwork⟩ | ⟨hnone, -⟩
    · exact hwork
    · exact absurd hnone (pending_of_event he)
  obtain ⟨hquiet, hopening, hreading, hclosing⟩ := hwork
  dsimp only at he ⊢
  unfold FileReader.event at he
  cases hp : r.pending with
  | none => simp [hp] at he
  | some req =>
    cases req with
    | «open» =>
      obtain ⟨hnil, hnone⟩ := hopening hp
      have hfails : ¬ r.ReadFails l.1 := fun hf => by simp [ReadFails, hp] at hf
      simp only [hp, onOpen] at he
      refine .inl ⟨hfails, ?_⟩
      subst hnil
      split at he
      · -- nothing has been opened
        rename_i hneg
        cases he
        have hopened : opened [] (r, actions) l = [] := if_neg fun h => Int.not_lt.mpr h.2 hneg
        rw [hopened]
        exact .inr ⟨rfl, (descriptorsClosed_concat rfl).mpr fun fd hfd =>
          absurd hfd List.not_mem_nil⟩
      · rename_i hpos
        cases he
        have hopened : opened [] (r, actions) l = [l.1] := if_pos ⟨hp, Int.not_lt.mp hpos⟩
        rw [hopened]
        exact .inl ⟨by simp, quiet_concat hquiet rfl, by simp,
          fun _ => ⟨⟨l.1, rfl, rfl⟩, not_mem_concat hnone (by simp)⟩, by simp⟩
    | read =>
      obtain ⟨⟨fd, hfd, rfl⟩, hnone⟩ := hreading hp
      have hopened : opened [fd] (r, actions) l = [fd] := if_neg fun h => by simp [hp] at h
      rw [hopened]
      simp only [hp] at he
      split at he
      · unfold FileReader.onRead at he
        by_cases hneg : l.1 < 0
        · -- the read fails: the file stays open
          simp only [if_pos hneg] at he
          cases he
          refine .inr ⟨⟨hp, hneg⟩, rfl, ?_⟩
          rw [descriptorsClosed_concat rfl]
          intro hcount
          have hzero : actions.count (.fsClose fd) = 0 := List.count_eq_zero.mpr (hnone fd)
          rw [hcount fd List.mem_cons_self] at hzero
          cases hzero
        · refine .inl ⟨fun hf => hneg hf.2, .inl ?_⟩
          simp only [if_neg hneg, hfd] at he
          split at he
          · cases he
            exact ⟨by simp, quiet_concat hquiet rfl, by simp,
              fun _ => ⟨⟨fd, rfl, rfl⟩, not_mem_concat hnone (by simp)⟩, by simp⟩
          · cases he
            refine ⟨by simp, quiet_concat hquiet rfl, by simp, by simp, fun _ fd' hfd' => ?_⟩
            obtain rfl := List.mem_singleton.mp hfd'
            have hzero : actions.count (.fsClose fd') = 0 := List.count_eq_zero.mpr (hnone fd')
            rw [List.count_append, hzero]
            simp
      · cases he
    | close =>
      have hcount := hclosing hp
      have hfails : ¬ r.ReadFails l.1 := fun hf => by simp [ReadFails, hp] at hf
      have hopened : opened fds (r, actions) l = fds := if_neg fun h => by simp [hp] at h
      rw [hopened]
      simp only [hp, onClose] at he
      refine .inl ⟨hfails, .inr ?_⟩
      split at he
      · cases he
        have hclosed : ∀ fd ∈ fds, (actions ++ [FsAction.onError]).count (.fsClose fd) = 1 := by
          intro fd hfd
          rw [List.count_append, hcount fd hfd]
          simp
        have hlast := (descriptorsClosed_concat (a := .onClose) rfl).mpr hclosed
        rw [List.append_assoc] at hlast
        exact ⟨rfl, hlast⟩
      · cases he
        exact ⟨rfl, (descriptorsClosed_concat rfl).mpr hcount⟩

/-- **The file is closed.**  In every run of a reader, `uv_fs_close` has been called exactly once
    for each descriptor that it was given when its last callback is called, if and only if no
    read has failed. -/
theorem closedOnce_iff (path : List UInt8) {ls : List (Int × List UInt8)}
    {x : FileReader × List FsAction} {fds : List Int}
    (h : (readerMachine.noting opened).exec (fileRead path, []) ls = some (x, fds)) :
    DescriptorsClosed fds x.2 ↔
      readerMachine.AllSteps (fun x l => ¬ x.1.ReadFails l.1) (fileRead path) ls := by
  have hstart : ClosesFile (fileRead path, []) := by
    refine .inl ⟨by simp [fileRead], by simp [fileRead, FsAction.isCallback],
      fun _ => ⟨rfl, by simp [fileRead]⟩, by simp [fileRead], by simp [fileRead]⟩
  rw [← readerMachine.allSteps_noting opened (fileRead path, []) ls]
  refine (readerMachine.noting opened).exec_iff_allSteps (I := ClosesFile) (B := LeaksFile)
    (Q := fun x => DescriptorsClosed x.2 x.1.2)
    (fun x l x' hI hP hl => ((ClosesFile.step hI hl).resolve_right fun hb => hP hb.1).2)
    (fun x l x' hI hP hl => ((ClosesFile.step hI hl).resolve_left fun hb => hP hb.1).2)
    (fun x l x' hB hl => ?_) (fun x hI => ?_) (fun x hB => hB.2) hstart h
  · obtain ⟨hstep, -⟩ := readerMachine.noting_step_eq_some.mp hl
    obtain ⟨y, he, -⟩ := Option.map_eq_some_iff.mp hstep
    exact absurd hB.1 (pending_of_event he)
  · rcases hI with ⟨-, hwork⟩ | ⟨-, hclosed⟩
    · -- there has been no callback yet
      intro front a back heq ha
      have hmem : a ∈ x.1.2 := by rw [heq]; simp
      rw [hwork.quiet a hmem] at ha
      cases ha
    · exact hclosed

/-- A file that is read and closed. -/
theorem closedOnce_iff_read :
    ∃ x, (readerMachine.noting opened).exec (fileRead [0x66], [])
        [(3, []), (1, [0x61]), (0, [])] = some (x, [3]) ∧ DescriptorsClosed [3] x.2 :=
  ⟨_, rfl, (closedOnce_iff [0x66] (by rfl)).mpr (by decide : readerMachine.AllSteps
    (fun x l => ¬ x.1.ReadFails l.1) (fileRead [0x66]) [(3, []), (1, [0x61]), (0, [])])⟩

/-- The first read fails: `m_onError` is called, and descriptor 3 has not been closed. -/
theorem readFailure_leaks :
    ∃ x, (readerMachine.noting opened).exec (fileRead [0x66], []) [(3, []), (-5, [])] =
        some (x, [3]) ∧
      x.2 = [.fsOpen [0x66], .fsRead 3 1024] ++ [.onError] ∧ ¬ DescriptorsClosed [3] x.2 := by
  refine ⟨_, rfl, rfl, fun h => ?_⟩
  exact absurd (h [.fsOpen [0x66], .fsRead 3 1024] .onError [] rfl rfl (by simp) 3 (by simp))
    (by decide)

end FileReader

end MyWebSocket
