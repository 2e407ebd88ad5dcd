import MyWebSocket.HttpParser.FieldLines

namespace MyWebSocket

open Transducer Transducer.Outcome Numerals

/-!
# Payloads are parsed as they are sent

* `reports_chunkLine`, `reports_chunk`, `reports_chunks` — a body in chunks;
* `Completes` — the last byte of a request, with which the loop may be left;
* `completes_identity`, `completes_trailer` — the end of a body with a length, and of one in chunks.
-/

namespace RequestParser

variable {st : ParserState} {u : Bool} {m : ParserMembers} {n : Nat} {rest : Bytes}

/-! ### Chunk sizes -/

/-- A digit of a chunk size. -/
def sizeChar (v : Nat) (ch : UInt8) : Option Nat :=
  if IsHex ch then
    if (ullongMax - 16) / 16 < v then none else some (v * 16 + hexDigit ch)
  else none

theorem IsHex.value {c : UInt8} (h : IsHex c) : unhex c = some (hexDigit c) := by
  obtain ⟨v, hv⟩ := Option.isSome_iff_exists.mp h.2
  rw [hexDigit, hv]
  rfl

theorem IsHex.spec {c : UInt8} (h : IsHex c) : c ≠ 0x0D ∧ hexDigit c < 16 := by
  refine ⟨?_, ?_⟩
  · rintro rfl
    exact absurd h.2 (by decide)
  · exact Nat.lt_succ_of_le (unhex_le h.value)

theorem foldlM_sizeChar {v : Nat} {ds : Bytes} (hds : ∀ c ∈ ds, IsHex c) :
    ds.foldlM sizeChar v = guarded 16 ((ullongMax - 16) / 16) v (ds.map hexDigit) := by
  induction ds generalizing v with
  | nil => rfl
  | cons c ds ih =>
    rw [List.foldlM_cons, List.map_cons, guarded_cons, sizeChar, if_pos (hds c List.mem_cons_self)]
    split
    · rfl
    · exact ih fun b hb => hds b (List.mem_cons_of_mem c hb)

theorem byteStep_sizeChar (hchunked : m.flags.chunked = true) {v v' : Nat} {ch : UInt8}
    (hn : n < maxHeaderSize) (h : sizeChar v ch = some v') :
    byteStep (parserAt .chunkSize u { m with contentLength := v } n) ch =
      (parserAt .chunkSize u { m with contentLength := v' } (n + 1), [.move [ch]], none) := by
  unfold sizeChar at h
  split at h
  · rename_i hhex
    split at h
    · cases h
    · rename_i hlimit
      cases h
      have hlarge : (ullongMax - 16) / 16 = 1152921504606846974 := by decide
      have hdigit := hhex.spec.2
      have hwrap : (v * 16 + hexDigit ch) % 2 ^ 64 = v * 16 + hexDigit ch :=
        Nat.mod_eq_of_lt (by omega)
      have hcase : chunkSizeCase (parserAt .chunkSize u { m with contentLength := v } (n + 1)) ch =
          next (parserAt .chunkSize u { m with contentLength := v * 16 + hexDigit ch }
            (n + 1)) := by
        have hflag : ¬(parserAt .chunkSize u { m with contentLength := v }
            (n + 1)).others.flags.chunked = false := (Bool.not_eq_false _).mpr hchunked
        have hlimit' : ¬(ullongMax - 16) / 16 < (parserAt .chunkSize u { m with contentLength := v }
            (n + 1)).others.contentLength := hlimit
        rw [chunkSizeCase, if_neg hflag, if_neg hhex.spec.1, hhex.value]
        dsimp only
        rw [if_neg hlimit', ← hwrap]
        rfl
      rw [byteStep_parserAt _ rfl rfl hn]
      exact congrArg (passed ch) hcase
  · cases h

/-- **A chunk size.** -/
theorem reports_chunkSize {size : Bytes} (hne : size ≠ []) (hhex : ∀ c ∈ size, IsHex c)
    (hlimit : hexNumber size ≤ 18446744073709551599) (hchunked : m.flags.chunked = true)
    (hn : size.length ≤ maxHeaderSize) (rest : Bytes) :
    Reports (parserAt .chunkSizeStart u m 0) size rest []
      (parserAt .chunkSize u { m with contentLength := hexNumber size } size.length) := by
  obtain ⟨c, ds, rfl⟩ := List.exists_cons_of_ne_nil hne
  have hfirst := hhex c List.mem_cons_self
  have hds : ∀ b ∈ ds, IsHex b := fun b hb => hhex b (List.mem_cons_of_mem c hb)
  rw [List.length_cons] at hn ⊢
  -- the size is not too large for the last multiplication
  have hvalue : hexNumber (c :: ds) = horner 16 (hexDigit c) (ds.map hexDigit) := by
    rw [hexNumber, ← horner_eq_ofDigits, List.map_cons, horner_cons, Nat.zero_mul, Nat.zero_add]
  have hdigit : ∀ d ∈ ds.map hexDigit, d < 16 := by
    intro d hd
    obtain ⟨b, hb, rfl⟩ := List.mem_map.mp hd
    exact (hds b hb).spec.2
  have hlarge : (ullongMax - 16) / 16 = 1152921504606846974 := by decide
  have hfold : ds.foldlM sizeChar (hexDigit c) = some (hexNumber (c :: ds)) := by
    rw [foldlM_sizeChar hds, guarded_eq (by omega) hdigit, ← hvalue, if_pos (.inr (by omega))]
  have hstep : byteStep (parserAt .chunkSizeStart u m 0) c =
      (parserAt .chunkSize u { m with contentLength := hexDigit c } 1, [.move [c]], none) := by
    have hasserts : ¬((parserAt .chunkSizeStart u m 1).others.nread ≠ 1 ∨
        (parserAt .chunkSizeStart u m 1).others.flags.chunked = false) := by
      rw [not_or, not_not, Bool.not_eq_false]
      exact ⟨rfl, hchunked⟩
    have hcase : chunkSizeStartCase (parserAt .chunkSizeStart u m 1) c =
        next (parserAt .chunkSize u { m with contentLength := hexDigit c } 1) := by
      rw [chunkSizeStartCase, if_neg hasserts, hfirst.value]
      rfl
    rw [byteStep_parserAt _ rfl rfl (by decide)]
    exact congrArg (passed c) hcase
  have hrun := run_of_foldlM byteMachine
    (fun v n => parserAt .chunkSize u { m with contentLength := v } n) (fun b => [.move [b]])
    maxHeaderSize (fun _ _ _ _ hk hchar => byteStep_sizeChar hchunked hk hchar) hfold
    (show 1 + ds.length ≤ maxHeaderSize by omega)
  rw [Nat.add_comm 1] at hrun
  exact .cons hstep (.moves hrun rest)

/-- What may stand behind a chunk size. -/
theorem reports_extension {ext : Bytes} (hchunked : m.flags.chunked = true)
    (hline : ∀ c ∈ ext, c ≠ 0x0D) (hn : n + ext.length < maxHeaderSize) (rest : Bytes) :
    Reports (parserAt .chunkParameters u m n) (ext ++ [0x0D]) rest []
      (parserAt .chunkSizeAlmostDone u m (n + ext.length + 1)) := by
  have hflag : ∀ k, ¬(parserAt .chunkParameters u m k).others.flags.chunked = false := fun _ =>
    (Bool.not_eq_false _).mpr hchunked
  induction ext generalizing n with
  | nil =>
    have hcase : chunkParametersCase (parserAt .chunkParameters u m (n + 1)) 0x0D =
        next (parserAt .chunkSizeAlmostDone u m (n + 1)) := by
      rw [chunkParametersCase, if_neg (hflag _)]
      rfl
    exact reports_goTo .chunkParameters _ rfl rfl hn hcase (.refl _ rest)
  | cons c ext ih =>
    rw [List.length_cons] at hn ⊢
    have hcase : chunkParametersCase (parserAt .chunkParameters u m (n + 1)) c =
        next (parserAt .chunkParameters u m (n + 1)) := by
      rw [chunkParametersCase, if_neg (hflag _), if_neg (hline c List.mem_cons_self)]
    have hrest := ih (n := n + 1) (fun b hb => hline b (List.mem_cons_of_mem c hb)) (by omega)
    rw [show n + 1 + ext.length + 1 = n + (ext.length + 1) + 1 by omega] at hrest
    exact reports_goTo .chunkParameters _ rfl rfl (by omega) hcase hrest

/-- The end of a chunk size, with what may stand behind it. -/
theorem reports_sizeEnd {ext : Bytes} (hchunked : m.flags.chunked = true)
    (hfirst : ∀ c ∈ ext.head?, c = 0x3B ∨ c = 0x20) (hline : ∀ c ∈ ext, c ≠ 0x0D)
    (hn : n + ext.length < maxHeaderSize) (rest : Bytes) :
    Reports (parserAt .chunkSize u m n) (ext ++ [0x0D]) rest []
      (parserAt .chunkSizeAlmostDone u m (n + ext.length + 1)) := by
  have hflag : ¬(parserAt .chunkSize u m (n + 1)).others.flags.chunked = false :=
    (Bool.not_eq_false _).mpr hchunked
  cases ext with
  | nil =>
    have hcase : chunkSizeCase (parserAt .chunkSize u m (n + 1)) 0x0D =
        next (parserAt .chunkSizeAlmostDone u m (n + 1)) := by
      rw [chunkSizeCase, if_neg hflag]
      rfl
    exact reports_goTo .chunkSize _ rfl rfl hn hcase (.refl _ rest)
  | cons c ext =>
    rw [List.length_cons] at hn ⊢
    have hcase : chunkSizeCase (parserAt .chunkSize u m (n + 1)) c =
        next (parserAt .chunkParameters u m (n + 1)) := by
      have hc := hfirst c rfl
      have hnone : unhex c = none := by
        rcases hc with rfl | rfl <;> decide
      rw [chunkSizeCase, if_neg hflag, if_neg (hline c List.mem_cons_self), hnone]
      exact if_pos hc
    have hrest := reports_extension (u := u) (n := n + 1) hchunked
      (fun b hb => hline b (List.mem_cons_of_mem c hb)) (by omega) rest
    rw [show n + 1 + ext.length + 1 = n + (ext.length + 1) + 1 by omega] at hrest
    exact reports_goTo .chunkSize _ rfl rfl (by omega) hcase hrest

/-- The parser behind the line of a chunk. -/
def behindChunkLine (u : Bool) (m : ParserMembers) (size : Nat) : HttpParserData :=
  if size = 0 then
    parserAt .headerFieldStart u { m with contentLength := 0, flags.trailing := true } 0
  else parserAt .chunkData u { m with contentLength := size } 0

/-- **The line of a chunk.** -/
theorem reports_chunkLine {l : ChunkLine} {size : Nat} (hwf : l.Wf size)
    (hlimit : size ≤ 18446744073709551599) (hchunked : m.flags.chunked = true)
    (hn : l.text.length ≤ maxHeaderSize) (rest : Bytes) :
    Reports (parserAt .chunkSizeStart u m 0) l.text rest [] (behindChunkLine u m size) := by
  obtain ⟨hne, hhex, rfl, hfirst, hline⟩ := hwf
  have hlen : l.text.length = l.size.length + l.extension.length + 2 := by
    simp only [ChunkLine.text, List.length_append, List.length_cons, List.length_nil]
    omega
  rw [hlen] at hn
  have hsize := reports_chunkSize (u := u) hne hhex hlimit hchunked (by omega)
    (l.extension ++ [0x0D] ++ [0x0A] ++ rest)
  have hend := reports_sizeEnd (u := u) (n := l.size.length)
    (m := { m with contentLength := hexNumber l.size }) hchunked hfirst hline (by omega)
    ([0x0A] ++ rest)
  have hlf : Reports (parserAt .chunkSizeAlmostDone u { m with contentLength := hexNumber l.size }
      (l.size.length + l.extension.length + 1)) [0x0A] rest []
      (behindChunkLine u m (hexNumber l.size)) := by
    refine .step ?_ rest
    have hflag : ¬(parserAt .chunkSizeAlmostDone u { m with contentLength := hexNumber l.size }
        (l.size.length + l.extension.length + 1 + 1)).others.flags.chunked = false :=
      (Bool.not_eq_false _).mpr hchunked
    have hcase : chunkSizeAlmostDoneCase (parserAt .chunkSizeAlmostDone u
        { m with contentLength := hexNumber l.size }
        (l.size.length + l.extension.length + 1 + 1)) 0x0A =
        next (behindChunkLine u m (hexNumber l.size)) := by
      rw [chunkSizeAlmostDoneCase, if_neg hflag, if_neg (by decide), behindChunkLine]
      by_cases hzero : hexNumber l.size = 0
      · rw [if_pos hzero]
        refine (if_pos hzero).trans ?_
        rw [hzero]
        rfl
      · rw [if_neg hzero]
        exact if_neg hzero
    rw [byteStep_parserAt .chunkSizeAlmostDone rfl rfl (by omega)]
    exact congrArg (passed 0x0A) hcase
  have hall := hsize.append (hend.append hlf)
  rw [List.append_assoc l.extension] at hall
  exact hall

/-! ### Bodies -/

variable {p : HttpParserData} {data : Bytes}

/-- A body up to its last byte, and its last byte. -/
theorem passes_body (hst : p.state = .bodyIdentity ∨ p.state = .chunkData) (hinv : Inv p)
    (hne : data ≠ []) (hlen : p.others.contentLength = data.length) :
    ∃ w b, data = w ++ [b] ∧ (∀ rest, byteMachine.Passes p w (b :: rest)
        (w.flatMap fun b => [.mark .body, .move [b]]) (toCome p 1)) ∧
      byteStep (toCome p 1) b =
        Op.before (.mark .body) (Op.before (.move [b]) (bodyBehind (toCome p 0))) := by
  obtain ⟨w, b, rfl⟩ := (List.eq_nil_or_concat data).resolve_left hne
  rw [List.length_concat] at hlen
  have hrun := run_body hst hinv (w := w) (by omega)
  rw [show p.others.contentLength - w.length = 1 by omega] at hrun
  have hinv' := inv_toCome hst hinv Nat.one_ne_zero (by omega)
  exact ⟨w, b, List.concat_eq_append, fun rest => .of_run hrun _,
    byteStep_body (p := toCome p 1) hst hinv' b⟩

/-- The marks over a body. -/
theorem run_marks_body {w : Bytes} {b : UInt8} (os : List Op) :
    Marks.unset.run ((w.flatMap fun b => [.mark .body, .move [b]]) ++
        ([.mark .body, .move [b]] ++ os)) =
      Marks.unset.run ([.mark .body, .move (w ++ [b])] ++ os) := by
  have hall := (same_marks .body (show w ++ [b] ≠ [] by simp)).append (.refl os) Marks.unset
  rw [List.flatMap_append, List.append_assoc] at hall
  exact hall

theorem inv_body (hst : st = .bodyIdentity ∨ st = .chunkData ∧ m.flags.chunked = true)
    (hstrict : Strict m) (hpos : m.contentLength ≠ 0) (hlt : m.contentLength < ullongMax) :
    Inv (parserAt st u m 0) := by
  refine ⟨⟨rfl, Nat.zero_le _, hlt.le, hstrict.headers, hstrict.lengths⟩, ?_⟩
  rcases hst with rfl | ⟨rfl, hchunked⟩
  · exact ⟨hpos, hlt⟩
  · exact ⟨hchunked, hpos, hlt⟩

/-- **The data of a chunk**, and the end of its line. -/
theorem reports_chunkData (hstrict : Strict m) (hchunked : m.flags.chunked = true) (hne : data ≠ [])
    (hlt : data.length < ullongMax) (rest : Bytes) :
    Reports (parserAt .chunkData u { m with contentLength := data.length } 0) (data ++ [0x0D, 0x0A])
      rest [.body data] (parserAt .chunkSizeStart u { m with contentLength := 0 } 0) := by
  have hinv := inv_body (u := u) (m := { m with contentLength := data.length })
    (.inr ⟨rfl, hchunked⟩) ⟨hstrict.headers, hstrict.lengths⟩
    (List.length_pos_of_ne_nil hne).ne' hlt
  obtain ⟨w, b, hdata, hpass, hlast⟩ := passes_body (.inr rfl) hinv hne rfl
  rw [bodyBehind_chunk rfl] at hlast
  -- behind the data, the states do not count
  have hcr : byteStep (parserAt .chunkDataAlmostDone u { m with contentLength := 0 } 0) 0x0D =
      (parserAt .chunkDataDone u { m with contentLength := 0 } 0, [.data .body, .move [0x0D]],
        none) := by
    have hasserts : ¬((parserAt .chunkDataAlmostDone u { m with contentLength := 0 }
        0).others.flags.chunked = false ∨ (parserAt .chunkDataAlmostDone u
          { m with contentLength := 0 } 0).others.contentLength ≠ 0) := by
      rw [not_or, not_not, Bool.not_eq_false]
      exact ⟨hchunked, rfl⟩
    have hcase : chunkDataAlmostDoneCase
        (parserAt .chunkDataAlmostDone u { m with contentLength := 0 } 0) 0x0D =
        Op.before (.data .body)
          (next (parserAt .chunkDataDone u { m with contentLength := 0 } 0)) := by
      rw [chunkDataAlmostDoneCase, if_neg hasserts]
      rfl
    exact congrArg (passed 0x0D) hcase
  have hlf : byteStep (parserAt .chunkDataDone u { m with contentLength := 0 } 0) 0x0A =
      (parserAt .chunkSizeStart u { m with contentLength := 0 } 0, [.move [0x0A]], none) := by
    have hflag : ¬(parserAt .chunkDataDone u { m with contentLength := 0 } 0).others.flags.chunked =
        false := (Bool.not_eq_false _).mpr hchunked
    have hcase : chunkDataDoneCase (parserAt .chunkDataDone u { m with contentLength := 0 } 0)
        0x0A = next (parserAt .chunkSizeStart u { m with contentLength := 0 } 0) := by
      rw [chunkDataDoneCase, if_neg hflag]
      rfl
    exact congrArg (passed 0x0A) hcase
  have hall := (hpass ([0x0D] ++ [0x0A] ++ rest)).append
    ((Passes.of_step hlast ([0x0D] ++ [0x0A] ++ rest)).append
      ((Passes.of_step hcr ([0x0A] ++ rest)).append (.of_step hlf rest)))
  rw [← List.append_assoc w, ← hdata] at hall
  refine ⟨_, hall, (run_marks_body _).trans ?_⟩
  rw [← hdata]
  rfl

/-- **A chunk.** -/
theorem reports_chunk {c : Chunk} (hwf : c.Wf) (hstrict : Strict m)
    (hchunked : m.flags.chunked = true) (hn : c.line.text.length ≤ maxHeaderSize) (rest : Bytes) :
    Reports (parserAt .chunkSizeStart u m 0) c.text rest [.body c.data]
      (parserAt .chunkSizeStart u { m with contentLength := 0 } 0) := by
  obtain ⟨hline, hne, hlimit⟩ := hwf
  have hfirst := reports_chunkLine (u := u) hline hlimit hchunked hn
    (c.data ++ [0x0D, 0x0A] ++ rest)
  rw [behindChunkLine, if_neg (List.length_pos_of_ne_nil hne).ne'] at hfirst
  have hlt : c.data.length < ullongMax := by
    rw [show ullongMax = 18446744073709551615 from rfl]
    omega
  exact hfirst.append (reports_chunkData hstrict hchunked hne hlt rest)

/-- **Several chunks.** -/
theorem reports_chunks {chunks : List Chunk} (hwf : ∀ c ∈ chunks, c.Wf) (hstrict : Strict m)
    (hchunked : m.flags.chunked = true)
    (hn : ∀ c ∈ chunks, c.line.text.length ≤ maxHeaderSize) (rest : Bytes) :
    ∃ k, Reports (parserAt .chunkSizeStart u m 0) (chunks.flatMap Chunk.text) rest
      (chunks.map fun c => .body c.data)
      (parserAt .chunkSizeStart u { m with contentLength := k } 0) := by
  induction chunks generalizing m with
  | nil => exact ⟨m.contentLength, .refl _ rest⟩
  | cons c chunks ih =>
    have hfirst := reports_chunk (u := u) (hwf c List.mem_cons_self) hstrict hchunked
      (hn c List.mem_cons_self) (chunks.flatMap Chunk.text ++ rest)
    obtain ⟨k, hrest⟩ := ih (m := { m with contentLength := 0 })
      (fun c' hc' => hwf c' (List.mem_cons_of_mem c hc')) ⟨hstrict.headers, hstrict.lengths⟩
      hchunked fun c' hc' => hn c' (List.mem_cons_of_mem c hc')
    exact ⟨k, hfirst.append hrest⟩

/-! ### The end of a request -/

/-- In front of `rest`, the parser reads `w` and makes the callbacks `es`; behind the last byte it
    is `q`, and the loop is left where `halt` says so. -/
def Completes (p : HttpParserData) (w rest : Bytes) (es : List ReqEvent) (halt : Option Halt)
    (q : HttpParserData) : Prop :=
  ∃ v b os t os', w = v ++ [b] ∧ byteMachine.Passes p v (b :: rest) os t ∧
    byteStep t b = (q, os', halt) ∧ Marks.unset.run (os ++ os') = (Marks.unset, es)

variable {q r : HttpParserData} {w v : Bytes} {es es' : List ReqEvent} {halt : Option Halt}

/-- The last byte. -/
theorem Completes.of_step {b : UInt8} {os : List Op} (hstep : byteStep p b = (q, os, halt))
    (hos : Marks.unset.run os = (Marks.unset, es)) (rest : Bytes) :
    Completes p [b] rest es halt q :=
  ⟨[], b, [], p, os, rfl, .refl p _, hstep, hos⟩

/-- A part that comes before. -/
theorem Reports.completes (h : Reports p w (v ++ rest) es q) (h' : Completes q v rest es' halt r) :
    Completes p (w ++ v) rest (es ++ es') halt r := by
  obtain ⟨os, hpass, hmarks⟩ := h
  obtain ⟨v, b, os', t, os'', rfl, hpass', hstep, hmarks'⟩ := h'
  rw [List.append_assoc] at hpass
  refine ⟨w ++ v, b, os ++ os', t, os'', (List.append_assoc w v [b]).symm, hpass.append hpass',
    hstep, ?_⟩
  rw [List.append_assoc, Marks.run_append, hmarks, hmarks']

/-- The loop goes on. -/
theorem Completes.reports (h : Completes p w rest es none q) : Reports p w rest es q := by
  obtain ⟨v, b, os, t, os', rfl, hpass, hstep, hmarks⟩ := h
  exact ⟨os ++ os', hpass.append (.of_step hstep rest), hmarks⟩

/-- The loop is left. -/
theorem Completes.run {e : Halt} (h : Completes p w rest es (some e) q) :
    ∃ os, byteMachine.run p (w ++ rest) = ⟨q, os, some e, w.length - 1⟩ ∧
      Marks.unset.run os = (Marks.unset, es) := by
  obtain ⟨v, b, os, t, os', rfl, hpass, hstep, hmarks⟩ := h
  refine ⟨os ++ os', ?_, hmarks⟩
  rw [List.append_assoc, List.length_append]
  exact hpass.run_stop hstep

/-- How the loop goes on behind a request. -/
def behindRequest (u : Bool) : Option Halt := if u then some .exit else none

/-- The parser behind a request, with `n` bytes that still count. -/
def afterRequest (u : Bool) (m : ParserMembers) (n : Nat) : HttpParserData :=
  parserAt (newMessage m) u m n

/-- **A body with a length.** -/
theorem completes_identity (hstrict : Strict m) (hlen : m.contentLength = data.length)
    (hne : data ≠ []) (hlt : data.length < ullongMax) (rest : Bytes) :
    Completes (parserAt .bodyIdentity u m 0) data rest [.body data, .messageComplete u]
      (behindRequest u) (afterRequest u { m with contentLength := 0 } 0) := by
  have hinv := inv_body (u := u) (m := m) (.inl rfl) hstrict
    (hlen ▸ (List.length_pos_of_ne_nil hne).ne') (hlen ▸ hlt)
  obtain ⟨w, b, hdata, hpass, hlast⟩ := passes_body (.inl rfl) hinv hne hlen
  rw [bodyBehind_identity rfl] at hlast
  refine ⟨w, b, _, _, _, hdata, hpass rest, hlast, (run_marks_body _).trans ?_⟩
  rw [← hdata]
  cases u <;> rfl

/-- **The lines behind the last chunk.** -/
theorem completes_trailer {ls : List FieldLine} {m₀ : ParserMembers} (hwf : LinesWf m₀ ls)
    (hm : clear m = m₀) (htrailing : (linesEffect m₀ ls).flags.trailing = true)
    (hn : n + (linesText ls ++ [0x0D, 0x0A]).length ≤ maxHeaderSize) (rest : Bytes) :
    ∃ m', clear m' = linesEffect m₀ ls ∧
      Completes (parserAt .headerFieldStart u m n) (linesText ls ++ [0x0D, 0x0A]) rest
        (linesEvents ls ++ [.messageComplete u]) (behindRequest u)
        (afterRequest u m' (n + (linesText ls ++ [0x0D, 0x0A]).length)) := by
  have hlen : (linesText ls ++ [0x0D, 0x0A]).length = (linesText ls).length + 2 :=
    List.length_append
  rw [hlen] at hn ⊢
  obtain ⟨m', hm', hlines⟩ := reports_lines (u := u) (n := n) hwf hm (by omega)
    (show LineStart ([0x0D, 0x0A] ++ rest) from ⟨0x0D, 0x0A :: rest, rfl, by decide⟩)
  refine ⟨m', hm', hlines.completes ?_⟩
  have htrailing' : m'.flags.trailing = true := by
    rw [← hm'] at htrailing
    exact htrailing
  have hcr := reports_goTo .headerFieldStart 0x0D (u := u) (m := m') rfl rfl
    (show n + (linesText ls).length < maxHeaderSize by omega) rfl (.refl _ ([0x0A] ++ rest))
  have hcase : headersAlmostDoneCase
      (parserAt .headersAlmostDone u m' (n + (linesText ls).length + 1 + 1)) 0x0A =
      completeMessage (parserAt .messageDone u m' (n + (linesText ls).length + 1 + 1))
        (behindRequest u) := by
    rw [headersAlmostDoneCase, if_neg (by decide)]
    exact if_pos htrailing'
  have hstep : byteStep (parserAt .headersAlmostDone u m' (n + (linesText ls).length + 1)) 0x0A =
      (afterRequest u m' (n + ((linesText ls).length + 2)),
        .notify (.messageComplete u) :: (if u then [] else [.move [0x0A]]), behindRequest u) := by
    rw [byteStep_parserAt .headersAlmostDone rfl rfl (by omega)]
    refine (congrArg (passed 0x0A) hcase).trans ?_
    cases u <;> rfl
  have hend : Completes _ [0x0A] rest [.messageComplete u] (behindRequest u) _ :=
    .of_step hstep (by cases u <;> rfl) rest
  exact hcr.completes hend

end RequestParser

end MyWebSocket
