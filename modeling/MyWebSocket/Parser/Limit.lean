import MyWebSocket.Parser.Acceptance

namespace MyWebSocket

open Transducer Transducer.Outcome

/-!
# The payload limit

`parse` compares `LIMIT_PAYLOAD_LEN` with the declared length of the frame it is reading, while
`frame->payload` collects the fragments of a message and whatever frames do not reset it.

* `Progress` — the message in progress as the frames of a stream make it: whether it is still
  open, and how many bytes its fragments have brought;
* `payload_within_iff` — no state between two calls holds more than the limit, in any chunking,
  if and only if the fragments of no message bring more than that.
-/

/-! ### The message in progress -/

/-- What has come of the message in progress: whether another fragment is to follow, and the
    number of bytes. -/
structure Progress where
  isOpen : Bool
  size : Nat
deriving DecidableEq, Repr

namespace Progress

/-- The size when a header has been read.  Only a non-zero opcode outside a message starts a new
    one. -/
def begin (p : Progress) (hd : Header) : Nat := if !p.isOpen && hd.opcode != 0 then 0 else p.size

/-- What one frame makes of it. -/
def step (p : Progress) (f : Frame) : Progress :=
  { isOpen := !f.fin, size := p.begin f.header + f.payload.length }

/-- What several frames make of it. -/
def after (p : Progress) (fs : List Frame) : Progress := fs.foldl step p

/-- Wherever the stream is cut in the payload of a frame, no more than the limit has come of the
    message in progress. -/
def Fits (p : Progress) (bs : List UInt8) : Prop :=
  ∀ fs hd part rest, bs = encodeFrames fs ++ (encodeHeader hd ++ (part ++ rest)) →
    (∀ f ∈ fs, f.payload.length ≤ limitPayloadLen) → part.length ≤ hd.len →
    hd.len ≤ limitPayloadLen → (p.after fs).begin hd + part.length ≤ limitPayloadLen

theorem begin_le (p : Progress) (hd : Header) : p.begin hd ≤ p.size := by
  unfold begin
  split
  · exact Nat.zero_le _
  · exact Nat.le_refl _

/-- Frames bring no more than their bytes. -/
theorem after_size_le (p : Progress) (fs : List Frame) :
    (p.after fs).size ≤ p.size + (encodeFrames fs).length := by
  induction fs generalizing p with
  | nil => exact Nat.le_add_right _ _
  | cons f fs ih =>
    have hstep : (p.step f).size ≤ p.size + f.payload.length :=
      Nat.add_le_add_right (p.begin_le f.header) _
    have henc : (encodeFrames (f :: fs)).length =
        (encodeHeader f.header).length + f.payload.length + (encodeFrames fs).length := by
      simp [encodeFrames, encodeFrame, Nat.add_assoc]
    have hrest := ih (p.step f)
    show ((p.step f).after fs).size ≤ _
    omega

/-- A stream no longer than the limit fits. -/
theorem fits_of_length {p : Progress} {bs : List UInt8}
    (h : p.size + bs.length ≤ limitPayloadLen) : p.Fits bs := by
  rintro fs hd part rest rfl - - -
  have hsize := p.after_size_le fs
  have hbegin := (p.after fs).begin_le hd
  simp only [List.length_append] at h
  omega

end Progress

/-- The message in progress as parser and frame have it. -/
def ParseState.progress (s : ParseState) : Progress :=
  ⟨s.parser.isContinuation, s.frame.payload.length⟩

theorem afterHeader_payload_length (s : ParseState) (hd : Header) :
    (afterHeader s hd).frame.payload.length = s.progress.begin hd := by
  simp only [afterHeader, starts_eq, Progress.begin, ParseState.progress]
  rw [apply_ite List.length]
  rfl

/-- **Simulation.**  Parser and frame follow the frames. -/
theorem frameSteps_progress (s : ParseState) (fs : List Frame) :
    (frameSteps s fs).1.progress = s.progress.after fs := by
  induction fs generalizing s with
  | nil => rfl
  | cons f fs ih =>
    have hstep : (frameStep s f).1.progress = s.progress.step f := by
      have hlen : (completed s f).payload.length = s.progress.begin f.header + f.payload.length := by
        rw [completed, List.length_append, afterHeader_payload_length]
      exact congrArg (Progress.mk (!f.fin)) hlen
    show (frameSteps (frameStep s f).1 fs).1.progress = (s.progress.step f).after fs
    rw [ih, hstep]

/-! ### The payload in the middle of a frame -/

/-- Some payload bytes of a frame within the limit. -/
theorem run_part {s : ParseState} (hs : Idle s) {hd : Header} {part : List UInt8}
    (hlen : part.length ≤ hd.len) (hlim : hd.len ≤ limitPayloadLen) :
    (byteMachine.run s (encodeHeader hd ++ part)).state.frame.payload.length =
      s.progress.begin hd + part.length := by
  rw [run_append, run_encodeHeader hs, andThen_of_none rfl, ← afterHeader_payload_length]
  by_cases hnil : part = []
  · subst hnil
    rfl
  · have habsorb : (absorb (afterHeader s hd) part).frame.payload.length =
        (afterHeader s hd).frame.payload.length + part.length := by
      rw [absorb_payload]
      split <;> simp
    rw [run_absorb rfl hlim hnil hlen]
    split
    · -- completing the frame leaves the record alone
      have hframe : (onComplete (absorb (afterHeader s hd) part)).1.frame =
          (absorb (afterHeader s hd) part).frame := by
        unfold onComplete
        dsimp only
        split <;> rfl
      show (onComplete (absorb (afterHeader s hd) part)).1.frame.payload.length = _
      rw [hframe, habsorb]
    · exact habsorb

@[simp] theorem switchToMask_payload (s : ParseState) :
    (switchToMask s).frame.payload = s.frame.payload := by
  unfold switchToMask
  split <;> rfl

/-- One byte of an extended length or of a key: the payload stays, and so does the status up to
    the last byte of the field. -/
theorem consume_field {s : ParseState} (hinv : ParseInv s)
    (hst : s.parser.status = .payloadLen ∨ s.parser.status = .maskKey) (b : UInt8) :
    (consume s b).1.frame.payload = s.frame.payload ∧
      (s.parser.byteNeed ≠ 1 → (consume s b).1.parser.status = s.parser.status ∧
        (consume s b).1.parser.byteNeed = s.parser.byteNeed - 1) := by
  rcases hst with hst | hst
  · simp only [consume, hst, onPayloadLen_eq (hinv.payloadLen hst).1]
    split
    · exact ⟨switchToMask_payload _, fun h => absurd ‹_› h⟩
    · exact ⟨rfl, fun _ => ⟨hst, rfl⟩⟩
  · simp only [consume, hst, onMaskKey_eq (hinv.maskKey hst).1]
    split
    · exact ⟨rfl, fun h => absurd ‹_› h⟩
    · exact ⟨rfl, fun _ => ⟨hst, rfl⟩⟩

/-- Bytes of an extended length or of a key leave the payload alone. -/
theorem run_field_payload {s : ParseState} (hinv : ParseInv s)
    (hst : s.parser.status = .payloadLen ∨ s.parser.status = .maskKey) {bs : List UInt8}
    (hlen : bs.length ≤ s.parser.byteNeed) :
    (byteMachine.run s bs).state.frame.payload = s.frame.payload := by
  induction bs generalizing s with
  | nil => rfl
  | cons b bs ih =>
    rw [List.length_cons] at hlen
    have hne : s.parser.status ≠ .payload := by
      rcases hst with hst | hst <;> simp [hst]
    obtain ⟨hpay, hnext⟩ := consume_field hinv hst b
    rw [run_cons, one_of_status hinv hne, andThen_of_none rfl, ← hpay]
    by_cases hlast : s.parser.byteNeed = 1
    · -- the field is complete, and no byte is left
      obtain rfl : bs = [] := List.eq_nil_of_length_eq_zero (by omega)
      rfl
    · obtain ⟨hstatus, hneed⟩ := hnext hlast
      refine ih (hinv.consume (not_pending_of_status hne) b) ?_ ?_
      · rw [hstatus]
        exact hst
      · rw [hneed]
        omega

/-- A 7-bit length that announces an extended one. -/
theorem onPayloadLenAndMask_extended (s : ParseState) (mask : Bool) {form : LenForm} (n : Nat)
    (hform : form ≠ .len7) :
    onPayloadLenAndMask s (lenByte mask (form.fields n).1) =
      { parser := { s.parser with status := .payloadLen, byteNeed := (form.fields n).2.length }
        frame := { s.frame with mask := mask, payloadLen := 0 } } := by
  cases form with
  | len7 => exact absurd rfl hform
  | len16 =>
    have hget := getPayloadLen_lenByte mask (by omega : 126 < 128)
    have hmask := getMask_lenByte mask (by omega : 126 < 128)
    simp [LenForm.fields, onPayloadLenAndMask, hget, hmask]
  | len64 =>
    have hget := getPayloadLen_lenByte mask (by omega : 127 < 128)
    have hmask := getMask_lenByte mask (by omega : 127 < 128)
    simp [LenForm.fields, onPayloadLenAndMask, hget, hmask]

/-- Part of the length and the key behind the first byte of a header. -/
theorem run_fields_prefix {s : ParseState} (hinv : ParseInv s)
    (hst : s.parser.status = .payloadLenAndMask) (hd : Header) {pre : List UInt8}
    (h : pre <+: lenByte hd.key.isSome (hd.form.fields hd.len).1 ::
      ((hd.form.fields hd.len).2 ++ hd.key.elim [] Subtype.val)) :
    (byteMachine.run s pre).state.frame.payload = s.frame.payload := by
  -- the length is complete: the key may follow
  have hkey : ∀ k, k <+: hd.key.elim [] Subtype.val →
      (byteMachine.run s (lenByte hd.key.isSome (hd.form.fields hd.len).1 ::
        ((hd.form.fields hd.len).2 ++ k))).state.frame.payload = s.frame.payload := by
    intro k hk
    rw [← List.cons_append, run_append, run_lenFields hinv hst hd.key.isSome hd.holds,
      andThen_of_none rfl]
    cases hsome : hd.key with
    | none =>
      rw [hsome] at hk
      obtain rfl : k = [] := List.prefix_nil.mp hk
      exact switchToMask_payload _
    | some key =>
      rw [hsome] at hk
      have hlen : k.length ≤ 4 := hk.length_le.trans_eq key.2
      have hinv' := ParseInv.switchToMask
        (s := { s with frame := { s.frame with mask := true, payloadLen := hd.len } })
        (hinv.maskIndex (.inl (by simp [hst])))
      refine (run_field_payload hinv' (.inr ?_) ?_).trans (switchToMask_payload _)
      · simp [switchToMask]
      · simpa [switchToMask] using hlen
  cases pre with
  | nil => rfl
  | cons c pre =>
    obtain ⟨rfl, hpre⟩ := List.cons_prefix_cons.mp h
    rcases List.prefix_or_prefix_of_prefix hpre (List.prefix_append _ _) with hext | ⟨k, rfl⟩
    · by_cases hform : hd.form = .len7
      · have hnil : (hd.form.fields hd.len).2 = [] := by rw [hform]; rfl
        rw [hnil] at hext hkey
        obtain rfl : pre = [] := List.prefix_nil.mp hext
        exact hkey [] List.nil_prefix
      · -- within an extended length
        have hone := one_of_status hinv (by simp [hst])
          (lenByte hd.key.isSome (hd.form.fields hd.len).1)
        have hcons : (consume s (lenByte hd.key.isSome (hd.form.fields hd.len).1)).1 =
            onPayloadLenAndMask s (lenByte hd.key.isSome (hd.form.fields hd.len).1) := by
          simp [consume, hst]
        have hinv' := hinv.onPayloadLenAndMask hst
          (lenByte hd.key.isSome (hd.form.fields hd.len).1)
        rw [hcons] at hone
        rw [run_cons, hone, andThen_of_none rfl]
        rw [onPayloadLenAndMask_extended s hd.key.isSome hd.len hform] at hinv' ⊢
        exact run_field_payload hinv' (.inl rfl) hext.length_le
    · exact hkey k ((List.prefix_append_right_inj _).mp hpre)

/-- Part of a header brings no payload. -/
theorem run_of_header_cut {s : ParseState} (hs : Idle s) {hd : Header} {pre : List UInt8}
    (h : pre <+: encodeHeader hd) :
    (byteMachine.run s pre).state.frame.payload.length ≤ s.frame.payload.length := by
  have hinv := hs.inv
  obtain ⟨hst, hidx⟩ := hs
  match pre with
  | [] => exact Nat.le_refl _
  | b :: pre =>
    obtain ⟨rfl, hpre⟩ := List.cons_prefix_cons.mp h
    -- the first byte resets the payload or leaves it
    have hone := one_of_status hinv (by simp [hst]) (headByte hd.fin hd.rsv hd.opcode)
    have hcons : (consume s (headByte hd.fin hd.rsv hd.opcode)).1 =
        onFinAndOpcode s (headByte hd.fin hd.rsv hd.opcode) := by
      simp [consume, hst]
    have hfirst : (onFinAndOpcode s (headByte hd.fin hd.rsv hd.opcode)).frame.payload.length ≤
        s.frame.payload.length := by
      unfold onFinAndOpcode
      dsimp only
      split
      · exact Nat.zero_le _
      · exact Nat.le_refl _
    rw [hcons] at hone
    rw [run_cons, hone, andThen_of_none rfl,
      run_fields_prefix (hinv.onFinAndOpcode hst _) rfl hd hpre]
    exact hfirst

/-! ### The limit -/

/-- Where the stream fits, no part of it leaves more than the limit in the payload. -/
theorem run_payload_le {s : ParseState} (hs : Idle s)
    (hstart : s.frame.payload.length ≤ limitPayloadLen) {bs p : List UInt8}
    (hfit : s.progress.Fits bs) (hp : p <+: bs) :
    (byteMachine.run s p).state.frame.payload.length ≤ limitPayloadLen := by
  obtain ⟨q, rfl⟩ := hp
  obtain ⟨fs, tail, hsplit, htail, hlast⟩ := exists_frames p
  rw [run_framesThen hs hsplit hlast, andThen_of_none rfl]
  obtain ⟨rfl, hlim⟩ := hsplit
  have hidle := frameSteps_idle hs fs
  have hprogress := frameSteps_progress s fs
  -- the whole frames fit: the last of them is a header and its payload
  have hwhole : (frameSteps s fs).1.frame.payload.length ≤ limitPayloadLen := by
    rcases List.eq_nil_or_concat fs with rfl | ⟨init, f, rfl⟩
    · exact hstart
    · have hf := hfit init f.header f.wirePayload (tail ++ q)
        (by simp [encodeFrames, encodeFrame, List.append_assoc])
        (fun g hg => hlim g (by simp [hg]))
        (by rw [wirePayload_length]; exact Nat.le_refl _)
        (hlim f (by simp))
      have hsize : (s.progress.after (init.concat f)).size =
          (s.progress.after init).begin f.header + f.payload.length := by
        simp [Progress.after, Progress.step]
      rw [wirePayload_length, ← hsize, ← hprogress] at hf
      exact hf
  generalize (frameSteps s fs).1 = t at hidle hprogress hwhole ⊢
  rcases htail with (⟨hd, hpre⟩ | ⟨hd, part, rfl, hlt, hle⟩) | ⟨hd, b, rest, rfl, hover⟩
  · exact Nat.le_trans (run_of_header_cut hidle hpre) hwhole
  · rw [run_part hidle (Nat.le_of_lt hlt) hle, hprogress]
    exact hfit fs hd part q (by simp [List.append_assoc]) hlim (Nat.le_of_lt hlt) hle
  · -- refused: the header may have reset the payload, no more
    rw [run_encodeHeader_of_limit hidle hover]
    show (afterHeader t hd).frame.payload.length ≤ limitPayloadLen
    rw [afterHeader_payload_length]
    exact Nat.le_trans (t.progress.begin_le hd) hwhole

/-- And conversely. -/
theorem fits_of_run {s : ParseState} (hs : Idle s) {bs : List UInt8}
    (h : ∀ p, p <+: bs →
      (byteMachine.run s p).state.frame.payload.length ≤ limitPayloadLen) :
    s.progress.Fits bs := by
  rintro fs hd part rest rfl hlim hlen hle
  have hne : encodeHeader hd ++ part ≠ [] := by simp [encodeHeader]
  have hrun := h (encodeFrames fs ++ (encodeHeader hd ++ part))
    ⟨rest, by simp [List.append_assoc]⟩
  rw [run_framesThen hs ⟨rfl, hlim⟩ fun hnil => absurd hnil hne, andThen_of_none rfl,
    run_part (frameSteps_idle hs fs) hlen hle, frameSteps_progress] at hrun
  exact hrun

/-- **The payload limit.**  For every byte stream fed to a parser between two frames (a fresh
    one, or one that has returned an error): in no chunking does any state between two calls
    hold more than the limit in its payload, if and only if nowhere in the stream more than that
    has come of the message in progress. -/
theorem payload_within_iff {s : ParseState} (hs : Idle s) (bs : List UInt8) :
    (∀ chunks : List (List UInt8), chunks.flatten = bs → ∀ k r, feed s (chunks.take k) = .ok r →
        r.state.frame.payload.length ≤ limitPayloadLen) ↔
      s.progress.size ≤ limitPayloadLen ∧ s.progress.Fits bs := by
  have hstate : ∀ chunks r, feed s chunks = .ok r →
      r.state = (byteMachine.run s chunks.flatten).state := by
    intro chunks r hr
    rw [feed_eq_run hs.inv, Except.ok.injEq] at hr
    rw [← hr]
    rfl
  constructor
  · intro h
    -- cut the stream behind the part that is looked at
    have hall : ∀ p, p <+: bs →
        (byteMachine.run s p).state.frame.payload.length ≤ limitPayloadLen := by
      rintro p ⟨q, rfl⟩
      have hp := h [p, q] (by simp) 1 _ (feed_eq_run hs.inv _)
      rw [hstate _ _ (feed_eq_run hs.inv _)] at hp
      simpa using hp
    exact ⟨hall [] List.nil_prefix, fits_of_run hs hall⟩
  · rintro ⟨hstart, hfit⟩ chunks rfl k r hr
    rw [hstate _ r hr]
    refine run_payload_le hs hstart hfit ⟨(chunks.drop k).flatten, ?_⟩
    rw [← List.flatten_append, List.take_append_drop]

/-- A short text fits. -/
theorem payload_within_iff_short :
    ∃ r, feed (.init .init) [[0x81, 1], [0x41]] = .ok r ∧
      r.state.frame.payload.length ≤ limitPayloadLen :=
  ⟨_, rfl, (payload_within_iff (Idle.init .init) [0x81, 1, 0x41]).mpr
    ⟨Nat.zero_le _, Progress.fits_of_length (by decide)⟩ [[0x81, 1], [0x41]] rfl 2 _ rfl⟩

/-- A masked first fragment of a text, as long as the limit allows. -/
def largestFragment : Frame :=
  { fin := false, rsv := 0, opcode := 1, key := some (maskingKey 1 2 3 4), form := .len64,
    payload := List.replicate limitPayloadLen 0x41,
    holds := by rw [List.length_replicate]; decide }

/-- One more byte of that text. -/
def oneMoreByte : Frame := .ofByte true 0 (some (maskingKey 1 2 3 4)) 0x42

/-- Both fragments are taken, and the payload is longer than the limit. -/
theorem oneMoreByte_taken :
    ∃ r, feed (.init .init) [encodeFrame largestFragment, encodeFrame oneMoreByte] = .ok r ∧
      r.err = .success ∧ r.fired.length = 1 ∧
      limitPayloadLen < r.state.frame.payload.length := by
  have hlarge : largestFragment.payload.length = limitPayloadLen := List.length_replicate
  have hlim : ∀ f ∈ [largestFragment, oneMoreByte], f.payload.length ≤ limitPayloadLen := by
    intro f hf
    rcases List.mem_pair.mp hf with rfl | rfl
    · exact Nat.le_of_eq hlarge
    · exact (by decide : 1 ≤ limitPayloadLen)
  have hrun := run_encodeFrames (Idle.init .init) hlim (by simp [oneMoreByte, Frame.ofByte])
  have hflat : [encodeFrame largestFragment, encodeFrame oneMoreByte].flatten =
      encodeFrames [largestFragment, oneMoreByte] := by
    simp [encodeFrames]
  refine ⟨_, feed_eq_run (ParseInv.init .init) _, ?_⟩
  rw [hflat, hrun]
  refine ⟨rfl, rfl, ?_⟩
  have hsize : ∀ t : ParseState, t.frame.payload.length = t.progress.size := fun _ => rfl
  have hprogress := frameSteps_progress (.init .init) [largestFragment, oneMoreByte]
  -- the first fragment starts the message, the second one adds to it
  have hstarts : ∀ f : Frame, (⟨false, 0⟩ : Progress).step f = ⟨!f.fin, f.payload.length⟩ := by
    intro f
    rw [Progress.step, Progress.begin, ite_self, Nat.zero_add]
  have hfirst : (⟨false, 0⟩ : Progress).step largestFragment =
      ⟨true, largestFragment.payload.length⟩ := hstarts largestFragment
  have hsecond : ∀ n, ((⟨true, n⟩ : Progress).step oneMoreByte).size = n + 1 := fun n => rfl
  have hafter : ((ParseState.init .init).progress.after [largestFragment, oneMoreByte]).size =
      limitPayloadLen + 1 := by
    have hstart : (ParseState.init .init).progress = ⟨false, 0⟩ := rfl
    rw [hstart, Progress.after, List.foldl_cons, List.foldl_cons, List.foldl_nil, hfirst, hsecond,
      hlarge]
  have hstate : ∀ o, (ofOutcome 0 [] o).state = o.state := fun _ => rfl
  rw [hsize, hstate, hprogress, hafter]
  exact Nat.lt_succ_self _

/-! ### All calls -/

/-- An error leaves the parser between two frames. -/
theorem idle_of_error {s : ParseState} (hs : Idle s) {bs : List UInt8} {e : WsParseErr}
    (h : (byteMachine.run s bs).stop = some e) : Idle (byteMachine.run s bs).state := by
  obtain ⟨fs, tail, hsplit, htail, hlast⟩ := exists_frames bs
  rcases htail with htail | ⟨hd, b, rest, rfl, hover⟩
  · have hstop := (run_unfinished (frameSteps_idle hs fs) htail).1
    rw [run_framesThen hs hsplit hlast, andThen_of_none rfl] at h
    rw [show (byteMachine.run _ tail).stop = none from hstop] at h
    cases h
  · rw [run_oversized hs hsplit hover]
    exact ⟨rfl, (frameSteps_idle hs fs).2⟩

/-- **Every state between two calls** comes from one between two frames, the fresh one or one
    an error has left, by calls that have all succeeded but for the last one. -/
theorem Reachable.exists_feed {s : ParseState} (h : Reachable s) :
    ∃ s₀ chunks r, Idle s₀ ∧ feed s₀ chunks = .ok r ∧ r.state = s := by
  induction h with
  | init frame => exact ⟨.init frame, [], _, Idle.init frame, rfl, rfl⟩
  | @parse s r data h hr ih =>
    obtain ⟨s₀, chunks, r₀, hidle, hfeed, rfl⟩ := ih
    rw [feed_eq_run hidle.inv, Except.ok.injEq] at hfeed
    subst hfeed
    have hparse := parse_eq_run h.inv data
    rw [hr, Except.ok.injEq] at hparse
    cases hstop : (byteMachine.run s₀ chunks.flatten).stop with
    | none =>
      refine ⟨s₀, chunks ++ [data], _, hidle, feed_eq_run hidle.inv _, ?_⟩
      rw [List.flatten_append, List.flatten_singleton, run_append, andThen_of_none hstop, hparse]
      rfl
    | some e =>
      -- the call that failed was the last: start again where it has left the parser
      refine ⟨_, [data], _, idle_of_error hidle hstop, feed_eq_run h.inv _, ?_⟩
      rw [List.flatten_singleton, hparse]

end MyWebSocket
