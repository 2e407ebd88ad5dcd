import MyWebSocket.Parser.ByteStep

namespace MyWebSocket

/-!
# The loop of `parse`

`ByteStep.lean` says what a call of `parse` returns.  This file looks at the loop on the way: at
the state in which it comes back to its head, and at the cursor, which stands still in a pass that
completes an empty frame.

* `Cursor.reads` — the offsets a pass through the switch looks at (`switchStatus_congr`);
* `LoopHead` — the loop at its head, with the number of passes and all offsets looked at so far;
* `LoopHead.spec` — what holds there, by one lemma about a pass (`pass_spec`);
* `parser_invariant` — the invariant at every head and behind every call;
* `parse_terminates` — the loop ends, inside the buffer and with each byte looked at once.
-/

/-! ### What a pass looks at -/

/-- `to_read`. -/
def Cursor.toRead (data : List UInt8) (c : Cursor) : Nat :=
  min ((data.length : Int) - c.ch).toNat c.state.parser.byteNeed

/-- `n` offsets from `ch` on. -/
def offsetsFrom (ch : Int) (n : Nat) : List Int := (List.range n).map fun i : Nat => ch + i

theorem offsetsFrom_append (n m : Nat) :
    offsetsFrom 0 n ++ offsetsFrom n m = offsetsFrom 0 (n + m) := by
  unfold offsetsFrom
  rw [List.range_add, List.map_append, List.map_map]
  simp

/-- The offsets at which a pass through the switch dereferences the buffer, in order. -/
def Cursor.reads (data : List UInt8) (c : Cursor) : List Int :=
  match c.state.parser.status with
  | .payload =>
    -- the length check comes before the copy
    if limitPayloadLen < c.state.frame.payloadLen then []
    else offsetsFrom c.ch (c.toRead data)
  | .complete => []
  | _ => [c.ch]

/-- What a pass subtracts from `m_byteNeed`. -/
def Cursor.takes (data : List UInt8) (c : Cursor) : Nat :=
  match c.state.parser.status with
  | .payloadLen => 1
  | .maskKey => 1
  | .payload => if limitPayloadLen < c.state.frame.payloadLen then 0 else c.toRead data
  | _ => 0

/-- Buffers that agree on the next `n + 1` bytes agree on the first of them and on the others. -/
theorem readAt_agree_succ {data data' : List UInt8} {n : Nat} {ch : Int}
    (h : ∀ i < n + 1, readAt data (ch + (i : Int)) = readAt data' (ch + (i : Int))) :
    readAt data ch = readAt data' ch ∧
      ∀ i < n, readAt data (ch + 1 + (i : Int)) = readAt data' (ch + 1 + (i : Int)) := by
  refine ⟨by simpa using h 0 (Nat.succ_pos n), fun i hi => ?_⟩
  have hnext := h (i + 1) (by omega)
  rwa [Int.natCast_add, Int.natCast_one, Int.add_comm (i : Int) 1, ← Int.add_assoc] at hnext

theorem pushUnmasked_congr {data data' key : List UInt8} {n : Nat} {ch : Int}
    (h : ∀ i < n, readAt data (ch + (i : Int)) = readAt data' (ch + (i : Int))) (maskIndex : Nat)
    (payload : List UInt8) :
    pushUnmasked data key n ch maskIndex payload =
      pushUnmasked data' key n ch maskIndex payload := by
  induction n generalizing ch maskIndex payload with
  | zero => rfl
  | succ n ih =>
    obtain ⟨hfirst, hrest⟩ := readAt_agree_succ h
    simp only [pushUnmasked, hfirst, ih hrest]

theorem insertRange_congr {data data' : List UInt8} {n : Nat} {ch : Int}
    (h : ∀ i < n, readAt data (ch + (i : Int)) = readAt data' (ch + (i : Int)))
    (payload : List UInt8) :
    insertRange data n ch payload = insertRange data' n ch payload := by
  induction n generalizing ch payload with
  | zero => rfl
  | succ n ih =>
    obtain ⟨hfirst, hrest⟩ := readAt_agree_succ h
    simp only [insertRange, hfirst, ih hrest]

/-- **A pass looks at nothing else**: it does the same on every buffer of this length with the same
    bytes at these offsets. -/
theorem switchStatus_congr {data data' : List UInt8} {c : Cursor}
    (hlen : data.length = data'.length) (h : ∀ o ∈ c.reads data, readAt data o = readAt data' o) :
    switchStatus data c = switchStatus data' c := by
  unfold Cursor.reads at h
  unfold switchStatus
  split at h
  next hst =>
    rw [hst]
    dsimp only
    unfold onPayload
    split at h
    next hlim => rw [if_pos hlim, if_pos hlim]
    next hlim =>
      have hread : ∀ i < c.toRead data,
          readAt data (c.ch + (i : Int)) = readAt data' (c.ch + (i : Int)) := by
        intro i hi
        exact h _ (List.mem_map.mpr ⟨i, List.mem_range.mpr hi, rfl⟩)
      have hcopy : copyPayload data c (c.toRead data) = copyPayload data' c (c.toRead data) := by
        unfold copyPayload
        simp only [pushUnmasked_congr hread, insertRange_congr hread]
      have hsame : c.toRead data' = c.toRead data := by
        unfold Cursor.toRead
        rw [hlen]
      have hlength : (data.length : Int) = data'.length := by rw [hlen]
      rw [if_neg hlim, if_neg hlim, hlength]
      change (copyPayload data c (c.toRead data') >>= _) =
        (copyPayload data' c (c.toRead data') >>= _)
      rw [hsame, hcopy]
  next hst => rw [hst]
  next hpayload hcomplete =>
    have hone := h c.ch List.mem_cons_self
    cases hst : c.state.parser.status with
    | payload => exact absurd hst hpayload
    | complete => exact absurd hst hcomplete
    | _ => simp only [hone]

/-! ### Where a pass leaves the cursor -/

theorem Cursor.reads_eq (data : List UInt8) (c : Cursor) :
    c.reads data = offsetsFrom c.ch (c.reads data).length := by
  unfold Cursor.reads
  split
  · split
    · rfl
    · simp [offsetsFrom]
  · rfl
  · simp [offsetsFrom]

/-- **What a pass can do**: the length check returns, before a byte is looked at, or the pass comes
    to its end and has gone over the bytes it has looked at.  (A frame that is complete before the
    pass takes the cursor back.) -/
theorem switchStatus_cases {data : List UInt8} {c : Cursor} {flow : Flow}
    (h : switchStatus data c = .ok flow) :
    (c.reads data = [] ∧ ∃ c', flow = .ret .invalidPayloadLen c') ∨
      ∃ c', flow = .next c' ∧ (c.state.parser.status ≠ .complete →
        c'.ch + 1 = c.ch + ((c.reads data).length : Int)) := by
  have hone : ∀ f : UInt8 → ParseState,
      (do let b ← readAt data c.ch; pure (.next { c with state := f b }) : Except Fault Flow) =
        .ok flow → ∃ c', flow = .next c' ∧ c'.ch = c.ch := by
    intro f hf
    cases hread : readAt data c.ch with
    | error e => simp [hread, bind, Except.bind] at hf
    | ok b =>
      simp only [hread, bind, Except.bind, pure, Except.pure, Except.ok.injEq] at hf
      exact ⟨_, hf.symm, rfl⟩
  unfold switchStatus at h
  unfold Cursor.reads
  cases hs : c.state.parser.status with
  | complete =>
    rw [hs] at h
    exact .inr ⟨_, (Except.ok.inj h).symm, fun hne => absurd rfl hne⟩
  | payload =>
    rw [hs] at h
    dsimp only at h ⊢
    unfold onPayload at h
    split at h
    next hlim => exact .inl ⟨if_pos hlim, _, (Except.ok.inj h).symm⟩
    next hlim =>
      rw [if_neg hlim, offsetsFrom, List.length_map, List.length_range]
      change (copyPayload data c (c.toRead data) >>= _) = _ at h
      cases hcopy : copyPayload data c (c.toRead data) with
      | error e => simp [hcopy, bind, Except.bind] at h
      | ok r =>
        simp only [hcopy, bind, Except.bind, pure, Except.pure, Except.ok.injEq] at h
        refine .inr ⟨_, h.symm, fun _ => ?_⟩
        -- `ch += to_read - 1`, completed or not
        rw [← Int.sub_add_cancel (c.ch + (c.toRead data : Int)) 1, Int.add_left_inj]
        unfold afterCopy
        dsimp only
        split <;> rfl
  | _ =>
    rw [hs] at h
    obtain ⟨c', rfl, hsame⟩ := hone _ h
    exact .inr ⟨c', rfl, fun _ => by simp [hsame]⟩

theorem switchStatus_next {data : List UInt8} {c c' : Cursor}
    (hst : c.state.parser.status ≠ .complete) (h : switchStatus data c = .ok (.next c')) :
    c'.ch + 1 = c.ch + ((c.reads data).length : Int) := by
  rcases switchStatus_cases h with ⟨-, c'', hret⟩ | ⟨c'', hnext, hch⟩
  · cases hret
  · cases hnext
    exact hch hst

theorem switchStatus_ret {data : List UInt8} {c c' : Cursor} {e : WsParseErr}
    (h : switchStatus data c = .ok (.ret e c')) : e = .invalidPayloadLen ∧ c.reads data = [] := by
  rcases switchStatus_cases h with ⟨hreads, c'', hret⟩ | ⟨c'', hnext, -⟩
  · cases hret
    exact ⟨rfl, hreads⟩
  · cases hnext

/-! ### The head of the loop -/

/-- The loop of a call on `s` and `data` at its head: the number of passes made so far, the offsets
    they have looked at, in order, and the loop's variables. -/
inductive LoopHead (s : ParseState) (data : List UInt8) : Nat → List Int → Cursor → Prop
  | start : LoopHead s data 0 [] ⟨s, 0, []⟩
  | pass {n : Nat} {reads : List Int} {c c' : Cursor} (h : LoopHead s data n reads c)
      (hch : c.ch ≠ data.length) (hsw : switchStatus data c = .ok (.next c')) :
      LoopHead s data (n + 1) (reads ++ c.reads data) { c' with ch := c'.ch + 1 }

/-- What is left to do: two passes for each byte, and one for a pending empty frame, which takes no
    byte. -/
def Cursor.measure (data : List UInt8) (c : Cursor) : Nat :=
  2 * ((data.length : Int) - c.ch).toNat + if Pending c.state then 1 else 0

/-- What holds at the head of the loop. -/
structure Cursor.Inside (data : List UInt8) (c : Cursor) : Prop where
  inv : ParseInv c.state
  nonneg : 0 ≤ c.ch
  le : c.ch ≤ data.length

/-- What a pass from there can do: look at bytes of the buffer only, and then return, or come back
    to the head with less to do. -/
structure Cursor.PassesWell (data : List UInt8) (c : Cursor) : Prop where
  reads : ∀ o ∈ c.reads data, 0 ≤ o ∧ o < data.length
  takes : c.takes data ≤ c.state.parser.byteNeed
  result : (∃ c', switchStatus data c = .ok (.ret .invalidPayloadLen c') ∧ ParseInv c'.state) ∨
    ∃ c', switchStatus data c = .ok (.next c') ∧
      Cursor.Inside data { c' with ch := c'.ch + 1 } ∧
      Cursor.measure data { c' with ch := c'.ch + 1 } < c.measure data

theorem Cursor.takes_le {data : List UInt8} {c : Cursor} (h : ParseInv c.state) :
    c.takes data ≤ c.state.parser.byteNeed := by
  unfold Cursor.takes
  split
  next hst => exact (h.payloadLen hst).1
  next hst => exact (h.maskKey hst).1
  next hst =>
    split
    · exact Nat.zero_le _
    · exact Nat.min_le_right _ _
  next => exact Nat.zero_le _

theorem Cursor.pass_spec {data : List UInt8} {c : Cursor} (h : c.Inside data)
    (hch : c.ch ≠ data.length) : c.PassesWell data := by
  obtain ⟨s, ch, fired⟩ := c
  obtain ⟨hinv, hnonneg, hle⟩ := h
  dsimp only at hinv hnonneg hle hch
  -- the cursor stands before a byte
  obtain ⟨k, rfl⟩ := Int.eq_ofNat_of_zero_le hnonneg
  have hk : k < data.length := by omega
  have hpre : (data.take k).length = k := by
    rw [List.length_take]
    omega
  have hrest : data.drop k ≠ [] := by
    intro hnil
    have hlen := congrArg List.length hnil
    rw [List.length_drop, List.length_nil] at hlen
    omega
  have hpass := pass_of_inv hinv (data.take k) hrest fired
  unfold PassOf at hpass
  rw [List.take_append_drop, hpre] at hpass
  rcases hpass with ⟨s', e, hsw, hrun⟩ | ⟨bs, tl, s', out, hsplit, hsw, hrun, hinv', hback⟩
  · obtain ⟨rfl, hreads⟩ := switchStatus_ret hsw
    refine ⟨?_, Cursor.takes_le hinv, .inl ⟨_, hsw, ?_⟩⟩
    · rw [hreads]
      simp
    · have hstate := hinv.run (data.drop k)
      rw [hrun] at hstate
      exact hstate
  · have hnext := switchStatus_next hinv.notComplete hsw
    dsimp only at hnext
    have hlen : bs.length + tl.length = data.length - k := by
      rw [← List.length_append, ← hsplit, List.length_drop]
    have hcount : ((⟨s, (k : Int), fired⟩ : Cursor).reads data).length = bs.length := by omega
    refine ⟨?_, Cursor.takes_le hinv, .inr ⟨_, hsw, ⟨hinv', ?_, ?_⟩, ?_⟩⟩
    · intro o ho
      rw [Cursor.reads_eq, hcount] at ho
      obtain ⟨i, hi, rfl⟩ := List.mem_map.mp ho
      have hi := List.mem_range.mp hi
      dsimp only
      omega
    · dsimp only
      omega
    · dsimp only
      omega
    · -- a pass that uses no byte settles the pending frame, and so pays for itself
      unfold Cursor.measure
      dsimp only
      by_cases hbs : bs = []
      · obtain ⟨hp, hp'⟩ := hback hbs
        rw [if_pos hp, if_neg hp', hbs, List.length_nil]
        omega
      · have hpos := List.length_pos_of_ne_nil hbs
        split <;> omega

/-- **What holds at the head of the loop**, the call being one from a state with the invariant: the
    cursor is in the buffer or at its end, each byte before it has been looked at once, and what is
    left to do has got less with each pass. -/
theorem LoopHead.spec {s : ParseState} {data : List UInt8} {n : Nat} {reads : List Int} {c : Cursor}
    (hs : ParseInv s) (h : LoopHead s data n reads c) :
    c.Inside data ∧ reads = offsetsFrom 0 c.ch.toNat ∧
      n + c.measure data ≤ 2 * data.length + 1 := by
  induction h with
  | start =>
    refine ⟨⟨hs, Int.le_refl 0, Int.natCast_nonneg _⟩, rfl, ?_⟩
    unfold Cursor.measure
    dsimp only
    split <;> omega
  | @pass n reads c c' h hch hsw ih =>
    obtain ⟨hinside, rfl, hmeasure⟩ := ih
    have hpass := Cursor.pass_spec hinside hch
    have hnext := switchStatus_next hinside.inv.notComplete hsw
    rcases hpass.result with ⟨c'', hret, -⟩ | ⟨c'', hsw', hinside', hless⟩
    · rw [hret] at hsw
      cases hsw
    · rw [hsw'] at hsw
      cases hsw
      refine ⟨hinside', ?_, by omega⟩
      obtain ⟨k, hk⟩ := Int.eq_ofNat_of_zero_le hinside.nonneg
      -- the offsets of this pass go on where those before it end
      have hend : (c'.ch + 1).toNat = k + (c.reads data).length := by omega
      rw [Cursor.reads_eq, hk, Int.toNat_natCast, offsetsFrom_append]
      dsimp only
      rw [hend]

/-- The loop ends at a head: at the end of the buffer, or where the length check returns. -/
theorem LoopHead.of_parseLoop {s : ParseState} {data : List UInt8} {n fuel : Nat}
    {reads : List Int} {c : Cursor} {r : ParseResult} (h : LoopHead s data n reads c)
    (hr : parseLoop data fuel c = .ok r) :
    r.err = .invalidPayloadLen ∨
      r.err = .success ∧ r.pos = data.length ∧
        ∃ n reads, LoopHead s data n reads ⟨r.state, data.length, r.fired⟩ := by
  induction fuel generalizing n reads c with
  | zero => cases hr
  | succ fuel ih =>
    rw [parseLoop] at hr
    split at hr
    next hch =>
      cases hr
      refine .inr ⟨rfl, hch, n, reads, ?_⟩
      rw [← hch]
      exact h
    next hch =>
      split at hr
      next e hsw => cases hr
      next e c' hsw =>
        cases hr
        exact .inl (switchStatus_ret hsw).1
      next c' hsw => exact ih (.pass h hch hsw) hr

/-! ### The parser's invariant, and the end of the loop -/

/-- **The parser between two bytes.**  In every state between two calls, whatever they returned, and
    in every state in which a call comes back to the head of its loop: the status is not `complete`;
    in `payloadLen` one to eight bytes are missing; in `maskKey` one to four, which make four with
    those of the key; in `payload` no more than the payload has, and a masked frame has its key and
    the key index of the next byte; in every other status the key index is 0.  No pass indexes the
    key out of range or takes more off `m_byteNeed` than there is. -/
theorem parser_invariant {s : ParseState} (h : Reachable s) :
    ParseInv s ∧ ∀ (data : List UInt8) (n : Nat) (reads : List Int) (c : Cursor),
      LoopHead s data n reads c → ParseInv c.state ∧
        (c.ch ≠ data.length →
          switchStatus data c ≠ .error .maskKeyIndex ∧ c.takes data ≤ c.state.parser.byteNeed) := by
  refine ⟨h.inv, fun data n reads c hc => ?_⟩
  obtain ⟨hinside, -, -⟩ := hc.spec h.inv
  refine ⟨hinside.inv, fun hch => ?_⟩
  have hpass := Cursor.pass_spec hinside hch
  refine ⟨fun hfault => ?_, hpass.takes⟩
  rcases hpass.result with ⟨c', hsw, -⟩ | ⟨c', hsw, -, -⟩
  · rw [hfault] at hsw
    cases hsw
  · rw [hfault] at hsw
    cases hsw

/-- A header whose length exceeds the limit, and the byte at which the check fails. -/
def tooLong : List UInt8 := [0x81, 0x7F, 0, 0, 0, 0, 0, 0x20, 0, 0, 0x61]

/-- Behind `INVALID_PAYLOAD_LEN` the invariant holds. -/
theorem parser_invariant_tooLong :
    ∃ r, parse (.init .init) tooLong = .ok r ∧ r.err = .invalidPayloadLen ∧ ParseInv r.state := by
  refine ⟨_, rfl, rfl, ?_⟩
  exact (parser_invariant (Reachable.parse tooLong (.init .init) rfl)).1

/-- **The loop of `parse` ends, inside the buffer.**  From every reachable state and on every
    buffer: the loop makes at most two passes a byte and one more; at its head the cursor stands in the
    buffer or at its end, and the passes so far have looked at each byte before it once, in order,
    and at no other; the next pass looks at bytes of the buffer only.  The call returns, and with
    `SUCCESS` it does so at the end of the buffer, each byte having been looked at once. -/
theorem parse_terminates {s : ParseState} (h : Reachable s) (data : List UInt8) :
    (∀ (n : Nat) (reads : List Int) (c : Cursor), LoopHead s data n reads c →
      n ≤ 2 * data.length + 1 ∧ 0 ≤ c.ch ∧ c.ch ≤ data.length ∧
        reads = offsetsFrom 0 c.ch.toNat ∧
          (c.ch ≠ data.length → ∀ o ∈ c.reads data, 0 ≤ o ∧ o < data.length)) ∧
      ∃ r, parse s data = .ok r ∧ (r.err = .success → r.pos = data.length ∧
        ∃ n, LoopHead s data n (offsetsFrom 0 data.length) ⟨r.state, data.length, r.fired⟩) := by
  constructor
  · intro n reads c hc
    obtain ⟨hinside, hreads, hmeasure⟩ := hc.spec h.inv
    refine ⟨by omega, hinside.nonneg, hinside.le, hreads, fun hch => ?_⟩
    exact (Cursor.pass_spec hinside hch).reads
  · have hparse := parse_eq_run h.inv data
    refine ⟨_, hparse, fun hsuccess => ?_⟩
    unfold parse at hparse
    split at hparse
    next hlen =>
      obtain rfl := List.eq_nil_of_length_eq_zero hlen
      exact ⟨rfl, 0, .start⟩
    next hlen =>
      rcases LoopHead.of_parseLoop .start hparse with herr | ⟨-, hpos, n, reads, hc⟩
      · rw [hsuccess] at herr
        cases herr
      · obtain ⟨-, hreads, -⟩ := hc.spec h.inv
        rw [Int.toNat_natCast] at hreads
        exact ⟨hpos, n, hreads ▸ hc⟩

/-- Three empty frames in one buffer: the last is pending at its end, the others give a byte
    back each. -/
theorem parse_terminates_emptyFrames :
    ∃ r, parse (.init .init) [0x81, 0, 0x81, 0, 0x81, 0] = .ok r ∧ r.fired.length = 2 ∧
      r.pos = 6 ∧
      ∃ n, LoopHead (.init .init) [0x81, 0, 0x81, 0, 0x81, 0] n (offsetsFrom 0 6)
        ⟨r.state, 6, r.fired⟩ := by
  obtain ⟨r, hr, hend⟩ := (parse_terminates (.init .init) [0x81, 0, 0x81, 0, 0x81, 0]).2
  obtain ⟨hfired, herr⟩ : r.fired.length = 2 ∧ r.err = .success := by
    cases hr
    decide
  exact ⟨r, hr, hfired, hend herr⟩

end MyWebSocket
