import MyWebSocket.Parser.Decoding
import MyWebSocket.Parser.Acceptance

namespace MyWebSocket

open Transducer Transducer.Outcome

/-!
# What a message is made of

`m_onComplete` fires with one frame record, in which each fragment has overwritten the MASK bit
of the one before.

* `Provenance` — the opcode of the message under assembly and the MASK bits of all frames it has
  been made from; `origins` are those of the messages of a stream;
* `BuiltFrom` — the origin of the `n`-th message of a byte stream, of which there is one at most;
* `exists_builtFrom` — a firing shows the opcode of its origin, and the last of the MASK bits.
-/

/-- The opcode of a message and the MASK bits of its frames, in order. -/
structure Origin where
  opcode : UInt8
  masks : List Bool
deriving DecidableEq, Repr

/-- Some fragment of the message came without a mask. -/
abbrev Origin.HasUnmasked (o : Origin) : Prop := false ∈ o.masks

/-- The message under assembly. -/
structure Provenance where
  isContinuation : Bool
  origin : Origin
deriving DecidableEq, Repr

/-- As for the payload, a non-zero opcode outside a continuation starts afresh, and everything
    else is added. -/
def Provenance.step (p : Provenance) (f : Frame) : Provenance × List Origin :=
  let starts := !p.isContinuation && f.opcode != 0
  let origin : Origin :=
    { opcode := if starts then UInt8.ofNat f.opcode else p.origin.opcode
      masks := (if starts then [] else p.origin.masks) ++ [f.key.isSome] }
  (⟨!f.fin, origin⟩, if f.fin then [origin] else [])

/-- Nothing has been read. -/
def Provenance.init : Provenance := ⟨false, ⟨0, []⟩⟩

/-- The origins of the messages that a list of frames makes up. -/
def origins (fs : List Frame) : List Origin := (steps Provenance.step .init fs).2

/-- The `n`-th message of a byte stream has the origin `o`. -/
def BuiltFrom (bs : List UInt8) (n : Nat) (o : Origin) : Prop :=
  ∃ fs tail, FramesThen bs fs tail ∧ (origins fs)[n]? = some o

/-! ### One origin at most -/

/-- Two sequences of frames a byte string begins with: one begins with the other. -/
theorem prefix_or_prefix_of_encodeFrames {fs gs : List Frame} {xs ys : List UInt8}
    (h : encodeFrames fs ++ xs = encodeFrames gs ++ ys) : fs <+: gs ∨ gs <+: fs := by
  induction fs generalizing gs with
  | nil => exact .inl List.nil_prefix
  | cons f fs ih =>
    cases gs with
    | nil => exact .inr List.nil_prefix
    | cons g gs =>
      have hcons : ∀ (f : Frame) fs, encodeFrames (f :: fs) = encodeFrame f ++ encodeFrames fs :=
        fun _ _ => rfl
      rw [hcons, hcons, List.append_assoc, List.append_assoc] at h
      obtain ⟨rfl, hrest⟩ := encodeFrame_append_inj h
      exact (ih hrest).imp (List.prefix_cons_inj f).mpr (List.prefix_cons_inj f).mpr

theorem origins_prefix {fs gs : List Frame} (h : fs <+: gs) : origins fs <+: origins gs := by
  obtain ⟨hs, rfl⟩ := h
  rw [origins, origins, steps_append]
  exact List.prefix_append _ _

/-- Lists of which one begins with the other agree where both have an entry. -/
theorem getElem?_eq_of_prefix {α : Type*} {xs ys : List α} (h : xs <+: ys ∨ ys <+: xs) {n : Nat}
    {a b : α} (ha : xs[n]? = some a) (hb : ys[n]? = some b) : a = b := by
  rcases h with h | h
  · rw [List.prefix_iff_getElem?] at h
    obtain ⟨hn, rfl⟩ := List.getElem?_eq_some_iff.mp ha
    exact Option.some.inj ((h n hn).symm.trans hb)
  · rw [List.prefix_iff_getElem?] at h
    obtain ⟨hn, rfl⟩ := List.getElem?_eq_some_iff.mp hb
    exact Option.some.inj (ha.symm.trans (h n hn))

theorem BuiltFrom.unique {bs : List UInt8} {n : Nat} {o o' : Origin} (h : BuiltFrom bs n o)
    (h' : BuiltFrom bs n o') : o = o' := by
  obtain ⟨fs, tail, ⟨hbs, -⟩, ho⟩ := h
  obtain ⟨fs', tail', ⟨hbs', -⟩, ho'⟩ := h'
  have hpre := prefix_or_prefix_of_encodeFrames (hbs.symm.trans hbs')
  exact getElem?_eq_of_prefix (hpre.imp origins_prefix origins_prefix) ho ho'

/-! ### Firings and their origins -/

/-- What a firing shows of its origin. -/
def Shows (frame : WsFrame) (o : Origin) : Prop :=
  frame.opcode = o.opcode ∧ o.masks.getLast? = some frame.mask

/-- **Simulation.**  Firing by firing, the frames show their origins. -/
theorem frameSteps_shows {s : ParseState} {p : Provenance}
    (hc : s.parser.isContinuation = p.isContinuation) (hop : s.frame.opcode = p.origin.opcode)
    (fs : List Frame) :
    List.Forall₂ Shows (frameSteps s fs).2 (steps Provenance.step p fs).2 := by
  induction fs generalizing s p with
  | nil => exact .nil
  | cons f fs ih =>
    have hopcode : (completed s f).opcode = (p.step f).1.origin.opcode := by
      show (if starts s f.opcode then UInt8.ofNat f.opcode else s.frame.opcode) = _
      rw [starts_eq, hc, hop]
      rfl
    have hrest := ih (s := (frameStep s f).1) (p := (p.step f).1) rfl hopcode
    refine List.rel_append ?_ hrest
    show List.Forall₂ Shows (if f.fin then [completed s f] else [])
      (if f.fin then [(p.step f).1.origin] else [])
    split
    · refine .cons ⟨hopcode, ?_⟩ .nil
      exact List.getLast?_concat
    · exact .nil

/-- **Every firing has an origin.** -/
theorem exists_builtFrom {bs : List UInt8} {n : Nat} {frame : WsFrame}
    (h : (byteMachine.run (.init .init) bs).out[n]? = some frame) :
    ∃ o, BuiltFrom bs n o ∧ Shows frame o := by
  obtain ⟨fs, tail, hsplit, htail, hlast⟩ := exists_frames bs
  have hout : (byteMachine.run (.init .init) bs).out = (frameSteps (.init .init) fs).2 := by
    rcases htail with htail | ⟨hd, b, rest, rfl, hover⟩
    · have hnone := (run_unfinished (frameSteps_idle (Idle.init .init) fs) htail).2
      rw [run_framesThen (Idle.init .init) hsplit hlast, andThen_of_none rfl]
      show (frameSteps (.init .init) fs).2 ++ _ = _
      rw [hnone, List.append_nil]
    · rw [run_oversized (Idle.init .init) hsplit hover]
  have hshows : List.Forall₂ Shows (frameSteps (.init .init) fs).2 (origins fs) :=
    frameSteps_shows rfl rfl fs
  rw [hout] at h
  obtain ⟨hlen, hget⟩ := List.forall₂_iff_get.mp hshows
  obtain ⟨hn, rfl⟩ := List.getElem?_eq_some_iff.mp h
  have hn' : n < (origins fs).length := hlen ▸ hn
  exact ⟨(origins fs)[n], ⟨fs, tail, hsplit, List.getElem?_eq_getElem hn'⟩, hget n hn hn'⟩

end MyWebSocket
