import Mathlib.Data.List.Basic
import Mathlib.Logic.Basic
import Mathlib.Tactic.Common

/-!
# Stream transducers that may stop early

A `Transducer` reads one input symbol at a time, emits a list of outputs for each and may
stop with an error, after which it reads nothing more.  Runs over lists of symbols compose
(`run_append`), so the way an input is cut into chunks is unobservable
(`runChunks_eq_run_flatten`).

Some machines owe an output that they only emit when the next symbol arrives.  A `Settling`
names the transition that pays this debt; a run followed by it (`drain`) is compositional
again, and it agrees with the plain run on every input that leaves no debt (`drain_eq_run`).
-/

namespace Transducer

variable {σ α ω ε β : Type*}

/-- What is left after some input: the state, the outputs emitted, the error that stopped
    the machine (if any) and how many symbols it read without stopping. -/
@[ext] structure Outcome (σ ω ε : Type*) where
  state : σ
  out : List ω
  stop : Option ε
  consumed : Nat
deriving DecidableEq, Repr

namespace Outcome

/-- No input was read. -/
def ret (s : σ) : Outcome σ ω ε := ⟨s, [], none, 0⟩

/-- Go on from where `r` left off, unless `r` stopped. -/
def andThen (r : Outcome σ ω ε) (k : σ → Outcome σ ω ε) : Outcome σ ω ε :=
  match r.stop with
  | some _ => r
  | none =>
    { state := (k r.state).state, out := r.out ++ (k r.state).out, stop := (k r.state).stop,
      consumed := r.consumed + (k r.state).consumed }

@[simp] theorem ret_state (s : σ) : (ret s : Outcome σ ω ε).state = s := rfl
@[simp] theorem ret_out (s : σ) : (ret s : Outcome σ ω ε).out = [] := rfl
@[simp] theorem ret_stop (s : σ) : (ret s : Outcome σ ω ε).stop = none := rfl
@[simp] theorem ret_consumed (s : σ) : (ret s : Outcome σ ω ε).consumed = 0 := rfl

@[simp] theorem ret_andThen (s : σ) (k : σ → Outcome σ ω ε) : (ret s).andThen k = k s := by
  simp [andThen]

theorem andThen_of_stop {r : Outcome σ ω ε} {e : ε} (h : r.stop = some e)
    (k : σ → Outcome σ ω ε) : r.andThen k = r := by
  simp [andThen, h]

theorem andThen_of_none {r : Outcome σ ω ε} (h : r.stop = none) (k : σ → Outcome σ ω ε) :
    r.andThen k =
      { state := (k r.state).state, out := r.out ++ (k r.state).out,
        stop := (k r.state).stop, consumed := r.consumed + (k r.state).consumed } := by
  simp [andThen, h]

@[simp] theorem andThen_ret (r : Outcome σ ω ε) : r.andThen ret = r := by
  rcases hr : r.stop with _ | e
  · rw [andThen_of_none hr]
    ext <;> simp [hr]
  · exact andThen_of_stop hr _

theorem andThen_assoc (r : Outcome σ ω ε) (k l : σ → Outcome σ ω ε) :
    (r.andThen k).andThen l = r.andThen fun s => (k s).andThen l := by
  rcases hr : r.stop with _ | e
  · rcases hk : (k r.state).stop with _ | e'
    · rw [andThen_of_none hr, andThen_of_none hr, andThen_of_none (by exact hk),
        andThen_of_none hk]
      ext <;> simp [Nat.add_assoc]
    · rw [andThen_of_none hr, andThen_of_none hr, andThen_of_stop (by exact hk),
        andThen_of_stop hk]
  · rw [andThen_of_stop hr, andThen_of_stop hr, andThen_of_stop hr]

/-- If the composition did not stop, neither did its first part. -/
theorem stop_eq_none_of_andThen {r : Outcome σ ω ε} {k : σ → Outcome σ ω ε}
    (h : (r.andThen k).stop = none) : r.stop = none := by
  rcases hr : r.stop with _ | e
  · rfl
  · rw [andThen_of_stop hr, hr] at h
    exact h

/-- The outputs of the first part come first. -/
theorem out_prefix_andThen (r : Outcome σ ω ε) (k : σ → Outcome σ ω ε) :
    r.out <+: (r.andThen k).out := by
  rcases hr : r.stop with _ | e
  · rw [andThen_of_none hr]
    exact List.prefix_append _ _
  · simp only [andThen_of_stop hr, List.prefix_refl]

end Outcome

end Transducer

/-- One step on one symbol: the next state, the outputs and, where the machine stops, why. -/
structure Transducer (σ α ω ε : Type*) where
  step : σ → α → σ × List ω × Option ε

namespace Transducer

open Outcome

variable {σ α ω ε β : Type*} (T : Transducer σ α ω ε)

/-! ### Runs -/

/-- One step as an outcome; the symbol that stops the machine does not count as read. -/
def one (s : σ) (a : α) : Outcome σ ω ε :=
  match T.step s a with
  | (s', out, none) => ⟨s', out, none, 1⟩
  | (s', out, some e) => ⟨s', out, some e, 0⟩

/-- Read the symbols one after another until the input ends or the machine stops. -/
def run : σ → List α → Outcome σ ω ε
  | s, [] => ret s
  | s, a :: as => (T.one s a).andThen fun s' => run s' as

/-- Read the chunks one after another until the input ends or the machine stops. -/
def runChunks : σ → List (List α) → Outcome σ ω ε
  | s, [] => ret s
  | s, c :: cs => (T.run s c).andThen fun s' => runChunks s' cs

@[simp] theorem run_nil (s : σ) : T.run s [] = ret s := rfl

theorem run_cons (s : σ) (a : α) (as : List α) :
    T.run s (a :: as) = (T.one s a).andThen fun s' => T.run s' as := rfl

@[simp] theorem run_singleton (s : σ) (a : α) : T.run s [a] = T.one s a := by
  rw [run_cons]
  exact andThen_ret _

/-- **Runs compose.** -/
theorem run_append (s : σ) (as bs : List α) :
    T.run s (as ++ bs) = (T.run s as).andThen fun s' => T.run s' bs := by
  induction as generalizing s with
  | nil => simp
  | cons a as ih => simp only [List.cons_append, run_cons, andThen_assoc, ih]

/-- **Cuts are unobservable.**  Feeding chunks one after another is one run over their
    concatenation: same outputs, same stop at the same symbol, same final state. -/
theorem runChunks_eq_run_flatten (s : σ) (cs : List (List α)) :
    T.runChunks s cs = T.run s cs.flatten := by
  induction cs generalizing s with
  | nil => rfl
  | cons c cs ih => simp only [runChunks, List.flatten_cons, run_append, ih]

/-- A run that did not stop did not stop on any prefix of its input either. -/
theorem run_stop_none_of_append {s : σ} {as bs : List α}
    (h : (T.run s (as ++ bs)).stop = none) : (T.run s as).stop = none := by
  rw [run_append] at h
  exact stop_eq_none_of_andThen h

/-- The outputs on a prefix of the input are a prefix of the outputs. -/
theorem run_out_prefix (s : σ) (as bs : List α) :
    (T.run s as).out <+: (T.run s (as ++ bs)).out := by
  rw [run_append]
  exact out_prefix_andThen _ _

theorem one_state (s : σ) (a : α) : (T.one s a).state = (T.step s a).1 := by
  unfold one
  split <;> simp [*]

/-- A property that every step keeps, stopping or not, holds after every run. -/
theorem run_invariant {I : σ → Prop} (hstep : ∀ s a, I s → I (T.step s a).1) {s : σ}
    (hs : I s) (as : List α) : I (T.run s as).state := by
  induction as generalizing s with
  | nil => exact hs
  | cons a as ih =>
    have hone : I (T.one s a).state := by
      rw [one_state]
      exact hstep s a hs
    rw [run_cons]
    rcases hr : (T.one s a).stop with _ | e
    · rw [andThen_of_none hr]
      exact ih hone
    · rw [andThen_of_stop hr]
      exact hone

/-- What is true of every error a step stops with is true of the error a run stops with. -/
theorem run_stop {Q : ε → Prop} (hstep : ∀ s a e, (T.step s a).2.2 = some e → Q e) {s : σ}
    {as : List α} {e : ε} (h : (T.run s as).stop = some e) : Q e := by
  induction as generalizing s with
  | nil => exact absurd h (by simp)
  | cons a as ih =>
    have hone : (T.one s a).stop = (T.step s a).2.2 := by
      unfold one
      split <;> simp [*]
    rw [run_cons] at h
    rcases hr : (T.one s a).stop with _ | e'
    · rw [andThen_of_none hr] at h
      exact ih h
    · rw [andThen_of_stop hr, hr] at h
      obtain rfl : e' = e := Option.some.inj h
      exact hstep s a e' (hone ▸ hr)

/-- A run that did not stop read its whole input. -/
theorem run_consumed {s : σ} {as : List α} (h : (T.run s as).stop = none) :
    (T.run s as).consumed = as.length := by
  induction as generalizing s with
  | nil => rfl
  | cons a as ih =>
    have hone := stop_eq_none_of_andThen h
    rw [run_cons, andThen_of_none hone] at h ⊢
    have hread : (T.one s a).consumed = 1 := by
      unfold one at hone ⊢
      split <;> simp_all
    simp only [ih h, hread, List.length_cons]
    omega

end Transducer

/-! ### Deferred outputs -/

/-- A transition that pays the outputs a state still owes.  Reading a symbol pays them first
    (`step_settle`), and a settled state owes nothing (`settle_idem`). -/
structure Transducer.Settling {σ α ω ε : Type*} (T : Transducer σ α ω ε) where
  settle : σ → σ × List ω
  settle_idem : ∀ s, settle (settle s).1 = ((settle s).1, [])
  step_settle : ∀ s a, T.step s a =
    ((T.step (settle s).1 a).1, (settle s).2 ++ (T.step (settle s).1 a).2.1,
      (T.step (settle s).1 a).2.2)

namespace Transducer.Settling

open Transducer.Outcome

variable {σ α ω ε β : Type*} {T : Transducer σ α ω ε} (S : T.Settling)

/-- Paying the debt as an outcome. -/
def paid (s : σ) : Outcome σ ω ε := ⟨(S.settle s).1, (S.settle s).2, none, 0⟩

/-- Run, then pay what is still owed. -/
def drain (s : σ) (as : List α) : Outcome σ ω ε := (T.run s as).andThen S.paid

theorem paid_andThen_paid (s : σ) : (S.paid s).andThen S.paid = S.paid s := by
  rw [andThen_of_none rfl]
  simp [paid, S.settle_idem]

theorem paid_andThen_one (s : σ) (a : α) : (S.paid s).andThen (T.one · a) = T.one s a := by
  rw [andThen_of_none rfl]
  rw [paid, one, one, S.step_settle s a]
  rcases T.step (S.settle s).1 a with ⟨s', out, _ | e⟩ <;> simp

/-- Reading anything pays the debt first. -/
theorem paid_andThen_run (s : σ) {as : List α} (h : as ≠ []) :
    (S.paid s).andThen (T.run · as) = T.run s as := by
  cases as with
  | nil => exact absurd rfl h
  | cons a as =>
    simp only [run_cons]
    rw [← andThen_assoc, paid_andThen_one]

/-- A run split before a non-empty rest may pay the debt at the split. -/
theorem run_append_of_ne_nil (s : σ) (as : List α) {bs : List α} (h : bs ≠ []) :
    T.run s (as ++ bs) = (S.drain s as).andThen (T.run · bs) := by
  rw [run_append, drain, andThen_assoc]
  simp only [S.paid_andThen_run _ h]

/-- **Drained runs compose.** -/
theorem drain_append (s : σ) (as bs : List α) :
    S.drain s (as ++ bs) = (S.drain s as).andThen (S.drain · bs) := by
  by_cases h : bs = []
  · -- nothing to read that would pay the debt: it is paid once, not twice
    subst h
    have hpaid : (fun s => S.drain s []) = S.paid := by
      funext s
      simp [drain]
    rw [List.append_nil, hpaid, drain, andThen_assoc]
    simp only [paid_andThen_paid]
  · rw [drain, S.run_append_of_ne_nil s as h, andThen_assoc]
    rfl

/-- A run whose last state owes nothing is a drained run. -/
theorem drain_eq_run {s : σ} {as : List α}
    (h : S.settle (T.run s as).state = ((T.run s as).state, [])) :
    S.drain s as = T.run s as := by
  rcases hr : (T.run s as).stop with _ | e
  · rw [drain, andThen_of_none hr]
    ext <;> simp [paid, h, hr]
  · exact andThen_of_stop hr _

end Transducer.Settling

/-! ### Items -/

namespace Transducer

open Outcome

variable {σ α ω ε β : Type*}

/-- Fold a step that reads whole items, collecting its outputs. -/
def steps (item : σ → β → σ × List ω) : σ → List β → σ × List ω
  | s, [] => (s, [])
  | s, b :: bs => ((steps item (item s b).1 bs).1, (item s b).2 ++ (steps item (item s b).1 bs).2)

theorem steps_append (item : σ → β → σ × List ω) (s : σ) (bs cs : List β) :
    steps item s (bs ++ cs) =
      ((steps item (steps item s bs).1 cs).1,
        (steps item s bs).2 ++ (steps item (steps item s bs).1 cs).2) := by
  induction bs generalizing s with
  | nil => rfl
  | cons b bs ih => simp [steps, ih]

theorem steps_invariant {item : σ → β → σ × List ω} {I : σ → Prop} {P : β → Prop}
    (hinv : ∀ s b, I s → P b → I (item s b).1) {s : σ} (hs : I s) {bs : List β}
    (hbs : ∀ b ∈ bs, P b) : I (steps item s bs).1 := by
  induction bs generalizing s with
  | nil => exact hs
  | cons b bs ih =>
    exact ih (hinv s b hs (hbs b (by simp))) fun c hc => hbs c (by simp [hc])

/-- **Items.**  If the drained run over the encoding of one item is one step `item` of a
    coarser machine, the drained run over the encodings of a list of items folds `item`. -/
theorem Settling.drain_flatMap {T : Transducer σ α ω ε} (S : T.Settling) {enc : β → List α}
    {item : σ → β → σ × List ω} {I : σ → Prop} {P : β → Prop}
    (hitem : ∀ s b, I s → P b →
      S.drain s (enc b) = ⟨(item s b).1, (item s b).2, none, (enc b).length⟩)
    (hinv : ∀ s b, I s → P b → I (item s b).1)
    (hsettled : ∀ s, I s → S.settle s = (s, [])) {s : σ} (hs : I s) {bs : List β}
    (hbs : ∀ b ∈ bs, P b) :
    S.drain s (bs.flatMap enc) =
      ⟨(steps item s bs).1, (steps item s bs).2, none, (bs.flatMap enc).length⟩ := by
  induction bs generalizing s with
  | nil =>
    -- `I` excludes a debt from before the first item
    simp [drain, paid, hsettled s hs, steps]
  | cons b bs ih =>
    have hb : P b := hbs b (by simp)
    have hrest := ih (hinv s b hs hb) fun c hc => hbs c (by simp [hc])
    rw [List.flatMap_cons, S.drain_append, hitem s b hs hb, andThen_of_none rfl, hrest]
    simp [steps]

end Transducer

/-! ### Scans -/

namespace Transducer

open Outcome

variable {σ τ α ω ε : Type*}

/-- What a scan leaves: the state, the symbols passed over and those behind them. -/
structure Scan (σ α : Type*) where
  state : σ
  taken : List α
  rest : List α
deriving DecidableEq, Repr

/-- Pass over the symbols that a partial step accepts, up to the first that it does not. -/
def scan (f : σ → α → Option σ) : σ → List α → Scan σ α
  | s, [] => ⟨s, [], []⟩
  | s, a :: as =>
    match f s a with
    | none => ⟨s, [], a :: as⟩
    | some s' => { scan f s' as with taken := a :: (scan f s' as).taken }

variable {f : σ → α → Option σ}

theorem scan_cons_none {s : σ} {a : α} (h : f s a = none) (as : List α) :
    scan f s (a :: as) = ⟨s, [], a :: as⟩ := by
  rw [scan, h]

theorem scan_cons_some {s s' : σ} {a : α} (h : f s a = some s') (as : List α) :
    scan f s (a :: as) = { scan f s' as with taken := a :: (scan f s' as).taken } := by
  rw [scan, h]

/-- Nothing is lost. -/
theorem taken_append_rest (f : σ → α → Option σ) (s : σ) (as : List α) :
    (scan f s as).taken ++ (scan f s as).rest = as := by
  induction as generalizing s with
  | nil => rfl
  | cons a as ih =>
    rcases h : f s a with _ | s'
    · rw [scan_cons_none h]
      rfl
    · rw [scan_cons_some h]
      exact congrArg (a :: ·) (ih s')

/-- The symbols passed over have been accepted one after another. -/
theorem foldlM_taken (f : σ → α → Option σ) (s : σ) (as : List α) :
    (scan f s as).taken.foldlM f s = some (scan f s as).state := by
  induction as generalizing s with
  | nil => rfl
  | cons a as ih =>
    rcases h : f s a with _ | s'
    · rw [scan_cons_none h]
      rfl
    · rw [scan_cons_some h]
      simp only [List.foldlM_cons, h, Option.bind_eq_bind, Option.bind_some, ih]

/-- The symbol that ends a scan is not accepted. -/
theorem scan_rest {s : σ} {as : List α} {a : α} {rest : List α}
    (h : (scan f s as).rest = a :: rest) : f (scan f s as).state a = none := by
  induction as generalizing s with
  | nil => cases h
  | cons b as ih =>
    rcases hb : f s b with _ | s'
    · rw [scan_cons_none hb] at h ⊢
      cases h
      exact hb
    · rw [scan_cons_some hb] at h ⊢
      exact ih h

/-- A scan over symbols that are accepted. -/
theorem scan_append {s s' : σ} {as : List α} (h : as.foldlM f s = some s') (bs : List α) :
    scan f s (as ++ bs) = { scan f s' bs with taken := as ++ (scan f s' bs).taken } := by
  induction as generalizing s with
  | nil =>
    cases h
    rfl
  | cons a as ih =>
    rw [List.foldlM_cons] at h
    obtain ⟨s₁, hs₁, hrest⟩ := Option.bind_eq_some_iff.mp h
    rw [List.cons_append, scan_cons_some hs₁, ih hrest]
    rfl

/-- Where the symbols of a list are accepted, so are those of the lists it begins with. -/
theorem foldlM_take {s s' : σ} {as : List α} (h : as.foldlM f s = some s') (n : Nat) :
    ∃ t, (as.take n).foldlM f s = some t := by
  rw [← List.take_append_drop n as, List.foldlM_append] at h
  obtain ⟨t, ht, -⟩ := Option.bind_eq_some_iff.mp h
  exact ⟨t, ht⟩

/-- What every accepted symbol keeps. -/
theorem foldlM_invariant {I : σ → Prop} (hstep : ∀ s a s', I s → f s a = some s' → I s')
    {s s' : σ} {as : List α} (h : as.foldlM f s = some s') (hs : I s) : I s' := by
  induction as generalizing s with
  | nil =>
    cases h
    exact hs
  | cons a as ih =>
    rw [List.foldlM_cons] at h
    obtain ⟨s₁, hs₁, hrest⟩ := Option.bind_eq_some_iff.mp h
    exact ih hrest (hstep s a s₁ hs hs₁)

/-- **A run over accepted symbols**, for a machine whose steps on them are those of `f` on the
    states that `state` shows it, at every position. -/
theorem run_of_foldlM (T : Transducer τ α ω ε) (state : σ → Nat → τ) (out : α → List ω)
    (limit : Nat)
    (hstep : ∀ s s' a n, n < limit → f s a = some s' →
      T.step (state s n) a = (state s' (n + 1), out a, none))
    {s s' : σ} {as : List α} (h : as.foldlM f s = some s') {n : Nat}
    (hn : n + as.length ≤ limit) :
    T.run (state s n) as = ⟨state s' (n + as.length), as.flatMap out, none, as.length⟩ := by
  induction as generalizing s n with
  | nil =>
    cases h
    rfl
  | cons a as ih =>
    rw [List.foldlM_cons] at h
    obtain ⟨s₁, hs₁, hrest⟩ := Option.bind_eq_some_iff.mp h
    rw [List.length_cons] at hn
    have hone : T.one (state s n) a = ⟨state s₁ (n + 1), out a, none, 1⟩ := by
      rw [one, hstep s s₁ a n (by omega) hs₁]
    have hlen : n + 1 + as.length = n + (as.length + 1) := by omega
    rw [run_cons, hone, andThen_of_none rfl, ih hrest (by omega)]
    simp only [hlen, List.length_cons, List.flatMap_cons, Nat.add_comm as.length 1]

/-! ### Parts of an input

A run taken apart at the places where the input is.  What stands behind a part is a parameter: a
machine may do something with the next symbol that belongs to the part in front of it. -/

variable {T : Transducer σ α ω ε} {s t u : σ} {as bs rest : List α} {os os' : List ω}

/-- In front of `rest`, the machine reads `as` with the outputs `os`, and goes on from `t`. -/
def Passes (T : Transducer σ α ω ε) (s : σ) (as rest : List α) (os : List ω) (t : σ) : Prop :=
  T.run s (as ++ rest) = (⟨t, os, none, as.length⟩ : Outcome σ ω ε).andThen (T.run · rest)

theorem Passes.refl (s : σ) (rest : List α) : T.Passes s [] rest [] s :=
  (ret_andThen s (T.run · rest)).symm

theorem Passes.of_run (h : T.run s as = ⟨t, os, none, as.length⟩) (rest : List α) :
    T.Passes s as rest os t := by
  rw [Passes, run_append, h]

theorem Passes.of_step {a : α} (h : T.step s a = (t, os, none)) (rest : List α) :
    T.Passes s [a] rest os t := by
  apply Passes.of_run
  rw [run_singleton, one, h]
  rfl

/-- One part after the other. -/
theorem Passes.append (h : T.Passes s as (bs ++ rest) os t) (h' : T.Passes t bs rest os' u) :
    T.Passes s (as ++ bs) rest (os ++ os') u := by
  rw [Passes] at h h' ⊢
  rw [List.append_assoc, h, andThen_of_none rfl, h', andThen_of_none rfl, andThen_of_none rfl]
  simp only [List.append_assoc, List.length_append, Nat.add_assoc]

/-- What is owed is output with the next symbol. -/
theorem Passes.of_owed {a : α}
    (h : T.step s a = ((T.step t a).1, os ++ (T.step t a).2.1, (T.step t a).2.2)) :
    T.Passes s [] (a :: rest) os t := by
  have hone : T.one s a = (⟨t, os, none, 0⟩ : Outcome σ ω ε).andThen (T.one · a) := by
    rw [andThen_of_none rfl, one, one, h]
    generalize T.step t a = r
    obtain ⟨t', os', halt⟩ := r
    cases halt <;> simp
  rw [Passes, List.nil_append, run_cons, hone, andThen_assoc]
  rfl

/-- The input ends behind the part. -/
theorem Passes.run (h : T.Passes s as [] os t) : T.run s as = ⟨t, os, none, as.length⟩ := by
  rw [Passes, List.append_nil] at h
  rw [h]
  exact andThen_ret _

/-- The machine stops behind the part. -/
theorem Passes.run_stop {e : ε} {a : α} (h : T.Passes s as (a :: rest) os t)
    (hstop : T.step t a = (u, os', some e)) :
    T.run s (as ++ a :: rest) = ⟨u, os ++ os', some e, as.length⟩ := by
  have hone : T.one t a = ⟨u, os', some e, 0⟩ := by
    rw [one, hstop]
  rw [h, andThen_of_none rfl, run_cons, hone, andThen_of_stop rfl]
  rfl

end Transducer
