import Mathlib.Data.List.Basic
import Mathlib.Algebra.Order.Ring.Nat
import Mathlib.Tactic.Common

/-!
# Regular expressions with priorities

Backtracking matchers do not only say whether a text matches: they prefer some ways to match
over others, and the groups they report are those of the first way that works.  `exec` lists
all the ways an expression matches from a `Cursor` on, the preferred one first, by the rules of
ECMAScript: the left alternative first, a greedy repetition with as many rounds as possible, no
empty round beyond the required ones, and the groups inside a repetition forgotten at each round.

`fullMatch` is the first way to match a whole text.  `tokens` cuts a text into the matches an
iterator finds in it, from the left and without overlap, and the symbols between them.
-/

namespace Regex

variable {α : Type*}

/-- A place in a text: the symbols before it, the last one first, those after it, and the
    groups captured on the way, the latest first. -/
structure Cursor (α : Type*) where
  past : List α
  rest : List α
  caps : List (Nat × List α)

/-- Expressions over the symbols `α`. -/
inductive Re (α : Type*)
  | eps
  | set (p : α → Bool)
  | seq (a b : Re α)
  | alt (a b : Re α)
  | rep (least : Nat) (most : Option Nat) (greedy : Bool) (a : Re α)
  | group (i : Nat) (a : Re α)
  | assert (p : List α → List α → Bool)
  | look (positive : Bool) (a : Re α)
  | backref (i : Nat)

namespace Cursor

/-- The start of a text. -/
def start (s : List α) : Cursor α := ⟨[], s, []⟩

/-- `n` symbols further. -/
def move (c : Cursor α) (n : Nat) : Cursor α :=
  { c with past := (c.rest.take n).reverse ++ c.past, rest := c.rest.drop n }

/-- The groups with these indices are forgotten. -/
def forget (c : Cursor α) (is : List Nat) : Cursor α :=
  { c with caps := c.caps.filter fun e => e.1 ∉ is }

/-- No group is captured yet. -/
def fresh (c : Cursor α) : Cursor α := { c with caps := [] }

/-- The text from `c` up to `c'`. -/
def upTo (c c' : Cursor α) : List α := c.rest.take (c.rest.length - c'.rest.length)

/-- Group `i` is the text from `c` up to here. -/
def capture (c' : Cursor α) (i : Nat) (c : Cursor α) : Cursor α :=
  { c' with caps := (i, c.upTo c') :: c'.caps }

@[simp] theorem start_rest (s : List α) : (start s).rest = s := rfl
@[simp] theorem start_caps (s : List α) : (start s).caps = [] := rfl
@[simp] theorem move_rest (c : Cursor α) (n : Nat) : (c.move n).rest = c.rest.drop n := rfl
@[simp] theorem move_caps (c : Cursor α) (n : Nat) : (c.move n).caps = c.caps := rfl
@[simp] theorem fresh_rest (c : Cursor α) : c.fresh.rest = c.rest := rfl
@[simp] theorem fresh_caps (c : Cursor α) : c.fresh.caps = [] := rfl
@[simp] theorem forget_rest (c : Cursor α) (is : List Nat) : (c.forget is).rest = c.rest := rfl
@[simp] theorem capture_rest (c' c : Cursor α) (i : Nat) : (c'.capture i c).rest = c'.rest := rfl
@[simp] theorem capture_caps (c' c : Cursor α) (i : Nat) :
    (c'.capture i c).caps = (i, c.upTo c') :: c'.caps := rfl

@[simp] theorem move_zero (c : Cursor α) : c.move 0 = c := by
  simp [move]

@[simp] theorem forget_nil (c : Cursor α) : c.forget [] = c := by
  simp [forget]

theorem move_move (c : Cursor α) (m n : Nat) : (c.move m).move n = c.move (m + n) := by
  simp only [move, List.drop_drop, Cursor.mk.injEq, and_true, List.take_add]
  simp

/-- The text passed by a move. -/
theorem upTo_move (c : Cursor α) {n : Nat} (h : n ≤ c.rest.length) :
    c.upTo (c.move n) = c.rest.take n := by
  have hlen : c.rest.length - (c.rest.length - n) = n := by omega
  rw [upTo, move_rest, List.length_drop, hlen]

end Cursor

/-- The groups of an expression. -/
def Re.groups : Re α → List Nat
  | .eps | .set _ | .assert _ | .backref _ => []
  | .seq a b | .alt a b => a.groups ++ b.groups
  | .rep _ _ _ a | .look _ a => a.groups
  | .group i a => i :: a.groups

/-- At least `least` and at most `most` rounds of `m`; `fuel` bounds their number. -/
def rounds (m : Cursor α → List (Cursor α)) (greedy : Bool) :
    Nat → Nat → Option Nat → Cursor α → List (Cursor α)
  | 0, _, _, _ => []
  | fuel + 1, least, most, c =>
    if most = some 0 then [c]
    else
      -- a round beyond the required ones may not be empty
      let more := ((m c).filter fun c' => least ≠ 0 || c'.rest.length ≠ c.rest.length).flatMap
        (rounds m greedy fuel (least - 1) (most.map (· - 1)))
      if least ≠ 0 then more else if greedy then more ++ [c] else c :: more

/-- The ways `re` matches from `c` on, as the places where they end, in order of preference. -/
def exec [BEq α] : Re α → Cursor α → List (Cursor α)
  | .eps, c => [c]
  | .set p, c => if c.rest.head?.any p then [c.move 1] else []
  | .seq a b, c => (exec a c).flatMap (exec b)
  | .alt a b, c => exec a c ++ exec b c
  | .rep least most greedy a, c =>
    rounds (fun c' => exec a (c'.forget a.groups)) greedy (least + c.rest.length + 1) least most c
  | .group i a, c => (exec a c).map fun c' => c'.capture i c
  | .assert p, c => if p c.past c.rest then [c] else []
  | .look true a, c => (exec a c).head?.toList.map fun c' => { c with caps := c'.caps }
  | .look false a, c => if (exec a c).isEmpty then [c] else []
  | .backref i, c =>
    let text := (c.caps.lookup i).getD []
    if text.isPrefixOf c.rest then [c.move text.length] else []

/-- The first way `re` matches the whole of a text. -/
def fullMatch [BEq α] (re : Re α) (s : List α) : Option (Cursor α) :=
  (exec re (.start s)).find? (·.rest.isEmpty)

/-- The first way `re` matches from `c` on, with `notNull` the first one that is not empty. -/
def matchAt [BEq α] (re : Re α) (notNull : Bool) (c : Cursor α) : Option (Cursor α) :=
  (exec re c.fresh).find? fun c' => !notNull || c'.rest.length ≠ c.rest.length

/-- What an iterator makes of a text: a symbol outside its matches, or a match, with its text
    and its groups. -/
inductive Token (α : Type*)
  | plain (x : α)
  | hit (text : List α) (caps : List (Nat × List α))

/-- The tokens from `c` on, with fuel; `notNull` is set behind an empty match. -/
def tokensLoop [BEq α] (re : Re α) : Nat → Bool → Cursor α → List (Token α)
  | 0, _, _ => []
  | fuel + 1, notNull, c =>
    match matchAt re notNull c with
    | some c' =>
      .hit (c.upTo c') c'.caps :: tokensLoop re fuel (c'.rest.length == c.rest.length) c'
    | none =>
      match c.rest with
      | [] => []
      | x :: _ => .plain x :: tokensLoop re fuel false (c.move 1)

/-- The tokens from `c` on. -/
def tokens [BEq α] (re : Re α) (c : Cursor α) : List (Token α) :=
  tokensLoop re (2 * c.rest.length + 2) false c

/-- A group of a match, empty where it took no part in it. -/
def Token.cap : Token α → Nat → List α
  | .plain _, _ => []
  | .hit text caps, i => if i = 0 then text else (caps.lookup i).getD []

/-- The matches among the tokens. -/
def Token.isHit : Token α → Bool
  | .plain _ => false
  | .hit _ _ => true

/-- The text with every match replaced. -/
def replaced (fmt : Token α → List α) (ts : List (Token α)) : List α :=
  ts.flatMap fun t =>
    match t with
    | .plain x => [x]
    | .hit text caps => fmt (.hit text caps)

section Exec

variable [BEq α]

@[simp] theorem exec_eps (c : Cursor α) : exec .eps c = [c] := rfl

theorem exec_set (p : α → Bool) (c : Cursor α) :
    exec (.set p) c = if c.rest.head?.any p then [c.move 1] else [] := rfl

theorem exec_seq (a b : Re α) (c : Cursor α) :
    exec (.seq a b) c = (exec a c).flatMap (exec b) := rfl

theorem exec_group (i : Nat) (a : Re α) (c : Cursor α) :
    exec (.group i a) c = (exec a c).map fun c' => c'.capture i c := rfl

/-! ### Nothing is read twice -/

omit [BEq α] in
theorem rounds_length_le {m : Cursor α → List (Cursor α)} {greedy : Bool}
    (hm : ∀ c, ∀ c' ∈ m c, c'.rest.length ≤ c.rest.length) (fuel : Nat) :
    ∀ (least : Nat) (most : Option Nat) (c : Cursor α),
      ∀ c' ∈ rounds m greedy fuel least most c, c'.rest.length ≤ c.rest.length := by
  induction fuel with
  | zero =>
    intro least most c c' h
    simp [rounds] at h
  | succ fuel ih =>
    intro least most c c' h
    have hmore : ∀ c' ∈ ((m c).filter fun c' =>
        least ≠ 0 || c'.rest.length ≠ c.rest.length).flatMap
          (rounds m greedy fuel (least - 1) (most.map (· - 1))),
        c'.rest.length ≤ c.rest.length := by
      intro c' h
      obtain ⟨d, hd, hc'⟩ := List.mem_flatMap.mp h
      exact (ih _ _ d c' hc').trans (hm c d (List.mem_of_mem_filter hd))
    simp only [rounds] at h
    split at h
    · rw [List.mem_singleton] at h
      rw [h]
    · -- the rounds behind this one, and the way out here
      split at h
      · exact hmore c' h
      · split at h
        · rcases List.mem_append.mp h with h | h
          · exact hmore c' h
          · rw [List.mem_singleton.mp h]
        · rcases List.mem_cons.mp h with h | h
          · rw [h]
          · exact hmore c' h

/-- No way to match ends before it starts. -/
theorem exec_length_le (re : Re α) :
    ∀ (c c' : Cursor α), c' ∈ exec re c → c'.rest.length ≤ c.rest.length := by
  induction re with
  | eps =>
    intro c c' h
    rw [exec_eps, List.mem_singleton] at h
    rw [h]
  | set p =>
    intro c c' h
    rw [exec_set] at h
    split at h
    · rw [List.mem_singleton.mp h, Cursor.move_rest, List.length_drop]
      omega
    · simp at h
  | seq a b iha ihb =>
    intro c c' h
    obtain ⟨d, hd, hc'⟩ := List.mem_flatMap.mp h
    exact (ihb d c' hc').trans (iha c d hd)
  | alt a b iha ihb =>
    intro c c' h
    rcases List.mem_append.mp h with h | h
    · exact iha c c' h
    · exact ihb c c' h
  | rep least most greedy a ih =>
    intro c c' h
    exact rounds_length_le (fun c d hd => ih (c.forget a.groups) d hd) _ _ _ c c' h
  | group i a ih =>
    intro c c' h
    obtain ⟨d, hd, rfl⟩ := List.mem_map.mp h
    exact ih c d hd
  | assert p =>
    intro c c' h
    simp only [exec] at h
    split at h
    · rw [List.mem_singleton.mp h]
    · simp at h
  | look positive a ih =>
    intro c c' h
    cases positive with
    | true =>
      obtain ⟨d, -, rfl⟩ := List.mem_map.mp h
      exact le_refl _
    | false =>
      simp only [exec] at h
      split at h
      · rw [List.mem_singleton.mp h]
      · simp at h
  | backref i =>
    intro c c' h
    simp only [exec] at h
    split at h
    · rw [List.mem_singleton.mp h, Cursor.move_rest, List.length_drop]
      omega
    · simp at h

/-! ### Repeated classes of symbols -/

/-- The order in which a repetition tries the numbers of rounds. -/
def prefer {β : Type*} (greedy : Bool) (l : List β) : List β := if greedy then l.reverse else l

theorem prefer_cons {β : Type*} (greedy : Bool) (x : β) (l : List β) :
    prefer greedy (x :: l) = if greedy then prefer greedy l ++ [x] else x :: prefer greedy l := by
  cases greedy <;> simp [prefer]

theorem map_prefer {β γ : Type*} (greedy : Bool) (f : β → γ) (l : List β) :
    (prefer greedy l).map f = prefer greedy (l.map f) := by
  cases greedy <;> simp [prefer]

omit [BEq α] in
/-- The places one symbol further on. -/
theorem map_move_succ (c : Cursor α) (k : Nat) :
    (List.range k).map (c.move 1).move = (List.range' 1 k).map c.move := by
  rw [List.range'_eq_map_range, List.map_map]
  congr 1
  funext i
  show (c.move 1).move i = c.move (1 + i)
  rw [Cursor.move_move]

/-- Any number of symbols of a class: as many as there are, or any fewer. -/
theorem rounds_set (p : α → Bool) (greedy : Bool) (fuel : Nat) :
    ∀ c : Cursor α, c.rest.length < fuel →
      rounds (exec (.set p)) greedy fuel 0 none c =
        prefer greedy ((List.range ((c.rest.takeWhile p).length + 1)).map c.move) := by
  induction fuel with
  | zero =>
    intro c h
    omega
  | succ fuel ih =>
    intro c h
    have hmore : ((exec (.set p) c).filter fun c' =>
        (0 : Nat) ≠ 0 || c'.rest.length ≠ c.rest.length).flatMap
          (rounds (exec (.set p)) greedy fuel 0 none) =
        prefer greedy ((List.range' 1 (c.rest.takeWhile p).length).map c.move) := by
      cases hrest : c.rest with
      | nil => simp [exec_set, hrest, prefer]
      | cons x r =>
        by_cases hx : p x = true
        · have hmove : (c.move 1).rest = r := by
            rw [Cursor.move_rest, hrest, List.drop_one, List.tail_cons]
          have hr : (c.move 1).rest.length < fuel := by
            rw [hrest, List.length_cons] at h
            rw [hmove]
            omega
          have hexec : (exec (.set p) c).filter (fun c' =>
              (0 : Nat) ≠ 0 || c'.rest.length ≠ (x :: r).length) = [c.move 1] := by
            simp [exec_set, hrest, hx]
          rw [hexec, List.flatMap_singleton, ih (c.move 1) hr, hmove,
            List.takeWhile_cons_of_pos hx, List.length_cons, map_move_succ]
        · simp [exec_set, hrest, hx, prefer]
    have hrange : List.range ((c.rest.takeWhile p).length + 1) =
        0 :: List.range' 1 (c.rest.takeWhile p).length := by
      rw [List.range_eq_range', List.range'_succ]
    rw [rounds, if_neg (by simp), hrange, List.map_cons, Cursor.move_zero, prefer_cons, ← hmore]
    rfl

/-- At least one symbol of a class. -/
theorem exec_some_set (p : α → Bool) (greedy : Bool) (c : Cursor α) :
    exec (.rep 1 none greedy (.set p)) c =
      prefer greedy ((List.range' 1 (c.rest.takeWhile p).length).map c.move) := by
  have hforget : (fun c' : Cursor α => exec (.set p) (c'.forget (Re.set p).groups)) =
      exec (.set p) := by
    funext c'
    rw [Re.groups, Cursor.forget_nil]
  have hfirst : exec (.rep 1 none greedy (.set p)) c =
      (exec (.set p) c).flatMap
        (rounds (exec (.set p)) greedy (1 + c.rest.length) 0 none) := by
    show rounds (fun c' : Cursor α => exec (.set p) (c'.forget (Re.set p).groups)) greedy
      (1 + c.rest.length + 1) 1 none c = _
    rw [hforget, rounds, if_neg (by simp)]
    simp
  rw [hfirst]
  cases hrest : c.rest with
  | nil => simp [exec_set, hrest, prefer]
  | cons x r =>
    by_cases hx : p x = true
    · have hmove : (c.move 1).rest = r := by
        rw [Cursor.move_rest, hrest, List.drop_one, List.tail_cons]
      have hexec : exec (.set p) c = [c.move 1] := by
        simp [exec_set, hrest, hx]
      rw [hexec, List.flatMap_singleton, rounds_set p greedy _ _
        (by rw [hmove, List.length_cons]; omega), hmove, List.takeWhile_cons_of_pos hx,
        List.length_cons, map_move_succ]
    · simp [exec_set, hrest, hx, prefer]

/-! ### One thing behind another -/

@[simp] theorem exec_seq_eps (a : Re α) (c : Cursor α) : exec (.seq a .eps) c = exec a c := by
  have heps : exec (Re.eps : Re α) = fun c => [c] := by
    funext c
    rfl
  rw [exec_seq, heps, List.flatMap_singleton']

theorem exec_seq_set {p : α → Bool} {b : Re α} {c : Cursor α} {x : α} {r : List α}
    (hrest : c.rest = x :: r) :
    exec (.seq (.set p) b) c = if p x then exec b (c.move 1) else [] := by
  rw [exec_seq, exec_set, hrest, List.head?_cons, Option.any_some]
  split
  · rw [List.flatMap_singleton]
  · rfl

theorem exec_seq_set_nil {p : α → Bool} {b : Re α} {c : Cursor α} (hrest : c.rest = []) :
    exec (.seq (.set p) b) c = [] := by
  rw [exec_seq, exec_set, hrest]
  rfl

/-- A captured repetition of a class tries the rest behind each number of symbols. -/
theorem exec_captured (p : α → Bool) (greedy : Bool) (i : Nat) (b : Re α) (c : Cursor α) :
    exec (.seq (.group i (.seq (.rep 1 none greedy (.set p)) .eps)) b) c =
      (prefer greedy (List.range' 1 (c.rest.takeWhile p).length)).flatMap
        fun j => exec b ((c.move j).capture i c) := by
  rw [exec_seq, exec_group, exec_seq_eps, exec_some_set, ← map_prefer, List.map_map,
    List.flatMap_map]
  rfl

omit [BEq α] in
/-- The symbol behind a part of a run is still in the class. -/
theorem head?_drop_of_lt {p : α → Bool} : ∀ {l : List α} {j : Nat},
    j < (l.takeWhile p).length → (l.drop j).head?.any p = true := by
  intro l
  induction l with
  | nil =>
    intro j h
    simp at h
  | cons x l ih =>
    intro j h
    by_cases hx : p x = true
    · cases j with
      | zero => simpa using hx
      | succ j =>
        rw [List.takeWhile_cons_of_pos hx, List.length_cons] at h
        exact ih (by omega)
    · simp [hx] at h

/-- Where the rest cannot start inside the class the repetition takes the whole run. -/
theorem exec_captured_run {p : α → Bool} {b : Re α}
    (hb : ∀ d : Cursor α, d.rest.head?.any p = true → exec b d = []) (i : Nat) (c : Cursor α) :
    exec (.seq (.group i (.seq (.rep 1 none true (.set p)) .eps)) b) c =
      if c.rest.takeWhile p = [] then []
      else exec b ((c.move (c.rest.takeWhile p).length).capture i c) := by
  rw [exec_captured]
  cases hk : (c.rest.takeWhile p).length with
  | zero => rw [if_pos (List.eq_nil_of_length_eq_zero hk)]; rfl
  | succ k =>
    have hne : c.rest.takeWhile p ≠ [] := by
      intro h
      rw [h] at hk
      simp at hk
    -- fewer symbols than there are leave one of the class in front of the rest
    have hfewer : ∀ j ∈ List.range' 1 k, exec b ((c.move j).capture i c) = [] := by
      intro j hj
      rw [List.mem_range'_1] at hj
      refine hb _ ?_
      rw [Cursor.capture_rest, Cursor.move_rest]
      exact head?_drop_of_lt (by omega)
    have horder : prefer true (List.range' 1 (k + 1)) = (k + 1) :: (List.range' 1 k).reverse := by
      rw [prefer, if_pos rfl, List.range'_concat, List.reverse_append, List.reverse_singleton,
        List.singleton_append, Nat.one_mul, Nat.add_comm 1 k]
    rw [if_neg hne, horder, List.flatMap_cons]
    have hnone : ((List.range' 1 k).reverse).flatMap
        (fun j => exec b ((c.move j).capture i c)) = [] := by
      rw [List.flatMap_eq_nil_iff]
      intro j hj
      exact hfewer j (List.mem_reverse.mp hj)
    rw [hnone, List.append_nil]

/-- With nothing behind it the repetition takes the whole run first. -/
theorem head?_captured_eps (p : α → Bool) (i : Nat) {c : Cursor α}
    (hne : c.rest.takeWhile p ≠ []) :
    (exec (.seq (.group i (.seq (.rep 1 none true (.set p)) .eps)) .eps) c).head? =
      some ((c.move (c.rest.takeWhile p).length).capture i c) := by
  obtain ⟨k, hk⟩ := Nat.exists_eq_succ_of_ne_zero (List.length_pos_iff.mpr hne).ne'
  rw [exec_captured, hk, prefer, if_pos rfl, Nat.succ_eq_add_one, List.range'_concat,
    List.reverse_append, List.reverse_singleton, List.singleton_append, List.flatMap_cons,
    exec_eps, List.singleton_append, List.head?_cons, Nat.one_mul, Nat.add_comm 1 k]

/-- The first way a lazy repetition works: the least number of symbols behind which the rest
    does. -/
theorem head?_captured_lazy (p : α → Bool) (i : Nat) (b : Re α) (c : Cursor α) :
    (exec (.seq (.group i (.seq (.rep 1 none false (.set p)) .eps)) b) c).head? =
      (List.range' 1 (c.rest.takeWhile p).length).findSome?
        fun j => (exec b ((c.move j).capture i c)).head? := by
  rw [exec_captured, prefer, if_neg (by simp), List.head?_flatMap]

theorem matchAt_false (re : Re α) (c : Cursor α) :
    matchAt re false c = (exec re c.fresh).head? := by
  rw [matchAt]
  cases exec re c.fresh with
  | nil => rfl
  | cons d ds => rfl

/-! ### The tokens of a text -/

theorem matchAt_length_le {re : Re α} {notNull : Bool} {c c' : Cursor α}
    (h : matchAt re notNull c = some c') :
    c'.rest.length ≤ c.rest.length ∧ (notNull = true → c'.rest.length < c.rest.length) := by
  have hle := exec_length_le re c.fresh c' (List.mem_of_find?_eq_some h)
  have hnull := List.find?_some h
  rw [Cursor.fresh_rest] at hle
  refine ⟨hle, fun hn => ?_⟩
  rw [hn] at hnull
  simp only [Bool.not_true, Bool.false_or, decide_eq_true_eq] at hnull
  omega

/-- More fuel than twice the symbols left changes nothing. -/
theorem tokensLoop_fuel (re : Re α) (fuel : Nat) :
    ∀ (fuel' : Nat) (notNull : Bool) (c : Cursor α),
      2 * c.rest.length + (if notNull then 1 else 2) ≤ fuel →
      2 * c.rest.length + (if notNull then 1 else 2) ≤ fuel' →
      tokensLoop re fuel notNull c = tokensLoop re fuel' notNull c := by
  induction fuel with
  | zero =>
    intro fuel' notNull c h
    split at h <;> omega
  | succ fuel ih =>
    intro fuel' notNull c h h'
    cases fuel' with
    | zero => split at h' <;> omega
    | succ fuel' =>
      rw [tokensLoop, tokensLoop]
      cases hmatch : matchAt re notNull c with
      | some c' =>
        obtain ⟨hle, hlt⟩ := matchAt_length_le hmatch
        -- an empty match is only found where the one before was not empty
        have hsteps : 2 * c'.rest.length +
            (if (c'.rest.length == c.rest.length) = true then 1 else 2) + 1 ≤
            2 * c.rest.length + (if notNull = true then 1 else 2) := by
          by_cases heq : c'.rest.length = c.rest.length
          · have hn : notNull = false := by
              cases notNull with
              | false => rfl
              | true => exact absurd heq (hlt rfl).ne
            rw [heq, hn]
            simp
          · rw [if_neg (by simpa using heq)]
            split <;> omega
        exact congrArg _ (ih _ _ c' (by omega) (by omega))
      | none =>
        cases hrest : c.rest with
        | nil => rfl
        | cons x r =>
          have hmove : (c.move 1).rest = r := by
            rw [Cursor.move_rest, hrest, List.drop_one, List.tail_cons]
          rw [hrest, List.length_cons] at h h'
          refine congrArg _ (ih _ _ _ ?_ ?_) <;>
            (rw [hmove, if_neg (by simp)]; split at h <;> split at h' <;> omega)

/-- A match that is not empty is a token, and the next ones are those behind it. -/
theorem tokens_hit {re : Re α} {c c' : Cursor α} (h : matchAt re false c = some c')
    (hlt : c'.rest.length < c.rest.length) :
    tokens re c = .hit (c.upTo c') c'.caps :: tokens re c' := by
  have hne : (c'.rest.length == c.rest.length) = false := by
    rw [beq_eq_false_iff_ne]
    omega
  rw [tokens, tokensLoop, h]
  show Token.hit (c.upTo c') c'.caps :: tokensLoop re _ (c'.rest.length == c.rest.length) c' = _
  rw [hne, tokens, tokensLoop_fuel re _ (2 * c'.rest.length + 2) false c' (by simp; omega)
    (by simp)]

/-- Where nothing matches the next symbol is a token. -/
theorem tokens_plain {re : Re α} {c : Cursor α} {x : α} {r : List α}
    (h : matchAt re false c = none) (hrest : c.rest = x :: r) :
    tokens re c = .plain x :: tokens re (c.move 1) := by
  have hmove : (c.move 1).rest.length + 1 = c.rest.length := by
    rw [Cursor.move_rest, hrest, List.drop_one, List.tail_cons, List.length_cons]
  rw [tokens, tokensLoop, h, hrest]
  show Token.plain x :: tokensLoop re _ false (c.move 1) = _
  rw [tokens, tokensLoop_fuel re _ (2 * (c.move 1).rest.length + 2) false (c.move 1)
    (by rw [hrest] at hmove; simp; simp at hmove; omega) (by simp)]

theorem tokens_nil {re : Re α} {c : Cursor α} (h : matchAt re false c = none)
    (hrest : c.rest = []) : tokens re c = [] := by
  rw [tokens, tokensLoop, h, hrest]

end Exec

end Regex
