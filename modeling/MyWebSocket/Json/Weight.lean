import MyWebSocket.Json.RoundTrip

namespace MyWebSocket

/-!
# Keys with quotation marks, backslashes and control characters

`stringify` writes the keys of objects as they are.  Where that is not a string for the parser
the text may still be valid JSON, of some other value: a key can contain whole entries.  To see
that it never is the text of the value itself, texts and values are given a weight.

* `weight` counts what the characters of a string weigh, `cost` what the parser can make of a
  text: an escape costs what it stands for, and a quotation mark or control character nothing;
* whatever is read weighs at most what it costs (`parseValue_cost`);
* what is written costs at most what it weighs, and less if a key does not stand for itself
  (`cost_stringify_lt`).
-/

variable {δ β γ : Type}

/-! ### Weights -/

/-- What a character of a string weighs.  With a backslash at 2 and a `u` at 1 an escape stands
    for less than its characters. -/
def charWeight (b : UInt8) : ℕ :=
  if b = 0x5C then 2 else if b = 0x22 ∨ b = 0x75 ∨ b < 0x20 then 1 else 0

def weight (bs : Bytes) : ℕ := (bs.map charWeight).sum

theorem weight_nil : weight [] = 0 := rfl

theorem weight_cons (b : UInt8) (bs : Bytes) : weight (b :: bs) = charWeight b + weight bs := rfl

theorem weight_append (bs bs' : Bytes) : weight (bs ++ bs') = weight bs + weight bs' := by
  rw [weight, List.map_append, List.sum_append]
  rfl

theorem charWeight_of_ne {b : UInt8} (hslash : b ≠ 0x5C) (hquote : b ≠ 0x22) (hu : b ≠ 0x75)
    (hctl : ¬ b < 0x20) : charWeight b = 0 := by
  rw [charWeight, if_neg hslash, if_neg (by simp [hquote, hu, hctl])]

theorem charWeight_of_high {b : UInt8} (h : ¬ b < 0x80) : charWeight b = 0 := by
  have hne : ∀ x : UInt8, x < 0x80 → b ≠ x := by
    rintro x hx rfl
    exact h hx
  exact charWeight_of_ne (hne 0x5C (by decide)) (hne 0x22 (by decide)) (hne 0x75 (by decide))
    fun hctl => h (UInt8.lt_trans hctl (by decide))

theorem charWeight_le (b : UInt8) : charWeight b ≤ 2 := by
  unfold charWeight
  split
  · exact le_rfl
  · split <;> decide

/-- A byte with its highest bit set. -/
theorem charWeight_ofNat {n : ℕ} (h : n.testBit 7 = true) : charWeight (UInt8.ofNat n) = 0 := by
  apply charWeight_of_high
  rw [Nat.testBit_eq_decide_div_mod_eq] at h
  simp only [decide_eq_true_eq] at h
  rw [UInt8.lt_iff_toNat_lt, UInt8.toNat_ofNat']
  show ¬ n % 256 < 128
  omega

theorem weight_encodeUtf8 {u : ℕ} {bs : Bytes} (h : encodeUtf8 u = some bs) : weight bs ≤ 2 := by
  have hbit : ∀ m k : ℕ, k.testBit 7 = true → charWeight (UInt8.ofNat (k ||| m)) = 0 := by
    intro m k hk
    apply charWeight_ofNat
    rw [Nat.testBit_or, hk, Bool.true_or]
  unfold encodeUtf8 at h
  split at h
  · obtain rfl := Option.some.inj h
    exact charWeight_le _
  · -- all other characters take bytes from 0x80 on
    have hzero : weight bs = 0 := by
      split at h
      · obtain rfl := Option.some.inj h
        simp only [weight_cons, weight_nil, hbit _ 0xC0 (by decide), hbit _ 0x80 (by decide)]
      · split at h
        · obtain rfl := Option.some.inj h
          simp only [weight_cons, weight_nil, hbit _ 0xE0 (by decide), hbit _ 0x80 (by decide)]
        · split at h
          · obtain rfl := Option.some.inj h
            simp only [weight_cons, weight_nil, hbit _ 0xF0 (by decide), hbit _ 0x80 (by decide)]
          · exact absurd h (by simp)
    omega

theorem weight_rereadChar (ch : UInt8) : weight (rereadChar ch) = charWeight ch := by
  by_cases hch : ch < 0x80
  · rw [rereadChar, if_pos hch]
    rfl
  · rw [rereadChar, if_neg hch, charWeight_of_high hch]
    decide

/-! ### Costs -/

/-- What the parser can make of a text. -/
def cost : Bytes → ℕ
  | [] => 0
  | ch :: tmp =>
    match _h : stringRound (ch :: tmp) with
    | .push bs rest => weight bs + cost rest
    -- a backslash that is no escape ends every string it is in
    | _ => if ch = 0x5C then 0 else cost tmp
termination_by tmp => tmp.length
decreasing_by
  · exact stringRound_push_length _h
  all_goals exact Nat.lt_succ_self _

theorem cost_nil : cost [] = 0 := by rw [cost]

theorem cost_push {tmp bs rest : Bytes} (h : stringRound tmp = .push bs rest) :
    cost tmp = weight bs + cost rest := by
  cases tmp with
  | nil =>
    rw [stringRound_nil] at h
    exact absurd h (by simp)
  | cons ch tmp =>
    rw [cost]
    split
    · next bs' rest' hr =>
      obtain ⟨rfl, rfl⟩ := StringRound.push.inj (hr.symm.trans h)
      rfl
    · next hne => exact absurd h (hne bs rest)

/-- What a character costs that is no backslash: it is a character of a string, or nothing. -/
def rawCost (b : UInt8) : ℕ := if b = 0x22 ∨ b < 0x20 then 0 else charWeight b

theorem cost_cons {ch : UInt8} (h : ch ≠ 0x5C) (tmp : Bytes) :
    cost (ch :: tmp) = rawCost ch + cost tmp := by
  rcases stringRound_cases ch tmp with ⟨rfl, hr⟩ | ⟨rfl, -⟩ | ⟨hctl, ret, hr⟩ | ⟨hraw, hr⟩
  · rw [cost, hr]
    exact (Nat.zero_add _).symm
  · exact absurd rfl h
  · rw [cost, hr, rawCost, if_pos (Or.inr hctl), Nat.zero_add]
    exact if_neg h
  · rw [cost_push hr, rawCost, if_neg (not_or.mpr ⟨hraw.1, hraw.2.2⟩)]
    rfl

theorem cost_quote (tmp : Bytes) : cost (0x22 :: tmp) = cost tmp := by
  rw [cost_cons (by decide)]
  exact Nat.zero_add _

/-- An escape. -/
theorem cost_backslash {tmp bs rest : Bytes} (h : escapeRound tmp = .push bs rest) :
    cost (0x5C :: tmp) = weight bs + cost rest := cost_push (stringRound_backslash tmp ▸ h)

theorem cost_backslash_of_ne {tmp : Bytes} (h : ∀ bs rest, escapeRound tmp ≠ .push bs rest) :
    cost (0x5C :: tmp) = 0 := by
  rw [cost]
  split
  · next bs rest hr => exact absurd hr (h bs rest)
  · rfl

theorem Skips.cost_le {p : UInt8 → Prop} (hp : ∀ b, p b → b ≠ 0x5C) {tmp rest : Bytes}
    (h : Skips p tmp rest) : cost rest ≤ cost tmp := by
  obtain ⟨x, rfl, hx⟩ := h
  induction x with
  | nil => exact le_rfl
  | cons b x ih =>
    obtain ⟨hb, hx⟩ := List.forall_mem_cons.mp hx
    rw [List.cons_append, cost_cons (hp b hb)]
    exact le_trans (ih hx) (Nat.le_add_left _ _)

/-- Characters that stand for themselves. -/
theorem cost_append_of_raw {x : Bytes} (hx : ∀ b ∈ x, IsRaw b) (rest : Bytes) :
    cost (x ++ rest) = weight x + cost rest := by
  induction x with
  | nil => exact (Nat.zero_add _).symm
  | cons b x ih =>
    obtain ⟨hb, hx⟩ := List.forall_mem_cons.mp hx
    rw [List.cons_append, cost_push (stringRound_raw hb _), ih hx, weight_cons, weight_cons,
      weight_nil]
    omega

/-! ### What is read weighs no more than it costs -/

namespace LeptValue

/-- What a key or a leaf weighs; numbers weigh nothing. -/
def Atom.weight : Atom δ → ℕ
  | .key k => MyWebSocket.weight k
  | .leaf (.string s) => MyWebSocket.weight s
  | .leaf .null => MyWebSocket.weight (str "null")
  | .leaf (.boolean b) => MyWebSocket.weight (if b then str "true" else str "false")
  | .leaf _ => 0

/-- What a value weighs. -/
def weight (v : LeptValue δ) : ℕ := (v.atoms.map Atom.weight).sum

theorem weight_array (arr : List (LeptValue δ)) :
    (LeptValue.array arr).weight = (arr.map weight).sum := by
  rw [weight, atoms_array, List.map_flatMap, List.flatMap_def, List.sum_flatten, List.map_map]
  rfl

theorem weight_object (obj : List (Bytes × LeptValue δ)) :
    (LeptValue.object obj).weight =
      (obj.map fun e => MyWebSocket.weight e.1 + e.2.weight).sum := by
  rw [weight, atoms_object, List.map_flatMap, List.flatMap_def, List.sum_flatten, List.map_map]
  rfl

end LeptValue

/-- A result is paid for: what it weighs and what is left cost at most `n`; and the string stack
    is empty again. -/
def LeptOutcome.PaidBy (w : β → ℕ) (n : ℕ) (r : LeptOutcome β) : Prop :=
  ∀ b c, r = .ok b c → w b + cost c.rest ≤ n ∧ c.stkStr = []

namespace LeptOutcome

variable {w : β → ℕ} {w' : γ → ℕ} {n m : ℕ}

theorem PaidBy.andThen {r : LeptOutcome β} {f : β → LeptContext → LeptOutcome γ} (h : r.PaidBy w n)
    (hf : ∀ b c, w b + cost c.rest ≤ n → c.stkStr = [] → (f b c).PaidBy w' m) :
    (r.andThen f).PaidBy w' m := by
  intro d c' hok
  obtain ⟨b, c, hr, hd⟩ := LeptOutcome.andThen_eq_ok.mp hok
  obtain ⟨hcost, hstk⟩ := h b c hr
  exact hf b c hcost hstk d c' hd

theorem PaidBy.mono {r : LeptOutcome β} (h : r.PaidBy w n) (hnm : n ≤ m) : r.PaidBy w m := by
  intro b c hr
  obtain ⟨hcost, hstk⟩ := h b c hr
  exact ⟨le_trans hcost hnm, hstk⟩

theorem paidBy_error (ret : LeptError) (c : LeptContext) : (LeptOutcome.error ret c).PaidBy w n :=
  fun _ _ h => absurd h (by simp)

theorem paidBy_halt (h : Halt) : (LeptOutcome.halt h).PaidBy w n := fun _ _ h => absurd h (by simp)

theorem paidBy_ok {b : β} {c : LeptContext} (hcost : w b + cost c.rest ≤ n) (hstk : c.stkStr = []) :
    (LeptOutcome.ok b c).PaidBy w n := by
  intro b' c' heq
  obtain ⟨rfl, rfl⟩ := LeptOutcome.ok.inj heq
  exact ⟨hcost, hstk⟩

end LeptOutcome

namespace LeptContext

theorem cost_parseWhitespace_le (c : LeptContext) : cost c.parseWhitespace.rest ≤ cost c.rest := by
  have hne : ∀ b : UInt8, isWhitespace b = true → b ≠ 0x5C := fun b hb => ne_of_class hb (by decide)
  exact Skips.cost_le hne (Skips.dropWhile (fun _ h => h) c.rest)

theorem cost_next_le {c : LeptContext} {x : UInt8} (h : c.ch = x) (hx : x ≠ 0x5C ∧ x ≠ 0) :
    cost c.next.rest ≤ cost c.rest := by
  rw [rest_eq h hx.2, cost_cons hx.1]
  exact Nat.le_add_left _ _

theorem stringLoop_paidBy (head n : ℕ) (tmp : Bytes) (c : LeptContext) :
    (stringLoop head n tmp c).PaidBy weight (weight c.stkStr + cost tmp) := by
  induction n generalizing tmp c with
  | zero => exact LeptOutcome.paidBy_halt _
  | succ n ih =>
    rw [stringLoop]
    cases hr : stringRound tmp with
    | push bs rest =>
      have hcost := cost_push hr
      have hpush : weight (c.pushChars bs).stkStr = weight c.stkStr + weight bs := weight_append _ _
      have hrest := ih rest (c.pushChars bs)
      rw [hpush, Nat.add_assoc, ← hcost] at hrest
      exact hrest
    | close rest =>
      show LeptOutcome.PaidBy _ _ (if head ≤ c.strTop then _ else _)
      split
      · refine LeptOutcome.paidBy_ok ?_ rfl
        rw [stringRound_close hr, cost_quote]
      · exact LeptOutcome.paidBy_halt _
    | reset ret => exact LeptOutcome.paidBy_error _ _
    | fail ret => exact LeptOutcome.paidBy_error _ _
    | abort => exact LeptOutcome.paidBy_halt _

/-- A string is read with nothing on the stack. -/
theorem parseString_paidBy {c : LeptContext} (hc : c.stkStr = []) :
    c.parseString.PaidBy weight (cost c.rest) := by
  unfold parseString
  split
  · next hch =>
    have hloop := stringLoop_paidBy c.strTop c.rest.length c.rest.tail c
    have hcost : cost c.rest = weight c.stkStr + cost c.rest.tail := by
      rw [hc, weight_nil, Nat.zero_add, rest_eq hch (by decide), cost_quote]
      rfl
    rw [hcost]
    exact hloop
  · exact LeptOutcome.paidBy_halt _

theorem parseLiteral_paidBy {w : β → ℕ} {literal : Bytes} (hraw : ∀ b ∈ literal, IsRaw b) {v : β}
    (hv : w v = weight literal) {c : LeptContext} (hc : c.stkStr = []) :
    (c.parseLiteral literal v).PaidBy w (cost c.rest) := by
  unfold parseLiteral
  split
  · exact LeptOutcome.paidBy_halt _
  · split
    · next hlit =>
      obtain ⟨rest, hrest⟩ := List.isPrefixOf_iff_prefix.mp hlit
      refine LeptOutcome.paidBy_ok (le_of_eq ?_) hc
      show w v + cost (c.rest.drop literal.length) = cost c.rest
      rw [← hrest, List.drop_left, cost_append_of_raw hraw, hv]
    · exact LeptOutcome.paidBy_error _ _

theorem parseNumber_paidBy (fp : DoubleText δ) {c : LeptContext} (hc : c.stkStr = []) :
    (c.parseNumber fp).PaidBy LeptValue.weight (cost c.rest) := by
  intro v c' hok
  have hne : ∀ b : UInt8, IsNumeric b → b ≠ 0x5C := by
    rintro b hb rfl
    exact absurd hb (by simp [IsNumeric]; decide)
  obtain ⟨hskip, -, hv, hstk⟩ := parseNumber_eq_ok hok
  have hweight : v.weight = 0 := by
    rcases hv with ⟨i, rfl⟩ | ⟨n, rfl⟩
    · rfl
    · rfl
  refine ⟨?_, hstk.trans hc⟩
  rw [hweight, Nat.zero_add]
  exact hskip.cost_le hne

theorem arrayLoop_paidBy {pv : LeptContext → LeptOutcome (LeptValue δ)}
    (hpv : ∀ c, c.stkStr = [] → (pv c).PaidBy LeptValue.weight (cost c.rest)) {n : ℕ}
    {arr : List (LeptValue δ)} {c : LeptContext} (hc : c.stkStr = []) :
    (arrayLoop pv n arr c).PaidBy LeptValue.weight
      ((arr.map LeptValue.weight).sum + cost c.rest) := by
  induction n generalizing arr c with
  | zero => exact LeptOutcome.paidBy_halt _
  | succ n ih =>
    rw [arrayLoop]
    refine (hpv c hc).andThen fun e c₁ hcost hc₁ => ?_
    have hws := cost_parseWhitespace_le c₁
    have hsum : ((arr ++ [e]).map LeptValue.weight).sum =
        (arr.map LeptValue.weight).sum + e.weight := by
      simp
    dsimp only
    split
    · next hcomma =>
      have hnext := cost_next_le hcomma (by decide)
      have hws' := cost_parseWhitespace_le c₁.parseWhitespace.next
      refine (ih (c := c₁.parseWhitespace.next.parseWhitespace) hc₁).mono ?_
      rw [hsum]
      omega
    · split
      · next hclose =>
        have hnext := cost_next_le hclose (by decide)
        refine LeptOutcome.paidBy_ok ?_ hc₁
        rw [LeptValue.weight_array, hsum]
        omega
      · exact LeptOutcome.paidBy_error _ _

theorem parseArray_paidBy {pv : LeptContext → LeptOutcome (LeptValue δ)}
    (hpv : ∀ c, c.stkStr = [] → (pv c).PaidBy LeptValue.weight (cost c.rest)) {c : LeptContext}
    (hc : c.stkStr = []) : (c.parseArray pv).PaidBy LeptValue.weight (cost c.rest) := by
  unfold parseArray
  split
  · exact LeptOutcome.paidBy_halt _
  · next hopen =>
    have hnext := cost_next_le (of_not_not hopen) (by decide)
    have hws := cost_parseWhitespace_le c.next
    dsimp only
    split
    · next hclose =>
      have hnext' := cost_next_le hclose (by decide)
      refine LeptOutcome.paidBy_ok ?_ hc
      show 0 + cost c.next.parseWhitespace.next.rest ≤ cost c.rest
      omega
    · refine (arrayLoop_paidBy hpv (c := c.next.parseWhitespace) hc).mono ?_
      show 0 + cost c.next.parseWhitespace.rest ≤ cost c.rest
      omega

/-- What the entries of a map weigh. -/
def entriesWeight (mp : List (Bytes × LeptValue δ)) : ℕ :=
  (mp.map fun e => weight e.1 + e.2.weight).sum

theorem objectLoop_paidBy {pv : LeptContext → LeptOutcome (LeptValue δ)}
    (hpv : ∀ c, c.stkStr = [] → (pv c).PaidBy LeptValue.weight (cost c.rest)) {n : ℕ}
    {mp : List (Bytes × LeptValue δ)} {c : LeptContext} (hc : c.stkStr = []) :
    (objectLoop pv n mp c).PaidBy LeptValue.weight (entriesWeight mp + cost c.rest) := by
  induction n generalizing mp c with
  | zero => exact LeptOutcome.paidBy_halt _
  | succ n ih =>
    rw [objectLoop]
    split
    · exact LeptOutcome.paidBy_error _ _
    · refine (parseString_paidBy hc).andThen fun key c₁ hkey hc₁ => ?_
      have hws₁ := cost_parseWhitespace_le c₁
      dsimp only
      split
      · exact LeptOutcome.paidBy_error _ _
      · next hcolon =>
        have hnext₁ := cost_next_le (of_not_not hcolon) (by decide)
        have hws₁' := cost_parseWhitespace_le c₁.parseWhitespace.next
        refine (hpv c₁.parseWhitespace.next.parseWhitespace hc₁).andThen fun e c₂ hcost hc₂ => ?_
        have hws₂ := cost_parseWhitespace_le c₂
        -- an entry whose key is there already is dropped with its weight
        have hinsert : entriesWeight (OrderedMap.insert (key, e) mp) ≤
            entriesWeight mp + (weight key + e.weight) := OrderedMap.sum_insert_le _ _ _
        split
        · next hclose =>
          have hnext₂ := cost_next_le hclose (by decide)
          refine LeptOutcome.paidBy_ok ?_ hc₂
          rw [LeptValue.weight_object]
          show entriesWeight _ + cost c₂.parseWhitespace.next.rest ≤ _
          omega
        · split
          · next hcomma =>
            have hnext₂ := cost_next_le hcomma (by decide)
            have hws₂' := cost_parseWhitespace_le c₂.parseWhitespace.next
            refine (ih (c := c₂.parseWhitespace.next.parseWhitespace) hc₂).mono ?_
            omega
          · exact LeptOutcome.paidBy_error _ _

theorem parseObject_paidBy {pv : LeptContext → LeptOutcome (LeptValue δ)}
    (hpv : ∀ c, c.stkStr = [] → (pv c).PaidBy LeptValue.weight (cost c.rest)) {c : LeptContext}
    (hc : c.stkStr = []) : (c.parseObject pv).PaidBy LeptValue.weight (cost c.rest) := by
  unfold parseObject
  split
  · exact LeptOutcome.paidBy_halt _
  · next hopen =>
    have hnext := cost_next_le (of_not_not hopen) (by decide)
    have hws := cost_parseWhitespace_le c.next
    dsimp only
    split
    · next hclose =>
      have hnext' := cost_next_le hclose (by decide)
      refine LeptOutcome.paidBy_ok ?_ hc
      show 0 + cost c.next.parseWhitespace.next.rest ≤ cost c.rest
      omega
    · refine (objectLoop_paidBy hpv (c := c.next.parseWhitespace) hc).mono ?_
      show 0 + cost c.next.parseWhitespace.rest ≤ cost c.rest
      omega

/-- **What is read weighs no more than it costs.** -/
theorem parseValue_paidBy (fp : DoubleText δ) (d : ℕ) {c : LeptContext} (hc : c.stkStr = []) :
    (c.parseValue fp d).PaidBy LeptValue.weight (cost c.rest) := by
  induction d generalizing c with
  | zero => exact LeptOutcome.paidBy_halt _
  | succ d ih =>
    rw [parseValue]
    split
    · exact parseLiteral_paidBy (w := LeptValue.weight) (forall_mem_of_all (by decide)) rfl hc
    split
    · exact parseLiteral_paidBy (w := LeptValue.weight) (forall_mem_of_all (by decide)) rfl hc
    split
    · exact parseLiteral_paidBy (w := LeptValue.weight) (forall_mem_of_all (by decide)) rfl hc
    split
    · exact LeptOutcome.paidBy_error _ _
    split
    · exact (parseString_paidBy hc).andThen fun s c' hs hc' => LeptOutcome.paidBy_ok hs hc'
    split
    · exact parseArray_paidBy (fun c' hc' => ih hc') hc
    split
    · exact parseObject_paidBy (fun c' hc' => ih hc') hc
    · exact parseNumber_paidBy fp hc

end LeptContext

theorem weight_le_cost {fp : DoubleText δ} {json : Bytes} {v : LeptValue δ}
    (h : LeptValue.parse fp json = .ok (v, none)) : v.weight ≤ cost (json ++ [0]) := by
  have hws := LeptContext.cost_parseWhitespace_le (LeptContext.init (json ++ [0]))
  have hpaid := LeptContext.parseValue_paidBy fp (json.length + 2)
    (c := (LeptContext.init (json ++ [0])).parseWhitespace) rfl
  unfold LeptValue.parse at h
  dsimp only at h
  split at h
  · next v' c hok =>
    obtain ⟨hcost, -⟩ := hpaid v' c hok
    split at h
    · obtain rfl : v' = v := congrArg Prod.fst (Except.ok.inj h)
      exact le_trans (le_trans (Nat.le_add_right _ _) hcost) hws
    · exact absurd h (by simp)
  · split at h
    · exact absurd h (by simp)
    · exact absurd h (by simp)
  · exact absurd h (by simp)

/-! ### What is written costs no more than it weighs -/

/-- 1 for a key that does not stand for itself. -/
def keyDefect (k : Bytes) : ℕ := if k.all fun ch => decide (IsRaw ch) then 0 else 1

theorem keyDefect_le (k : Bytes) : keyDefect k ≤ 1 := by
  unfold keyDefect
  split <;> decide

theorem keyDefect_cons_le (ch : UInt8) (k : Bytes) :
    keyDefect (ch :: k) ≤ (if IsRaw ch then 0 else 1) + keyDefect k := by
  unfold keyDefect
  by_cases hch : IsRaw ch
  · simp [hch]
  · simp [hch]

theorem charWeight_simpleEscape {ch b : UInt8} (h : simpleEscape ch = some b) :
    charWeight b ≤ charWeight ch + 1 ∧ (ch = 0x22 → b = 0x22) := by
  by_cases hself : ch = 0x22 ∨ ch = 0x5C ∨ ch = 0x2F
  · rw [simpleEscape, if_pos hself] at h
    obtain rfl := Option.some.inj h
    exact ⟨Nat.le_succ _, id⟩
  · -- the other escapes stand for control characters
    have hle : charWeight b ≤ 1 := by
      rw [simpleEscape, if_neg hself] at h
      have hmem : b = 0x08 ∨ b = 0x09 ∨ b = 0x0A ∨ b = 0x0D ∨ b = 0x0C := by
        grind
      rcases hmem with rfl | rfl | rfl | rfl | rfl <;> decide
    refine ⟨le_trans hle (Nat.le_add_left _ _), fun hquote => absurd (Or.inl hquote) hself⟩

/-- An escape inside a key, or of the quotation mark behind the key, costs less than the
    characters it takes weigh. -/
theorem cost_escape (k rest : Bytes)
    (ih : ∀ k' : Bytes, k'.length < k.length + 1 →
      cost (k' ++ 0x22 :: rest) ≤ weight k' + cost rest) :
    cost (0x5C :: (k ++ 0x22 :: rest)) < weight (0x5C :: k) + cost rest := by
  have hweight : weight (0x5C :: k) = 2 + weight k := weight_cons _ _
  by_cases hpush : ∃ bs rest', escapeRound (k ++ 0x22 :: rest) = .push bs rest'
  · obtain ⟨bs, rest', hpush⟩ := hpush
    rw [cost_backslash hpush, hweight]
    rcases escapeRound_eq_push hpush with ⟨ch, b, htext, hb, rfl⟩ | ⟨x, htext, hx, u, hu⟩
    · obtain ⟨hle, hquote⟩ := charWeight_simpleEscape hb
      rw [weight_cons, weight_nil]
      cases k with
      | nil =>
        -- the key ends here: its closing quotation mark is taken
        obtain ⟨rfl, rfl⟩ : 0x22 = ch ∧ rest = rest' := List.cons.inj htext
        obtain rfl := hquote rfl
        show 1 + 0 + cost rest < 2 + weight [] + cost rest
        omega
      | cons ch' k =>
        obtain ⟨rfl, rfl⟩ : ch' = ch ∧ k ++ 0x22 :: rest = rest' := List.cons.inj htext
        have hk := ih k (by simp only [List.length_cons]; omega)
        rw [weight_cons]
        omega
    · have hbs := weight_encodeUtf8 hu
      cases k with
      | nil => exact absurd (List.cons.inj htext).1 (by decide)
      | cons ch' k =>
        obtain ⟨rfl, hkx⟩ : ch' = 0x75 ∧ k ++ 0x22 :: rest = x ++ rest' := List.cons.inj htext
        -- the digits are all inside the key
        obtain ⟨k', rfl, rfl⟩ : ∃ k', k = x ++ k' ∧ rest' = k' ++ 0x22 :: rest := by
          rcases List.append_eq_append_iff.mp hkx with ⟨y, rfl, hy⟩ | ⟨k', rfl, rfl⟩
          · cases y with
            | nil => exact ⟨[], (List.append_nil _).symm ▸ by simp, hy.symm⟩
            | cons b y =>
              obtain ⟨rfl, -⟩ := List.cons.inj hy
              exact absurd rfl (hx 0x22 (by simp))
          · exact ⟨k', rfl, rfl⟩
        have hk := ih k' (by simp only [List.length_cons, List.length_append]; omega)
        have hu : weight (0x75 :: (x ++ k')) = 1 + (weight x + weight k') := by
          rw [weight_cons, weight_append]
          rfl
        rw [hu]
        omega
  · rw [cost_backslash_of_ne fun bs rest' h => hpush ⟨bs, rest', h⟩, hweight]
    omega

theorem rawCost_add_le {ch : UInt8} (h : ch ≠ 0x5C) :
    rawCost ch + (if IsRaw ch then 0 else 1) ≤ charWeight ch := by
  by_cases hraw : ch = 0x22 ∨ ch < 0x20
  · have hweight : charWeight ch = 1 := by
      rw [charWeight, if_neg h, if_pos (hraw.imp_right Or.inr)]
    rw [rawCost, if_pos hraw, hweight]
    split <;> decide
  · have hself : IsRaw ch := ⟨fun hq => hraw (Or.inl hq), h, fun hc => hraw (Or.inr hc)⟩
    rw [rawCost, if_neg hraw, if_pos hself]
    exact le_rfl

/-- **A key as the parser sees it**, wherever it sees it: up to the quotation mark behind it, and
    over it if the key ends with a backslash. -/
theorem cost_key (k rest : Bytes) :
    cost (k ++ 0x22 :: rest) + keyDefect k ≤ weight k + cost rest := by
  induction hn : k.length using Nat.strong_induction_on generalizing k with
  | _ n ih =>
    cases k with
    | nil =>
      rw [List.nil_append, cost_quote]
      show cost rest + 0 ≤ 0 + cost rest
      omega
    | cons ch k =>
      have ih' : ∀ k' : Bytes, k'.length < k.length + 1 →
          cost (k' ++ 0x22 :: rest) + keyDefect k' ≤ weight k' + cost rest := by
        intro k' hk'
        exact ih k'.length (by rw [← hn]; exact hk') k' rfl
      by_cases hslash : ch = 0x5C
      · subst hslash
        have hle := keyDefect_le (0x5C :: k)
        have hlt := cost_escape k rest fun k' hk' =>
          le_trans (Nat.le_add_right _ _) (ih' k' hk')
        rw [List.cons_append]
        omega
      · have hk := ih' k (Nat.lt_succ_self _)
        have hdefect := keyDefect_cons_le ch k
        -- a character that does not stand for itself costs nothing and weighs 1
        have hch := rawCost_add_le hslash
        rw [List.cons_append, cost_cons hslash, weight_cons]
        omega

/-- Characters that cost nothing wherever they are. -/
def IsFree (b : UInt8) : Prop := b ≠ 0x5C ∧ rawCost b = 0

instance (b : UInt8) : Decidable (IsFree b) := inferInstanceAs (Decidable (_ ∧ _))

theorem cost_append_of_free {x : Bytes} (hx : ∀ b ∈ x, IsFree b) (rest : Bytes) :
    cost (x ++ rest) = cost rest := by
  induction x with
  | nil => rfl
  | cons b x ih =>
    obtain ⟨hb, hx⟩ := List.forall_mem_cons.mp hx
    rw [List.cons_append, cost_cons hb.1, hb.2, Nat.zero_add, ih hx]

theorem cost_stringifyString (s rest : Bytes) :
    cost (LeptValue.stringifyString s ++ rest) = weight s + cost rest := by
  have hchars : ∀ t : Bytes, cost (t.flatMap LeptValue.escapeChar ++ 0x22 :: rest) =
      weight t + cost rest := by
    intro t
    induction t with
    | nil => exact (cost_quote rest).trans (Nat.zero_add _).symm
    | cons ch t ih =>
      rw [List.flatMap_cons, List.append_assoc, cost_push (stringRound_escapeChar ch _),
        weight_rereadChar, ih, weight_cons, Nat.add_assoc]
  have htext : LeptValue.stringifyString s ++ rest =
      0x22 :: (s.flatMap LeptValue.escapeChar ++ 0x22 :: rest) := by
    simp [LeptValue.stringifyString]
  rw [htext, cost_quote, hchars]

theorem cost_stringifyInteger (i : Int32) (rest : Bytes) :
    cost (LeptValue.stringifyInteger i ++ rest) = cost rest := by
  have hdigits : ∀ b ∈ Http11.decimal i.toInt.natAbs, IsFree b := by
    intro b hb
    have hdigit := List.all_eq_true.mp (Http11.all_isDigit_decimal i.toInt.natAbs) b hb
    have hne : ∀ x, Http11.isDigit x = false → b ≠ x := fun x hx => ne_of_class hdigit hx
    refine ⟨hne 0x5C (by decide), ?_⟩
    unfold rawCost
    split
    · rfl
    · next hraw =>
      exact charWeight_of_ne (hne 0x5C (by decide)) (hne 0x22 (by decide)) (hne 0x75 (by decide))
        fun hctl => hraw (Or.inr hctl)
  apply cost_append_of_free
  unfold LeptValue.stringifyInteger
  split
  · exact List.forall_mem_cons.mpr ⟨by decide, hdigits⟩
  · exact hdigits

namespace LeptValue

/-- 1 for a key that does not stand for itself. -/
def Atom.defect : Atom δ → ℕ
  | .key k => keyDefect k
  | .leaf _ => 0

/-- The number of the keys that do not stand for themselves. -/
def defects (v : LeptValue δ) : ℕ := (v.atoms.map Atom.defect).sum

theorem defects_array (arr : List (LeptValue δ)) :
    (LeptValue.array arr).defects = (arr.map defects).sum := by
  rw [defects, atoms_array, List.map_flatMap, List.flatMap_def, List.sum_flatten, List.map_map]
  rfl

theorem defects_object (obj : List (Bytes × LeptValue δ)) :
    (LeptValue.object obj).defects = (obj.map fun e => keyDefect e.1 + e.2.defects).sum := by
  rw [defects, atoms_object, List.map_flatMap, List.flatMap_def, List.sum_flatten, List.map_map]
  rfl

/-- A key that does not stand for itself counts. -/
theorem defects_pos {v : LeptValue δ} (h : ¬ ∀ a ∈ v.atoms, a.HasRawKey) : 0 < v.defects := by
  simp only [not_forall] at h
  obtain ⟨a, ha, hraw⟩ := h
  have hdefect : a.defect = 1 := by
    cases a with
    | key k =>
      have hall : ¬ (k.all fun ch => decide (IsRaw ch)) = true := by
        intro h
        have hself : ∀ ch ∈ k, IsRaw ch := by simpa using h
        exact hraw hself
      exact if_neg hall
    | leaf v => exact absurd trivial hraw
  have hle : a.defect ≤ v.defects :=
    List.single_le_sum (fun _ _ => Nat.zero_le _) _ (List.mem_map_of_mem ha)
  omega

end LeptValue

/-- The comma before all elements and entries but the first. -/
theorem cost_comma (flag : Bool) (rest : Bytes) :
    cost ((if flag then [0x2C] else []) ++ rest) = cost rest := by
  apply cost_append_of_free
  cases flag with
  | true => exact forall_mem_of_all (by decide)
  | false => exact fun b hb => absurd hb List.not_mem_nil

theorem cost_stringifyElements (fp : DoubleText δ) {arr : List (LeptValue δ)}
    (hv : ∀ v ∈ arr, ∀ rest, cost (v.stringifyValue fp ++ rest) + v.defects ≤ v.weight + cost rest)
    (flag : Bool) (rest : Bytes) :
    cost (LeptValue.stringifyElements fp flag arr ++ rest) + (arr.map LeptValue.defects).sum ≤
      (arr.map LeptValue.weight).sum + cost rest := by
  induction arr generalizing flag with
  | nil =>
    rw [LeptValue.stringifyElements]
    exact Nat.add_comm _ _ ▸ le_rfl
  | cons v arr ih =>
    obtain ⟨hhead, htail⟩ := List.forall_mem_cons.mp hv
    have hfirst := hhead (LeptValue.stringifyElements fp true arr ++ rest)
    have hrest := ih htail true
    rw [LeptValue.stringifyElements, List.append_assoc, List.append_assoc, cost_comma]
    simp only [List.map_cons, List.sum_cons]
    omega

theorem cost_stringifyEntries (fp : DoubleText δ) {obj : List (Bytes × LeptValue δ)}
    (hv : ∀ e ∈ obj, ∀ rest,
      cost (e.2.stringifyValue fp ++ rest) + e.2.defects ≤ e.2.weight + cost rest)
    (flag : Bool) (rest : Bytes) :
    cost (LeptValue.stringifyEntries fp flag obj ++ rest) +
        (obj.map fun e => keyDefect e.1 + e.2.defects).sum ≤
      (obj.map fun e => weight e.1 + e.2.weight).sum + cost rest := by
  induction obj generalizing flag with
  | nil =>
    rw [LeptValue.stringifyEntries]
    exact Nat.add_comm _ _ ▸ le_rfl
  | cons e obj ih =>
    obtain ⟨hhead, htail⟩ := List.forall_mem_cons.mp hv
    have hfirst := hhead (LeptValue.stringifyEntries fp true obj ++ rest)
    have hrest := ih htail true
    have hkey := cost_key e.1
      (0x3A :: (e.2.stringifyValue fp ++ (LeptValue.stringifyEntries fp true obj ++ rest)))
    have hcolon : cost (0x3A :: (e.2.stringifyValue fp ++
        (LeptValue.stringifyEntries fp true obj ++ rest))) =
          cost (e.2.stringifyValue fp ++ (LeptValue.stringifyEntries fp true obj ++ rest)) :=
      cost_append_of_free (x := [0x3A]) (forall_mem_of_all (by decide)) _
    have htext : LeptValue.stringifyEntries fp flag (e :: obj) ++ rest =
        (if flag then [0x2C] else []) ++ 0x22 :: (e.1 ++ 0x22 :: 0x3A ::
          (e.2.stringifyValue fp ++ (LeptValue.stringifyEntries fp true obj ++ rest))) := by
      simp [LeptValue.stringifyEntries]
    rw [htext, cost_comma, cost_quote]
    simp only [List.map_cons, List.sum_cons]
    omega

/-- **What is written costs no more than it weighs**, and less if there is a key that does not
    stand for itself. -/
theorem cost_stringify (fp : DoubleText δ) {v : LeptValue δ} (hv : v.Plain) (rest : Bytes) :
    cost (v.stringifyValue fp ++ rest) + v.defects ≤ v.weight + cost rest := by
  induction hv generalizing rest with
  | null =>
    have hraw : ∀ ch ∈ str "null", IsRaw ch := forall_mem_of_all (by decide)
    exact le_of_eq (cost_append_of_raw hraw rest)
  | boolean b =>
    cases b with
    | true =>
      have hraw : ∀ ch ∈ str "true", IsRaw ch := forall_mem_of_all (by decide)
      exact le_of_eq (cost_append_of_raw hraw rest)
    | false =>
      have hraw : ∀ ch ∈ str "false", IsRaw ch := forall_mem_of_all (by decide)
      exact le_of_eq (cost_append_of_raw hraw rest)
  | integer i =>
    rw [LeptValue.stringifyValue, cost_stringifyInteger]
    exact Nat.add_comm _ _ ▸ le_rfl
  | string s => exact le_of_eq (cost_stringifyString s rest)
  | @array arr elems ih =>
    have helems := cost_stringifyElements fp ih false (0x5D :: rest)
    have htext : LeptValue.stringifyValue fp (.array arr) ++ rest =
        [0x5B] ++ (LeptValue.stringifyElements fp false arr ++ 0x5D :: rest) := by
      simp [LeptValue.stringifyValue]
    have hclose : cost (0x5D :: rest) = cost rest :=
      cost_append_of_free (x := [0x5D]) (forall_mem_of_all (by decide)) rest
    rw [htext, cost_append_of_free (forall_mem_of_all (by decide)), LeptValue.defects_array,
      LeptValue.weight_array]
    omega
  | @object obj ordered values ih =>
    have hentries := cost_stringifyEntries fp ih false (0x7D :: rest)
    have htext : LeptValue.stringifyValue fp (.object obj) ++ rest =
        [0x7B] ++ (LeptValue.stringifyEntries fp false obj ++ 0x7D :: rest) := by
      simp [LeptValue.stringifyValue]
    have hclose : cost (0x7D :: rest) = cost rest :=
      cost_append_of_free (x := [0x7D]) (forall_mem_of_all (by decide)) rest
    rw [htext, cost_append_of_free (forall_mem_of_all (by decide)), LeptValue.defects_object,
      LeptValue.weight_object]
    omega

/-- **No text of a value with such a key is read as that value.** -/
theorem parse_stringify_ne (fp : DoubleText δ) {v : LeptValue δ} (hv : v.Plain)
    (hkeys : ¬ ∀ a ∈ v.atoms, a.HasRawKey) :
    LeptValue.parse fp (v.stringifyValue fp) ≠ .ok (v, none) := by
  intro h
  have hread := weight_le_cost h
  have hwritten := cost_stringify fp hv [0]
  have hpos := LeptValue.defects_pos hkeys
  have hfree := cost_append_of_free (x := [0]) (forall_mem_of_all (by decide)) []
  have hend : cost [0] = 0 := hfree.trans cost_nil
  omega

end MyWebSocket
