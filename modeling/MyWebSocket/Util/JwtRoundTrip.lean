import MyWebSocket.Json.TextReading
import MyWebSocket.Util.Jwt

namespace MyWebSocket

/-!
# What `verify` returns of a signed payload

The payload goes through `transform` into picojson, from there into the text of a token, and comes
back through the parser of leptjson.

* `JwtCpp.Standard` — what is assumed of jwt-cpp: a token carries the claims as a JSON text, and
  the verifier looks at the times in it;
* `comesBack_iff` — the payload comes back with the times of the token exactly when these fit into
  the 32 bits of `set_integer`, the verifier's clock agrees, and the maximal age does not wrap.
-/

open JsonText (Space Text)

variable {σ τ δ : Type}

/-- What the verifier finds of the times that a token carries. -/
structure JwtCpp.Timely (jwt : JwtCpp σ τ δ) (decoded : τ) (now : Int64) : Prop where
  exp : ∀ claim, (jwt.payloadClaims decoded).lookup (str "exp") = some claim →
    ∃ date, jwt.asDate claim = some date ∧ now ≤ date
  iat : ∀ claim, (jwt.payloadClaims decoded).lookup (str "iat") = some claim →
    ∃ date, jwt.asDate claim = some date ∧ date ≤ now
  nbf : ∀ claim, (jwt.payloadClaims decoded).lookup (str "nbf") = some claim →
    ∃ date, jwt.asDate claim = some date ∧ date ≤ now

/-- A signed token carries the claims as standard JSON text and is accepted with its key at the
    times it allows; `real` says how doubles are written. -/
structure JwtCpp.Standard (jwt : JwtCpp σ τ δ) (real : δ → Bytes → Prop) : Prop
    extends jwt.Documented where
  payload_sign : ∀ claims key decoded, jwt.decode (jwt.sign claims key) = some decoded →
    ∃ w t w', Space w ∧ Text Int64.toInt real (.object claims) t ∧ Space w' ∧
      jwt.payload decoded = w ++ (t ++ w')
  accepts_sign : ∀ claims key decoded now, jwt.decode (jwt.sign claims key) = some decoded →
    (jwt.accepts decoded key now = true ↔ jwt.Timely decoded now)
  /-- What is no number is no date. -/
  asDate_other : ∀ v : PicoValue δ, (∀ i, v ≠ .integer i) → (∀ x, v ≠ .number x) →
    jwt.asDate (jwt.reread v) = none

namespace JwtUtil

/-! ### The claims of a payload without doubles -/

theorem exists_transformEntries {finite : δ → Bool} {obj : List (Bytes × LeptValue δ)}
    (hobj : ∀ e ∈ obj, transform finite e.2 = .ok (widen e.2)) (ms : List (Bytes × PicoValue δ)) :
    ∃ claims, transformEntries finite obj ms = .ok claims := by
  induction obj generalizing ms with
  | nil => exact ⟨ms, by rw [transformEntries]⟩
  | cons e obj ih =>
    obtain ⟨he, hobj⟩ := List.forall_mem_cons.mp hobj
    obtain ⟨claims, hclaims⟩ := ih hobj (OrderedMap.assign (e.1, widen e.2) ms)
    exact ⟨claims, transformEntries_cons_eq_ok.mpr ⟨widen e.2, he, hclaims⟩⟩

theorem ordered_transformEntries {finite : δ → Bool} {obj : List (Bytes × LeptValue δ)}
    {ms claims : List (Bytes × PicoValue δ)} (h : transformEntries finite obj ms = .ok claims)
    (hms : OrderedMap.Ordered ms) : OrderedMap.Ordered claims := by
  induction obj generalizing ms with
  | nil =>
    rw [transformEntries] at h
    rwa [← Except.ok.inj h]
  | cons e obj ih =>
    obtain ⟨x, -, hclaims⟩ := transformEntries_cons_eq_ok.mp h
    exact ih hclaims (hms.assign (e.1, x))

/-- What is found in the claims: an entry of the payload, or else what was set before. -/
theorem lookup_claims {finite : δ → Bool} {obj : List (Bytes × LeptValue δ)}
    (hordered : OrderedMap.Ordered obj)
    (hobj : ∀ e ∈ obj, transform finite e.2 = .ok (widen e.2))
    {ms claims : List (Bytes × PicoValue δ)} (h : transformEntries finite obj ms = .ok claims)
    (k : Bytes) : claims.lookup k = ((obj.lookup k).map widen).or (ms.lookup k) := by
  cases hk : obj.lookup k with
  | none =>
    have hkeys : ∀ e ∈ obj, e.1 ≠ k := by
      rintro ⟨key, v⟩ he rfl
      exact absurd ((hordered.mem_iff_lookup key v).mp he) (by rw [hk]; simp)
    exact lookup_transformEntries h hkeys
  | some v =>
    have hmem : (k, v) ∈ obj := (hordered.mem_iff_lookup k v).mpr hk
    obtain ⟨x, hx, hlookup⟩ := lookup_transformEntries_of_mem h hordered hmem
    obtain rfl : widen v = x := Except.ok.inj ((hobj (k, v) hmem).symm.trans hx)
    exact hlookup

theorem lookup_map_widen (obj : List (Bytes × LeptValue δ)) (k : Bytes) :
    (obj.map widenEntry).lookup k = (obj.lookup k).map widen := by
  induction obj with
  | nil => rfl
  | cons e obj ih =>
    rw [List.map_cons, OrderedMap.lookup_cons_eq_ite, OrderedMap.lookup_cons_eq_ite, ih]
    show (if k == e.1 then some (widen e.2) else _) = _
    split
    · rfl
    · rfl

theorem transformElements_eq_ok {finite : δ → Bool} {arr : List (LeptValue δ)}
    (harr : ∀ v ∈ arr, transform finite v = .ok (widen v)) :
    transformElements finite arr = .ok (arr.map widen) := by
  induction arr with
  | nil => rw [transformElements, List.map_nil]
  | cons v arr ih =>
    obtain ⟨hv, harr⟩ := List.forall_mem_cons.mp harr
    rw [transformElements, hv, ih harr]
    rfl

/-- **`transform` only widens the integers** of a value without doubles. -/
theorem transform_plain (finite : δ → Bool) {v : LeptValue δ} (hv : v.Plain) :
    transform finite v = .ok (widen v) := by
  induction hv with
  | null => rw [transform, widen]
  | boolean b => rw [transform, widen]
  | integer i => rw [transform, widen]
  | string s => rw [transform, widen]
  | array elems ih =>
    rw [transform, transformElements_eq_ok ih, widen_array]
    rfl
  | @object obj ordered values ih =>
    obtain ⟨claims, hclaims⟩ := exists_transformEntries ih []
    have hordered := ordered_transformEntries hclaims OrderedMap.ordered_nil
    have heq : claims = obj.map widenEntry := by
      refine hordered.ext (ordered.map widen) fun k => ?_
      rw [lookup_claims ordered ih hclaims, lookup_map_widen]
      exact Option.or_none
    rw [transform, hclaims, widen_object, heq]
    rfl

/-! ### The payload with the times of its token -/

/-- It fits into the `int` of `set_integer`. -/
def IsInt32 (n : Int) : Prop := -2 ^ 31 ≤ n ∧ n < 2 ^ 31

instance (n : Int) : Decidable (IsInt32 n) := by unfold IsInt32; infer_instance

theorem isInt32_toInt (i : Int32) : IsInt32 i.toInt := ⟨i.le_toInt, i.toInt_lt⟩

theorem IsInt32.exists_eq {n : Int} (h : IsInt32 n) : ∃ i : Int32, i.toInt = n :=
  ⟨Int32.ofInt n, Int32.toInt_ofInt_of_le h.1 h.2⟩

/-- `iat` and `exp` are the times of a token that is signed at `signing`. -/
structure TimesOf (expires_seconds : Int32) (signing : Int64) (iat : Int32)
    (exp : Option Int32) : Prop where
  issued : iat.toInt = issuedAt signing
  expires : exp.map Int32.toInt =
    if 0 < expires_seconds then some (expiresAt expires_seconds signing) else none

/-- The payload with these times. -/
def extended (obj : List (Bytes × LeptValue δ)) (iat : Int32) :
    Option Int32 → List (Bytes × LeptValue δ)
  | none => OrderedMap.assign (str "iat", .integer iat) obj
  | some exp =>
    OrderedMap.assign (str "exp", .integer exp) (OrderedMap.assign (str "iat", .integer iat) obj)

theorem plain_object {obj : List (Bytes × LeptValue δ)} (h : (LeptValue.object obj).Plain) :
    OrderedMap.Ordered obj ∧ ∀ e ∈ obj, e.2.Plain := by
  cases h with
  | object ordered values => exact ⟨ordered, values⟩

theorem plain_assign {k : Bytes} {i : Int32} {obj : List (Bytes × LeptValue δ)}
    (h : (LeptValue.object obj).Plain) :
    (LeptValue.object (OrderedMap.assign (k, .integer i) obj)).Plain := by
  obtain ⟨ordered, values⟩ := plain_object h
  refine .object (ordered.assign _) fun e he => ?_
  rcases OrderedMap.mem_of_mem_assign he with rfl | he
  · exact .integer i
  · exact values e he

theorem plain_extended {obj : List (Bytes × LeptValue δ)} (h : (LeptValue.object obj).Plain)
    (iat : Int32) (exp : Option Int32) : (LeptValue.object (extended obj iat exp)).Plain := by
  cases exp with
  | none => exact plain_assign h
  | some exp => exact plain_assign (plain_assign h)

/-- A time claim of a signed token is the one of the builder. -/
theorem toTimeT_eq {t : Int64} {i : Int32} (h : i.toInt = t.toInt.tdiv (10 ^ 9)) :
    Clock.toTimeT t = i.toInt64 := by
  rw [← Int64.toInt_inj, Clock.toInt_toTimeT, Int32.toInt_toInt64, h]

theorem ordered_timeClaims (expires : Int32) (now : Int64) :
    OrderedMap.Ordered (timeClaims (δ := δ) expires now) := by
  rw [timeClaims]
  split
  · exact (OrderedMap.ordered_nil.assign _).assign _
  · exact OrderedMap.ordered_nil.assign _

/-- An expiry that fits into 32 bits has not left the clock. -/
theorem expires_fits {expires : Int32} {signing : Int64}
    (h : IsInt32 (expiresAt expires signing)) :
    signing.toInt + expires.toInt * 10 ^ 9 < 2 ^ 63 := by
  obtain ⟨-, hhigh⟩ := h
  rw [expiresAt] at hhigh
  by_cases hneg : signing.toInt + expires.toInt * 10 ^ 9 < 0
  · omega
  · have hdiv := Clock.tdiv_of_nonneg (Int.not_lt.mp hneg)
    omega

/-- A time claim that is set before those of the payload, or in the payload. -/
theorem lookup_or_assign {obj' : List (Bytes × LeptValue δ)} {ms : List (Bytes × PicoValue δ)}
    {o : Option (LeptValue δ)} {k key : Bytes} {i : Int32} (hkey : k = key → o = none)
    (h : (o.map widen).or (ms.lookup k) = (obj'.lookup k).map widen) :
    (o.map widen).or ((OrderedMap.assign (key, .integer i.toInt64) ms).lookup k) =
      ((OrderedMap.assign (key, .integer i) obj').lookup k).map widen := by
  rw [OrderedMap.lookup_assign, OrderedMap.lookup_assign]
  by_cases hk : k = key
  · rw [hkey hk, hk, beq_self_eq_true, if_pos rfl, if_pos rfl, Option.map_some, widen]
    rfl
  · rw [beq_false_of_ne hk, if_neg Bool.false_ne_true, if_neg Bool.false_ne_true, h]

/-- **The claims of the token are those of the payload with its times**, if these fit. -/
theorem claims_eq {finite : δ → Bool} {obj : List (Bytes × LeptValue δ)}
    (hobj : (LeptValue.object obj).Plain) (hiat : obj.lookup (str "iat") = none)
    (hexp : obj.lookup (str "exp") = none) {expires : Int32} {signing : Int64} {iat : Int32}
    {exp : Option Int32} (htimes : TimesOf expires signing iat exp)
    {claims : List (Bytes × PicoValue δ)}
    (h : transformEntries finite obj (timeClaims expires signing) = .ok claims) :
    claims = (extended obj iat exp).map widenEntry := by
  have hextended := plain_extended hobj iat exp
  obtain ⟨ordered, values⟩ := plain_object hobj
  obtain ⟨ordered', -⟩ := plain_object hextended
  have htransform : ∀ e ∈ obj, transform finite e.2 = .ok (widen e.2) :=
    fun e he => transform_plain finite (values e he)
  refine (ordered_transformEntries h (ordered_timeClaims expires signing)).ext
    (ordered'.map widen) fun k => ?_
  rw [lookup_claims ordered htransform h, lookup_map_widen]
  have hempty : ((obj.lookup k).map widen).or (([] : List (Bytes × PicoValue δ)).lookup k) =
      (obj.lookup k).map widen := Option.or_none
  have hissued : Clock.toTimeT signing = iat.toInt64 := toTimeT_eq htimes.issued
  have hk : ∀ {key : Bytes}, obj.lookup key = none → k = key → obj.lookup k = none := by
    rintro key hnone rfl
    exact hnone
  have hexpires := htimes.expires
  cases exp with
  | none =>
    have hnot : ¬ 0 < expires := by
      intro hpos
      rw [if_pos hpos] at hexpires
      exact absurd hexpires (by simp)
    rw [timeClaims, if_neg hnot, hissued]
    exact lookup_or_assign (hk hiat) hempty
  | some e =>
    have hpos : 0 < expires := by
      by_contra hnot
      rw [if_neg hnot] at hexpires
      exact absurd hexpires (by simp)
    rw [if_pos hpos] at hexpires
    have he : e.toInt = expiresAt expires signing := Option.some.inj hexpires
    have hfits := expires_fits (he ▸ isInt32_toInt e)
    have hexpiry : Clock.toTimeT (signing + Clock.seconds expires.toInt64) = e.toInt64 := by
      rw [← Int64.toInt_inj, (toTimeT_expires_iff hpos signing).mpr hfits, Int32.toInt_toInt64, he]
    rw [timeClaims, if_pos hpos, hissued]
    dsimp only
    rw [hexpiry]
    exact lookup_or_assign (hk hexp) (lookup_or_assign (hk hiat) hempty)

/-! ### What the verifier finds -/

/-- A reading of the clock and a date in seconds. -/
theorem date_le_iff {jwt : JwtCpp σ τ δ} (hjwt : jwt.Documented) {i : Int64}
    (htime : IsTime i.toInt) (now : Int64) :
    (∃ date, jwt.asDate (.integer i) = some date ∧ date ≤ now) ↔
      i.toInt * 10 ^ 9 ≤ now.toInt := by
  have hvalue : (Clock.seconds i).toInt = i.toInt * 10 ^ 9 := by
    rw [Clock.toInt_seconds, Clock.wrapped_eq_self htime.1 htime.2]
  rw [hjwt.asDate_integer i htime, ← hvalue, ← Int64.le_iff_toInt_le]
  simp

@[inherit_doc date_le_iff]
theorem le_date_iff {jwt : JwtCpp σ τ δ} (hjwt : jwt.Documented) {i : Int64}
    (htime : IsTime i.toInt) (now : Int64) :
    (∃ date, jwt.asDate (.integer i) = some date ∧ now ≤ date) ↔
      now.toInt ≤ i.toInt * 10 ^ 9 := by
  have hvalue : (Clock.seconds i).toInt = i.toInt * 10 ^ 9 := by
    rw [Clock.toInt_seconds, Clock.wrapped_eq_self htime.1 htime.2]
  rw [hjwt.asDate_integer i htime, ← hvalue, ← Int64.le_iff_toInt_le]
  simp

theorem isTime_toInt64 (i : Int32) : IsTime i.toInt64.toInt := by
  have hlow := i.le_toInt
  have hhigh := i.toInt_lt
  rw [Int32.toInt_toInt64, IsTime]
  omega

/-- Only an integer of the payload is a date. -/
theorem widen_date_le_iff {jwt : JwtCpp σ τ δ} {real : δ → Bytes → Prop}
    (hjwt : jwt.Standard real) {v : LeptValue δ} (hv : v.Plain) (now : Int64) :
    (∃ date, jwt.asDate (jwt.reread (widen v)) = some date ∧ date ≤ now) ↔
      ∃ i, v = .integer i ∧ i.toInt * 10 ^ 9 ≤ now.toInt := by
  have hother : (∀ i, widen v ≠ .integer i) → (∀ x, widen v ≠ .number x) → (∀ i, v ≠ .integer i) →
      ((∃ date, jwt.asDate (jwt.reread (widen v)) = some date ∧ date ≤ now) ↔
        ∃ i, v = .integer i ∧ i.toInt * 10 ^ 9 ≤ now.toInt) := by
    intro hinteger hnumber hv
    rw [hjwt.asDate_other _ hinteger hnumber]
    refine iff_of_false (by simp) ?_
    rintro ⟨i, hi, -⟩
    exact hv i hi
  cases hv with
  | integer i =>
    rw [widen, hjwt.reread_integer, date_le_iff hjwt.toDocumented (isTime_toInt64 i),
      Int32.toInt_toInt64]
    simp
  | null => exact hother (by simp [widen]) (by simp [widen]) (by simp)
  | boolean b => exact hother (by simp [widen]) (by simp [widen]) (by simp)
  | string s => exact hother (by simp [widen]) (by simp [widen]) (by simp)
  | array elems => exact hother (by simp) (by simp) (by simp)
  | object ordered values => exact hother (by simp) (by simp) (by simp)

theorem timeClaims_other {expires : Int32} {now : Int64} {k : Bytes} (hiat : k ≠ str "iat")
    (hexp : 0 < expires → k ≠ str "exp") : (timeClaims (δ := δ) expires now).lookup k = none := by
  rw [timeClaims]
  split
  · next hpos =>
    rw [OrderedMap.lookup_assign, beq_false_of_ne (hexp hpos), if_neg Bool.false_ne_true,
      OrderedMap.lookup_assign, beq_false_of_ne hiat, if_neg Bool.false_ne_true]
    rfl
  · rw [OrderedMap.lookup_assign, beq_false_of_ne hiat, if_neg Bool.false_ne_true]
    rfl

/-- When the clock of the verifier agrees with the times of the token: `iat`, `exp` and an `nbf` of
    the payload. -/
structure ClockAgrees (obj : List (Bytes × LeptValue δ)) (expires_seconds : Int32)
    (signing checked : Int64) : Prop where
  begun : issuedAt signing * 10 ^ 9 ≤ checked.toInt
  expiry : 0 < expires_seconds → checked.toInt ≤
    (Clock.toTimeT (signing + Clock.seconds expires_seconds.toInt64)).toInt * 10 ^ 9
  notBefore : ∀ v, obj.lookup (str "nbf") = some v →
    ∃ i, v = .integer i ∧ i.toInt * 10 ^ 9 ≤ checked.toInt

theorem isTime_toTimeT (t : Int64) : IsTime (Clock.toTimeT t).toInt := by
  obtain ⟨hlow, hhigh⟩ := Clock.toInt_bounds t
  rw [Clock.toInt_toTimeT]
  exact Clock.tdiv_bounds hlow hhigh

/-- **When the verifier accepts a signed payload.** -/
theorem accepts_iff {jwt : JwtCpp σ τ δ} {real : δ → Bytes → Prop} (hjwt : jwt.Standard real)
    {obj : List (Bytes × LeptValue δ)} (hobj : (LeptValue.object obj).Plain)
    (hiat : obj.lookup (str "iat") = none) (hexp : obj.lookup (str "exp") = none) {key : Bytes}
    {expires : Int32} {signing : Int64} {claims : List (Bytes × PicoValue δ)}
    (hclaims : transformEntries jwt.finite obj (timeClaims expires signing) = .ok claims)
    {decoded : τ} (hdecode : jwt.decode (jwt.sign claims key) = some decoded)
    (hcarried : ∀ k, (jwt.payloadClaims decoded).lookup k = (claims.lookup k).map jwt.reread)
    (checked : Int64) :
    jwt.accepts decoded key checked = true ↔ ClockAgrees obj expires signing checked := by
  obtain ⟨ordered, values⟩ := plain_object hobj
  have hlookup : ∀ k, (jwt.payloadClaims decoded).lookup k =
      (((obj.lookup k).map widen).or ((timeClaims expires signing).lookup k)).map jwt.reread := by
    intro k
    rw [hcarried, lookup_claims ordered (fun e he => transform_plain jwt.finite (values e he))
      hclaims]
  have hbegun := date_le_iff hjwt.toDocumented (isTime_toTimeT signing) checked
  have hexpiry := le_date_iff hjwt.toDocumented
    (isTime_toTimeT (signing + Clock.seconds expires.toInt64)) checked
  have hiatClaim : (jwt.payloadClaims decoded).lookup (str "iat") =
      some (.integer (Clock.toTimeT signing)) := by
    rw [hlookup, hiat, timeClaims_iat]
    exact congrArg some (hjwt.reread_integer _)
  have hexpClaim : 0 < expires → (jwt.payloadClaims decoded).lookup (str "exp") =
      some (.integer (Clock.toTimeT (signing + Clock.seconds expires.toInt64))) := by
    intro hpos
    rw [hlookup, hexp, timeClaims_exp hpos]
    exact congrArg some (hjwt.reread_integer _)
  have hexpNone : ¬ 0 < expires → (jwt.payloadClaims decoded).lookup (str "exp") = none := by
    intro hnot
    rw [hlookup, hexp, timeClaims_other (by decide) fun hpos => absurd hpos hnot]
    rfl
  have hnbfClaim : (jwt.payloadClaims decoded).lookup (str "nbf") =
      (obj.lookup (str "nbf")).map fun v => jwt.reread (widen v) := by
    rw [hlookup, timeClaims_other (by decide) fun _ => by decide, Option.or_none, Option.map_map]
    rfl
  rw [hjwt.accepts_sign claims key decoded checked hdecode]
  constructor
  · intro htimely
    refine ⟨?_, fun hpos => ?_, fun v hv => ?_⟩
    · have hdate := hbegun.mp (htimely.iat _ hiatClaim)
      rwa [Clock.toInt_toTimeT] at hdate
    · exact hexpiry.mp (htimely.exp _ (hexpClaim hpos))
    · have hplain : v.Plain := values (str "nbf", v) ((ordered.mem_iff_lookup _ v).mpr hv)
      rw [hv, Option.map_some] at hnbfClaim
      exact (widen_date_le_iff hjwt hplain checked).mp (htimely.nbf _ hnbfClaim)
  · intro hagrees
    refine ⟨fun claim hclaim => ?_, fun claim hclaim => ?_, fun claim hclaim => ?_⟩
    · by_cases hpos : 0 < expires
      · obtain rfl := Option.some.inj ((hexpClaim hpos).symm.trans hclaim)
        exact hexpiry.mpr (hagrees.expiry hpos)
      · rw [hexpNone hpos] at hclaim
        exact absurd hclaim (by simp)
    · obtain rfl := Option.some.inj (hiatClaim.symm.trans hclaim)
      refine hbegun.mpr ?_
      rw [Clock.toInt_toTimeT]
      exact hagrees.begun
    · rw [hnbfClaim] at hclaim
      obtain ⟨v, hv, rfl⟩ := Option.map_eq_some_iff.mp hclaim
      have hplain : v.Plain := values (str "nbf", v) ((ordered.mem_iff_lookup _ v).mpr hv)
      exact (widen_date_le_iff hjwt hplain checked).mpr (hagrees.notBefore v hv)

/-! ### The payload comes back -/

/-- `verify` returns the signed payload with the times of its token. -/
def ComesBack (jwt : JwtCpp σ τ δ) (fp : DoubleText δ) (obj : List (Bytes × LeptValue δ))
    (key : Bytes) (expires_seconds maxAge_hours : Int32) (signing checked now : Int64) : Prop :=
  ∃ token iat exp, sign jwt (.object obj) key expires_seconds signing = .ok token ∧
    TimesOf expires_seconds signing iat exp ∧
      verify jwt fp token key maxAge_hours checked now = .ok (.object (extended obj iat exp))

theorem TimesOf.isInt32_expiresAt {expires : Int32} {signing : Int64} {iat : Int32}
    {exp : Option Int32} (h : TimesOf expires signing iat exp) (hpos : 0 < expires) :
    IsInt32 (expiresAt expires signing) := by
  have hexpires := h.expires
  rw [if_pos hpos] at hexpires
  obtain ⟨e, -, he⟩ := Option.map_eq_some_iff.mp hexpires
  exact he ▸ isInt32_toInt e

theorem exists_timesOf {expires : Int32} {signing : Int64} (hissued : IsInt32 (issuedAt signing))
    (hexpires : 0 < expires → IsInt32 (expiresAt expires signing)) :
    ∃ iat exp, TimesOf expires signing iat exp := by
  obtain ⟨iat, hiat⟩ := hissued.exists_eq
  by_cases hpos : 0 < expires
  · obtain ⟨e, he⟩ := (hexpires hpos).exists_eq
    exact ⟨iat, some e, hiat, by rw [if_pos hpos, Option.map_some, he]⟩
  · exact ⟨iat, none, hiat, by rw [if_neg hpos, Option.map_none]⟩

/-- The text of the token is read as the payload with its times. -/
theorem parsePayload_signed {jwt : JwtCpp σ τ δ} {real : δ → Bytes → Prop}
    (hjwt : jwt.Standard real) (fp : DoubleText δ) {v : LeptValue δ} (hv : v.Plain)
    {claims : List (Bytes × PicoValue δ)} (hclaims : widen v = .object claims) {key : Bytes}
    {decoded : τ} (hdecode : jwt.decode (jwt.sign claims key) = some decoded) :
    parsePayload fp (jwt.payload decoded) = .ok v := by
  obtain ⟨w, t, w', hw, ht, hw', htext⟩ := hjwt.payload_sign claims key decoded hdecode
  rw [← hclaims] at ht
  rw [parsePayload, htext, parse_of_text fp hv hw ht hw']

/-- **When a signed payload comes back**: before its expiry, if and only if the times of the token
    fit into 32 bits, neither its `iat` nor an `nbf` of the payload lies ahead of the clock, and
    the maximal age has not wrapped. -/
theorem comesBack_iff {jwt : JwtCpp σ τ δ} {real : δ → Bytes → Prop} (hjwt : jwt.Standard real)
    (fp : DoubleText δ) {obj : List (Bytes × LeptValue δ)} (hobj : (LeptValue.object obj).Plain)
    (hiat : obj.lookup (str "iat") = none) (hexp : obj.lookup (str "exp") = none) (key : Bytes)
    (expires maxAge : Int32) (signing checked now : Int64)
    (hlife : 0 < expires → checked.toInt ≤ expiresAt expires signing * 10 ^ 9) :
    ComesBack jwt fp obj key expires maxAge signing checked now ↔
      (IsInt32 (issuedAt signing) ∧ (0 < expires → IsInt32 (expiresAt expires signing))) ∧
      (issuedAt signing * 10 ^ 9 ≤ checked.toInt ∧
        ∀ v, obj.lookup (str "nbf") = some v →
          ∃ i, v = .integer i ∧ i.toInt * 10 ^ 9 ≤ checked.toInt) ∧
      (0 ≤ maxAge → now.toInt ≤ Clock.wrapped (ageLimit (issuedAt signing) maxAge)) := by
  obtain ⟨ordered, values⟩ := plain_object hobj
  obtain ⟨claims, hclaims⟩ := exists_transformEntries
    (fun e he => transform_plain jwt.finite (values e he)) (timeClaims expires signing)
  have hsign : sign jwt (.object obj) key expires signing = .ok (jwt.sign claims key) := by
    rw [sign, hclaims]
    rfl
  obtain ⟨decoded, hdecode, hmap⟩ := hjwt.decode_sign claims key
  have hcarried : ∀ k, (jwt.payloadClaims decoded).lookup k = (claims.lookup k).map jwt.reread :=
    fun k => by rw [hmap, lookup_reread]
  have haccepts := accepts_iff hjwt hobj hiat hexp hclaims hdecode hcarried checked
  have hiatClaim : (jwt.payloadClaims decoded).lookup (str "iat") =
      some (.integer (Clock.toTimeT signing)) := by
    rw [hcarried, lookup_claims ordered (fun e he => transform_plain jwt.finite (values e he))
      hclaims, hiat, timeClaims_iat]
    exact congrArg some (hjwt.reread_integer _)
  have hissued : (Clock.toTimeT signing).toInt = issuedAt signing := Clock.toInt_toTimeT signing
  have hverify : jwt.accepts decoded key checked = true →
      verify jwt fp (jwt.sign claims key) key maxAge checked now =
        if 0 ≤ maxAge ∧ Clock.wrapped (ageLimit (issuedAt signing) maxAge) < now.toInt then
          .error (.runtimeError "Token is expired")
        else parsePayload fp (jwt.payload decoded) := by
    intro haccepted
    rw [verify_of_accepts hjwt.toDocumented fp hdecode haccepted hiatClaim (isTime_toTimeT signing),
      hissued]
  constructor
  · rintro ⟨token, iat, exp, hsign', htimes, hreturned⟩
    obtain rfl := Except.ok.inj (hsign.symm.trans hsign')
    have haccepted : jwt.accepts decoded key checked = true := by
      by_contra hrejected
      rw [verify, hdecode] at hreturned
      dsimp only at hreturned
      rw [if_pos (Bool.eq_false_iff.mpr hrejected)] at hreturned
      exact absurd hreturned (by simp)
    have hagrees := haccepts.mp haccepted
    rw [hverify haccepted] at hreturned
    refine ⟨⟨htimes.issued ▸ isInt32_toInt iat, htimes.isInt32_expiresAt⟩,
      ⟨hagrees.begun, hagrees.notBefore⟩, fun hage => ?_⟩
    by_contra hlate
    rw [if_pos ⟨hage, Int.not_le.mp hlate⟩] at hreturned
    exact absurd hreturned (by simp)
  · rintro ⟨⟨hfits, hfits'⟩, ⟨hbegun, hnbf⟩, hage⟩
    obtain ⟨iat, exp, htimes⟩ := exists_timesOf hfits hfits'
    have haccepted : jwt.accepts decoded key checked = true := by
      refine haccepts.mpr ⟨hbegun, fun hpos => ?_, hnbf⟩
      rw [(toTimeT_expires_iff hpos signing).mpr (expires_fits (hfits' hpos))]
      exact hlife hpos
    have hwiden : widen (.object (extended obj iat exp)) = .object claims := by
      rw [widen_object, claims_eq hobj hiat hexp htimes hclaims]
    refine ⟨jwt.sign claims key, iat, exp, hsign, htimes, ?_⟩
    rw [hverify haccepted, if_neg fun hlate => absurd (hage hlate.1) (Int.not_le.mpr hlate.2)]
    exact parsePayload_signed hjwt fp (plain_extended hobj iat exp) hwiden hdecode

/-- No double is written. -/
def OpenToken.noText (x : Empty) (_ : Bytes) : Prop := x.elim

theorem OpenToken.timely_iff (t : OpenToken) (name : String) (wanted : Int64 → Bool) :
    t.timely name wanted = true ↔ ∀ claim, t.claims.lookup (str name) = some claim →
      ∃ date, jwt.asDate claim = some date ∧ wanted date = true := by
  rw [timely]
  cases t.claims.lookup (str name) with
  | none => simp
  | some claim => simp [Option.any_eq_true, jwt]

theorem OpenToken.jwt_standard : OpenToken.jwt.Standard OpenToken.noText where
  toDocumented := jwt_documented
  payload_sign claims key decoded hdecode := by
    obtain rfl := Option.some.inj hdecode
    have htext : Text Int64.toInt noText (.object claims)
        (JsonText.write Int64.toInt Empty.elim (.object claims)) :=
      JsonText.text_write (fun x : Empty => x.elim) _
    refine ⟨[], _, [], JsonText.space_nil, htext, JsonText.space_nil, ?_⟩
    rw [List.nil_append, List.append_nil]
    rfl
  accepts_sign claims key decoded now hdecode := by
    obtain rfl := Option.some.inj hdecode
    have hexp := timely_iff (jwt.sign claims key) "exp" fun exp => now ≤ exp
    have hiat := timely_iff (jwt.sign claims key) "iat" fun iat => iat ≤ now
    have hnbf := timely_iff (jwt.sign claims key) "nbf" fun nbf => nbf ≤ now
    have hkey : ((jwt.sign claims key).key == key) = true := beq_self_eq_true key
    rw [jwt_accepts, hkey, Bool.true_and, Bool.and_eq_true, Bool.and_eq_true, hexp, hiat, hnbf]
    simp only [decide_eq_true_eq]
    exact ⟨fun h => ⟨h.1.1, h.1.2, h.2⟩, fun h => ⟨⟨h.exp, h.iat⟩, h.nbf⟩⟩
  asDate_other v hinteger hnumber := by
    cases v with
    | integer i => exact absurd rfl (hinteger i)
    | number x => exact absurd rfl (hnumber x)
    | null => rfl
    | boolean b => rfl
    | string s => rfl
    | array vs => rfl
    | object ms => rfl

/-- `{"tags":[-2147483648,"é\n"],"uid":7}` comes back half a minute later. -/
theorem comesBack_iff_nested :
    ComesBack OpenToken.jwt noDoubles
      [(str "tags", .array [.integer (-2147483648), .string [0xC3, 0xA9, 0x0A]]),
        (str "uid", .integer 7)] (str "secret") 60 1 1700000000500000000 1700000030000000000
      1700000030000000000 := by
  have hobj : (LeptValue.object (δ := Empty)
      [(str "tags", .array [.integer (-2147483648), .string [0xC3, 0xA9, 0x0A]]),
        (str "uid", .integer 7)]).Plain := by
    refine .object (by decide) (List.forall_mem_cons.mpr
      ⟨.array ?_, List.forall_mem_singleton.mpr (.integer 7)⟩)
    exact List.forall_mem_cons.mpr ⟨.integer _, List.forall_mem_singleton.mpr (.string _)⟩
  refine (comesBack_iff OpenToken.jwt_standard noDoubles hobj rfl rfl (str "secret") 60 1
    1700000000500000000 1700000030000000000 1700000030000000000 fun _ => by decide).mpr ?_
  refine ⟨⟨by decide, fun _ => by decide⟩, ⟨by decide, fun v hv => ?_⟩, fun _ => by decide⟩
  exact absurd (show some v = none from hv.symm) (by simp)

/-- The token of `{"uid":7}` for 600000000 seconds is for a time after 2038: `exp` comes back
    negative. -/
theorem farExpiry_wraps :
    (∃ token, sign OpenToken.jwt (.object [(str "uid", .integer 7)]) (str "secret") 600000000
        1700000000000000000 = .ok token ∧
      verify OpenToken.jwt noDoubles token (str "secret") (-1) 1700000001000000000
          1700000001000000000 =
        .ok (.object [(str "exp", .integer (-1994967296)), (str "iat", .integer 1700000000),
          (str "uid", .integer 7)])) ∧
      ¬ ComesBack OpenToken.jwt noDoubles [(str "uid", .integer 7)] (str "secret") 600000000 (-1)
        1700000000000000000 1700000001000000000 1700000001000000000 := by
  refine ⟨⟨⟨[(str "exp", .integer 2300000000), (str "iat", .integer 1700000000),
    (str "uid", .integer 7)], str "secret"⟩, rfl, rfl⟩, ?_⟩
  rintro ⟨token, iat, exp, -, htimes, -⟩
  exact absurd (htimes.isInt32_expiresAt (by decide)) (by decide)

end JwtUtil

end MyWebSocket
