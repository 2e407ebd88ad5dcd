import MyWebSocket.Json.Message
import MyWebSocket.Library.Clock
import MyWebSocket.Library.JsonText

namespace MyWebSocket

/-!
# Signed tokens

`JwtUtil::sign` and `JwtUtil::verify`.

* jwt-cpp is a parameter, `JwtCpp`; what `JwtUtil` relies on is `JwtCpp.Documented`.
* The system clock counts nanoseconds in 64 bits; each of its readings is an argument.
* `sign` sets the time claims before those of the payload, so a payload with claims of these names
  decides them (`sign_limited_iff`).
-/

variable {σ τ δ : Type}

/-- A `picojson::value` with 64-bit integers; an object is a `std::map`. -/
abbrev PicoValue (δ : Type) := JsonText.Value Int64 δ

/-- How `sign` and `verify` end without a result. -/
inductive JwtFailure
  /-- A `std::runtime_error`. -/
  | runtimeError (what : String)
  /-- jwt-cpp or picojson throws. -/
  | library
  /-- It does not return. -/
  | halt (h : Halt)
deriving DecidableEq, Repr

/-- jwt-cpp and its picojson; `σ` are the tokens and `τ` the decoded ones. -/
structure JwtCpp (σ τ δ : Type) where
  /-- `picojson::value(double)` throws unless the number is finite. -/
  finite : δ → Bool
  /-- What a value is after it has been written and read again. -/
  reread : PicoValue δ → PicoValue δ
  /-- `builder.sign(jwt::algorithm::hs256(key))` with the type `JWT` and these payload claims. -/
  sign : List (Bytes × PicoValue δ) → Bytes → σ
  /-- `jwt::decode`, unless it throws. -/
  decode : σ → Option τ
  /-- The verifier that allows HS256 with a key does not throw at a reading of the clock. -/
  accepts : τ → Bytes → Int64 → Bool
  /-- What `has_payload_claim` and `get_payload_claim` look up. -/
  payloadClaims : τ → List (Bytes × PicoValue δ)
  /-- `get_payload`. -/
  payload : τ → Bytes
  /-- `as_date`, unless it throws. -/
  asDate : PicoValue δ → Option Int64

/-- A number of seconds that is a time of the system clock. -/
def IsTime (n : Int) : Prop := -2 ^ 63 ≤ n * 10 ^ 9 ∧ n * 10 ^ 9 < 2 ^ 63

instance (n : Int) : Decidable (IsTime n) := by unfold IsTime; infer_instance

/-- What `JwtUtil` relies on. -/
structure JwtCpp.Documented (jwt : JwtCpp σ τ δ) : Prop where
  /-- A signed token carries the claims, each as its text is read. -/
  decode_sign : ∀ claims key, ∃ decoded, jwt.decode (jwt.sign claims key) = some decoded ∧
    jwt.payloadClaims decoded = claims.map fun e => (e.1, jwt.reread e.2)
  reread_integer : ∀ i, jwt.reread (.integer i) = .integer i
  asDate_integer : ∀ i : Int64, IsTime i.toInt → jwt.asDate (.integer i) = some (Clock.seconds i)
  /-- A token whose `exp` has passed is rejected. -/
  rejects_expired : ∀ decoded key (now exp : Int64),
    (jwt.payloadClaims decoded).lookup (str "exp") = some (.integer exp) → IsTime exp.toInt →
      exp.toInt * 10 ^ 9 < now.toInt → jwt.accepts decoded key now = false

namespace JwtUtil

/-! ### The code -/

mutual

/-- `JwtUtil::transform`. -/
def transform (finite : δ → Bool) : LeptValue δ → Except JwtFailure (PicoValue δ)
  | .null => .ok .null
  | .boolean b => .ok (.boolean b)
  | .number n => if finite n then .ok (.number n) else .error .library
  | .integer i => .ok (.integer i.toInt64)
  | .string s => .ok (.string s)
  | .array arr => do
    let vs ← transformElements finite arr
    .ok (.array vs)
  | .object obj => do
    let ms ← transformEntries finite obj []
    .ok (.object ms)

/-- The loop over the elements of an array. -/
def transformElements (finite : δ → Bool) :
    List (LeptValue δ) → Except JwtFailure (List (PicoValue δ))
  | [] => .ok []
  | v :: arr => do
    let x ← transform finite v
    let xs ← transformElements finite arr
    .ok (x :: xs)

/-- The loop over the entries of an object, which assigns to `ms` under each key. -/
def transformEntries (finite : δ → Bool) : List (Bytes × LeptValue δ) →
    List (Bytes × PicoValue δ) → Except JwtFailure (List (Bytes × PicoValue δ))
  | [], ms => .ok ms
  | (k, v) :: obj, ms => do
    let x ← transform finite v
    transformEntries finite obj (OrderedMap.assign (k, x) ms)

end

/-- The claims of the builder that `sign` sets before those of the payload. -/
def timeClaims (expires_seconds : Int32) (now : Int64) : List (Bytes × PicoValue δ) :=
  let claims := OrderedMap.assign (str "iat", .integer (Clock.toTimeT now)) []
  if 0 < expires_seconds then
    let expires_at := now + Clock.seconds expires_seconds.toInt64
    OrderedMap.assign (str "exp", .integer (Clock.toTimeT expires_at)) claims
  else claims

/-- `JwtUtil::sign`, the clock showing `now`. -/
def sign (jwt : JwtCpp σ τ δ) (payload : LeptValue δ) (key : Bytes) (expires_seconds : Int32)
    (now : Int64) : Except JwtFailure σ :=
  match payload with
  | .object payload_obj => do
    -- the loop is that of `transform`, into the claims of the builder
    let claims ← transformEntries jwt.finite payload_obj (timeClaims expires_seconds now)
    .ok (jwt.sign claims key)
  -- the assertion of `get_object`
  | _ => .error (.halt .assertion)

/-- `payload.parse(decoded_token.get_payload())`, the result of which is not looked at. -/
def parsePayload (fp : DoubleText δ) (text : Bytes) : Except JwtFailure (LeptValue δ) :=
  match LeptValue.parse fp text with
  | .ok (payload, _) => .ok payload
  | .error h => .error (.halt h)

/-- `JwtUtil::verify`; the clock shows `checked` to the verifier and `now` afterwards. -/
def verify (jwt : JwtCpp σ τ δ) (fp : DoubleText δ) (token : σ) (key : Bytes)
    (maxAge_hours : Int32) (checked now : Int64) : Except JwtFailure (LeptValue δ) :=
  match jwt.decode token with
  | none => .error .library
  | some decoded_token =>
    if jwt.accepts decoded_token key checked = false then .error .library
    else if maxAge_hours < 0 then parsePayload fp (jwt.payload decoded_token)
    else
      match (jwt.payloadClaims decoded_token).lookup (str "iat") with
      | none => .error (.runtimeError "Token is missing 'iat' claim")
      | some iat_claim =>
        match jwt.asDate iat_claim with
        | none => .error .library
        | some iat_time_point =>
          if iat_time_point + Clock.hours maxAge_hours.toInt64 < now then
            .error (.runtimeError "Token is expired")
          else parsePayload fp (jwt.payload decoded_token)

/-- It throws. -/
def Throws {α : Type} (r : Except JwtFailure α) : Prop :=
  ∃ e, r = .error e ∧ ∀ h, e ≠ .halt h

theorem not_throws_parsePayload (fp : DoubleText δ) (text : Bytes) :
    ¬ Throws (parsePayload fp text) := by
  rintro ⟨e, he, hthrown⟩
  rw [parsePayload] at he
  split at he
  · exact absurd he (by simp)
  · next h _ => exact hthrown h (Except.error.inj he).symm

/-! ### A jwt-cpp to run -/

/-- A token as what it carries and the key it is signed with. -/
structure OpenToken where
  claims : List (Bytes × PicoValue Empty)
  key : Bytes

namespace OpenToken

def asDate : PicoValue Empty → Option Int64
  | .integer i => some (Clock.seconds i)
  | _ => none

/-- The date of a claim, where there is one, is as the verifier wants it. -/
def timely (t : OpenToken) (name : String) (wanted : Int64 → Bool) : Bool :=
  match t.claims.lookup (str name) with
  | none => true
  | some claim => (asDate claim).any wanted

/-- A jwt-cpp whose tokens can be seen through. -/
def jwt : JwtCpp OpenToken OpenToken Empty where
  finite := Empty.elim
  reread v := v
  sign claims key := ⟨claims, key⟩
  decode token := some token
  accepts token key now := token.key == key && token.timely "exp" (fun exp => now ≤ exp) &&
    token.timely "iat" (fun iat => iat ≤ now) && token.timely "nbf" fun nbf => nbf ≤ now
  payloadClaims := claims
  payload token := JsonText.write Int64.toInt Empty.elim (.object token.claims)
  asDate := asDate

theorem jwt_accepts (t : OpenToken) (key : Bytes) (now : Int64) :
    jwt.accepts t key now = (t.key == key && t.timely "exp" (fun exp => now ≤ exp) &&
      t.timely "iat" (fun iat => iat ≤ now) && t.timely "nbf" fun nbf => nbf ≤ now) := rfl

theorem timely_of_lookup {t : OpenToken} {name : String} {i : Int64}
    (h : t.claims.lookup (str name) = some (.integer i)) (wanted : Int64 → Bool) :
    t.timely name wanted = wanted (Clock.seconds i) := by
  rw [timely, h]
  rfl

/-- After the time in `exp` it is too late. -/
theorem timely_exp {t : OpenToken} {now exp : Int64}
    (hexp : t.claims.lookup (str "exp") = some (.integer exp)) (htime : IsTime exp.toInt)
    (hpast : exp.toInt * 10 ^ 9 < now.toInt) : t.timely "exp" (fun exp => now ≤ exp) = false := by
  have hlate : ¬ now ≤ Clock.seconds exp := by
    rw [Int64.le_iff_toInt_le, Clock.toInt_seconds, Clock.wrapped_eq_self htime.1 htime.2]
    exact Int.not_le.mpr hpast
  rw [timely_of_lookup hexp]
  exact decide_eq_false hlate

theorem jwt_documented : jwt.Documented where
  decode_sign claims key := ⟨⟨claims, key⟩, rfl, (List.map_id claims).symm⟩
  reread_integer _ := rfl
  asDate_integer _ _ := rfl
  rejects_expired token key now exp hexp htime hpast := by
    rw [jwt_accepts, timely_exp hexp htime hpast, Bool.and_false, Bool.false_and, Bool.false_and]

end OpenToken

/-! ### The maximal age -/

/-- The last moment of a token by its age, in nanoseconds. -/
def ageLimit (iat : Int) (maxAge_hours : Int32) : Int :=
  (iat + maxAge_hours.toInt * 3600) * 10 ^ 9

theorem le_ageLimit {iat : Int} (htime : IsTime iat) {maxAge : Int32} (hage : 0 ≤ maxAge) :
    -2 ^ 63 ≤ ageLimit iat maxAge := by
  have hnonneg : 0 ≤ maxAge.toInt := by simpa [Int32.le_iff_toInt_le] using hage
  have hlow := htime.1
  rw [ageLimit]
  omega

theorem ageLimit_mono (iat : Int) {maxAge maxAge' : Int32} (h : maxAge ≤ maxAge') :
    ageLimit iat maxAge ≤ ageLimit iat maxAge' := by
  rw [Int32.le_iff_toInt_le] at h
  rw [ageLimit, ageLimit]
  omega

/-- What `verify` does with a token that the verifier accepts. -/
theorem verify_of_accepts {jwt : JwtCpp σ τ δ} (hjwt : jwt.Documented) (fp : DoubleText δ)
    {token : σ} {decoded : τ} {key : Bytes} {maxAge : Int32} {checked now iat : Int64}
    (hdecode : jwt.decode token = some decoded) (haccepts : jwt.accepts decoded key checked = true)
    (hiat : (jwt.payloadClaims decoded).lookup (str "iat") = some (.integer iat))
    (htime : IsTime iat.toInt) :
    verify jwt fp token key maxAge checked now =
      if 0 ≤ maxAge ∧ Clock.wrapped (ageLimit iat.toInt maxAge) < now.toInt then
        .error (.runtimeError "Token is expired")
      else parsePayload fp (jwt.payload decoded) := by
  have hlimit : (Clock.seconds iat + Clock.hours maxAge.toInt64).toInt =
      Clock.wrapped (ageLimit iat.toInt maxAge) := by
    rw [Clock.toInt_add_hours, Clock.toInt_seconds, Clock.wrapped_eq_self htime.1 htime.2,
      Int32.toInt_toInt64, ageLimit]
    congr 1
    omega
  by_cases hage : 0 ≤ maxAge
  · have hnot : ¬ maxAge < 0 := Int32.not_lt.mpr hage
    simp only [verify, hdecode, haccepts, hnot, hage, hiat, hjwt.asDate_integer iat htime,
      ← hlimit, Int64.lt_iff_toInt_lt, true_and, Bool.true_eq_false, if_false]
  · have hneg : maxAge < 0 := Int32.not_le.mp hage
    simp only [verify, hdecode, haccepts, hneg, hage, false_and, Bool.true_eq_false, if_false,
      if_true]

/-- **When `verify` throws** on a token that the verifier accepts. -/
theorem throws_verify_iff {jwt : JwtCpp σ τ δ} (hjwt : jwt.Documented) (fp : DoubleText δ)
    {token : σ} {decoded : τ} {key : Bytes} {maxAge : Int32} {checked now iat : Int64}
    (hdecode : jwt.decode token = some decoded) (haccepts : jwt.accepts decoded key checked = true)
    (hiat : (jwt.payloadClaims decoded).lookup (str "iat") = some (.integer iat))
    (htime : IsTime iat.toInt) (hage : 0 ≤ maxAge) :
    Throws (verify jwt fp token key maxAge checked now) ↔
      Clock.wrapped (ageLimit iat.toInt maxAge) < now.toInt := by
  rw [verify_of_accepts hjwt fp hdecode haccepts hiat htime]
  split
  · next hlt => exact iff_of_true ⟨_, rfl, by simp⟩ hlt.2
  · next hnlt =>
    exact iff_of_false (not_throws_parsePayload fp _) fun hlt => hnlt ⟨hage, hlt⟩

/-- **When the maximal age is kept exactly**: for a token that the verifier accepts, with an
    integer `iat` that is a time of the clock, `verify` throws exactly after the last moment of
    the token if and only if that moment is a time of the clock too, or wraps to one that is not
    before `now`.  Among such ages a greater one accepts whatever a smaller one does. -/
theorem verify_age_iff {jwt : JwtCpp σ τ δ} (hjwt : jwt.Documented) (fp : DoubleText δ)
    {token : σ} {decoded : τ} {key : Bytes} {checked iat : Int64}
    (hdecode : jwt.decode token = some decoded) (haccepts : jwt.accepts decoded key checked = true)
    (hiat : (jwt.payloadClaims decoded).lookup (str "iat") = some (.integer iat))
    (htime : IsTime iat.toInt) (now : Int64) :
    (∀ maxAge : Int32, 0 ≤ maxAge →
      ((Throws (verify jwt fp token key maxAge checked now) ↔
          ageLimit iat.toInt maxAge < now.toInt) ↔
        ageLimit iat.toInt maxAge < 2 ^ 63 ∨
          now.toInt ≤ Clock.wrapped (ageLimit iat.toInt maxAge))) ∧
    ∀ maxAge maxAge' : Int32, 0 ≤ maxAge → maxAge ≤ maxAge' →
      (ageLimit iat.toInt maxAge' < 2 ^ 63 ∨
        now.toInt ≤ Clock.wrapped (ageLimit iat.toInt maxAge')) →
      ¬ Throws (verify jwt fp token key maxAge checked now) →
        ¬ Throws (verify jwt fp token key maxAge' checked now) := by
  have hthrows : ∀ {maxAge : Int32}, 0 ≤ maxAge →
      (Throws (verify jwt fp token key maxAge checked now) ↔
        Clock.wrapped (ageLimit iat.toInt maxAge) < now.toInt) := fun hage =>
    throws_verify_iff hjwt fp hdecode haccepts hiat htime hage
  have hexact : ∀ maxAge : Int32, 0 ≤ maxAge →
      ((Throws (verify jwt fp token key maxAge checked now) ↔
          ageLimit iat.toInt maxAge < now.toInt) ↔
        ageLimit iat.toInt maxAge < 2 ^ 63 ∨
          now.toInt ≤ Clock.wrapped (ageLimit iat.toInt maxAge)) := by
    intro maxAge hage
    rw [hthrows hage]
    exact Clock.wrapped_lt_iff_iff (le_ageLimit htime hage) now
  refine ⟨hexact, fun maxAge maxAge' hage hle hfits haccepted hrejected => ?_⟩
  have hage' : 0 ≤ maxAge' := Int32.le_trans hage hle
  have hpast : ageLimit iat.toInt maxAge' < now.toInt :=
    ((hexact maxAge' hage').mpr hfits).mp hrejected
  -- then the smaller limit has passed as well, and as it fits the clock it is compared exactly
  have hmono : ageLimit iat.toInt maxAge ≤ ageLimit iat.toInt maxAge' := ageLimit_mono _ hle
  have hnow := Clock.toInt_bounds now
  refine haccepted ((hthrows hage).mpr ?_)
  rw [Clock.wrapped_eq_self (le_ageLimit htime hage) (by omega)]
  omega

/-- One hour is kept exactly at the last moment of a token. -/
theorem verify_age_iff_hour :
    let token : OpenToken := ⟨[(str "iat", .integer 1700000000)], str "secret"⟩
    ¬ Throws (verify OpenToken.jwt noDoubles token (str "secret") 1 1700003600000000000
      1700003600000000000) := by
  intro token hthrows
  have haccepts : OpenToken.jwt.accepts token (str "secret") 1700003600000000000 = true := by
    decide
  have hexact := (verify_age_iff OpenToken.jwt_documented noDoubles rfl haccepts rfl
    (by decide) 1700003600000000000).1 1 (by decide)
  exact absurd ((hexact.mpr (Or.inl (by decide))).mp hthrows) (by decide)

/-- A token of the second 1700000000 is accepted an hour later for a maximal age of an hour and
    refused for one of 2562048 hours. -/
theorem greaterAge_refused :
    let token : OpenToken := ⟨[(str "iat", .integer 1700000000)], str "secret"⟩
    let now : Int64 := 1700003600000000000
    let verified maxAge := verify OpenToken.jwt noDoubles token (str "secret") maxAge now now
    OpenToken.jwt.accepts token (str "secret") now = true ∧
      (ageLimit 1700000000 1 = now.toInt ∧ ¬ Throws (verified 1)) ∧
        (now.toInt < ageLimit 1700000000 2562048 ∧ Throws (verified 2562048)) := by
  refine ⟨by decide, ⟨by decide, ?_⟩, by decide, .runtimeError "Token is expired", rfl, by simp⟩
  have hverified : verify OpenToken.jwt noDoubles
      ⟨[(str "iat", .integer 1700000000)], str "secret"⟩ (str "secret") 1 1700003600000000000
        1700003600000000000 = .ok (.object [(str "iat", .integer 1700000000)]) := rfl
  rintro ⟨e, he, -⟩
  exact absurd (hverified.symm.trans he) (by simp)

/-! ### The claims of a signed token -/

/-- The signing time in seconds. -/
def issuedAt (now : Int64) : Int := now.toInt.tdiv (10 ^ 9)

/-- The time of expiry in seconds. -/
def expiresAt (expires_seconds : Int32) (now : Int64) : Int :=
  (now.toInt + expires_seconds.toInt * 10 ^ 9).tdiv (10 ^ 9)

/-- The token carries the two times, and so `verify` throws on it when either has passed. -/
structure Limited (jwt : JwtCpp σ τ δ) (fp : DoubleText δ) (token : σ) (expires_seconds : Int32)
    (signing : Int64) : Prop where
  carries : ∃ decoded iat exp, jwt.decode token = some decoded ∧
    (jwt.payloadClaims decoded).lookup (str "iat") = some (.integer iat) ∧
    (jwt.payloadClaims decoded).lookup (str "exp") = some (.integer exp) ∧
    iat.toInt = issuedAt signing ∧ exp.toInt = expiresAt expires_seconds signing
  expires : ∀ key maxAge checked now, expiresAt expires_seconds signing * 10 ^ 9 < checked.toInt →
    Throws (verify jwt fp token key maxAge checked now)
  ages : ∀ key maxAge checked now, 0 ≤ maxAge → ageLimit (issuedAt signing) maxAge < now.toInt →
    Throws (verify jwt fp token key maxAge checked now)

/-- A token carries the value as this integer. -/
def CarriedAs (jwt : JwtCpp σ τ δ) (v : LeptValue δ) (n : Int) : Prop :=
  ∃ x i, transform jwt.finite v = .ok x ∧ jwt.reread x = .integer i ∧ i.toInt = n

theorem transformEntries_cons_eq_ok {finite : δ → Bool} {k : Bytes} {v : LeptValue δ}
    {obj : List (Bytes × LeptValue δ)} {ms claims : List (Bytes × PicoValue δ)} :
    transformEntries finite ((k, v) :: obj) ms = .ok claims ↔ ∃ x, transform finite v = .ok x ∧
      transformEntries finite obj (OrderedMap.assign (k, x) ms) = .ok claims := by
  rw [transformEntries]
  cases transform finite v with
  | error e => simp [Bind.bind, Except.bind]
  | ok x => simp [Bind.bind, Except.bind]

/-- A key that does not occur keeps its value. -/
theorem lookup_transformEntries {finite : δ → Bool} {k : Bytes} {obj : List (Bytes × LeptValue δ)}
    {ms claims : List (Bytes × PicoValue δ)} (h : transformEntries finite obj ms = .ok claims)
    (hk : ∀ e ∈ obj, e.1 ≠ k) : claims.lookup k = ms.lookup k := by
  induction obj generalizing ms with
  | nil =>
    rw [transformEntries] at h
    rw [Except.ok.inj h]
  | cons e obj ih =>
    obtain ⟨key, v⟩ := e
    obtain ⟨hne, hrest⟩ := List.forall_mem_cons.mp hk
    obtain ⟨x, -, hclaims⟩ := transformEntries_cons_eq_ok.mp h
    have hkey : (k == key) = false := beq_false_of_ne (Ne.symm hne)
    rw [ih hclaims hrest, OrderedMap.lookup_assign, hkey]
    rfl

/-- A key that occurs gets what its value is transformed into. -/
theorem lookup_transformEntries_of_mem {finite : δ → Bool} {k : Bytes} {v : LeptValue δ}
    {obj : List (Bytes × LeptValue δ)} {ms claims : List (Bytes × PicoValue δ)}
    (h : transformEntries finite obj ms = .ok claims) (hobj : OrderedMap.Ordered obj)
    (hv : (k, v) ∈ obj) : ∃ x, transform finite v = .ok x ∧ claims.lookup k = some x := by
  induction obj generalizing ms with
  | nil => exact absurd hv List.not_mem_nil
  | cons e obj ih =>
    obtain ⟨hlt, hrest⟩ := OrderedMap.ordered_cons.mp hobj
    obtain ⟨key, v'⟩ := e
    obtain ⟨x, hx, hclaims⟩ := transformEntries_cons_eq_ok.mp h
    rcases List.mem_cons.mp hv with heq | hv
    · obtain ⟨rfl, rfl⟩ := Prod.mk.inj heq
      have hkeys : ∀ e ∈ obj, e.1 ≠ k := fun e he hke =>
        List.lt_irrefl k (hke ▸ hlt e he)
      refine ⟨x, hx, ?_⟩
      rw [lookup_transformEntries hclaims hkeys, OrderedMap.lookup_assign, beq_self_eq_true]
      rfl
    · exact ih hclaims hrest hv

theorem lookup_reread (f : PicoValue δ → PicoValue δ) (claims : List (Bytes × PicoValue δ))
    (k : Bytes) : (claims.map fun e => (e.1, f e.2)).lookup k = (claims.lookup k).map f := by
  induction claims with
  | nil => rfl
  | cons e claims ih =>
    rw [List.map_cons, OrderedMap.lookup_cons_eq_ite, OrderedMap.lookup_cons_eq_ite, ih]
    split
    · rfl
    · rfl

/-- What a signed token carries: the claims of the builder, as they are read. -/
theorem lookup_of_sign {jwt : JwtCpp σ τ δ} (hjwt : jwt.Documented)
    {obj : List (Bytes × LeptValue δ)} {key : Bytes} {expires : Int32} {now : Int64} {token : σ}
    (hsign : sign jwt (.object obj) key expires now = .ok token) :
    ∃ claims decoded, transformEntries jwt.finite obj (timeClaims expires now) = .ok claims ∧
      jwt.decode token = some decoded ∧
        ∀ k, (jwt.payloadClaims decoded).lookup k = (claims.lookup k).map jwt.reread := by
  rw [sign] at hsign
  cases hclaims : transformEntries jwt.finite obj (timeClaims expires now) with
  | error e =>
    rw [hclaims] at hsign
    exact absurd hsign (by simp [Bind.bind, Except.bind])
  | ok claims =>
    rw [hclaims] at hsign
    obtain rfl : jwt.sign claims key = token := Except.ok.inj hsign
    obtain ⟨decoded, hdecode, hcarried⟩ := hjwt.decode_sign claims key
    refine ⟨claims, decoded, rfl, hdecode, fun k => ?_⟩
    rw [hcarried, lookup_reread]

/-- A claim of the builder is carried unless the payload has an entry of its name, which is
    carried in its place. -/
theorem carries_iff {jwt : JwtCpp σ τ δ} (hjwt : jwt.Documented)
    {obj : List (Bytes × LeptValue δ)} (hobj : OrderedMap.Ordered obj) {k : Bytes}
    {ms claims carried : List (Bytes × PicoValue δ)} {d : Int64} (n : Int)
    (hclaims : transformEntries jwt.finite obj ms = .ok claims)
    (hcarried : carried.lookup k = (claims.lookup k).map jwt.reread)
    (hms : ms.lookup k = some (.integer d)) :
    (∃ i, carried.lookup k = some (.integer i) ∧ i.toInt = n) ↔
      (∀ v, (k, v) ∈ obj → CarriedAs jwt v n) ∧ ((∀ v, (k, v) ∉ obj) → d.toInt = n) := by
  by_cases hentry : ∃ v, (k, v) ∈ obj
  · obtain ⟨v, hv⟩ := hentry
    obtain ⟨x, hx, hlookup⟩ := lookup_transformEntries_of_mem hclaims hobj hv
    rw [hcarried, hlookup, Option.map_some]
    constructor
    · rintro ⟨i, hi, hn⟩
      refine ⟨fun v' hv' => ?_, fun hnone => absurd hv (hnone v)⟩
      obtain ⟨x', hx', hlookup'⟩ := lookup_transformEntries_of_mem hclaims hobj hv'
      obtain rfl : x = x' := Option.some.inj (hlookup.symm.trans hlookup')
      exact ⟨x, i, hx', Option.some.inj hi, hn⟩
    · rintro ⟨hentries, -⟩
      obtain ⟨x', i, hx', hread, hn⟩ := hentries v hv
      obtain rfl : x = x' := Except.ok.inj (hx.symm.trans hx')
      exact ⟨i, congrArg some hread, hn⟩
  · have hnone : ∀ v, (k, v) ∉ obj := fun v hv => hentry ⟨v, hv⟩
    have hkeys : ∀ e ∈ obj, e.1 ≠ k := by
      rintro ⟨key, v⟩ he rfl
      exact hnone v he
    rw [hcarried, lookup_transformEntries hclaims hkeys, hms, Option.map_some, hjwt.reread_integer]
    constructor
    · rintro ⟨i, hi, hn⟩
      obtain rfl : d = i := JsonText.Value.integer.inj (Option.some.inj hi)
      exact ⟨fun v hv => absurd hv (hnone v), fun _ => hn⟩
    · rintro ⟨-, hd⟩
      exact ⟨d, rfl, hd hnone⟩

theorem timeClaims_iat (expires : Int32) (now : Int64) :
    (timeClaims (δ := δ) expires now).lookup (str "iat") =
      some (.integer (Clock.toTimeT now)) := by
  rw [timeClaims]
  split
  · rw [OrderedMap.lookup_assign, OrderedMap.lookup_assign]
    rfl
  · rw [OrderedMap.lookup_assign]
    rfl

theorem timeClaims_exp {expires : Int32} (hexpires : 0 < expires) (now : Int64) :
    (timeClaims (δ := δ) expires now).lookup (str "exp") =
      some (.integer (Clock.toTimeT (now + Clock.seconds expires.toInt64))) := by
  rw [timeClaims, if_pos hexpires, OrderedMap.lookup_assign]
  rfl

/-- The time of expiry is the exact one unless it leaves the clock. -/
theorem toTimeT_expires_iff {expires : Int32} (hexpires : 0 < expires) (now : Int64) :
    (Clock.toTimeT (now + Clock.seconds expires.toInt64)).toInt = expiresAt expires now ↔
      now.toInt + expires.toInt * 10 ^ 9 < 2 ^ 63 := by
  have hpos : 0 < expires.toInt := by simpa [Int32.lt_iff_toInt_lt] using hexpires
  have hlt : expires.toInt < 2 ^ 31 := expires.toInt_lt
  have hnow := Clock.toInt_bounds now
  have hseconds : (Clock.seconds expires.toInt64).toInt = expires.toInt * 10 ^ 9 := by
    rw [Clock.toInt_seconds, Int32.toInt_toInt64, Clock.wrapped_eq_self (by omega) (by omega)]
  rw [Clock.toInt_toTimeT, Clock.toInt_add, hseconds, expiresAt]
  by_cases hfits : now.toInt + expires.toInt * 10 ^ 9 < 2 ^ 63
  · rw [Clock.wrapped_eq_self (by omega) hfits]
    exact iff_of_true rfl hfits
  · -- the sum is past the greatest time, and what it wraps to is negative
    refine iff_of_false (fun heq => ?_) hfits
    have hwrapped : Clock.wrapped (now.toInt + expires.toInt * 10 ^ 9) < 0 :=
      Clock.wrapped_neg (by omega) (by omega)
    have hnonpos := (Clock.tdiv_of_nonpos hwrapped.le).2
    have hdiv := Clock.tdiv_of_nonneg (n := now.toInt + expires.toInt * 10 ^ 9) (by omega)
    omega

/-- `verify` trusts the times that a token carries. -/
theorem Limited.of_carries {jwt : JwtCpp σ τ δ} (hjwt : jwt.Documented) (fp : DoubleText δ)
    {token : σ} {expires : Int32} (hexpires : 0 < expires) {signing : Int64}
    {decoded : τ} {iat exp : Int64} (hdecode : jwt.decode token = some decoded)
    (hiat : (jwt.payloadClaims decoded).lookup (str "iat") = some (.integer iat))
    (hexp : (jwt.payloadClaims decoded).lookup (str "exp") = some (.integer exp))
    (hissued : iat.toInt = issuedAt signing) (hexpiry : exp.toInt = expiresAt expires signing) :
    Limited jwt fp token expires signing := by
  have hsigning := Clock.toInt_bounds signing
  have hrejected : ∀ key maxAge checked now, jwt.accepts decoded key checked = false →
      Throws (verify jwt fp token key maxAge checked now) := by
    intro key maxAge checked now hrejects
    refine ⟨.library, ?_, by simp⟩
    simp only [verify, hdecode, hrejects, if_true]
  refine ⟨⟨decoded, iat, exp, hdecode, hiat, hexp, hissued, hexpiry⟩, ?_, ?_⟩
  · intro key maxAge checked now hpast
    have hchecked := Clock.toInt_bounds checked
    have hpos : 0 < expires.toInt := by simpa [Int32.lt_iff_toInt_lt] using hexpires
    have hlow := Clock.le_tdiv (n := signing.toInt + expires.toInt * 10 ^ 9) (by omega)
    have htime : IsTime exp.toInt := by
      rw [hexpiry]
      exact ⟨hlow, by omega⟩
    rw [← hexpiry] at hpast
    exact hrejected key maxAge checked now
      (hjwt.rejects_expired decoded key checked exp hexp htime hpast)
  · intro key maxAge checked now hage hpast
    have hnow := Clock.toInt_bounds now
    have htime : IsTime iat.toInt := by
      rw [hissued]
      exact Clock.tdiv_bounds hsigning.1 hsigning.2
    rw [← hissued] at hpast
    cases haccepts : jwt.accepts decoded key checked with
    | false => exact hrejected key maxAge checked now haccepts
    | true =>
      refine (throws_verify_iff hjwt fp hdecode haccepts hiat htime hage).mpr ?_
      rw [Clock.wrapped_eq_self (le_ageLimit htime hage) (by omega)]
      exact hpast

/-- **When a token keeps its limits**: if and only if the payload has no `iat` or `exp` of its
    own other than the very times, and without an `exp` of its own the time of expiry is one of
    the clock. -/
theorem sign_limited_iff {jwt : JwtCpp σ τ δ} (hjwt : jwt.Documented) (fp : DoubleText δ)
    {obj : List (Bytes × LeptValue δ)} (hobj : OrderedMap.Ordered obj) {key : Bytes}
    {expires : Int32} (hexpires : 0 < expires) {signing : Int64} {token : σ}
    (hsign : sign jwt (.object obj) key expires signing = .ok token) :
    Limited jwt fp token expires signing ↔
      (∀ v, (str "iat", v) ∈ obj → CarriedAs jwt v (issuedAt signing)) ∧
      (∀ v, (str "exp", v) ∈ obj → CarriedAs jwt v (expiresAt expires signing)) ∧
      ((∀ v, (str "exp", v) ∉ obj) → signing.toInt + expires.toInt * 10 ^ 9 < 2 ^ 63) := by
  obtain ⟨claims, decoded, hclaims, hdecode, hcarried⟩ := lookup_of_sign hjwt hsign
  have hiat := carries_iff hjwt hobj (issuedAt signing) hclaims (hcarried (str "iat"))
    (timeClaims_iat expires signing)
  have hexp := carries_iff hjwt hobj (expiresAt expires signing) hclaims (hcarried (str "exp"))
    (timeClaims_exp hexpires signing)
  rw [toTimeT_expires_iff hexpires] at hexp
  have hissued : (Clock.toTimeT signing).toInt = issuedAt signing := Clock.toInt_toTimeT signing
  rw [← hexp]
  constructor
  · rintro ⟨⟨decoded', iat, exp, hdecode', hiat', hexp', hissued', hexpiry'⟩, -, -⟩
    obtain rfl : decoded = decoded' := Option.some.inj (hdecode.symm.trans hdecode')
    exact ⟨(hiat.mp ⟨iat, hiat', hissued'⟩).1, exp, hexp', hexpiry'⟩
  · rintro ⟨hown, exp, hexp', hexpiry'⟩
    obtain ⟨iat, hiat', hissued'⟩ := hiat.mpr ⟨hown, fun _ => hissued⟩
    exact .of_carries hjwt fp hexpires hdecode hiat' hexp' hissued' hexpiry'

/-- The token of `{"uid":7}` runs out after a minute. -/
theorem sign_limited_iff_uid : ∃ token,
    sign OpenToken.jwt (.object [(str "uid", .integer 7)]) (str "secret") 60 1700000000500000000 =
      .ok token ∧ Limited OpenToken.jwt noDoubles token 60 1700000000500000000 := by
  have hsign : sign OpenToken.jwt (.object [(str "uid", .integer 7)]) (str "secret") 60
      1700000000500000000 = .ok ⟨[(str "exp", .integer 1700000060),
        (str "iat", .integer 1700000000), (str "uid", .integer 7)], str "secret"⟩ := rfl
  refine ⟨_, hsign, ?_⟩
  refine (sign_limited_iff OpenToken.jwt_documented noDoubles (by decide) (by decide)
    hsign).mpr ⟨?_, ?_, fun _ => by decide⟩
  · intro v hv
    exact absurd (Prod.mk.inj (List.mem_singleton.mp hv)).1 (by decide)
  · intro v hv
    exact absurd (Prod.mk.inj (List.mem_singleton.mp hv)).1 (by decide)

/-- The token of `{"exp":2147483647}` for a minute is accepted an hour later. -/
theorem ownExp_outlives : ∃ token,
    sign OpenToken.jwt (.object [(str "exp", .integer 2147483647)]) (str "secret") 60
        1700000000000000000 = .ok token ∧
      expiresAt 60 1700000000000000000 = 1700000060 ∧
      verify OpenToken.jwt noDoubles token (str "secret") (-1) 1700003600000000000
          1700003600000000000 =
        .ok (.object [(str "exp", .integer 2147483647), (str "iat", .integer 1700000000)]) ∧
      ¬ Limited OpenToken.jwt noDoubles token 60 1700000000000000000 := by
  refine ⟨⟨[(str "exp", .integer 2147483647), (str "iat", .integer 1700000000)], str "secret"⟩,
    rfl, by decide, rfl, fun h => ?_⟩
  obtain ⟨e, he, -⟩ := h.expires (str "secret") (-1) 1700003600000000000 1700003600000000000
    (by decide)
  have hverified : verify OpenToken.jwt noDoubles
      ⟨[(str "exp", .integer 2147483647), (str "iat", .integer 1700000000)], str "secret"⟩
      (str "secret") (-1) 1700003600000000000 1700003600000000000 =
    .ok (.object [(str "exp", .integer 2147483647), (str "iat", .integer 1700000000)]) := rfl
  exact absurd (hverified.symm.trans he) (by simp)

end JwtUtil

end MyWebSocket
