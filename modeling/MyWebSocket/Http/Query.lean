import Mathlib.Data.List.TakeWhile
import MyWebSocket.Http.Isolation
import MyWebSocket.Library.Percent

namespace MyWebSocket

/-!
# The query string

`httpReq::query` and the loop of `urlDecode` behind it.

* `queryMap` — what a query string says: the pieces between `&`, each cut at its first `=`
  (specification);
* `urlDecode_eq` — the loop computes this map for every url, and no `substr` throws;
* `query_fresh` — the handler of a request gets the map of its own url, however often it asks and
  whatever came before on the connection;
* `query_encoded_iff` — nothing is decoded: pairs that a client has percent-encoded come out as
  they were if and only if none of their bytes is escaped.
-/

/-! ### What a query string says -/

/-- What follows the first `?`. -/
def queryText (url : Bytes) : Bytes := (url.dropWhile (· != 0x3F)).drop 1

/-- A piece cut at its first `=`; without one it is a key with an empty value. -/
def pairOf (piece : Bytes) : Bytes × Bytes :=
  (piece.takeWhile (· != 0x3D), (piece.dropWhile (· != 0x3D)).drop 1)

/-- The pairs of a query string: those with an empty key do not count. -/
def pairsOf (text : Bytes) : List (Bytes × Bytes) :=
  ((text.splitOn 0x26).map pairOf).filter fun e => !e.1.isEmpty

/-- The last occurrence of a key wins. -/
def queryMap (url : Bytes) : HeaderMap :=
  (pairsOf (queryText url)).foldl (fun m e => m.insert e.1 e.2) ∅

/-! ### Searching -/

/-- `find` from the start: nothing, or what stands before and behind the first occurrence. -/
theorem findIdx?_cases (s : Bytes) (c : UInt8) :
    s.findIdx? (· == c) = none ∧ c ∉ s ∨
      ∃ front rest, s = front ++ c :: rest ∧ c ∉ front ∧
        s.findIdx? (· == c) = some front.length := by
  induction s with
  | nil => exact .inl ⟨rfl, List.not_mem_nil⟩
  | cons b s ih =>
    rw [List.findIdx?_cons]
    by_cases hb : b = c
    · subst hb
      exact .inr ⟨[], s, rfl, List.not_mem_nil, by simp⟩
    · rw [if_neg (by simpa using hb)]
      rcases ih with ⟨hnone, hmem⟩ | ⟨front, rest, rfl, hmem, hsome⟩
      · refine .inl ⟨by rw [hnone]; rfl, ?_⟩
        simp [Ne.symm hb, hmem]
      · refine .inr ⟨b :: front, rest, rfl, ?_, by rw [hsome]; rfl⟩
        simp [Ne.symm hb, hmem]

theorem takeWhile_of_not_mem {s : Bytes} {c : UInt8} (h : c ∉ s) :
    s.takeWhile (· != c) = s ∧ s.dropWhile (· != c) = [] := by
  have hall : ∀ b ∈ s, (b != c) = true := by
    intro b hb
    rw [bne_iff_ne]
    rintro rfl
    exact h hb
  exact ⟨List.takeWhile_eq_self_iff.mpr hall, List.dropWhile_eq_nil_iff.mpr hall⟩

theorem takeWhile_of_first {front : Bytes} {c : UInt8} (h : c ∉ front) (rest : Bytes) :
    (front ++ c :: rest).takeWhile (· != c) = front ∧
      (front ++ c :: rest).dropWhile (· != c) = c :: rest := by
  have hall : ∀ b ∈ front, (b != c) = true := by
    intro b hb
    rw [bne_iff_ne]
    rintro rfl
    exact h hb
  rw [List.takeWhile_append_of_pos hall, List.dropWhile_append_of_pos hall]
  simp

/-- `str.substr(pos, end - pos)` with `end` at the end of what stands at `pos`. -/
theorem substr_drop {s piece rest : Bytes} {pos : Nat} (hpos : pos ≤ s.length)
    (hdrop : s.drop pos = piece ++ rest) : substr s pos piece.length = some piece := by
  rw [substr, if_pos hpos, hdrop, List.take_left]

/-! ### The loop -/

/-- What one pass enters. -/
def enter (m : HeaderMap) (e : Bytes × Bytes) : HeaderMap :=
  if e.1.isEmpty then m else m.insert e.1 e.2

/-- **One pass** enters the pair of its piece, and no `substr` of it throws. -/
theorem decodePair_eq {s piece rest : Bytes} {pos : Nat} (hpos : pos ≤ s.length)
    (hdrop : s.drop pos = piece ++ rest) (m : HeaderMap) :
    decodePair s pos (pos + piece.length) m = some (enter m (pairOf piece)) := by
  have hpiece : substr s pos (pos + piece.length - pos) = some piece := by
    rw [Nat.add_sub_cancel_left]
    exact substr_drop hpos hdrop
  rcases findIdx?_cases piece 0x3D with ⟨hnone, hmem⟩ | ⟨key, value, rfl, hmem, hsome⟩
  · have hfind : findFrom piece 0x3D 0 = none := by rw [findFrom, List.drop_zero, hnone]; rfl
    obtain ⟨htake, hdropped⟩ := takeWhile_of_not_mem hmem
    simp only [decodePair, hpiece, hfind, Option.bind_eq_bind, Option.bind_some]
    rw [pairOf, htake, hdropped]
    rfl
  · have hfind : findFrom (key ++ 0x3D :: value) 0x3D 0 = some key.length := by
      rw [findFrom, List.drop_zero, hsome, Option.map_some, Nat.zero_add]
    obtain ⟨htake, hdropped⟩ := takeWhile_of_first hmem value
    have hkey : substr (key ++ 0x3D :: value) 0 key.length = some key :=
      substr_drop (Nat.zero_le _) rfl
    have hvalue : substr (key ++ 0x3D :: value) (key.length + 1)
        (pos + (key ++ 0x3D :: value).length - pos - key.length - 1) = some value := by
      have hlen : pos + (key ++ 0x3D :: value).length - pos - key.length - 1 = value.length := by
        simp only [List.length_append, List.length_cons]
        omega
      have hdropValue : (key ++ 0x3D :: value).drop (key.length + 1) = value ++ [] := by
        simp [List.drop_append]
      rw [hlen]
      exact substr_drop (by simp) hdropValue
    simp only [decodePair, hpiece, hfind, hkey, hvalue, Option.bind_eq_bind, Option.bind_some]
    rw [pairOf, htake, hdropped]
    rfl

/-- **The loop** enters the pairs of all pieces from `pos` on. -/
theorem urlDecodeLoop_eq (s : Bytes) {fuel pos : Nat} (hfuel : s.length - pos < fuel)
    (m : HeaderMap) :
    urlDecodeLoop s fuel pos m =
      some ((((s.drop pos).splitOn 0x26).map pairOf).foldl enter m) := by
  induction fuel generalizing pos m with
  | zero => exact absurd hfuel (Nat.not_lt_zero _)
  | succ fuel ih =>
    rw [urlDecodeLoop]
    by_cases hpos : pos < s.length
    · rw [if_pos hpos]
      rcases findIdx?_cases (s.drop pos) 0x26 with
        ⟨hnone, hmem⟩ | ⟨piece, rest, hdrop, hmem, hsome⟩
      · -- the last piece
        have hstop : (findFrom s 0x26 pos).getD s.length = pos + (s.drop pos).length := by
          rw [findFrom, hnone, List.length_drop]
          show s.length = _
          omega
        have hend : s.drop (pos + (s.drop pos).length + 1) = [] := by
          rw [List.drop_eq_nil_iff, List.length_drop]
          omega
        dsimp only
        rw [hstop, decodePair_eq (Nat.le_of_lt hpos) (List.append_nil _).symm, Option.bind_some,
          ih (by rw [List.length_drop]; omega), hend, List.splitOn_eq_singleton hmem,
          List.splitOn_nil]
        rfl
      · have hlen : (s.drop pos).length = piece.length + rest.length + 1 := by
          rw [hdrop, List.length_append, List.length_cons, Nat.add_assoc]
        have hstop : (findFrom s 0x26 pos).getD s.length = pos + piece.length := by
          rw [findFrom, hsome]
          rfl
        have hrest : s.drop (pos + piece.length + 1) = rest := by
          rw [Nat.add_assoc, ← List.drop_drop, hdrop]
          simp [List.drop_append]
        rw [List.length_drop] at hlen
        dsimp only
        rw [hstop, decodePair_eq (Nat.le_of_lt hpos) hdrop, Option.bind_some, ih (by omega),
          hrest, hdrop, List.splitOn_append_cons_self_of_not_mem hmem]
        rfl
    · -- there is one more piece, an empty one
      have hend : s.drop pos = [] := List.drop_eq_nil_iff.mpr (Nat.not_lt.mp hpos)
      rw [if_neg hpos, hend, List.splitOn_nil]
      rfl

/-- Pieces with an empty key enter nothing. -/
theorem foldl_enter (es : List (Bytes × Bytes)) (m : HeaderMap) :
    es.foldl enter m =
      (es.filter fun e => !e.1.isEmpty).foldl (fun m e => m.insert e.1 e.2) m := by
  induction es generalizing m with
  | nil => rfl
  | cons e es ih =>
    rw [List.foldl_cons, ih, List.filter_cons, enter]
    cases e.1.isEmpty <;> rfl

/-- **`urlDecode` reads the query string**, whatever the url is. -/
theorem urlDecode_eq (url : Bytes) : urlDecode url = some (queryMap url) := by
  have htext : url.drop ((findFrom url 0x3F 0).elim url.length (· + 1)) = queryText url := by
    rw [findFrom, List.drop_zero, queryText]
    rcases findIdx?_cases url 0x3F with ⟨hnone, hmem⟩ | ⟨front, rest, rfl, hmem, hsome⟩
    · rw [hnone, (takeWhile_of_not_mem hmem).2]
      simp
    · rw [hsome, (takeWhile_of_first hmem rest).2]
      simp [List.drop_append]
  rw [urlDecode, urlDecodeLoop_eq url (by omega), htext, queryMap, pairsOf, foldl_enter]

/-! ### The cache -/

/-- Calls of `query()` one after another: what they return, and the request afterwards. -/
def HttpReq.queries : Nat → HttpReq → Option (List HeaderMap × HttpReq)
  | 0, r => some ([], r)
  | n + 1, r => do
    let (m, r) ← r.query
    let (ms, r) ← r.queries n
    some (m :: ms, r)

/-- The cache is that of the url, or it is not in use. -/
def HttpReq.Fresh (r : HttpReq) : Prop :=
  r.isQueryParamsParsed = true → r.queryParams = queryMap r.url

/-- A call keeps the cache fresh. -/
theorem HttpReq.Fresh.query {r : HttpReq} (h : r.Fresh) :
    ∃ r', r.query = some (queryMap r.url, r') ∧ r'.Fresh ∧ r'.url = r.url := by
  unfold HttpReq.query
  by_cases hparsed : r.isQueryParamsParsed = true
  · rw [if_pos hparsed, h hparsed]
    exact ⟨r, rfl, h, rfl⟩
  · rw [if_neg hparsed, urlDecode_eq]
    exact ⟨_, rfl, fun _ => rfl, rfl⟩

/-- So does any number of calls, and all of them return the same. -/
theorem HttpReq.Fresh.queries {r : HttpReq} (h : r.Fresh) (n : Nat) :
    ∃ r', r.queries n = some (List.replicate n (queryMap r.url), r') := by
  induction n generalizing r with
  | zero => exact ⟨r, rfl⟩
  | succ n ih =>
    obtain ⟨r₁, hquery, hfresh, hurl⟩ := h.query
    obtain ⟨r₂, hrest⟩ := ih hfresh
    refine ⟨r₂, ?_⟩
    rw [HttpReq.queries, hquery]
    show (r₁.queries n).bind _ = _
    rw [hrest, hurl]
    rfl

/-- Dispatching a request touches neither its url nor its cache. -/
theorem Router.dispatch_cache {η : Type} (router : Router η) (r : HttpReq) :
    (router.dispatch r).1.url = r.url ∧
      (router.dispatch r).1.isQueryParamsParsed = r.isQueryParamsParsed := by
  unfold Router.dispatch
  split
  · exact ⟨rfl, rfl⟩
  · split
    · exact ⟨rfl, rfl⟩
    · exact ⟨rfl, rfl⟩

/-- **The query of a request.**  On a request whose query string has not been parsed, `query()`
    returns what the query string of its url says.  On every connection, after any sequence of
    requests whose handlers may have done anything to the request object, the handler of a request
    gets what its own url says, at each of any number of calls. -/
theorem query_fresh {η : Type} (router : Router η) (act : η → HttpReq → HttpReq) (s : ReqState) :
    (∀ r : HttpReq, r.isQueryParamsParsed = false → ∃ r', r.query = some (queryMap r.url, r')) ∧
      ∀ (history : List Request) (r : Request) (req : HttpReq) (handler : η),
        router.dispatch (r.parsed (afterHistory router act s history)).req =
            (req, some handler) →
          req.url = r.seen.url ∧
            ∀ n, ∃ req', req.queries n = some (List.replicate n (queryMap r.seen.url), req') := by
  constructor
  · intro r hr
    have hfresh : r.Fresh := fun h => absurd (h.symm.trans hr) Bool.noConfusion
    obtain ⟨r', hquery, -⟩ := hfresh.query
    exact ⟨r', hquery⟩
  · intro history r req handler hd
    obtain ⟨hurl, hcache⟩ := router.dispatch_cache
      (r.parsed (afterHistory router act s history)).req
    rw [hd] at hurl hcache
    have hseen : req.url = r.seen.url :=
      hurl.trans (congrArg Seen.url (r.parsed_seen _))
    have hunparsed : req.isQueryParamsParsed = false := hcache.trans (r.parsed_params _).2
    have hfresh : req.Fresh := fun h => absurd (h.symm.trans hunparsed) Bool.noConfusion
    exact ⟨hseen, fun n => hseen ▸ hfresh.queries n⟩

/-- A handler that asks for its query, and a second request on the same connection. -/
theorem query_fresh_second :
    ∃ req, twoRoutes.dispatch ((getRequest "/b?a=1&=2&a=3=4&c").parsed
        (afterHistory twoRoutes (fun _ req => (req.query.map Prod.snd).getD req) ⟨.init .get, []⟩
          [getRequest "/b?x=1"])).req = (req, some ()) ∧
      ∃ req', req.queries 2 =
        some (List.replicate 2 (queryMap (getRequest "/b?a=1&=2&a=3=4&c").seen.url), req') := by
  have hd : ∃ req, twoRoutes.dispatch ((getRequest "/b?a=1&=2&a=3=4&c").parsed
      (afterHistory twoRoutes (fun _ req => (req.query.map Prod.snd).getD req) ⟨.init .get, []⟩
        [getRequest "/b?x=1"])).req = (req, some ()) := ⟨_, rfl⟩
  obtain ⟨req, hd⟩ := hd
  exact ⟨req, hd, ((query_fresh twoRoutes (fun _ req => (req.query.map Prod.snd).getD req)
    ⟨.init .get, []⟩).2 [getRequest "/b?x=1"] (getRequest "/b?a=1&=2&a=3=4&c") req () hd).2 2⟩

/-! ### Percent-encoded pairs -/

/-- A pair of encoded texts is cut where it was put together. -/
theorem pairOf_pairText (E : Percent.Encoder) (e : Bytes × Bytes) :
    pairOf (E.pairText e) = (E.encode e.1, E.encode e.2) := by
  obtain ⟨htake, hdrop⟩ := takeWhile_of_first (E.not_mem_encode e.1).2 (E.encode e.2)
  rw [pairOf, Percent.Encoder.pairText, htake, hdrop]
  rfl

/-- The pairs of an encoded query string are the encoded pairs. -/
theorem pairsOf_queryString (E : Percent.Encoder) {es : List (Bytes × Bytes)}
    (hne : ∀ e ∈ es, e.1 ≠ []) :
    pairsOf (E.queryString es) = es.map fun e => (E.encode e.1, E.encode e.2) := by
  by_cases hes : es = []
  · subst hes
    rfl
  · have hsplit : (E.queryString es).splitOn 0x26 = es.map E.pairText := by
      refine List.splitOn_intercalate 0x26 (fun t ht => ?_) (by simpa using hes)
      obtain ⟨e, -, rfl⟩ := List.mem_map.mp ht
      exact E.not_mem_pairText e
    have hpairs : (es.map E.pairText).map pairOf =
        es.map fun e => (E.encode e.1, E.encode e.2) := by
      rw [List.map_map]
      exact List.map_congr_left fun e _ => pairOf_pairText E e
    rw [pairsOf, hsplit, hpairs, List.filter_eq_self]
    intro e' he'
    obtain ⟨e, he, rfl⟩ := List.mem_map.mp he'
    have hkey : E.encode e.1 ≠ [] := fun h => hne e he (E.encode_eq_nil.mp h)
    simpa [List.isEmpty_eq_false_iff] using hkey

/-- Behind a path without `?`, the query string is what was put there. -/
theorem queryText_append {path : Bytes} (hpath : 0x3F ∉ path) (text : Bytes) :
    queryText (path ++ 0x3F :: text) = text := by
  rw [queryText, (takeWhile_of_first hpath text).2]
  rfl

/-- Encoded pairs give the same map as the pairs themselves only if nothing is escaped. -/
theorem foldl_encoded_iff (E : Percent.Encoder) {es : List (Bytes × Bytes)}
    (hnodup : (es.map Prod.fst).Nodup) :
    (es.map fun e => (E.encode e.1, E.encode e.2)).foldl
        (fun (m : HeaderMap) e => m.insert e.1 e.2) ∅ =
        es.foldl (fun (m : HeaderMap) e => m.insert e.1 e.2) ∅ ↔
      ∀ e ∈ es, ∀ b ∈ e.1 ++ e.2, E.safe b = true := by
  have hself : (es.map fun e => (E.encode e.1, E.encode e.2)) = es ↔
      ∀ e ∈ es, ∀ b ∈ e.1 ++ e.2, E.safe b = true := by
    have hid : (es.map fun e => (E.encode e.1, E.encode e.2)) = es ↔
        es.map (fun e => (E.encode e.1, E.encode e.2)) = es.map id := by rw [List.map_id]
    rw [hid, List.map_inj_left]
    refine forall₂_congr fun e _ => ?_
    rw [List.forall_mem_append, ← E.encode_eq_self_iff, ← E.encode_eq_self_iff, Prod.ext_iff]
    rfl
  rw [← hself]
  constructor
  · intro h
    -- the last entry of a key wins, so the reversed lists have the same lookups
    have hlookup : ∀ k, es.reverse.lookup k =
        (es.reverse.map fun e => (E.encode e.1, E.encode e.2)).lookup k := by
      intro k
      have hk := congrArg (fun m : HeaderMap => m.lookup k) h
      simp only [Entries.lookup_foldl_insert, Finmap.lookup_empty, Option.or_none] at hk
      rw [List.map_reverse, hk]
    have hkeys : ((es.reverse.map fun e => (E.encode e.1, E.encode e.2)).map Prod.fst).Nodup := by
      have hmap : (es.reverse.map fun e => (E.encode e.1, E.encode e.2)).map Prod.fst =
          ((es.map Prod.fst).map E.encode).reverse := by
        rw [List.map_map, List.map_map, ← List.map_reverse]
        rfl
      rw [hmap, List.nodup_reverse]
      exact hnodup.map fun _ _ => E.encode_injective
    have hle : List.Forall₂ (fun e e' => e.1.length ≤ e'.1.length) es.reverse
        (es.reverse.map fun e => (E.encode e.1, E.encode e.2)) := by
      rw [List.forall₂_map_right_iff, List.forall₂_same]
      exact fun e _ => E.length_le_encode e.1
    have hsize : List.Forall₂ (fun e e' => e.1.length = e'.1.length → e.1 = e'.1) es.reverse
        (es.reverse.map fun e => (E.encode e.1, E.encode e.2)) := by
      rw [List.forall₂_map_right_iff, List.forall₂_same]
      intro e _ hlen
      exact (E.encode_of_safe ((E.length_encode_eq_iff e.1).mp hlen.symm)).symm
    have hsame := Entries.eq_of_lookup_eq List.length hle hsize hkeys hlookup
    rw [List.map_reverse] at hsame
    exact (List.reverse_injective hsame).symm
  · intro h
    rw [h]

/-- **Nothing is decoded.**  A client sends a path, `?` and percent-encoded pairs, their keys
    distinct and not empty: `query()` returns exactly these pairs if and only if the encoder had
    no byte of them to escape. -/
theorem query_encoded_iff (E : Percent.Encoder) {path : Bytes} (hpath : 0x3F ∉ path)
    {es : List (Bytes × Bytes)} (hnodup : (es.map Prod.fst).Nodup) (hne : ∀ e ∈ es, e.1 ≠ [])
    {r : HttpReq} (hr : r.isQueryParamsParsed = false)
    (hurl : r.url = path ++ 0x3F :: E.queryString es) :
    r.query.map Prod.fst = some (es.foldl (fun m e => m.insert e.1 e.2) ∅) ↔
      ∀ e ∈ es, ∀ b ∈ e.1 ++ e.2, E.safe b = true := by
  have hfresh : r.Fresh := fun h => absurd (h.symm.trans hr) Bool.noConfusion
  obtain ⟨r', hquery, -⟩ := hfresh.query
  rw [hquery, hurl, Option.map_some, Option.some.injEq, ← foldl_encoded_iff E hnodup, queryMap,
    queryText_append hpath, pairsOf_queryString E hne]

/-- `/f?k=v`. -/
theorem query_encoded_iff_letters :
    (HttpReq.query { HttpReq.init .get with url := str "/f?k=v" }).map Prod.fst =
      some (Finmap.insert (str "k") (str "v") ∅) := by
  have hpath : 0x3F ∉ str "/f" := by decide
  have hnodup : (([(str "k", str "v")] : List (Bytes × Bytes)).map Prod.fst).Nodup := by decide
  have hiff := query_encoded_iff Percent.standard hpath hnodup (by decide)
    (r := { HttpReq.init .get with url := str "/f?k=v" }) rfl (by decide)
  refine hiff.mpr fun e he => ?_
  obtain rfl := List.mem_singleton.mp he
  exact List.all_eq_true.mp rfl

/-- The value `a b` is sent as `a%20b`, and that is what comes out. -/
theorem escape_staysEncoded :
    Percent.standard.queryString [(str "k", str "a b")] = str "k=a%20b" ∧
      (HttpReq.query { HttpReq.init .get with url := str "/f?k=a%20b" }).map
        (fun x => x.1.lookup (str "k")) = some (some (str "a%20b")) ∧
      str "a%20b" ≠ str "a b" := by
  decide

end MyWebSocket
