import MyWebSocket.Http.Request

namespace MyWebSocket

/-!
# The router

`httpRouter::dispatch` and what it does to the parameters of the request.  A compiled
`std::regex` is the function `std::regex_match` computes with it: the match results, the whole
path first and then one entry for each capture group.
-/

/-- `httpRouter::Route`. -/
structure Route (η : Type) where
  pattern : Bytes → Option (List Bytes)
  handler : η
  paramNames : List Bytes

/-- `httpRouter`: the routes of each method that has an entry in the map. -/
structure Router (η : Type) where
  routes : HttpMethod → Option (List (Route η))

/-- The url up to its first `?`. -/
def pathOf (url : Bytes) : Bytes := (findFrom url 0x3F 0).elim url url.take

variable {η : Type}

/-- The parameters the loop of `dispatch` assigns, in order: those with an index from 1 up to,
    but not including, the smaller of the two sizes. -/
def Route.assigned (r : Route η) (matchResults : List Bytes) : List (Bytes × Bytes) :=
  let paramLen := min matchResults.length r.paramNames.length
  (List.range' 1 (paramLen - 1)).map fun i =>
    (r.paramNames.getD (i - 1) [], matchResults.getD i [])

namespace Router

/-- The first of the method's routes that matches, with its match results. -/
def firstMatch (router : Router η) (method : HttpMethod) (path : Bytes) :
    Option (Route η × List Bytes) :=
  (router.routes method).bind fun rs => rs.findSome? fun r => (r.pattern path).map (r, ·)

/-- `httpRouter::dispatch`: the request afterwards, and the handler.  The parameters are
    cleared only where the method has routes and none of them matches. -/
def dispatch (router : Router η) (req : HttpReq) : HttpReq × Option η :=
  match router.routes req.method with
  | none => (req, none)
  | some _ =>
    match router.firstMatch req.method (pathOf req.url) with
    | some (r, matchResults) =>
      let params := (r.assigned matchResults).foldl (fun m e => m.insert e.1 e.2) req.params
      ({ req with params := params }, some r.handler)
    | none => ({ req with params := ∅ }, none)

theorem dispatch_of_match {router : Router η} {req : HttpReq} {r : Route η}
    {matchResults : List Bytes}
    (h : router.firstMatch req.method (pathOf req.url) = some (r, matchResults)) :
    router.dispatch req =
      ({ req with
          params := (r.assigned matchResults).foldl (fun m e => m.insert e.1 e.2) req.params },
        some r.handler) := by
  -- a method without routes has no match
  rcases hrs : router.routes req.method with _ | rs
  · simp [firstMatch, hrs] at h
  · simp [dispatch, hrs, h]

theorem dispatch_of_none {router : Router η} {req : HttpReq}
    (h : router.firstMatch req.method (pathOf req.url) = none) :
    (router.dispatch req).2 = none := by
  unfold dispatch
  split
  · rfl
  · rw [h]

end Router

end MyWebSocket
