import MyWebSocket.Http.Release
import MyWebSocket.WebSocket.Release
import MyWebSocket.Server.Places

namespace MyWebSocket

/-!
# The objects of all connections

The two sessions of a connection make and release objects of their own, but they share the
handle: one of them may close it while the other is sending.

* `ConnectionBooks` — what the accountable steps of both sessions keep, of every connection;
* `released_once` — in a run of such steps every object is released once, by the time its
  callbacks have run.
-/

variable {ρ : Type} {cfg : HttpConfig} {P : HttpParser ρ}

/-- A step of a session is accountable in that session. -/
def Server.Accountable (s : Server ρ) : ServerLabel → Prop
  | .http i l => ∀ c ∈ s.connections[i]?, c.http.Accountable l
  | .ws i l => ∀ c ∈ s.connections[i]?, ∀ w ∈ c.ws, w.Accountable l
  | _ => True

instance (s : Server ρ) (l : ServerLabel) : Decidable (s.Accountable l) := by
  unfold Server.Accountable
  split <;> infer_instance

/-- What is kept of a connection. -/
structure ConnectionBooks (c : Connection ρ) : Prop where
  numbered : c.http.Numbered
  retired : c.http.Retired
  http : HttpBooks c.http
  ws : ∀ w ∈ c.ws, WsBooks w

theorem ConnectionBooks.accepted (P : HttpParser ρ) (method : HttpMethod) :
    ConnectionBooks (⟨.accepted P method, none⟩ : Connection ρ) := by
  refine ⟨.accepted method, .accepted method, ⟨Books.nil fun x => ?_, List.nodup_nil, ?_⟩, ?_⟩
  · cases x with
    | ctx n => simp [HttpSession.Awaits, HttpSession.accepted]
    | reader j => simp [HttpSession.Awaits, HttpSession.accepted]
  · intro i j hij
    simp [HttpSession.fileOf, HttpSession.accepted] at hij
  · simp

/-- The connection is upgraded. -/
theorem ConnectionBooks.onUpgrade {c : Connection ρ} (h : ConnectionBooks c)
    (serverCallback : Bool) : ConnectionBooks { c with ws := some (.onUpgrade serverCallback) } := by
  refine ⟨h.numbered, h.retired, h.http, fun w hw => ?_⟩
  obtain rfl := Option.some.inj hw
  exact WsBooks.onUpgrade serverCallback

/-- The HTTP session takes an accountable step. -/
theorem ConnectionBooks.httpStep {c : Connection ρ} (h : ConnectionBooks c) {l : HttpLabel}
    {t : HttpSession ρ} (hl : c.http.Accountable l) (hs : HttpStep cfg P c.http l t) :
    ConnectionBooks ⟨t, Server.sharing c t⟩ := by
  refine ⟨h.numbered.step hs, h.retired.step hs, h.http.step h.numbered h.retired hl hs, ?_⟩
  exact forall_sharing c t (fun w hw => hw.untouched ⟨rfl, rfl, rfl, rfl, rfl⟩) h.ws

/-- The WebSocket session takes an accountable step; it may have closed the handle. -/
theorem ConnectionBooks.wsStep {c : Connection ρ} (h : ConnectionBooks c) {w w' : WsSession}
    (hw : c.ws = some w) (hgone : c.http.registered = false) {l : WsLabel}
    (hl : w.Accountable l) (hs : WsStep w l w') : ConnectionBooks (Server.withWs c w') := by
  refine ⟨⟨h.numbered.handler, h.numbered.reader⟩, ⟨fun _ => hgone, h.retired.removed⟩, ?_, ?_⟩
  · exact h.http.untouched ⟨rfl, rfl, rfl, rfl, fun _ => rfl⟩
  · intro u hu
    obtain rfl := Option.some.inj hu
    exact (h.ws w hw).step hl hs

namespace Server

/-- What holds of every connection, and holds of an upgraded one, is kept by the effects on the
    servers. -/
theorem forall_foldl_onHttpEffect {Q : Connection ρ → Prop}
    (hQ : ∀ c b, Q c → Q { c with ws := some (.onUpgrade b) }) (i : Nat) (es : List HttpEffect)
    {s : Server ρ} (h : ∀ c ∈ s.connections, Q c) :
    ∀ c ∈ (es.foldl (onHttpEffect i) s).connections, Q c := by
  induction es generalizing s with
  | nil => exact h
  | cons e es ih =>
    refine ih ?_
    cases e with
    | onUpgrade =>
      intro c hc
      obtain ⟨k, hk⟩ := List.mem_iff_getElem?.mp hc
      rw [show (s.onHttpEffect i .onUpgrade).connections = s.connections.modify i fun c =>
        { c with ws := some (.onUpgrade s.onConnectCb) } from rfl, List.getElem?_modify] at hk
      obtain ⟨d, hd, rfl⟩ := Option.map_eq_some_iff.mp hk
      have hmem := h d (List.mem_of_getElem? hd)
      split
      · exact hQ d _ hmem
      · exact hmem
    | _ => exact h

theorem connections_foldl_onWsEffect (i : Nat) (es : List WsEffect) (s : Server ρ) :
    (es.foldl (onWsEffect i) s).connections = s.connections := by
  induction es generalizing s with
  | nil => rfl
  | cons e es ih =>
    rw [List.foldl_cons, ih]
    cases e <;> rfl

/-- Every connection keeps its books. -/
theorem books_step {s s' : Server ρ} {l : ServerLabel} (hinv : ServerInv s)
    (h : ∀ c ∈ s.connections, ConnectionBooks c) (hl : s.Accountable l)
    (hs : (serverMachine cfg P).step s l = some s') :
    ∀ c ∈ s'.connections, ConnectionBooks c := by
  change s.step (attached cfg) P l = some s' at hs
  cases l with
  | accept method =>
    simp only [Server.step] at hs
    split at hs
    · obtain rfl := Option.some.inj hs
      exact List.forall_mem_append.mpr
        ⟨h, List.forall_mem_singleton.mpr (.accepted P method)⟩
    · cases hs
  | onConnect set =>
    obtain rfl := Option.some.inj hs
    exact h
  | http i l =>
    simp only [Server.step] at hs
    split at hs
    · obtain ⟨c, hc, hs⟩ := Option.bind_eq_some_iff.mp hs
      obtain ⟨t, ht, rfl⟩ := Option.map_eq_some_iff.mp hs
      refine forall_foldl_onHttpEffect (fun c b hb => hb.onUpgrade b) i _ fun d hd => ?_
      rcases List.mem_or_eq_of_mem_set hd with hd | rfl
      · exact h d hd
      · exact (h c (List.mem_of_getElem? hc)).httpStep (hl c hc)
          (HttpSession.step_cases (P := P) ht)
    · cases hs
  | ws i l =>
    simp only [Server.step] at hs
    split at hs
    · obtain ⟨c, hc, hs⟩ := Option.bind_eq_some_iff.mp hs
      obtain ⟨w, hw, hs⟩ := Option.bind_eq_some_iff.mp hs
      obtain ⟨w', hw', rfl⟩ := Option.map_eq_some_iff.mp hs
      intro d hd
      rw [afterWs, connections_foldl_onWsEffect] at hd
      have hmem := List.mem_of_getElem? hc
      rcases List.mem_or_eq_of_mem_set hd with hd | rfl
      · exact h d hd
      · have hgone := (hinv.placed c hmem).upgraded (by rw [hw]; rfl)
        exact (h c hmem).wsStep hw hgone (hl c hc w hw) (WsSession.step_cases hw')
    · cases hs

end Server

/-- **Every object is released once.**  In every run of the servers whose steps are all
    accountable, and so over all outcomes of open, read, close and write on which they are: for
    both sessions of every connection no object is released that is not live, the live objects
    are those whose callbacks have not all run, and every other object that has been made has
    been released exactly once. -/
theorem released_once {ls : List ServerLabel} {s : Server ρ}
    (h : (serverMachine cfg P).exec .init ls = some s)
    (hl : (serverMachine cfg P).AllSteps Server.Accountable .init ls) :
    ∀ c ∈ s.connections, ReleasedOnce c.http.heapOps c.http.Awaits ∧
      ∀ w ∈ c.ws, ReleasedOnce w.heapOps w.Awaits := by
  have hinit : ServerInv (.init : Server ρ) ∧
      ∀ c ∈ (.init : Server ρ).connections, ConnectionBooks c :=
    ⟨.init, by simp [Server.init]⟩
  have hbooks := (serverMachine cfg P).exec_invariant_of_allSteps
    (I := fun s => ServerInv s ∧ ∀ c ∈ s.connections, ConnectionBooks c)
    (fun s l s' hI hP hs => ⟨hI.1.step hs, Server.books_step hI.1 hI.2 hP hs⟩) hinit hl h
  intro c hc
  have hconn := hbooks.2 c hc
  exact ⟨hconn.http.balanced.releasedOnce, fun w hw => (hconn.ws w hw).balanced.releasedOnce⟩

/-- The parser on a request of `/f` and on one for an upgrade. -/
def fileOrUpgradeParser : HttpParser Bytes :=
  tableParser
    [(([], str "GET /f HTTP/1.1\r\n\r\n"),
        [.messageBegin, .url (str "/f"), .headersComplete .get 1 1, .messageComplete false]),
      (([], upgradeRequest),
        [.messageBegin, .url (str "/ws"), .headersComplete .get 1 1, .messageComplete true])]

/-- One connection is sent a file; the other is upgraded and sends a message. -/
def fileAndMessage : List ServerLabel :=
  [.accept .get, .accept .get,
    .http 0 (.recv true (str "GET /f HTTP/1.1\r\n\r\n")), .http 0 .run, .http 0 .run,
    .http 0 .run, .http 0 .run, .http 0 (.call 0 (.sendFile (str "a.txt"))), .http 0 .ret,
    .http 1 (.recv true upgradeRequest), .http 1 .run, .http 1 .run, .http 1 .run, .http 1 .run,
    .http 1 (.written 0), .ws 1 .run, .ws 1 (.call (.send (str "hi"))),
    .http 0 (.file 0 7 []), .http 0 (.file 0 1 [0x61]), .http 0 (.file 0 0 []),
    .http 0 (.written 0)]

set_option maxRecDepth 8000 in
/-- The run that ends with both writes. -/
theorem released_once_fileAndMessage :
    ∃ s, (serverMachine fileConfig fileOrUpgradeParser).exec .init
        (fileAndMessage ++ [.ws 1 (.written 0), .ws 1 .run]) = some s ∧
      ∀ c ∈ s.connections, ReleasedOnce c.http.heapOps c.http.Awaits ∧
        ∀ w ∈ c.ws, ReleasedOnce w.heapOps w.Awaits := by
  obtain ⟨s, hs⟩ : ∃ s, (serverMachine fileConfig fileOrUpgradeParser).exec .init
      (fileAndMessage ++ [.ws 1 (.written 0), .ws 1 .run]) = some s := ⟨_, rfl⟩
  exact ⟨s, hs, released_once hs (by decide)⟩

set_option maxRecDepth 8000 in
/-- The write of the message fails: its context is deleted by the failure branch and again behind
    it. -/
theorem failedWrite_releasedTwice :
    ∃ s, (serverMachine fileConfig fileOrUpgradeParser).exec .init
        (fileAndMessage ++ [.ws 1 (.written (-32)), .ws 1 .run, .ws 1 .run, .ws 1 .run,
          .ws 1 .run]) = some s ∧
      ∃ c ∈ s.connections, ∃ w ∈ c.ws, ¬ ReleasedOnce w.heapOps w.Awaits := by
  refine ⟨_, rfl, _, List.mem_cons_of_mem _ List.mem_cons_self, _, rfl, ?_⟩
  apply not_releasedOnce
  rfl

end MyWebSocket
