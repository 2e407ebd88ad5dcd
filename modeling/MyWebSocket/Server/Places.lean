import MyWebSocket.Http.KeepAlive
import MyWebSocket.WebSocket.Finality
import MyWebSocket.Server.Connections

namespace MyWebSocket

open Log Registry

/-!
# Where the connections are

Each accepted connection is in one of three places: in `m_sessions`, in `m_wsSessions`, or in
neither, and then its handle has been closed.

* `HttpMove` and `WsMove` — what a step of a session does to the two servers;
* `ServerInv` — the invariant: both lists hold the numbers of the sessions that have not been
  removed, each once;
* `one_place` — every run keeps the connections in their places, and `getWsCount` counts the
  upgraded sessions that have not been closed.
-/

variable {ρ : Type} {cfg : HttpConfig} {P : HttpParser ρ}

/-! ### Steps of an HTTP session -/

/-- The effect moves the session between the servers. -/
def HttpEffect.moves : HttpEffect → Bool
  | .removeSession => true
  | .onUpgrade => true
  | _ => false

/-- The effects that move the session. -/
def moved (es : List HttpEffect) : List HttpEffect := es.filter HttpEffect.moves

theorem moved_append (es fs : List HttpEffect) : moved (es ++ fs) = moved es ++ moved fs :=
  List.filter_append _ _

theorem moved_eq_nil_of_isResponse {es : List HttpEffect} (h : ∀ e ∈ es, e.isResponse = true) :
    moved es = [] := by
  rw [moved, List.filter_eq_nil_iff]
  intro e he hmoves
  have hresponse := h e he
  cases e <;> simp [HttpEffect.moves, HttpEffect.isResponse] at hmoves hresponse

/-- `s'` comes from `s` by effects that leave the session where it is, by those of a close, or by
    those of an upgrade. -/
inductive HttpMove (s s' : HttpSession ρ) : Prop
  | stays (es : List HttpEffect) (trace : s'.trace = s.trace ++ es) (moved : moved es = [])
      (registered : s'.registered = s.registered)
  | closes (es : List HttpEffect) (trace : s'.trace = s.trace ++ es)
      (moved : moved es = [.removeSession]) (uvClose : .uvClose ∈ es)
      (registered : s'.registered = false)
  | upgrades (es : List HttpEffect) (trace : s'.trace = s.trace ++ es)
      (moved : moved es = [.removeSession, .onUpgrade]) (before : s.registered = true)
      (registered : s'.registered = false)

namespace HttpMove

theorem refl (s : HttpSession ρ) : HttpMove s s := .stays [] (List.append_nil _).symm rfl rfl

theorem emit (s : HttpSession ρ) {es : List HttpEffect} (h : moved es = []) :
    HttpMove s (s.emit es) :=
  .stays es rfl h rfl

theorem responding {s s' : HttpSession ρ} (h : s.Responding s') : HttpMove s s' := by
  obtain ⟨es, htrace, hes⟩ := h.trace
  exact .stays es htrace (moved_eq_nil_of_isResponse hes) h.registered

/-- Before and behind a move the session may do other things. -/
theorem around {s t u v : HttpSession ρ} {es fs : List HttpEffect}
    (hst : t.trace = s.trace ++ es) (hes : moved es = []) (hreg : t.registered = s.registered)
    (h : HttpMove t u) (huv : v.trace = u.trace ++ fs) (hfs : moved fs = [])
    (hreg' : v.registered = u.registered) : HttpMove s v := by
  have htrace : ∀ gs, u.trace = t.trace ++ gs → v.trace = s.trace ++ (es ++ gs ++ fs) := by
    intro gs hgs
    rw [huv, hgs, hst]
    simp only [List.append_assoc]
  have hmoved : ∀ gs, moved (es ++ gs ++ fs) = moved gs := by
    intro gs
    rw [moved_append, moved_append, hes, hfs, List.append_nil, List.nil_append]
  cases h with
  | stays gs hgs hnone hsame =>
    exact .stays _ (htrace gs hgs) ((hmoved gs).trans hnone) (hreg'.trans (hsame.trans hreg))
  | closes gs hgs hone hclose hgone =>
    refine .closes _ (htrace gs hgs) ((hmoved gs).trans hone) ?_ (hreg'.trans hgone)
    exact List.mem_append_left _ (List.mem_append_right _ hclose)
  | upgrades gs hgs htwo hbefore hgone =>
    exact .upgrades _ (htrace gs hgs) ((hmoved gs).trans htwo) (hreg.symm.trans hbefore)
      (hreg'.trans hgone)

theorem closeSession (s : HttpSession ρ) : HttpMove s (s.closeSession false) :=
  .closes _ (s.closeSession_trace false) rfl (by simp) rfl

/-- The upgrade callback is set. -/
theorem upgradeSession {s : HttpSession ρ} (hcb : cfg.upgradeCallback = true)
    (hreg : s.registered = true) : HttpMove s (s.upgradeSession cfg) := by
  have htrace : (s.upgradeSession cfg).trace =
      s.trace ++ [.uvReadStop, .removeSession, .onUpgrade] := by
    rw [HttpSession.upgradeSession, if_pos hcb, HttpSession.emit_trace,
      HttpSession.closeSession_trace, List.append_assoc]
    rfl
  refine .upgrades _ htrace rfl hreg ?_
  rw [HttpSession.upgradeSession, if_pos hcb]
  rfl

theorem onWriteEnd {s : HttpSession ρ} (hcb : cfg.upgradeCallback = true) (w : PendingWrite)
    (a : Answer) : HttpMove s (s.onWriteEnd cfg w a) := by
  have hr := HttpSession.Responding.released s a
  obtain ⟨es, htrace, hes⟩ := hr.trace
  rw [HttpSession.onWriteEnd_eq]
  refine .around htrace (moved_eq_nil_of_isResponse hes) hr.registered ?_
    (HttpSession.emit_trace _ _) rfl (HttpSession.emit_registered _ _)
  split
  · rename_i hreg
    split
    · split
      · -- keep-alive
        exact .stays [.uvTimerStart (cfg.keepAliveTimeout * 1000)] rfl rfl rfl
      · exact .closeSession _
    · exact .upgradeSession hcb hreg
  · exact .refl _

end HttpMove

/-- **What a step of an HTTP session does to the servers.** -/
theorem HttpStep.move {s s' : HttpSession ρ} {l : HttpLabel} (h : HttpStep cfg P s l s')
    (hcb : cfg.upgradeCallback = true) : HttpMove s s' := by
  cases h with
  | @call i c hu hi => exact .responding (.call s i c)
  | setReq req hu => exact .stays [] (List.append_nil _).symm rfl rfl
  | ret hst => exact .stays [] (List.append_nil _).symm rfl rfl
  | @run e st hst =>
    cases e with
    | messageComplete upgrade =>
      have hspec := ({ s with stack := st } : HttpSession ρ).handleRequest_spec cfg upgrade
      rcases hspec.answered with ⟨-, htrace⟩ | ⟨-, ctx, buffers, htrace⟩
      · exact .stays _ htrace rfl hspec.registered
      · exact .stays _ htrace rfl hspec.registered
    | _ => exact .stays [] (List.append_nil _).symm rfl rfl
  | recv base data hst hr =>
    have hspec := s.recvCb_spec (P := P) base data
    refine .stays _ hspec.trace ?_ hspec.registered
    split <;> rfl
  | recvErr hst hr =>
    exact .around (t := s.stopKeepAliveTimer) rfl rfl rfl (.closeSession _) (List.append_nil _).symm
      rfl rfl
  | timer hst ht =>
    show HttpMove s s.keepAliveTimerCb
    unfold HttpSession.keepAliveTimerCb
    dsimp only
    split
    · exact .around (t := { s with timerArmed := false }) (List.append_nil _).symm rfl rfl
        (.closeSession _) (List.append_nil _).symm rfl rfl
    · exact .stays [] (List.append_nil _).symm rfl rfl
  | @written w ws a status hst hw ha =>
    exact .around (t := { s with writes := ws }) (List.append_nil _).symm rfl rfl
      (.onWriteEnd hcb w a) (List.append_nil _).symm rfl rfl
  | @file j result data r r' as hst hr he =>
    exact .responding (.fsActions cfg j r.resp s _ as)

/-! ### Steps of a WebSocket session -/

/-- `t'` is `t` with effects added that do not remove the session. -/
abbrev Staying (t t' : List WsEffect) : Prop := Grows (fun e => e ≠ .removeWsSession) t t'

namespace WsSession

theorem emit_staying (s : WsSession) {es : List WsEffect} (h : .removeWsSession ∉ es) :
    Staying s.trace (s.emit es).trace := by
  refine .append _ fun e he heq => ?_
  exact h (heq ▸ he)

theorem callback_staying (s : WsSession) (set : Bool) {e : WsEffect} (h : e ≠ .removeWsSession) :
    Staying s.trace (s.callback set e).trace := by
  rw [callback_trace]
  apply Grows.append
  split
  · simpa using h
  · simp

theorem call_staying (s : WsSession) (c : WsCall) : Staying s.trace (s.call c).trace := by
  cases c with
  | close =>
    show Staying s.trace s.close.trace
    unfold close
    split
    · exact .refl _ _
    · exact .refl _ _
  | send str => exact .append _ (by simp)
  | sendFile path => exact .append _ (by simp [FileReader.fileRead])
  | _ => exact .refl _ _

theorem handleWsFrame_staying (s : WsSession) (frame : WsFrame) :
    Staying s.trace (s.handleWsFrame frame).trace := by
  unfold handleWsFrame
  split
  · exact callback_staying (s.push [.interClose]) _ (by simp)
  · split
    · exact .refl _ _
    · split
      · exact .append _ (by simp)
      · split
        · exact .refl _ _
        · exact callback_staying s _ (by simp)

theorem runTask_staying (s : WsSession) {t : WsTask} (ht : t ≠ .removeWsSession) :
    Staying s.trace (s.runTask t).trace := by
  cases t with
  | user => exact .refl _ _
  | connect =>
    show Staying s.trace s.connect.trace
    rw [connect_trace]
    apply Grows.append
    split <;> simp
  | interClose =>
    show Staying s.trace s.interClose.trace
    rw [interClose_trace]
    apply Grows.append
    split <;> simp
  | removeWsSession => exact absurd rfl ht
  | handleWsFrame frame => exact s.handleWsFrame_staying frame
  | parsed err =>
    show Staying s.trace (s.parsed err).trace
    unfold parsed
    split
    · exact callback_staying (s.push [.interClose]) _ (by simp)
    · exact .refl _ _
  | deleteCtx ctx => exact s.emit_staying (by simp)

theorem fsActions_staying (i : Nat) (r : FileReader) (s : WsSession) (as : List FsAction) :
    Staying s.trace (as.foldl (fsAction i r) s).trace := by
  induction as generalizing s with
  | nil => exact .refl _ _
  | cons a as ih =>
    have hfs : Staying s.trace (s.emit [.fs i a]).trace := s.emit_staying (by simp)
    have hone : Staying s.trace (fsAction i r s a).trace := by
      cases a with
      | onError => exact hfs.trans (emit_staying _ (by simp))
      | onClose => exact hfs.trans (.append _ (by simp))
      | _ => exact hfs
    exact hone.trans (ih _)

end WsSession

/-- `s'` comes from `s` by effects that leave the session in its server, or by its removal. -/
inductive WsMove (s s' : WsSession) : Prop
  | stays (trace : Staying s.trace s'.trace) (registered : s'.registered = s.registered)
  | leaves (trace : s'.trace = s.trace ++ [.removeWsSession]) (registered : s'.registered = false)

/-- **What a step of a WebSocket session does to the servers.** -/
theorem WsStep.move {s s' : WsSession} {l : WsLabel} (h : WsStep s l s') : WsMove s s' := by
  cases h with
  | call c hu => exact .stays (s.call_staying c) (WsSession.Stays.call s c).registered
  | ret hst => exact .stays (.refl _ _) rfl
  | @run t st hst ht =>
    by_cases hremove : t = .removeWsSession
    · subst hremove
      exact .leaves rfl rfl
    · refine .stays (WsSession.runTask_staying _ hremove) ?_
      by_cases hclose : t = .interClose
      · subst hclose
        exact (WsSession.Stays.callback _ _ _).registered
      · exact (WsSession.Stays.runTask _ hclose hremove).registered
  | recv hst hr hs =>
    rcases WsSession.recvCb_cases hs with rfl | ⟨-, r, -, rfl⟩
    · exact .stays (.refl _ _) rfl
    · exact .stays (.refl _ _) rfl
  | recvErr hst hr => exact .stays (.refl _ _) rfl
  | @written ctx ws status hst hw =>
    show WsMove s (WsSession.written _ _ _)
    unfold WsSession.written
    split
    · exact .stays (WsSession.callback_staying _ _ (by simp))
        (WsSession.Stays.callback _ _ _).registered
    · exact .stays (.refl _ _) rfl
  | @file i result data r r' as hst hr he =>
    refine .stays ?_ ?_
    · exact WsSession.fsActions_staying i r' { s with readers := s.readers.set i r' } as
    · exact (WsSession.Stays.fsActions i r' { s with readers := s.readers.set i r' } as).registered

/-! ### Steps of the servers -/

namespace Server

/-- Effects that move nothing change nothing. -/
theorem foldl_onHttpEffect (s : Server ρ) (i : Nat) (es : List HttpEffect) :
    es.foldl (onHttpEffect i) s = (moved es).foldl (onHttpEffect i) s := by
  induction es generalizing s with
  | nil => rfl
  | cons e es ih =>
    by_cases he : e.moves = true
    · have hcons : moved (e :: es) = e :: moved es := List.filter_cons_of_pos he
      rw [hcons, List.foldl_cons, List.foldl_cons, ih]
    · have hcons : moved (e :: es) = moved es := List.filter_cons_of_neg he
      have hid : onHttpEffect i s e = s := by
        cases e <;> simp [HttpEffect.moves, onHttpEffect] at he ⊢
      rw [hcons, List.foldl_cons, hid, ih]

theorem foldl_onWsEffect (s : Server ρ) (i : Nat) {es : List WsEffect}
    (hes : ∀ e ∈ es, e ≠ .removeWsSession) : es.foldl (onWsEffect i) s = s := by
  induction es with
  | nil => rfl
  | cons e es ih =>
    obtain ⟨he, hes⟩ := List.forall_mem_cons.mp hes
    have hid : onWsEffect i s e = s := by
      cases e <;> simp [onWsEffect] at he ⊢
    rw [List.foldl_cons, hid, ih hes]

/-- The servers when connection `i` has become `c`. -/
def put (s : Server ρ) (i : Nat) (c : Connection ρ) : Server ρ :=
  { s with connections := s.connections.set i c }

/-- The WebSocket session of a connection whose HTTP session has become `h`. -/
def sharing (c : Connection ρ) (h : HttpSession ρ) : Option WsSession :=
  c.ws.map fun w =>
    if h.closing && !c.http.closing then { w with reading := false, closing := true } else w

theorem afterHttp_eq (s : Server ρ) (i : Nat) (c : Connection ρ) {h : HttpSession ρ}
    {es : List HttpEffect} (htrace : h.trace = c.http.trace ++ es) :
    s.afterHttp i c h = (moved es).foldl (onHttpEffect i) (s.put i ⟨h, sharing c h⟩) := by
  rw [← foldl_onHttpEffect, afterHttp, htrace, List.drop_left]
  rfl

/-- What an upgrade of connection `i` does. -/
theorem foldl_upgrade (s : Server ρ) {i : Nat} (hlt : i < s.connections.length)
    (c : Connection ρ) :
    [HttpEffect.removeSession, .onUpgrade].foldl (onHttpEffect i) (s.put i c) =
      ⟨s.connections.set i ⟨c.http, some (.onUpgrade s.onConnectCb)⟩, swapRemove s.sessions i,
        s.wsSessions ++ [i], s.onConnectCb⟩ := by
  show Server.mk ((s.connections.set i c).modify i
    fun c => { c with ws := some (.onUpgrade s.onConnectCb) }) _ _ _ = _
  congr 1
  apply List.ext_getElem?
  intro j
  rw [List.getElem?_modify, List.getElem?_set, List.getElem?_set]
  by_cases hj : i = j
  · simp [hj, hj ▸ hlt]
  · simp [hj]

/-- The WebSocket session of connection `i` has become `w'`, and the HTTP session knows of the
    handle. -/
def withWs (c : Connection ρ) (w' : WsSession) : Connection ρ :=
  ⟨{ c.http with closing := c.http.closing || w'.closing }, some w'⟩

theorem afterWs_eq (s : Server ρ) (i : Nat) (c : Connection ρ) {w w' : WsSession}
    {es : List WsEffect} (htrace : w'.trace = w.trace ++ es) :
    s.afterWs i c w w' = es.foldl (onWsEffect i) (s.put i (withWs c w')) := by
  rw [afterWs, htrace, List.drop_left]
  rfl

end Server

/-! ### The invariant -/

/-- What holds of a connection: it is upgraded only when its HTTP session has been removed, and one
    that is removed without an upgrade has been closed. -/
structure Placed (c : Connection ρ) : Prop where
  upgraded : c.ws.isSome = true → c.http.registered = false
  closed : c.http.registered = false → c.ws = none → .uvClose ∈ c.http.trace
  inv : ∀ w ∈ c.ws, WsInv w
  member : ∀ w ∈ c.ws, WsMember w

/-- The HTTP session of connection `i` has not been removed. -/
def httpAt (cs : List (Connection ρ)) (i : Nat) : Bool := cs[i]?.any (·.http.registered)

/-- The WebSocket session of connection `i` has not been removed. -/
def wsAt (cs : List (Connection ρ)) (i : Nat) : Bool :=
  cs[i]?.any fun c => c.ws.any WsSession.registered

/-- Each session that has not been removed is in its server, once, and nothing else is. -/
structure ServerInv (s : Server ρ) : Prop where
  placed : ∀ c ∈ s.connections, Placed c
  sessions : Registers s.connections.length (httpAt s.connections) s.sessions
  wsSessions : Registers s.connections.length (wsAt s.connections) s.wsSessions

theorem ServerInv.init : ServerInv (.init : Server ρ) :=
  ⟨by simp [Server.init], registers_nil _, registers_nil _⟩

theorem httpAt_set (cs : List (Connection ρ)) {i : Nat} (hi : i < cs.length) (c : Connection ρ)
    (j : Nat) : httpAt (cs.set i c) j = if i = j then c.http.registered else httpAt cs j := by
  rw [httpAt, List.getElem?_set]
  split
  · rfl
  · rfl

theorem wsAt_set (cs : List (Connection ρ)) {i : Nat} (hi : i < cs.length) (c : Connection ρ)
    (j : Nat) : wsAt (cs.set i c) j =
      if i = j then c.ws.any WsSession.registered else wsAt cs j := by
  rw [wsAt, List.getElem?_set]
  split
  · rfl
  · rfl

/-- One connection changes. -/
theorem ServerInv.put {s : Server ρ} (h : ServerInv s) {i : Nat} {c c' : Connection ρ}
    (hi : s.connections[i]? = some c) (hc' : Placed c') {sessions wsSessions : List Nat}
    (hsessions : ∀ p, (∀ j, j ≠ i → httpAt s.connections j = p j) → p i = c'.http.registered →
      Registers s.connections.length p sessions)
    (hwsSessions : ∀ p, (∀ j, j ≠ i → wsAt s.connections j = p j) →
      p i = c'.ws.any WsSession.registered → Registers s.connections.length p wsSessions)
    (set : Bool) : ServerInv ⟨s.connections.set i c', sessions, wsSessions, set⟩ := by
  have hlt : i < s.connections.length := (List.getElem?_eq_some_iff.mp hi).1
  refine ⟨?_, ?_, ?_⟩
  · intro d hd
    rcases List.mem_or_eq_of_mem_set hd with hd | rfl
    · exact h.placed d hd
    · exact hc'
  · show Registers (s.connections.set i c').length _ _
    rw [List.length_set]
    refine hsessions _ (fun j hj => ?_) ?_
    · rw [httpAt_set _ hlt, if_neg (Ne.symm hj)]
    · rw [httpAt_set _ hlt, if_pos rfl]
  · show Registers (s.connections.set i c').length _ _
    rw [List.length_set]
    refine hwsSessions _ (fun j hj => ?_) ?_
    · rw [wsAt_set _ hlt, if_neg (Ne.symm hj)]
    · rw [wsAt_set _ hlt, if_pos rfl]

/-- The old membership of a connection, for a change that keeps it. -/
theorem httpAt_of_getElem? {cs : List (Connection ρ)} {i : Nat} {c : Connection ρ}
    (hi : cs[i]? = some c) : httpAt cs i = c.http.registered := by
  rw [httpAt, hi]
  rfl

theorem wsAt_of_getElem? {cs : List (Connection ρ)} {i : Nat} {c : Connection ρ}
    (hi : cs[i]? = some c) : wsAt cs i = c.ws.any WsSession.registered := by
  rw [wsAt, hi]
  rfl

/-! ### The sessions share the handle -/

theorem sharing_isSome (c : Connection ρ) (h : HttpSession ρ) :
    (Server.sharing c h).isSome = c.ws.isSome :=
  Option.isSome_map

theorem sharing_registered (c : Connection ρ) (h : HttpSession ρ) :
    (Server.sharing c h).any WsSession.registered = c.ws.any WsSession.registered := by
  unfold Server.sharing
  cases c.ws with
  | none => rfl
  | some w =>
    show WsSession.registered (if _ then _ else _) = w.registered
    split <;> rfl

/-- Closing the handle of a WebSocket session from outside keeps what holds of it. -/
theorem forall_sharing {Q : WsSession → Prop} (c : Connection ρ) (h : HttpSession ρ)
    (hQ : ∀ w, Q w → Q { w with reading := false, closing := true }) (hc : ∀ w ∈ c.ws, Q w) :
    ∀ w ∈ Server.sharing c h, Q w := by
  intro w hw
  obtain ⟨u, hu, rfl⟩ := Option.mem_map.mp hw
  split
  · exact hQ u (hc u hu)
  · exact hc u hu

/-- The HTTP session of a connection takes a step that is no upgrade. -/
theorem Placed.http {c : Connection ρ} (hc : Placed c) {h : HttpSession ρ}
    (hup : c.ws.isSome = true → h.registered = false)
    (hclosed : h.registered = false → c.ws = none → .uvClose ∈ h.trace) :
    Placed ⟨h, Server.sharing c h⟩ := by
  refine ⟨?_, ?_, ?_, ?_⟩
  · rw [sharing_isSome]
    exact hup
  · exact fun hgone hnone => hclosed hgone (Option.map_eq_none_iff.mp hnone)
  · exact forall_sharing c h (fun w hw => ⟨hw.parse, hw.waiting, hw.fresh, hw.closed_iff⟩) hc.inv
  · exact forall_sharing c h (fun w hw => hw) hc.member

theorem ServerInv.afterHttp {s : Server ρ} (hs : ServerInv s) {i : Nat} {c : Connection ρ}
    (hi : s.connections[i]? = some c) {h : HttpSession ρ} (hmove : HttpMove c.http h) :
    ServerInv (s.afterHttp i c h) := by
  have hc : Placed c := hs.placed c (List.mem_of_getElem? hi)
  have hlt : i < s.connections.length := (List.getElem?_eq_some_iff.mp hi).1
  -- the WebSocket session of this connection stays where it is
  have hws : ∀ p, (∀ j, j ≠ i → wsAt s.connections j = p j) →
      p i = (Server.sharing c h).any WsSession.registered →
      Registers s.connections.length p s.wsSessions := by
    intro p hp hpi
    refine hs.wsSessions.congr_at ?_ hp
    rw [wsAt_of_getElem? hi, hpi, sharing_registered]
  cases hmove with
  | stays es htrace hnone hreg =>
    rw [Server.afterHttp_eq s i c htrace, hnone]
    refine hs.put hi (hc.http ?_ ?_) ?_ hws _
    · rw [hreg]
      exact hc.upgraded
    · rw [hreg, htrace]
      exact fun hgone hno => List.mem_append_left _ (hc.closed hgone hno)
    · intro p hp hpi
      refine hs.sessions.congr_at ?_ hp
      rw [httpAt_of_getElem? hi, hpi, hreg]
  | closes es htrace hone hclose hgone =>
    rw [Server.afterHttp_eq s i c htrace, hone]
    refine hs.put hi (hc.http (fun _ => hgone) fun _ _ => ?_) ?_ hws _
    · rw [htrace]
      exact List.mem_append_right _ hclose
    · exact fun p hp hpi => hs.sessions.remove (hpi.trans hgone) hp
  | upgrades es htrace htwo hbefore hgone =>
    have hnone : c.ws = none := by
      rw [← Option.not_isSome_iff_eq_none]
      intro hsome
      exact absurd (hbefore.symm.trans (hc.upgraded hsome)) (by simp)
    rw [Server.afterHttp_eq s i c htrace, htwo, Server.foldl_upgrade s hlt]
    refine hs.put hi ?_ ?_ ?_ _
    · refine ⟨fun _ => hgone, fun _ hno => ?_, ?_, ?_⟩
      · exact absurd hno (by simp)
      · rintro w hw
        obtain rfl := Option.some.inj hw
        exact WsInv.onUpgrade s.onConnectCb
      · rintro w hw
        obtain rfl := Option.some.inj hw
        exact WsMember.onUpgrade s.onConnectCb
    · exact fun p hp hpi => hs.sessions.remove (hpi.trans hgone) hp
    · intro p hp hpi
      refine hs.wsSessions.add hlt ?_ hpi hp
      rw [wsAt_of_getElem? hi, hnone]
      rfl

theorem ServerInv.afterWs {s : Server ρ} (hs : ServerInv s) {i : Nat} {c : Connection ρ}
    (hi : s.connections[i]? = some c) {w w' : WsSession} (hw : c.ws = some w) {l : WsLabel}
    (hstep : WsStep w l w') : ServerInv (s.afterWs i c w w') := by
  have hc : Placed c := hs.placed c (List.mem_of_getElem? hi)
  have hc' : Placed (Server.withWs c w') := by
    refine ⟨fun _ => hc.upgraded (by rw [hw]; rfl), fun _ hno => ?_, ?_, ?_⟩
    · exact absurd hno (by simp [Server.withWs])
    · intro u hu
      obtain rfl := Option.some.inj hu
      exact (hc.inv w hw).step hstep
    · intro u hu
      obtain rfl := Option.some.inj hu
      exact (hc.member w hw).step hstep
  -- the HTTP session stays where it is
  have hhttp : ∀ p, (∀ j, j ≠ i → httpAt s.connections j = p j) →
      p i = (Server.withWs c w').http.registered →
      Registers s.connections.length p s.sessions := by
    intro p hp hpi
    refine hs.sessions.congr_at ?_ hp
    rw [httpAt_of_getElem? hi, hpi]
    rfl
  cases hstep.move with
  | stays htrace hreg =>
    obtain ⟨es, htrace, hes⟩ := htrace
    rw [Server.afterWs_eq s i c htrace, Server.foldl_onWsEffect _ i hes]
    refine hs.put hi hc' hhttp (fun p hp hpi => ?_) _
    refine hs.wsSessions.congr_at ?_ hp
    rw [wsAt_of_getElem? hi, hpi, hw]
    exact hreg.symm
  | leaves htrace hgone =>
    rw [Server.afterWs_eq s i c htrace]
    exact hs.put hi hc' hhttp (fun p hp hpi => hs.wsSessions.remove (hpi.trans hgone) hp) _

/-- A new connection is in `m_sessions`. -/
theorem ServerInv.handleConnect {s : Server ρ} (hs : ServerInv s) (P : HttpParser ρ)
    (method : HttpMethod) : ServerInv (s.handleConnect P method) := by
  have hold : ∀ i < s.connections.length,
      (s.connections ++ [⟨.accepted P method, none⟩])[i]? = s.connections[i]? :=
    fun i hi => List.getElem?_append_left hi
  have hnew : (s.connections ++ [⟨.accepted P method, none⟩])[s.connections.length]? =
      some (⟨.accepted P method, none⟩ : Connection ρ) :=
    List.getElem?_concat_length
  refine ⟨?_, ?_, ?_⟩
  · refine List.forall_mem_append.mpr ⟨hs.placed, List.forall_mem_singleton.mpr ?_⟩
    exact ⟨fun h => absurd h (by simp), fun h => absurd h (by simp [HttpSession.accepted]),
      by simp, by simp⟩
  · show Registers (s.connections ++ [_]).length _ _
    rw [List.length_append]
    refine hs.sessions.push (fun i hi => ?_) (httpAt_of_getElem? hnew)
    show _ = Option.any _ (s.connections ++ [_])[i]?
    rw [httpAt, hold i hi]
  · show Registers (s.connections ++ [_]).length _ _
    rw [List.length_append]
    refine hs.wsSessions.skip (fun i hi => ?_) (wsAt_of_getElem? hnew)
    show _ = Option.any _ (s.connections ++ [_])[i]?
    rw [wsAt, hold i hi]

/-- **Every step keeps the invariant.** -/
theorem ServerInv.step {s s' : Server ρ} (hs : ServerInv s) {l : ServerLabel}
    (h : (serverMachine cfg P).step s l = some s') : ServerInv s' := by
  change s.step (attached cfg) P l = some s' at h
  cases l with
  | accept method =>
    simp only [Server.step] at h
    split at h
    · obtain rfl := Option.some.inj h
      exact hs.handleConnect P method
    · cases h
  | onConnect set =>
    obtain rfl := Option.some.inj h
    exact ⟨hs.placed, hs.sessions, hs.wsSessions⟩
  | http i l =>
    simp only [Server.step] at h
    split at h
    · obtain ⟨c, hc, h⟩ := Option.bind_eq_some_iff.mp h
      obtain ⟨t, ht, rfl⟩ := Option.map_eq_some_iff.mp h
      exact hs.afterHttp hc ((HttpSession.step_cases (P := P) ht).move rfl)
    · cases h
  | ws i l =>
    simp only [Server.step] at h
    split at h
    · obtain ⟨c, hc, h⟩ := Option.bind_eq_some_iff.mp h
      obtain ⟨w, hw, h⟩ := Option.bind_eq_some_iff.mp h
      obtain ⟨w', hw', rfl⟩ := Option.map_eq_some_iff.mp h
      exact hs.afterWs hc hw (WsSession.step_cases hw')
    · cases h

/-- **Every run keeps the invariant.** -/
theorem serverInv_exec {ls : List ServerLabel} {s : Server ρ}
    (h : (serverMachine cfg P).exec .init ls = some s) : ServerInv s :=
  (serverMachine cfg P).exec_invariant (fun _ _ _ hs h => hs.step h) .init h

/-! ### The three places -/

/-- `uv_close` has been issued on the handle. -/
def Connection.UvClosed (c : Connection ρ) : Prop :=
  .uvClose ∈ c.http.trace ∨ ∃ w ∈ c.ws, .uvClose ∈ w.trace

/-- The connection has been upgraded, and its WebSocket session has not been closed. -/
def Connection.WsOpen (c : Connection ρ) : Bool := c.ws.any fun w => w.readyState ≠ .closed

/-- Connection `i` is in `m_sessions` once, in `m_wsSessions` once, or in neither and closed. -/
inductive InOnePlace (s : Server ρ) (i : Nat) (c : Connection ρ) : Prop
  | http (sessions : s.sessions.count i = 1) (wsSessions : s.wsSessions.count i = 0)
  | ws (sessions : s.sessions.count i = 0) (wsSessions : s.wsSessions.count i = 1)
  | closed (sessions : s.sessions.count i = 0) (wsSessions : s.wsSessions.count i = 0)
      (uvClosed : c.UvClosed)

theorem ServerInv.inOnePlace {s : Server ρ} (hs : ServerInv s) {i : Nat} {c : Connection ρ}
    (hi : s.connections[i]? = some c) : InOnePlace s i c := by
  have hc : Placed c := hs.placed c (List.mem_of_getElem? hi)
  have hlt : i < s.connections.length := (List.getElem?_eq_some_iff.mp hi).1
  have hhttp := hs.sessions i
  have hws := hs.wsSessions i
  rw [httpAt_of_getElem? hi] at hhttp
  rw [wsAt_of_getElem? hi] at hws
  simp only [hlt, true_and] at hhttp hws
  cases hreg : c.http.registered with
  | true =>
    have hnone : c.ws = none := by
      rw [← Option.not_isSome_iff_eq_none]
      intro hsome
      exact absurd (hreg.symm.trans (hc.upgraded hsome)) (by simp)
    rw [hreg] at hhttp
    rw [hnone] at hws
    exact .http hhttp hws
  | false =>
    rw [hreg] at hhttp
    cases hw : c.ws with
    | none =>
      rw [hw] at hws
      exact .closed hhttp hws (.inl (hc.closed hreg hw))
    | some w =>
      rw [hw] at hws
      cases hwreg : w.registered with
      | true =>
        rw [Option.any_some, hwreg] at hws
        exact .ws hhttp hws
      | false =>
        rw [Option.any_some, hwreg] at hws
        exact .closed hhttp hws (.inr ⟨w, hw, (hc.member w hw).mpr (.inr hwreg)⟩)

/-- Between two events an upgraded session is in `m_wsSessions` as long as it is not closed. -/
theorem Placed.wsOpen_iff {c : Connection ρ} (hc : Placed c) (hquiet : c.Quiet) :
    c.WsOpen = c.ws.any WsSession.registered := by
  cases hw : c.ws with
  | none =>
    rw [Connection.WsOpen, hw]
    rfl
  | some w =>
    have hst : w.stack = [] := hquiet.2 w hw
    have hclosed := (hc.inv w hw).closed_iff (by simp [hst])
    have hmember := hc.member w hw
    rw [WsMember, ← hclosed, hst, or_iff_right List.not_mem_nil] at hmember
    rw [Connection.WsOpen, hw]
    simp [hmember]

/-- **Every connection in one place.**  Whatever the order of accepted connections, reads, errors,
    timeouts, completed responses, upgrades, closes and calls of user code, between two events each
    accepted connection is in exactly one of three places: once in `m_sessions`, once in
    `m_wsSessions`, or in neither with `uv_close` issued on its handle.  The two lists hold nothing
    else, and `getWsCount` is the number of upgraded sessions that have not been closed. -/
theorem one_place {ls : List ServerLabel} {s : Server ρ}
    (h : (serverMachine cfg P).exec .init ls = some s) (hquiet : s.Quiet) :
    (∀ i c, s.connections[i]? = some c → InOnePlace s i c) ∧
      (∀ i ∈ s.sessions ++ s.wsSessions, i < s.connections.length) ∧
      s.getWsCount = s.connections.countP Connection.WsOpen := by
  have hs : ServerInv s := serverInv_exec h
  refine ⟨fun i c hi => hs.inOnePlace hi, ?_, ?_⟩
  · intro i hi
    rcases List.mem_append.mp hi with hi | hi
    · exact hs.sessions.lt_of_mem hi
    · exact hs.wsSessions.lt_of_mem hi
  · have hopen : ∀ c ∈ s.connections, c.WsOpen = c.ws.any WsSession.registered :=
      fun c hc => (hs.placed c hc).wsOpen_iff (hquiet c hc)
    calc s.getWsCount
        = (List.range s.connections.length).countP (wsAt s.connections) := hs.wsSessions.length_eq
      _ = s.connections.countP fun c => c.ws.any WsSession.registered := countP_range_getElem? _ _
      _ = s.connections.countP Connection.WsOpen :=
          List.countP_congr fun c hc => by rw [hopen c hc]

/-- A request for an upgrade. -/
def upgradeRequest : Bytes := str "GET /ws HTTP/1.1\r\nUpgrade: websocket\r\n\r\n"

/-- The parser on that request. -/
def upgradeParser : HttpParser Bytes :=
  tableParser
    [(([], upgradeRequest),
        [.messageBegin, .url (str "/ws"), .headersComplete .get 1 1, .messageComplete true])]

/-- Of two connections the first one is upgraded. -/
def firstUpgraded : List ServerLabel :=
  [.accept .get, .accept .get, .http 0 (.recv true upgradeRequest), .http 0 .run, .http 0 .run,
    .http 0 .run, .http 0 .run, .http 0 (.written 0), .ws 0 .run]

set_option maxRecDepth 4000 in
/-- Each of them is in one place, and one is counted. -/
theorem one_place_firstUpgraded :
    ∃ s, (serverMachine bareConfig upgradeParser).exec .init firstUpgraded = some s ∧
      s.sessions = [1] ∧ s.wsSessions = [0] ∧
      (∀ i c, s.connections[i]? = some c → InOnePlace s i c) ∧
      s.connections.countP Connection.WsOpen = 1 := by
  obtain ⟨s, hs, hquiet, hsessions, hws⟩ : ∃ s,
      (serverMachine bareConfig upgradeParser).exec .init firstUpgraded = some s ∧
        s.Quiet ∧ s.sessions = [1] ∧ s.wsSessions = [0] :=
    ⟨_, rfl, by decide, rfl, rfl⟩
  obtain ⟨hplaces, -, hcount⟩ := one_place hs hquiet
  refine ⟨s, hs, hsessions, hws, hplaces, ?_⟩
  rw [← hcount, Server.getWsCount, hws]
  rfl

end MyWebSocket
