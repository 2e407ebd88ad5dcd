import MyWebSocket.Http.KeepAlive

namespace MyWebSocket

open Log

/-!
# Upgrades

Every request for which `http_parser` sets `upgrade` is answered with a 101, and the callback of
that response calls `upgradeSession`.  The flag is set for CONNECT requests too, and for any
protocol an Upgrade header names; neither `handle_request` nor `upgradeToWs` looks at method,
protocol, key or `onUpgradeCb`.

* `UpgradeInv` — the invariant of the runs in which only handshakes are upgraded;
* `switches_lawfully_iff` — 101 responses and calls of `upgradeSession` are for handshakes on a
  server that takes them, if and only if such are all the requests with the flag and all those
  for which user code sends a 101 itself.
-/

variable {ρ : Type} {cfg : HttpConfig} {P : HttpParser ρ}

/-! ### Handshakes -/

/-- The value of an Upgrade header names `websocket`, in any case, alone or in a list. -/
def namesWebsocket (value : Bytes) : Bool :=
  let isBlank : UInt8 → Bool := fun c => c == 0x20 || c == 0x09
  (value.splitOn 0x2C).any fun name =>
    ((name.dropWhile isBlank).reverse.dropWhile isBlank).reverse.map toLower == str "websocket"

/-- A WebSocket opening handshake: a GET with an Upgrade header that names `websocket` and a
    Sec-WebSocket-Key that is not empty. -/
def IsHandshake (seen : Seen) : Prop :=
  seen.method = .get ∧ (seen.headers.lookup (str "upgrade")).any namesWebsocket = true ∧
    (seen.headers.lookup (str "sec-websocket-key")).any (fun key => !key.isEmpty) = true

instance (seen : Seen) : Decidable (IsHandshake seen) := by
  unfold IsHandshake
  infer_instance

/-- Request `i` is handled, and it is a handshake. -/
def HttpEffect.handshakes (i : Nat) : HttpEffect → Bool
  | .handleRequest j seen _ _ => j == i && decide (IsHandshake seen)
  | _ => false

/-- The server takes upgrades and request `i` is a handshake. -/
def Entitled (cfg : HttpConfig) (t : List HttpEffect) (i : Nat) : Prop :=
  cfg.upgradeCallback = true ∧ Has (HttpEffect.handshakes i) t

/-- The buffers begin a 101 response. -/
def Is101 (buffers : List Bytes) : Prop := str "HTTP/1.1 101 " <+: buffers.flatten

instance (cfg : HttpConfig) (t : List HttpEffect) (i : Nat) : Decidable (Entitled cfg t i) := by
  unfold Entitled
  infer_instance

instance (buffers : List Bytes) : Decidable (Is101 buffers) := by
  unfold Is101
  infer_instance

/-- A 101 response is only written, and `upgradeSession` is only called, for a request that is
    entitled to it; `sent` is the request whose response has been sent. -/
def HttpEffect.Lawful (cfg : HttpConfig) (sent : Option Nat) (t : List HttpEffect) :
    HttpEffect → Prop
  | .uvWrite _ i buffers => Is101 buffers → Entitled cfg t i
  | .onUpgrade => ∃ i ∈ sent, Entitled cfg t i
  | .assertFailed => ∃ i ∈ sent, Entitled cfg t i
  | _ => True

instance (cfg : HttpConfig) (sent : Option Nat) (t : List HttpEffect) :
    DecidablePred (HttpEffect.Lawful cfg sent t) := fun e => by
  cases e <;> unfold HttpEffect.Lawful <;> infer_instance

/-- The response libuv calls back next. -/
def HttpSession.sent (s : HttpSession ρ) : Option Nat := s.writes.head?.map PendingWrite.resp

/-- What this step adds to the trace is lawful. -/
def SwitchesLawfully (cfg : HttpConfig) (P : HttpParser ρ) (s : HttpSession ρ) (l : HttpLabel) :
    Prop :=
  ∀ s' ∈ (httpMachine cfg P).step s l,
    Grows (HttpEffect.Lawful cfg s.sent s'.trace) s.trace s'.trace

instance (s : HttpSession ρ) (l : HttpLabel) : Decidable (SwitchesLawfully cfg P s l) := by
  unfold SwitchesLawfully
  infer_instance

/-! ### The condition -/

/-- User code has set response `i` to a 101. -/
def HttpSession.SetTo101 (s : HttpSession ρ) (i : Nat) : Prop :=
  (s.answers[i]?).map (·.resp.status) = some .switchingProtocols

instance (s : HttpSession ρ) (i : Nat) : Decidable (s.SetTo101 i) := by
  unfold HttpSession.SetTo101
  infer_instance

/-- The response that is written where a file reader's close request ends well. -/
def HttpSession.fileRead (s : HttpSession ρ) (j : Nat) (result : Int) : Option Nat :=
  if s.stack = [] ∧ 0 ≤ result then
    ((s.readers[j]?).filter fun r => r.reader.pending = some .close).map RespReader.resp
  else none

/-- The response user code sends in this step, itself or through a file reader. -/
def HttpSession.userSends (s : HttpSession ρ) : HttpLabel → Option Nat
  | .call i (.sendStr _) => if s.AtUser ∧ .handler i ∈ s.trace then some i else none
  | .call i (.sendJson _) => if s.AtUser ∧ .handler i ∈ s.trace then some i else none
  | .file j result _ => s.fileRead j result
  | _ => none

/-- A request for which the parser sets `upgrade` is a handshake on a server that takes upgrades,
    and user code sends a 101 only for such. -/
def OnlyHandshakes (cfg : HttpConfig) (s : HttpSession ρ) (l : HttpLabel) : Prop :=
  (l = .run → s.stack.head? = some (.event (.messageComplete true)) →
      cfg.upgradeCallback = true ∧ IsHandshake s.req.seen) ∧
    ∀ i ∈ s.userSends l, s.SetTo101 i → Entitled cfg s.trace i

/-! ### What is written -/

theorem is101_buffers (r : HttpResp) (headerOrder : HeaderMap → List (Bytes × Bytes))
    (reader : Option FileReader) :
    Is101 (r.buffers headerOrder reader) ↔ r.status = .switchingProtocols := by
  -- the buffers begin with the status line, which is longer than what is looked for
  have hbegin : ∃ rest, (r.buffers headerOrder reader).flatten =
      (str "HTTP/1.1 " ++ httpStatusStr r.status) ++ rest := by
    unfold HttpResp.buffers HttpResp.head
    split
    · exact ⟨_, by simp only [List.flatten_cons, List.append_assoc]; rfl⟩
    · exact ⟨_, by simp only [List.flatten_cons, List.append_assoc]; rfl⟩
  obtain ⟨rest, hrest⟩ := hbegin
  have hstatus : ∀ status : HttpStatus,
      (str "HTTP/1.1 101 ").length ≤ (str "HTTP/1.1 " ++ httpStatusStr status).length ∧
        (str "HTTP/1.1 101 " <+: str "HTTP/1.1 " ++ httpStatusStr status ↔
          status = .switchingProtocols) := by
    intro status
    cases status <;> decide
  obtain ⟨hlen, hiff⟩ := hstatus r.status
  rw [Is101, hrest, ← hiff]
  constructor
  · exact fun h => List.prefix_of_prefix_length_le h (List.prefix_append _ _) hlen
  · exact fun h => h.trans (List.prefix_append _ _)

/-- The effect is neither a write nor an upgrade, nor is a request handled. -/
def HttpEffect.isQuiet : HttpEffect → Bool
  | .uvWrite _ _ _ | .onUpgrade | .assertFailed | .handleRequest _ _ _ _ => false
  | _ => true

theorem HttpEffect.lawful_of_isQuiet {sent : Option Nat} {t : List HttpEffect} {e : HttpEffect}
    (h : e.isQuiet = true) : e.Lawful cfg sent t := by
  cases e with
  | uvWrite ctx i buffers => simp [HttpEffect.isQuiet] at h
  | onUpgrade => simp [HttpEffect.isQuiet] at h
  | assertFailed => simp [HttpEffect.isQuiet] at h
  | _ => trivial

/-- No request is handled. -/
def HttpEffect.NoRequest (e : HttpEffect) : Prop :=
  ∀ i seen keep upgrade, e ≠ .handleRequest i seen keep upgrade

theorem HttpEffect.noRequest_of_isQuiet {e : HttpEffect} (h : e.isQuiet = true) :
    e.NoRequest := by
  rintro i seen keep upgrade rfl
  simp [HttpEffect.isQuiet] at h

theorem HttpEffect.noRequest_of_isResponse {e : HttpEffect} (h : e.isResponse = true) :
    e.NoRequest := by
  rintro i seen keep upgrade rfl
  simp [HttpEffect.isResponse] at h

/-- As long as no request is handled, nobody gets entitled. -/
theorem entitled_grows {t u : List HttpEffect} (h : Grows HttpEffect.NoRequest t u) (i : Nat) :
    Entitled cfg u i ↔ Entitled cfg t i := by
  obtain ⟨es, rfl, hes⟩ := h
  unfold Entitled
  rw [has_append_of_forall]
  intro e he
  cases e with
  | handleRequest j seen keep upgrade => exact absurd rfl (hes _ he j seen keep upgrade)
  | _ => rfl

theorem Entitled.append {t : List HttpEffect} {i : Nat} (h : Entitled cfg t i)
    (es : List HttpEffect) : Entitled cfg (t ++ es) i :=
  ⟨h.1, h.2.mono (List.subset_append_left t es)⟩

namespace HttpSession

/-- A response that is sent is lawful if it is no 101 or its request is entitled. -/
theorem lawful_send (s : HttpSession ρ) (i : Nat) (sent : Option Nat) (t : List HttpEffect) :
    Grows (HttpEffect.Lawful cfg sent t) s.trace (s.send cfg i).trace ↔
      (s.SetTo101 i → Entitled cfg t i) := by
  unfold send SetTo101
  split
  · rename_i hnone
    simp [hnone, Grows.refl]
  · rename_i a ha
    rw [emit_trace, grows_append_iff, ha, Option.map_some, Option.some.injEq,
      ← is101_buffers a.resp cfg.headerOrder (s.readerOf a.resp)]
    simp [HttpEffect.Lawful]

theorem setTo101_onResp (s : HttpSession ρ) (i : Nat) (f : HttpResp → HttpResp) :
    (s.onResp i f).SetTo101 i ↔
      (s.answers[i]?).map (fun a => (f a.resp).status) = some .switchingProtocols := by
  unfold SetTo101 onResp
  simp

/-- A response with another status is not set to a 101. -/
theorem not_setTo101_onResp (s : HttpSession ρ) (i : Nat) {f : HttpResp → HttpResp}
    (hf : ∀ r, (f r).status ≠ .switchingProtocols) : ¬ (s.onResp i f).SetTo101 i := by
  rw [setTo101_onResp]
  intro h
  obtain ⟨a, -, ha⟩ := Option.map_eq_some_iff.mp h
  exact hf a.resp ha

/-- What is written when user code sends the response, having changed anything but its status. -/
theorem lawful_onResp_send (s : HttpSession ρ) (i : Nat) {f : HttpResp → HttpResp}
    (hf : ∀ r, (f r).status = r.status) (sent : Option Nat) (t : List HttpEffect) :
    Grows (HttpEffect.Lawful cfg sent t) s.trace ((s.onResp i f).send cfg i).trace ↔
      (s.SetTo101 i → Entitled cfg t i) := by
  have hset : (s.onResp i f).SetTo101 i ↔ s.SetTo101 i := by
    rw [setTo101_onResp]
    simp only [hf]
    exact Iff.rfl
  rw [← hset]
  exact (s.onResp i f).lawful_send i sent t

/-! ### The invariant -/

end HttpSession

/-- The requests are numbered, and only those entitled to it have a response that upgrades. -/
structure UpgradeInv (cfg : HttpConfig) (s : HttpSession ρ) : Prop where
  numbered : ∀ i seen keep upgrade, .handleRequest i seen keep upgrade ∈ s.trace →
    i < s.answers.length
  entitled : ∀ i x, (s.answers.map Answer.asked)[i]? = some x → x.2.2 = .upgrade →
    Entitled cfg s.trace i

theorem UpgradeInv.accepted (method : HttpMethod) : UpgradeInv cfg (.accepted P method) := by
  refine ⟨fun i seen keep upgrade h => ?_, fun i x h => ?_⟩
  · simp [HttpSession.accepted] at h
  · simp [HttpSession.accepted] at h

/-- Where nothing is asked and no request is handled, the invariant is kept. -/
theorem UpgradeInv.of_grows {s s' : HttpSession ρ} (h : UpgradeInv cfg s)
    (hasked : s'.answers.map Answer.asked = s.answers.map Answer.asked)
    (hg : Grows HttpEffect.NoRequest s.trace s'.trace) : UpgradeInv cfg s' := by
  have hlen : s'.answers.length = s.answers.length := by
    simpa using congrArg List.length hasked
  refine ⟨fun i seen keep upgrade hmem => ?_, fun i x hx hup => ?_⟩
  · rw [hlen]
    refine h.numbered i seen keep upgrade ((hg.mem_iff fun hne => ?_).mp hmem)
    exact hne i seen keep upgrade rfl
  · rw [entitled_grows hg]
    exact h.entitled i x (hasked ▸ hx) hup

theorem UpgradeInv.responding {s s' : HttpSession ρ} (h : UpgradeInv cfg s)
    (hr : s.Responding s') : UpgradeInv cfg s' :=
  h.of_grows hr.asked (hr.trace.mono fun _ => HttpEffect.noRequest_of_isResponse)

theorem UpgradeInv.handleRequest {s : HttpSession ρ} (h : UpgradeInv cfg s) {upgrade : Bool}
    (hup : upgrade = true → cfg.upgradeCallback = true ∧ IsHandshake s.req.seen) :
    UpgradeInv cfg (s.handleRequest cfg upgrade) := by
  have hspec := s.handleRequest_spec cfg upgrade
  have hlen : (s.handleRequest cfg upgrade).answers.length = s.answers.length + 1 := by
    simpa using congrArg List.length hspec.asked
  -- the trace is that of before, the new request, and what is neither
  obtain ⟨es, htrace, hes⟩ : ∃ es, (s.handleRequest cfg upgrade).trace = s.trace ++
      (.handleRequest s.answers.length s.req.seen (HttpSession.needKeepConnection s.req.req)
        upgrade :: es) ∧ ∀ e ∈ es, e.NoRequest := by
    rcases hspec.answered with ⟨-, htrace⟩ | ⟨-, ctx, buffers, htrace⟩
    · exact ⟨_, htrace, by simp [HttpEffect.NoRequest]⟩
    · exact ⟨_, htrace, by simp [HttpEffect.NoRequest]⟩
  refine ⟨fun i seen keep upgrade' hmem => ?_, fun i x hx hsent => ?_⟩
  · rw [hlen]
    rw [htrace, List.mem_append, List.mem_cons] at hmem
    rcases hmem with hmem | heq | hmem
    · exact Nat.lt_succ_of_lt (h.numbered i seen keep upgrade' hmem)
    · cases heq
      exact Nat.lt_succ_self _
    · exact absurd rfl (hes _ hmem i seen keep upgrade')
  · rw [hspec.asked, List.getElem?_append] at hx
    rw [htrace]
    split at hx
    · exact (h.entitled i x hx hsent).append _
    · -- the new request: its response upgrades only where the parser has set `upgrade`
      rename_i hge
      have hi : i = s.answers.length := by
        have := (List.getElem?_eq_some_iff.mp hx).1
        simp only [List.length_map, List.length_singleton] at this hge
        omega
      subst hi
      obtain rfl : (HttpSession.needKeepConnection s.req.req, upgrade,
          HttpSession.toldBy upgrade) = x := by simpa using hx
      cases upgrade with
      | false => cases hsent
      | true =>
        obtain ⟨hcb, hshake⟩ := hup rfl
        refine ⟨hcb, _, List.mem_append_right _ List.mem_cons_self, ?_⟩
        simp [HttpEffect.handshakes, hshake]

/-- What the end of a write adds to the trace: nothing but an upgrade is of interest. -/
theorem HttpSession.onWriteEnd_grows {Q : HttpEffect → Prop} (s : HttpSession ρ) (w : PendingWrite)
    (a : Answer) (hquiet : ∀ e, HttpEffect.isQuiet e = true → Q e)
    (hup : a.resp.onSent = .upgrade → Q .onUpgrade ∧ Q .assertFailed) :
    Grows Q s.trace (s.onWriteEnd cfg w a).trace := by
  have hrel : Grows Q s.trace (s.released a).trace := by
    unfold HttpSession.released
    split
    · refine .append _ fun e he => ?_
      obtain ⟨j, -, rfl⟩ := List.mem_map.mp he
      exact hquiet _ rfl
    · exact .refl _ _
  apply hrel.trans
  rw [HttpSession.onWriteEnd_eq]
  generalize s.released a = t
  have hctx : ∀ u : HttpSession ρ, Grows Q t.trace u.trace →
      Grows Q t.trace (u.emit [.deleteCtx w.ctx]).trace := fun u hu =>
    hu.trans (.append _ fun e he => hquiet e (by rw [List.mem_singleton.mp he]; rfl))
  apply hctx
  split
  · cases hsent : a.resp.onSent with
    | session =>
      dsimp only
      split
      · refine .append _ fun e he => hquiet e ?_
        rw [List.mem_singleton.mp he]
        rfl
      · rw [HttpSession.closeSession_trace]
        refine .append _ fun e he => hquiet e ?_
        revert he e
        simp [HttpEffect.isQuiet]
    | upgrade =>
      obtain ⟨hon, hassert⟩ := hup hsent
      dsimp only
      unfold HttpSession.upgradeSession
      split
      · rw [HttpSession.emit_trace, HttpSession.closeSession_trace, List.append_assoc]
        have hstop : Q .uvReadStop := hquiet _ rfl
        have hremove : Q .removeSession := hquiet _ rfl
        exact .append _ (by simp [hon, hstop, hremove])
      · refine .append _ fun e he => ?_
        rw [List.mem_singleton.mp he]
        exact hassert
  · exact .refl _ _

@[simp] theorem HttpSession.onWriteEnd_answers (s : HttpSession ρ) (w : PendingWrite)
    (a : Answer) : (s.onWriteEnd cfg w a).answers = s.answers := by
  rw [HttpSession.onWriteEnd_eq]
  have hrel : (s.released a).answers = s.answers := by
    unfold HttpSession.released
    split <;> rfl
  rw [← hrel]
  generalize s.released a = t
  split
  · split
    · split <;> rfl
    · unfold HttpSession.upgradeSession
      split <;> rfl
  · rfl

/-- What the other events of libuv add. -/
theorem HttpSession.recvCb_grows {Q : HttpEffect → Prop} (s : HttpSession ρ) (base : Bool)
    (data : Bytes) (hquiet : ∀ e, HttpEffect.isQuiet e = true → Q e) :
    Grows Q s.trace (s.recvCb P base data).trace := by
  rw [(s.recvCb_spec (P := P) base data).trace]
  refine .append _ fun e he => hquiet e ?_
  revert he e
  split <;> simp [HttpEffect.isQuiet]

theorem HttpSession.recvErr_grows {Q : HttpEffect → Prop} (s : HttpSession ρ)
    (hquiet : ∀ e, HttpEffect.isQuiet e = true → Q e) : Grows Q s.trace s.recvErr.trace := by
  have hstop : Grows Q s.trace s.stopKeepAliveTimer.trace :=
    .append _ fun e he => hquiet e (by rw [List.mem_singleton.mp he]; rfl)
  apply hstop.trans
  unfold HttpSession.recvErr
  rw [HttpSession.closeSession_trace]
  refine .append _ fun e he => hquiet e ?_
  revert he e
  simp [HttpEffect.isQuiet]

theorem HttpSession.keepAliveTimerCb_grows {Q : HttpEffect → Prop} (s : HttpSession ρ)
    (hquiet : ∀ e, HttpEffect.isQuiet e = true → Q e) :
    Grows Q s.trace s.keepAliveTimerCb.trace := by
  unfold HttpSession.keepAliveTimerCb
  dsimp only
  split
  · rw [HttpSession.closeSession_trace]
    refine .append _ fun e he => hquiet e ?_
    revert he e
    simp [HttpEffect.isQuiet]
  · exact .refl _ _

/-- **Steps that meet the condition keep the invariant.** -/
theorem UpgradeInv.step {s s' : HttpSession ρ} {l : HttpLabel} (h : UpgradeInv cfg s)
    (hs : HttpStep cfg P s l s') (honly : OnlyHandshakes cfg s l) : UpgradeInv cfg s' := by
  have hquiet : ∀ e, HttpEffect.isQuiet e = true → e.NoRequest := fun _ =>
    HttpEffect.noRequest_of_isQuiet
  cases hs with
  | call c hu hi => exact h.responding (.call s _ c)
  | setReq req hu => exact h.of_grows rfl (.refl _ _)
  | ret hst => exact h.of_grows rfl (.refl _ _)
  | @run e st hst =>
    have hpop : UpgradeInv cfg { s with stack := st } := h.of_grows rfl (.refl _ _)
    cases e with
    | messageComplete upgrade =>
      refine hpop.handleRequest fun hup => honly.1 rfl ?_
      rw [hst, hup]
      rfl
    | _ => exact hpop.of_grows rfl (.refl _ _)
  | recv base data hst hr =>
    refine h.of_grows ?_ (s.recvCb_grows base data hquiet)
    rw [(s.recvCb_spec (P := P) base data).answers]
  | recvErr hst hr => exact h.of_grows rfl (s.recvErr_grows hquiet)
  | timer hst ht =>
    refine h.of_grows ?_ (s.keepAliveTimerCb_grows hquiet)
    unfold HttpSession.keepAliveTimerCb
    dsimp only
    split <;> rfl
  | @written w ws a status hst hw ha =>
    have hpop : UpgradeInv cfg { s with writes := ws } := h.of_grows rfl (.refl _ _)
    refine hpop.of_grows ?_ (HttpSession.onWriteEnd_grows _ w a hquiet fun _ => ?_)
    · rw [HttpSession.onWriteEnd_answers]
    · simp [HttpEffect.NoRequest]
  | file hst hr he => exact h.responding (.fsActions cfg _ _ s _ _)

/-! ### Lawful steps -/

/-- Where neither a message is complete nor user code sends, the condition asks for nothing. -/
theorem onlyHandshakes_of_none {s : HttpSession ρ} {l : HttpLabel} (hrun : l ≠ .run)
    (hsend : s.userSends l = none) : OnlyHandshakes cfg s l := by
  refine ⟨fun h => absurd h hrun, fun i hi => ?_⟩
  rw [hsend] at hi
  cases hi

/-- Where user code sends response `i`, the condition asks for the title of its request. -/
theorem onlyHandshakes_iff_of_some {s : HttpSession ρ} {l : HttpLabel} {i : Nat} (hrun : l ≠ .run)
    (hsend : s.userSends l = some i) :
    OnlyHandshakes cfg s l ↔ (s.SetTo101 i → Entitled cfg s.trace i) := by
  unfold OnlyHandshakes
  rw [hsend]
  constructor
  · exact fun h => h.2 i rfl
  · rintro h
    refine ⟨fun heq => absurd heq hrun, ?_⟩
    rintro _ ⟨⟩
    exact h

/-- A call of user code. -/
theorem HttpSession.lawful_call {s : HttpSession ρ} {i : Nat} (c : RespCall) (hu : s.AtUser)
    (hi : .handler i ∈ s.trace) (sent : Option Nat) :
    Grows (HttpEffect.Lawful cfg sent (s.call cfg i c).trace) s.trace (s.call cfg i c).trace ↔
      OnlyHandshakes cfg s (.call i c) := by
  have hrun : HttpLabel.call i c ≠ .run := fun h => by cases h
  have hentitled : Entitled cfg (s.call cfg i c).trace i ↔ Entitled cfg s.trace i :=
    entitled_grows ((Responding.call s i c).trace.mono fun _ =>
      HttpEffect.noRequest_of_isResponse) i
  cases c with
  | sendStr body =>
    rw [onlyHandshakes_iff_of_some hrun (if_pos ⟨hu, hi⟩), ← hentitled]
    exact s.lawful_onResp_send i (f := (·.setStr body)) (fun _ => rfl) sent _
  | sendJson text =>
    rw [onlyHandshakes_iff_of_some hrun (if_pos ⟨hu, hi⟩), ← hentitled]
    exact s.lawful_onResp_send i (f := (·.setJson text)) (fun _ => rfl) sent _
  | sendFile path =>
    refine iff_of_true (.append _ fun e he => HttpEffect.lawful_of_isQuiet ?_)
      (onlyHandshakes_of_none hrun rfl)
    revert he e
    simp [FileReader.fileRead, HttpEffect.isQuiet]
  | _ => exact iff_of_true (.refl _ _) (onlyHandshakes_of_none hrun rfl)

/-- Where a request is answered at once, its response is lawful if it is no 101 or the request is
    entitled. -/
theorem HttpSession.lawful_begun_send (s : HttpSession ρ) (upgrade : Bool) (req : HttpReq)
    (f : HttpResp → HttpResp) (sent : Option Nat) (t : List HttpEffect) :
    Grows (HttpEffect.Lawful cfg sent t) s.trace ((({ s.begun upgrade with
        req := { s.req with req := req } }).onResp s.answers.length f).send cfg
          s.answers.length).trace ↔
      ((f .init).status = .switchingProtocols → Entitled cfg t s.answers.length) := by
  have hanswers := s.answers_onResp_begun upgrade f
  generalize hu : ({ s.begun upgrade with req := { s.req with req := req } }).onResp
    s.answers.length f = u
  have htrace : Grows (HttpEffect.Lawful cfg sent t) s.trace u.trace := by
    rw [← hu]
    refine .append _ fun e he => ?_
    rw [List.mem_singleton.mp he]
    trivial
  have hset : u.SetTo101 s.answers.length ↔ (f .init).status = .switchingProtocols := by
    have hget : u.answers[s.answers.length]? =
        some ⟨needKeepConnection s.req.req, upgrade, f .init⟩ := by
      rw [← hu]
      show ((s.begun upgrade).onResp s.answers.length f).answers[s.answers.length]? = _
      rw [hanswers, List.getElem?_concat_length]
    rw [SetTo101, hget, Option.map_some, Option.some.injEq]
  obtain ⟨es, hes, -⟩ := (Responding.send cfg u s.answers.length).trace
  rw [htrace.iff_of_prefix ⟨es, hes.symm⟩, lawful_send, hset]

/-- A request is handled: where it asks for an upgrade, the response is a 101. -/
theorem HttpSession.lawful_handleRequest {s : HttpSession ρ} (h : UpgradeInv cfg s)
    (upgrade : Bool) (sent : Option Nat) :
    Grows (HttpEffect.Lawful cfg sent (s.handleRequest cfg upgrade).trace) s.trace
        (s.handleRequest cfg upgrade).trace ↔
      (upgrade = true → cfg.upgradeCallback = true ∧ IsHandshake s.req.seen) := by
  cases upgrade with
  | true =>
    have hentitled : Entitled cfg (s.handleRequest cfg true).trace s.answers.length ↔
        cfg.upgradeCallback = true ∧ IsHandshake s.req.seen := by
      -- no earlier request has this number, so it is the one handled now that counts
      have hnew : ¬ Has (HttpEffect.handshakes s.answers.length) s.trace := by
        rintro ⟨e, he, hshake⟩
        cases e with
        | handleRequest i seen keep up =>
          obtain ⟨rfl, -⟩ : i = s.answers.length ∧ _ := by
            simpa [HttpEffect.handshakes] using hshake
          exact Nat.lt_irrefl _ (h.numbered _ seen keep up he)
        | _ => simp [HttpEffect.handshakes] at hshake
      unfold Entitled
      apply and_congr_right
      intro _
      rcases (s.handleRequest_spec cfg true).answered with ⟨-, htrace⟩ | ⟨-, ctx, buffers, htrace⟩
      · rw [htrace, has_append, or_iff_right hnew]
        simp [Has, HttpEffect.handshakes]
      · rw [htrace, has_append, or_iff_right hnew]
        simp [Has, HttpEffect.handshakes]
    rw [← hentitled]
    refine (s.lawful_begun_send true _ (·.setUpgrade _) sent _).trans ?_
    exact ⟨fun hlawful _ => hlawful rfl, fun hent _ => hent rfl⟩
  | false =>
    -- whoever is entitled: neither a handler's call nor a 404 is unlawful
    have hlawful : ∀ t, Grows (HttpEffect.Lawful cfg sent t) s.trace
        (s.handleRequest cfg false).trace := by
      intro t
      rw [handleRequest_eq, if_neg Bool.false_ne_true]
      unfold dispatchRequest
      split
      · refine ⟨[_, _], List.append_assoc _ _ _, ?_⟩
        simp [HttpEffect.Lawful]
      · refine (s.lawful_begun_send false _ HttpResp.setNotFound sent t).mpr ?_
        exact fun h404 => absurd h404 (by decide)
    exact iff_of_true (hlawful _) fun hfalse => absurd hfalse Bool.false_ne_true

/-- A file that cannot be read: the status is set, so that what is sent is no 101. -/
theorem HttpSession.lawful_fsAction_onError (cfg : HttpConfig) (j i : Nat) (s : HttpSession ρ)
    (sent : Option Nat) (t : List HttpEffect) :
    Grows (HttpEffect.Lawful cfg sent t) s.trace (fsAction cfg j i s .onError).trace := by
  have hfs : Grows (HttpEffect.Lawful cfg sent t) s.trace (s.emit [.fs j .onError]).trace :=
    .append _ (by simp [HttpEffect.Lawful])
  have hsend : Grows (HttpEffect.Lawful cfg sent t) (s.emit [.fs j .onError]).trace
      (((s.emit [.fs j .onError]).onResp i HttpResp.setErr).send cfg i).trace := by
    refine (lawful_send _ i sent t).mpr fun h101 => ?_
    refine absurd h101 (not_setTo101_onResp _ i fun r => ?_)
    simp [HttpResp.setErr, HttpResp.setStr, HttpResp.setStatus, HttpResp.setHeader]
  exact (hfs.trans hsend).trans (.append _ (by simp [HttpEffect.Lawful]))

theorem HttpSession.not_setTo101_fsAction (cfg : HttpConfig) (j i : Nat) (s : HttpSession ρ) :
    ¬ (fsAction cfg j i s .onError).SetTo101 i := by
  have hanswers : (fsAction cfg j i s .onError).answers =
      ((s.emit [.fs j .onError]).onResp i HttpResp.setErr).answers := send_answers _ i
  unfold SetTo101
  rw [hanswers]
  refine not_setTo101_onResp (s.emit [.fs j .onError]) i fun r => ?_
  simp [HttpResp.setErr, HttpResp.setStr, HttpResp.setStatus, HttpResp.setHeader]

theorem HttpSession.lawful_fsAction_onClose (cfg : HttpConfig) (j i : Nat) (s : HttpSession ρ)
    (sent : Option Nat) (t : List HttpEffect) :
    Grows (HttpEffect.Lawful cfg sent t) s.trace (fsAction cfg j i s .onClose).trace ↔
      (s.SetTo101 i → Entitled cfg t i) := by
  have hfs : Grows (HttpEffect.Lawful cfg sent t) s.trace (s.emit [.fs j .onClose]).trace :=
    .append _ (by simp [HttpEffect.Lawful])
  obtain ⟨es, hes, -⟩ := (Responding.send cfg (s.emit [.fs j .onClose]) i).trace
  exact (hfs.iff_of_prefix ⟨es, hes.symm⟩).trans ((s.emit [.fs j .onClose]).lawful_send i sent t)

/-- A file reader's actions: of the responses they send only that of a file read well can be a
    101. -/
theorem HttpSession.lawful_file {s : HttpSession ρ} {j : Nat} {result : Int} {data : Bytes}
    {r : RespReader} {r' : FileReader} {as : List FsAction} (hst : s.stack = [])
    (hr : s.readers[j]? = some r) (he : r.reader.event result data = some (r', as))
    (sent : Option Nat) :
    let s' := as.foldl (fsAction cfg j r.resp)
      { s with readers := s.readers.set j { r with reader := r' } }
    Grows (HttpEffect.Lawful cfg sent s'.trace) s.trace s'.trace ↔
      OnlyHandshakes cfg s (.file j result data) := by
  intro s'
  have hrun : HttpLabel.file j result data ≠ .run := fun h => by cases h
  have hentitled : Entitled cfg s'.trace r.resp ↔ Entitled cfg s.trace r.resp :=
    entitled_grows ((Responding.fsActions cfg j r.resp s _ as).trace.mono fun _ =>
      HttpEffect.noRequest_of_isResponse) r.resp
  have hfile : s.fileRead j result = if 0 ≤ result ∧ r.reader.pending = some .close then
      some r.resp else none := by
    by_cases hok : 0 ≤ result <;> by_cases hp : r.reader.pending = some .close <;>
      simp [fileRead, hst, hr, hok, hp, Option.filter]
  rcases r.reader.event_cases he with ⟨hp, -, ⟨hok, rfl⟩ | ⟨hfail, rfl⟩⟩ | ⟨hp, hquiet⟩
  · -- the file has been read: its response is sent as it is
    rw [onlyHandshakes_iff_of_some hrun (hfile.trans (if_pos ⟨hok, hp⟩)), ← hentitled]
    exact lawful_fsAction_onClose cfg j r.resp _ sent _
  · refine iff_of_true ?_ (onlyHandshakes_of_none hrun (hfile.trans (if_neg ?_)))
    · have herror := lawful_fsAction_onError cfg j r.resp
        { s with readers := s.readers.set j { r with reader := r' } } sent s'.trace
      refine herror.trans ((lawful_fsAction_onClose cfg j r.resp _ sent _).mpr fun h101 => ?_)
      exact absurd h101 (not_setTo101_fsAction cfg j r.resp _)
    · exact fun hboth => absurd hboth.1 (Int.not_le.mpr hfail)
  · refine iff_of_true ?_ (onlyHandshakes_of_none hrun (hfile.trans (if_neg fun h => hp h.2)))
    rcases hquiet with ⟨-, rfl⟩ | ⟨-, a, rfl, ha⟩
    · exact lawful_fsAction_onError cfg j r.resp _ sent _
    · -- the next request of the reader
      have htrace : s'.trace = s.trace ++ [.fs j a] := by
        cases a with
        | onError => simp [FsAction.isCallback] at ha
        | onClose => simp [FsAction.isCallback] at ha
        | _ => rfl
      rw [htrace]
      exact .append _ (by simp [HttpEffect.Lawful])

/-- **A step is lawful if and only if it meets the condition.** -/
theorem UpgradeInv.lawful_iff {s s' : HttpSession ρ} {l : HttpLabel} (h : UpgradeInv cfg s)
    (hs : HttpStep cfg P s l s') :
    Grows (HttpEffect.Lawful cfg s.sent s'.trace) s.trace s'.trace ↔ OnlyHandshakes cfg s l := by
  have hquiet : ∀ e, HttpEffect.isQuiet e = true → e.Lawful cfg s.sent s'.trace := fun _ =>
    HttpEffect.lawful_of_isQuiet
  cases hs with
  | call c hu hi => exact s.lawful_call c hu hi s.sent
  | setReq req hu =>
    exact iff_of_true (.refl _ _) (onlyHandshakes_of_none (fun h => by cases h) rfl)
  | ret hst => exact iff_of_true (.refl _ _) (onlyHandshakes_of_none (fun h => by cases h) rfl)
  | @run e st hst =>
    have hpop : UpgradeInv cfg { s with stack := st } := h.of_grows rfl (.refl _ _)
    cases e with
    | messageComplete upgrade =>
      refine (HttpSession.lawful_handleRequest hpop upgrade s.sent).trans ?_
      unfold OnlyHandshakes
      rw [hst]
      cases upgrade with
      | true => simp [HttpSession.userSends]
      | false => simp [HttpSession.userSends]
    | _ =>
      refine iff_of_true (.refl _ _) ⟨fun _ htop => ?_, fun i hi => by cases hi⟩
      rw [hst] at htop
      cases htop
  | recv base data hst hr =>
    refine iff_of_true (s.recvCb_grows base data hquiet) ?_
    exact onlyHandshakes_of_none (fun h => by cases h) rfl
  | recvErr hst hr =>
    refine iff_of_true (s.recvErr_grows hquiet) ?_
    exact onlyHandshakes_of_none (fun h => by cases h) rfl
  | timer hst ht =>
    refine iff_of_true (s.keepAliveTimerCb_grows hquiet) ?_
    exact onlyHandshakes_of_none (fun h => by cases h) rfl
  | @written w ws a status hst hw ha =>
    refine iff_of_true (HttpSession.onWriteEnd_grows _ w a hquiet fun hup => ?_) ?_
    · -- the response that has been sent upgrades, so its request is entitled
      have hent : Entitled cfg s.trace w.resp :=
        h.entitled w.resp a.asked (by rw [List.getElem?_map, ha]; rfl) hup
      have hall : Grows (fun _ => True) s.trace
          ({ s with writes := ws }.onWriteEnd cfg w a).trace :=
        HttpSession.onWriteEnd_grows { s with writes := ws } w a (fun _ _ => trivial)
          fun _ => ⟨trivial, trivial⟩
      obtain ⟨es, hes, -⟩ := hall
      have hsent : w.resp ∈ s.sent := by
        rw [HttpSession.sent, hw]
        rfl
      have hlawful : ∃ i ∈ s.sent,
          Entitled cfg ({ s with writes := ws }.onWriteEnd cfg w a).trace i :=
        ⟨w.resp, hsent, hes ▸ hent.append es⟩
      exact ⟨hlawful, hlawful⟩
    · exact onlyHandshakes_of_none (fun h => by cases h) rfl
  | file hst hr he => exact s.lawful_file hst hr he s.sent

/-- Where no step is possible the condition asks for nothing. -/
theorem onlyHandshakes_of_step_eq_none {s : HttpSession ρ} {l : HttpLabel}
    (h : (httpMachine cfg P).step s l = none) : OnlyHandshakes cfg s l := by
  change s.step cfg P l = none at h
  cases l with
  | run =>
    refine ⟨fun _ htop => ?_, fun i hi => by cases hi⟩
    obtain ⟨st, hst⟩ := List.head?_eq_some_iff.mp htop
    simp [HttpSession.step, hst] at h
  | call i c =>
    refine onlyHandshakes_of_none (fun h => by cases h) ?_
    have hcond : ¬ (s.AtUser ∧ .handler i ∈ s.trace) := by simpa [HttpSession.step] using h
    cases c with
    | sendStr body => exact if_neg hcond
    | sendJson text => exact if_neg hcond
    | _ => rfl
  | file j result data =>
    refine onlyHandshakes_of_none (fun h => by cases h) ?_
    show s.fileRead j result = none
    unfold HttpSession.fileRead
    split
    · rename_i hcond
      simp only [HttpSession.step, if_pos hcond.1] at h
      split at h
      · simp [*]
      · -- a reader whose close request is in flight takes any result
        rename_i r hr
        split at h
        · rename_i hevent
          have hp : r.reader.pending ≠ some .close := by
            intro hp
            simp [FileReader.event, hp] at hevent
          simp [hr, Option.filter, hp]
        · cases h
    · rfl
  | _ => exact onlyHandshakes_of_none (fun h => by cases h) rfl

/-- **101 responses.**  In every run of a session, with any reads, handlers, file results, write
    completions and timer firings in any order, a 101 response is written and `upgradeSession`
    is called only for WebSocket opening handshakes, and only on a server that takes upgrades,
    if and only if every request for which the parser sets `upgrade` is such a handshake on such
    a server, and user code sends a response that it has set to a 101 only for such. -/
theorem switches_lawfully_iff (cfg : HttpConfig) (P : HttpParser ρ) (method : HttpMethod)
    (ls : List HttpLabel) :
    (httpMachine cfg P).AllSteps (SwitchesLawfully cfg P) (.accepted P method) ls ↔
      (httpMachine cfg P).AllSteps (OnlyHandshakes cfg) (.accepted P method) ls := by
  refine ((httpMachine cfg P).allSteps_congr_of (I := UpgradeInv cfg) ?_ ?_ (.accepted method)
    ls).symm
  · exact fun s l s' hI hP hs => hI.step (HttpSession.step_cases hs) hP
  · intro s l hI
    constructor
    · intro honly s' hs'
      exact (hI.lawful_iff (HttpSession.step_cases hs')).mpr honly
    · intro hlawful
      cases hs : (httpMachine cfg P).step s l with
      | none => exact onlyHandshakes_of_step_eq_none hs
      | some s' => exact (hI.lawful_iff (HttpSession.step_cases hs)).mp (hlawful s' hs)

/-- A server without routes that takes no upgrades, on requests without a key. -/
def plainConfig : HttpConfig :=
  { bareConfig with
    headerOrder := fun headers =>
      [str "Content-Type", str "sec-websocket-accept", str "connection", str "upgrade"].filterMap
        fun key => (headers.lookup key).map (key, ·)
    acceptKey := fun _ => str "Kfh9QIsMVZcl6xEPYxPHzW8SZ8w=" }

/-- A CONNECT request. -/
def connectRequest : Bytes := str "CONNECT a:1 HTTP/1.1\r\n\r\n"

/-- The parser on that request. -/
def connectParser : HttpParser Bytes :=
  tableParser
    [(([], connectRequest),
        [.messageBegin, .url (str "a:1"), .headersComplete .connect 1 1, .messageComplete true])]

/-- The request is read and handled, and the write of its response completes. -/
def connectRun : List HttpLabel :=
  [.recv true connectRequest, .run, .run, .run, .run, .written 0]

set_option maxRecDepth 4000 in
/-- A CONNECT request gets a 101, and the assertion in `upgradeSession` fails. -/
theorem connectRun_asserts :
    ((httpMachine plainConfig connectParser).exec (.accepted connectParser .get) connectRun).map
        (fun s => decide (HttpEffect.assertFailed ∈ s.trace)) = some true ∧
      ¬ (httpMachine plainConfig connectParser).AllSteps
        (SwitchesLawfully plainConfig connectParser) (.accepted connectParser .get)
        connectRun := by
  decide

end MyWebSocket
