import MyWebSocket.Http.Upgrade

namespace MyWebSocket

open Log

/-!
# The keep-alive timer

The timer is a member of the session, and `closeSession` does not stop it.  A read error stops
it first, the timer itself has run when it closes, and the callback of `initResp` only closes
where the keep-alive flag is not set; the callback of `upgradeToWs` asks for nothing.

* `idles` — whether the history of a session has left its timer running;
* `TimerInv` — the invariant: a running timer is the one `idles` speaks of, its flag is set, and a
  removed session has none;
* `timer_off_iff` — no session is removed with its timer running, if and only if no upgrade is
  completed on a session whose history has left it running.
-/

variable {ρ : Type} {cfg : HttpConfig} {P : HttpParser ρ}

/-! ### The history of the timer -/

/-- What an effect does to the wish on record and to the timer: a read clears both, a request
    sets the wish, and the end of `onWriteEnd` starts the timer where the wish stands. -/
def HttpEffect.onIdle (x : Bool × Bool) : HttpEffect → Bool × Bool
  | .recv => (false, false)
  | .handleRequest _ _ keep _ => (keep, x.2)
  | .deleteCtx _ => (x.1, x.2 || x.1)
  | _ => x

/-- Since the last read a response has been sent while the request handled last had asked for
    keep-alive. -/
def idles (trace : List HttpEffect) : Bool := (trace.foldl HttpEffect.onIdle (false, false)).2

theorem foldl_onIdle_fst (x : Bool × Bool) (t : List HttpEffect) :
    (t.foldl HttpEffect.onIdle x).1 = t.foldl HttpEffect.onFlag x.1 := by
  induction t generalizing x with
  | nil => rfl
  | cons e t ih =>
    rw [List.foldl_cons, List.foldl_cons, ih]
    cases e <;> rfl

theorem foldl_onIdle (t : List HttpEffect) :
    t.foldl HttpEffect.onIdle (false, false) = (lastWish t, idles t) :=
  Prod.ext (foldl_onIdle_fst _ t) rfl

theorem idles_append (t es : List HttpEffect) :
    idles (t ++ es) = (es.foldl HttpEffect.onIdle (lastWish t, idles t)).2 := by
  rw [idles, List.foldl_append, foldl_onIdle]

/-- Effects that touch neither the wish nor the timer. -/
def HttpEffect.IdleKept (e : HttpEffect) : Prop := ∀ x, e.onIdle x = x

theorem HttpEffect.idleKept_of_isResponse {e : HttpEffect} (h : e.isResponse = true) :
    e.IdleKept := by
  intro x
  cases e with
  | recv => simp [HttpEffect.isResponse] at h
  | handleRequest i seen keep upgrade => simp [HttpEffect.isResponse] at h
  | deleteCtx ctx => simp [HttpEffect.isResponse] at h
  | _ => rfl

theorem idles_grows {t u : List HttpEffect} (h : Grows HttpEffect.IdleKept t u) :
    idles u = idles t := by
  obtain ⟨es, rfl, hes⟩ := h
  rw [idles_append]
  induction es with
  | nil => rfl
  | cons e es ih =>
    rw [List.foldl_cons, hes e List.mem_cons_self]
    exact ih fun e' he' => hes e' (List.mem_cons_of_mem e he')

/-! ### `m_keepAliveTimer.data` -/

namespace HttpSession

@[simp] theorem send_timerData (s : HttpSession ρ) (i : Nat) :
    (s.send cfg i).timerData = s.timerData := by
  unfold send
  split <;> rfl

theorem call_timerData (s : HttpSession ρ) (i : Nat) (c : RespCall) :
    (s.call cfg i c).timerData = s.timerData := by
  cases c with
  | sendStr body => exact send_timerData _ i
  | sendJson text => exact send_timerData _ i
  | _ => rfl

theorem fsActions_timerData (j i : Nat) (s : HttpSession ρ) (as : List FsAction) :
    (as.foldl (fsAction cfg j i) s).timerData = s.timerData := by
  induction as generalizing s with
  | nil => rfl
  | cons a as ih =>
    rw [List.foldl_cons, ih]
    cases a with
    | onError => exact send_timerData _ i
    | onClose => exact send_timerData _ i
    | _ => rfl

/-- A read stops the timer if the flag is set, and leaves it alone otherwise. -/
theorem recvCb_timer (s : HttpSession ρ) (base : Bool) (data : Bytes) :
    (s.recvCb P base data).timerArmed = (!s.isKeepAlive && s.timerArmed) := by
  cases hflag : s.isKeepAlive with
  | true =>
    simp only [recvCb, emit_isKeepAlive, hflag, if_true]
    split <;> rfl
  | false =>
    simp only [recvCb, emit_isKeepAlive, hflag, Bool.false_eq_true, if_false]
    split <;> rfl

end HttpSession

/-! ### The invariant -/

/-- What holds of the timer, as long as no session has been removed with its timer running. -/
structure TimerInv (cfg : HttpConfig) (s : HttpSession ρ) : Prop where
  keepAlive : KeepAliveInv s
  flag : s.timerArmed = true → s.isKeepAlive = true
  data : s.timerArmed = true → s.timerData = true
  /-- Inside a read the timer is not running. -/
  busy : s.stack ≠ [] → s.timerArmed = false
  removed : s.registered = false → s.timerArmed = false
  armed : cfg.upgradeCallback = true → s.registered = true → s.timerArmed = idles s.trace

theorem TimerInv.accepted (method : HttpMethod) : TimerInv cfg (.accepted P method) := by
  refine ⟨.accepted method, ?_, ?_, ?_, ?_, fun _ _ => rfl⟩
  · exact fun h => absurd h Bool.false_ne_true
  · exact fun h => absurd h Bool.false_ne_true
  · exact fun _ => rfl
  · exact fun _ => rfl

/-- Without a running timer most of the invariant is plain. -/
theorem TimerInv.of_off {s : HttpSession ρ} (hkeep : KeepAliveInv s) (hoff : s.timerArmed = false)
    (harmed : s.registered = true → idles s.trace = false) : TimerInv cfg s := by
  refine ⟨hkeep, ?_, ?_, fun _ => hoff, fun _ => hoff, fun _ hreg => ?_⟩
  · rw [hoff]
    exact fun h => absurd h Bool.false_ne_true
  · rw [hoff]
    exact fun h => absurd h Bool.false_ne_true
  · rw [hoff, harmed hreg]

/-- Work on responses keeps the invariant. -/
theorem TimerInv.responding {s s' : HttpSession ρ} (h : TimerInv cfg s) (hr : s.Responding s')
    (hdata : s'.timerData = s.timerData) : TimerInv cfg s' := by
  refine ⟨h.keepAlive.responding hr, ?_, ?_, ?_, ?_, ?_⟩
  · rw [hr.timerArmed, hr.isKeepAlive]
    exact h.flag
  · rw [hr.timerArmed, hdata]
    exact h.data
  · rw [hr.timerArmed, hr.stack]
    exact h.busy
  · rw [hr.timerArmed, hr.registered]
    exact h.removed
  · rw [hr.timerArmed, hr.registered,
      idles_grows (hr.trace.mono fun _ => HttpEffect.idleKept_of_isResponse)]
    exact h.armed

/-- So does a change of the request, the readers or the writes, and of the stack as long as the
    timer is not running. -/
theorem TimerInv.of_eq {s s' : HttpSession ρ} (h : TimerInv cfg s) (hkeep : KeepAliveInv s')
    (hflag : s'.isKeepAlive = s.isKeepAlive) (harmed : s'.timerArmed = s.timerArmed)
    (hdata : s'.timerData = s.timerData) (hreg : s'.registered = s.registered)
    (hbusy : s'.stack ≠ [] → s.timerArmed = false)
    (htrace : Grows HttpEffect.IdleKept s.trace s'.trace) : TimerInv cfg s' := by
  refine ⟨hkeep, ?_, ?_, ?_, ?_, ?_⟩
  · rw [harmed, hflag]
    exact h.flag
  · rw [harmed, hdata]
    exact h.data
  · rw [harmed]
    exact hbusy
  · rw [harmed, hreg]
    exact h.removed
  · rw [harmed, hreg, idles_grows htrace]
    exact h.armed

/-- A request is handled inside a read, where the timer is not running. -/
theorem TimerInv.handleRequest {s : HttpSession ρ} (h : TimerInv cfg s)
    (hoff : s.timerArmed = false) (upgrade : Bool) :
    TimerInv cfg (s.handleRequest cfg upgrade) := by
  have hspec := s.handleRequest_spec cfg upgrade
  have hkeep : KeepAliveInv (s.handleRequest cfg upgrade) := h.keepAlive.handleRequest upgrade
  have hoff' : (s.handleRequest cfg upgrade).timerArmed = false := hspec.timerArmed.trans hoff
  refine ⟨hkeep, ?_, ?_, fun _ => hoff', fun _ => hoff', fun hcb hreg => ?_⟩
  · rw [hoff']
    exact fun hon => absurd hon Bool.false_ne_true
  · rw [hoff']
    exact fun hon => absurd hon Bool.false_ne_true
  · rw [hoff']
    have hidle : idles s.trace = false := by
      rw [← h.armed hcb (hspec.registered ▸ hreg)]
      exact hoff
    rcases hspec.answered with ⟨-, htrace⟩ | ⟨-, ctx, buffers, htrace⟩
    · rw [htrace, idles_append]
      exact hidle.symm
    · rw [htrace, idles_append]
      exact hidle.symm

/-! ### Completed upgrades -/

/-- The answer whose 101 response has been sent when this step ends, if the session is still
    registered and the server takes upgrades. -/
def HttpSession.upgrading (cfg : HttpConfig) (s : HttpSession ρ) : HttpLabel → Option Answer
  | .written _ =>
    match s.stack, s.writes with
    | [], w :: _ =>
      (s.answers[w.resp]?).filter fun a => s.registered && a.upgrade && cfg.upgradeCallback
    | _, _ => none
  | _ => none

/-- An upgrade is only completed where the history has not left the timer running. -/
def UpgradesBusy (cfg : HttpConfig) (s : HttpSession ρ) (l : HttpLabel) : Prop :=
  (s.upgrading cfg l).isSome = true → idles s.trace = false

instance (s : HttpSession ρ) (l : HttpLabel) : Decidable (UpgradesBusy cfg s l) := by
  unfold UpgradesBusy
  infer_instance

/-- A session that is removed in this step has its timer not running, and the timer only fires
    for a session that has not been removed. -/
def TimerSafe (cfg : HttpConfig) (P : HttpParser ρ) (s : HttpSession ρ) (l : HttpLabel) : Prop :=
  ∀ s' ∈ (httpMachine cfg P).step s l,
    (s.registered = true → s'.registered = false → s'.timerArmed = false) ∧
      (l = .timer → s.registered = true)

instance (s : HttpSession ρ) (l : HttpLabel) : Decidable (TimerSafe cfg P s l) := by
  unfold TimerSafe
  infer_instance

/-- What a completed upgrade leads to. -/
theorem HttpSession.upgrading_step {s : HttpSession ρ} {l : HttpLabel}
    (h : (s.upgrading cfg l).isSome = true) (hinv : KeepAliveInv s) :
    ∃ s', (httpMachine cfg P).step s l = some s' ∧ cfg.upgradeCallback = true ∧
      s.registered = true ∧ s'.registered = false ∧ s'.timerArmed = s.timerArmed := by
  obtain ⟨a, ha⟩ := Option.isSome_iff_exists.mp h
  unfold HttpSession.upgrading at ha
  split at ha
  · split at ha
    · rename_i status _ _ w ws hst hw
      obtain ⟨ha, hcond⟩ := Option.filter_eq_some_iff.mp ha
      obtain ⟨⟨hreg, hup⟩, hcb⟩ : (s.registered = true ∧ a.upgrade = true) ∧
          cfg.upgradeCallback = true := by simpa using hcond
      have hsent : a.resp.onSent = .upgrade := by
        have htold := hinv.told a.asked (List.mem_map_of_mem (List.mem_of_getElem? ha))
        simpa [Answer.asked, HttpSession.toldBy, hup] using htold
      have hstep : (httpMachine cfg P).step s (.written status) =
          some ({ s with writes := ws }.onWriteEnd cfg w a) := by
        show s.step cfg P (.written status) = _
        simp only [HttpSession.step, hst, hw, ha, Option.map_some]
      have hr := HttpSession.Responding.released { s with writes := ws } a
      rw [HttpSession.onWriteEnd_eq, hsent] at hstep
      generalize ({ s with writes := ws } : HttpSession ρ).released a = t at hstep hr
      refine ⟨_, hstep, hcb, hreg, ?_, ?_⟩
      · rw [hr.registered, if_pos hreg]
        simp [HttpSession.upgradeSession, hcb, HttpSession.closeSession]
      · rw [hr.registered, if_pos hreg]
        simp only [HttpSession.upgradeSession, hcb, if_true]
        exact hr.timerArmed
    · cases ha
  · cases ha

theorem TimerInv.onWriteEnd {s : HttpSession ρ} (h : TimerInv cfg s) (hst : s.stack = [])
    (w : PendingWrite) {a : Answer} (ha : a ∈ s.answers)
    (hbusy : s.registered = true → a.upgrade = true → cfg.upgradeCallback = true →
      idles s.trace = false) : TimerInv cfg (s.onWriteEnd cfg w a) := by
  have hkeep : KeepAliveInv (s.onWriteEnd cfg w a) := h.keepAlive.onWriteEnd w a
  have hsent : a.resp.onSent = HttpSession.toldBy a.upgrade :=
    h.keepAlive.told a.asked (List.mem_map_of_mem ha)
  have hr := HttpSession.Responding.released s a
  have hdata : (s.released a).timerData = s.timerData := by
    unfold HttpSession.released
    split <;> rfl
  have hrel : TimerInv cfg (s.released a) := h.responding hr hdata
  have hidles : idles (s.released a).trace = idles s.trace :=
    idles_grows (hr.trace.mono fun _ => HttpEffect.idleKept_of_isResponse)
  rw [← hr.registered, ← hidles] at hbusy
  have hst' : (s.released a).stack = [] := hr.stack.trans hst
  rw [HttpSession.onWriteEnd_eq] at hkeep ⊢
  generalize s.released a = t at *
  cases hreg : t.registered with
  | false =>
    -- the callback does not find the session any more
    rw [hreg, if_neg Bool.false_ne_true] at hkeep
    rw [if_neg Bool.false_ne_true]
    refine .of_off hkeep (hrel.removed hreg) fun hreg' => ?_
    exact absurd (hreg.symm.trans hreg') Bool.false_ne_true
  | true =>
    rw [hreg, if_pos rfl] at hkeep
    rw [if_pos rfl]
    cases hup : a.upgrade with
    | false =>
      rw [hup] at hsent
      have hsession : a.resp.onSent = .session := hsent
      rw [hsession] at hkeep ⊢
      cases hflag : t.isKeepAlive with
      | true =>
        -- the timer starts, and the history says so
        rw [hflag] at hkeep
        refine ⟨hkeep, fun _ => rfl, fun _ => rfl, ?_, ?_, fun _ _ => ?_⟩
        · exact fun hne => absurd hst' hne
        · exact fun hfalse => absurd (hreg.symm.trans hfalse) (by simp)
        · have hwish : lastWish t.trace = true := by
            rw [← hrel.keepAlive.flag hreg]
            exact hflag
          show true = idles _
          simp [HttpSession.startKeepAliveTimer, HttpSession.emit, List.append_assoc, idles_append,
            HttpEffect.onIdle, hwish]
      | false =>
        rw [hflag] at hkeep
        have hoff : t.timerArmed = false := by
          rw [← Bool.not_eq_true]
          intro hon
          exact absurd (hrel.flag hon) (by simp [hflag])
        refine .of_off hkeep hoff fun hreg' => ?_
        exact absurd hreg' Bool.false_ne_true
    | true =>
      rw [hup] at hsent
      have hupgrade : a.resp.onSent = .upgrade := hsent
      rw [hupgrade] at hkeep ⊢
      cases hcb : cfg.upgradeCallback with
      | true =>
        -- the session is taken over; its timer stays as it is
        simp only [HttpSession.upgradeSession, hcb, if_true] at hkeep ⊢
        have hoff : t.timerArmed = false := (hrel.armed hcb hreg).trans (hbusy hreg hup hcb)
        refine .of_off hkeep hoff fun hreg' => ?_
        exact absurd hreg' Bool.false_ne_true
      | false =>
        -- the assertion fails
        simp only [HttpSession.upgradeSession, hcb, Bool.false_eq_true, if_false] at hkeep ⊢
        refine ⟨hkeep, hrel.flag, hrel.data, hrel.busy, hrel.removed, fun hcb' => ?_⟩
        exact absurd (hcb.symm.trans hcb') Bool.false_ne_true

/-- **Every step keeps the invariant**, if it completes no upgrade on a session whose timer is
    running. -/
theorem TimerInv.step {s s' : HttpSession ρ} {l : HttpLabel} (h : TimerInv cfg s)
    (hs : HttpStep cfg P s l s') (hbusy : UpgradesBusy cfg s l) : TimerInv cfg s' := by
  have hkeep : KeepAliveInv s' := h.keepAlive.step hs
  cases hs with
  | @call i c hu hi => exact h.responding (.call s i c) (s.call_timerData i c)
  | setReq req hu => exact h.of_eq hkeep rfl rfl rfl rfl h.busy (.refl _ _)
  | ret hst =>
    have hoff : s.timerArmed = false := h.busy (by simp [hst])
    exact h.of_eq hkeep rfl rfl rfl rfl (fun _ => hoff) (.refl _ _)
  | @run e st hst =>
    have hoff : s.timerArmed = false := h.busy (by simp [hst])
    have hpop : TimerInv cfg { s with stack := st } :=
      h.of_eq (h.keepAlive.of_eq rfl rfl rfl (.refl _ _)) rfl rfl rfl rfl (fun _ => hoff)
        (.refl _ _)
    cases e with
    | messageComplete upgrade => exact hpop.handleRequest hoff upgrade
    | _ => exact hpop.of_eq hkeep rfl rfl rfl rfl (fun _ => hoff) (.refl _ _)
  | recv base data hst hr =>
    have hspec := s.recvCb_spec (P := P) base data
    have hoff : (s.recvCb P base data).timerArmed = false := by
      rw [HttpSession.recvCb_timer]
      cases hflag : s.isKeepAlive with
      | true => rfl
      | false =>
        rw [Bool.not_false, Bool.true_and, ← Bool.not_eq_true]
        intro hon
        exact absurd (h.flag hon) (by simp [hflag])
    refine .of_off hkeep hoff fun _ => ?_
    rw [hspec.trace, idles_append]
    split <;> rfl
  | recvErr hst hr =>
    refine .of_off hkeep rfl fun hreg => ?_
    exact absurd hreg Bool.false_ne_true
  | timer hst ht =>
    have hdata : s.timerData = true := h.data ht
    have hclose : s.keepAliveTimerCb = { s with timerArmed := false }.closeSession false := by
      unfold HttpSession.keepAliveTimerCb
      rw [if_pos hdata]
    rw [hclose] at hkeep ⊢
    refine .of_off hkeep rfl fun hreg => ?_
    exact absurd hreg Bool.false_ne_true
  | @written w ws a status hst hw ha =>
    have hpop : TimerInv cfg { s with writes := ws } :=
      h.of_eq (h.keepAlive.of_eq rfl rfl rfl (.refl _ _)) rfl rfl rfl rfl h.busy (.refl _ _)
    refine hpop.onWriteEnd hst w (List.mem_of_getElem? ha) fun hreg hup hcb => hbusy ?_
    have hreg' : s.registered = true := hreg
    simp [HttpSession.upgrading, hst, hw, ha, hreg', hup, hcb]
  | @file j result data r r' as hst hr he =>
    refine h.responding (.fsActions cfg j r.resp s _ as) ?_
    exact HttpSession.fsActions_timerData j r.resp _ as

/-- **The timer of a removed session.**  In every run of a session, with any reads, handlers,
    file results, write completions and timer firings in any order, no session is removed with
    its keep-alive timer running, and the timer never fires for a removed one, if and only if
    no upgrade is completed when, since the last read, a response has been sent while the
    request handled last had asked for keep-alive. -/
theorem timer_off_iff (cfg : HttpConfig) (P : HttpParser ρ) (method : HttpMethod)
    (ls : List HttpLabel) :
    (httpMachine cfg P).AllSteps (TimerSafe cfg P) (.accepted P method) ls ↔
      (httpMachine cfg P).AllSteps (UpgradesBusy cfg) (.accepted P method) ls := by
  refine ((httpMachine cfg P).allSteps_congr_of (I := TimerInv cfg) ?_ ?_ (.accepted method)
    ls).symm
  · exact fun s l s' hI hP hs => hI.step (HttpSession.step_cases hs) hP
  · intro s l hI
    constructor
    · intro hbusy s' hs'
      have hstep := HttpSession.step_cases (Option.mem_def.mp hs')
      refine ⟨fun _ => (hI.step hstep hbusy).removed, ?_⟩
      rintro rfl
      cases hstep with
      | timer hst ht =>
        rw [← Bool.not_eq_false]
        intro hreg
        exact absurd ht (by simp [hI.removed hreg])
    · intro hsafe hup
      obtain ⟨s', hs', hcb, hreg, hreg', harmed⟩ := HttpSession.upgrading_step hup hI.keepAlive
      have hoff := (hsafe s' hs').1 hreg hreg'
      rw [← hI.armed hcb hreg, ← harmed]
      exact hoff

/-- A request that asks for keep-alive, and behind it one that asks for that and for an
    upgrade. -/
def pipelinedUpgrade : Bytes :=
  str ("GET /a HTTP/1.1\r\nConnection: keep-alive\r\n\r\n" ++
    "GET /ws HTTP/1.1\r\nConnection: keep-alive\r\nConnection: Upgrade\r\nUpgrade: websocket\r\n" ++
    "Sec-WebSocket-Key: AA==\r\n\r\n")

/-- The parser on these requests. -/
def pipelinedUpgradeParser : HttpParser Bytes :=
  tableParser
    [(([], pipelinedUpgrade),
      [.messageBegin, .url (str "/a"), .headerField (str "Connection"),
        .headerValue (str "keep-alive"), .headersComplete .get 1 1, .messageComplete false,
        .messageBegin, .url (str "/ws"), .headerField (str "Connection"),
        .headerValue (str "keep-alive"), .headerField (str "Connection"),
        .headerValue (str "Upgrade"), .headerField (str "Upgrade"), .headerValue (str "websocket"),
        .headerField (str "Sec-WebSocket-Key"), .headerValue (str "AA=="),
        .headersComplete .get 1 1, .messageComplete true])]

/-- A server without routes that takes upgrades, on requests with that key. -/
def upgradeConfig : HttpConfig :=
  { plainConfig with
    acceptKey := fun _ => str "ueV5yvOEolgvXMIeQ80uZEVyBQ4="
    upgradeCallback := true }

/-- Both requests are read and handled; then the writes of both responses complete, and the
    timer that the first one has started fires. -/
def timerBehindUpgrade : List HttpLabel :=
  [.recv true pipelinedUpgrade] ++ List.replicate 18 .run ++ [.written 0, .written 0, .timer]

set_option maxRecDepth 4000 in
/-- The session is removed with its timer running, and the timer fires for it. -/
theorem timerBehindUpgrade_fires :
    ((httpMachine upgradeConfig pipelinedUpgradeParser).exec
        (.accepted pipelinedUpgradeParser .get) timerBehindUpgrade).isSome = true ∧
      ¬ (httpMachine upgradeConfig pipelinedUpgradeParser).AllSteps
        (TimerSafe upgradeConfig pipelinedUpgradeParser) (.accepted pipelinedUpgradeParser .get)
        timerBehindUpgrade := by
  decide

end MyWebSocket
