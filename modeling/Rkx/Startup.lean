import Mathlib.Data.List.Chain

/-!
# Start-up (`rkx.c`, `mq.c`)

`main` starts the MQTT thread and waits until `rkx_subscribe_cb` has set `g_cbComplete`.  The thread
connects and runs the callbacks of the client in its loop, which ends once `mosquitto_disconnect` was
called.

* `rkxConnectCb`, `rkxSubscribeCb`: the two callbacks;
* `StartupStep`: the steps of both threads, one for each event;
* `StartupInv`: the client is disconnected only after the flag was set;
* `startup_never_deadlocks`: the loop does not end while `main` waits, when every refused connection
  and failed subscription comes after the flag was set.
-/

set_option autoImplicit false

namespace Rkx

def MOSQ_ERR_SUCCESS : Int := 0
def MOSQ_ERR_NO_CONN : Int := 4

/-! ## The two threads -/

inductive MainThread where
  /-- before `pthread_create` -/
  | starting
  /-- `while (!g_cbComplete)` -/
  | waiting
  /-- behind the loop -/
  | running
  deriving DecidableEq

inductive MqttThread where
  | absent
  /-- before `mosquitto_connect` -/
  | connecting
  /-- inside `mosquitto_loop_forever` -/
  | looping
  /-- behind `kx_mq_loop_start`, which has returned 0 -/
  | ended
  deriving DecidableEq

structure Startup where
  main : MainThread
  mqtt : MqttThread
  gCbComplete : Bool
  /-- the client has a connection to the broker -/
  linked : Bool
  /-- `mosquitto_disconnect` was called -/
  disconnected : Bool
  /-- the exit code, once the process has ended -/
  exited : Option Int
  deriving DecidableEq

def Startup.init : Startup := ⟨.starting, .absent, false, false, false, none⟩

/-! ## The callbacks -/

def mosquittoDisconnect (s : Startup) : Startup := { s with disconnected := true }

/-- `mosquitto_subscribe`; `rc` is what it returns on a client that was not disconnected. -/
def mosquittoSubscribe (s : Startup) (rc : Int) : Int := if s.disconnected then MOSQ_ERR_NO_CONN else rc

/-- `rkx_connect_cb` -/
def rkxConnectCb (s : Startup) (reasonCode rc : Int) : Startup :=
  let s := if reasonCode ≠ 0 then mosquittoDisconnect s else s
  if mosquittoSubscribe s rc ≠ MOSQ_ERR_SUCCESS then mosquittoDisconnect s else s

/-- `rkx_subscribe_cb` -/
def rkxSubscribeCb (s : Startup) (grantedQos : List Int) : Startup :=
  let haveSubscription := grantedQos.any (· ≤ 2)
  let s := if haveSubscription = false then mosquittoDisconnect s else s
  { s with gCbComplete := true }

/-! ## Steps -/

inductive StartupEvent where
  /-- `pthread_create` returns -/
  | create (rc : Int)
  /-- `mosquitto_connect` returns -/
  | connect (rc : Int)
  /-- a CONNACK, and what a subscription returns then -/
  | connack (reasonCode rc : Int)
  /-- a SUBACK -/
  | suback (grantedQos : List Int)
  /-- the connection is lost -/
  | disconnect
  | reconnect
  /-- `mosquitto_loop_forever` returns -/
  | loopEnd
  /-- `main` finds the flag set -/
  | wake
  /-- `main` returns -/
  | quit
  deriving DecidableEq

/-- The steps of a process that has not ended.  A callback runs inside the loop, and on a client that
    has a connection. -/
inductive StartupStep : Startup → StartupEvent → Startup → Prop where
  | createFails {s : Startup} {rc : Int} (alive : s.exited = none) (at_create : s.main = .starting)
      (fails : rc ≠ 0) : StartupStep s (.create rc) { s with exited := some 2 }
  | create {s : Startup} (alive : s.exited = none) (at_create : s.main = .starting) :
      StartupStep s (.create 0) { s with main := .waiting, mqtt := .connecting }
  | connectFails {s : Startup} {rc : Int} (alive : s.exited = none) (at_connect : s.mqtt = .connecting)
      (fails : rc ≠ MOSQ_ERR_SUCCESS) : StartupStep s (.connect rc) { s with exited := some 2 }
  | connect {s : Startup} (alive : s.exited = none) (at_connect : s.mqtt = .connecting) :
      StartupStep s (.connect MOSQ_ERR_SUCCESS) { s with mqtt := .looping, linked := true }
  | connack {s : Startup} (reasonCode rc : Int) (alive : s.exited = none) (loops : s.mqtt = .looping)
      (link : s.linked = true) : StartupStep s (.connack reasonCode rc) (rkxConnectCb s reasonCode rc)
  | suback {s : Startup} (grantedQos : List Int) (alive : s.exited = none) (loops : s.mqtt = .looping)
      (link : s.linked = true) : StartupStep s (.suback grantedQos) (rkxSubscribeCb s grantedQos)
  | disconnect {s : Startup} (alive : s.exited = none) (loops : s.mqtt = .looping)
      (link : s.linked = true) : StartupStep s .disconnect { s with linked := false }
  | reconnect {s : Startup} (alive : s.exited = none) (loops : s.mqtt = .looping)
      (lost : s.linked = false) (wanted : s.disconnected = false) :
      StartupStep s .reconnect { s with linked := true }
  | loopEnd {s : Startup} (alive : s.exited = none) (loops : s.mqtt = .looping)
      (asked : s.disconnected = true) : StartupStep s .loopEnd { s with mqtt := .ended }
  | wake {s : Startup} (alive : s.exited = none) (waits : s.main = .waiting)
      (complete : s.gCbComplete = true) : StartupStep s .wake { s with main := .running }
  | quit {s : Startup} (alive : s.exited = none) (runs : s.main = .running) :
      StartupStep s .quit { s with exited := some 0 }

/-- The loop has ended, the process has not, and `main` still waits for the flag. -/
structure Startup.Deadlocked (s : Startup) : Prop where
  ended : s.mqtt = .ended
  alive : s.exited = none
  waits : s.main = .waiting
  unset : s.gCbComplete = false

/-- A refused connection or a failed subscription comes after the flag was set. -/
def Answered (s : Startup) : StartupEvent → Prop
  | .connack reasonCode rc => (reasonCode = 0 ∧ rc = MOSQ_ERR_SUCCESS) ∨ s.gCbComplete = true
  | _ => True

/-! ## The invariant -/

/-- Once the client is disconnected, and so once the loop has ended, the flag is set. -/
structure StartupInv (s : Startup) : Prop where
  flag : s.disconnected = true → s.gCbComplete = true
  asked : s.mqtt = .ended → s.disconnected = true

theorem StartupInv.not_deadlocked {s : Startup} (h : StartupInv s) : ¬ s.Deadlocked := by
  intro hd
  have hset := h.flag (h.asked hd.ended)
  rw [hd.unset] at hset
  cases hset

/-- What `rkx_connect_cb` changes. -/
theorem rkxConnectCb_eq (s : Startup) (reasonCode rc : Int) :
    rkxConnectCb s reasonCode rc =
      if reasonCode = 0 ∧ mosquittoSubscribe s rc = MOSQ_ERR_SUCCESS then s else mosquittoDisconnect s := by
  by_cases hcode : reasonCode = 0
  · simp only [rkxConnectCb, hcode, ne_eq, not_true_eq_false, if_false, true_and, ite_not]
  · simp only [rkxConnectCb, hcode, ne_eq, not_false_eq_true, if_true, false_and, if_false, ite_not]
    split <;> rfl

theorem rkxSubscribeCb_mqtt (s : Startup) (grantedQos : List Int) :
    (rkxSubscribeCb s grantedQos).mqtt = s.mqtt := by
  simp only [rkxSubscribeCb]
  split <;> rfl

/-- A callback of the connection that disconnects the client comes after the flag was set. -/
theorem startupInv_rkxConnectCb {s : Startup} {reasonCode rc : Int} (hs : StartupInv s)
    (he : Answered s (.connack reasonCode rc)) : StartupInv (rkxConnectCb s reasonCode rc) := by
  rw [rkxConnectCb_eq]
  split
  · exact hs
  · rename_i hfails
    refine ⟨fun _ => ?_, fun _ => rfl⟩
    show s.gCbComplete = true
    rcases he with ⟨hcode, hrc⟩ | hset
    · -- the subscription has failed since the client was disconnected before
      apply hs.flag
      by_contra hlinked
      have hsub : mosquittoSubscribe s rc = rc := if_neg hlinked
      exact hfails ⟨hcode, hsub.trans hrc⟩
    · exact hset

/-- **The invariant is kept** by every answered step. -/
theorem startupInv_step {s t : Startup} {e : StartupEvent} (hs : StartupInv s) (he : Answered s e)
    (hstep : StartupStep s e t) : StartupInv t := by
  cases hstep with
  | createFails => exact ⟨hs.flag, hs.asked⟩
  | create => exact ⟨hs.flag, fun h => by cases h⟩
  | connectFails => exact ⟨hs.flag, hs.asked⟩
  | connect => exact ⟨hs.flag, fun h => by cases h⟩
  | connack reasonCode rc => exact startupInv_rkxConnectCb hs he
  | suback grantedQos alive loops link =>
    refine ⟨fun _ => rfl, fun h => ?_⟩
    rw [rkxSubscribeCb_mqtt, loops] at h
    cases h
  | disconnect => exact ⟨hs.flag, hs.asked⟩
  | reconnect => exact ⟨hs.flag, hs.asked⟩
  | loopEnd alive loops asked => exact ⟨hs.flag, fun _ => asked⟩
  | wake => exact ⟨hs.flag, hs.asked⟩
  | quit => exact ⟨hs.flag, hs.asked⟩

/-! ## Runs -/

/-- **No deadlock** in any state of a run whose steps are all answered. -/
theorem startup_never_deadlocks {states : List Startup}
    (hrun : (Startup.init :: states).IsChain fun s t => ∃ e, StartupStep s e t ∧ Answered s e) :
    ∀ s ∈ Startup.init :: states, ¬ s.Deadlocked := by
  have hinit : StartupInv Startup.init := ⟨nofun, nofun⟩
  have hinv := List.IsChain.induction StartupInv _ hrun
    (fun s t ⟨e, hstep, he⟩ hs => startupInv_step hs he hstep) (fun _ => hinit)
  intro s hs
  exact (hinv s hs).not_deadlocked

/-- A connection that is refused, or a subscription that fails, while `main` waits deadlocks as soon
    as the loop has returned. -/
theorem deadlocks_of_not_answered {s : Startup} {reasonCode rc : Int} (alive : s.exited = none)
    (loops : s.mqtt = .looping) (link : s.linked = true) (waits : s.main = .waiting)
    (he : ¬ Answered s (.connack reasonCode rc)) :
    ∃ t u, StartupStep s (.connack reasonCode rc) t ∧ StartupStep t .loopEnd u ∧ u.Deadlocked := by
  obtain ⟨hfails, hset⟩ := not_or.1 he
  have hdisconnect : rkxConnectCb s reasonCode rc = mosquittoDisconnect s := by
    rw [rkxConnectCb_eq, if_neg]
    rintro ⟨hcode, hsub⟩
    unfold mosquittoSubscribe at hsub
    split at hsub
    · exact absurd hsub (by decide)
    · exact hfails ⟨hcode, hsub⟩
  have hstep := StartupStep.connack reasonCode rc alive loops link
  rw [hdisconnect] at hstep
  refine ⟨_, _, hstep, .loopEnd alive loops rfl, rfl, alive, waits, ?_⟩
  exact Bool.eq_false_iff.2 hset

/-- The thread before `mosquitto_connect`. -/
def startupConnecting : Startup := ⟨.waiting, .connecting, false, false, false, none⟩

/-- The thread in its loop, with a connection, while `main` waits. -/
def startupLooping : Startup := ⟨.waiting, .looping, false, true, false, none⟩

theorem step_startupConnecting : StartupStep Startup.init (.create 0) startupConnecting := .create rfl rfl

theorem step_startupLooping : StartupStep startupConnecting (.connect 0) startupLooping := .connect rfl rfl

/-- The broker refuses the connection with the code 5, not authorised. -/
theorem startup_deadlocks : ∃ states : List Startup,
    (Startup.init :: states).IsChain (fun s t => ∃ e, StartupStep s e t) ∧ ∃ s ∈ states, s.Deadlocked := by
  refine ⟨[startupConnecting, startupLooping, { startupLooping with disconnected := true },
    { startupLooping with disconnected := true, mqtt := .ended }], ?_,
    { startupLooping with disconnected := true, mqtt := .ended }, by simp, rfl, rfl, rfl, rfl⟩
  refine List.isChain_cons_cons.2 ⟨⟨_, step_startupConnecting⟩, ?_⟩
  refine List.isChain_cons_cons.2 ⟨⟨_, step_startupLooping⟩, ?_⟩
  refine List.isChain_cons_cons.2 ⟨⟨_, .connack 5 0 rfl rfl rfl⟩, ?_⟩
  exact List.isChain_cons_cons.2 ⟨⟨_, .loopEnd rfl rfl rfl⟩, List.isChain_singleton _⟩

/-- The broker accepts the connection and then grants the subscription. -/
theorem startup_sample : ∃ states : List Startup, { startupLooping with main := .running, gCbComplete := true } ∈
      states ∧ ∀ s ∈ Startup.init :: states, ¬ s.Deadlocked := by
  refine ⟨[startupConnecting, startupLooping, startupLooping, { startupLooping with gCbComplete := true },
    { startupLooping with main := .running, gCbComplete := true }], by simp, startup_never_deadlocks ?_⟩
  refine List.isChain_cons_cons.2 ⟨⟨_, step_startupConnecting, trivial⟩, ?_⟩
  refine List.isChain_cons_cons.2 ⟨⟨_, step_startupLooping, trivial⟩, ?_⟩
  refine List.isChain_cons_cons.2 ⟨⟨_, .connack 0 0 rfl rfl rfl, Or.inl ⟨rfl, rfl⟩⟩, ?_⟩
  refine List.isChain_cons_cons.2 ⟨⟨_, .suback [1] rfl rfl rfl, trivial⟩, ?_⟩
  exact List.isChain_cons_cons.2 ⟨⟨_, .wake rfl rfl rfl, trivial⟩, List.isChain_singleton _⟩

end Rkx
