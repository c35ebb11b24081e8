import Blsmr.Hotstuff.Protocol
import Blsmr.Lib.Transition

/-!
# A HotStuff system

The replicas, what they share, the messages in flight and the timers that have
not fired. Messages are delivered exactly once, in any order, after any delay;
`unique_id` and `schedule_timer_after` hand out fresh values. `delivered` lists
the messages delivered so far.
-/

namespace Blsmr.Hotstuff

open Blsmr.Transition

structure Packet where
  src : Pid
  dst : Pid
  msg : HSMessage
  deriving DecidableEq

structure System (Q : Type) where
  replicas : Pid → Hotstuff Q
  shared : Shared
  started : List Pid
  network : List Packet
  timers : List (Pid × TimerId)
  delivered : List Packet
  uids : List ℕ
  timerIds : List TimerId

inductive Action where
  | start (pid : Pid) (env : Env)
  | deliver (packet : Packet) (env : Env)
  | timer (pid : Pid) (id : TimerId) (env : Env)

def Action.env : Action → Env
  | .start _ env => env
  | .deliver _ env => env
  | .timer _ _ env => env

/-- What the protocol asks of its surroundings: distinct pids, one of them 0, and
a counter whose `add` returns `Some` only on the call that reaches the threshold. -/
structure Config.Valid {Q : Type} (cfg : Config Q) : Prop where
  pool_nodup : cfg.pool.Nodup
  zero_mem : 0 ∈ cfg.pool
  only_at_threshold : ∀ size calls,
    (cfg.addQuorum ((fun q => (cfg.addQuorum q).1)^[calls] (cfg.newQuorum size))).2 = true →
      calls + 1 = size

variable {Q : Type}

namespace System

def init : System Q where
  replicas _ := Hotstuff.default
  shared := ⟨0, [], []⟩
  started := []
  network := []
  timers := []
  delivered := []
  uids := []
  timerIds := []

/-- The environment hands out values that were not handed out before. -/
def Fresh (c : System Q) (env : Env) : Prop := env.uid ∉ c.uids ∧ env.timer ∉ c.timerIds

instance (c : System Q) (env : Env) : Decidable (c.Fresh env) :=
  inferInstanceAs (Decidable (_ ∧ _))

/-- Somebody other than replica `pid` holds the node: a replica or a message. -/
def elsewhere (cfg : Config Q) (c : System Q) (pid : Pid) (node : Node) : Bool :=
  (cfg.pool.any fun q => q != pid && (c.replicas q).holds node) ||
    c.network.any fun packet => packet.msg.carries == some node

/-- Replica `pid` goes on with `out`. -/
def update (c : System Q) (pid : Pid) (env : Env) (out : Outcome Q) : System Q :=
  { c with
    replicas := Function.update c.replicas pid out.state
    shared := out.shared
    network := c.network ++ out.sends.map fun (dst, msg) => { src := pid, dst, msg }
    timers := c.timers ++ out.timers.map fun id => (pid, id)
    uids := env.uid :: c.uids
    timerIds := env.timer :: c.timerIds }

/-- One step; `none` if the action is not enabled or the replica panics. A message
is held until it has been handled. -/
def step (cfg : Config Q) (c : System Q) (a : Action) : Option (System Q) :=
  if c.Fresh a.env then
    match a with
    | .start pid env =>
      if pid ∈ cfg.pool ∧ pid ∉ c.started then
        some ({ c with started := pid :: c.started }.update pid env
          ((c.replicas pid).onStart cfg pid env c.shared))
      else none
    | .deliver packet env =>
      if packet ∈ c.network then
        ((c.replicas packet.dst).onMessage cfg env (c.elsewhere cfg packet.dst) c.shared
          packet.msg).map
          ({ c with
            network := c.network.erase packet
            delivered := packet :: c.delivered }.update packet.dst env)
      else none
    | .timer pid id env =>
      if (pid, id) ∈ c.timers then
        ((c.replicas pid).onTimer cfg pid env c.shared id).map
          ({ c with timers := c.timers.erase (pid, id) }.update pid env)
      else none
  else none

/-- The systems that runs reach. -/
abbrev Reachable (cfg : Config Q) : System Q → Prop :=
  Transition.Reachable (step cfg) init fun _ _ => True

end System

/-! ## Concrete runs -/

/-- An environment that hands out `k` and drains hash maps in their own order. -/
def Env.counting (k : ℕ) : Env := ⟨k, k, ⟨id, fun _ => List.Perm.refl _⟩⟩

/-- Replicas with a counter that counts down from the threshold, each submitting
one command. -/
def Config.standard (rotating : Bool) (pool : List Pid) : Config ℤ where
  rotating := rotating
  pool := pool
  submitLimit := 1
  newQuorum size := size
  addQuorum missing := (missing - 1, missing == 1)

theorem iterate_countdown (calls : ℕ) (q : ℤ) :
    (fun q : ℤ => q - 1)^[calls] q = q - calls := by
  induction calls generalizing q with
  | zero => simp
  | succ calls ih =>
    rw [Function.iterate_succ_apply, ih]
    omega

theorem Config.standard_valid {rotating : Bool} {pool : List Pid} (hnd : pool.Nodup)
    (h0 : 0 ∈ pool) : (Config.standard rotating pool).Valid := by
  refine ⟨hnd, h0, fun size calls h => ?_⟩
  have h : (fun q : ℤ => q - 1)^[calls] (size : ℤ) = 1 := by simpa [Config.standard] using h
  rw [iterate_countdown] at h
  omega

/-- The `k`-th step of a run delivers a message. -/
def Action.recv (k : ℕ) (src dst : Pid) (msg : HSMessage) : Action :=
  .deliver ⟨src, dst, msg⟩ (.counting k)

/-- The state after a run from the start. -/
def System.execute (cfg : Config Q) (actions : List Action) : Option (System Q) :=
  Transition.exec (System.step cfg) (fun _ _ => true) System.init actions

theorem System.reachable_execute {cfg : Config Q} {actions : List Action} {c : System Q}
    (h : System.execute cfg actions = some c) : Reachable cfg c :=
  Transition.Reachable.exec (fun _ _ _ => trivial) .init h

end Blsmr.Hotstuff
