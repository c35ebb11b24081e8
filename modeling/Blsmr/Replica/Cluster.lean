import Blsmr.Lib.Transition
import Blsmr.Replica.Process

/-!
# A cluster of replicas

The replicas, the messages in flight and the timers that have not fired. In one
step a replica starts, receives one of the messages in flight, or one of its
timers fires; messages are delivered exactly once, in any order, after any
delay. `unique_id` and `schedule_timer_after` hand out fresh values. `sent` lists
every message ever sent.
-/

namespace Blsmr

open Blsmr.Transition

/-! ## Configurations -/

/-- The replicas of `protocol` over `new_dissemination`. -/
structure Config.Dissemination (cfg : Config) (protocol : BLSMRProtocol) : Prop where
  protocolType : cfg.protocolType = protocol
  pool_nodup : cfg.pool.Nodup
  quorumSystem : cfg.quorumSystem = .newDissemination cfg.pool

/-- 3Jane over a witnessing grid of side `k`. The number of rows and columns of a
quorum is what `ceil(sqrt(k / 2))` gives. -/
structure Config.WitnessingGrid (cfg : Config) (k : ℕ) (grid : Grid.QuorumSystem) : Prop where
  protocolType : cfg.protocolType = .threeJane
  pool_nodup : cfg.pool.Nodup
  pool_length : cfg.pool.length = k * k
  built : ∃ sqrtCeil faults, Grid.QuorumSystem.withFaults sqrtCeil cfg.pool faults = some grid
  quorumSystem : cfg.quorumSystem = .witnessGrid grid
  enough : k ≤ 2 * grid.x * grid.x
  least : ∀ x, k ≤ 2 * x * x → grid.x ≤ x

/-! ## Clusters -/

structure Packet where
  src : Pid
  dst : Pid
  msg : Message
  deriving DecidableEq, Repr

structure Cluster where
  replicas : Pid → BLSMR
  started : List Pid
  network : List Packet
  timers : List (Pid × TimerId)
  sent : List Packet
  uids : List ℕ
  timerIds : List TimerId

inductive Action where
  | start (pid : Pid) (env : Env)
  | deliver (packet : Packet) (env : Env)
  | timer (pid : Pid) (id : TimerId) (env : Env)

def Action.env : Action → Env
  | .start _ env => env
  | .deliver _ env => env
  | .timer _ _ env => env

namespace Cluster

def init (cfg : Config) : Cluster where
  replicas _ := .default cfg
  started := []
  network := []
  timers := []
  sent := []
  uids := []
  timerIds := []

/-- The environment hands out values that were not handed out before. -/
def Fresh (c : Cluster) (env : Env) : Prop :=
  env.uid ∉ c.uids ∧ env.forceTimer ∉ c.timerIds ∧ env.submitTimer ∉ c.timerIds ∧
    env.forceTimer ≠ env.submitTimer

instance (c : Cluster) (env : Env) : Decidable (c.Fresh env) := by unfold Fresh; infer_instance

/-- Replica `pid` goes on with `out`. -/
def update (c : Cluster) (pid : Pid) (env : Env) (out : Outcome) : Cluster :=
  let packets := out.sends.map fun (dst, msg) => { src := pid, dst, msg }
  { c with
    replicas := Function.update c.replicas pid out.state
    network := c.network ++ packets
    timers := c.timers ++ out.timers.map fun id => (pid, id)
    sent := c.sent ++ packets
    uids := env.uid :: c.uids
    timerIds := env.forceTimer :: env.submitTimer :: c.timerIds }

/-- One step; `none` if the action is not enabled or the replica panics. -/
def step (cfg : Config) (c : Cluster) (a : Action) : Option Cluster :=
  if c.Fresh a.env then
    match a with
    | .start pid env =>
      if pid ∈ cfg.pool ∧ pid ∉ c.started then
        some ({ c with started := pid :: c.started }.update pid env
          ((c.replicas pid).onStart cfg env))
      else none
    | .deliver packet env =>
      if packet ∈ c.network then
        ((c.replicas packet.dst).onMessage cfg packet.dst env packet.src packet.msg).map
          ({ c with network := c.network.erase packet }.update packet.dst env)
      else none
    | .timer pid id env =>
      if (pid, id) ∈ c.timers then
        ((c.replicas pid).onTimer cfg pid env id).map
          ({ c with timers := c.timers.erase (pid, id) }.update pid env)
      else none
  else none

/-- The clusters that runs with allowed steps reach. -/
abbrev ReachableBy (cfg : Config) (ok : Cluster → Action → Prop) : Cluster → Prop :=
  Transition.Reachable (step cfg) (init cfg) ok

/-- The clusters that runs reach. -/
abbrev Reachable (cfg : Config) : Cluster → Prop := ReachableBy cfg fun _ _ => True

end Cluster

/-! ## Concrete runs -/

/-- An environment that hands out numbers made from `k` and makes the plainest choices. -/
def Env.counting (k : ℕ) : Env where
  key := 7
  uid := k
  forceTimer := 2 * k
  submitTimer := 2 * k + 1
  rng := ⟨⟨fun pids size => pids.take size, fun _ _ => (List.take_sublist _ _).subperm,
    fun _ _ => List.length_take⟩, fun _ => ⟨id, fun _ => List.Perm.refl _⟩,
    fun _ => ⟨id, fun _ => List.Perm.refl _⟩⟩
  hash := .insertion

/-- Replicas over `new_dissemination` that each submit one command. -/
def Config.standard (protocol : BLSMRProtocol) (pool : List Pid) : Config where
  protocolType := protocol
  pool := pool
  quorumSystem := .newDissemination pool
  submitLimit := 1
  fxHash _ pid := pid

/-- The `k`-th step of a run delivers a message. -/
def Action.recv (k : ℕ) (src dst : Pid) (msg : Message) : Action :=
  .deliver ⟨src, dst, msg⟩ (.counting k)

def Message.req (cmd : Command) : Message := .announce (.req cmd)

def Message.res (pid : Pid) (cmd : Command) (conflicts : List CmdId) : Message :=
  .announce (.res ⟨pid, cmd.id, conflicts⟩)

def Message.commit (cmd : Command) (deps : List CmdId) : Message :=
  .announce (.commit cmd.id deps)

def Message.request (cmd : Command) (deps : List CmdId) : Message :=
  .quorum (.request cmd.id deps)

def Message.response (cmd : Command) (deps : List CmdId) : Message :=
  .quorum (.response cmd.id deps)

/-- Replica 0 of two decides `a`, and the other one learns of it. -/
def decidedByTwo (a : Command) : List Action :=
  [.start 0 (.counting 0), .timer 0 1 (.counting 1), .recv 2 0 0 (.req a), .recv 3 0 1 (.req a),
    .recv 4 0 0 (.res 0 a []), .recv 5 1 0 (.res 1 a []), .recv 6 0 0 (.request a []),
    .recv 7 0 1 (.request a []), .recv 8 0 0 (.response a []), .recv 9 1 0 (.response a []),
    .recv 10 0 1 (.commit a [])]

/-- Replica 0 of four decides `a` on the replies of three. -/
def decidedByThree (a : Command) : List Action :=
  [.start 0 (.counting 0), .start 3 (.counting 1), .timer 0 1 (.counting 2), .recv 3 0 0 (.req a),
    .recv 4 0 1 (.req a), .recv 5 0 2 (.req a), .recv 6 0 0 (.res 0 a []),
    .recv 7 1 0 (.res 1 a []), .recv 8 2 0 (.res 2 a []), .recv 9 0 0 (.request a []),
    .recv 10 0 1 (.request a []), .recv 11 0 2 (.request a []), .recv 12 0 3 (.request a []),
    .recv 13 0 0 (.response a []), .recv 14 1 0 (.response a []), .recv 15 2 0 (.response a []),
    .recv 16 3 0 (.response a [])]

/-- Two replicas receive the requests for `a` and `b` in opposite orders. Replica 0 decides `a`. -/
def crossed (a b : Command) : List Action :=
  [.start 0 (.counting 0), .start 1 (.counting 1), .timer 0 1 (.counting 2),
    .timer 1 3 (.counting 3), .recv 4 0 0 (.req a), .recv 5 1 0 (.req b), .recv 6 1 1 (.req b),
    .recv 7 0 1 (.req a), .recv 8 0 0 (.res 0 a []), .recv 9 1 0 (.res 1 a [b.id]),
    .recv 10 0 1 (.res 0 b [a.id]), .recv 11 1 1 (.res 1 b []), .recv 12 0 0 (.request a [b.id]),
    .recv 13 0 1 (.request a [b.id]), .recv 14 0 0 (.response a [b.id]),
    .recv 15 1 0 (.response a [b.id])]

/-- Then replica 1 decides `b`, and learns of the decision on `a`. -/
def crossedRest (a b : Command) : List Action :=
  [.recv 16 1 0 (.request b [a.id]), .recv 17 1 1 (.request b [a.id]),
    .recv 18 0 1 (.response b [a.id]), .recv 19 1 1 (.response b [a.id]),
    .recv 20 0 1 (.commit a [b.id])]

/-- The state after a run from the start. -/
def Cluster.execute (cfg : Config) (okb : Cluster → Action → Bool) (actions : List Action) :
    Option Cluster := Transition.exec (Cluster.step cfg) okb (Cluster.init cfg) actions

theorem Cluster.reachable_execute {cfg : Config} {ok : Cluster → Action → Prop}
    {okb : Cluster → Action → Bool} (hok : ∀ c a, okb c a = true → ok c a)
    {actions : List Action} {c : Cluster} (h : Cluster.execute cfg okb actions = some c) :
    ReachableBy cfg ok c := Transition.Reachable.exec hok .init h

end Blsmr
