import Blsmr.Broadcast.Protocol
import Blsmr.Lib.Transition

/-!
# Processes that broadcast

The processes of a pool and the messages between them, delivered exactly once in
any order. Processes in `faulty` do not follow the protocol: they send any
`Initiate` and `Signature` under their own name, and a `Certificate` once a quorum
of processes has sent signatures for its identifier. `delivered`, `broadcasts` and
`returned` are ghosts: the messages delivered, what was passed to
`reliably_broadcast` and what `on_message` returned.
-/

namespace Blsmr.Broadcast

open Blsmr.Transition ByzantineConsistentBroadcast

structure Packet (α : Type) where
  src : Pid
  dst : Pid
  msg : BCBMessage α

structure Config where
  pool : List Pid
  faulty : List Pid

structure System (α : Type) where
  processes : Pid → ByzantineConsistentBroadcast α
  started : List Pid
  network : List (Packet α)
  delivered : List (Packet α)
  broadcasts : List (MessageId × α)
  returned : List (Pid × MessageId × α)
  uids : List ℕ

inductive Action (α : Type) where
  | start (pid : Pid)
  | broadcast (pid : Pid) (uid : ℕ) (message : α)
  | deliver (index : ℕ)
  | inject (packet : Packet α)

variable {α : Type}

/-- The messages process `p` sends. -/
def packets (p : Pid) (sends : List (Pid × BCBMessage α)) : List (Packet α) :=
  sends.map fun (dst, msg) => { src := p, dst, msg }

/-- Who sent a signature for the identifier. -/
def signer (id : MessageId) (packet : Packet α) : Option Pid :=
  match packet.msg with
  | .signature id' => if id' = id then some packet.src else none
  | _ => none

namespace System

def init : System α where
  processes _ := ByzantineConsistentBroadcast.default
  started := []
  network := []
  delivered := []
  broadcasts := []
  returned := []
  uids := []

/-- All messages sent so far. -/
def sent (c : System α) : List (Packet α) := c.network ++ c.delivered

/-- A faulty process may send this. -/
def Permitted (cfg : Config) (c : System α) (packet : Packet α) : Prop :=
  packet.src ∈ cfg.faulty ∧ packet.dst ∈ cfg.pool ∧
    match packet.msg with
    | .certificate _ id =>
      quorumSize cfg.pool.length ≤ (c.sent.filterMap (signer id)).dedup.length
    | _ => True

instance (cfg : Config) (c : System α) (packet : Packet α) : Decidable (c.Permitted cfg packet) :=
  match packet with
  | ⟨_, _, .initiate _ _⟩ => inferInstanceAs (Decidable (_ ∧ _ ∧ True))
  | ⟨_, _, .signature _⟩ => inferInstanceAs (Decidable (_ ∧ _ ∧ True))
  | ⟨_, _, .certificate _ _⟩ => inferInstanceAs (Decidable (_ ∧ _ ∧ _ ≤ _))

/-- Process `p` handles the message of a packet. -/
def handle (cfg : Config) (c : System α) (packet : Packet α) : System α :=
  let out := (c.processes packet.dst).onMessage cfg.pool packet.dst packet.src packet.msg
  { c with
    processes := Function.update c.processes packet.dst out.state
    network := packets packet.dst out.sends ++ c.network
    returned := out.returned.toList.map (fun m => (packet.dst, packet.msg.id, m)) ++ c.returned }

/-- One step; `none` if the action is not enabled. -/
def step (cfg : Config) (c : System α) : Action α → Option (System α)
  | .start pid =>
    if pid ∈ cfg.pool ∧ pid ∉ c.started then
      some { c with
        processes := Function.update c.processes pid
          ((c.processes pid).onStart cfg.pool.length)
        started := pid :: c.started }
    else none
  | .broadcast pid uid message =>
    if pid ∈ c.started ∧ pid ∉ cfg.faulty ∧ uid ∉ c.uids then
      let (process, sends) := (c.processes pid).reliablyBroadcast cfg.pool pid uid message
      some { c with
        processes := Function.update c.processes pid process
        network := packets pid sends ++ c.network
        broadcasts := (⟨pid, uid⟩, message) :: c.broadcasts
        uids := uid :: c.uids }
    else none
  | .deliver index =>
    match c.network[index]? with
    | none => none
    | some packet =>
      let c' := { c with
        network := c.network.eraseIdx index
        delivered := packet :: c.delivered }
      if packet.dst ∈ cfg.faulty then some c'
      else if packet.dst ∈ c.started then some (c'.handle cfg packet)
      else none
  | .inject packet =>
    if c.Permitted cfg packet then some { c with network := packet :: c.network } else none

/-- The systems that runs reach. -/
abbrev Reachable (cfg : Config) : System α → Prop :=
  Transition.Reachable (step cfg) init fun _ _ => True

/-- The state after a run from the start. -/
def execute (cfg : Config) (actions : List (Action α)) : Option (System α) :=
  Transition.exec (step cfg) (fun _ _ => true) init actions

theorem reachable_execute {cfg : Config} {actions : List (Action α)} {c : System α}
    (h : execute cfg actions = some c) : Reachable cfg c :=
  Transition.Reachable.exec (fun _ _ _ => trivial) .init h

end System

end Blsmr.Broadcast
