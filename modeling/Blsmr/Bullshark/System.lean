import Blsmr.Broadcast.Cases
import Blsmr.Bullshark.Protocol
import Blsmr.Lib.Transition

/-!
# A Bullshark system

The replicas, what they share, the messages in flight and the timers that have not
fired. Messages are delivered exactly once, in any order, after any delay.
`unique_id` and `schedule_timer_after` count up; no timer has the number that the
timers of a new replica have. `submitted`, `delivered` and `returned` are ghosts:
the commands submitted, the messages of the consistent broadcast delivered, and what
it handed out.
-/

namespace Blsmr.Bullshark

open Blsmr.Transition
open Broadcast (Packet)
open Hotstuff (Drain)

structure System where
  replicas : Pid → Bullshark
  shared : Shared
  started : List Pid
  network : List (Packet VertexMessage)
  submits : List (Pid × Command)
  timers : List (Pid × TimerId)
  submitted : List Command
  delivered : List (Packet VertexMessage)
  returned : List (Pid × MessageId × VertexMessage)

inductive Action where
  | start (pid : Pid) (drain : Drain)
  | deliver (index : ℕ) (drain : Drain)
  | submit (index : ℕ)
  | timer (index : ℕ) (drain : Drain)

/-- The message holds the vertex. -/
def carries (message : BCBMessage VertexMessage) (vertex : Vertex) : Bool :=
  match message with
  | .initiate _ message => sameVertex vertex message.content
  | _ => false

namespace System

def init : System where
  replicas _ := Bullshark.default
  shared := ⟨⟨0, []⟩, [], [], 0, 1⟩
  started := []
  network := []
  submits := []
  timers := []
  submitted := []
  delivered := []
  returned := []

/-- Somebody other than replica `pid` holds the vertex: a replica or a message. -/
def elsewhere (cfg : Config) (c : System) (pid : Pid) (vertex : Vertex) : Bool :=
  (cfg.pool.any fun q => q != pid && (c.replicas q).holds vertex) ||
    c.network.any fun packet => carries packet.msg vertex

/-- What replica `pid` is given in this state. -/
def env (cfg : Config) (c : System) (pid : Pid) (drain : Drain) : Env :=
  ⟨cfg, pid, drain, c.elsewhere cfg pid⟩

/-- Replica `pid` begins to work. -/
def work (c : System) (pid : Pid) : Work := ⟨c.replicas pid, c.shared, [], [], []⟩

/-- Replica `pid` is done. -/
def update (c : System) (pid : Pid) (w : Work) : System :=
  { c with
    replicas := Function.update c.replicas pid w.state
    shared := w.shared
    network := Broadcast.packets pid w.sends ++ c.network
    submits := w.submits ++ c.submits
    timers := w.timers.map (fun id => (pid, id)) ++ c.timers
    submitted := w.submits.map Prod.snd ++ c.submitted }

/-- A message of the consistent broadcast has been delivered. -/
def deliver (cfg : Config) (c : System) (index : ℕ) (packet : Packet VertexMessage) : System :=
  { c with
    network := c.network.eraseIdx index
    delivered := packet :: c.delivered
    returned := Broadcast.entries packet ((c.replicas packet.dst).rbcast.onMessage cfg.pool
      packet.dst packet.src packet.msg) ++ c.returned }

/-- One step; `none` if the action is not enabled or the replica panics. -/
def step (cfg : Config) (c : System) : Action → Option System
  | .start pid drain =>
    if pid ∈ cfg.pool ∧ pid ∉ c.started then
      some ({ c with started := pid :: c.started }.update pid
        (onStart (c.env cfg pid drain) (c.work pid)))
    else none
  | .deliver index drain =>
    match c.network[index]? with
    | none => none
    | some packet =>
      if packet.dst ∈ c.started then
        (onMessage (c.env cfg packet.dst drain) packet.src packet.msg (c.work packet.dst)).map
          ((c.deliver cfg index packet).update packet.dst)
      else none
  | .submit index =>
    match c.submits[index]? with
    | none => none
    | some (pid, command) =>
      if pid ∈ c.started then
        some { c with
          replicas := Function.update c.replicas pid (onSubmit command (c.replicas pid))
          submits := c.submits.eraseIdx index }
      else none
  | .timer index drain =>
    match c.timers[index]? with
    | none => none
    | some (pid, id) =>
      (onTimer (c.env cfg pid drain) id (c.work pid)).map
        ({ c with timers := c.timers.eraseIdx index }.update pid)

/-- The systems that runs reach. -/
abbrev Reachable (cfg : Config) : System → Prop :=
  Transition.Reachable (step cfg) init fun _ _ => True

end System

/-! ## Schedules -/

/-- The commands are drained in the order in which they are kept. -/
def inOrder : Drain := ⟨id, List.Perm.refl⟩

/-- What is done next, and at most how many times. -/
structure Phase where
  next : System → Option Action
  count : ℕ

/-- The replicas start one after the other. -/
def Phase.start (cfg : Config) : Phase where
  next c := (cfg.pool.find? fun pid => pid ∉ c.started).map (.start · inOrder)
  count := cfg.procNum

/-- Position of the last entry that satisfies `p`. -/
def oldest {α : Type} (p : α → Bool) (l : List α) : Option ℕ :=
  (l.reverse.findIdx? p).map fun i => l.length - 1 - i

/-- The oldest of these messages is delivered. -/
def Phase.deliver (which : Packet VertexMessage → Bool) (count : ℕ) : Phase where
  next c := (oldest which c.network).map (.deliver · inOrder)
  count

/-- The oldest of these commands reaches its replica. -/
def Phase.submit (which : Pid × Command → Bool) (count : ℕ) : Phase where
  next c := (oldest which c.submits).map .submit
  count

/-- The oldest of these timers fires. -/
def Phase.timer (which : System → Pid × TimerId → Bool) (count : ℕ) : Phase where
  next c := (oldest (which c) c.timers).map (.timer · inOrder)
  count

/-- The round timers of the first `pid` replicas fire. -/
def Phase.timeout (pid : Pid) (count : ℕ) : Phase :=
  .timer (fun c t => decide (t.1 < pid) && t.2 == (c.replicas t.1).timer) count

/-- The phase ends when this holds. -/
def Phase.until (phase : Phase) (done : System → Bool) : Phase where
  next c := if done c then none else phase.next c
  count := phase.count

/-- The state after some phases. -/
def run (cfg : Config) : List Phase → System → Option System
  | [], c => some c
  | phase :: phases, c => (follow (System.step cfg) phase.next phase.count c).bind (run cfg phases)

/-- The phase ends when the next action fails the check. -/
def Phase.filter (check : System → Action → Bool) (phase : Phase) : Phase where
  next c := (phase.next c).filter (check c)
  count := phase.count

theorem reachable_run_of {cfg : Config} {ok : System → Action → Prop} {phases : List Phase}
    {c c' : System} (hok : ∀ phase ∈ phases, ∀ c a, phase.next c = some a → ok c a)
    (hc : Transition.Reachable (System.step cfg) System.init ok c)
    (h : run cfg phases c = some c') :
    Transition.Reachable (System.step cfg) System.init ok c' := by
  induction phases generalizing c with
  | nil => cases h; exact hc
  | cons phase phases ih =>
    obtain ⟨hphase, hok⟩ := List.forall_mem_cons.mp hok
    unfold run at h
    obtain ⟨d, hd, h⟩ := Option.bind_eq_some_iff.mp h
    exact ih hok (hc.follow hphase hd) h

theorem reachable_run {cfg : Config} {phases : List Phase} {c c' : System}
    (hc : c.Reachable cfg) (h : run cfg phases c = some c') : c'.Reachable cfg :=
  reachable_run_of (fun _ _ _ _ _ => trivial) hc h

theorem reachable_filter {cfg : Config} {ok : System → Action → Prop}
    {check : System → Action → Bool} (hcheck : ∀ c a, check c a = true → ok c a)
    {phases : List Phase} {c : System}
    (h : run cfg (phases.map (Phase.filter check)) System.init = some c) :
    Transition.Reachable (System.step cfg) System.init ok c := by
  refine reachable_run_of (fun phase hmem c a hnext => ?_) .init h
  obtain ⟨phase, -, rfl⟩ := List.mem_map.mp hmem
  exact hcheck c a (Option.filter_eq_some_iff.mp hnext).2

end Blsmr.Bullshark
