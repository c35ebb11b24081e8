import Blsmr.Broadcast.Protocol
import Blsmr.Bullshark.Dag
import Blsmr.Hotstuff.Protocol
import Mathlib.Data.List.Sort

/-!
# A Bullshark replica (`crates/bullshark/src/lib.rs`)

A handler works on a `Work`: the replica, what all replicas share, and what has
been sent and scheduled so far. Whether a vertex is alive depends on the replica as
it is at that moment and on `elsewhere`: the vertices that the other replicas, the
messages and the handler itself hold. The buffer is a list sorted by the key of its
set. The interval of the submissions and latencies are left out.

`history` and `created` are ghosts: what the replica has ordered, counted, walked
past, received and thrown away, and the vertices of all replicas, newest first.
-/

namespace Blsmr

namespace Bullshark

open Hotstuff (Drain)

abbrev TimerId := ℕ

/-- The number of replicas, and how many commands each of them submits. -/
structure Config where
  procNum : ℕ
  submitLimit : ℕ

/-- `list_pool(BULLSHARK_POOL)`. -/
def Config.pool (cfg : Config) : List Pid := List.range cfg.procNum

/-- `try_ordering` has counted the votes of a vertex for an anchor. -/
structure Count where
  vertex : Vertex
  anchor : Vertex
  votes : ℕ

/-- `order_anchors` has looked at a round: the anchor it came from, what
`get_anchor` found there, and whether it pushed that. -/
structure Visit where
  round : ℕ
  anchor : Vertex
  found : Option Vertex
  linked : Bool
  pushed : List Vertex

/-- What has happened at a replica. `anchors` are the anchors whose history was
ordered, each with the `gc_offset` of that moment. -/
structure History where
  output : List Vertex
  anchors : List (Vertex × ℕ)
  counts : List Count
  visits : List Visit
  received : List Vertex
  thrown : List Vertex

/-- What all replicas share. -/
structure Shared where
  commits : Commits
  created : List Vertex
  broadcasts : List (MessageId × VertexMessage)
  nextUid : ℕ
  nextTimer : TimerId

/-- What a handler is given. -/
structure Env where
  cfg : Config
  me : Pid
  drain : Drain
  elsewhere : Vertex → Bool

/-- The handler holds a vertex itself. -/
def Env.holding (vertex : Vertex) (env : Env) : Env :=
  { env with elsewhere := fun u => env.elsewhere u || sameVertex u vertex }

end Bullshark

open Bullshark in
/-- `Bullshark`. -/
structure Bullshark where
  submitted : ℕ
  submitTimer : TimerId
  pendingCommands : AList fun _ : CmdId => Command
  rbcast : ByzantineConsistentBroadcast VertexMessage
  procNum : ℕ
  dag : RoundBasedDAG
  round : ℕ
  buffer : List Vertex
  lastOrderedRound : ℕ
  orderedAnchors : List Vertex
  wait : Bool
  timer : TimerId
  history : History

namespace Bullshark

/-- What a handler works on. -/
structure Work where
  state : Bullshark
  shared : Shared
  sends : List (Pid × BCBMessage VertexMessage)
  submits : List (Pid × Command)
  timers : List TimerId

/-- `Bullshark::default()`. -/
def default : Bullshark where
  submitted := 0
  submitTimer := 0
  pendingCommands := ∅
  rbcast := ByzantineConsistentBroadcast.default
  procNum := 0
  dag := RoundBasedDAG.default
  round := 0
  buffer := []
  lastOrderedRound := 0
  orderedAnchors := []
  wait := true
  timer := 0
  history := ⟨[], [], [], [], [], []⟩

/-! ## Looking at a replica -/

/-- Position `round`, `source` of the DAG holds the vertex itself. -/
def inDag (self : Bullshark) (vertex : Vertex) : Bool :=
  match self.dag.slot vertex.round vertex.source with
  | some (some known) => sameVertex vertex known
  | _ => false

/-- The replica holds the vertex. -/
def holds (self : Bullshark) (vertex : Vertex) : Bool :=
  self.inDag vertex || self.buffer.any (sameVertex vertex) ||
    self.rbcast.messages.entries.any fun e => sameVertex vertex e.2.1.content

def alive (env : Env) (self : Bullshark) (vertex : Vertex) : Bool :=
  env.elsewhere vertex || self.holds vertex

/-- `quorum_reached_for_round`. -/
def quorumReachedForRound (self : Bullshark) (round : ℕ) : Option Bool := do
  let row ← self.dag.index round
  return decide (quorumSize self.procNum ≤ row.reduceOption.length)

def getLeaderId (self : Bullshark) (round : ℕ) : Pid := round % self.procNum + 1

def getAnchor (self : Bullshark) (round : ℕ) : Option (Option Vertex) :=
  self.dag.slot round (self.getLeaderId round)

def badVertex (self : Bullshark) (vertex : Vertex) (sender : Pid) : Bool :=
  vertex.strongEdges.length < quorumSize self.procNum || sender != vertex.source

/-- The strong edges with an edge to the anchor. -/
def votes (anchor : Vertex) (vertices : List Vertex) : List Vertex :=
  vertices.filter fun vertex => vertex.strongEdges.any fun edge => sameVertex edge anchor

/-- `edge.upgrade().expect("live strong edge")`. -/
def upgrade (env : Env) (self : Bullshark) (edge : Vertex) : Option Vertex :=
  if self.alive env edge then some edge else none

/-- All edges are in the DAG; the first that is not ends the search. -/
def knowsAll (env : Env) (self : Bullshark) : List Vertex → Option Bool
  | [] => some true
  | edge :: edges => do
    let edge ← self.upgrade env edge
    match ← self.dag.slot edge.round edge.source with
    | none => return false
    | some known => if sameVertex edge known then self.knowsAll env edges else return false

/-- The keys of the buffer are ordered by round, then by source. -/
def before (vertex other : Vertex) : Bool :=
  vertex.round < other.round || vertex.round == other.round && vertex.source < other.source

/-- `PartialEq for Vertex`. -/
def sameKey (vertex other : Vertex) : Bool :=
  vertex.round == other.round && vertex.source == other.source

/-- `BTreeSet::insert`, which keeps an equal entry. -/
def bufferInsert (vertex : Vertex) : List Vertex → List Vertex
  | [] => [vertex]
  | other :: rest =>
    if before vertex other then vertex :: other :: rest
    else if sameKey vertex other then other :: rest
    else other :: bufferInsert vertex rest

/-- `BTreeSet::remove`. -/
def bufferRemove (vertex : Vertex) (buffer : List Vertex) : List Vertex :=
  buffer.filter fun other => !sameKey vertex other

/-! ## Ordering -/

/-- The loop of `order_anchors` that walks back from an anchor. Rounds are even. -/
def walk (alive : Vertex → Bool) : ℕ → Vertex → Bullshark → Option Bullshark
  | 0, _, self => some self
  | 1, _, self => if 1 > self.lastOrderedRound then none else some self
  | round + 2, anchor, self =>
    if round + 2 > self.lastOrderedRound then do
      match ← self.getAnchor (round + 2) with
      | none =>
        walk alive round anchor { self with history := { self.history with
          visits := ⟨round + 2, anchor, none, false, []⟩ :: self.history.visits } }
      | some previous =>
        let (linked, dag) ← self.dag.pathExists alive anchor previous
        let pushed := if linked then [previous] else []
        walk alive round (if linked then previous else anchor) { self with
          dag
          orderedAnchors := pushed ++ self.orderedAnchors
          history := { self.history with
            visits := ⟨round + 2, anchor, some previous, linked, pushed⟩ ::
              self.history.visits } }
    else some self

/-- `order_from` for the anchors on the stack, which empties it. -/
def orderAll (alive : Vertex → Bool) :
    List Vertex → Ledger → List (Vertex × ℕ) → Option (Ledger × List (Vertex × ℕ))
  | [], ledger, anchors => some (ledger, anchors)
  | anchor :: stack, ledger, anchors => do
    let fresh := !(← ledger.dag.isOrdered anchor)
    let anchors := if fresh then anchors ++ [(anchor, ledger.dag.gcOffset)] else anchors
    orderAll alive stack (← RoundBasedDAG.orderFrom alive anchor ledger) anchors

def orderAnchors (env : Env) (vertex : Vertex) (w : Work) : Option Work := do
  let alive := w.state.alive env
  let self := { w.state with orderedAnchors := vertex :: w.state.orderedAnchors }
  let self ← self.walk alive (vertex.round - 2) vertex
  let (ledger, anchors) ← orderAll alive self.orderedAnchors
    ⟨self.dag, w.shared.commits, self.history.output⟩ self.history.anchors
  return { w with
    state := { self with
      orderedAnchors := []
      lastOrderedRound := vertex.round
      dag := ledger.dag.gc vertex.round
      history := { self.history with output := ledger.output, anchors } }
    shared := { w.shared with commits := ledger.commits } }

def tryOrdering (env : Env) (vertex : Vertex) (w : Work) : Option Work :=
  if vertex.round % 2 = 1 ∨ vertex.round = 0 then some w
  else do
    match ← w.state.getAnchor (vertex.round - 2) with
    | none => return w
    | some anchor =>
      let edges ← vertex.strongEdges.mapM (w.state.upgrade env)
      let votes := (votes anchor edges).length
      let w := { w with state := { w.state with history := { w.state.history with
        counts := ⟨vertex, anchor, votes⟩ :: w.state.history.counts } } }
      if directCommitThreshold w.state.procNum ≤ votes then orderAnchors env anchor w
      else return w

/-! ## Vertices -/

def startTimer (w : Work) : Work :=
  { w with
    state := { w.state with timer := w.shared.nextTimer, wait := true }
    shared := { w.shared with nextTimer := w.shared.nextTimer + 1 }
    timers := w.shared.nextTimer :: w.timers }

def createVertex (env : Env) (round : ℕ) (w : Work) : Option (Vertex × Work) :=
  if round = 0 then none
  else do
    let row ← w.state.dag.index (round - 1)
    let vertex : Vertex :=
      { ptr := w.shared.created.length
        round
        source := env.me
        strongEdges := row.reduceOption
        commands := env.drain.order (w.state.pendingCommands.entries.map Sigma.snd) }
    return (vertex, { w with
      state := { w.state with pendingCommands := ∅ }
      shared := { w.shared with created := vertex :: w.shared.created } })

/-- `reliably_broadcast` of the replica. -/
def reliablyBroadcast (env : Env) (message : VertexMessage) (w : Work) : Work :=
  let (rbcast, sends) :=
    w.state.rbcast.reliablyBroadcast env.cfg.pool env.me w.shared.nextUid message
  { w with
    state := { w.state with rbcast }
    shared := { w.shared with
      broadcasts := (⟨env.me, w.shared.nextUid⟩, message) :: w.shared.broadcasts
      nextUid := w.shared.nextUid + 1 }
    sends := sends ++ w.sends }

/-- A vertex is dropped; it is thrown away if the DAG does not hold it. -/
def discard (vertex : Vertex) (w : Work) : Work :=
  { w with state := { w.state with
    buffer := bufferRemove vertex w.state.buffer
    history := { w.state.history with
      thrown := if w.state.inDag vertex then w.state.history.thrown
        else vertex :: w.state.history.thrown } } }

/-- The branch of `try_add_to_dag` in which the replica falls behind. -/
def catchUp (broadcastVertex : ℕ → Work → Option Work) (vertex : Vertex) (w : Work) :
    Option Work := do
  let reached ← w.state.quorumReachedForRound vertex.round
  if reached = true ∧ vertex.round > w.state.round then
    broadcastVertex vertex.round
      (startTimer { w with state := { w.state with round := vertex.round } })
  else return w

/-- The rest of `try_add_to_dag` for a vertex whose edges are in the DAG. -/
def place (broadcastVertex : ℕ → Work → Option Work) (env : Env) (vertex : Vertex) (w : Work) :
    Option Work := do
  let dag ← w.state.dag.addVertex vertex
  let w ← catchUp broadcastVertex vertex { w with state := { w.state with dag } }
  let w : Work :=
    { w with state := { w.state with buffer := bufferRemove vertex w.state.buffer } }
  if vertex.source = w.state.getLeaderId vertex.round then tryOrdering env vertex w
  else return w

/-- `try_add_to_dag`; `broadcastVertex` is called when the replica falls behind. -/
def tryAddWith (broadcastVertex : ℕ → Work → Option Work) (env : Env) (vertex : Vertex)
    (w : Work) : Option (Bool × Work) :=
  if vertex.round ≤ w.state.dag.minRound then some (true, discard vertex w)
  else if vertex.round - 1 > w.state.dag.currentMaxAllocatedRound then some (false, w)
  else do
    if ← w.state.knowsAll env vertex.strongEdges then
      return (true, ← place broadcastVertex env vertex w)
    else return (false, w)

/-- `broadcast_vertex`. Adding the own vertex does not come back here: the replica
is in the round of the vertex (`broadcastVertex_eq`). -/
def broadcastVertex (env : Env) (round : ℕ) (w : Work) : Option Work := do
  let (vertex, w) ← createVertex env round w
  let (_, w) ← tryAddWith (fun _ _ => none) env vertex w
  return reliablyBroadcast env (.vertex vertex) w

def tryAddToDag (env : Env) : Vertex → Work → Option (Bool × Work) :=
  tryAddWith (broadcastVertex env) env

def tryAdvanceRound (env : Env) (w : Work) : Option Work := do
  if ← w.state.quorumReachedForRound w.state.round then
    broadcastVertex env (w.state.round + 1)
      (startTimer { w with state := { w.state with round := w.state.round + 1 } })
  else return w

/-! ## Handlers -/

def scheduleSubmit (w : Work) : Work :=
  { w with
    state := { w.state with submitTimer := w.shared.nextTimer }
    shared := { w.shared with nextTimer := w.shared.nextTimer + 1 }
    timers := w.shared.nextTimer :: w.timers }

/-- The genesis vertex of a replica. -/
def genesis (env : Env) (w : Work) : Vertex where
  ptr := w.shared.created.length
  round := 0
  source := env.me
  strongEdges := []
  commands := []

/-- `on_start` up to the broadcast. -/
def setUp (env : Env) (w : Work) : Work :=
  let w := if env.cfg.submitLimit ≠ 0 then scheduleSubmit w else w
  let procNum := env.cfg.pool.length
  { w with
    state := { w.state with
      procNum
      dag := w.state.dag.setRoundSize procNum
      rbcast := w.state.rbcast.onStart procNum }
    shared := { w.shared with created := genesis env w :: w.shared.created } }

def onStart (env : Env) (w : Work) : Work :=
  reliablyBroadcast env (.genesis (genesis env w)) (setUp env w)

/-- `on_message` for a submitted command. -/
def onSubmit (command : Command) (self : Bullshark) : Bullshark :=
  if (self.pendingCommands.lookup command.id).isSome then self
  else { self with pendingCommands := self.pendingCommands.insert command.id command }

def receive (vertex : Vertex) (w : Work) : Work :=
  { w with state := { w.state with history := { w.state.history with
    received := vertex :: w.state.history.received } } }

/-- The buffered vertices are tried again. -/
def tryAll (env : Env) : List Vertex → Work → Option Work
  | [], w => some w
  | vertex :: rest, w => do
    let (_, w) ← tryAddToDag env vertex w
    tryAll env rest w

/-- Whether the replica goes on to the next round after a vertex of its round. -/
def mayAdvance (self : Bullshark) : Option Bool :=
  if !self.wait then some true
  else if self.round % 4 = 0 ∨ self.round % 4 = 2 then do
    return (← self.getAnchor self.round).isSome
  else do
    match ← self.getAnchor (self.round - 1) with
    | none => return false
    | some anchor =>
      let row ← self.dag.index self.round
      return decide (quorumSize self.procNum ≤ (votes anchor row.reduceOption).length)

/-- The branch of `on_message` for a genesis vertex. -/
def onGenesis (env : Env) (vertex : Vertex) (w : Work) : Option Work := do
  let dag ← w.state.dag.addVertex vertex
  tryAdvanceRound env (receive vertex { w with state := { w.state with dag } })

/-- The branch of `on_message` for any other vertex, once it is not a bad one. -/
def onVertex (env : Env) (vertex : Vertex) (w : Work) : Option Work := do
  let w := { w with state := { w.state with
    pendingCommands := vertex.commands.foldl (fun m command => m.erase command.id)
      w.state.pendingCommands } }
  let buffered := w.state.buffer.insertionSort fun a b => a.round ≤ b.round
  let w ← tryAll env buffered w
  let (added, w) ← tryAddToDag env vertex w
  let w := if added then w
    else { w with state := { w.state with buffer := bufferInsert vertex w.state.buffer } }
  let w := receive vertex w
  if w.state.round ≠ vertex.round then return w
  if ← w.state.mayAdvance then tryAdvanceRound env w else return w

def onMessage (env : Env) (sender : Pid) (message : BCBMessage VertexMessage) (w : Work) :
    Option Work :=
  let out := w.state.rbcast.onMessage env.cfg.pool env.me sender message
  let w := { w with state := { w.state with rbcast := out.state }, sends := out.sends ++ w.sends }
  match out.returned with
  | none => some w
  | some (.genesis vertex) => onGenesis (env.holding vertex) vertex w
  | some (.vertex vertex) =>
    if w.state.badVertex vertex sender then some w else onVertex (env.holding vertex) vertex w

/-- A command is submitted to all replicas. -/
def submit (env : Env) (w : Work) : Work :=
  let command : Command := { id := { pid := env.me, id := w.shared.nextUid }, key := 0 }
  { w with
    state := { w.state with submitted := w.state.submitted + 1 }
    shared := { w.shared with nextUid := w.shared.nextUid + 1 }
    submits := (env.cfg.pool.map fun pid => (pid, command)) ++ w.submits }

def onTimer (env : Env) (id : TimerId) (w : Work) : Option Work :=
  if id = w.state.submitTimer then
    let w := submit env w
    some (if w.state.submitted < env.cfg.submitLimit then scheduleSubmit w else w)
  else if id = w.state.timer then
    tryAdvanceRound env { w with state := { w.state with wait := false } }
  else some w

end Bullshark

end Blsmr
