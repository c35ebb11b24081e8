import Blsmr.Quorum.Sizes
import Mathlib.Data.List.AList

/-!
# A HotStuff replica (`crates/hotstuff/src/lib.rs`)

A node holds a weak reference to its parent. Here it holds the parent itself,
and `Node.parent` gives it out only while the node is alive, that is while
something in the system still holds it: a handler is told which nodes are held
elsewhere, by the other replicas and by the messages, the one being handled
included, and it looks at the maps and fields of its own replica as they are at
that moment. The key-value store holds the genesis node for good.

`committed` are the commands whose flag is set, and `blockCommits` the counter
the replicas share. `created` and `commits` are ghosts: the nodes `create_leaf`
made, newest first, and the nodes for which `commit` counted. Latencies are left
out. A `none` is a panic.
-/

namespace Blsmr.Hotstuff

abbrev NodeId := ℕ

abbrev TimerId := ℕ

inductive Node where
  | genesis
  | child (id : NodeId) (parent : Node) (height : ℕ) (commands : List Command)
  deriving DecidableEq

namespace Node

def id : Node → NodeId
  | genesis => 0
  | child id _ _ _ => id

def height : Node → ℕ
  | genesis => 0
  | child _ _ height _ => height

def commands : Node → List Command
  | genesis => []
  | child _ _ _ commands => commands

/-- The node the weak reference was made from. -/
def parentRef : Node → Option Node
  | genesis => none
  | child _ parent _ _ => some parent

/-- `parent`, which upgrades the weak reference. -/
def parent (alive : Node → Bool) (self : Node) : Option Node := self.parentRef.filter alive

end Node

inductive HSMessage where
  | submit (command : Command)
  | propose (node : Node)
  | vote (node : Node)
  deriving DecidableEq

/-- The node a message carries. -/
def HSMessage.carries : HSMessage → Option Node
  | .submit _ => none
  | .propose node => some node
  | .vote node => some node

/-- What the replicas read from the simulator, `ROTATING`, and the counter
`dscale::helpers::Quorum<()>`: a new one for a threshold, and `add`, which tells
whether it returned `Some`. -/
structure Config (Q : Type) where
  rotating : Bool
  pool : List Pid
  submitLimit : ℕ
  newQuorum : ℕ → Q
  addQuorum : Q → Q × Bool

/-- The order in which a hash map is drained. -/
structure Drain where
  order : List Command → List Command
  perm : ∀ l, (order l).Perm l

/-- What the environment chooses in one step. -/
structure Env where
  uid : ℕ
  timer : TimerId
  drain : Drain

/-- What all replicas share. -/
structure Shared where
  blockCommits : ℕ
  committed : List CmdId
  created : List Node

end Hotstuff

open Hotstuff in
/-- `Hotstuff`. -/
structure Hotstuff (Q : Type) where
  submitted : ℕ
  currentSubmitTimerId : TimerId
  pendingCommands : AList fun _ : CmdId => Command
  pendingQuorums : AList fun _ : NodeId => ℕ × Q
  nodes : AList fun _ : NodeId => Node
  vheight : ℕ
  bLock : Node
  bExec : Node
  bLeaf : Node
  commits : List Node

namespace Hotstuff

/-- What a handler leaves behind. -/
structure Outcome (Q : Type) where
  state : Hotstuff Q
  shared : Shared
  sends : List (Pid × HSMessage)
  timers : List TimerId

/-- `HashMap::retain`. -/
def retain {α β : Type} (keep : β → Bool) (m : AList fun _ : α => β) : AList fun _ : α => β :=
  ⟨m.entries.filter fun e => keep e.2, m.nodupKeys.sublist List.filter_sublist⟩

variable {Q : Type}

/-- `Hotstuff::default()`. -/
def default : Hotstuff Q where
  submitted := 0
  currentSubmitTimerId := 0
  pendingCommands := ∅
  pendingQuorums := ∅
  nodes := AList.singleton Node.genesis.id Node.genesis
  vheight := 0
  bLock := .genesis
  bExec := .genesis
  bLeaf := .genesis
  commits := []

/-- The replica holds the node. -/
def holds (self : Hotstuff Q) (node : Node) : Bool :=
  (self.nodes.entries.any fun e => e.2 == node) || self.bLock == node || self.bExec == node ||
    self.bLeaf == node

/-- The node is alive. -/
def alive (elsewhere : Node → Bool) (self : Hotstuff Q) (node : Node) : Bool :=
  node == .genesis || elsewhere node || self.holds node

def scheduleSubmit (env : Env) (self : Hotstuff Q) : Hotstuff Q :=
  { self with currentSubmitTimerId := env.timer }

def createLeaf (env : Env) (self : Hotstuff Q) (shared : Shared) : Hotstuff Q × Shared × Node :=
  let node := Node.child env.uid self.bLeaf (self.bLeaf.height + 1)
    (env.drain.order (self.pendingCommands.entries.map Sigma.snd))
  ({ self with pendingCommands := ∅, nodes := self.nodes.insert node.id node },
    { shared with created := node :: shared.created }, node)

def collectGarbage (self : Hotstuff Q) : Hotstuff Q :=
  let committedHeight := self.bExec.height
  { self with
    nodes := retain (fun node => node.height ≥ committedHeight) self.nodes
    pendingQuorums := retain (fun entry => entry.1 > committedHeight) self.pendingQuorums }

/-- The leader of the current view; indexing an empty pool panics. -/
def nextLeader (cfg : Config Q) (self : Hotstuff Q) : Option Pid :=
  if cfg.rotating then cfg.pool[self.vheight % cfg.pool.length]? else cfg.pool[0]?

def extendsLock (elsewhere : Node → Bool) (self : Hotstuff Q) (node : Node) : Bool :=
  (node.parent (self.alive elsewhere)).any fun parent => parent.id == self.bLock.id

/-- A block is counted and its commands are flagged. -/
def countCommit (node : Node) (self : Hotstuff Q) (shared : Shared) : Hotstuff Q × Shared :=
  ({ self with commits := self.commits ++ [node] },
    { shared with
      blockCommits := shared.blockCommits + 1
      committed := node.commands.foldl (fun flags command => flags.insert command.id)
        shared.committed })

/-- `commit`; the height of the genesis node is never above that of `b_exec`, and
a dead parent is the panic `"genesis cannot commit"`. -/
def commit (elsewhere : Node → Bool) (self : Hotstuff Q) (shared : Shared) :
    Node → Option (Hotstuff Q × Shared)
  | .genesis => some (self, shared)
  | .child id parent height commands =>
    if self.bExec.height < height then
      if self.alive elsewhere parent then do
        let (self, shared) ← commit elsewhere self shared parent
        some (countCommit (.child id parent height commands) self shared)
      else none
    else some (self, shared)

/-- The branches of `update` that move `b_leaf` and `b_lock`. -/
def raise (self : Hotstuff Q) (node : Node) (grandparent : Option Node) : Hotstuff Q :=
  let self := if node.height > self.bLeaf.height then { self with bLeaf := node } else self
  match grandparent with
  | some grandparent =>
    if grandparent.height > self.bLock.height then { self with bLock := grandparent } else self
  | none => self

def update (elsewhere : Node → Bool) (self : Hotstuff Q) (shared : Shared) (node : Node) :
    Option (Hotstuff Q × Shared) :=
  let grandparent := (node.parent (self.alive elsewhere)).bind (·.parent (self.alive elsewhere))
  let greatGrandparent := grandparent.bind (·.parent (self.alive elsewhere))
  let self := self.raise node grandparent
  match greatGrandparent with
  | some block => do
    let (self, shared) ← self.commit elsewhere shared block
    some ({ self with bExec := block }.collectGarbage, shared)
  | none => some (self, shared)

/-- `broadcast` reaches every replica, the sender too. -/
def broadcast (cfg : Config Q) (msg : HSMessage) : List (Pid × HSMessage) :=
  cfg.pool.map fun pid => (pid, msg)

def onStart (cfg : Config Q) (me : Pid) (env : Env) (self : Hotstuff Q) (shared : Shared) :
    Outcome Q :=
  let (self, timers) :=
    if cfg.submitLimit ≠ 0 then (self.scheduleSubmit env, [env.timer]) else (self, [])
  if me = 0 then
    let (self, shared, leaf) := self.createLeaf env shared
    ⟨self, shared, broadcast cfg (.propose leaf), timers⟩
  else ⟨self, shared, [], timers⟩

/-- The branch of `on_message` that accepts a proposal, up to the vote. -/
def accept (self : Hotstuff Q) (node : Node) : Hotstuff Q :=
  { self with
    pendingCommands := node.commands.foldl (fun m command => m.erase command.id)
      self.pendingCommands
    nodes := self.nodes.insert node.id node
    vheight := node.height }

/-- A vote is added to the quorum of its node. -/
def addVote (cfg : Config Q) (self : Hotstuff Q) (node : Node) : Hotstuff Q × Bool :=
  let (height, quorum) := (self.pendingQuorums.lookup node.id).getD
    (node.height, cfg.newQuorum (quorumSize cfg.pool.length))
  let (quorum, reached) := cfg.addQuorum quorum
  ({ self with pendingQuorums := self.pendingQuorums.insert node.id (height, quorum) }, reached)

/-- The node has its quorum. -/
def certify (self : Hotstuff Q) (node : Node) : Hotstuff Q :=
  { self with nodes := self.nodes.insert node.id node, bLeaf := node }

def onMessage (cfg : Config Q) (env : Env) (elsewhere : Node → Bool) (self : Hotstuff Q)
    (shared : Shared) : HSMessage → Option (Outcome Q)
  | .submit command =>
    let self :=
      if (self.pendingCommands.lookup command.id).isSome then self
      else { self with pendingCommands := self.pendingCommands.insert command.id command }
    some ⟨self, shared, [], []⟩
  | .propose node =>
    if node.height > self.vheight ∧
        (self.extendsLock elsewhere node = true ∨ node.height > self.bLock.height) then do
      let self := self.accept node
      let leader ← self.nextLeader cfg
      let (self, shared) ← self.update elsewhere shared node
      some ⟨self, shared, [(leader, .vote node)], []⟩
    else some ⟨self, shared, [], []⟩
  | .vote node =>
    if node.height ≤ self.bExec.height then some ⟨self, shared, [], []⟩
    else
      let (self, reached) := self.addVote cfg node
      if reached then do
        let (self, shared, leaf) := (self.certify node).createLeaf env shared
        let (self, shared) ← self.update elsewhere shared leaf
        some ⟨self, shared, broadcast cfg (.propose leaf), []⟩
      else some ⟨self, shared, [], []⟩

def onTimer (cfg : Config Q) (me : Pid) (env : Env) (self : Hotstuff Q) (shared : Shared)
    (id : TimerId) : Option (Outcome Q) :=
  if id = self.currentSubmitTimerId then
    let command : Command := { id := { pid := me, id := env.uid }, key := 0 }
    let self := { self with
      pendingCommands := self.pendingCommands.insert command.id command
      submitted := self.submitted + 1 }
    let sends := (cfg.pool.filter (· ≠ me)).map fun pid => (pid, .submit command)
    if self.submitted < cfg.submitLimit then
      some ⟨self.scheduleSubmit env, shared, sends, [env.timer]⟩
    else some ⟨self, shared, sends, []⟩
  else none

end Hotstuff

end Blsmr
