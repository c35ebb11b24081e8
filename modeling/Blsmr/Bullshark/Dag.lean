import Blsmr.Client
import Blsmr.Lib.Rows

/-!
# The round-based DAG (`crates/bullshark/src/dag_utils.rs`)

A vertex holds weak references to the vertices of the round below. Here it holds
these vertices themselves; `ptr` is the address of the allocation, which is what
`same_vertex` and `as_ptr` compare, and `upgrade` succeeds for the vertices that
are `alive`: that something in the system still holds.

The rows of the three tables belong to the rounds from `gc_offset` on. A `none` is
a panic; the two searches are given enough fuel. `committed` are the commands whose
flag is set. `output` is a ghost, the vertices in the order in which they were
marked. Latencies and message sizes are left out.
-/

namespace Blsmr.Bullshark

open Rows

/-- `Vertex`, with its address. -/
structure Vertex where
  ptr : ℕ
  round : ℕ
  source : Pid
  strongEdges : List Vertex
  commands : List Command

def sameVertex (left right : Vertex) : Bool := left.ptr == right.ptr

/-- `VertexMessage`, without the number of processes. -/
inductive VertexMessage where
  | vertex (vertex : Vertex)
  | genesis (vertex : Vertex)

/-- The vertex a message holds. -/
def VertexMessage.content : VertexMessage → Vertex
  | .vertex v => v
  | .genesis v => v

structure RoundBasedDAG where
  procNum : ℕ
  matrix : List (List (Option Vertex))
  visited : List (List Bool)
  ordered : List (List Bool)
  gcOffset : ℕ

/-- The counter of committed blocks and the flags of the commands. -/
structure Commits where
  blockCommits : ℕ
  committed : List CmdId

def Commits.count (vertex : Vertex) (self : Commits) : Commits where
  blockCommits := self.blockCommits + 1
  committed := vertex.commands.foldl (fun flags command => flags.insert command.id) self.committed

/-- What `order_from` changes. -/
structure Ledger where
  dag : RoundBasedDAG
  commits : Commits
  output : List Vertex

namespace RoundBasedDAG

/-- `RoundBasedDAG::default()`. -/
def default : RoundBasedDAG := ⟨0, [], [], [], 0⟩

def setRoundSize (procNum : ℕ) (self : RoundBasedDAG) : RoundBasedDAG := { self with procNum }

def currentAllocatedRounds (self : RoundBasedDAG) : ℕ := self.matrix.length + self.gcOffset

def currentMaxAllocatedRound (self : RoundBasedDAG) : ℕ := self.currentAllocatedRounds - 1

def minRound (self : RoundBasedDAG) : ℕ := self.gcOffset

/-- `round`, the index of a row; the subtraction panics below zero. -/
def rowOf (self : RoundBasedDAG) (round : ℕ) : Option ℕ :=
  if self.gcOffset ≤ round then some (round - self.gcOffset) else none

/-- `dag[round]`. -/
def index (self : RoundBasedDAG) (round : ℕ) : Option (List (Option Vertex)) := do
  let row ← self.rowOf round
  self.matrix[row]?

/-- `dag[round][source]`. -/
def slot (self : RoundBasedDAG) (round : ℕ) (source : Pid) : Option (Option Vertex) := do
  let row ← self.rowOf round
  cell self.matrix row source

def grow (rounds : ℕ) (self : RoundBasedDAG) : RoundBasedDAG :=
  { self with
    matrix := self.matrix ++ List.replicate rounds (List.replicate (self.procNum + 1) none)
    visited := self.visited ++ List.replicate rounds (List.replicate (self.procNum + 1) false)
    ordered := self.ordered ++ List.replicate rounds (List.replicate (self.procNum + 1) false) }

def insert (vertex : Vertex) (self : RoundBasedDAG) : Option RoundBasedDAG := do
  let row ← self.rowOf vertex.round
  let matrix ← setCell self.matrix row vertex.source (some vertex)
  return { self with matrix }

def addVertex (vertex : Vertex) (self : RoundBasedDAG) : Option RoundBasedDAG :=
  if self.currentAllocatedRounds ≤ vertex.round then
    (self.grow (vertex.round + 1 - self.currentAllocatedRounds)).insert vertex
  else self.insert vertex

/-- At most so many rounds of the loop of `gc`. -/
def dropRows : ℕ → RoundBasedDAG → RoundBasedDAG
  | 0, self => self
  | rounds + 1, self =>
    if self.matrix.length > 1 then
      dropRows rounds { self with
        matrix := self.matrix.tail
        visited := self.visited.tail
        ordered := self.ordered.tail
        gcOffset := self.gcOffset + 1 }
    else self

def gc (keepFrom : ℕ) (self : RoundBasedDAG) : RoundBasedDAG :=
  dropRows (keepFrom - self.gcOffset) self

def liveEdges (alive : Vertex → Bool) (self : RoundBasedDAG) (vertex : Vertex) : List Vertex :=
  (vertex.strongEdges.filter alive).filter fun edge => edge.round ≥ self.gcOffset

def resetVisited (self : RoundBasedDAG) : RoundBasedDAG :=
  { self with visited := self.visited.map fun round => round.map fun _ => false }

/-- `visited[round][source]`. -/
def isVisited (self : RoundBasedDAG) (vertex : Vertex) : Option Bool := do
  let row ← self.rowOf vertex.round
  cell self.visited row vertex.source

def visit (vertex : Vertex) (self : RoundBasedDAG) : Option RoundBasedDAG := do
  let row ← self.rowOf vertex.round
  let visited ← setCell self.visited row vertex.source true
  return { self with visited }

/-- `ordered[round][source]`. -/
def isOrdered (self : RoundBasedDAG) (vertex : Vertex) : Option Bool := do
  let row ← self.rowOf vertex.round
  cell self.ordered row vertex.source

def markOrdered (vertex : Vertex) (self : RoundBasedDAG) : Option RoundBasedDAG := do
  let row ← self.rowOf vertex.round
  let ordered ← setCell self.ordered row vertex.source true
  return { self with ordered }

/-- How many entries a table has. -/
def size (self : RoundBasedDAG) : ℕ := self.matrix.length * (self.procNum + 1)

/-- The loop of `order_from`. -/
def orderLoop (alive : Vertex → Bool) : ℕ → List Vertex → Ledger → Option Ledger
  | 0, _, _ => none
  | _ + 1, [], ledger => some ledger
  | fuel + 1, current :: queue, ledger => do
    if ← ledger.dag.isOrdered current then orderLoop alive fuel queue ledger
    else
      let dag ← ledger.dag.markOrdered current
      orderLoop alive fuel (queue ++ dag.liveEdges alive current)
        ⟨dag, ledger.commits.count current, ledger.output ++ [current]⟩

/-- A vertex has at most one edge for each entry of a row. -/
def orderFrom (alive : Vertex → Bool) (vertex : Vertex) (ledger : Ledger) : Option Ledger :=
  orderLoop alive (ledger.dag.size * (ledger.dag.procNum + 1) + 2) [vertex] ledger

/-- The inner loop of `path_exists`: the edges of one vertex. -/
def visitEdges (target : Vertex) :
    List Vertex → RoundBasedDAG → List Vertex → Option (Bool × RoundBasedDAG × List Vertex)
  | [], self, queue => some (false, self, queue)
  | edge :: edges, self, queue => do
    if edge.round < target.round then visitEdges target edges self queue
    else if sameVertex edge target then some (true, self, queue)
    else if ← self.isVisited edge then visitEdges target edges self queue
    else visitEdges target edges (← self.visit edge) (queue ++ [edge])

/-- The outer loop of `path_exists`. -/
def pathLoop (alive : Vertex → Bool) (target : Vertex) :
    ℕ → List Vertex → RoundBasedDAG → Option (Bool × RoundBasedDAG)
  | 0, _, _ => none
  | _ + 1, [], self => some (false, self)
  | fuel + 1, current :: queue, self => do
    let (found, self, queue) ← visitEdges target (self.liveEdges alive current) self queue
    if found then some (true, self) else pathLoop alive target fuel queue self

def pathExists (alive : Vertex → Bool) (source target : Vertex) (self : RoundBasedDAG) :
    Option (Bool × RoundBasedDAG) :=
  if sameVertex source target then some (true, self)
  else do
    let self ← self.resetVisited.visit source
    pathLoop alive target (self.size + 2) [source] self

end RoundBasedDAG

end Blsmr.Bullshark
