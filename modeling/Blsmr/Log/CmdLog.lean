import Blsmr.Client
import Blsmr.Lib.DepOrder
import Mathlib.Data.List.AList

/-!
# The command log (`crates/blsmr/src/log.rs`)

`CmdLog` holds the commands a replica knows and has not yet executed. `submit`
records a command and reports the ones with the same key that are not stable;
`commit` fixes a command's dependencies and promotes every committed command
whose dependencies are all committed; promotion executes it, dependencies
first, and drops its entry.

Hash maps are association lists. The one place where the code iterates over a
hash set in hash order is `promote_stable`; `HashOrder` is the order it meets.
`executions` records the moments at which `try_execute` sets an executed flag,
with the command it then hands to `record_execution`; the code keeps no such
list. Latency bookkeeping (`submitted_at`, `record_latency`) is left out.
-/

namespace Blsmr

open Blsmr.Graph Blsmr.Tarjan

inductive Phase where
  | pending
  | commit
  | stable
  deriving DecidableEq, Repr

structure Entry where
  cmd : Option Command
  deps : Option (List CmdId)
  phase : Phase
  executed : Bool
  deriving DecidableEq, Repr

/-- The entry `or_insert_with` creates. -/
def Entry.new : Entry := { cmd := none, deps := none, phase := .pending, executed := false }

/-- `Entry::deps`: no list is the empty list. -/
def Entry.depList (e : Entry) : List CmdId := e.deps.getD []

/-- An executed flag set by `try_execute`, with the entry's command. -/
structure Execution where
  id : CmdId
  cmd : Option Command
  deriving DecidableEq, Repr

/-- The order in which an iteration over a hash set meets its elements. -/
structure HashOrder where
  order : List CmdId → List CmdId
  perm : ∀ l, (order l).Perm l

/-- Iteration in insertion order. -/
def HashOrder.insertion : HashOrder := ⟨id, fun _ => List.Perm.refl _⟩

structure CmdLog where
  entries : AList fun _ : CmdId => Entry
  byKey : AList fun _ : Key => List CmdId
  pendingCommit : List CmdId
  stable : List CmdId
  executions : List Execution

namespace CmdLog

/-- `CmdLog::default()`. -/
def empty : CmdLog where
  entries := ∅
  byKey := ∅
  pendingCommit := []
  stable := []
  executions := []

/-- The entry of `id`, if there is one. -/
def entryAt (log : CmdLog) (id : CmdId) : Option Entry := log.entries.lookup id

/-- `entries.entry(id).or_insert_with(..)`. -/
def entryOrNew (log : CmdLog) (id : CmdId) : Entry := (log.entryAt id).getD Entry.new

/-- The bucket of a key. -/
def bucket (log : CmdLog) (key : Key) : List CmdId := (log.byKey.lookup key).getD []

def setEntry (log : CmdLog) (id : CmdId) (e : Entry) : CmdLog :=
  { log with entries := log.entries.insert id e }

/-- The dependencies in the entry of `id`; none without an entry. -/
def depsOf (log : CmdLog) (id : CmdId) : List CmdId :=
  match log.entryAt id with
  | some e => e.depList
  | none => []

/-- The identifiers of the commands executed so far, in order. -/
def executed (log : CmdLog) : List CmdId := log.executions.map Execution.id

/-- The commands handed to `record_execution`, in order. -/
def recorded (log : CmdLog) : List Command := log.executions.filterMap Execution.cmd

def recordCreation (log : CmdLog) (cmdId : CmdId) : CmdLog :=
  log.setEntry cmdId (log.entryOrNew cmdId)

/-- The same-key commands in the log that are not stable. -/
def conflicts (log : CmdLog) (key : Key) : List CmdId :=
  (((log.bucket key).filterMap log.entryAt).filter fun e => e.phase ≠ .stable).filterMap
    fun e => e.cmd.map Command.id

def submit (log : CmdLog) (cmd : Command) : CmdLog × List CmdId :=
  if cmd.id ∈ log.stable then (log, [])
  else
    let e := log.entryOrNew cmd.id
    let log' :=
      if e.cmd.isNone then
        { log.setEntry cmd.id { e with cmd := some cmd } with
          byKey := log.byKey.insert cmd.key (log.bucket cmd.key ++ [cmd.id]) }
      else log.setEntry cmd.id e
    (log', log.conflicts cmd.key)

/-- One round of the loop of `is_deps_closure_committed`: a stable command ends
its branch, a committed one pushes its dependencies, any other fails. -/
def expandCommitted (log : CmdLog) (id : CmdId) : Option (List CmdId) :=
  if id ∈ log.stable then some []
  else
    match log.entryAt id with
    | some e => if e.phase = .commit ∨ e.phase = .stable then some e.depList else none
    | none => none

def isDepsClosureCommitted (log : CmdLog) (deps : List CmdId) : Bool :=
  (search log.expandCommitted (log.stable.length + log.entries.keys.length) deps.reverse []).isSome

/-- The dependencies `collect_pending_closure` follows from `id`. -/
def pendingDeps (log : CmdLog) (id : CmdId) : List CmdId :=
  (log.depsOf id).filter fun dep => (log.entryAt dep).any fun e => !e.executed

def collectPendingClosure (log : CmdLog) (root : CmdId) : Option (List CmdId) :=
  (search (fun id => some (log.pendingDeps id)) (log.entries.keys.length + 1) [root] []).map
    fun seen => seen.insertionSort (· ≤ ·)

def tarjanSccs (log : CmdLog) (nodes : List CmdId) : Option (List (List CmdId)) :=
  components log.depsOf nodes

/-- Set the executed flag of `id`, once. -/
def executeEntry (log : CmdLog) (id : CmdId) : CmdLog :=
  match log.entryAt id with
  | some e =>
    if e.executed then log
    else
      { log.setEntry id { e with executed := true } with
        executions := log.executions ++ [⟨id, e.cmd⟩] }
  | none => log

/-- Execute `root` and every unexecuted command it depends on, dependencies first. -/
def tryExecute (log : CmdLog) (root : CmdId) : Option CmdLog :=
  if (log.entryAt root).all Entry.executed then some log
  else do
    let pending ← log.collectPendingClosure root
    let sccs ← log.tarjanSccs pending
    return sccs.foldl (fun log scc => (scc.insertionSort (· ≤ ·)).foldl executeEntry log) log

/-- `bucket.retain(|bucketed| bucketed != id)` on the bucket of `key`, if there is one. -/
def retainInBucket (log : CmdLog) (key : Key) (id : CmdId) : CmdLog :=
  match log.byKey.lookup key with
  | some bucket => { log with byKey := log.byKey.insert key (bucket.filter (· ≠ id)) }
  | none => log

/-- One round of the promotion loop. -/
def promoteOne (log : CmdLog) (id : CmdId) : Option CmdLog := do
  let log := { log with pendingCommit := log.pendingCommit.erase id }
  let e ← log.entryAt id
  let log ← (log.setEntry id { e with phase := .stable }).tryExecute id
  let log := match e.cmd with
    | some cmd => log.retainInBucket cmd.key id
    | none => log
  return { log with entries := log.entries.erase id, stable := id :: log.stable }

/-- The commands of a list whose dependencies are all committed. Indexing
`entries` with a missing identifier panics. -/
def newlyStable (log : CmdLog) : List CmdId → Option (List CmdId)
  | [] => some []
  | id :: rest => do
    let e ← log.entryAt id
    let ids ← newlyStable log rest
    return if log.isDepsClosureCommitted e.depList then id :: ids else ids

def promoteStable (log : CmdLog) (hash : HashOrder) : Option CmdLog := do
  let ids ← log.newlyStable (hash.order log.pendingCommit)
  ids.foldlM promoteOne log

def commit (log : CmdLog) (hash : HashOrder) (cmdId : CmdId) (deps : List CmdId) : Option CmdLog :=
  if cmdId ∈ log.stable then some log
  else
    let e := log.entryOrNew cmdId
    let e := { e with deps := if deps.isEmpty then none else some deps, phase := .commit }
    let log := log.setEntry cmdId e
    let log := { log with pendingCommit := log.pendingCommit.insert cmdId }
    log.promoteStable hash

end CmdLog

end Blsmr
