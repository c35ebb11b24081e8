import Blsmr.Log.Runs
import Blsmr.Quorum.System

/-!
# Dependency discovery (`crates/blsmr/src/dds.rs`)

A coordinator announces a command, collects the conflicts the other replicas
report and hands the replies over once they form a quorum: all replies for
Wintermute, a quorum of the quorum system otherwise. A Wintermute coordinator
also sets a timer that hands over whatever quorum there is when it fires.

Handlers return the messages they send. A `none` is a panic of the code. The
random choices of the simulator, its fresh identifiers and the hash order are
the `Env` of a step. `calls` lists the calls made on the log; the code keeps no
such list.
-/

namespace Blsmr

abbrev TimerId := ℕ

inductive BLSMRProtocol where
  | epaxos
  | wintermute
  | threeJane
  deriving DecidableEq, Repr

/-- What the replicas read from the key-value store and the simulator: the
members of `POOL_BLSMR`, the quorum system, the protocol, the submit limit, and
the hash function that picks a committee. -/
structure Config where
  protocolType : BLSMRProtocol
  pool : List Pid
  quorumSystem : QuorumSystem
  submitLimit : ℕ
  fxHash : CmdId → Pid → ℕ

/-- What the environment chooses in one step: the key of a new command, the
values of `unique_id` and `schedule_timer_after`, the random quorum, and the
order in which a hash set is met. -/
structure Env where
  key : Key
  uid : ℕ
  forceTimer : TimerId
  submitTimer : TimerId
  rng : QuorumSystem.Randomness
  hash : HashOrder

structure Res where
  pid : Pid
  id : CmdId
  conflicts : List CmdId
  deriving DecidableEq, Repr

inductive Announce where
  | req (cmd : Command)
  | res (res : Res)
  | commit (cmdId : CmdId) (deps : List CmdId)
  deriving DecidableEq, Repr

structure QuorumReady where
  quorum : List Res
  allowFastpath : Bool
  deriving DecidableEq, Repr

inductive AnnounceStatus where
  | doNothing
  | quorumReady (ready : QuorumReady)

structure DDS where
  bqs : QuorumSystem
  log : CmdLog
  calls : List LogCall
  pendingAnnounceQuorums : AList fun _ : CmdId => List Res
  announceForceTimers : AList fun _ : TimerId => CmdId

namespace DDS

/-- `DDS::default()`. -/
def default (cfg : Config) : DDS where
  bqs := cfg.quorumSystem
  log := .empty
  calls := []
  pendingAnnounceQuorums := ∅
  announceForceTimers := ∅

def prepareAnnounce (cfg : Config) (env : Env) (self : DDS) (cmd : Command) : DDS :=
  let self :=
    match cfg.protocolType with
    | .wintermute =>
      { self with announceForceTimers := self.announceForceTimers.insert env.forceTimer cmd.id }
    | _ => self
  { self with pendingAnnounceQuorums := self.pendingAnnounceQuorums.insert cmd.id [] }

def sendAnnounce (cfg : Config) (env : Env) (self : DDS) (cmd : Command) :
    DDS × List (Pid × Announce) :=
  match cfg.protocolType with
  | .threeJane =>
    let (bqs, quorum) := self.bqs.chooseRandomQuorum env.rng
    ({ self with bqs }, quorum.map fun pid => (pid, .req cmd))
  | _ => (self, cfg.pool.map fun pid => (pid, .req cmd))

def announce (cfg : Config) (env : Env) (self : DDS) (cmd : Command) :
    DDS × List (Pid × Announce) :=
  let self := { self with
    log := self.log.recordCreation cmd.id
    calls := self.calls ++ [LogCall.recordCreation cmd.id] }
  (self.prepareAnnounce cfg env cmd).sendAnnounce cfg env cmd

/-- The timers `prepare_announce` schedules. -/
def announceTimers (cfg : Config) (env : Env) : List TimerId :=
  match cfg.protocolType with
  | .wintermute => [env.forceTimer]
  | _ => []

/-- An empty quorum of the right length would index out of range. -/
def allowFastpath (cfg : Config) (quorum : List Res) : Option Bool :=
  if quorum.length ≠ cfg.pool.length then some false
  else
    match quorum with
    | [] => none
    | first :: rest => some (rest.all fun res =>
        res.conflicts.length == first.conflicts.length &&
          res.conflicts.all fun cmd => cmd ∈ first.conflicts)

def isQuorum (self : DDS) (res : List Res) : Bool := self.bqs.isQuorum (res.map Res.pid)

/-- Whether a reply completes the quorum. -/
def isReady (cfg : Config) (self : DDS) (quorum : List Res) : Bool :=
  match cfg.protocolType with
  | .wintermute => quorum.length == cfg.pool.length
  | _ => self.isQuorum quorum

def commit (env : Env) (self : DDS) (cmdId : CmdId) (deps : List CmdId) : Option DDS :=
  (self.log.commit env.hash cmdId deps).map fun log =>
    { self with log, calls := self.calls ++ [LogCall.commit env.hash cmdId deps] }

def onMessage (cfg : Config) (me : Pid) (env : Env) (self : DDS) (src : Pid) :
    Announce → Option (DDS × AnnounceStatus × List (Pid × Announce))
  | .req cmd =>
    let (log, conflicts) := self.log.submit cmd
    some ({ self with log, calls := self.calls ++ [LogCall.submit cmd] }, .doNothing,
      [(src, .res { pid := me, id := cmd.id, conflicts })])
  | .commit cmdId deps => (self.commit env cmdId deps).map fun self => (self, .doNothing, [])
  | .res res =>
    match self.pendingAnnounceQuorums.lookup res.id with
    -- already decided: a straggler's reply
    | none => some (self, .doNothing, [])
    | some quorum =>
      let quorum := quorum ++ [res]
      if self.isReady cfg quorum then
        (allowFastpath cfg quorum).map fun allowFastpath =>
          ({ self with pendingAnnounceQuorums := self.pendingAnnounceQuorums.erase res.id },
            .quorumReady { quorum, allowFastpath }, [])
      else
        some ({ self with
          pendingAnnounceQuorums := self.pendingAnnounceQuorums.insert res.id quorum },
          .doNothing, [])

def isMyTimer (self : DDS) (timerId : TimerId) : Bool :=
  (self.announceForceTimers.lookup timerId).isSome

def onTimer (cfg : Config) (self : DDS) (id : TimerId) : Option (DDS × AnnounceStatus) := do
  let cmdId ← self.announceForceTimers.lookup id
  let self := { self with announceForceTimers := self.announceForceTimers.erase id }
  match self.pendingAnnounceQuorums.lookup cmdId with
  -- already decided before the timer fired
  | none => return (self, .doNothing)
  | some quorum =>
    if self.isQuorum quorum then
      let allowFastpath ← allowFastpath cfg quorum
      return ({ self with pendingAnnounceQuorums := self.pendingAnnounceQuorums.erase cmdId },
        .quorumReady { quorum, allowFastpath })
    else return (self, .doNothing)

end DDS

/-- `Vec::dedup`: drop elements equal to their predecessor. -/
def dedup : List CmdId → List CmdId
  | [] => []
  | [x] => [x]
  | x :: y :: rest => if x = y then dedup (y :: rest) else x :: dedup (y :: rest)

/-- The conflicts reported by a quorum, sorted, each once. -/
def unionDeps (quorum : List Res) : List CmdId :=
  dedup ((quorum.flatMap Res.conflicts).insertionSort (· ≤ ·))

theorem mem_dedup {x : CmdId} : ∀ l : List CmdId, x ∈ dedup l ↔ x ∈ l
  | [] => Iff.rfl
  | [_] => Iff.rfl
  | a :: b :: rest => by
    have ih := mem_dedup (x := x) (b :: rest)
    unfold dedup
    by_cases h : a = b
    · subst h
      rw [if_pos rfl, ih]
      simp
    · rw [if_neg h, List.mem_cons, ih, List.mem_cons (a := x) (b := a)]

theorem mem_unionDeps {quorum : List Res} {x : CmdId} :
    x ∈ unionDeps quorum ↔ ∃ res ∈ quorum, x ∈ res.conflicts := by
  rw [unionDeps, mem_dedup, List.mem_insertionSort, List.mem_flatMap]

end Blsmr
