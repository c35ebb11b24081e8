import Blsmr.Replica.Dds

/-!
# The slow path (`crates/blsmr/src/quorum.rs`)

A coordinator proposes the dependencies of a command to a committee and decides
once every member has answered. The committee is the whole pool, except for
3Jane, where it is the part of the pool with the smallest hashes.
-/

namespace Blsmr

inductive QuorumMsg where
  | request (cmdId : CmdId) (deps : List CmdId)
  | response (cmdId : CmdId) (deps : List CmdId)
  deriving DecidableEq, Repr

inductive QuorumStatus where
  | doNothing
  | decided (cmdId : CmdId) (deps : List CmdId)

structure Instance where
  deps : List CmdId
  replicas : List Pid
  responses : List Pid
  deriving DecidableEq, Repr

namespace Instance

def new (deps : List CmdId) (replicas : List Pid) : Instance := ⟨deps, replicas, []⟩

/-- The instance afterwards, and whether it is complete. -/
def accept (self : Instance) (src : Pid) (deps : List CmdId) : Instance × Bool :=
  if self.deps = deps ∧ src ∈ self.replicas then
    let self := { self with responses := self.responses.insert src }
    (self, self.responses.length == self.replicas.length)
  else (self, false)

end Instance

/-- `Quorum`, with its instances. -/
structure Quorum where
  instances : AList fun _ : CmdId => Instance

namespace Quorum

def default : Quorum := ⟨∅⟩

/-- The committee of a command. -/
def replicas (cfg : Config) (cmdId : CmdId) : List Pid :=
  if cfg.protocolType ≠ .threeJane then cfg.pool
  else
    (cfg.pool.insertionSort fun p q => cfg.fxHash cmdId p ≤ cfg.fxHash cmdId q).take
      cfg.quorumSystem.consensusCommitteeSize

def propose (cfg : Config) (self : Quorum) (cmdId : CmdId) (deps : List CmdId) :
    Quorum × List (Pid × QuorumMsg) :=
  let replicas := replicas cfg cmdId
  ({ self with instances := self.instances.insert cmdId (.new deps replicas) },
    replicas.map fun pid => (pid, .request cmdId deps))

def onMessage (self : Quorum) (src : Pid) :
    QuorumMsg → Quorum × QuorumStatus × List (Pid × QuorumMsg)
  | .request cmdId deps => (self, .doNothing, [(src, .response cmdId deps)])
  | .response cmdId deps =>
    match self.instances.lookup cmdId with
    | none => (self, .doNothing, [])
    | some inst =>
      let (inst, decision) := inst.accept src deps
      if decision then
        ({ self with instances := self.instances.erase cmdId }, .decided cmdId inst.deps, [])
      else ({ self with instances := self.instances.insert cmdId inst }, .doNothing, [])

end Quorum

end Blsmr
