import Blsmr.Replica.Quorum

/-!
# A replica (`crates/blsmr/src/process.rs`)

`BLSMR` announces a command whenever its submit timer fires, and moves every
command through its two stages: the announce quorum, and then the decision,
at once on the fast path or after the slow path. `announced`, `ready` and
`decided` list the announced commands, the `QuorumReady` values and the calls of
`decide`; the code keeps no such lists. Metrics are left out.
-/

namespace Blsmr

inductive Message where
  | announce (m : Announce)
  | quorum (m : QuorumMsg)
  deriving DecidableEq, Repr

structure BLSMR where
  submitted : ℕ
  currentSubmitTimerId : TimerId
  dds : DDS
  quorum : Quorum
  announced : List Command
  ready : List (CmdId × QuorumReady)
  decided : List (CmdId × List CmdId)

/-- What a handler leaves behind: the state, the messages sent and the timers
scheduled. -/
structure Outcome where
  state : BLSMR
  sends : List (Pid × Message)
  timers : List TimerId

namespace BLSMR

/-- `BLSMR::default()`. -/
def default (cfg : Config) : BLSMR where
  submitted := 0
  currentSubmitTimerId := 0
  dds := .default cfg
  quorum := .default
  announced := []
  ready := []
  decided := []

def schedSubmit (env : Env) (self : BLSMR) : BLSMR :=
  { self with currentSubmitTimerId := env.submitTimer }

def onStart (cfg : Config) (env : Env) (self : BLSMR) : Outcome :=
  if cfg.submitLimit ≠ 0 then ⟨self.schedSubmit env, [], [env.submitTimer]⟩
  else ⟨self, [], []⟩

def decide (cfg : Config) (me : Pid) (env : Env) (self : BLSMR) (cmdId : CmdId)
    (deps : List CmdId) : Option Outcome :=
  (self.dds.commit env cmdId deps).map fun dds =>
    { state := { self with dds, decided := self.decided ++ [(cmdId, deps)] }
      sends := (cfg.pool.filter (· ≠ me)).map fun pid => (pid, .announce (.commit cmdId deps))
      timers := [] }

/-- Indexing the first reply of an empty quorum panics. -/
def handleAnnounceStatus (cfg : Config) (me : Pid) (env : Env) (self : BLSMR) :
    AnnounceStatus → Option Outcome
  | .doNothing => some ⟨self, [], []⟩
  | .quorumReady ready =>
    match ready.quorum with
    | [] => none
    | first :: _ =>
      let cmdId := first.id
      let self := { self with ready := self.ready ++ [(cmdId, ready)] }
      let deps := unionDeps ready.quorum
      if ready.allowFastpath then self.decide cfg me env cmdId deps
      else
        let (quorum, sends) := self.quorum.propose cfg cmdId deps
        some ⟨{ self with quorum }, sends.map fun (pid, m) => (pid, .quorum m), []⟩

def handleQuorumStatus (cfg : Config) (me : Pid) (env : Env) (self : BLSMR) :
    QuorumStatus → Option Outcome
  | .doNothing => some ⟨self, [], []⟩
  | .decided cmdId deps => self.decide cfg me env cmdId deps

def onMessage (cfg : Config) (me : Pid) (env : Env) (self : BLSMR) (src : Pid) :
    Message → Option Outcome
  | .announce m => do
    let (dds, status, sends) ← self.dds.onMessage cfg me env src m
    let out ← { self with dds }.handleAnnounceStatus cfg me env status
    return { out with sends := sends.map (fun (pid, m) => (pid, .announce m)) ++ out.sends }
  | .quorum m => do
    let (quorum, status, sends) := self.quorum.onMessage src m
    let out ← { self with quorum }.handleQuorumStatus cfg me env status
    return { out with sends := sends.map (fun (pid, m) => (pid, .quorum m)) ++ out.sends }

/-- The branch of `on_timer` for the submit timer. -/
def onSubmitTimer (cfg : Config) (me : Pid) (env : Env) (self : BLSMR) : Outcome :=
  let cmd : Command := { id := { pid := me, id := env.uid }, key := env.key }
  let (dds, sends) := self.dds.announce cfg env cmd
  let self := { self with
    dds, announced := self.announced ++ [cmd], submitted := self.submitted + 1 }
  let sends := sends.map fun (pid, m) => (pid, .announce m)
  if self.submitted < cfg.submitLimit then
    ⟨self.schedSubmit env, sends, DDS.announceTimers cfg env ++ [env.submitTimer]⟩
  else ⟨self, sends, DDS.announceTimers cfg env⟩

/-- A timer that is neither an announce timer nor the submit timer is unreachable. -/
def onTimer (cfg : Config) (me : Pid) (env : Env) (self : BLSMR) (id : TimerId) :
    Option Outcome :=
  if self.dds.isMyTimer id then do
    let (dds, status) ← self.dds.onTimer cfg id
    { self with dds }.handleAnnounceStatus cfg me env status
  else if id = self.currentSubmitTimerId then some (self.onSubmitTimer cfg me env)
  else none

end BLSMR

end Blsmr
