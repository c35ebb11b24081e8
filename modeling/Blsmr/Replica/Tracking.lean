import Blsmr.Log.Tracker
import Blsmr.Replica.Requests
import Blsmr.Replica.StateMachine

/-!
# A cluster with a conflict tracker (`crates/blsmr/src/process.rs`)

The handlers as they are with `KEY_TRACK_CONFLICT_RATE` set: beside what the plain handlers
do they call the tracker that all replicas share. Without the calls a tracked run is a run of
the cluster, and every run of the cluster can be tracked (`tracked_records`). `Told` says
what the calls of one handler tell: the command that arrived, and what the handler added to
the executions, the quorums handed over and the decisions.
-/

namespace Blsmr

open Blsmr.Transition TrackerCall

def arrivalEvent (cmd : Command) : TrackerEvent := .arrival cmd.id cmd.key

def executionEvent (pid : Pid) (cmd : Command) : TrackerEvent := .execution pid cmd.id cmd.key

/-- The calls of `record_execution` while `log` becomes `log'`. -/
def executionCalls (me : Pid) (log log' : CmdLog) : List TrackerCall :=
  (log'.recorded.drop log.recorded.length).map fun cmd => .event (executionEvent me cmd)

namespace BLSMR

def trackDecide (cfg : Config) (me : Pid) (env : Env) (self : BLSMR) (cmdId : CmdId)
    (deps : List CmdId) : Option (Outcome × List TrackerCall) :=
  (self.decide cfg me env cmdId deps).map fun out =>
    (out, .decision cmdId deps :: executionCalls me self.dds.log out.state.dds.log)

def trackAnnounceStatus (cfg : Config) (me : Pid) (env : Env) (self : BLSMR) :
    AnnounceStatus → Option (Outcome × List TrackerCall)
  | .doNothing => some (⟨self, [], []⟩, [])
  | .quorumReady ready =>
    match ready.quorum with
    | [] => none
    | first :: _ =>
      let cmdId := first.id
      let self := { self with ready := self.ready ++ [(cmdId, ready)] }
      let deps := unionDeps ready.quorum
      if ready.allowFastpath then
        (self.trackDecide cfg me env cmdId deps).map fun (out, calls) =>
          (out, .path cmdId ready.allowFastpath :: calls)
      else
        let (quorum, sends) := self.quorum.propose cfg cmdId deps
        some (⟨{ self with quorum }, sends.map fun (pid, m) => (pid, .quorum m), []⟩,
          [.path cmdId ready.allowFastpath])

def trackQuorumStatus (cfg : Config) (me : Pid) (env : Env) (self : BLSMR) :
    QuorumStatus → Option (Outcome × List TrackerCall)
  | .doNothing => some (⟨self, [], []⟩, [])
  | .decided cmdId deps => self.trackDecide cfg me env cmdId deps

/-- `record_arrival` is called for a request. -/
def arrivalCalls : Announce → List TrackerCall
  | .req cmd => [.event (arrivalEvent cmd)]
  | _ => []

def trackOnMessage (cfg : Config) (me : Pid) (env : Env) (self : BLSMR) (src : Pid) :
    Message → Option (Outcome × List TrackerCall)
  | .announce m => do
    let (dds, status, sends) ← self.dds.onMessage cfg me env src m
    let (out, calls) ← { self with dds }.trackAnnounceStatus cfg me env status
    return ({ out with sends := sends.map (fun (pid, m) => (pid, .announce m)) ++ out.sends },
      arrivalCalls m ++ executionCalls me self.dds.log dds.log ++ calls)
  | .quorum m => do
    let (quorum, status, sends) := self.quorum.onMessage src m
    let (out, calls) ← { self with quorum }.trackQuorumStatus cfg me env status
    return ({ out with sends := sends.map (fun (pid, m) => (pid, .quorum m)) ++ out.sends }, calls)

def trackOnTimer (cfg : Config) (me : Pid) (env : Env) (self : BLSMR) (id : TimerId) :
    Option (Outcome × List TrackerCall) :=
  if self.dds.isMyTimer id then do
    let (dds, status) ← self.dds.onTimer cfg id
    { self with dds }.trackAnnounceStatus cfg me env status
  else if id = self.currentSubmitTimerId then
    some (self.onSubmitTimer cfg me env, [.event (arrivalEvent ⟨⟨me, env.uid⟩, env.key⟩)])
  else none

end BLSMR

/-- A cluster and the calls made on its tracker. -/
structure Tracked where
  cluster : Cluster
  calls : List TrackerCall

namespace Tracked

def init (cfg : Config) : Tracked := ⟨.init cfg, []⟩

/-- The tracker, made by `ConflictTracker::new` for the members of the pool. -/
def tracker (cfg : Config) (s : Tracked) : Tracker := .after cfg.pool.length s.calls

/-- The arrivals and executions that the tracker was told. -/
def events (s : Tracked) : List TrackerEvent := s.calls.filterMap event?

/-- One step of the cluster, with the calls it makes. -/
def step (cfg : Config) (s : Tracked) (a : Action) : Option Tracked :=
  let c := s.cluster
  if c.Fresh a.env then
    match a with
    | .start pid env =>
      if pid ∈ cfg.pool ∧ pid ∉ c.started then
        some ⟨{ c with started := pid :: c.started }.update pid env
          ((c.replicas pid).onStart cfg env), s.calls⟩
      else none
    | .deliver packet env =>
      if packet ∈ c.network then
        ((c.replicas packet.dst).trackOnMessage cfg packet.dst env packet.src packet.msg).map
          fun r =>
            ⟨{ c with network := c.network.erase packet }.update packet.dst env r.1,
              s.calls ++ r.2⟩
      else none
    | .timer pid id env =>
      if c.timers.contains (pid, id) then
        ((c.replicas pid).trackOnTimer cfg pid env id).map fun r =>
          ⟨{ c with timers := c.timers.erase (pid, id) }.update pid env r.1, s.calls ++ r.2⟩
      else none
  else none

abbrev Reachable (cfg : Config) : Tracked → Prop :=
  Transition.Reachable (step cfg) (init cfg) fun _ _ => True

end Tracked

/-! ## Tracking does not change what the replicas do -/

section Erase

variable {cfg : Config} {me : Pid} {env : Env} {b : BLSMR}

theorem trackDecide_fst (i : CmdId) (deps : List CmdId) :
    (b.trackDecide cfg me env i deps).map Prod.fst = b.decide cfg me env i deps := by
  unfold BLSMR.trackDecide
  rw [Option.map_map]
  exact Option.map_id'

theorem trackAnnounceStatus_fst (status : AnnounceStatus) :
    (b.trackAnnounceStatus cfg me env status).map Prod.fst =
      b.handleAnnounceStatus cfg me env status := by
  cases status with
  | doNothing => rfl
  | quorumReady ready =>
    obtain ⟨quorum, fast⟩ := ready
    cases quorum with
    | nil => rfl
    | cons first rest =>
      cases fast with
      | true =>
        simp only [BLSMR.trackAnnounceStatus, BLSMR.handleAnnounceStatus, if_true]
        rw [← trackDecide_fst, Option.map_map]
        rfl
      | false => rfl

theorem trackQuorumStatus_fst (status : QuorumStatus) :
    (b.trackQuorumStatus cfg me env status).map Prod.fst =
      b.handleQuorumStatus cfg me env status := by
  cases status with
  | doNothing => rfl
  | decided i deps => exact trackDecide_fst i deps

theorem trackOnMessage_fst (src : Pid) (msg : Message) :
    (b.trackOnMessage cfg me env src msg).map Prod.fst = b.onMessage cfg me env src msg := by
  cases msg with
  | announce m =>
    simp only [BLSMR.trackOnMessage, BLSMR.onMessage, Option.pure_def, Option.bind_eq_bind,
      Option.map_bind, Function.comp_def, Option.map_some, ← trackAnnounceStatus_fst,
      Option.bind_map]
  | quorum m =>
    simp only [BLSMR.trackOnMessage, BLSMR.onMessage, Option.pure_def, Option.bind_eq_bind,
      Option.map_bind, Function.comp_def, Option.map_some, ← trackQuorumStatus_fst,
      Option.bind_map]

theorem trackOnTimer_fst (id : TimerId) :
    (b.trackOnTimer cfg me env id).map Prod.fst = b.onTimer cfg me env id := by
  unfold BLSMR.trackOnTimer BLSMR.onTimer
  split
  · simp only [Option.bind_eq_bind, Option.map_bind]
    exact Option.bind_congr fun x _ => trackAnnounceStatus_fst x.2
  · split <;> rfl

/-- **The tracked cluster is the cluster** with records beside it. -/
theorem tracked_records (cfg : Config) :
    Records (Tracked.step cfg) (Cluster.step cfg) Tracked.cluster := by
  intro s a
  unfold Tracked.step Cluster.step
  by_cases hf : s.cluster.Fresh a.env
  swap
  · simp only [if_neg hf, Option.map_none]
  simp only [if_pos hf]
  cases a with
  | start p env => simp only; split <;> rfl
  | deliver packet env =>
    simp only
    split
    · rw [← trackOnMessage_fst, Option.map_map, Option.map_map]
      rfl
    · rfl
  | timer p id env =>
    simp only [List.contains_iff_mem]
    split
    · rw [← trackOnTimer_fst, Option.map_map, Option.map_map]
      rfl
    · rfl

end Erase

/-! ## What the calls tell -/

/-- What `record_path` is told about a quorum that is handed over. -/
def pathOf (r : CmdId × QuorumReady) : CmdId × Bool := (r.1, r.2.allowFastpath)

/-- **The calls of a handler** that leads from `b` to `b'` tell of the commands that arrived
and of what the handler added. -/
structure Told (me : Pid) (arrived : List Command) (b b' : BLSMR) (calls : List TrackerCall) :
    Prop where
  events : ∃ new, b'.dds.log.recorded = b.dds.log.recorded ++ new ∧
    calls.filterMap event? = arrived.map arrivalEvent ++ new.map (executionEvent me)
  paths : b'.ready.map pathOf = b.ready.map pathOf ++ calls.filterMap path?
  decisions : b'.decided = b.decided ++ calls.filterMap decision?

section Tell

variable {cfg : Config} {me : Pid} {env : Env} {b b' : BLSMR} {out : Outcome}
  {calls : List TrackerCall} {log log' : CmdLog} {new : List Command}

theorem CmdLog.commit_recorded (hI : log.Inv) {hash : HashOrder} {i : CmdId} {deps : List CmdId}
    (h : log.commit hash i deps = some log') :
    ∃ new, log'.recorded = log.recorded ++ new := by
  by_cases hs : i ∈ log.stable
  · rw [CmdLog.commit_stable hs, Option.some.injEq] at h
    exact ⟨[], by rw [h, List.append_nil]⟩
  · obtain ⟨log'', ids, new, hrun, P, -⟩ := CmdLog.commit_spec hI.toCore hs hash deps
    rw [h, Option.some.injEq] at hrun
    subst hrun
    refine ⟨new.filterMap Execution.cmd, ?_⟩
    rw [CmdLog.recorded, P.executions, List.filterMap_append]
    rfl

theorem filterMap_executionCalls (h : log'.recorded = log.recorded ++ new) :
    (executionCalls me log log').filterMap event? = new.map (executionEvent me) ∧
      (executionCalls me log log').filterMap path? = [] ∧
      (executionCalls me log log').filterMap decision? = [] := by
  rw [executionCalls, h, List.drop_left]
  refine ⟨?_, ?_, ?_⟩ <;> rw [List.filterMap_map]
  · exact congrFun List.filterMap_eq_map new
  · exact List.filterMap_eq_nil_iff.mpr fun _ _ => rfl
  · exact List.filterMap_eq_nil_iff.mpr fun _ _ => rfl

theorem trackDecide_told (hI : b.dds.log.Inv) {i : CmdId} {deps : List CmdId}
    (h : b.trackDecide cfg me env i deps = some (out, calls)) : Told me [] b out.state calls := by
  obtain ⟨out', hout, h⟩ := Option.map_eq_some_iff.mp h
  obtain ⟨rfl, rfl⟩ := Prod.mk.inj h
  obtain ⟨dds, hdds, rfl⟩ := Option.map_eq_some_iff.mp hout
  obtain ⟨log', hlog, rfl⟩ := Option.map_eq_some_iff.mp hdds
  obtain ⟨new, hnew⟩ := CmdLog.commit_recorded hI hlog
  obtain ⟨he, hp, hd⟩ := @filterMap_executionCalls me _ _ _ hnew
  refine ⟨⟨new, hnew, he⟩, ?_, ?_⟩
  · rw [List.filterMap_cons_none (f := path?) rfl, hp, List.append_nil]
  · rw [List.filterMap_cons_some (f := decision?) rfl, hd]

theorem trackAnnounceStatus_told (hI : b.dds.log.Inv) {status : AnnounceStatus}
    (h : b.trackAnnounceStatus cfg me env status = some (out, calls)) :
    Told me [] b out.state calls := by
  cases status with
  | doNothing => cases h; exact ⟨⟨[], by simp, rfl⟩, by simp, by simp⟩
  | quorumReady ready =>
    obtain ⟨quorum, fast⟩ := ready
    cases quorum with
    | nil => cases h
    | cons first rest =>
      cases fast with
      | true =>
        obtain ⟨⟨out', calls'⟩, hd, h⟩ := Option.map_eq_some_iff.mp h
        cases h
        obtain ⟨he, hp, hd⟩ := trackDecide_told (b := { b with
          ready := b.ready ++ [(first.id, ⟨first :: rest, true⟩)] }) hI hd
        refine ⟨he, ?_, hd⟩
        rw [hp, List.map_append, List.append_assoc]
        rfl
      | false =>
        cases h
        exact ⟨⟨[], (List.append_nil _).symm, rfl⟩, List.map_append, (List.append_nil _).symm⟩

theorem trackQuorumStatus_told (hI : b.dds.log.Inv) {status : QuorumStatus}
    (h : b.trackQuorumStatus cfg me env status = some (out, calls)) :
    Told me [] b out.state calls := by
  cases status with
  | doNothing => cases h; exact ⟨⟨[], by simp, rfl⟩, by simp, by simp⟩
  | decided i deps => exact trackDecide_told hI h

theorem dds_onMessage_recorded {d d' : DDS} (hI : d.log.Inv) {src : Pid} {m : Announce}
    {status : AnnounceStatus} {sends : List (Pid × Announce)}
    (h : d.onMessage cfg me env src m = some (d', status, sends)) :
    d'.log.Inv ∧ ∃ new, d'.log.recorded = d.log.recorded ++ new := by
  cases m with
  | req cmd =>
    cases h
    obtain ⟨-, -, hex⟩ := CmdLog.submit_fields d.log cmd
    refine ⟨hI.submit cmd, [], ?_⟩
    show ((d.log.submit cmd).1.executions).filterMap Execution.cmd = _
    rw [hex, List.append_nil]
    rfl
  | commit i deps =>
    obtain ⟨d'', hd, h⟩ := Option.map_eq_some_iff.mp h
    cases h
    obtain ⟨log', hlog, rfl⟩ := Option.map_eq_some_iff.mp hd
    obtain ⟨log'', hlog', hI'⟩ := hI.commit env.hash i deps
    rw [hlog, Option.some.injEq] at hlog'
    exact ⟨hlog' ▸ hI', CmdLog.commit_recorded hI hlog⟩
  | res res =>
    have hsame : d'.log = d.log := by
      simp only [DDS.onMessage] at h
      split at h
      · cases h; rfl
      · split at h
        · obtain ⟨fast, -, h⟩ := Option.map_eq_some_iff.mp h
          cases h
          rfl
        · cases h; rfl
    rw [hsame]
    exact ⟨hI, [], (List.append_nil _).symm⟩

theorem trackOnMessage_told (hI : b.dds.log.Inv) {src : Pid} {msg : Message}
    (h : b.trackOnMessage cfg me env src msg = some (out, calls)) :
    Told me msg.arrived b out.state calls := by
  cases msg with
  | announce m =>
    obtain ⟨⟨dds, status, sends⟩, hd, h⟩ := Option.bind_eq_some_iff.mp h
    obtain ⟨⟨out', calls'⟩, ho, h⟩ := Option.bind_eq_some_iff.mp h
    cases h
    obtain ⟨hI', new, hnew⟩ := dds_onMessage_recorded hI hd
    obtain ⟨⟨new', hnew', he'⟩, hp', hd'⟩ :=
      trackAnnounceStatus_told (b := { b with dds }) hI' ho
    obtain ⟨he, hp, hd⟩ := @filterMap_executionCalls me _ _ _ hnew
    have harr : (BLSMR.arrivalCalls m).filterMap event? =
        (Message.announce m).arrived.map arrivalEvent ∧
        (BLSMR.arrivalCalls m).filterMap path? = [] ∧
        (BLSMR.arrivalCalls m).filterMap decision? = [] := by
      cases m <;> exact ⟨rfl, rfl, rfl⟩
    refine ⟨⟨new ++ new', ?_, ?_⟩, ?_, ?_⟩
    · show out'.state.dds.log.recorded = _
      rw [hnew', ← List.append_assoc, ← hnew]
    · rw [List.filterMap_append, List.filterMap_append, harr.1, he, he', List.map_append]
      simp
    · rw [List.filterMap_append, List.filterMap_append, harr.2.1, hp]
      exact hp'
    · rw [List.filterMap_append, List.filterMap_append, harr.2.2, hd]
      exact hd'
  | quorum m =>
    obtain ⟨⟨out', calls'⟩, ho, h⟩ := Option.bind_eq_some_iff.mp h
    cases h
    obtain ⟨he, hp, hd⟩ := trackQuorumStatus_told (b := { b with
      quorum := (b.quorum.onMessage src m).1 }) hI ho
    exact ⟨he, hp, hd⟩

theorem onSubmitTimer_rest : (b.onSubmitTimer cfg me env).state.dds.log.recorded =
      b.dds.log.recorded ∧ (b.onSubmitTimer cfg me env).state.ready = b.ready ∧
    (b.onSubmitTimer cfg me env).state.decided = b.decided := by
  have hlog : ∀ cmd, (b.dds.announce cfg env cmd).1.log = b.dds.log.recordCreation cmd.id := by
    intro cmd
    unfold DDS.announce DDS.prepareAnnounce DDS.sendAnnounce
    cases cfg.protocolType <;> rfl
  by_cases hl : b.submitted + 1 < cfg.submitLimit <;>
    simp [BLSMR.onSubmitTimer, hl, BLSMR.schedSubmit, hlog, CmdLog.recorded,
      CmdLog.recordCreation, CmdLog.setEntry_executions]

theorem trackOnTimer_told (hI : b.dds.log.Inv) {id : TimerId}
    (h : b.trackOnTimer cfg me env id = some (out, calls)) :
    Told me [] b out.state calls ∧ out.state.announced = b.announced ∨
      ∃ cmd : Command, cmd.id = ⟨me, env.uid⟩ ∧ Told me [cmd] b out.state calls ∧
        out.state.announced = b.announced ++ [cmd] := by
  have hout : b.onTimer cfg me env id = some out := by
    rw [← trackOnTimer_fst, h, Option.map_some]
  unfold BLSMR.trackOnTimer at h
  split at h
  · rename_i hmine
    obtain ⟨⟨dds, status⟩, hd, h⟩ := Option.bind_eq_some_iff.mp h
    have hlog : dds.log = b.dds.log := by
      obtain ⟨i, -, hd⟩ := Option.bind_eq_some_iff.mp hd
      simp only at hd
      split at hd
      · cases hd; rfl
      · split at hd
        · obtain ⟨fast, -, hd⟩ := Option.bind_eq_some_iff.mp hd
          cases hd
          rfl
        · cases hd; rfl
    have hI' : dds.log.Inv := hlog ▸ hI
    obtain ⟨⟨new, hnew, he⟩, hp, hd⟩ := trackAnnounceStatus_told (b := { b with dds }) hI' h
    refine .inl ⟨⟨⟨new, hnew.trans ?_, he⟩, hp, hd⟩, ?_⟩
    · show dds.log.recorded ++ new = _
      rw [hlog]
    · rcases onTimer_cases hout with ⟨-, -, -, -, hann, -⟩ | ⟨hnone, -⟩
      · exact hann
      · simp [DDS.isMyTimer, hnone] at hmine
  · split at h
    · obtain ⟨rfl, rfl⟩ := Prod.mk.inj (Option.some.inj h)
      obtain ⟨hrec, hready, hdec⟩ := @onSubmitTimer_rest cfg me env b
      exact .inr ⟨⟨⟨me, env.uid⟩, env.key⟩, rfl, ⟨⟨[], hrec.trans (List.append_nil _).symm, rfl⟩,
        by rw [hready]; exact (List.append_nil _).symm, hdec.trans (List.append_nil _).symm⟩,
        onSubmitTimer_announced ..⟩
    · cases h

end Tell

/-- **What one step tells the tracker.** A request arrives, or a new command does, at the
replica that takes the step. -/
theorem tracked_step {cfg : Config} {s s' : Tracked} {a : Action}
    (hI : (s.cluster.replicas a.label.1).dds.log.Inv) (hs : Tracked.step cfg s a = some s') :
    ∃ calls arrived, s'.calls = s.calls ++ calls ∧
      Told a.label.1 arrived (s.cluster.replicas a.label.1) (s'.cluster.replicas a.label.1) calls ∧
      (arrived = a.label.2.elim [] (fun x => x.2.arrived) ∧
          (s'.cluster.replicas a.label.1).announced = (s.cluster.replicas a.label.1).announced ∨
        ∃ cmd : Command, cmd.id = ⟨a.label.1, a.env.uid⟩ ∧ arrived = [cmd] ∧
          (s'.cluster.replicas a.label.1).announced =
            (s.cluster.replicas a.label.1).announced ++ [cmd]) := by
  obtain ⟨hf, hs⟩ := Option.ite_none_right_eq_some.mp hs
  cases a with
  | start p env =>
    obtain ⟨-, hs⟩ := Option.ite_none_right_eq_some.mp hs
    cases hs
    have hsame : ((s.cluster.replicas p).onStart cfg env).state.dds = (s.cluster.replicas p).dds ∧
        ((s.cluster.replicas p).onStart cfg env).state.ready = (s.cluster.replicas p).ready ∧
        ((s.cluster.replicas p).onStart cfg env).state.decided = (s.cluster.replicas p).decided ∧
        ((s.cluster.replicas p).onStart cfg env).state.announced =
          (s.cluster.replicas p).announced := by
      unfold BLSMR.onStart
      split <;> exact ⟨rfl, rfl, rfl, rfl⟩
    refine ⟨[], [], (List.append_nil _).symm, ?_, .inl ⟨rfl, ?_⟩⟩
    · refine ⟨⟨[], ?_, rfl⟩, ?_, ?_⟩ <;>
        simp [Action.label, Cluster.update, hsame.1, hsame.2.1, hsame.2.2.1]
    · simp [Action.label, Cluster.update, hsame.2.2.2]
  | deliver packet env =>
    obtain ⟨-, hs⟩ := Option.ite_none_right_eq_some.mp hs
    obtain ⟨⟨out, calls⟩, hout, rfl⟩ := Option.map_eq_some_iff.mp hs
    have hplain := congrArg (Option.map Prod.fst) hout
    rw [trackOnMessage_fst, Option.map_some] at hplain
    refine ⟨calls, packet.msg.arrived, rfl, ?_, .inl ⟨rfl, ?_⟩⟩
    · simpa [Action.label, Cluster.update] using trackOnMessage_told hI hout
    · simpa [Action.label, Cluster.update] using (onMessage_timers hplain).1.announced
  | timer p id env =>
    obtain ⟨-, hs⟩ := Option.ite_none_right_eq_some.mp hs
    obtain ⟨⟨out, calls⟩, hout, rfl⟩ := Option.map_eq_some_iff.mp hs
    rcases trackOnTimer_told hI hout with ⟨ht, hann⟩ | ⟨cmd, hid, ht, hann⟩
    · exact ⟨calls, [], rfl, by simpa [Action.label, Cluster.update] using ht,
        .inl ⟨rfl, by simpa [Action.label, Cluster.update] using hann⟩⟩
    · exact ⟨calls, [cmd], rfl, by simpa [Action.label, Cluster.update] using ht,
        .inr ⟨cmd, hid, rfl, by simpa [Action.label, Cluster.update] using hann⟩⟩

end Blsmr
