import Blsmr.Lib.Merged
import Blsmr.Replica.Tracking

/-!
# The tracker's report

The replicas tell the tracker of an arrival before they execute the command, each of them of
one execution of it, and of one path and one decision for every command (`Reported`). So in
every run the counters count each command once, against the right set, the tracker forgets a
command exactly when all replicas have executed it, and the records are those of the quorums
handed over (`tracker_exact`). Once no message is in flight the report is complete
(`final_report`).
-/

namespace Blsmr

open Blsmr.Transition TrackerCall TrackerEvent

/-- Who executes which command. -/
def TrackerEvent.executionOf : TrackerEvent → Option (Pid × Command)
  | .arrival _ _ => none
  | .execution pid cmdId key => some (pid, ⟨cmdId, key⟩)

/-- The commands that some replica of the pool has executed with their payload. -/
def Cluster.recordedIds (cfg : Config) (c : Cluster) : Finset CmdId :=
  (cfg.pool.flatMap fun p => (c.commands p).map Command.id).toFinset

section Events

variable {events : List TrackerEvent} {p : Pid} {cmd : Command}

theorem executes_eq (events : List TrackerEvent) :
    events.filterMap executes = (events.filterMap executionOf).map fun x => (x.1, x.2.id) := by
  rw [List.map_filterMap]
  refine List.filterMap_congr fun e _ => ?_
  cases e <;> rfl

theorem mem_executionOf :
    (p, cmd) ∈ events.filterMap executionOf ↔ executionEvent p cmd ∈ events := by
  rw [List.mem_filterMap]
  constructor
  · rintro ⟨e, he, hx⟩
    cases e with
    | arrival => cases hx
    | execution q i key => cases hx; exact he
  · exact fun he => ⟨_, he, rfl⟩

theorem executionOf_told (arrived new : List Command) (p : Pid) :
    (arrived.map arrivalEvent ++ new.map (executionEvent p)).filterMap executionOf =
      new.map fun cmd => (p, cmd) := by
  have hno : arrived.filterMap (executionOf ∘ arrivalEvent) = [] :=
    List.filterMap_eq_nil_iff.mpr fun _ _ => rfl
  rw [List.filterMap_append, List.filterMap_map, List.filterMap_map, hno, List.nil_append]
  exact congrFun List.filterMap_eq_map new

theorem mem_told {arrived new : List Command} :
    arrivalEvent cmd ∈ arrived.map arrivalEvent ++ new.map (executionEvent p) ↔ cmd ∈ arrived := by
  rw [List.mem_append, List.mem_map, List.mem_map]
  constructor
  · rintro (⟨x, hx, he⟩ | ⟨x, -, he⟩)
    · obtain ⟨hid, hkey⟩ := TrackerEvent.arrival.inj he
      obtain rfl : x = cmd := by
        cases x
        cases cmd
        simp_all
      exact hx
    · cases he
  · exact fun h => .inl ⟨cmd, h, rfl⟩

end Events

theorem announced_step {cfg : Config} {c c' : Cluster} {p : Pid} {inp : Option (Pid × Message)}
    {arrived : List Command} {uid : ℕ} (hF : Flow cfg c.net) (hnet : NetStep cfg c.net p inp c'.net)
    (harr : arrived = inp.elim [] (fun x => x.2.arrived) ∧
        (c'.replicas p).announced = (c.replicas p).announced ∨
      ∃ cmd : Command, cmd.id = ⟨p, uid⟩ ∧ arrived = [cmd] ∧
        (c'.replicas p).announced = (c.replicas p).announced ++ [cmd]) (cmd : Command) :
    cmd ∈ (c.replicas cmd.id.pid).announced ∨ cmd ∈ arrived ↔
      cmd ∈ (c'.replicas cmd.id.pid).announced := by
  have hother : ∀ q, q ≠ p → (c'.replicas q).announced = (c.replicas q).announced := fun q hq =>
    congrArg Progress.announced (hnet.other hq)
  rcases harr with ⟨rfl, hann⟩ | ⟨cmd', hid, rfl, hann⟩
  · have hsame : (c'.replicas cmd.id.pid).announced = (c.replicas cmd.id.pid).announced := by
      by_cases hq : cmd.id.pid = p
      · rw [hq, hann]
      · exact hother _ hq
    rw [hsame]
    refine or_iff_left_of_imp fun hcmd => ?_
    cases hinp : inp with
    | none => rw [hinp] at hcmd; cases hcmd
    | some x =>
      rw [hinp] at hcmd
      have hmsg := Message.mem_arrived.mp hcmd
      exact (hF.req _ (hF.in_sent (hnet.consumed_mem hinp)) cmd hmsg).2
  · rw [List.mem_singleton]
    by_cases hq : cmd.id.pid = p
    · rw [hq, hann, List.mem_append, List.mem_singleton]
    · rw [hother _ hq]
      refine or_iff_left fun h => hq ?_
      rw [h, hid]

/-! ## What replicas record -/

section Recorded

variable {cfg : Config} {s : Net} {q : Pid} {cmd : Command}

theorem Flow.submit_of_recorded (hF : Flow cfg s) (h : cmd ∈ (s.replica q).log.recorded) :
    .submit cmd ∈ (s.replica q).calls := by
  obtain ⟨x, hx, hcmd⟩ := List.mem_filterMap.mp h
  have hP := CmdLog.run_paid (hF.creates q) (hF.run q)
  have hpay : (s.replica q).log.payload x.id = some cmd := by
    rw [CmdLog.payload_of_executed (hF.executed_nodup q) hx, hcmd]
  have hid := hP.cmd_id x.id cmd hpay
  exact ((hP.paid_iff cmd).mp (hid ▸ hpay)).mem

theorem Flow.announced_of_recorded (hF : Flow cfg s) (h : cmd ∈ (s.replica q).log.recorded) :
    cmd ∈ (s.replica cmd.id.pid).announced :=
  hF.submit_call q cmd (hF.submit_of_recorded h)

theorem Flow.recorded_nodup (hF : Flow cfg s) (q : Pid) :
    ((s.replica q).log.recorded.map Command.id).Nodup := by
  refine (hF.executed_nodup q).sublist (CmdLog.recorded_sublist fun x hx cmd hcmd => ?_)
  have hP := CmdLog.run_paid (hF.creates q) (hF.run q)
  refine hP.cmd_id x.id cmd ?_
  rw [CmdLog.payload_of_executed (hF.executed_nodup q) hx, hcmd]

end Recorded

/-! ## What the tracker has been told -/

theorem Tracked.reachable_cluster {cfg : Config} {s : Tracked} (h : Tracked.Reachable cfg s) :
    Cluster.Reachable cfg s.cluster :=
  (tracked_records cfg).reachable (fun _ _ _ => trivial) h

structure Reported (cfg : Config) (s : Tracked) : Prop where
  paths : Merged (fun x : CmdId × Bool => x.1.pid)
    (fun p => (s.cluster.replicas p).ready.map pathOf) (s.calls.filterMap path?)
  decisions : Merged (fun x : CmdId × List CmdId => x.1.pid)
    (fun p => (s.cluster.replicas p).decided) (s.calls.filterMap decision?)
  executions : Merged Prod.fst (fun p => (s.cluster.commands p).map fun cmd => (p, cmd))
    (s.events.filterMap executionOf)
  arrivals : ∀ cmd, arrivalEvent cmd ∈ s.events ↔
    cmd ∈ (s.cluster.replicas cmd.id.pid).announced
  inTime : ∀ i id key, s.events[i]? = some (.arrival id key) →
    executors (s.events.take i) id ≠ cfg.pool.toFinset

namespace Reported

variable {cfg : Config} {s s' : Tracked}

theorem init (cfg : Config) : Reported cfg (Tracked.init cfg) where
  paths := .nil fun _ => rfl
  decisions := .nil fun _ => rfl
  executions := .nil fun _ => rfl
  arrivals _ := iff_of_false List.not_mem_nil List.not_mem_nil
  inTime i _ _ h := by cases h

theorem mem_executors (h : Reported cfg s) {p : Pid} {id : CmdId} :
    p ∈ executors s.events id ↔ id ∈ (s.cluster.commands p).map Command.id := by
  rw [Blsmr.mem_executors, executes_eq, List.mem_map, List.mem_map]
  constructor
  · rintro ⟨⟨q, cmd⟩, hx, he⟩
    obtain ⟨rfl, rfl⟩ := Prod.mk.inj he
    obtain ⟨cmd', hcmd, he⟩ := List.mem_map.mp ((h.executions.mem_iff _).mp hx)
    obtain ⟨-, rfl⟩ := Prod.mk.inj he
    exact ⟨cmd', hcmd, rfl⟩
  · rintro ⟨cmd, hcmd, rfl⟩
    exact ⟨(p, cmd), (h.executions.mem_iff _).mpr (List.mem_map_of_mem hcmd), rfl⟩

theorem mem_event (h : Reported cfg s) (hF : Flow cfg s.cluster.net) {e : TrackerEvent}
    (he : e ∈ s.events) : ⟨e.cmdId, e.key⟩ ∈ (s.cluster.replicas e.cmdId.pid).announced := by
  cases e with
  | arrival id key => exact (h.arrivals ⟨id, key⟩).mp he
  | execution p id key =>
    have hx := (h.executions.mem_iff (p, ⟨id, key⟩)).mp (mem_executionOf.mpr he)
    obtain ⟨cmd, hcmd, he⟩ := List.mem_map.mp hx
    obtain ⟨-, rfl⟩ := Prod.mk.inj he
    exact hF.announced_of_recorded hcmd

/-- **What the replicas tell the tracker is regular.** -/
theorem regular (h : Reported cfg s) (hF : Flow cfg s.cluster.net) (hA : Asked cfg s.cluster.net) :
    Regular cfg.pool.toFinset s.events where
  keys x hx y hy hid := by
    have hax := h.mem_event hF hx
    have hay := h.mem_event hF hy
    rw [hid] at hax
    exact congrArg Command.key ((hF.sound _).announced_unique hax hay rfl)
  members x hx := by
    rw [executes_eq] at hx
    obtain ⟨y, hy, rfl⟩ := List.mem_map.mp hx
    obtain ⟨cmd, hcmd, -⟩ := List.mem_map.mp ((h.executions.mem_iff y).mp hy)
    exact List.mem_toFinset.mpr (hA.submitter y.1 cmd (hF.submit_of_recorded hcmd))
  once := by
    rw [executes_eq]
    refine h.executions.nodup_map _ (fun x y hxy => (Prod.mk.inj hxy).1) fun p => ?_
    rw [List.map_map]
    have := (hF.recorded_nodup p).map (f := fun id : CmdId => (p, id)) fun _ _ h =>
      (Prod.mk.inj h).2
    rwa [List.map_map] at this
  inTime := h.inTime

theorem arrives (h : Reported cfg s) (hF : Flow cfg s.cluster.net) {p : Pid} {id : CmdId}
    (hp : p ∈ cfg.pool) (hno : ∀ cmd, .submit cmd ∈ (s.cluster.net.replica p).calls → cmd.id ≠ id) :
    executors s.events id ≠ cfg.pool.toFinset := fun heq => by
  have hmem := List.mem_toFinset.mpr hp
  rw [← heq, h.mem_executors] at hmem
  obtain ⟨cmd, hcmd, hid⟩ := List.mem_map.mp hmem
  exact hno cmd (hF.submit_of_recorded hcmd) hid

theorem inTime_step (h : Reported cfg s) {arrived new : List Command} {p : Pid}
    (hev : s'.events = s.events ++ (arrived.map arrivalEvent ++ new.map (executionEvent p)))
    (harr : arrived = [] ∨ ∃ cmd, arrived = [cmd] ∧
      executors s.events cmd.id ≠ cfg.pool.toFinset) (i : ℕ) (id : CmdId) (key : Key)
    (hi : s'.events[i]? = some (.arrival id key)) :
    executors (s'.events.take i) id ≠ cfg.pool.toFinset := by
  rw [hev] at hi ⊢
  have hnew : ∀ j : ℕ, (new.map (executionEvent p))[j]? ≠ some (.arrival id key) := fun j hj => by
    obtain ⟨cmd, -, he⟩ := List.mem_map.mp (List.mem_of_getElem? hj)
    cases he
  by_cases hlt : i < s.events.length
  · rw [List.getElem?_append_left hlt] at hi
    rw [List.take_append_of_le_length hlt.le]
    exact h.inTime i id key hi
  · rw [List.getElem?_append_right (not_lt.mp hlt)] at hi
    rcases harr with rfl | ⟨cmd, rfl, hne⟩
    · exact absurd hi (hnew _)
    · obtain ⟨d, rfl⟩ := Nat.exists_eq_add_of_le (not_lt.mp hlt)
      rw [Nat.add_sub_cancel_left] at hi
      cases d with
      | zero =>
        obtain ⟨rfl, -⟩ := by simpa [arrivalEvent] using hi
        rwa [Nat.add_zero, List.take_left]
      | succ d => exact absurd hi (hnew d)

/-- **A step keeps the tracker told.** -/
theorem step (h : Reported cfg s) (hcfg : cfg.Live) (hc : Cluster.Reachable cfg s.cluster)
    {a : Action} (hs : Tracked.step cfg s a = some s') : Reported cfg s' := by
  have hplain : Cluster.step cfg s.cluster a = some s'.cluster := by
    rw [← tracked_records, hs, Option.map_some]
  have hc' := hc.step trivial hplain
  have hF := Flow.of_reachable hc
  have hF' := Flow.of_reachable hc'
  have hnet := (step_net (regular_of_reachable hc) hplain).1
  have hA := Asked.of_reachable hcfg hc
  obtain ⟨calls, arrived, hcalls, ⟨⟨new, hrec, hev⟩, hpaths, hdec⟩, harr⟩ :=
    tracked_step (hF.log_inv _) hs
  have hevents : s'.events = s.events ++
      (arrived.map arrivalEvent ++ new.map (executionEvent a.label.1)) := by
    rw [Tracked.events, hcalls, List.filterMap_append, hev]
    rfl
  have hsound := hF'.sound a.label.1
  have hmap : ∀ l : List (CmdId × QuorumReady), (l.map Prod.fst).Nodup → (l.map pathOf).Nodup :=
    fun l hl => List.Nodup.of_map Prod.fst (by rwa [List.map_map])
  refine ⟨?_, ?_, ?_, fun cmd => ?_, ?_⟩
  · rw [hcalls, List.filterMap_append]
    refine h.paths.step hpaths (fun q hq => ?_) (fun x hx => ?_) (hmap _ hsound.ready_nodup)
    · exact congrArg (fun x : Progress => x.ready.map pathOf) (hnet.other hq)
    · obtain ⟨r, hr, rfl⟩ := List.mem_map.mp hx
      exact hsound.pid_of_announced (hsound.ready_announced r.1 ⟨r.2, hr⟩)
  · rw [hcalls, List.filterMap_append]
    refine h.decisions.step hdec (fun q hq => ?_) (fun x hx => ?_) hsound.decided_nodup.of_map
    · exact congrArg Progress.decided (hnet.other hq)
    · exact hsound.pid_of_decided ⟨x.2, hx⟩
  · have hown : (s'.cluster.commands a.label.1).map (fun cmd => (a.label.1, cmd)) =
        (s.cluster.commands a.label.1).map (fun cmd => (a.label.1, cmd)) ++
          new.map fun cmd => (a.label.1, cmd) := by
      rw [← List.map_append]
      exact congrArg _ hrec
    rw [hevents, List.filterMap_append, executionOf_told]
    refine h.executions.step hown (fun q hq => ?_) (fun x hx => ?_) ?_
    · exact congrArg (fun x : Progress => x.log.recorded.map fun cmd => (q, cmd)) (hnet.other hq)
    · obtain ⟨cmd, -, rfl⟩ := List.mem_map.mp hx
      rfl
    · exact (hF'.recorded_nodup a.label.1).of_map.map fun _ _ h => (Prod.mk.inj h).2
  · rw [hevents, List.mem_append, h.arrivals, mem_told]
    exact announced_step hF hnet harr cmd
  · refine h.inTime_step hevents ?_
    rcases harr with ⟨harr, -⟩ | ⟨cmd, hid, rfl, hann⟩
    · cases hl : a.label.2 with
      | none => exact .inl (by rw [harr, hl]; rfl)
      | some x =>
        obtain ⟨src, msg⟩ := x
        rw [harr, hl]
        by_cases hreq : ∃ cmd, msg = .announce (.req cmd)
        · obtain ⟨cmd, rfl⟩ := hreq
          have hmem := hnet.consumed_mem hl
          refine .inr ⟨cmd, rfl, h.arrives hF (hA.member _ hmem (by simp [Message.arrived])) ?_⟩
          exact fun cmd' hsub hid => hA.not_submitted hmem hid hsub
        · exact .inl (List.eq_nil_iff_forall_not_mem.mpr fun cmd hcmd =>
            hreq ⟨cmd, Message.mem_arrived.mp hcmd⟩)
    · have hmem : cmd ∈ (s'.cluster.replicas a.label.1).announced := by
        rw [hann]
        exact List.mem_append_right _ List.mem_cons_self
      refine .inr ⟨cmd, rfl, h.arrives hF ((Timely.of_reachable hc').mem_pool hmem) ?_⟩
      intro cmd' hsub hid'
      have hnew := (step_cases (regular_of_reachable hc).pendingIds hplain).1.1
      have := (regular_of_reachable hc).uids _ cmd' (hF.submit_call _ cmd' hsub)
      rw [hid', hid] at this
      exact hnew this

theorem of_reachable (hcfg : cfg.Live) (h : Tracked.Reachable cfg s) : Reported cfg s :=
  h.invariant (init cfg) fun _ _ _ hr _ hI hs => hI.step hcfg (Tracked.reachable_cluster hr) hs

end Reported

/-! ## The report -/

section Report

variable {cfg : Config} {s : Tracked} {p : Pid} {id : CmdId}

theorem Reported.tracks (hcfg : cfg.Live) (h : Tracked.Reachable cfg s) :
    Tracks cfg.pool.toFinset s.events (s.tracker cfg).toConflictTracker := by
  have hc := Tracked.reachable_cluster h
  have hT := tracks_after ((Reported.of_reachable hcfg h).regular (Flow.of_reachable hc)
    (Asked.of_reachable hcfg hc))
  rw [List.toFinset_card_of_nodup hcfg.pool_nodup] at hT
  rw [Tracked.tracker, Tracker.after_toConflictTracker]
  exact hT

theorem Reported.executedIds_eq (h : Reported cfg s) (hF : Flow cfg s.cluster.net)
    (hA : Asked cfg s.cluster.net) : executedIds s.events = s.cluster.recordedIds cfg := by
  ext id
  simp only [mem_executedIds, h.mem_executors, Cluster.recordedIds, List.mem_toFinset,
    List.mem_flatMap]
  constructor
  · rintro ⟨p, hp⟩
    obtain ⟨cmd, hcmd, -⟩ := List.mem_map.mp hp
    exact ⟨p, hA.submitter p cmd (hF.submit_of_recorded hcmd), hp⟩
  · rintro ⟨p, -, hp⟩
    exact ⟨p, hp⟩

theorem Reported.mem_commands (hcfg : cfg.Live) (h : Tracked.Reachable cfg s) :
    id ∈ (s.tracker cfg).commands ↔ s.cluster.net.used id ∧
      ∃ p ∈ cfg.pool, id ∉ (s.cluster.commands p).map Command.id := by
  have hc := Tracked.reachable_cluster h
  have hF := Flow.of_reachable hc
  have hA := Asked.of_reachable hcfg hc
  have hR := Reported.of_reachable hcfg h
  have hT := Reported.tracks hcfg h
  have hall : executors s.events id ≠ cfg.pool.toFinset ↔
      ∃ p ∈ cfg.pool, id ∉ (s.cluster.commands p).map Command.id := by
    rw [← not_iff_not]
    push Not
    constructor
    · intro heq p hp
      rwa [← hR.mem_executors, heq, List.mem_toFinset]
    · refine fun hp => Finset.Subset.antisymm ((hR.regular hF hA).executors_subset id)
        fun q hq => hR.mem_executors.mpr (hp q (List.mem_toFinset.mp hq))
  rw [← AList.lookup_isSome, Option.isSome_iff_exists, ← hall]
  constructor
  · rintro ⟨command, hl⟩
    obtain ⟨⟨e, he, rfl, -⟩, -, hne⟩ := (hT.lookup id command).mp hl
    exact ⟨⟨_, _, hR.mem_event hF he, rfl⟩, hne⟩
  · rintro ⟨hu, hne⟩
    obtain ⟨cmd, hcmd, rfl⟩ := hF.used_iff.mp hu
    exact ⟨⟨cmd.key, _⟩, (hT.lookup cmd.id _).mpr
      ⟨⟨_, (hR.arrivals cmd).mpr hcmd, rfl, rfl⟩, rfl, hne⟩⟩

theorem Reported.mem_pathRecords (hcfg : cfg.Live) (h : Tracked.Reachable cfg s) {r : PathRecord} :
    r ∈ (s.tracker cfg).pathRecords ↔
      (∃ rd, (r.cmdId, rd) ∈ (s.cluster.replicas r.cmdId.pid).ready ∧
        rd.allowFastpath = r.fast) ∧
      ∀ deps, r.deps = some deps ↔ (r.cmdId, deps) ∈ (s.cluster.replicas r.cmdId.pid).decided := by
  have hF := Flow.of_reachable (Tracked.reachable_cluster h)
  have hR := Reported.of_reachable hcfg h
  have hpaths := hR.paths.nodup_map Prod.fst (fun x y hxy => by rw [hxy]) fun p => by
    rw [List.map_map]
    exact (hF.sound p).ready_nodup
  have hdecs := hR.decisions.nodup_map Prod.fst (fun x y hxy => by rw [hxy]) fun p =>
    (hF.sound p).decided_nodup
  rw [Tracker.mem_pathRecords, Tracked.tracker, Tracker.lookup_paths hpaths, hR.paths.mem_iff]
  refine and_congr ?_ ⟨fun heq deps => ?_, fun hiff => Option.ext fun deps => ?_⟩
  · rw [List.mem_map]
    constructor
    · rintro ⟨⟨i, rd⟩, hrd, he⟩
      obtain ⟨rfl, hfast⟩ := Prod.mk.inj he
      exact ⟨rd, hrd, hfast⟩
    · rintro ⟨rd, hrd, hfast⟩
      exact ⟨(r.cmdId, rd), hrd, Prod.ext rfl hfast⟩
  · rw [heq, Tracker.lookup_dependencies hdecs]
    exact hR.decisions.mem_iff _
  · rw [hiff, Tracker.lookup_dependencies hdecs]
    exact (hR.decisions.mem_iff _).symm

end Report

/-- **The tracker is exact.** The runs of the tracked cluster are the runs of the cluster, and
in each of them the tracker counts every command executed once, and those that met another
one of their key; it holds the announced commands that some replica has not executed with
their payload; and its records, in the order of the identifiers, are those of the quorums
handed over, with the path each took and what was decided on it. -/
theorem tracker_exact (cfg : Config) (hcfg : cfg.Live) :
    (∀ c, Cluster.Reachable cfg c ↔ ∃ s, Tracked.Reachable cfg s ∧ s.cluster = c) ∧
    ∀ s, Tracked.Reachable cfg s →
      (s.tracker cfg).executedCommands = (s.cluster.recordedIds cfg).card ∧
      (s.tracker cfg).conflictingCommands = ((s.cluster.recordedIds cfg).filter
        (Conflicted cfg.pool.toFinset s.events)).card ∧
      (∀ id, id ∈ (s.tracker cfg).commands ↔ s.cluster.net.used id ∧
        ∃ p ∈ cfg.pool, id ∉ (s.cluster.commands p).map Command.id) ∧
      ((s.tracker cfg).pathRecords.Pairwise fun r r' => r.cmdId < r'.cmdId) ∧
      ∀ r, r ∈ (s.tracker cfg).pathRecords ↔
        (∃ rd, (r.cmdId, rd) ∈ (s.cluster.replicas r.cmdId.pid).ready ∧
          rd.allowFastpath = r.fast) ∧
        ∀ deps, r.deps = some deps ↔
          (r.cmdId, deps) ∈ (s.cluster.replicas r.cmdId.pid).decided := by
  refine ⟨fun c => ⟨fun hc => ?_, ?_⟩, fun s h => ?_⟩
  · exact (tracked_records cfg).exists_reachable (fun _ _ _ => trivial) (Tracked.init cfg) hc
  · rintro ⟨s, hs, rfl⟩
    exact Tracked.reachable_cluster hs
  · have hc := Tracked.reachable_cluster h
    have hT := Reported.tracks hcfg h
    rw [← (Reported.of_reachable hcfg h).executedIds_eq (Flow.of_reachable hc)
      (Asked.of_reachable hcfg hc)]
    exact ⟨hT.executed, hT.conflicting, fun id => Reported.mem_commands hcfg h,
      Tracker.pathRecords_pairwise _, fun r => Reported.mem_pathRecords hcfg h⟩

/-- Two Wintermute replicas that receive the requests in opposite orders: the one that executes
both commands first makes each of them meet the other. -/
theorem tracker_exact_two :
    let cfg : Config := .standard .wintermute [0, 1]
    ∃ s, Tracked.Reachable cfg s ∧ (s.tracker cfg).executedCommands = 2 ∧
      (s.tracker cfg).conflictingCommands = 2 ∧
      ⟨⟨0, 2⟩, false, some [⟨1, 3⟩]⟩ ∈ (s.tracker cfg).pathRecords := by
  intro cfg
  let a : Command := ⟨⟨0, 2⟩, 7⟩
  let b : Command := ⟨⟨1, 3⟩, 7⟩
  let run : List Action := crossed a b ++ crossedRest a b
  have hrun : (Transition.exec (Tracked.step cfg) (fun _ _ => true) (.init cfg) run).any (fun s =>
      decide ((s.cluster.recordedIds cfg).card = 2 ∧ ((s.cluster.recordedIds cfg).filter
          (Conflicted cfg.pool.toFinset s.events)).card = 2 ∧
        (a.id, ⟨[⟨0, a.id, []⟩, ⟨1, a.id, [b.id]⟩], false⟩) ∈ (s.cluster.replicas 0).ready ∧
        (s.cluster.replicas 0).decided = [(a.id, [b.id])])) = true := by decide +kernel
  obtain ⟨s, hs, hd⟩ := (Option.any_eq_true _ _).mp hrun
  obtain ⟨hexec, hconf, hready, hdec⟩ := of_decide_eq_true hd
  have hreach : Tracked.Reachable cfg s :=
    Transition.Reachable.exec (fun _ _ _ => trivial) .init hs
  obtain ⟨h1, h2, -, -, hrecords⟩ :=
    (tracker_exact cfg (.inl ⟨.inr ⟨rfl, by decide, rfl⟩, by decide⟩)).2 s hreach
  refine ⟨s, hreach, h1.trans hexec, h2.trans hconf,
    (hrecords _).mpr ⟨⟨_, hready, rfl⟩, fun deps => ?_⟩⟩
  rw [hdec]
  simp [a, b, eq_comm]

/-! ## The end of a run -/

section Final

variable {cfg : Config} {s : Tracked} {c : Cluster} {id : CmdId}

/-- The identifiers announced, by announcer. -/
def Cluster.announcedIds (cfg : Config) (c : Cluster) : List CmdId :=
  cfg.pool.flatMap fun p => (c.replicas p).announced.map Command.id

theorem Flow.announcedIds_nodup (hF : Flow cfg c.net) (hnd : cfg.pool.Nodup) :
    (c.announcedIds cfg).Nodup := by
  refine List.nodup_flatMap.mpr ⟨fun p _ => (hF.sound p).announced_nodup, ?_⟩
  refine hnd.imp fun {p q} hpq i hi hi' => hpq ?_
  rw [← (hF.sound p).pid_of_announced (List.mem_map.mp hi),
    ← (hF.sound q).pid_of_announced (List.mem_map.mp hi')]

theorem Timely.mem_announcedIds (hT : Timely cfg c) : id ∈ c.announcedIds cfg ↔ c.net.used id := by
  rw [Cluster.announcedIds, List.mem_flatMap]
  constructor
  · rintro ⟨p, -, hi⟩
    obtain ⟨cmd, hcmd, hid⟩ := List.mem_map.mp hi
    exact ⟨p, cmd, hcmd, hid⟩
  · rintro ⟨p, cmd, hcmd, rfl⟩
    exact ⟨p, hT.mem_pool hcmd, List.mem_map_of_mem hcmd⟩

theorem recorded_of_handedOver (hcfg : cfg.Live) (h : Cluster.Reachable cfg c)
    (hnet : c.network = []) (hi : c.net.HandedOver id) : id ∈ c.recordedIds cfg := by
  have hF := Flow.of_reachable h
  obtain ⟨rd, hrd⟩ := hi
  obtain ⟨res, hres⟩ := List.exists_mem_of_ne_nil _ ((hF.sound id.pid).ready_ids id rd hrd).1
  obtain ⟨a, rfl, hpaid⟩ := PaidReplies.of_reachable h id rd hrd res hres
  have hsub := hpaid.mem
  have hmem := (Asked.of_reachable hcfg h).submitter res.pid a hsub
  have hst := (Live.of_reachable hcfg h).stable hcfg hF
    (fun hp => Once.of_reachable hp hcfg.pool_nodup h) hnet
    ⟨_, a, hF.submit_call _ a hsub, rfl⟩ hmem
  obtain ⟨x, hx, hid⟩ := List.mem_map.mp ((hF.mem_executed res.pid).mpr hst)
  have hpay := ((CmdLog.run_paid (hF.creates res.pid) (hF.run res.pid)).paid_iff a).mpr hpaid
  rw [← hid, CmdLog.payload_of_executed (hF.executed_nodup res.pid) hx] at hpay
  rw [Cluster.recordedIds, List.mem_toFinset, List.mem_flatMap]
  exact ⟨res.pid, hmem, List.mem_map_of_mem (List.mem_filterMap.mpr ⟨x, hx, hpay⟩)⟩

end Final

/-- **The final report.** Once no message is in flight the tracker has counted every command
announced, there is one record for each, with the dependencies decided, and if all quorums
held a reply from every replica the tracker has forgotten all commands. -/
theorem final_report (cfg : Config) (hcfg : cfg.Live) (s : Tracked) (h : Tracked.Reachable cfg s)
    (hnet : s.cluster.network = []) :
    (s.tracker cfg).executedCommands =
        (cfg.pool.map fun p => (s.cluster.replicas p).announced.length).sum ∧
      ((s.tracker cfg).pathRecords.map PathRecord.cmdId).Perm (s.cluster.announcedIds cfg) ∧
      (∀ r ∈ (s.tracker cfg).pathRecords, ∃ deps, r.deps = some deps ∧
        (r.cmdId, deps) ∈ (s.cluster.replicas r.cmdId.pid).decided) ∧
      (s.cluster.AllFull cfg → ∀ id, id ∉ (s.tracker cfg).commands) := by
  have hc := Tracked.reachable_cluster h
  have hF := Flow.of_reachable hc
  have hT := Timely.of_reachable hc
  have hL := Live.of_reachable hcfg hc
  have hO : cfg.protocolType ≠ .threeJane → Once cfg s.cluster.net := fun hp =>
    Once.of_reachable hp hcfg.pool_nodup hc
  have hnd := hF.announcedIds_nodup hcfg.pool_nodup
  have hdecided : ∀ id, s.cluster.net.used id →
      ∃ deps, (id, deps) ∈ (s.cluster.net.replica id.pid).decided := fun id hu =>
    hL.decided hcfg hF hO hnet hu
  have hhanded : ∀ id, s.cluster.net.used id → s.cluster.net.HandedOver id := fun id hu =>
    (hF.sound id.pid).handedOver_of_decided (hdecided id hu)
  refine ⟨?_, ?_, fun r hr => ?_, fun hfull id hid => ?_⟩
  · rw [(Reported.tracks hcfg h).executed, (Reported.of_reachable hcfg h).executedIds_eq hF
      (Asked.of_reachable hcfg hc)]
    have hids : s.cluster.recordedIds cfg = (s.cluster.announcedIds cfg).toFinset := by
      ext id
      rw [List.mem_toFinset, hT.mem_announcedIds]
      refine ⟨fun hid => ?_, fun hu => recorded_of_handedOver hcfg hc hnet (hhanded id hu)⟩
      rw [Cluster.recordedIds, List.mem_toFinset, List.mem_flatMap] at hid
      obtain ⟨p, -, hid⟩ := hid
      obtain ⟨cmd, hcmd, rfl⟩ := List.mem_map.mp hid
      exact ⟨_, cmd, hF.announced_of_recorded hcmd, rfl⟩
    rw [hids, List.toFinset_card_of_nodup hnd, Cluster.announcedIds, List.length_flatMap]
    simp only [List.length_map]
  · have hnd' : ((s.tracker cfg).pathRecords.map PathRecord.cmdId).Nodup :=
      List.pairwise_map.mpr ((Tracker.pathRecords_pairwise _).imp fun h => h.ne)
    refine (List.perm_ext_iff_of_nodup hnd' hnd).mpr fun id => ?_
    rw [hT.mem_announcedIds, List.mem_map]
    constructor
    · rintro ⟨r, hr, rfl⟩
      obtain ⟨⟨rd, hrd, -⟩, -⟩ := (Reported.mem_pathRecords hcfg h).mp hr
      obtain ⟨cmd, hcmd, hid⟩ := (hF.sound r.cmdId.pid).ready_announced r.cmdId ⟨rd, hrd⟩
      exact ⟨_, cmd, hcmd, hid⟩
    · intro hu
      obtain ⟨rd, hrd⟩ := hhanded id hu
      obtain ⟨deps, hd⟩ := hdecided id hu
      refine ⟨⟨id, rd.allowFastpath, some deps⟩, (Reported.mem_pathRecords hcfg h).mpr
        ⟨⟨rd, hrd, rfl⟩, fun deps' => ?_⟩, rfl⟩
      rw [Option.some.injEq]
      exact ⟨fun heq => heq ▸ hd, fun hd' => (hF.sound id.pid).decided_unique hd hd'⟩
  · obtain ⟨⟨rd, hrd, -⟩, hdeps⟩ := (Reported.mem_pathRecords hcfg h).mp hr
    obtain ⟨cmd, hcmd, hid⟩ := (hF.sound r.cmdId.pid).ready_announced r.cmdId ⟨rd, hrd⟩
    obtain ⟨deps, hd⟩ := hdecided r.cmdId ⟨_, cmd, hcmd, hid⟩
    exact ⟨deps, (hdeps deps).mpr hd, hd⟩
  · obtain ⟨hu, p, hp, hno⟩ := (Reported.mem_commands hcfg h).mp hid
    rw [map_id_commands hc hfull hp] at hno
    exact hno ((hF.mem_executed p).mpr (hL.stable hcfg hF hO hnet hu hp))

/-- Two Wintermute replicas that receive the requests in opposite orders. -/
theorem final_report_two :
    let cfg : Config := .standard .wintermute [0, 1]
    ∃ s, Tracked.Reachable cfg s ∧ (s.tracker cfg).executedCommands = 2 ∧
      ((s.tracker cfg).pathRecords.map PathRecord.cmdId).Perm [⟨0, 2⟩, ⟨1, 3⟩] ∧
      (∀ r ∈ (s.tracker cfg).pathRecords,
        (r.cmdId, r.deps) ∈ [(⟨0, 2⟩, some [⟨1, 3⟩]), (⟨1, 3⟩, some [⟨0, 2⟩])]) ∧
      ∀ id, id ∉ (s.tracker cfg).commands := by
  intro cfg
  let a : Command := ⟨⟨0, 2⟩, 7⟩
  let b : Command := ⟨⟨1, 3⟩, 7⟩
  let run : List Action := [.start 0 (.counting 0), .start 1 (.counting 1),
    .timer 0 1 (.counting 2), .timer 1 3 (.counting 3), .recv 4 1 1 (.req b), .recv 5 0 0 (.req a),
    .recv 6 0 1 (.req a), .recv 7 1 0 (.req b), .recv 8 1 1 (.res 1 b []),
    .recv 9 0 1 (.res 0 b [a.id]), .recv 10 1 1 (.request b [a.id]),
    .recv 11 1 0 (.request b [a.id]), .recv 12 0 1 (.response b [a.id]),
    .recv 13 1 1 (.response b [a.id]), .recv 14 1 0 (.commit b [a.id]),
    .recv 15 1 0 (.res 1 a [b.id]), .recv 16 0 0 (.res 0 a []), .recv 17 0 1 (.request a [b.id]),
    .recv 18 0 0 (.request a [b.id]), .recv 19 1 0 (.response a [b.id]),
    .recv 20 0 0 (.response a [b.id]), .recv 21 0 1 (.commit a [b.id])]
  have hrun : (Transition.exec (Tracked.step cfg) (fun _ _ => true) (.init cfg) run).any (fun s =>
      decide (s.cluster.network = [] ∧ s.cluster.AllFull cfg ∧
        (s.cluster.replicas 0).announced = [a] ∧ (s.cluster.replicas 1).announced = [b] ∧
        (s.cluster.replicas 0).decided = [(a.id, [b.id])] ∧
        (s.cluster.replicas 1).decided = [(b.id, [a.id])])) = true := by decide +kernel
  obtain ⟨s, hs, hd⟩ := (Option.any_eq_true _ _).mp hrun
  obtain ⟨hnet, hfull, ha, hb, hda, hdb⟩ := of_decide_eq_true hd
  have hreach : Tracked.Reachable cfg s :=
    Transition.Reachable.exec (fun _ _ _ => trivial) .init hs
  obtain ⟨hexec, hperm, hdeps, hcommands⟩ :=
    final_report cfg (.inl ⟨.inr ⟨rfl, by decide, rfl⟩, by decide⟩) s hreach hnet
  have hids : s.cluster.announcedIds cfg = [a.id, b.id] := by
    simp [Cluster.announcedIds, cfg, Config.standard, ha, hb]
  rw [hids] at hperm
  refine ⟨s, hreach, hexec.trans ?_, hperm, fun r hr => ?_, hcommands hfull⟩
  · simp [cfg, Config.standard, ha, hb]
  · obtain ⟨deps, hsome, hdec⟩ := hdeps r hr
    rw [hsome]
    rcases List.mem_pair.mp (hperm.mem_iff.mp (List.mem_map_of_mem hr)) with hid | hid
    · rw [hid, hda, List.mem_singleton] at hdec
      rw [hid, (Prod.mk.inj hdec).2]
      exact List.mem_cons_self
    · rw [hid, hdb, List.mem_singleton] at hdec
      rw [hid, (Prod.mk.inj hdec).2]
      exact List.mem_cons_of_mem _ List.mem_cons_self

end Blsmr
