import Blsmr.Log.Meter
import Blsmr.Replica.Report

/-!
# Commit latencies of a cluster

Time passes between the steps of a cluster, and whatever a handler does to its log it does at
the time of its step. `Clocked` runs the logs a second time, on a meter. The meter never
panics, so the clock does not change what the replicas do, and what it shows is exact
(`latencies_exact`): once for each replica and each command stable there the time since the
first call about it, which at the replica that announced it is the announcement. When no
message is in flight nothing is missing (`final_latencies`).
-/

namespace Blsmr

open Blsmr.Transition

structure Clocked where
  cluster : Cluster
  clock : Jiffies
  meter : Meter

namespace Clocked

def init (cfg : Config) : Clocked := ⟨.init cfg, 0, .init⟩

/-- The calls on the log while replica `b` becomes `b'`. -/
def newCalls (b b' : BLSMR) : List LogCall := b'.dds.calls.drop b.dds.calls.length

/-- One step of the cluster at time `now`; the clock never goes back. -/
def step (cfg : Config) (s : Clocked) : Action × Jiffies → Option Clocked
  | (a, now) =>
    if s.clock ≤ now then
      (Cluster.step cfg s.cluster a).bind fun cluster =>
        let me := a.label.1
        ((newCalls (s.cluster.replicas me) (cluster.replicas me)).foldlM
          (fun meter call => Meter.call meter ⟨me, now, call⟩) s.meter).map fun meter =>
            ⟨cluster, now, meter⟩
    else none

abbrev Reachable (cfg : Config) : Clocked → Prop :=
  Transition.Reachable (step cfg) (init cfg) fun _ _ => True

end Clocked

/-! ## Where calls come from -/

/-- Announcing a command starts its log entry, and decisions go to members of the pool. -/
structure Routed (cfg : Config) (s : Net) : Prop where
  created : ∀ p, ∀ cmd ∈ (s.replica p).announced, .recordCreation cmd.id ∈ (s.replica p).calls
  told : ∀ pkt ∈ s.network, ∀ i deps, pkt.msg = .announce (.commit i deps) → pkt.dst ∈ cfg.pool
  committer : ∀ p hash i deps, .commit hash i deps ∈ (s.replica p).calls →
    p ∈ cfg.pool ∨ (s.replica p).announced ≠ []

section Routes

variable {cfg : Config} {me : Pid} {used : CmdId → Prop} {x x' : Progress}
  {inp : Option (Pid × Message)} {sends : List (Pid × Message)}

theorem Effect.created (he : Effect cfg me used x inp x' sends)
    (h : ∀ cmd ∈ x.announced, .recordCreation cmd.id ∈ x.calls) :
    ∀ cmd ∈ x'.announced, .recordCreation cmd.id ∈ x'.calls := by
  intro cmd hcmd
  cases he with
  | announce cmd' =>
    rcases List.mem_append.mp hcmd with hcmd | hcmd
    · exact List.mem_append_left _ (h cmd hcmd)
    · rw [List.mem_singleton.mp hcmd]
      exact List.mem_append_right _ List.mem_cons_self
  | submit | commit | fast | complete => exact List.mem_append_left _ (h cmd hcmd)
  | _ => exact h cmd hcmd

theorem Effect.tells (he : Effect cfg me used x inp x' sends) {dst : Pid} {i : CmdId}
    {deps : List CmdId} (h : (dst, .announce (.commit i deps)) ∈ sends) : dst ∈ cfg.pool := by
  have hcommit : ∀ j l, (dst, .announce (.commit i deps)) ∈ commitSends cfg me j l →
      dst ∈ cfg.pool := by
    intro j l hm
    obtain ⟨pid, hpid, he⟩ := List.mem_map.mp hm
    cases he
    exact List.mem_of_mem_filter hpid
  cases he with
  | fast => exact hcommit _ _ h
  | complete => exact hcommit _ _ h
  | announce | slow =>
    obtain ⟨pid, -, he⟩ := List.mem_map.mp h
    cases he
  | submit | request => cases List.mem_singleton.mp h
  | _ => cases h

end Routes

namespace Routed

variable {cfg : Config} {s s' : Net} {p : Pid} {inp : Option (Pid × Message)}

theorem init (cfg : Config) : Routed cfg (Cluster.init cfg).net := by
  refine ⟨fun p cmd h => ?_, fun pkt h => ?_, fun p hash i deps h => ?_⟩ <;> cases h

theorem step (h : Routed cfg s) (hF' : Flow cfg s') (hs : NetStep cfg s p inp s') :
    Routed cfg s' := by
  refine ⟨fun q => ?_, fun pkt hp i deps hm => ?_, fun q hash i deps hc => ?_⟩
  · by_cases hq : q = p
    · subst hq
      obtain ⟨sends, rest, he, -⟩ := hs.effect
      exact he.created (h.created q)
    · rw [hs.other hq]
      exact h.created q
  · obtain ⟨sends, rest, he, hperm, hnet, -⟩ := hs.effect
    rw [hnet] at hp
    rcases List.mem_append.mp hp with hp | hp
    · exact h.told pkt (hperm.mem_iff.mpr (List.mem_append_right _ hp)) i deps hm
    · exact he.tells (hm ▸ (mem_packets.mp hp).2)
  · rcases hs.call_cases hc with hc | ⟨_, -, heq, -⟩ | ⟨_, _, heq, -⟩ | ⟨_, _, _, heq, hd⟩
    · refine (h.committer q hash i deps hc).imp_right fun hne hnil => hne ?_
      exact List.subset_nil.mp (hnil ▸ (hs.grows q).announced)
    · cases heq
    · cases heq
    · cases heq
      rcases hd with hd | ⟨src, hsrc⟩
      · obtain ⟨cmd, hcmd, -⟩ := (hF'.sound q).ready_announced i
          ((hF'.sound q).handedOver_of_decided ⟨deps, hd⟩)
        exact .inr (List.ne_nil_of_mem hcmd)
      · exact .inl (h.told _ hsrc i deps rfl)

theorem of_reachable {c : Cluster} (h : Cluster.Reachable cfg c) : Routed cfg c.net :=
  net_invariant (init cfg) (fun _ _ _ hr _ hI hs =>
    hI.step ((Flow.of_reachable hr).step hs) hs) h

end Routed

theorem mem_pool_of_stable {cfg : Config} {c : Cluster} (h : Cluster.Reachable cfg c) {p : Pid}
    {i : CmdId} (hi : i ∈ (c.replicas p).dds.log.stable) : p ∈ cfg.pool := by
  have hF := Flow.of_reachable h
  obtain ⟨hash, deps, hc⟩ :=
    (CmdLog.committed_iff (hF.creates p) (hF.run p)).mp (CmdLog.stable_committed hi)
  rcases (Routed.of_reachable h).committer p hash i deps hc with hp | hne
  · exact hp
  · obtain ⟨cmd, hcmd⟩ := List.exists_mem_of_ne_nil _ hne
    exact (Timely.of_reachable h).mem_pool hcmd

/-! ## The meter follows the cluster -/

namespace Clocked

variable {cfg : Config} {s s' : Clocked}

/-- The meter has taken the calls that the replicas made. -/
structure Timed (s : Clocked) : Prop where
  metered : Metered s.clock s.meter
  calls : ∀ p, callsOf s.meter.history p = (s.cluster.replicas p).dds.calls

theorem Timed.init (cfg : Config) : Timed (Clocked.init cfg) :=
  ⟨Metered.init 0, fun _ => rfl⟩

/-- **The meter takes every step.** -/
theorem Timed.step (h : Timed s) (hc : Cluster.Reachable cfg s.cluster) {a : Action}
    {now : Jiffies} (hle : s.clock ≤ now) {c : Cluster}
    (hplain : Cluster.step cfg s.cluster a = some c) :
    ∃ meter, Clocked.step cfg s (a, now) = some ⟨c, now, meter⟩ ∧ Timed ⟨c, now, meter⟩ := by
  have hM := h.metered.mono hle
  have hnet := (step_net (regular_of_reachable hc) hplain).1
  have hF' := Flow.of_reachable (hc.step trivial hplain)
  have hother : ∀ q, q ≠ a.label.1 → (c.replicas q).dds.calls =
      (s.cluster.replicas q).dds.calls := fun q hq =>
    congrArg Progress.calls (hnet.other hq)
  have hstep : ∀ meter, (newCalls (s.cluster.replicas a.label.1)
      (c.replicas a.label.1)).foldlM (fun meter call => Meter.call meter ⟨a.label.1, now, call⟩)
        s.meter = some meter → Clocked.step cfg s (a, now) = some ⟨c, now, meter⟩ := by
    intro meter hm
    simp only [Clocked.step, if_pos hle, hplain, Option.bind_some, hm, Option.map_some]
  obtain ⟨sends, rest, he, -⟩ := hnet.effect
  rcases he.calls_cases with ⟨hcalls, -⟩ | ⟨call, hcalls, -⟩
  · have hcalls : (c.replicas a.label.1).dds.calls =
        (s.cluster.replicas a.label.1).dds.calls := hcalls
    refine ⟨s.meter, hstep _ ?_, hM, fun q => ?_⟩
    · rw [newCalls, hcalls, List.drop_length]
      rfl
    · rw [h.calls]
      by_cases hq : q = a.label.1
      · rw [hq]
        exact hcalls.symm
      · exact (hother q hq).symm
  · have hcalls : (c.replicas a.label.1).dds.calls =
        (s.cluster.replicas a.label.1).dds.calls ++ [call] := hcalls
    have hfresh : CreatesFresh (c.replicas a.label.1).dds.calls := hF'.creates a.label.1
    obtain ⟨meter, hcall, hM', hhist⟩ := @Metered.call s.meter ⟨a.label.1, now, call⟩ hM (by
      rwa [h.calls, ← hcalls])
    refine ⟨meter, hstep _ ?_, hM', fun q => ?_⟩
    · rw [newCalls, hcalls, List.drop_left, List.foldlM_cons, hcall]
      rfl
    · rw [hhist, callsOf_snoc, h.calls]
      by_cases hq : q = a.label.1
      · subst hq
        rw [if_pos rfl, hcalls]
      · rw [if_neg (Ne.symm hq), List.append_nil, hother q hq]

theorem step_cluster {a : Action} {now : Jiffies} (hs : Clocked.step cfg s (a, now) = some s') :
    s.clock ≤ now ∧ Cluster.step cfg s.cluster a = some s'.cluster := by
  unfold Clocked.step at hs
  obtain ⟨hle, hs⟩ := Option.ite_none_right_eq_some.mp hs
  obtain ⟨c, hc, hs⟩ := Option.bind_eq_some_iff.mp hs
  obtain ⟨meter, -, rfl⟩ := Option.map_eq_some_iff.mp hs
  exact ⟨hle, hc⟩

theorem reachable_cluster (h : Reachable cfg s) : Cluster.Reachable cfg s.cluster := by
  induction h with
  | init => exact .init
  | step _ _ hs ih => exact ih.step trivial (step_cluster hs).2

theorem Timed.of_reachable (h : Reachable cfg s) : Timed s :=
  h.invariant (Timed.init cfg) fun s a s' hr _ hI hs => by
    obtain ⟨hle, hplain⟩ := step_cluster hs
    obtain ⟨meter, hs', hT⟩ := hI.step (reachable_cluster hr) hle hplain
    rw [hs, Option.some.injEq] at hs'
    exact hs' ▸ hT

theorem exists_reachable {c : Cluster} (h : Cluster.Reachable cfg c) :
    ∃ s, Reachable cfg s ∧ s.cluster = c := by
  induction h with
  | init => exact ⟨Clocked.init cfg, .init, rfl⟩
  | step hr _ hs ih =>
    obtain ⟨s, hs', rfl⟩ := ih
    obtain ⟨meter, hstep, -⟩ := (Timed.of_reachable hs').step hr le_rfl hs
    exact ⟨_, hs'.step trivial hstep, rfl⟩

theorem Timed.log_eq (h : Timed s) (hF : Flow cfg s.cluster.net) (p : Pid) :
    (s.meter.logs p).log = (s.cluster.replicas p).dds.log := by
  have hrun := h.metered.run p
  rw [h.calls] at hrun
  exact Option.some.inj (hrun.symm.trans (hF.run p))

theorem Timed.mem_stabilised (h : Timed s) (hF : Flow cfg s.cluster.net) {p : Pid} {id : CmdId} :
    (p, id) ∈ s.meter.stabilised.map Stabilised.command ↔
      id ∈ (s.cluster.replicas p).dds.log.stable := by
  rw [h.metered.stable.mem_iff, List.mem_map, h.log_eq hF]
  constructor
  · rintro ⟨id', hid, he⟩
    obtain ⟨-, rfl⟩ := Prod.mk.inj he
    exact List.mem_reverse.mp hid
  · exact fun hid => ⟨id, List.mem_reverse.mpr hid, rfl⟩

theorem Timed.first_own (h : Timed s) (hc : Cluster.Reachable cfg s.cluster) {e : LoggedCall}
    {id : CmdId} (he : firstCall s.meter.history id.pid id = some e) :
    e.call = .recordCreation id := by
  have hF := Flow.of_reachable hc
  obtain ⟨-, hid, hmem⟩ := firstCall_mem he
  obtain ⟨cmd, hcmd, rfl⟩ := hF.used_iff.mp (hid ▸ hF.used_of_call (h.calls _ ▸ hmem))
  have hcreate := (Routed.of_reachable hc).created _ cmd hcmd
  have hfresh := h.metered.fresh cmd.id.pid
  rw [show (s.cluster.net.replica cmd.id.pid).calls = _ from (h.calls _).symm] at hcreate
  exact firstCall_created hfresh hcreate he

end Clocked

/-- **The latencies are exact.** The runs of the cluster with a clock are the runs of the
cluster, at whatever times that do not go back. In each of them the average counts every
command once for every replica where it is stable, with the time since the first call about
it there; and the samples are those of the replicas that announced the commands, where the
first call is the announcement. -/
theorem latencies_exact (cfg : Config) :
    (∀ c, Cluster.Reachable cfg c ↔ ∃ s, Clocked.Reachable cfg s ∧ s.cluster = c) ∧
    ∀ s, Clocked.Reachable cfg s →
      (∀ a now, s.clock ≤ now →
        (Clocked.step cfg s (a, now)).map Clocked.cluster = Cluster.step cfg s.cluster a) ∧
      (s.meter.stabilised.map Stabilised.command).Nodup ∧
      (∀ p id, (p, id) ∈ s.meter.stabilised.map Stabilised.command ↔
        id ∈ (s.cluster.replicas p).dds.log.stable) ∧
      (∀ x ∈ s.meter.stabilised, ∃ e, firstCall s.meter.history x.pid x.cmdId = some e ∧
        e.time ≤ x.time ∧ (x.cmdId.pid = x.pid → e.call = .recordCreation x.cmdId)) ∧
      s.meter.latencies.count = s.meter.stabilised.length ∧
      s.meter.latencies.sum = (s.meter.stabilised.map s.meter.waited).sum ∧
      s.meter.latencies.samples =
        (s.meter.stabilised.filter fun x => x.cmdId.pid = x.pid).map s.meter.waited := by
  refine ⟨fun c => ⟨Clocked.exists_reachable, ?_⟩, fun s h => ?_⟩
  · rintro ⟨s, hs, rfl⟩
    exact Clocked.reachable_cluster hs
  have hc := Clocked.reachable_cluster h
  have hT := Clocked.Timed.of_reachable h
  have hF := Flow.of_reachable hc
  obtain ⟨hcount, hsum, hsamples⟩ := hT.metered.shows
  refine ⟨fun a now hle => ?_, hT.metered.stable.nodup, fun p id => hT.mem_stabilised hF,
    fun x hx => ?_, hcount, hsum, hsamples⟩
  · cases hplain : Cluster.step cfg s.cluster a with
    | none =>
      refine Option.map_eq_none_iff.mpr (Option.eq_none_iff_forall_not_mem.mpr fun s' hs' => ?_)
      rw [(Clocked.step_cluster hs').2] at hplain
      cases hplain
    | some c =>
      obtain ⟨meter, hs', -⟩ := hT.step hc hle hplain
      rw [hs', Option.map_some]
  · obtain ⟨e, he, hle⟩ := hT.metered.waits x hx
    refine ⟨e, he, hle, fun hown => ?_⟩
    rw [← hown] at he
    exact hT.first_own hc he

/-- Two Wintermute replicas. The first announces at 1, commits at 9 and tells the second, whose
entry is from 4 and becomes stable at 11. -/
theorem latencies_exact_two :
    let cfg : Config := .standard .wintermute [0, 1]
    ∃ s, Clocked.Reachable cfg s ∧ s.meter.latencies.count = 2 ∧
      s.meter.latencies.sum = 15 ∧ s.meter.latencies.samples = [8] := by
  intro cfg
  let a : Command := ⟨⟨0, 2⟩, 7⟩
  let run : List (Action × Jiffies) := [(.start 0 (.counting 0), 0), (.start 1 (.counting 1), 0),
    (.timer 0 1 (.counting 2), 1), (.recv 3 0 1 (.req a), 4), (.recv 4 0 0 (.req a), 5),
    (.recv 5 1 0 (.res 1 a []), 7), (.recv 6 0 0 (.res 0 a []), 9),
    (.recv 7 0 1 (.commit a []), 11)]
  have hrun : (Transition.exec (Clocked.step cfg) (fun _ _ => true) (.init cfg) run).any (fun s =>
      decide (s.meter.stabilised = [⟨0, a.id, 9⟩, ⟨1, a.id, 11⟩] ∧
        s.meter.stabilised.map s.meter.waited = [8, 7])) = true := by decide +kernel
  obtain ⟨s, hs, hd⟩ := (Option.any_eq_true _ _).mp hrun
  obtain ⟨hst, hwaited⟩ := of_decide_eq_true hd
  have hreach : Clocked.Reachable cfg s :=
    Transition.Reachable.exec (fun _ _ _ => trivial) .init hs
  obtain ⟨-, -, -, -, hcount, hsum, hsamples⟩ := (latencies_exact cfg).2 s hreach
  rw [hwaited] at hsum
  rw [hst] at hcount hsamples hwaited
  refine ⟨s, hreach, hcount, hsum, hsamples.trans ?_⟩
  exact congrArg (List.take 1) hwaited

/-! ## The end of a run -/

section Final

variable {cfg : Config} {s : Clocked} {c : Cluster}

theorem stable_iff_announced (hcfg : cfg.Live) (h : Cluster.Reachable cfg c)
    (hnet : c.network = []) {p : Pid} {id : CmdId} :
    id ∈ (c.replicas p).dds.log.stable ↔ p ∈ cfg.pool ∧ id ∈ c.announcedIds cfg := by
  have hF := Flow.of_reachable h
  have hT := Timely.of_reachable h
  rw [hT.mem_announcedIds]
  constructor
  · intro hid
    obtain ⟨deps, hd⟩ := hF.decided_of_stable (r := p) hid
    obtain ⟨cmd, hcmd, rfl⟩ := (hF.sound id.pid).ready_announced id
      ((hF.sound id.pid).handedOver_of_decided ⟨deps, hd⟩)
    exact ⟨mem_pool_of_stable h hid, _, cmd, hcmd, rfl⟩
  · rintro ⟨hp, hu⟩
    exact (Live.of_reachable hcfg h).stable hcfg hF
      (fun hp => Once.of_reachable hp hcfg.pool_nodup h) hnet hu hp

end Final

/-- **The final latencies.** Once no message is in flight the average counts every command
once for every replica, and there is one sample for every command. -/
theorem final_latencies (cfg : Config) (hcfg : cfg.Live) (s : Clocked)
    (h : Clocked.Reachable cfg s) (hnet : s.cluster.network = []) :
    s.meter.latencies.count = cfg.pool.length *
        (cfg.pool.map fun p => (s.cluster.replicas p).announced.length).sum ∧
      s.meter.latencies.samples.length =
        (cfg.pool.map fun p => (s.cluster.replicas p).announced.length).sum ∧
      ((s.meter.stabilised.filter fun x => x.cmdId.pid = x.pid).map Stabilised.cmdId).Perm
        (s.cluster.announcedIds cfg) := by
  have hc := Clocked.reachable_cluster h
  have hT := Clocked.Timed.of_reachable h
  have hF := Flow.of_reachable hc
  have hann := hF.announcedIds_nodup hcfg.pool_nodup
  have hlen : (s.cluster.announcedIds cfg).length =
      (cfg.pool.map fun p => (s.cluster.replicas p).announced.length).sum := by
    rw [Cluster.announcedIds, List.length_flatMap]
    simp only [List.length_map]
  have hmem : ∀ p id, (p, id) ∈ s.meter.stabilised.map Stabilised.command ↔
      p ∈ cfg.pool ∧ id ∈ s.cluster.announcedIds cfg := fun p id => by
    rw [hT.mem_stabilised hF, stable_iff_announced hcfg hc hnet]
  obtain ⟨hcount, -, hsamples⟩ := hT.metered.shows
  have hall : (s.meter.stabilised.map Stabilised.command).Perm
      (cfg.pool ×ˢ s.cluster.announcedIds cfg) := by
    refine (List.perm_ext_iff_of_nodup hT.metered.stable.nodup
      (hcfg.pool_nodup.product hann)).mpr fun x => ?_
    rw [List.mem_product]
    exact hmem x.1 x.2
  have hown : ((s.meter.stabilised.filter fun x => x.cmdId.pid = x.pid).map
      Stabilised.cmdId).Perm (s.cluster.announcedIds cfg) := by
    have hpairs : ((s.meter.stabilised.filter fun x => x.cmdId.pid = x.pid).map
        Stabilised.cmdId).map (fun id => (id.pid, id)) =
        (s.meter.stabilised.filter fun x => x.cmdId.pid = x.pid).map Stabilised.command := by
      rw [List.map_map]
      refine List.map_congr_left fun x hx => ?_
      exact Prod.ext (of_decide_eq_true (List.mem_filter.mp hx).2) rfl
    have hnd : ((s.meter.stabilised.filter fun x => x.cmdId.pid = x.pid).map
        Stabilised.cmdId).Nodup := by
      refine List.Nodup.of_map (fun id => (id.pid, id)) ?_
      rw [hpairs]
      exact hT.metered.stable.nodup.sublist (List.filter_sublist.map _)
    refine (List.perm_ext_iff_of_nodup hnd hann).mpr fun id => ?_
    constructor
    · intro hid
      obtain ⟨x, hx, rfl⟩ := List.mem_map.mp hid
      exact ((hmem x.pid x.cmdId).mp (List.mem_map_of_mem (List.mem_of_mem_filter hx))).2
    · intro hid
      obtain ⟨p, hp, hcmd⟩ := List.mem_flatMap.mp hid
      have hpid : id.pid = p := (hF.sound p).pid_of_announced (List.mem_map.mp hcmd)
      obtain ⟨x, hx, he⟩ := List.mem_map.mp ((hmem id.pid id).mpr ⟨hpid ▸ hp, hid⟩)
      obtain ⟨hxp, rfl⟩ := Prod.mk.inj he
      exact List.mem_map_of_mem (List.mem_filter.mpr ⟨hx, decide_eq_true hxp.symm⟩)
  refine ⟨?_, ?_, hown⟩
  · rw [hcount, ← hlen, ← List.length_map (f := Stabilised.command), hall.length_eq,
      List.length_product]
  · rw [hsamples, List.length_map, ← hlen, ← hown.length_eq, List.length_map]

/-- Two Wintermute replicas whose commands are announced at 3 and at 4 and decided, one after
the other, from 8 on. -/
theorem final_latencies_two :
    let cfg : Config := .standard .wintermute [0, 1]
    ∃ s, Clocked.Reachable cfg s ∧ s.meter.latencies.count = 4 ∧
      s.meter.latencies.samples.length = 2 ∧
      ((s.meter.stabilised.filter fun x => x.cmdId.pid = x.pid).map Stabilised.cmdId).Perm
        [⟨0, 2⟩, ⟨1, 3⟩] := by
  intro cfg
  let a : Command := ⟨⟨0, 2⟩, 7⟩
  let b : Command := ⟨⟨1, 3⟩, 7⟩
  let run : List (Action × Jiffies) := [(.start 0 (.counting 0), 0), (.start 1 (.counting 1), 0),
    (.timer 0 1 (.counting 2), 3), (.timer 1 3 (.counting 3), 4), (.recv 4 0 0 (.req a), 4),
    (.recv 5 0 1 (.req a), 5), (.recv 6 1 0 (.req b), 5), (.recv 7 1 1 (.req b), 6),
    (.recv 8 0 0 (.res 0 a []), 6), (.recv 9 1 0 (.res 1 a []), 8),
    (.recv 10 0 1 (.res 0 b [a.id]), 8), (.recv 11 1 1 (.res 1 b [a.id]), 9),
    (.recv 12 0 1 (.commit a []), 10), (.recv 13 1 0 (.commit b [a.id]), 12)]
  have hrun : (Transition.exec (Clocked.step cfg) (fun _ _ => true) (.init cfg) run).any (fun s =>
      decide (s.cluster.network = [] ∧ (s.cluster.replicas 0).announced = [a] ∧
        (s.cluster.replicas 1).announced = [b])) = true := by decide +kernel
  obtain ⟨s, hs, hd⟩ := (Option.any_eq_true _ _).mp hrun
  obtain ⟨hnet, ha, hb⟩ := of_decide_eq_true hd
  have hreach : Clocked.Reachable cfg s :=
    Transition.Reachable.exec (fun _ _ _ => trivial) .init hs
  obtain ⟨hcount, hsamples, hperm⟩ :=
    final_latencies cfg (.inl ⟨.inr ⟨rfl, by decide, rfl⟩, by decide⟩) s hreach hnet
  have hsum : (cfg.pool.map fun p => (s.cluster.replicas p).announced.length).sum = 2 := by
    simp [cfg, Config.standard, ha, hb]
  have hids : s.cluster.announcedIds cfg = [a.id, b.id] := by
    simp [Cluster.announcedIds, cfg, Config.standard, ha, hb]
  rw [hsum] at hcount hsamples
  rw [hids] at hperm
  exact ⟨s, hreach, hcount, hsamples, hperm⟩

end Blsmr
