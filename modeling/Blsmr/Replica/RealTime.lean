import Blsmr.Replica.History

/-!
# Real-time order

A client that has seen a command executed, at whatever replica, and then announces
another one with the same key finds them in that order everywhere. When a replica
executes a command, all that the command depends on has been announced
(`Flow.reach_announced`), so a later command is not among it, and what settles the two
can only put the later one behind (`real_time`). With the one history of a key this
makes the replicas a linearizable store: `real_time_full` for commands decided from full
replies, `real_time_partial` for announce quorums that share a replica.
-/

namespace Blsmr

open Blsmr.Graph Blsmr.Transition

section RealTime

variable {cfg : Config} {ok : Cluster → Action → Prop} {c c' : Cluster} {k : Key} {p q : Pid}
  {i j : CmdId}

theorem Flow.used_of_executed {s : Net} (hF : Flow cfg s)
    (h : i ∈ (s.replica p).log.executed) : s.used i := by
  obtain ⟨a, ha, hid⟩ := (hF.sound i.pid).ready_announced i (hF.handedOver_of_executed h)
  exact ⟨i.pid, a, ha, hid⟩

theorem Flow.reach_announced {s : Net} (hF : Flow cfg s) {D : CmdId → List CmdId}
    (hD : CommitsAs D (s.replica p).calls) (hi : i ∈ (s.replica p).log.executed)
    (hr : Reach D i j) : s.used j :=
  hF.used_of_executed
    ((CmdLog.run_follows (hF.creates p) hD (hF.run p)).order.mem_of_reach hi hr)

/-- **What was executed before a command was announced stays before it**, once the two are
settled. -/
theorem real_time (h : Cluster.ReachableBy cfg ok c)
    (hr : Transition.Reachable (Cluster.step cfg) c ok c') (hp : p ∈ cfg.pool) (hq : q ∈ cfg.pool)
    (hi : i ∈ (c.net.replica p).log.executed) (hj : ¬ c.net.used j)
    (hset : c'.net.Settled cfg i j) (hjq : j ∈ (c'.net.replica q).log.executed) :
    Before (c'.net.replica q).log.executed i j := by
  have hF := Flow.of_reachable h
  have hF' := Flow.of_reachable (h.append hr)
  obtain ⟨⟨new, hnew⟩, hgrow⟩ := grows_of_reachable h hr p
  obtain ⟨D, hD, hcom⟩ := hF'.exists_deps
  have hip : i ∈ (c'.net.replica p).log.executed := by
    show i ∈ (c'.replicas p).dds.log.executed
    rw [hnew]
    exact List.mem_append_left _ hi
  -- the earlier command does not depend on the later one
  have hback : ¬ Reach D i j := fun hreach =>
    hj (hF.reach_announced (fun hash x deps hc => hcom p hash x deps (hgrow.calls hc)) hi hreach)
  rcases hset with hd | hd | hd | hd
  · exact absurd (Reach.single (hF'.mem_deps hD hd hip)) hback
  · exact (CmdLog.run_follows (hF'.creates q) (hcom q) (hF'.run q)).order.before_of_acyclic hjq
      (Reach.single (hF'.mem_deps hD hd hjq)) hback
  · exact (hd q hq).2 hjq
  · have hjp : j ∉ (c.net.replica p).log.executed := fun hex => hj (hF.used_of_executed hex)
    have hbad := (hd p hp).2 hip
    have hlast : j ∈ new := by
      have hmem : j ∈ (c'.replicas p).dds.log.executed := hbad.1
      rw [hnew] at hmem
      exact (List.mem_append.mp hmem).resolve_left hjp
    refine absurd hbad (Before.asymm ?_)
    show Before (c'.replicas p).dds.log.executed i j
    rw [hnew]
    exact before_append_of_mem hi hlast hjp

theorem history_real_time (h : Cluster.ReachableBy cfg ok c)
    (hr : Transition.Reachable (Cluster.step cfg) c ok c') (hp : p ∈ cfg.pool) (hq : q ∈ cfg.pool)
    (hset : ∀ i j, c'.net.Conflict i j → c'.keyOf i = some k → c'.keyOf j = some k →
      c'.net.HandedOver i → c'.net.HandedOver j → c'.net.Settled cfg i j)
    (hi : i ∈ c.history p k) (hj : c.command j = none) (hjq : j ∈ c'.history q k) :
    Before (c'.history q k) i j := by
  have hF := Flow.of_reachable h
  have hF' := Flow.of_reachable (h.append hr)
  obtain ⟨hip, hki⟩ := List.mem_filter.mp hi
  obtain ⟨hjex, hkj⟩ := List.mem_filter.mp hjq
  have hki' : c'.keyOf i = some k := Cluster.keyOf_mono h hr (by simpa using hki)
  have hkj' : c'.keyOf j = some k := by simpa using hkj
  have hnew : ¬ c.net.used j := fun hu => by
    obtain ⟨a, ha, hid⟩ := hF.used_iff.mp hu
    rw [hF.command_iff.mpr ⟨ha, hid⟩] at hj
    cases hj
  have hip' : i ∈ (c'.net.replica p).log.executed :=
    (List.mem_filter.mp ((history_mono h hr p k).subset hi)).1
  obtain ⟨a, ha, rfl, hka⟩ := hF'.keyOf_iff.mp hki'
  obtain ⟨b, hb, rfl, hkb⟩ := hF'.keyOf_iff.mp hkj'
  have hne : a.id ≠ b.id := fun heq => hnew (heq ▸ hF.used_of_executed hip)
  have hset' := hset a.id b.id ⟨a, b, ha, hb, hF'.rivals ha hb hne (hka.trans hkb.symm), rfl, rfl⟩
    hki' hkj' (hF'.handedOver_of_executed hip') (hF'.handedOver_of_executed hjex)
  exact before_filter.mpr ⟨by simpa using hki', by simpa using hkj',
    real_time h hr hp hq hip hnew hset' hjex⟩

end RealTime

/-- **Real-time order, from full replies.** What some replica has executed with key `k` when
a command with that key is not yet announced is executed before it by every replica, if the
commands with that key were handed over with a reply from every replica. -/
theorem real_time_full (cfg : Config) (c c' : Cluster) (h : Cluster.Reachable cfg c)
    (hr : Transition.Reachable (Cluster.step cfg) c (fun _ _ => True) c') (k : Key)
    (hfull : c'.FullKey cfg k) (p q : Pid) (hp : p ∈ cfg.pool) (hq : q ∈ cfg.pool) (i j : CmdId)
    (hi : i ∈ c.history p k) (hj : c.command j = none) (hjq : j ∈ c'.history q k) :
    Before (c'.history q k) i j := by
  have hc' := h.append hr
  have hF := Flow.of_reachable hc'
  have hT := Timely.of_reachable hc'
  refine history_real_time h hr hp hq (fun i j hc hki hkj hi hj => ?_) hi hj hjq
  exact settled_full hc' hc (hfull.full hF hT hki hi) (hfull.full hF hT hkj hj)

/-- The first of two Wintermute replicas executes its command before the second one announces
its own; the second replica gets the decision on the first command last. -/
theorem real_time_full_two :
    let cfg : Config := .standard .wintermute [0, 1]
    ∃ c c', Cluster.Reachable cfg c ∧
      Transition.Reachable (Cluster.step cfg) c (fun _ _ => True) c' ∧
      c.history 0 7 = [⟨0, 2⟩] ∧ c.command ⟨1, 7⟩ = none ∧ c'.history 1 7 = [⟨0, 2⟩, ⟨1, 7⟩] ∧
      Before (c'.history 1 7) ⟨0, 2⟩ ⟨1, 7⟩ := by
  intro cfg
  let a : Command := ⟨⟨0, 2⟩, 7⟩
  let b : Command := ⟨⟨1, 7⟩, 7⟩
  let run : List Action := [.start 0 (.counting 0), .start 1 (.counting 1),
    .timer 0 1 (.counting 2), .recv 3 0 0 (.req a), .recv 4 0 1 (.req a), .recv 5 0 0 (.res 0 a []),
    .recv 6 1 0 (.res 1 a [])]
  let rest : List Action := [.timer 1 3 (.counting 7), .recv 8 1 0 (.req b), .recv 9 1 1 (.req b),
    .recv 10 0 1 (.res 0 b []), .recv 11 1 1 (.res 1 b [a.id]), .recv 12 1 0 (.request b [a.id]),
    .recv 13 1 1 (.request b [a.id]), .recv 14 0 1 (.response b [a.id]),
    .recv 15 1 1 (.response b [a.id]), .recv 16 0 1 (.commit a [])]
  have hrun : (Cluster.execute cfg (fun _ _ => true) run).any (fun c =>
      (Transition.exec (Cluster.step cfg) (fun _ _ => true) c rest).any fun c' =>
        decide (c.history 0 7 = [a.id] ∧ c.command b.id = none ∧
          c'.history 1 7 = [a.id, b.id] ∧ c'.FullKey cfg 7)) = true := by decide +kernel
  obtain ⟨c, hc, hc'⟩ := (Option.any_eq_true _ _).mp hrun
  obtain ⟨c', hc', hd⟩ := (Option.any_eq_true _ _).mp hc'
  obtain ⟨h0, hnone, h1, hfull⟩ := of_decide_eq_true hd
  have hreach := Cluster.reachable_execute (fun (_ : Cluster) (_ : Action) _ => True.intro) hc
  have hreach' : Transition.Reachable (Cluster.step cfg) c (fun _ _ => True) c' :=
    Transition.Reachable.exec (fun _ _ _ => trivial) .init hc'
  exact ⟨c, c', hreach, hreach', h0, hnone, h1, real_time_full cfg c c' hreach hreach' 7 hfull 0 1
    (by decide) (by decide) a.id b.id (h0 ▸ List.mem_cons_self) hnone
    (h1 ▸ List.mem_cons_of_mem _ List.mem_cons_self)⟩

/-- **Real-time order, from announce quorums**, in every run in which no reply leaves out a
stable command too early. -/
theorem real_time_partial (cfg : Config) (hcfg : cfg.Partial) (c c' : Cluster)
    (h : Cluster.ReachableBy cfg (NoEarlyPruning cfg) c)
    (hr : Transition.Reachable (Cluster.step cfg) c (NoEarlyPruning cfg) c') (k : Key)
    (p q : Pid) (hp : p ∈ cfg.pool) (hq : q ∈ cfg.pool) (i j : CmdId)
    (hi : i ∈ c.history p k) (hj : c.command j = none) (hjq : j ∈ c'.history q k) :
    Before (c'.history q k) i j :=
  history_real_time h hr hp hq
    (fun _ _ hc _ _ hi hj => settled_partial hcfg (h.append hr) hc hi hj) hi hj hjq

/-- Four EPaxos replicas and quorums of three replies. Command `a` is stable everywhere
when `b` is announced, and the replies to `b` leave it out. -/
theorem real_time_partial_four :
    let cfg : Config := .standard .epaxos [0, 1, 2, 3]
    ∃ c c', Cluster.ReachableBy cfg (NoEarlyPruning cfg) c ∧
      Transition.Reachable (Cluster.step cfg) c (NoEarlyPruning cfg) c' ∧
      c.history 0 7 = [⟨0, 2⟩] ∧ c.command ⟨3, 20⟩ = none ∧
      c'.history 1 7 = [⟨0, 2⟩, ⟨3, 20⟩] ∧ Before (c'.history 1 7) ⟨0, 2⟩ ⟨3, 20⟩ := by
  intro cfg
  let a : Command := ⟨⟨0, 2⟩, 7⟩
  let b : Command := ⟨⟨3, 20⟩, 7⟩
  let run : List Action := decidedByThree a ++
    [.recv 17 0 1 (.commit a []), .recv 18 0 2 (.commit a []), .recv 19 0 3 (.commit a [])]
  let rest : List Action := [.timer 3 3 (.counting 20), .recv 21 3 0 (.req b),
    .recv 22 3 1 (.req b), .recv 23 3 2 (.req b), .recv 24 0 3 (.res 0 b []),
    .recv 25 1 3 (.res 1 b []), .recv 26 2 3 (.res 2 b []), .recv 27 3 0 (.request b []),
    .recv 28 3 1 (.request b []), .recv 29 3 2 (.request b []), .recv 30 3 3 (.request b []),
    .recv 31 0 3 (.response b []), .recv 32 1 3 (.response b []), .recv 33 2 3 (.response b []),
    .recv 34 3 3 (.response b []), .recv 35 3 1 (.commit b [])]
  have hrun : (Cluster.execute cfg (Cluster.answersInTime cfg) run).any (fun c =>
      (Transition.exec (Cluster.step cfg) (Cluster.answersInTime cfg) c rest).any fun c' =>
        decide (c.history 0 7 = [a.id] ∧ c.command b.id = none ∧
          c'.history 1 7 = [a.id, b.id])) = true := by decide +kernel
  obtain ⟨c, hc, hc'⟩ := (Option.any_eq_true _ _).mp hrun
  obtain ⟨c', hc', hd⟩ := (Option.any_eq_true _ _).mp hc'
  obtain ⟨h0, hnone, h1⟩ := of_decide_eq_true hd
  have hreach := Cluster.reachable_execute (fun _ _ => NoEarlyPruning.of_answersInTime) hc
  have hreach' : Transition.Reachable (Cluster.step cfg) c (NoEarlyPruning cfg) c' :=
    Transition.Reachable.exec (fun _ _ => NoEarlyPruning.of_answersInTime) .init hc'
  exact ⟨c, c', hreach, hreach', h0, hnone, h1, real_time_partial cfg
    (.inl ⟨⟨rfl, by decide, rfl⟩, by decide⟩) c c' hreach hreach' 7 0 1 (by decide) (by decide)
    a.id b.id (h0 ▸ List.mem_cons_self) hnone
    (h1 ▸ List.mem_cons_of_mem _ List.mem_cons_self)⟩

end Blsmr
