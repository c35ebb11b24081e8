import Blsmr.Lib.Aligned
import Blsmr.Replica.Partial
import Blsmr.Replica.Timers

/-!
# The history of a key

What makes the replicas agree on two commands (`Net.Settled`) also keeps one of
them from running ahead with a command that the other one orders differently: the
sequences they execute are aligned (`Flow.aligned`). So the commands with one key
form one history that every replica executes a prefix of, at any two moments of a
run: `one_history_full` for commands decided from full replies,
`one_history_partial` for announce quorums that share a replica.
-/

namespace Blsmr

open Blsmr.Graph Blsmr.Transition

/-! ## Announced commands -/

namespace Cluster

variable (c : Cluster)

/-- The announced command with identifier `i`. -/
def command (i : CmdId) : Option Command := (c.replicas i.pid).announced.find? fun a => a.id = i

def keyOf (i : CmdId) : Option Key := (c.command i).map Command.key

/-- The commands with key `k` that replica `p` has executed, in order. -/
def history (p : Pid) (k : Key) : List CmdId :=
  (c.replicas p).dds.log.executed.filter fun i => c.keyOf i = some k

end Cluster

theorem Flow.command_iff {cfg : Config} {c : Cluster} (hF : Flow cfg c.net) {i : CmdId}
    {a : Command} : c.command i = some a ↔ a ∈ (c.replicas i.pid).announced ∧ a.id = i := by
  constructor
  · intro h
    exact ⟨List.mem_of_find?_eq_some h, by simpa using List.find?_some h⟩
  · rintro ⟨ha, rfl⟩
    obtain ⟨b, hb⟩ : ∃ b, c.command a.id = some b := by
      refine Option.isSome_iff_exists.mp (List.find?_isSome.mpr ⟨a, ha, by simp⟩)
    have hbm := List.mem_of_find?_eq_some hb
    have hbid : b.id = a.id := by simpa using List.find?_some hb
    rw [hb, (hF.sound a.id.pid).announced_unique hbm ha hbid]

theorem Flow.keyOf_iff {cfg : Config} {c : Cluster} (hF : Flow cfg c.net) {i : CmdId} {k : Key} :
    c.keyOf i = some k ↔ ∃ a ∈ (c.replicas i.pid).announced, a.id = i ∧ a.key = k := by
  rw [Cluster.keyOf, Option.map_eq_some_iff]
  simp only [hF.command_iff, and_assoc]

/-! ## Settled pairs -/

namespace Net

variable (cfg : Config) (s : Net)

/-- Something fixes the order of `i` and `j`. -/
def Settled (i j : CmdId) : Prop :=
  s.DependsOn i j ∨ s.DependsOn j i ∨ s.AllPrecede cfg i j ∨ s.AllPrecede cfg j i

/-- Two announced commands with the same key. -/
def Conflict (i j : CmdId) : Prop :=
  ∃ a b, a ∈ (s.replica i.pid).announced ∧ b ∈ (s.replica j.pid).announced ∧ s.Rivals a b ∧
    a.id = i ∧ b.id = j

end Net

section Align

variable {cfg : Config} {s : Net} {i j : CmdId}

theorem Flow.rivals (hF : Flow cfg s) {a b : Command} (ha : a ∈ (s.replica a.id.pid).announced)
    (hb : b ∈ (s.replica b.id.pid).announced) (hne : a.id ≠ b.id) (hkey : a.key = b.key) :
    s.Rivals a b := ⟨hF.named ha, hF.named hb, hne, hkey⟩

theorem Flow.handedOver_of_executed (hF : Flow cfg s) {q : Pid}
    (h : i ∈ (s.replica q).log.executed) : s.HandedOver i :=
  (hF.sound i.pid).handedOver_of_decided (hF.decided_of_stable ((hF.mem_executed q).mp h))

theorem Flow.mem_deps (hF : Flow cfg s) {D : CmdId → List CmdId}
    (hD : ∀ i deps, (i, deps) ∈ (s.replica i.pid).decided → deps = D i) (h : s.DependsOn i j)
    {q : Pid} (hi : i ∈ (s.replica q).log.executed) : j ∈ D i := by
  obtain ⟨rd, hrd, res, hres, hc⟩ := h
  obtain ⟨deps, hd⟩ := hF.decided_of_stable ((hF.mem_executed q).mp hi)
  obtain ⟨rd', hrd', rfl⟩ := (hF.sound i.pid).decided_ready i deps hd
  obtain rfl := (hF.sound i.pid).ready_unique hrd hrd'
  rw [← hD i _ hd, mem_unionDeps]
  exact ⟨res, hres, hc⟩

theorem Flow.leads (hF : Flow cfg s) (h : s.AllPrecede cfg i j) {q : Pid} (hq : q ∈ cfg.pool) :
    Aligned.Leads (s.replica q).log.executed i j :=
  ⟨(hF.mem_executed q).mpr (h q hq).1, (h q hq).2⟩

/-- **Replicas whose conflicting commands are settled execute aligned sequences.** -/
theorem Flow.aligned (hF : Flow cfg s) {p q : Pid} (hp : p ∈ cfg.pool) (hq : q ∈ cfg.pool)
    {R : CmdId → CmdId → Prop}
    (h : ∀ i j, R i j → s.HandedOver i → s.HandedOver j → s.Settled cfg i j) :
    Aligned R (s.replica p).log.executed (s.replica q).log.executed := by
  obtain ⟨D, hD, hcom⟩ := hF.exists_deps
  have hdf : ∀ r, DepFirst D (s.replica r).log.executed := fun r =>
    (CmdLog.run_follows (hF.creates r) (hcom r) (hF.run r)).order
  refine Aligned.of_depFirst (hdf p) (hdf q) fun i j hR hi hj => ?_
  have hedge : ∀ {i j}, s.DependsOn i j →
      (i ∈ (s.replica p).log.executed ∨ i ∈ (s.replica q).log.executed) → j ∈ D i :=
    fun hd hi => hi.elim (hF.mem_deps hD hd) (hF.mem_deps hD hd)
  rcases h i j hR (hi.elim hF.handedOver_of_executed hF.handedOver_of_executed)
    (hj.elim hF.handedOver_of_executed hF.handedOver_of_executed) with hd | hd | hd | hd
  · exact .inl (hedge hd hi)
  · exact .inr (.inl (hedge hd hj))
  · exact .inr (.inr (.inl ⟨hF.leads hd hp, hF.leads hd hq⟩))
  · exact .inr (.inr (.inr ⟨hF.leads hd hp, hF.leads hd hq⟩))

end Align

/-! ## Histories -/

section History

variable {cfg : Config} {ok : Cluster → Action → Prop} {c c' : Cluster} {k : Key}

theorem Flow.executed_nodup {s : Net} (hF : Flow cfg s) (q : Pid) :
    (s.replica q).log.executed.Nodup :=
  (hF.log_inv q).executed_perm.nodup_iff.mpr (hF.log_inv q).stable_nodup

theorem Flow.one_history (hF : Flow cfg c.net) {p q : Pid} (hp : p ∈ cfg.pool)
    (hq : q ∈ cfg.pool) (h : ∀ i j, c.net.Conflict i j → c.keyOf i = some k →
      c.keyOf j = some k → c.net.HandedOver i → c.net.HandedOver j → c.net.Settled cfg i j) :
    c.history p k <+: c.history q k ∨ c.history q k <+: c.history p k := by
  have hal : Aligned (fun i j => c.net.Conflict i j ∧ c.keyOf i = some k ∧ c.keyOf j = some k)
      (c.history p k) (c.history q k) :=
    (hF.aligned hp hq fun i j hR hi hj => h i j hR.1 hR.2.1 hR.2.2 hi hj).filter _
  refine hal.prefix_or_prefix ((hF.executed_nodup p).filter _) ((hF.executed_nodup q).filter _)
    fun i hi j hj hij => ?_
  have hki : c.keyOf i = some k := by simpa using (List.mem_filter.mp hi).2
  have hkj : c.keyOf j = some k := by simpa using (List.mem_filter.mp hj).2
  obtain ⟨a, ha, rfl, hka⟩ := hF.keyOf_iff.mp hki
  obtain ⟨b, hb, rfl, hkb⟩ := hF.keyOf_iff.mp hkj
  have hab : c.net.Rivals a b := hF.rivals ha hb hij (hka.trans hkb.symm)
  exact ⟨⟨⟨a, b, ha, hb, hab, rfl, rfl⟩, hki, hkj⟩, ⟨⟨b, a, hb, ha, hab.symm, rfl, rfl⟩, hkj, hki⟩⟩

theorem Progress.Grows.trans {x y z : Progress} (h : x.Grows y) (h' : y.Grows z) : x.Grows z :=
  ⟨List.Subset.trans h.announced h'.announced, List.Subset.trans h.calls h'.calls,
    List.Subset.trans h.ready h'.ready, List.Subset.trans h.decided h'.decided⟩

theorem grows_of_reachable (h : Cluster.ReachableBy cfg ok c)
    (hr : Transition.Reachable (Cluster.step cfg) c ok c') (q : Pid) :
    (∃ new, (c'.replicas q).dds.log.executed = (c.replicas q).dds.log.executed ++ new) ∧
      (c.net.replica q).Grows (c'.net.replica q) := by
  induction hr with
  | init => exact ⟨⟨[], by simp⟩, .refl _⟩
  | step hr _ hs ih =>
    have hc := h.append hr
    have hn := (step_net (regular_of_reachable hc) hs).1
    obtain ⟨⟨new, hnew⟩, hgrow⟩ := ih
    obtain ⟨⟨new', hnew'⟩, -⟩ := hn.log_extends (Flow.of_reachable hc) q
    refine ⟨⟨new ++ new', ?_⟩, hgrow.trans (hn.grows q)⟩
    rw [← List.append_assoc, ← hnew]
    exact hnew'

theorem Cluster.keyOf_mono (h : Cluster.ReachableBy cfg ok c)
    (hr : Transition.Reachable (Cluster.step cfg) c ok c') {i : CmdId} (hk : c.keyOf i = some k) :
    c'.keyOf i = some k := by
  obtain ⟨a, ha, haid, hka⟩ := (Flow.of_reachable h).keyOf_iff.mp hk
  exact (Flow.of_reachable (h.append hr)).keyOf_iff.mpr
    ⟨a, (grows_of_reachable h hr i.pid).2.announced ha, haid, hka⟩

theorem history_mono (h : Cluster.ReachableBy cfg ok c)
    (hr : Transition.Reachable (Cluster.step cfg) c ok c') (p : Pid) (k : Key) :
    c.history p k <+: c'.history p k := by
  obtain ⟨⟨new, hnew⟩, -⟩ := grows_of_reachable h hr p
  have hsame : ∀ i ∈ (c.replicas p).dds.log.executed,
      decide (c.keyOf i = some k) = decide (c'.keyOf i = some k) := by
    intro i hi
    have hF := Flow.of_reachable h
    obtain ⟨a, ha, haid⟩ := (hF.sound i.pid).ready_announced i (hF.handedOver_of_executed hi)
    have hkey : c.keyOf i = some a.key := hF.keyOf_iff.mpr ⟨a, ha, haid, rfl⟩
    rw [hkey, Cluster.keyOf_mono h hr hkey]
  rw [Cluster.history, Cluster.history, hnew, List.filter_append, List.filter_congr hsame]
  exact List.prefix_append _ _

theorem history_across {p q : Pid} (h : Cluster.ReachableBy cfg ok c)
    (hr : Transition.Reachable (Cluster.step cfg) c ok c')
    (hp : c'.history p k <+: c'.history q k ∨ c'.history q k <+: c'.history p k) :
    c.history p k <+: c'.history q k ∨ c'.history q k <+: c.history p k := by
  have hmono := history_mono h hr p k
  rcases hp with hp | hp
  · exact .inl (hmono.trans hp)
  · exact List.prefix_or_prefix_of_prefix hmono hp

end History

/-! ## One history for every key -/

section Settle

variable {cfg : Config} {c : Cluster} {i j : CmdId}

theorem settled_full (h : Cluster.Reachable cfg c) (hc : c.net.Conflict i j)
    (hi : c.net.Full cfg i) (hj : c.net.Full cfg j) : c.net.Settled cfg i j := by
  obtain ⟨-, hO⟩ := net_invariant (I := fun s => Flow cfg s ∧ FullOrder cfg s)
    ⟨Flow.init cfg, FullOrder.init cfg⟩ (fun _ _ _ _ _ hI hs => ⟨hI.1.step hs, hI.2.step hI.1 hs⟩) h
  obtain ⟨a, b, -, -, hab, rfl, rfl⟩ := hc
  exact hO.full_full a b hab hi hj

theorem shared_reply (hcfg : cfg.Partial) {ok : Cluster → Action → Prop}
    (h : Cluster.ReachableBy cfg ok c) {rd rd' : QuorumReady}
    (hrd : (i, rd) ∈ (c.net.replica i.pid).ready) (hrd' : (j, rd') ∈ (c.net.replica j.pid).ready) :
    ∃ ra ∈ rd.quorum, ∃ rb ∈ rd'.quorum, ra.pid = rb.pid := by
  have hQ : Quorate cfg c.net := net_invariant (Quorate.init cfg)
    (fun _ _ _ _ _ hI hs => hI.step hcfg.not_wintermute hs) h
  obtain ⟨t, ht, ht'⟩ : ∃ t, t ∈ rd.quorum.map Res.pid ∧ t ∈ rd'.quorum.map Res.pid := by
    have hq := hQ.ready _ _ rd hrd
    have hq' := hQ.ready _ _ rd' hrd'
    rcases hcfg with ⟨hd, hn⟩ | ⟨k, grid, hk, hg⟩
    · have hO := Once.of_reachable (by rw [hd.protocolType]; simp) hd.pool_nodup h
      exact hd.share hn ⟨hO.ready_nodup _ _ rd hrd, hO.ready_sub _ _ rd hrd⟩
        ⟨hO.ready_nodup _ _ rd' hrd', hO.ready_sub _ _ rd' hrd'⟩ hq hq'
    · exact hg.share hk hq hq'
  obtain ⟨ra, hra, rfl⟩ := List.mem_map.mp ht
  obtain ⟨rb, hrb, hpid⟩ := List.mem_map.mp ht'
  exact ⟨ra, hra, rb, hrb, hpid.symm⟩

theorem Flow.usable_of_ready {s : Net} (hF : Flow cfg s) {rd : QuorumReady} {res : Res}
    (hrd : (i, rd) ∈ (s.replica i.pid).ready) (hres : res ∈ rd.quorum) :
    s.Usable res ∧ res.id = i := by
  obtain rfl := ((hF.sound _).ready_ids i rd hrd).2 res hres
  exact ⟨⟨hF.ready_sent _ _ rd hrd res hres, .inr ⟨rd, hrd, hres⟩⟩, rfl⟩

theorem settled_partial (hcfg : cfg.Partial) (h : Cluster.ReachableBy cfg (NoEarlyPruning cfg) c)
    (hc : c.net.Conflict i j) (hi : c.net.HandedOver i) (hj : c.net.HandedOver j) :
    c.net.Settled cfg i j := by
  have hF := Flow.of_reachable h
  have hU : UsableOrder cfg c.net := net_invariant (I := UsableOrder cfg)
    (fun _ _ _ _ _ hra => by obtain ⟨⟨pkt, hpkt, -⟩, -⟩ := hra; cases hpkt)
    (fun _ _ _ hr hok hI hs => hI.step (Flow.of_reachable hr) hs hok) h
  obtain ⟨a, b, -, -, hab, rfl, rfl⟩ := hc
  obtain ⟨rd, hrd⟩ := hi
  obtain ⟨rd', hrd'⟩ := hj
  obtain ⟨ra, hra, rb, hrb, hpid⟩ := shared_reply hcfg h hrd hrd'
  obtain ⟨hua, hida⟩ := hF.usable_of_ready hrd hra
  obtain ⟨hub, hidb⟩ := hF.usable_of_ready hrd' hrb
  rcases hU a b hab ra rb hua hub hida hidb hpid with h' | h' | h' | h'
  · exact .inl ⟨rd, hrd, ra, hra, h'⟩
  · exact .inr (.inl ⟨rd', hrd', rb, hrb, h'⟩)
  · exact .inr (.inr (.inl h'))
  · exact .inr (.inr (.inr h'))

end Settle

/-- Whatever was handed over for a command with key `k` holds a reply from every replica. -/
def Cluster.FullKey (cfg : Config) (c : Cluster) (k : Key) : Prop :=
  ∀ p ∈ cfg.pool, ∀ a ∈ (c.replicas p).announced, a.key = k → ∀ r ∈ (c.replicas p).ready,
    r.1 = a.id → ∀ q ∈ cfg.pool, ∃ res ∈ r.2.quorum, res.pid = q

instance (cfg : Config) (c : Cluster) (k : Key) : Decidable (c.FullKey cfg k) := by
  unfold Cluster.FullKey; infer_instance

theorem Cluster.FullKey.full {cfg : Config} {c : Cluster} {k : Key} (hF : Flow cfg c.net)
    (hT : Timely cfg c) (h : c.FullKey cfg k) {i : CmdId} (hk : c.keyOf i = some k)
    (hi : c.net.HandedOver i) : c.net.Full cfg i := by
  obtain ⟨rd, hrd⟩ := hi
  obtain ⟨a, ha, rfl, hka⟩ := hF.keyOf_iff.mp hk
  have hpool : a.id.pid ∈ cfg.pool := by
    refine hT.started_pool ?_
    by_contra hst
    exact List.not_mem_nil ((hT.replica a.id.pid).idle hst ▸ ha)
  exact ⟨rd, hrd, h a.id.pid hpool a ha hka (a.id, rd) hrd rfl⟩

/-- **One history per key, from full replies.** What one replica has executed with
key `k` at some moment and what another one has executed with it at a later moment
are prefixes of one another, if the commands with that key were handed over with a
reply from every replica. -/
theorem one_history_full (cfg : Config) (c c' : Cluster) (h : Cluster.Reachable cfg c)
    (hr : Transition.Reachable (Cluster.step cfg) c (fun _ _ => True) c') (k : Key)
    (hfull : c'.FullKey cfg k) (p q : Pid) (hp : p ∈ cfg.pool) (hq : q ∈ cfg.pool) :
    c.history p k <+: c'.history q k ∨ c'.history q k <+: c.history p k := by
  have hc' := h.append hr
  have hF := Flow.of_reachable hc'
  have hT := Timely.of_reachable hc'
  refine history_across h hr (hF.one_history hp hq fun i j hc hi hj hri hrj => ?_)
  exact settled_full hc' hc (hfull.full hF hT hi hri) (hfull.full hF hT hj hrj)

/-- Two Wintermute replicas that receive the requests in opposite orders; the first has
executed one command when the other has executed none. -/
theorem one_history_full_crossed :
    let cfg : Config := .standard .wintermute [0, 1]
    ∃ c c', Cluster.Reachable cfg c ∧
      Transition.Reachable (Cluster.step cfg) c (fun _ _ => True) c' ∧
      c.history 0 7 = [] ∧ c'.history 1 7 = [⟨0, 2⟩, ⟨1, 3⟩] ∧
      (c.history 0 7 <+: c'.history 1 7 ∨ c'.history 1 7 <+: c.history 0 7) := by
  intro cfg
  let a : Command := ⟨⟨0, 2⟩, 7⟩
  let b : Command := ⟨⟨1, 3⟩, 7⟩
  let run : List Action := crossed a b
  let rest : List Action := crossedRest a b
  have hrun : (Cluster.execute cfg (fun _ _ => true) run).any (fun c =>
      (Transition.exec (Cluster.step cfg) (fun _ _ => true) c rest).any fun c' =>
        decide (c.history 0 7 = [] ∧ c'.history 1 7 = [a.id, b.id] ∧ c'.FullKey cfg 7)) = true := by
    decide +kernel
  obtain ⟨c, hc, hc'⟩ := (Option.any_eq_true _ _).mp hrun
  obtain ⟨c', hc', hd⟩ := (Option.any_eq_true _ _).mp hc'
  obtain ⟨h0, h1, hfull⟩ := of_decide_eq_true hd
  have hreach := Cluster.reachable_execute (fun (_ : Cluster) (_ : Action) _ => True.intro) hc
  have hreach' : Transition.Reachable (Cluster.step cfg) c (fun _ _ => True) c' :=
    Transition.Reachable.exec (fun _ _ _ => trivial) .init hc'
  exact ⟨c, c', hreach, hreach', h0, h1,
    one_history_full cfg c c' hreach hreach' 7 hfull 0 1 (by decide) (by decide)⟩

/-- **One history per key, from announce quorums**, in every run in which no reply
leaves out a stable command too early. -/
theorem one_history_partial (cfg : Config) (hcfg : cfg.Partial) (c c' : Cluster)
    (h : Cluster.ReachableBy cfg (NoEarlyPruning cfg) c)
    (hr : Transition.Reachable (Cluster.step cfg) c (NoEarlyPruning cfg) c') (k : Key)
    (p q : Pid) (hp : p ∈ cfg.pool) (hq : q ∈ cfg.pool) :
    c.history p k <+: c'.history q k ∨ c'.history q k <+: c.history p k :=
  history_across h hr ((Flow.of_reachable (h.append hr)).one_history hp hq
    fun _ _ hc _ _ hi hj => settled_partial hcfg (h.append hr) hc hi hj)

/-- Four EPaxos replicas and quorums of three replies. Replica 0 has executed `a` when `b`
is announced, and answers it too late; replica 3 learns of `a` after it has decided `b`. -/
theorem one_history_partial_four :
    let cfg : Config := .standard .epaxos [0, 1, 2, 3]
    ∃ c c', Cluster.ReachableBy cfg (NoEarlyPruning cfg) c ∧
      Transition.Reachable (Cluster.step cfg) c (NoEarlyPruning cfg) c' ∧
      c.history 0 7 = [⟨0, 2⟩] ∧ c.history 3 7 = [] ∧ c'.history 3 7 = [⟨0, 2⟩, ⟨3, 17⟩] ∧
      (c.history 0 7 <+: c'.history 3 7 ∨ c'.history 3 7 <+: c.history 0 7) := by
  intro cfg
  let a : Command := ⟨⟨0, 2⟩, 7⟩
  let b : Command := ⟨⟨3, 17⟩, 7⟩
  let run : List Action := decidedByThree a
  let rest : List Action := [.timer 3 3 (.counting 17), .recv 18 3 1 (.req b),
    .recv 19 3 2 (.req b), .recv 20 3 3 (.req b), .recv 21 1 3 (.res 1 b [a.id]),
    .recv 22 2 3 (.res 2 b [a.id]), .recv 23 3 3 (.res 3 b []), .recv 24 3 0 (.req b),
    .recv 25 3 0 (.request b [a.id]), .recv 26 3 1 (.request b [a.id]),
    .recv 27 3 2 (.request b [a.id]), .recv 28 3 3 (.request b [a.id]),
    .recv 29 0 3 (.response b [a.id]), .recv 30 1 3 (.response b [a.id]),
    .recv 31 2 3 (.response b [a.id]), .recv 32 3 3 (.response b [a.id]), .recv 33 0 3 (.req a),
    .recv 34 0 3 (.commit a [])]
  have hrun : (Cluster.execute cfg (Cluster.answersInTime cfg) run).any (fun c =>
      (Transition.exec (Cluster.step cfg) (Cluster.answersInTime cfg) c rest).any fun c' =>
        decide (c.history 0 7 = [a.id] ∧ c.history 3 7 = [] ∧
          c'.history 3 7 = [a.id, b.id])) = true := by decide +kernel
  obtain ⟨c, hc, hc'⟩ := (Option.any_eq_true _ _).mp hrun
  obtain ⟨c', hc', hd⟩ := (Option.any_eq_true _ _).mp hc'
  obtain ⟨h0, h3, h3'⟩ := of_decide_eq_true hd
  have hreach := Cluster.reachable_execute (fun _ _ => NoEarlyPruning.of_answersInTime) hc
  have hreach' : Transition.Reachable (Cluster.step cfg) c (NoEarlyPruning cfg) c' :=
    Transition.Reachable.exec (fun _ _ => NoEarlyPruning.of_answersInTime) .init hc'
  exact ⟨c, c', hreach, hreach', h0, h3, h3', one_history_partial cfg
    (.inl ⟨⟨rfl, by decide, rfl⟩, by decide⟩) c c' hreach hreach' 7 0 3 (by decide) (by decide)⟩

end Blsmr
