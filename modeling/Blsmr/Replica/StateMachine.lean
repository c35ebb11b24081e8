import Blsmr.Replica.History

/-!
# Replicated state machines

A replica executes the commands it records (`record_execution`) in order. For a
state machine in which commands with different keys commute, a replica whose
commands were all decided from full replies is a replica of the others: one that is
behind reaches their state by executing what it misses, and once no message is in
flight all have executed every announced command exactly once and are in the same
state (`replicas_converge`).
-/

namespace Blsmr

open Blsmr.Graph Blsmr.Transition

/-! ## Executed with the payload -/

theorem CmdLog.PaidInTime.append {calls : List LogCall} {cmd : Command}
    (h : CmdLog.PaidInTime calls cmd) (more : List LogCall) :
    CmdLog.PaidInTime (calls ++ more) cmd := by
  obtain ⟨pre, post, log, rfl, hpre, hrun, hst⟩ := h
  exact ⟨pre, post ++ more, log, by simp, hpre, hrun, hst⟩

/-- Whoever has a reply in a quorum handed over knew the command in time. -/
def PaidReplies (s : Net) : Prop :=
  ∀ i rd, (i, rd) ∈ (s.replica i.pid).ready → ∀ res ∈ rd.quorum,
    ∃ a, a.id = i ∧ CmdLog.PaidInTime (s.replica res.pid).calls a

section Paid

variable {cfg : Config} {s s' : Net} {p : Pid} {inp : Option (Pid × Message)}

theorem NetStep.calls_extend (hs : NetStep cfg s p inp s') (q : Pid) :
    ∃ more, (s'.replica q).calls = (s.replica q).calls ++ more := by
  by_cases hq : q = p
  · subst hq
    obtain ⟨sends, rest, he, -⟩ := hs.effect
    rcases he.calls_cases with ⟨h, -⟩ | ⟨c, h, -⟩
    · exact ⟨[], by rw [h, List.append_nil]⟩
    · exact ⟨[c], h⟩
  · exact ⟨[], by rw [hs.other hq, List.append_nil]⟩

theorem Flow.paid_of_replied (hF : Flow cfg s) {res : Res} (hr : s.Replied res)
    (ho : ¬ s.HandedOver res.id) :
    ∃ a, a.id = res.id ∧ CmdLog.PaidInTime (s.replica res.pid).calls a := by
  obtain ⟨pkt, hpkt, hm⟩ := hr
  obtain ⟨cmd, hc, hid⟩ := (hF.res pkt hpkt res hm).2.2.1
  have hP := CmdLog.run_paid (hF.creates res.pid) (hF.run res.pid)
  have hst := hF.not_stable ho res.pid
  cases hp : (s.replica res.pid).log.payload res.id with
  | none => exact absurd hid (hP.open_ res.id hst hp cmd hc)
  | some a =>
    have haid := hP.cmd_id res.id a hp
    exact ⟨a, haid, (hP.paid_iff a).mp (haid ▸ hp)⟩

theorem PaidReplies.step (h : PaidReplies s) (hF : Flow cfg s) (hs : NetStep cfg s p inp s') :
    PaidReplies s' := by
  intro i rd hrd res hres
  obtain ⟨more, hmore⟩ := hs.calls_extend res.pid
  suffices ∃ a, a.id = i ∧ CmdLog.PaidInTime (s.replica res.pid).calls a by
    obtain ⟨a, haid, hpaid⟩ := this
    exact ⟨a, haid, hmore ▸ hpaid.append more⟩
  obtain ⟨i₀, hnew⟩ := hs.handedOver_new
  rcases hnew i rd hrd with hold | ⟨-, -, hc⟩
  · exact h i rd hold res hres
  · obtain ⟨hnot, hq⟩ := hF.replied_of_completes hs hc
    obtain ⟨hrep, rfl⟩ := hq res hres
    exact hF.paid_of_replied hrep hnot

theorem PaidReplies.of_reachable {ok : Cluster → Action → Prop} {c : Cluster}
    (h : Cluster.ReachableBy cfg ok c) : PaidReplies c.net :=
  net_invariant (fun _ _ hrd => by cases hrd)
    (fun _ _ _ hr _ hI hs => hI.step (Flow.of_reachable hr) hs) h

end Paid

/-! ## What replicas execute -/

/-- Every quorum handed over holds a reply from every replica. -/
def Cluster.AllFull (cfg : Config) (c : Cluster) : Prop :=
  ∀ p ∈ cfg.pool, ∀ r ∈ (c.replicas p).ready, ∀ q ∈ cfg.pool, ∃ res ∈ r.2.quorum, res.pid = q

instance (cfg : Config) (c : Cluster) : Decidable (c.AllFull cfg) := by
  unfold Cluster.AllFull; infer_instance

/-- The commands of replica `p`, as it records their execution. -/
def Cluster.commands (c : Cluster) (p : Pid) : List Command := (c.replicas p).dds.log.recorded

section Execute

variable {cfg : Config} {c : Cluster} {p q : Pid}

theorem Timely.mem_pool (hT : Timely cfg c) {a : Command} (ha : a ∈ (c.replicas p).announced) :
    p ∈ cfg.pool := by
  refine hT.started_pool ?_
  by_contra hst
  exact List.not_mem_nil ((hT.replica p).idle hst ▸ ha)

theorem Cluster.AllFull.full (h : c.AllFull cfg) (hF : Flow cfg c.net) (hT : Timely cfg c)
    {i : CmdId} (hi : c.net.HandedOver i) : c.net.Full cfg i := by
  obtain ⟨rd, hrd⟩ := hi
  obtain ⟨a, ha, rfl⟩ := (hF.sound i.pid).ready_announced i ⟨rd, hrd⟩
  exact ⟨rd, hrd, h a.id.pid (hT.mem_pool ha) (a.id, rd) hrd⟩

theorem execution_paid (h : Cluster.Reachable cfg c) (hfull : c.AllFull cfg) (hp : p ∈ cfg.pool)
    {x : Execution} (hx : x ∈ (c.replicas p).dds.log.executions) :
    ∃ a, x.cmd = some a ∧ c.command x.id = some a := by
  have hF := Flow.of_reachable h
  have hmem : x.id ∈ (c.net.replica p).log.executed := List.mem_map_of_mem hx
  obtain ⟨rd, hrd, hall⟩ := hfull.full hF (Timely.of_reachable h)
    (hF.handedOver_of_executed hmem)
  obtain ⟨res, hres, rfl⟩ := hall p hp
  obtain ⟨a, haid, hpaid⟩ := PaidReplies.of_reachable h x.id rd hrd res hres
  have hP := CmdLog.run_paid (hF.creates res.pid) (hF.run res.pid)
  have hpay := (hP.paid_iff a).mpr hpaid
  rw [haid, CmdLog.payload_of_executed (hF.executed_nodup res.pid) hx] at hpay
  obtain ⟨pre, post, -, hcalls, -⟩ := hpaid
  have hsub : LogCall.submit a ∈ (c.net.replica res.pid).calls := by
    rw [hcalls]
    simp
  exact ⟨a, hpay, hF.command_iff.mpr ⟨haid ▸ hF.submit_call res.pid a hsub, haid⟩⟩

theorem map_id_commands (h : Cluster.Reachable cfg c) (hfull : c.AllFull cfg) (hp : p ∈ cfg.pool) :
    (c.commands p).map Command.id = (c.replicas p).dds.log.executed := by
  have hF := Flow.of_reachable h
  have hpaid : ∀ x ∈ (c.replicas p).dds.log.executions, ∃ a, x.cmd = some a ∧
      c.command x.id = some a := fun x hx => execution_paid h hfull hp hx
  unfold Cluster.commands CmdLog.recorded CmdLog.executed
  generalize (c.replicas p).dds.log.executions = l at hpaid
  induction l with
  | nil => rfl
  | cons x l ih =>
    obtain ⟨a, ha, hca⟩ := hpaid x List.mem_cons_self
    rw [List.filterMap_cons_some ha, List.map_cons, List.map_cons,
      ih fun y hy => hpaid y (List.mem_cons_of_mem _ hy), (hF.command_iff.mp hca).2]

theorem command_of_mem (h : Cluster.Reachable cfg c) (hfull : c.AllFull cfg) (hp : p ∈ cfg.pool)
    {a : Command} (ha : a ∈ c.commands p) : c.command a.id = some a := by
  obtain ⟨x, hx, hxa⟩ := List.mem_filterMap.mp ha
  obtain ⟨b, hb, hcb⟩ := execution_paid h hfull hp hx
  obtain rfl : a = b := Option.some.inj (hxa.symm.trans hb)
  rwa [((Flow.of_reachable h).command_iff.mp hcb).2]

theorem commands_eq (h : Cluster.Reachable cfg c) (hfull : c.AllFull cfg) (hp : p ∈ cfg.pool)
    (d : Command) :
    c.commands p = (c.replicas p).dds.log.executed.map fun i => (c.command i).getD d := by
  rw [← map_id_commands h hfull hp, List.map_map]
  refine (List.map_id' (c.commands p)).symm.trans (List.map_congr_left fun a ha => ?_)
  simp [command_of_mem h hfull hp ha]

end Execute

/-! ## The same state -/

section Converge

variable {cfg : Config} {c : Cluster} {p q : Pid} {σ : Type*} {act : σ → Command → σ}

theorem Flow.key_ne (hF : Flow cfg c.net) {a b : Command} (ha : c.command a.id = some a)
    (hb : c.command b.id = some b) (hne : a.id ≠ b.id) (hc : ¬ c.net.Conflict a.id b.id) :
    a.key ≠ b.key := fun hkey => hc
  ⟨a, b, (hF.command_iff.mp ha).1, (hF.command_iff.mp hb).1,
    hF.rivals (hF.command_iff.mp ha).1 (hF.command_iff.mp hb).1 hne hkey, rfl, rfl⟩

/-- **Catching up.** A replica that is behind reaches the state of another one by
executing what it misses. -/
theorem state_catch_up (h : Cluster.Reachable cfg c) (hfull : c.AllFull cfg)
    (hact : ∀ s a b, a.key ≠ b.key → act (act s a) b = act (act s b) a) (hp : p ∈ cfg.pool)
    (hq : q ∈ cfg.pool) (hsub : c.commands p ⊆ c.commands q) (s : σ) :
    (c.commands q).foldl act s =
      ((c.commands q).filter (· ∉ c.commands p)).foldl act ((c.commands p).foldl act s) := by
  have hF := Flow.of_reachable h
  have hT := Timely.of_reachable h
  let f : CmdId → Command := fun i => (c.command i).getD ⟨i, 0⟩
  have hf : ∀ r ∈ cfg.pool, ∀ i ∈ (c.replicas r).dds.log.executed,
      f i ∈ c.commands r ∧ c.command i = some (f i) ∧ (f i).id = i := by
    intro r hr i hi
    rw [← map_id_commands h hfull hr] at hi
    obtain ⟨a, ha, rfl⟩ := List.mem_map.mp hi
    have hca := command_of_mem h hfull hr ha
    have hfa : f a.id = a := by simp [f, hca]
    rw [hfa]
    exact ⟨ha, hca, rfl⟩
  have hcmds : ∀ r ∈ cfg.pool, c.commands r = (c.replicas r).dds.log.executed.map f := by
    intro r hr
    rw [commands_eq h hfull hr ⟨⟨0, 0⟩, 0⟩]
    exact List.map_congr_left fun i hi => by simp [(hf r hr i hi).2.1]
  have hsub' : (c.replicas p).dds.log.executed ⊆ (c.replicas q).dds.log.executed := by
    rw [← map_id_commands h hfull hp, ← map_id_commands h hfull hq]
    exact List.map_subset _ hsub
  have hal := hF.aligned (R := c.net.Conflict) hp hq fun i j hc hi hj =>
    settled_full h hc (hfull.full hF hT hi) (hfull.full hF hT hj)
  have hrest : (c.commands q).filter (· ∉ c.commands p) =
      ((c.replicas q).dds.log.executed.filter (· ∉ (c.replicas p).dds.log.executed)).map f := by
    rw [hcmds q hq, List.filter_map]
    congr 1
    refine List.filter_congr fun i hi => ?_
    have hiff : f i ∈ c.commands p ↔ i ∈ (c.replicas p).dds.log.executed := by
      constructor
      · intro hm
        have := List.mem_map_of_mem (f := Command.id) hm
        rwa [map_id_commands h hfull hp, (hf q hq i hi).2.2] at this
      · exact fun hm => (hf p hp i hm).1
    simp [hiff]
  rw [hrest, hcmds p hp, hcmds q hq, List.foldl_map, List.foldl_map, List.foldl_map]
  refine hal.catch_up (hF.executed_nodup p) (hF.executed_nodup q) hsub' ?_ s
  intro i hi j hj hij hc s
  obtain ⟨-, hci, hidi⟩ := hf q hq i hi
  obtain ⟨-, hcj, hidj⟩ := hf q hq j hj
  refine hact s (f i) (f j) (hF.key_ne (hidi.symm ▸ hci) (hidj.symm ▸ hcj) ?_ ?_)
  · rwa [hidi, hidj]
  · rwa [hidi, hidj]

theorem commands_perm (hcfg : cfg.Live) (h : Cluster.Reachable cfg c) (hfull : c.AllFull cfg)
    (hp : p ∈ cfg.pool) (hnet : c.network = []) :
    (c.commands p).Perm (cfg.pool.flatMap fun r => (c.replicas r).announced) := by
  have hF := Flow.of_reachable h
  have hT := Timely.of_reachable h
  have hL := Live.of_reachable hcfg h
  have hO : cfg.protocolType ≠ .threeJane → Once cfg c.net := fun hpr =>
    Once.of_reachable hpr hcfg.pool_nodup h
  have hnd : (c.commands p).Nodup := by
    have := hF.executed_nodup p
    rw [show (c.net.replica p).log.executed = _ from (map_id_commands h hfull hp).symm] at this
    exact this.of_map
  have hnd' : (cfg.pool.flatMap fun r => (c.replicas r).announced).Nodup := by
    refine List.nodup_flatMap.mpr ⟨fun r _ => (hF.sound r).announced_nodup.of_map, ?_⟩
    refine hcfg.pool_nodup.imp fun {r r'} hne a ha ha' => hne ?_
    rw [← (hF.sound r).announced_pid a ha, (hF.sound r').announced_pid a ha']
  refine (List.perm_ext_iff_of_nodup hnd hnd').mpr fun a => ?_
  rw [List.mem_flatMap]
  constructor
  · intro ha
    have hm := (hF.command_iff.mp (command_of_mem h hfull hp ha)).1
    exact ⟨_, hT.mem_pool hm, hm⟩
  · rintro ⟨r, -, hm⟩
    have hst := hL.stable hcfg hF hO hnet ⟨r, a, hm, rfl⟩ hp
    have hex : a.id ∈ (c.replicas p).dds.log.executed := (hF.mem_executed p).mpr hst
    rw [← map_id_commands h hfull hp] at hex
    obtain ⟨b, hb, hid⟩ := List.mem_map.mp hex
    have hcb := command_of_mem h hfull hp hb
    have hca : c.command a.id = some a :=
      hF.command_iff.mpr ⟨by rwa [(hF.sound r).announced_pid a hm], rfl⟩
    rw [hid, hca, Option.some.injEq] at hcb
    rwa [hcb]

end Converge

/-- **Replicas converge.** Take any state machine in which commands with different keys
commute, and a cluster in which all quorums handed over held a reply from every replica.
If one replica has executed everything another has, it is in the state that the other one
reaches by executing what it misses. Once no message is in flight every replica has executed
every announced command exactly once, and all are in the same state. -/
theorem replicas_converge (cfg : Config) (hcfg : cfg.Live) (c : Cluster)
    (h : Cluster.Reachable cfg c) (hfull : c.AllFull cfg) {σ : Type*} (act : σ → Command → σ)
    (hact : ∀ s a b, a.key ≠ b.key → act (act s a) b = act (act s b) a) (s : σ) (p q : Pid)
    (hp : p ∈ cfg.pool) (hq : q ∈ cfg.pool) :
    (c.commands p ⊆ c.commands q → (c.commands q).foldl act s =
      ((c.commands q).filter (· ∉ c.commands p)).foldl act ((c.commands p).foldl act s)) ∧
    (c.network = [] → (c.commands p).Perm (cfg.pool.flatMap fun r => (c.replicas r).announced) ∧
      (c.commands p).foldl act s = (c.commands q).foldl act s) := by
  refine ⟨fun hsub => state_catch_up h hfull hact hp hq hsub s, fun hnet => ?_⟩
  have hperm := fun {r} (hr : r ∈ cfg.pool) => commands_perm hcfg h hfull hr hnet
  have hpq := (hperm hp).trans (hperm hq).symm
  refine ⟨hperm hp, ?_⟩
  rw [state_catch_up h hfull hact hp hq hpq.subset s,
    List.filter_eq_nil_iff.mpr fun a ha => by simpa using hpq.mem_iff.mpr ha]
  rfl

/-- A store that keeps, for every key, the commands executed with it, latest first. -/
def store (s : Key → List CmdId) (a : Command) : Key → List CmdId :=
  Function.update s a.key (a.id :: s a.key)

theorem store_comm (s : Key → List CmdId) (a b : Command) (h : a.key ≠ b.key) :
    store (store s a) b = store (store s b) a := by
  unfold store
  rw [Function.update_of_ne (Ne.symm h), Function.update_of_ne h, Function.update_comm h]

/-- Two Wintermute replicas that receive the requests in opposite orders. -/
theorem replicas_converge_crossed :
    let cfg : Config := .standard .wintermute [0, 1]
    ∃ c, Cluster.Reachable cfg c ∧ c.commands 0 = [⟨⟨0, 2⟩, 7⟩, ⟨⟨1, 3⟩, 7⟩] ∧
      ∀ s, (c.commands 0).foldl store s = (c.commands 1).foldl store s := by
  intro cfg
  let a : Command := ⟨⟨0, 2⟩, 7⟩
  let b : Command := ⟨⟨1, 3⟩, 7⟩
  let run : List Action := crossed a b ++ crossedRest a b ++ [.recv 21 1 0 (.commit b [a.id])]
  have hrun : (Cluster.execute cfg (fun _ _ => true) run).any (fun c =>
      decide (c.AllFull cfg ∧ c.network = [] ∧ c.commands 0 = [a, b])) = true := by
    decide +kernel
  obtain ⟨c, hc, hd⟩ := (Option.any_eq_true _ _).mp hrun
  obtain ⟨hfull, hnet, hcmds⟩ := of_decide_eq_true hd
  have hreach := Cluster.reachable_execute (fun (_ : Cluster) (_ : Action) _ => True.intro) hc
  exact ⟨c, hreach, hcmds, fun s => ((replicas_converge cfg
    (.inl ⟨.inr ⟨rfl, by decide, rfl⟩, by decide⟩) c hreach hfull store store_comm s 0 1
    (by decide) (by decide)).2 hnet).2⟩

end Blsmr
