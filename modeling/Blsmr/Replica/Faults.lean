import Blsmr.Replica.Liveness

/-!
# Silent replicas

The announce phase of EPaxos and Wintermute goes on without a few replicas: any
quorum of replies will do, for Wintermute once its timer has fired. The phases
after it do not. The fast path compares the replies of all replicas, and a
slow-path instance counts the responses of its whole committee, which for these
protocols is the pool. So one replica that never sends anything keeps every
command from being decided (`silent_replica_blocks`).
-/

namespace Blsmr

open Blsmr.Transition

/-- The replicas in `silent` do nothing; what they are sent stays on the wire. -/
def OnlyLive (silent : Finset Pid) (_ : Cluster) (act : Action) : Prop := act.label.1 ∉ silent

/-- No message to a live replica is in flight and all force timers have fired. -/
def Quiet (cfg : Config) (silent : Finset Pid) (c : Cluster) : Prop :=
  (∀ packet ∈ c.network, packet.dst ∈ silent) ∧
    ∀ p ∈ cfg.pool, p ∉ silent → (c.replicas p).dds.announceForceTimers.keys = []

instance (silent : Finset Pid) (c : Cluster) (act : Action) : Decidable (OnlyLive silent c act) :=
  inferInstanceAs (Decidable (act.label.1 ∉ silent))

instance (cfg : Config) (silent : Finset Pid) (c : Cluster) : Decidable (Quiet cfg silent c) :=
  inferInstanceAs (Decidable (_ ∧ _))

/-- The live replicas have decided what they announced. -/
def AllDecided (silent : Finset Pid) (c : Cluster) : Prop :=
  ∀ p ∉ silent, ∀ cmd ∈ (c.replicas p).announced,
    ∃ deps, (cmd.id, deps) ∈ (c.replicas p).decided

theorem length_lt_of_live {pool l : List Pid} {silent : Finset Pid} (hsil : silent.Nonempty)
    (hpool : silent ⊆ pool.toFinset) (hnd : l.Nodup) (hsub : l ⊆ pool)
    (hlive : ∀ x ∈ l, x ∉ silent) : l.length < pool.length := by
  obtain ⟨z, hz⟩ := hsil
  have hss : l.toFinset ⊂ pool.toFinset := by
    refine (Finset.ssubset_iff_of_subset fun x hx => ?_).mpr ⟨z, hpool hz, fun h => ?_⟩
    · exact List.mem_toFinset.mpr (hsub (List.mem_toFinset.mp hx))
    · exact hlive z (List.mem_toFinset.mp h) hz
  calc l.length = l.toFinset.card := (List.toFinset_card_of_nodup hnd).symm
    _ < pool.toFinset.card := Finset.card_lt_card hss
    _ ≤ pool.length := List.toFinset_card_le pool

theorem Effect.silenced {cfg : Config} {me : Pid} {used : CmdId → Prop} {x x' : Progress}
    {inp : Option (Pid × Message)} {sends : List (Pid × Message)} {silent : Finset Pid}
    (hsil : silent.Nonempty) (hpool : silent ⊆ cfg.pool.toFinset)
    (hproto : cfg.protocolType ≠ .threeJane) (he : Effect cfg me used x inp x' sends)
    (hS : Sound cfg me x) (hsrc : ∀ src msg, inp = some (src, msg) → src ∉ silent)
    (hready : ∀ i rd, (i, rd) ∈ x'.ready → rd.quorum.length < cfg.pool.length)
    (hres : ∀ i inst, x.instances i = some inst → ∀ q ∈ inst.responses, q ∉ silent)
    (hdec : x.decided = []) :
    (∀ i inst, x'.instances i = some inst → ∀ q ∈ inst.responses, q ∉ silent) ∧
      x'.decided = [] := by
  have hcount : ∀ {src msg i inst}, inp = some (src, msg) → x.instances i = some inst →
      ∀ q ∈ inst.responses.insert src, q ∉ silent := by
    intro src msg i inst hi hinst q hq
    rcases List.mem_insert_iff.mp hq with rfl | hq
    · exact hsrc _ _ hi
    · exact hres i inst hinst q hq
  cases he with
  | fast inp i q hash log' hc hq hf =>
    have hlt := hready i ⟨q, true⟩ (List.mem_append_right _ (List.mem_singleton.mpr rfl))
    unfold DDS.allowFastpath at hf
    rw [if_pos hlt.ne] at hf
    cases hf
  | slow inp i q hc hq hf =>
    refine ⟨fun j inst hj => ?_, hdec⟩
    by_cases hji : j = i
    · subst hji
      rw [Progress.setInstance_self, Option.some.injEq] at hj
      rw [← hj]
      exact List.forall_mem_nil _
    · rw [Progress.setInstance_of_ne _ hji] at hj
      exact hres j inst hj
  | accepted src i inst hi hm =>
    refine ⟨fun j inst' hj => ?_, hdec⟩
    by_cases hji : j = i
    · subst hji
      rw [Progress.setInstance_self, Option.some.injEq] at hj
      rw [← hj]
      exact hcount rfl hi
    · rw [Progress.setInstance_of_ne x hji] at hj
      exact hres j inst' hj
  | complete src i inst hash log' hi hm hlen =>
    obtain ⟨hrep, hnd, hsub, -⟩ := hS.instance_ok i inst hi
    rw [Quorum.replicas, if_pos hproto] at hrep
    rw [hrep] at hlen hsub hm
    refine absurd hlen (length_lt_of_live hsil hpool hnd.insert (fun q hq => ?_)
      (hcount rfl hi)).ne
    rcases List.mem_insert_iff.mp hq with rfl | hq
    · exact hm
    · exact hsub hq
  | _ => exact ⟨hres, hdec⟩

/-- Nothing from a silent replica has been sent or counted, so nothing is decided. -/
structure Silenced (silent : Finset Pid) (s : Net) : Prop where
  sent : ∀ pkt ∈ s.sent, pkt.src ∉ silent
  responses : ∀ p i inst, (s.replica p).instances i = some inst → ∀ q ∈ inst.responses, q ∉ silent
  undecided : ∀ p, (s.replica p).decided = []

namespace Silenced

variable {cfg : Config} {silent : Finset Pid} {s s' : Net} {p : Pid}
  {inp : Option (Pid × Message)}

theorem init (cfg : Config) (silent : Finset Pid) : Silenced silent (Cluster.init cfg).net := by
  refine ⟨?_, ?_, ?_⟩ <;>
    simp [Cluster.init, Cluster.net, BLSMR.default, BLSMR.progress, Quorum.default]

theorem ready_lt (hsil : silent.Nonempty) (hpool : silent ⊆ cfg.pool.toFinset) (hF : Flow cfg s)
    (hO : Once cfg s) (hsent : ∀ pkt ∈ s.sent, pkt.src ∉ silent) {i : CmdId} {rd : QuorumReady}
    (hrd : (i, rd) ∈ (s.replica p).ready) : rd.quorum.length < cfg.pool.length := by
  rw [← List.length_map Res.pid]
  refine length_lt_of_live hsil hpool (hO.ready_nodup p i rd hrd) (hO.ready_sub p i rd hrd)
    fun x hx => ?_
  obtain ⟨res, hres, rfl⟩ := List.mem_map.mp hx
  obtain ⟨pkt, hpkt, hm⟩ := hF.ready_sent p i rd hrd res hres
  rw [(hF.res pkt hpkt res hm).1]
  exact hsent pkt hpkt

/-- **A step of a live replica** decides nothing. -/
theorem step (hsil : silent.Nonempty) (hpool : silent ⊆ cfg.pool.toFinset)
    (hproto : cfg.protocolType ≠ .threeJane) (h : Silenced silent s) (hF : Flow cfg s)
    (hO' : Once cfg s') (hs : NetStep cfg s p inp s') (hp : p ∉ silent) : Silenced silent s' := by
  obtain ⟨sends, rest, he, hperm, hnet, hsent⟩ := hs.effect
  have hsent' : ∀ pkt ∈ s'.sent, pkt.src ∉ silent := by
    intro pkt hpkt
    rw [hsent, List.mem_append, mem_packets] at hpkt
    rcases hpkt with hpkt | ⟨rfl, -⟩
    · exact h.sent pkt hpkt
    · exact hp
  obtain ⟨hres, hdec⟩ := he.silenced hsil hpool hproto (hF.sound p)
    (fun src msg hi => h.sent _ (hF.in_sent (hs.consumed_mem hi)))
    (fun i rd => ready_lt hsil hpool (hF.step hs) hO' hsent') (h.responses p) (h.undecided p)
  refine ⟨hsent', fun q => ?_, fun q => ?_⟩ <;> by_cases hq : q = p
  · subst hq; exact hres
  · rw [hs.other hq]; exact h.responses q
  · subst hq; exact hdec
  · rw [hs.other hq]; exact h.undecided q

theorem of_reachable (hsil : silent.Nonempty) (hpool : silent ⊆ cfg.pool.toFinset)
    (hproto : cfg.protocolType ≠ .threeJane) (hnd : cfg.pool.Nodup) {c : Cluster}
    (h : Cluster.ReachableBy cfg (OnlyLive silent) c) : Silenced silent c.net :=
  (net_invariant (I := fun s => Flow cfg s ∧ Once cfg s ∧ Silenced silent s)
    ⟨Flow.init cfg, Once.init cfg, init cfg silent⟩
    (fun _ _ _ _ hok hI hs => by
      have hO' := hI.2.1.step hI.1 hproto hnd hs
      exact ⟨hI.1.step hs, hO', hI.2.2.step hsil hpool hproto hI.1 hO' hs hok⟩) h).2.2

end Silenced

/-- **One silent replica blocks every decision.** When the live replicas have
nothing left to do, what they announced is decided only if no replica is silent
or nothing was announced. -/
theorem silent_replica_blocks (cfg : Config)
    (hcfg : cfg.Dissemination .epaxos ∨ cfg.Dissemination .wintermute) (hne : cfg.pool ≠ [])
    (silent : Finset Pid) (hpool : silent ⊆ cfg.pool.toFinset) (c : Cluster)
    (h : Cluster.ReachableBy cfg (OnlyLive silent) c) (hquiet : Quiet cfg silent c) :
    AllDecided silent c ↔ silent = ∅ ∨ ∀ p ∉ silent, (c.replicas p).announced = [] := by
  have hproto : cfg.protocolType ≠ .threeJane := by
    rcases hcfg with hd | hd <;> rw [hd.protocolType] <;> simp
  have hnd : cfg.pool.Nodup := by
    rcases hcfg with hd | hd <;> exact hd.pool_nodup
  constructor
  · intro hall
    refine silent.eq_empty_or_nonempty.imp_right fun hsil p hp => ?_
    have hnil : (c.replicas p).decided = [] :=
      (Silenced.of_reachable hsil hpool hproto hnd h).undecided p
    refine List.eq_nil_iff_forall_not_mem.mpr fun cmd hcmd => ?_
    obtain ⟨deps, hd⟩ := hall p hp cmd hcmd
    rw [hnil] at hd
    cases hd
  · rintro (rfl | hno) p hp cmd hcmd
    · have hlive : cfg.Live := .inl ⟨hcfg, hne⟩
      have hempty : c.net.network = [] :=
        List.eq_nil_iff_forall_not_mem.mpr fun pkt hpkt => Finset.notMem_empty _ (hquiet.1 pkt hpkt)
      have hF := Flow.of_reachable h
      have hpid : cmd.id.pid = p := (hF.sound p).announced_pid cmd hcmd
      have hL := Live.of_reachable hlive (h.weaken fun _ _ _ => True.intro)
      exact hpid ▸ hL.decided hlive hF (fun hp => Once.of_reachable hp hnd h) hempty
        ⟨p, cmd, hcmd, rfl⟩
    · rw [hno p hp] at hcmd
      cases hcmd

/-- Four EPaxos replicas, the last of them silent: replica 0 has announced a
command and waits for the last slow-path response. -/
theorem silent_replica_blocks_four :
    let cfg : Config := .standard .epaxos [0, 1, 2, 3]
    ∃ c, Cluster.ReachableBy cfg (OnlyLive {3}) c ∧ Quiet cfg {3} c ∧ ¬ AllDecided {3} c := by
  intro cfg
  let a : Command := ⟨⟨0, 1⟩, 7⟩
  let run : List Action := [.start 0 (.counting 0), .timer 0 1 (.counting 1), .recv 2 0 0 (.req a),
    .recv 3 0 1 (.req a), .recv 4 0 2 (.req a), .recv 5 0 0 (.res 0 a []),
    .recv 6 1 0 (.res 1 a []), .recv 7 2 0 (.res 2 a []), .recv 8 0 0 (.request a []),
    .recv 9 0 1 (.request a []), .recv 10 0 2 (.request a []), .recv 11 0 0 (.response a []),
    .recv 12 1 0 (.response a []), .recv 13 2 0 (.response a [])]
  have hrun : (Cluster.execute cfg (fun c act => decide (OnlyLive {3} c act)) run).any (fun c =>
      decide (Quiet cfg {3} c ∧ (c.replicas 0).announced ≠ [])) = true := by decide +kernel
  obtain ⟨c, hc, hd⟩ := (Option.any_eq_true _ _).mp hrun
  obtain ⟨hquiet, ha⟩ := of_decide_eq_true hd
  have hreach : Cluster.ReachableBy cfg (OnlyLive {3}) c :=
    Cluster.reachable_execute (fun _ _ h => of_decide_eq_true h) hc
  refine ⟨c, hreach, hquiet, fun hall => ?_⟩
  rcases (silent_replica_blocks cfg (.inl ⟨rfl, by decide, rfl⟩) (by decide) {3} (by decide) c
    hreach hquiet).mp hall with h | h
  · exact absurd h (by decide)
  · exact ha (h 0 (by decide))

/-- Four Wintermute replicas, the last of them silent. The timer hands over three
of the four replies, and the slow path waits for the fourth response. -/
theorem silence_not_tolerated :
    ¬ ∀ (f : ℕ) (cfg : Config) (silent : Finset Pid), 1 ≤ f →
      cfg.Dissemination .epaxos ∨ cfg.Dissemination .wintermute → cfg.pool.length = 3 * f + 1 →
      silent ⊆ cfg.pool.toFinset → 1 ≤ silent.card → silent.card ≤ f →
      ∀ c, Cluster.ReachableBy cfg (OnlyLive silent) c → Quiet cfg silent c →
        AllDecided silent c := by
  intro h
  let cfg : Config := .standard .wintermute [0, 1, 2, 3]
  let a : Command := ⟨⟨0, 1⟩, 7⟩
  let run : List Action := [.start 0 (.counting 0), .timer 0 1 (.counting 1), .recv 2 0 0 (.req a),
    .recv 3 0 1 (.req a), .recv 4 0 2 (.req a), .recv 5 0 0 (.res 0 a []),
    .recv 6 1 0 (.res 1 a []), .recv 7 2 0 (.res 2 a []), .timer 0 2 (.counting 8),
    .recv 9 0 0 (.request a []), .recv 10 0 1 (.request a []), .recv 11 0 2 (.request a []),
    .recv 12 0 0 (.response a []), .recv 13 1 0 (.response a []), .recv 14 2 0 (.response a [])]
  have hrun : (Cluster.execute cfg (fun c act => decide (OnlyLive {3} c act)) run).any (fun c =>
      decide (Quiet cfg {3} c ∧ a ∈ (c.replicas 0).announced ∧
        (c.replicas 0).decided = [])) = true := by decide +kernel
  obtain ⟨c, hc, hd⟩ := (Option.any_eq_true _ _).mp hrun
  obtain ⟨hquiet, ha, hdec⟩ := of_decide_eq_true hd
  have hreach : Cluster.ReachableBy cfg (OnlyLive {3}) c :=
    Cluster.reachable_execute (fun _ _ h => of_decide_eq_true h) hc
  obtain ⟨deps, hdeps⟩ := h 1 cfg {3} (by decide) (.inr ⟨rfl, by decide, rfl⟩) rfl (by decide)
    (by decide) (by decide) c hreach hquiet 0 (by decide) a ha
  rw [hdec] at hdeps
  cases hdeps

end Blsmr
