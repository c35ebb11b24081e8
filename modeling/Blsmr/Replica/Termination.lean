import Blsmr.Replica.Ledger

/-!
# Every run finishes

A step either starts a replica, fires a timer or delivers a message, and there is
a bound on each: a replica announces at most `submit_limit` commands, and a command
costs a bounded number of messages (`variant`). So no run is longer than
`Config.stepBound`, and a run that cannot be continued has announced, decided and
executed everything everywhere (`runs_finish`).
-/

namespace Blsmr

open Blsmr.Transition

namespace Config

/-- The messages of all commands, if they all take the slow path. -/
def messageBound (cfg : Config) : ℕ :=
  (2 * cfg.fanout + (cfg.pool.length - 1) + 2 * cfg.committee) * (cfg.pool.length * cfg.submitLimit)

/-- The steps of a run: the messages, and for every replica a start, its submit timers and
its force timers. -/
def stepBound (cfg : Config) : ℕ :=
  cfg.messageBound + cfg.pool.length * (2 * cfg.submitLimit + 1)

end Config

namespace Cluster

variable (cfg : Config) (c : Cluster)

/-- The starts and timers that replica `p` has ahead of it, except those pending. -/
def ahead (p : Pid) : ℕ :=
  if p ∈ c.started then 2 * (cfg.submitLimit - (c.replicas p).submitted) - 1
  else 2 * cfg.submitLimit + 1

def timersAhead : ℕ := (cfg.pool.map (c.ahead cfg)).sum + c.timers.length

/-- The messages that may still be delivered. -/
def messagesAhead : ℕ := (cfg.messageBound - c.sent.length) + c.network.length

def variant : ℕ := c.messagesAhead cfg + c.timersAhead cfg

/-- Everything was announced, decided and executed. -/
def Done : Prop :=
  ∀ p ∈ cfg.pool, (c.replicas p).announced.length = cfg.submitLimit ∧
    ∀ cmd ∈ (c.replicas p).announced, (∃ deps, (cmd.id, deps) ∈ (c.replicas p).decided) ∧
      ∀ q ∈ cfg.pool, cmd.id ∈ (c.replicas q).dds.log.stable

end Cluster

section Variant

variable {cfg : Config} {c c' : Cluster} {a : Action}

/-! ## Messages -/

theorem sent_le (hcfg : cfg.Live) (h : Cluster.Reachable cfg c) :
    c.sent.length ≤ cfg.messageBound := by
  have hF := Flow.of_reachable h
  have hT := Timely.of_reachable h
  refine ((Ledger.of_reachable hcfg h).length_sent_le hF).trans (Nat.mul_le_mul_left _ ?_)
  have hle : ∀ n ∈ cfg.pool.map fun p => (c.net.replica p).announced.length,
      n ≤ cfg.submitLimit := by
    intro n hn
    obtain ⟨p, -, rfl⟩ := List.mem_map.mp hn
    show (c.replicas p).announced.length ≤ _
    rw [← (hT.replica p).submitted]
    exact (hT.replica p).le_limit
  have hsum := List.sum_le_card_nsmul _ _ hle
  rw [List.length_map] at hsum
  exact hsum

theorem messagesAhead_step (hcfg : cfg.Live) (h : Cluster.Reachable cfg c)
    (hs : Cluster.step cfg c a = some c') : c'.messagesAhead cfg +
      (consumed a.label.1 a.label.2).length = c.messagesAhead cfg := by
  obtain ⟨sends, rest, -, hperm, hnet, hsent⟩ := (step_net (regular_of_reachable h) hs).1.effect
  have hlen := hperm.length_eq
  have hnet' : c'.network.length = rest.length + sends.length := by
    rw [show c'.network = _ from hnet, List.length_append, packets, List.length_map]
  have hsent' : c'.sent.length = c.sent.length + sends.length := by
    rw [show c'.sent = _ from hsent, List.length_append, packets, List.length_map]
    rfl
  have hle := sent_le hcfg (h.step trivial hs)
  have hlen' : c.network.length = (consumed a.label.1 a.label.2).length + rest.length := by
    rw [← List.length_append]
    exact hlen
  unfold Cluster.messagesAhead
  omega

/-! ## Starts and timers -/

theorem timersAhead_update (hnd : cfg.pool.Nodup) {p : Pid} (hp : p ∈ cfg.pool)
    (hother : ∀ q, q ≠ p → c'.ahead cfg q = c.ahead cfg q) :
    c'.timersAhead cfg + c.ahead cfg p + c.timers.length =
      c.timersAhead cfg + c'.ahead cfg p + c'.timers.length := by
  have := sum_update hnd _ _ hother hp
  unfold Cluster.timersAhead
  omega

theorem ahead_of_same {q : Pid} (hst : q ∈ c'.started ↔ q ∈ c.started)
    (hsub : (c'.replicas q).submitted = (c.replicas q).submitted) :
    c'.ahead cfg q = c.ahead cfg q := by
  unfold Cluster.ahead
  rw [hsub]
  by_cases hq : q ∈ c.started
  · rw [if_pos hq, if_pos (hst.mpr hq)]
  · rw [if_neg hq, if_neg fun h => hq (hst.mp h)]

theorem timersAhead_start (hT : Timely cfg c) (hnd : cfg.pool.Nodup) {p : Pid} {env : Env}
    (hs : Cluster.step cfg c (.start p env) = some c') :
    c'.timersAhead cfg < c.timersAhead cfg := by
  obtain ⟨-, hp, hn, rfl⟩ := step_start hs
  set c' := { c with started := p :: c.started }.update p env ((c.replicas p).onStart cfg env)
    with hc'
  have hz : (c.replicas p).submitted = 0 := by
    rw [(hT.replica p).submitted, (hT.replica p).idle hn, List.length_nil]
  have hself : (c'.replicas p).submitted = 0 := by
    rw [← hz]
    simp only [hc', Cluster.update, Function.update_self]
    unfold BLSMR.onStart
    split <;> rfl
  have htimers : c'.timers.length = c.timers.length + if cfg.submitLimit ≠ 0 then 1 else 0 := by
    simp only [hc', Cluster.update, List.length_append, List.length_map]
    unfold BLSMR.onStart
    split <;> rfl
  have hold : c.ahead cfg p = 2 * cfg.submitLimit + 1 := if_neg hn
  have hnew : c'.ahead cfg p = 2 * cfg.submitLimit - 1 := by
    have hst : p ∈ c'.started := List.mem_cons_self
    rw [Cluster.ahead, if_pos hst, hself, Nat.sub_zero]
  have hother : ∀ q, q ≠ p → c'.ahead cfg q = c.ahead cfg q := fun q hq =>
    ahead_of_same (by simp [hc', Cluster.update, hq]) (by simp [hc', Cluster.update, hq])
  have hupd := timersAhead_update hnd hp hother
  rw [hold, hnew, htimers] at hupd
  split at hupd <;> omega

theorem timersAhead_deliver {packet : Packet} {env : Env}
    (hs : Cluster.step cfg c (.deliver packet env) = some c') :
    c'.timersAhead cfg = c.timersAhead cfg := by
  obtain ⟨-, -, out, hout, rfl⟩ := step_deliver hs
  obtain ⟨hsame, ht⟩ := onMessage_timers hout
  have hahead : ∀ q, ({ c with network := c.network.erase packet }.update packet.dst env
      out).ahead cfg q = c.ahead cfg q := fun q => by
    refine ahead_of_same Iff.rfl ?_
    by_cases hq : q = packet.dst
    · subst hq
      simpa [Cluster.update] using hsame.submitted
    · simp [Cluster.update, hq]
  unfold Cluster.timersAhead
  rw [List.map_congr_left fun q _ => hahead q]
  simp [Cluster.update, ht]

theorem timersAhead_timer (hT : Timely cfg c) (hnd : cfg.pool.Nodup) {p : Pid} {id : TimerId}
    {env : Env} (hs : Cluster.step cfg c (.timer p id env) = some c') :
    c'.timersAhead cfg < c.timersAhead cfg := by
  obtain ⟨-, hmem, out, hout, rfl⟩ := step_timer hs
  obtain ⟨hst, -, hlt⟩ := (hT.replica p).pending id hmem
  have hpool := hT.started_pool hst
  set c' := { c with timers := c.timers.erase (p, id) }.update p env out with hc'
  have hself : c'.replicas p = out.state := by simp [hc', Cluster.update]
  have htimers : c'.timers.length + 1 = c.timers.length + out.timers.length := by
    have hlen := List.length_erase_of_mem hmem
    have hpos := List.length_pos_of_mem hmem
    simp only [hc', Cluster.update, List.length_append, List.length_map, hlen]
    omega
  have hother : ∀ q, q ≠ p → c'.ahead cfg q = c.ahead cfg q := fun q hq =>
    ahead_of_same Iff.rfl (by simp [hc', Cluster.update, hq])
  have hupd := timersAhead_update hnd hpool hother
  rcases onTimer_cases hout with ⟨-, -, -, hsub, -, ht⟩ | ⟨hnone, hcur, rfl⟩
  · have hsame : c'.ahead cfg p = c.ahead cfg p := ahead_of_same Iff.rfl (by rw [hself, hsub])
    rw [ht, List.length_nil] at htimers
    omega
  · replace hlt : (c.replicas p).submitted < cfg.submitLimit := by
      rcases hlt with hlt | ⟨-, hlt⟩
      · rw [hnone] at hlt
        cases hlt
      · exact hlt
    have hold : c.ahead cfg p = 2 * (cfg.submitLimit - (c.replicas p).submitted) - 1 := if_pos hst
    have hnew : c'.ahead cfg p = 2 * (cfg.submitLimit - ((c.replicas p).submitted + 1)) - 1 := by
      have hst' : p ∈ c'.started := hst
      rw [Cluster.ahead, if_pos hst', hself, onSubmitTimer_submitted]
    have hforce : (DDS.announceTimers cfg env).length ≤ 1 := by
      unfold DDS.announceTimers
      split <;> simp
    rw [onSubmitTimer_timers, List.length_append] at htimers
    rw [hold, hnew] at hupd
    split at htimers <;> simp only [List.length_singleton, List.length_nil] at htimers <;> omega

/-- **Every step decreases the variant.** -/
theorem variant_decreases (hcfg : cfg.Live) :
    Variant (Cluster.step cfg) (Cluster.init cfg) (Cluster.variant cfg) := by
  intro c a c' h hs
  have hm := messagesAhead_step hcfg h hs
  have hT := Timely.of_reachable h
  unfold Cluster.variant
  cases a with
  | start p env =>
    have := timersAhead_start hT hcfg.pool_nodup hs
    omega
  | deliver packet env =>
    have : c'.timersAhead cfg = c.timersAhead cfg := timersAhead_deliver hs
    have hone : (consumed (Action.deliver packet env).label.1
      (Action.deliver packet env).label.2).length = 1 := rfl
    omega
  | timer p id env =>
    have := timersAhead_timer hT hcfg.pool_nodup hs
    omega

end Variant

/-! ## The end of a run -/

theorem Cluster.exists_fresh (c : Cluster) : ∃ env, c.Fresh env := by
  obtain ⟨k, hk⟩ := Finset.exists_nat_subset_range (c.uids ++ c.timerIds).toFinset
  have hlt : ∀ x, x ∈ c.uids ∨ x ∈ c.timerIds → x < k := fun x hx =>
    Finset.mem_range.mp (hk (by simpa using hx))
  refine ⟨.counting k, fun h => ?_, fun h => ?_, fun h => ?_, ?_⟩
  · exact absurd (hlt _ (.inl h)) (by simp [Env.counting])
  · exact absurd (hlt _ (.inr h)) (by simp [Env.counting]; omega)
  · exact absurd (hlt _ (.inr h)) (by simp [Env.counting]; omega)
  · simp [Env.counting]

section Final

variable {cfg : Config} {c : Cluster}

/-- A run that cannot be continued has nothing in flight, no timers pending and no
replica left to start. -/
theorem quiet_of_final (hcfg : cfg.Live) (h : Cluster.Reachable cfg c)
    (hfinal : ∀ a, Cluster.step cfg c a = none) :
    c.network = [] ∧ c.timers = [] ∧ cfg.pool ⊆ c.started := by
  obtain ⟨env, hf⟩ := c.exists_fresh
  have hoff : ∀ a, ¬ (Cluster.step cfg c a).isSome := by simp [hfinal]
  refine ⟨List.eq_nil_iff_forall_not_mem.mpr fun packet hp => ?_,
    List.eq_nil_iff_forall_not_mem.mpr fun t ht => ?_, fun p hp => ?_⟩
  · exact hoff _ (deliverable h hp hf)
  · exact hoff _ (timer_enabled hcfg h ht hf)
  · by_contra hn
    exact hoff _ (start_enabled hp hn hf)

theorem done_of_final (hcfg : cfg.Live) (h : Cluster.Reachable cfg c)
    (hfinal : ∀ a, Cluster.step cfg c a = none) : c.Done cfg := by
  obtain ⟨hnet, htim, hsta⟩ := quiet_of_final hcfg h hfinal
  have hF := Flow.of_reachable h
  have hT := Timely.of_reachable h
  have hL := Live.of_reachable hcfg h
  have hO : cfg.protocolType ≠ .threeJane → Once cfg c.net := fun hp =>
    Once.of_reachable hp hcfg.pool_nodup h
  intro p hp
  refine ⟨?_, fun cmd hcmd => ?_⟩
  · rw [← (hT.replica p).submitted]
    refine Nat.le_antisymm (hT.replica p).le_limit (not_lt.mp fun hlt => ?_)
    have := ((hT.replica p).submit (hsta hp) hlt).1
    rw [htim] at this
    cases this
  · have hused : c.net.used cmd.id := ⟨p, cmd, hcmd, rfl⟩
    have hdec := hL.decided hcfg hF hO hnet hused
    rw [(hF.sound p).announced_pid cmd hcmd] at hdec
    exact ⟨hdec, fun q hq => hL.stable hcfg hF hO hnet hused hq⟩

end Final

/-- **Every run finishes.** No run has more steps than the bound; a run that cannot be
continued has announced as many commands as there are to announce, each decided by its
coordinator and stable at every replica; and every run can be continued to such an end. -/
theorem runs_finish (cfg : Config) (hcfg : cfg.Live) :
    (∀ count c, Steps (Cluster.step cfg) (Cluster.init cfg) count c → count ≤ cfg.stepBound) ∧
    (∀ c, Cluster.Reachable cfg c → (∀ a, Cluster.step cfg c a = none) → c.Done cfg) ∧
    ∀ c, Cluster.Reachable cfg c →
      ∃ c', Transition.Reachable (Cluster.step cfg) c (fun _ _ => True) c' ∧ c'.Done cfg := by
  have hV := variant_decreases hcfg
  refine ⟨fun count c h => ?_, fun c h => done_of_final hcfg h, fun c h => ?_⟩
  · have hle := hV.steps_le h
    have hinit : Cluster.variant cfg (Cluster.init cfg) = cfg.stepBound := by
      have hahead : ∀ p, (Cluster.init cfg).ahead cfg p = 2 * cfg.submitLimit + 1 :=
        fun p => if_neg List.not_mem_nil
      have hsum : (cfg.pool.map ((Cluster.init cfg).ahead cfg)).sum =
          cfg.pool.length * (2 * cfg.submitLimit + 1) := by
        rw [List.map_congr_left fun p _ => hahead p]
        simp
      rw [Cluster.variant, Cluster.messagesAhead, Cluster.timersAhead, hsum]
      rfl
    omega
  · obtain ⟨c', hc', hfinal⟩ := hV.exists_final h
    exact ⟨c', hc', done_of_final hcfg (h.append hc') hfinal⟩

/-- Two EPaxos replicas with one command each. -/
theorem runs_finish_two :
    let cfg : Config := .standard .epaxos [0, 1]
    (∀ count c, Steps (Cluster.step cfg) (Cluster.init cfg) count c → count ≤ 24) ∧
      ∃ c, Cluster.Reachable cfg c ∧ c.Done cfg := by
  intro cfg
  obtain ⟨hbound, -, hend⟩ := runs_finish cfg (.inl ⟨.inl ⟨rfl, by decide, rfl⟩, by decide⟩)
  obtain ⟨c, hc, hdone⟩ := hend _ .init
  exact ⟨hbound, c, hc, hdone⟩

end Blsmr
