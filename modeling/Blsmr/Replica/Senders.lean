import Blsmr.Quorum.Sizes
import Blsmr.Replica.Announce

/-!
# Whose replies make a quorum

Replies are counted as they come, under the pid they name. `Counted` is the condition under
which a quorum of replies is one of senders (`quorum_of_senders`).
-/

namespace Blsmr

open Blsmr.Transition

/-- A coordinator, with the senders of the replies to each command since it was announced. -/
structure Coordinator where
  dds : DDS
  senders : CmdId → List Pid

/-- Replies and their senders: each reply counts for one sender, and once. -/
structure Fits (cfg : Config) (quorum : List Res) (senders : List Pid) : Prop where
  length : quorum.length = senders.length
  wintermute : cfg.protocolType = .wintermute → senders.Nodup ∧ senders ⊆ cfg.pool
  threshold : ∀ qs, cfg.quorumSystem = .threshold qs → senders.Nodup
  grid : ∀ qs, cfg.quorumSystem = .witnessGrid qs → quorum.map Res.pid ⊆ senders

/-- The reply counts for its sender, who has not sent one before. -/
def Counts (cfg : Config) (senders : List Pid) (src : Pid) (res : Res) : Prop :=
  (cfg.protocolType = .wintermute → src ∈ cfg.pool ∧ src ∉ senders) ∧
    match cfg.quorumSystem with
    | .threshold _ => src ∉ senders
    | .witnessGrid _ => res.pid ∈ src :: senders

instance (cfg : Config) (senders : List Pid) (src : Pid) (res : Res) :
    Decidable (Counts cfg senders src res) :=
  match h : cfg.quorumSystem with
  | .threshold _ => decidable_of_iff ((cfg.protocolType = .wintermute → src ∈ cfg.pool ∧
      src ∉ senders) ∧ src ∉ senders) (by rw [Counts, h])
  | .witnessGrid _ => decidable_of_iff ((cfg.protocolType = .wintermute → src ∈ cfg.pool ∧
      src ∉ senders) ∧ res.pid ∈ src :: senders) (by rw [Counts, h])

namespace Fits

variable {cfg : Config} {quorum : List Res} {senders : List Pid}

theorem nil (cfg : Config) : Fits cfg [] [] where
  length := rfl
  wintermute _ := ⟨List.nodup_nil, List.nil_subset _⟩
  threshold _ _ := List.nodup_nil
  grid _ _ := List.nil_subset _

theorem reply (h : Fits cfg quorum senders) {src : Pid} {res : Res}
    (hc : Counts cfg senders src res) : Fits cfg (quorum ++ [res]) (src :: senders) where
  length := by rw [List.length_append, List.length_cons, h.length]; rfl
  wintermute hw := ⟨List.nodup_cons.mpr ⟨(hc.1 hw).2, (h.wintermute hw).1⟩,
    List.cons_subset.mpr ⟨(hc.1 hw).1, (h.wintermute hw).2⟩⟩
  threshold qs hq := by
    have hnew := hc.2
    rw [hq] at hnew
    exact List.nodup_cons.mpr ⟨hnew, h.threshold qs hq⟩
  grid qs hq := by
    have hpid := hc.2
    rw [hq] at hpid
    rw [List.map_append]
    refine List.append_subset.mpr ⟨fun p hp => List.mem_cons_of_mem _ (h.grid qs hq hp), ?_⟩
    exact List.cons_subset.mpr ⟨hpid, List.nil_subset _⟩

theorem isQuorum (h : Fits cfg quorum senders)
    (hq : cfg.quorumSystem.isQuorum (quorum.map Res.pid) = true) :
    cfg.quorumSystem.isQuorum senders.dedup = true := by
  cases hqs : cfg.quorumSystem with
  | threshold qs =>
    rw [hqs] at hq
    rw [(h.threshold qs hqs).dedup]
    refine isQuorum_threshold.mpr ((isQuorum_threshold.mp hq).trans_eq ?_)
    rw [List.length_map, h.length]
  | witnessGrid qs =>
    rw [hqs] at hq
    exact Grid.QuorumSystem.isQuorum_mono
      (fun p hp => List.mem_dedup.mpr (h.grid qs hqs hp)) hq

theorem all (h : Fits cfg quorum senders) (hw : cfg.protocolType = .wintermute)
    (hlen : quorum.length = cfg.pool.length) : ∀ p ∈ cfg.pool, p ∈ senders := by
  obtain ⟨hnd, hsub⟩ := h.wintermute hw
  have hperm := (hnd.subperm hsub).perm_of_length_le (hlen ▸ h.length).le
  exact fun p hp => hperm.mem_iff.mpr hp

end Fits

namespace Coordinator

def init (cfg : Config) : Coordinator := ⟨.default cfg, fun _ => []⟩

/-- The senders after an event. -/
def sendersAfter (self : Coordinator) : DDS.Event → CmdId → List Pid
  | .announce _ cmd => Function.update self.senders cmd.id []
  | .deliver _ src (.res res) =>
    Function.update self.senders res.id (src :: self.senders res.id)
  | _ => self.senders

def step (cfg : Config) (me : Pid) (self : Coordinator) (e : DDS.Event) : Option Coordinator :=
  (self.dds.step cfg me e).map fun dds => ⟨dds, self.sendersAfter e⟩

/-- A reply to a command that is collecting replies counts for its sender, and once. -/
def Counted (cfg : Config) (self : Coordinator) : DDS.Event → Prop
  | .deliver _ src (.res res) => ∀ _ ∈ self.dds.pendingAnnounceQuorums.lookup res.id,
      Counts cfg (self.senders res.id) src res
  | _ => True

instance (cfg : Config) (self : Coordinator) : ∀ e, Decidable (self.Counted cfg e)
  | .deliver _ src (.res res) => inferInstanceAs (Decidable (∀ _ ∈
      self.dds.pendingAnnounceQuorums.lookup res.id, Counts cfg (self.senders res.id) src res))
  | .deliver _ _ (.req _) => .isTrue trivial
  | .deliver _ _ (.commit _ _) => .isTrue trivial
  | .announce .. => .isTrue trivial
  | .timer _ => .isTrue trivial

/-- The distinct senders of the replies are all members when a Wintermute coordinator is
handed the last reply, and a quorum otherwise. -/
def QuorumOfSenders (cfg : Config) (self : Coordinator) : DDS.Event → Prop
  | .deliver _ src (.res res) =>
    if cfg.protocolType = .wintermute then ∀ p ∈ cfg.pool, p ∈ src :: self.senders res.id
    else self.dds.bqs.isQuorum (src :: self.senders res.id).dedup = true
  | .timer id => ∀ cmdId ∈ self.dds.announceForceTimers.lookup id,
    self.dds.bqs.isQuorum (self.senders cmdId).dedup = true
  | _ => True

/-- What is collected fits the senders. -/
structure Collected (cfg : Config) (c : Coordinator) : Prop where
  bqs : ∀ pids, c.dds.bqs.isQuorum pids = cfg.quorumSystem.isQuorum pids
  fits : ∀ cmdId, ∀ quorum ∈ c.dds.pendingAnnounceQuorums.lookup cmdId,
    Fits cfg quorum (c.senders cmdId)

variable {cfg : Config} {me : Pid} {c c' : Coordinator} {e : DDS.Event} {d : DDS}
  {status : AnnounceStatus}

theorem Collected.announce (h : Collected cfg c) (env : Env) (cmd : Command) :
    Collected cfg ⟨(c.dds.announce cfg env cmd).1, c.sendersAfter (.announce env cmd)⟩ := by
  refine ⟨fun pids => (DDS.announce_isQuorum cmd pids).trans (h.bqs pids),
    fun cmdId quorum hq => ?_⟩
  simp only [sendersAfter]
  rw [DDS.announce_pending] at hq
  rcases lookup_of_insert hq with ⟨rfl, rfl⟩ | ⟨hi, hq⟩
  · rw [Function.update_self]
    exact .nil cfg
  · rw [Function.update_of_ne hi]
    exact h.fits cmdId quorum hq

theorem Collected.timer (h : Collected cfg c) {id : TimerId}
    (hh : c.dds.handle cfg me (.timer id) = some (d, status)) : Collected cfg ⟨d, c.senders⟩ := by
  obtain ⟨cmdId, -, -, hbqs, hcase⟩ := DDS.handle_timer hh
  refine ⟨fun pids => hbqs ▸ h.bqs pids, fun i quorum hq => h.fits i quorum ?_⟩
  rcases hcase with ⟨-, -, hp⟩ | ⟨_, -, ⟨-, -, hp⟩ | ⟨-, hp, -⟩⟩ <;> simp only [hp] at hq
  · exact hq
  · exact hq
  · exact (lookup_of_erase hq).2

theorem Collected.reply (h : Collected cfg c) {env : Env} {src : Pid} {res : Res}
    (hc : c.Counted cfg (.deliver env src (.res res)))
    (hh : c.dds.handle cfg me (.deliver env src (.res res)) = some (d, status)) :
    Collected cfg ⟨d, c.sendersAfter (.deliver env src (.res res))⟩ := by
  have hother : ∀ i ≠ res.id, ∀ quorum ∈ c.dds.pendingAnnounceQuorums.lookup i,
      Fits cfg quorum (c.sendersAfter (.deliver env src (.res res)) i) :=
    fun i hi quorum hq => by
      simp only [sendersAfter]
      rw [Function.update_of_ne hi]
      exact h.fits i quorum hq
  cases hq : c.dds.pendingAnnounceQuorums.lookup res.id with
  | none =>
    rw [DDS.handle_straggler hq] at hh
    cases hh
    refine ⟨h.bqs, fun i quorum hq' => hother i (fun heq => ?_) quorum hq'⟩
    rw [heq, hq] at hq'
    cases hq'
  | some quorum =>
    have hfits : Fits cfg (quorum ++ [res])
        (c.sendersAfter (.deliver env src (.res res)) res.id) := by
      simp only [sendersAfter]
      rw [Function.update_self]
      exact (h.fits res.id quorum hq).reply (hc quorum hq)
    cases hr : c.dds.isReady cfg (quorum ++ [res]) with
    | true =>
      rw [DDS.handle_ready hq hr] at hh
      obtain ⟨fast, -, hh⟩ := Option.map_eq_some_iff.mp hh
      cases hh
      refine ⟨h.bqs, fun i quorum' hq' => ?_⟩
      obtain ⟨hne, hq'⟩ := lookup_of_erase hq'
      exact hother i hne quorum' hq'
    | false =>
      rw [DDS.handle_kept hq hr] at hh
      cases hh
      refine ⟨h.bqs, fun i quorum' hq' => ?_⟩
      rcases lookup_of_insert hq' with ⟨rfl, rfl⟩ | ⟨hi, hq'⟩
      · exact hfits
      · exact hother i hi quorum' hq'

theorem Collected.step (h : Collected cfg c) (hc : c.Counted cfg e)
    (hs : c.step cfg me e = some c') : Collected cfg c' := by
  obtain ⟨dds, hdds, rfl⟩ := Option.map_eq_some_iff.mp hs
  obtain ⟨⟨d, status⟩, hh, rfl⟩ := Option.map_eq_some_iff.mp hdds
  cases e with
  | announce env cmd =>
    simp only [DDS.handle, Option.some.injEq, Prod.mk.injEq] at hh
    obtain ⟨rfl, -⟩ := hh
    exact h.announce env cmd
  | timer id => exact h.timer hh
  | deliver env src msg =>
    by_cases hmsg : ∃ res, msg = .res res
    · obtain ⟨res, rfl⟩ := hmsg
      exact h.reply hc hh
    · have hmsg : ∀ res, msg ≠ .res res := fun res heq => hmsg ⟨res, heq⟩
      obtain ⟨hp, -, hb, -⟩ := DDS.handle_other hmsg hh
      have hsame : c.sendersAfter (.deliver env src msg) = c.senders := by
        cases msg with
        | res res => exact absurd rfl (hmsg res)
        | _ => rfl
      refine ⟨fun pids => hb ▸ h.bqs pids, fun i quorum hq => ?_⟩
      rw [hsame]
      exact h.fits i quorum (hp ▸ hq)

/-- **An announce quorum is one of distinct senders** in a run in which every reply that is
collected counts for its sender, and once. -/
theorem quorum_of_senders (cfg : Config) (me : Pid) (c : Coordinator)
    (h : Transition.Reachable (Coordinator.step cfg me) (init cfg) (Counted cfg) c)
    (e : DDS.Event) (hc : c.Counted cfg e) (d : DDS) (ready : QuorumReady)
    (hs : c.dds.handle cfg me e = some (d, .quorumReady ready)) : c.QuorumOfSenders cfg e := by
  have hC : Collected cfg c := h.invariant (I := Collected cfg)
    ⟨fun _ => rfl, fun _ _ hq => by cases hq⟩ fun _ _ _ _ hok hC hs => hC.step hok hs
  cases e with
  | announce env cmd => trivial
  | timer id =>
    intro cmdId hid
    obtain ⟨cmdId', hid', -, -, hcase⟩ := DDS.handle_timer hs
    obtain rfl : cmdId = cmdId' := Option.some.inj (hid.symm.trans hid')
    rcases hcase with ⟨-, hnot, -⟩ | ⟨quorum, hq, ⟨-, hnot, -⟩ | ⟨hQ, -⟩⟩
    · cases hnot
    · cases hnot
    · rw [hC.bqs]
      exact (hC.fits cmdId quorum hq).isQuorum (hC.bqs _ ▸ hQ)
  | deliver env src msg =>
    by_cases hmsg : ∃ res, msg = .res res
    · obtain ⟨res, rfl⟩ := hmsg
      cases hq : c.dds.pendingAnnounceQuorums.lookup res.id with
      | none =>
        rw [DDS.handle_straggler hq] at hs
        cases hs
      | some quorum =>
        have hfits := (hC.fits res.id quorum hq).reply (hc quorum hq)
        cases hr : c.dds.isReady cfg (quorum ++ [res]) with
        | false =>
          rw [DDS.handle_kept hq hr] at hs
          cases hs
        | true =>
          unfold DDS.isReady at hr
          simp only [QuorumOfSenders]
          by_cases hw : cfg.protocolType = .wintermute
          · rw [hw] at hr
            rw [if_pos hw]
            exact hfits.all hw (eq_of_beq hr)
          · rw [if_neg hw, hC.bqs]
            refine hfits.isQuorum ?_
            rw [← hC.bqs]
            revert hr
            cases hp : cfg.protocolType with
            | wintermute => exact absurd hp hw
            | _ => exact id
    · cases msg with
      | res res => exact absurd ⟨res, rfl⟩ hmsg
      | _ => trivial

/-- Three replicas reply to an EPaxos command. -/
theorem quorum_of_senders_three :
    let cfg : Config := .standard .epaxos [0, 1, 2, 3]
    let cmd : Command := ⟨⟨0, 0⟩, 7⟩
    let reply (p : Pid) : DDS.Event := .deliver (.counting 9) p (.res ⟨p, cmd.id, []⟩)
    ∃ c, Transition.exec (Coordinator.step cfg 0) (fun c e => decide (c.Counted cfg e)) (init cfg)
      [.announce (.counting 1) cmd, reply 0, reply 1] = some c ∧
      (∃ d ready, c.dds.handle cfg 0 (reply 2) = some (d, .quorumReady ready)) ∧
      c.QuorumOfSenders cfg (reply 2) := by
  intro cfg cmd reply
  have hrun : (Transition.exec (Coordinator.step cfg 0) (fun c e => decide (c.Counted cfg e))
      (init cfg) [.announce (.counting 1) cmd, reply 0, reply 1]).any (fun c =>
        decide (c.Counted cfg (reply 2)) && (c.dds.handle cfg 0 (reply 2)).any fun r =>
          match r.2 with
          | .quorumReady _ => true
          | .doNothing => false) = true := by decide +kernel
  obtain ⟨c, hc, h⟩ := (Option.any_eq_true _ _).mp hrun
  rw [Bool.and_eq_true] at h
  obtain ⟨⟨d, status⟩, hs, hready⟩ := (Option.any_eq_true _ _).mp h.2
  cases status with
  | doNothing => cases hready
  | quorumReady ready =>
    exact ⟨c, hc, ⟨d, ready, hs⟩, quorum_of_senders cfg 0 c
      (Reachable.exec (fun _ _ => of_decide_eq_true) .init hc) (reply 2)
      (of_decide_eq_true h.1) d ready hs⟩

/-- Replica 3 replies three times to an EPaxos command, which makes a quorum. -/
theorem quorum_of_one_sender :
    ¬ ∀ (cfg : Config) (me : Pid) (c : Coordinator),
      Transition.Reachable (Coordinator.step cfg me) (init cfg) (fun _ _ => True) c →
      ∀ e d ready, c.dds.handle cfg me e = some (d, .quorumReady ready) →
        c.QuorumOfSenders cfg e := by
  intro hall
  let cfg : Config := .standard .epaxos [0, 1, 2, 3]
  let cmd : Command := ⟨⟨0, 0⟩, 7⟩
  let reply : DDS.Event := .deliver (.counting 9) 3 (.res ⟨3, cmd.id, []⟩)
  have hrun : (Transition.exec (Coordinator.step cfg 0) (fun _ _ => true) (init cfg)
      [.announce (.counting 1) cmd, reply, reply]).any (fun c =>
        !c.dds.bqs.isQuorum (3 :: c.senders cmd.id).dedup &&
        (c.dds.handle cfg 0 reply).any fun r =>
          match r.2 with
          | .quorumReady _ => true
          | .doNothing => false) = true := by decide +kernel
  obtain ⟨c, hc, h⟩ := (Option.any_eq_true _ _).mp hrun
  rw [Bool.and_eq_true, Bool.not_eq_true'] at h
  obtain ⟨⟨d, status⟩, hs, hready⟩ := (Option.any_eq_true _ _).mp h.2
  cases status with
  | doNothing => cases hready
  | quorumReady ready =>
    have hq : c.dds.bqs.isQuorum (3 :: c.senders cmd.id).dedup = true :=
      hall cfg 0 c (Reachable.exec (fun _ _ _ => trivial) .init hc) reply d ready hs
    rw [hq] at h
    cases h.1

end Coordinator

end Blsmr
