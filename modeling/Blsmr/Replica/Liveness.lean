import Blsmr.Quorum.Sizes
import Blsmr.Replica.Order
import Blsmr.Replica.Replies

/-!
# No command is stuck

Without crashes nothing that a command waits for can get lost: for a member that
was asked and has not been heard of, the request or the reply is on the wire
(`Live`). So when the wire is empty every coordinator has heard of everybody it
asked, which is more than it waits for, and every replica has been told every
decision (`quiescent_stable`).
-/

namespace Blsmr

open Blsmr.Transition

/-! ## What each message does -/

namespace Effect

variable {cfg : Config} {me : Pid} {used : CmdId → Prop} {x x' : Progress} {src : Pid}
  {inp : Option (Pid × Message)} {sends : List (Pid × Message)} {i : CmdId} {deps : List CmdId}

theorem of_req {cmd : Command} (he : Effect cfg me used x inp x' sends)
    (hi : inp = some (src, .announce (.req cmd))) :
    sends = [(src, .announce (.res ⟨me, cmd.id, (x.log.submit cmd).2⟩))] := by
  cases he with
  | submit => cases hi; rfl
  | fast inp j q hash log' hc => obtain ⟨_, hm, -⟩ := hc.reply hi; cases hm
  | slow inp j q hc => obtain ⟨_, hm, -⟩ := hc.reply hi; cases hm
  | _ => cases hi

theorem of_commit (he : Effect cfg me used x inp x' sends)
    (hi : inp = some (src, .announce (.commit i deps))) :
    ∃ hash, .commit hash i deps ∈ x'.calls := by
  cases he with
  | commit src i deps hash =>
    cases hi
    exact ⟨hash, List.mem_append_right _ (List.mem_singleton.mpr rfl)⟩
  | fast inp j q hash log' hc => obtain ⟨_, hm, -⟩ := hc.reply hi; cases hm
  | slow inp j q hc => obtain ⟨_, hm, -⟩ := hc.reply hi; cases hm
  | _ => cases hi

theorem of_request (he : Effect cfg me used x inp x' sends)
    (hi : inp = some (src, .quorum (.request i deps))) :
    sends = [(src, .quorum (.response i deps))] := by
  cases he with
  | request => cases hi; rfl
  | fast inp j q hash log' hc => obtain ⟨_, hm, -⟩ := hc.reply hi; cases hm
  | slow inp j q hc => obtain ⟨_, hm, -⟩ := hc.reply hi; cases hm
  | _ => cases hi

theorem of_res {res : Res} (he : Effect cfg me used x inp x' sends)
    (hi : inp = some (src, .announce (.res res))) (ho : (x.pending res.id).isSome)
    {l : List Res} (hl : x'.pending res.id = some l) : res ∈ l := by
  cases he with
  | stale src res' h => cases hi; simp [h] at ho
  | collect src res' l' h hr =>
    cases hi
    rw [Progress.setPending_self, Option.some.injEq] at hl
    rw [← hl]
    exact List.mem_append_right _ (List.mem_singleton.mpr rfl)
  | fast inp i q hash log' hc =>
    obtain ⟨_, hm, rfl⟩ := hc.reply hi
    cases hm
    rw [Progress.decide_pending, Progress.hand_pending_self] at hl
    cases hl
  | slow inp i q hc =>
    obtain ⟨_, hm, rfl⟩ := hc.reply hi
    cases hm
    rw [Progress.setInstance_pending, Progress.hand_pending_self] at hl
    cases hl
  | _ => cases hi

theorem of_response {inst inst' : Instance} (he : Effect cfg me used x inp x' sends)
    (hi : inp = some (src, .quorum (.response i inst.deps))) (hinst : x.instances i = some inst)
    (hm : src ∈ inst.replicas) (hinst' : x'.instances i = some inst') :
    src ∈ inst'.responses := by
  cases he with
  | ignored src' j deps' h => cases hi; exact absurd ⟨rfl, hm⟩ (h inst hinst)
  | accepted src' j inst₀ h =>
    simp only [Option.some.injEq, Prod.mk.injEq, Message.quorum.injEq,
      QuorumMsg.response.injEq] at hi
    obtain ⟨rfl, rfl, -⟩ := hi
    rw [Progress.setInstance_self, Option.some.injEq] at hinst'
    rw [← hinst']
    exact List.mem_insert_self
  | complete src' j inst₀ hash log' h =>
    simp only [Option.some.injEq, Prod.mk.injEq, Message.quorum.injEq,
      QuorumMsg.response.injEq] at hi
    obtain ⟨rfl, rfl, -⟩ := hi
    rw [Progress.decide_instances, Progress.setInstance_self] at hinst'
    cases hinst'
  | fast inp j q hash log' hc => obtain ⟨_, hm, -⟩ := hc.reply hi; cases hm
  | slow inp j q hc => obtain ⟨_, hm, -⟩ := hc.reply hi; cases hm
  | _ => cases hi

/-! ## What a step leaves open -/

theorem bqs_cases (he : Effect cfg me used x inp x' sends) :
    x'.bqs = x.bqs ∨ ∃ targets, Targets cfg x.bqs x'.bqs targets := by
  cases he with
  | announce cmd bqs' targets hme hfresh ht => exact .inr ⟨targets, ht⟩
  | _ => exact .inl rfl

theorem pending_open (he : Effect cfg me used x inp x' sends) {l : List Res}
    (h : x'.pending i = some l) :
    (∃ l₀, x.pending i = some l₀ ∧ l₀ ⊆ l ∧ (l = l₀ ∨ x.isReady cfg l = false)) ∨
      ¬ used i ∧ l = [] ∧ ∃ cmd targets, cmd.id = i ∧ Targets cfg x.bqs x'.bqs targets ∧
        sends = targets.map fun pid => (pid, .announce (.req cmd)) := by
  have hold : x.pending i = some l →
      ∃ l₀, x.pending i = some l₀ ∧ l₀ ⊆ l ∧ (l = l₀ ∨ x.isReady cfg l = false) :=
    fun h => ⟨l, h, List.Subset.refl _, .inl rfl⟩
  have hdrop : ∀ j, (x.setPending j none).pending i = some l → x.pending i = some l := by
    intro j hj
    by_cases hij : i = j
    · subst hij
      rw [Progress.setPending_self] at hj
      cases hj
    · rwa [Progress.setPending_of_ne x hij] at hj
  cases he with
  | announce cmd bqs' targets hme hfresh ht =>
    by_cases hi : i = cmd.id
    · subst hi
      rw [Progress.announce_pending_self, Option.some.injEq] at h
      exact .inr ⟨hfresh, h.symm, cmd, targets, rfl, ht, rfl⟩
    · exact .inl (hold (by rwa [x.announce_pending_of_ne hi] at h))
  | collect src res l₀ hl hr =>
    by_cases hi : i = res.id
    · subst hi
      rw [Progress.setPending_self, Option.some.injEq] at h
      subst h
      exact .inl ⟨l₀, hl, List.subset_append_left _ _, .inr hr⟩
    · exact .inl (hold (by rwa [Progress.setPending_of_ne x hi] at h))
  | fast inp j q hash log' => exact .inl (hold (hdrop j h))
  | slow inp j q => exact .inl (hold (hdrop j h))
  | _ => exact .inl (hold h)

theorem instance_open (he : Effect cfg me used x inp x' sends) {inst' : Instance}
    (h : x'.instances i = some inst') :
    (∃ inst, x.instances i = some inst ∧ inst'.deps = inst.deps ∧
      inst'.replicas = inst.replicas ∧ inst.responses ⊆ inst'.responses) ∨
      inst'.replicas = Quorum.replicas cfg i ∧ sends = requestSends cfg i inst'.deps := by
  have hold : x.instances i = some inst' → ∃ inst, x.instances i = some inst ∧
      inst'.deps = inst.deps ∧ inst'.replicas = inst.replicas ∧
        inst.responses ⊆ inst'.responses :=
    fun h => ⟨inst', h, rfl, rfl, List.Subset.refl _⟩
  cases he with
  | slow inp j q =>
    by_cases hi : i = j
    · subst hi
      rw [Progress.setInstance_self, Option.some.injEq] at h
      subst h
      exact .inr ⟨rfl, rfl⟩
    · exact .inl (hold (by rwa [Progress.setInstance_of_ne _ hi] at h))
  | accepted src j inst hj =>
    by_cases hi : i = j
    · subst hi
      rw [Progress.setInstance_self, Option.some.injEq] at h
      subst h
      exact .inl ⟨inst, hj, rfl, rfl, fun q hq => List.mem_insert_of_mem hq⟩
    · exact .inl (hold (by rwa [Progress.setInstance_of_ne x hi] at h))
  | complete src j inst hash log' =>
    by_cases hi : i = j
    · subst hi
      rw [Progress.decide_instances, Progress.setInstance_self] at h
      cases h
    · exact .inl (hold (by rwa [Progress.decide_instances, x.setInstance_of_ne hi] at h))
  | _ => exact .inl (hold h)

theorem decided_told (he : Effect cfg me used x inp x' sends) (h : (i, deps) ∈ x'.decided) :
    (i, deps) ∈ x.decided ∨ sends = commitSends cfg me i deps := by
  cases he with
  | fast inp j q hash log' =>
    rcases List.mem_append.mp h with h | h
    · exact .inl h
    · cases List.mem_singleton.mp h
      exact .inr rfl
  | complete src j inst hash log' =>
    rcases List.mem_append.mp h with h | h
    · exact .inl h
    · cases List.mem_singleton.mp h
      exact .inr rfl
  | _ => exact .inl h

theorem active (he : Effect cfg me used x inp x' sends)
    (hx : ∀ i, x.HandedOver i → (x.instances i).isSome ∨ x.Decided i) (h : x'.HandedOver i) :
    (x'.instances i).isSome ∨ x'.Decided i := by
  cases he with
  | fast inp j q hash log' =>
    obtain ⟨rd, hrd⟩ := h
    rcases List.mem_append.mp hrd with hrd | hrd
    · refine (hx i ⟨rd, hrd⟩).imp (fun h => h) ?_
      rintro ⟨deps, hd⟩
      exact ⟨deps, List.mem_append_left _ hd⟩
    · cases List.mem_singleton.mp hrd
      exact .inr ⟨_, List.mem_append_right _ (List.mem_singleton.mpr rfl)⟩
  | slow inp j q =>
    by_cases hi : i = j
    · subst hi
      exact .inl (by rw [Progress.setInstance_self]; rfl)
    · obtain ⟨rd, hrd⟩ := h
      rcases List.mem_append.mp hrd with hrd | hrd
      · rw [Progress.setInstance_of_ne _ hi]
        exact hx i ⟨rd, hrd⟩
      · cases List.mem_singleton.mp hrd
        exact absurd rfl hi
  | accepted src j inst hj =>
    by_cases hi : i = j
    · subst hi
      exact .inl (by rw [Progress.setInstance_self]; rfl)
    · rw [Progress.setInstance_of_ne x hi]
      exact hx i h
  | complete src j inst hash log' =>
    by_cases hi : i = j
    · subst hi
      exact .inr ⟨_, List.mem_append_right _ (List.mem_singleton.mpr rfl)⟩
    · rw [Progress.decide_instances, x.setInstance_of_ne hi]
      refine (hx i h).imp (fun h => h) ?_
      rintro ⟨deps, hd⟩
      exact ⟨deps, List.mem_append_left _ hd⟩
  | _ => exact hx i h

end Effect

/-! ## Configurations -/

/-- EPaxos or Wintermute on at least one replica, or 3Jane on a grid. -/
def Config.Live (cfg : Config) : Prop :=
  (cfg.Dissemination .epaxos ∨ cfg.Dissemination .wintermute) ∧ cfg.pool ≠ [] ∨
    ∃ k grid, 1 ≤ k ∧ cfg.WitnessingGrid k grid

namespace Config

/-- Whether replies of `pids` complete the quorum of a command. -/
def enough (cfg : Config) (pids : List Pid) : Bool :=
  match cfg.protocolType with
  | .wintermute => pids.length == cfg.pool.length
  | _ => cfg.quorumSystem.isQuorum pids

/-- Replies of all `targets` complete the quorum of a command. -/
def Suffices (cfg : Config) (targets : List Pid) : Prop :=
  ∀ l, targets ⊆ l → (cfg.protocolType ≠ .threeJane → l.Nodup ∧ l ⊆ cfg.pool) →
    cfg.enough l = true

/-- What earlier choices of quorums leave of the quorum system. -/
structure Draws (cfg : Config) (bqs : QuorumSystem) : Prop where
  isQuorum : ∀ l, bqs.isQuorum l = cfg.quorumSystem.isQuorum l
  grid : cfg.protocolType = .threeJane → ∃ qs : Grid.QuorumSystem, bqs = .witnessGrid qs ∧
    qs.x ≤ qs.n ∧ qs.indices.Perm (List.finRange qs.n)

variable {cfg : Config} {bqs bqs' : QuorumSystem} {targets : List Pid} {protocol : BLSMRProtocol}

theorem Dissemination.isQuorum_iff (h : cfg.Dissemination protocol) (l : List Pid) :
    cfg.quorumSystem.isQuorum l = true ↔ 2 * ((cfg.pool.length - 1) / 3) + 1 ≤ l.length := by
  rw [h.quorumSystem]
  exact isQuorum_newDissemination cfg.pool l

theorem WitnessingGrid.spec {k : ℕ} {grid : Grid.QuorumSystem} (h : cfg.WitnessingGrid k grid)
    (hk : 1 ≤ k) : grid.n = k ∧ 1 ≤ grid.x ∧ grid.x ≤ k ∧
      grid.indices.Perm (List.finRange grid.n) ∧ 1 ≤ grid.consensusCommitteeSize := by
  obtain ⟨sqrtCeil, faults, hb⟩ := h.built
  obtain ⟨g, hg, -, hn, -, hc⟩ := Grid.QuorumSystem.withFaults_spec h.pool_length faults
  rw [hb, Option.some.injEq] at hg
  subst hg
  have hkk : 1 ≤ k * k := Nat.mul_pos hk hk
  refine ⟨hn, Nat.pos_of_ne_zero fun h0 => ?_, h.least k ?_, ?_, ?_⟩
  · have := h.enough
    rw [h0] at this
    omega
  · calc k = 1 * k := (Nat.one_mul k).symm
      _ ≤ 2 * k * k := Nat.mul_le_mul_right k (by omega)
  · rw [Grid.QuorumSystem.withFaults_indices hb]
  · rw [hc]
    omega

theorem Live.enough_nil (h : cfg.Live) : cfg.enough [] = false := by
  rcases h with ⟨hd | hd, hne⟩ | ⟨k, grid, hk, hg⟩
  · simp only [enough, hd.protocolType]
    refine Bool.eq_false_iff.mpr fun hq => ?_
    have := (hd.isQuorum_iff []).mp hq
    simp at this
  · simp only [enough, hd.protocolType, List.length_nil, beq_eq_false_iff_ne]
    exact fun h0 => hne (List.length_eq_zero_iff.mp h0.symm)
  · simp only [enough, hg.protocolType, hg.quorumSystem]
    obtain ⟨hn, hx, -⟩ := hg.spec hk
    refine Bool.eq_false_iff.mpr fun hq => ?_
    have hrow := (Grid.QuorumSystem.isQuorum_iff.mp hq).1
    obtain ⟨r, hr⟩ := List.exists_mem_of_length_pos (hx.trans hrow)
    exact List.not_mem_nil (Grid.QuorumSystem.mem_fullRows.mp hr ⟨0, by omega⟩)

theorem Live.replicas_ne_nil (h : cfg.Live) (i : CmdId) : Quorum.replicas cfg i ≠ [] := by
  unfold Quorum.replicas
  rcases h with ⟨hd, hne⟩ | ⟨k, grid, hk, hg⟩
  · have hp : cfg.protocolType ≠ .threeJane := by
      rcases hd with hd | hd <;> rw [hd.protocolType] <;> simp
    rwa [if_pos hp]
  · obtain ⟨-, -, -, -, hc⟩ := hg.spec hk
    have hlen := hg.pool_length
    have hkk : 1 ≤ k * k := Nat.mul_pos hk hk
    rw [if_neg (not_not.mpr hg.protocolType), hg.quorumSystem]
    refine List.ne_nil_of_length_pos ?_
    rw [List.length_take, List.length_insertionSort]
    show 0 < min grid.consensusCommitteeSize _
    omega

theorem Live.pool_nodup (h : cfg.Live) : cfg.pool.Nodup := by
  rcases h with ⟨hd | hd, -⟩ | ⟨k, grid, -, hg⟩
  · exact hd.pool_nodup
  · exact hd.pool_nodup
  · exact hg.pool_nodup

theorem replicas_nodup (h : cfg.pool.Nodup) (i : CmdId) : (Quorum.replicas cfg i).Nodup := by
  unfold Quorum.replicas
  split
  · exact h
  · exact ((List.perm_insertionSort _ _).nodup_iff.mpr h).sublist (List.take_sublist _ _)

theorem Live.draws (h : cfg.Live) : cfg.Draws cfg.quorumSystem := by
  refine ⟨fun _ => rfl, fun hp => ?_⟩
  rcases h with ⟨hd, -⟩ | ⟨k, grid, hk, hg⟩
  · rcases hd with hd | hd <;> (rw [hd.protocolType] at hp; cases hp)
  · obtain ⟨hn, -, hx, hperm, -⟩ := hg.spec hk
    exact ⟨grid, hg.quorumSystem, hn ▸ hx, hperm⟩

/-- **Everybody asked is enough.** -/
theorem Draws.of_targets (hcfg : cfg.Live) (h : cfg.Draws bqs) (ht : Targets cfg bqs bqs' targets) :
    cfg.Draws bqs' ∧ cfg.Suffices targets := by
  rcases ht with ⟨hp, rfl, rfl⟩ | ⟨hp, rng, hrng⟩
  · refine ⟨h, fun l hl hs => ?_⟩
    obtain ⟨hnd, hsub⟩ := hs hp
    have hle : cfg.pool.length ≤ l.length := (hcfg.pool_nodup.subperm hl).length_le
    have hge : l.length ≤ cfg.pool.length := (hnd.subperm hsub).length_le
    rcases hcfg with ⟨hd | hd, hne⟩ | ⟨k, grid, -, hg⟩
    · have := List.length_pos_iff.mpr hne
      simp only [enough, hd.protocolType]
      exact (hd.isQuorum_iff l).mpr (by omega)
    · simp only [enough, hd.protocolType, beq_iff_eq]
      omega
    · exact absurd hg.protocolType hp
  · obtain ⟨qs, rfl, hx, hperm⟩ := h.grid hp
    have hb : QuorumSystem.witnessGrid (qs.chooseRandomQuorum (rng.rows qs.n) (rng.cols qs.n)).1 =
        bqs' := congrArg Prod.fst hrng
    have ht : (qs.chooseRandomQuorum (rng.rows qs.n) (rng.cols qs.n)).2 = targets :=
      congrArg Prod.snd hrng
    subst hb ht
    refine ⟨⟨h.isQuorum, fun _ => ⟨_, rfl, hx, ?_⟩⟩, fun l hl _ => ?_⟩
    · exact ((rng.cols qs.n).perm _).trans (((rng.rows qs.n).perm _).trans hperm)
    · simp only [enough, hp]
      rw [← h.isQuorum]
      exact Grid.QuorumSystem.isQuorum_mono hl
        (Grid.QuorumSystem.isQuorum_chooseRandomQuorum hperm hx _ _)

theorem Draws.isReady {x : Progress} (h : cfg.Draws x.bqs) (q : List Res) :
    x.isReady cfg q = cfg.enough (q.map Res.pid) := by
  unfold Progress.isReady enough
  cases cfg.protocolType with
  | wintermute => simp only [List.length_map]
  | _ => exact h.isQuorum _

end Config

/-! ## Nothing gets lost -/

theorem slot_cases {i : CmdId} {pkt : Packet} {t : Pid} (h : slot i pkt = some t) :
    (∃ cmd, pkt.msg = .announce (.req cmd) ∧ cmd.id = i ∧ pkt.dst = t) ∨
      ∃ res, pkt.msg = .announce (.res res) ∧ res.id = i ∧ res.pid = t := by
  obtain ⟨src, dst, msg⟩ := pkt
  cases msg with
  | quorum m => cases h
  | announce m =>
    cases m with
    | req cmd =>
      obtain ⟨hid, ht⟩ := Option.ite_none_right_eq_some.mp h
      exact .inl ⟨cmd, rfl, hid, Option.some.inj ht⟩
    | res res =>
      obtain ⟨hid, ht⟩ := Option.ite_none_right_eq_some.mp h
      exact .inr ⟨res, rfl, hid, Option.some.inj ht⟩
    | commit i deps => cases h

theorem mem_slots {s : Net} {i : CmdId} {t : Pid} : t ∈ s.slots i ↔
    (∃ pkt ∈ s.network, slot i pkt = some t) ∨
      ∃ l, (s.replica i.pid).pending i = some l ∧ t ∈ l.map Res.pid := by
  unfold Net.slots collected
  rw [List.mem_append, List.mem_filterMap]
  cases h : (s.replica i.pid).pending i <;> simp

/-- The wire holds what the coordinators and the replicas wait for. -/
structure Live (cfg : Config) (s : Net) : Prop where
  draws : ∀ p, cfg.Draws (s.replica p).bqs
  short : ∀ p i l, (s.replica p).pending i = some l → cfg.enough (l.map Res.pid) = false
  active : ∀ p i, (s.replica p).HandedOver i →
    ((s.replica p).instances i).isSome ∨ (s.replica p).Decided i
  asked : ∀ i, ((s.replica i.pid).pending i).isSome →
    ∃ targets, cfg.Suffices targets ∧ targets ⊆ s.slots i
  proposed : ∀ p i inst, (s.replica p).instances i = some inst → ∀ q ∈ inst.replicas,
    q ∈ inst.responses ∨ ⟨p, q, .quorum (.request i inst.deps)⟩ ∈ s.network ∨
      ⟨q, p, .quorum (.response i inst.deps)⟩ ∈ s.network
  told : ∀ p i deps, (i, deps) ∈ (s.replica p).decided → ∀ q ∈ cfg.pool,
    (∃ hash, .commit hash i deps ∈ (s.replica q).calls) ∨
      ⟨p, q, .announce (.commit i deps)⟩ ∈ s.network

theorem NetStep.remains {cfg : Config} {s s' : Net} {p : Pid} {inp : Option (Pid × Message)}
    (hs : NetStep cfg s p inp s') {pkt : Packet} (h : pkt ∈ s.network) :
    pkt ∈ s'.network ∨ pkt.dst = p ∧ inp = some (pkt.src, pkt.msg) := by
  obtain ⟨sends, rest, -, hperm, hnet, -⟩ := hs.effect
  rw [hperm.mem_iff, List.mem_append] at h
  rcases h with h | h
  · right
    unfold consumed at h
    obtain ⟨⟨src, msg⟩, hi, rfl⟩ := List.mem_map.mp h
    exact ⟨rfl, Option.mem_toList.mp hi⟩
  · rw [hnet]
    exact .inl (List.mem_append_left _ h)

namespace Live

variable {cfg : Config} {s s' : Net} {p : Pid} {inp : Option (Pid × Message)}

theorem init (hcfg : cfg.Live) : Live cfg (Cluster.init cfg).net := by
  refine ⟨fun _ => hcfg.draws, ?_, ?_, ?_, ?_, ?_⟩ <;>
    simp [Cluster.init, Cluster.net, BLSMR.default, BLSMR.progress, DDS.default, Quorum.default,
      Progress.HandedOver]

theorem slots_kept (hF : Flow cfg s) (hs : NetStep cfg s p inp s') {i : CmdId} {l l' : List Res}
    (hl : (s.replica i.pid).pending i = some l) (hl' : (s'.replica i.pid).pending i = some l')
    (hsub : l ⊆ l') : s.slots i ⊆ s'.slots i := by
  obtain ⟨sends, rest, he, hperm, hnet, -⟩ := hs.effect
  have hsent : ∀ {m}, m ∈ sends → ⟨p, m.1, m.2⟩ ∈ s'.network := fun hm => by
    rw [hnet, List.mem_append, mem_packets]
    exact .inr ⟨rfl, hm⟩
  intro t ht
  rw [mem_slots] at ht ⊢
  rcases ht with ⟨pkt, hpkt, hslot⟩ | ⟨l₀, hl₀, ht⟩
  · rcases hs.remains hpkt with h | ⟨rfl, hinp⟩
    · exact .inl ⟨pkt, h, hslot⟩
    rcases slot_cases hslot with ⟨cmd, hmsg, rfl, rfl⟩ | ⟨res, hmsg, rfl, rfl⟩
    · rw [hmsg] at hinp
      rw [he.of_req hinp] at hsent
      exact .inl ⟨_, hsent (List.mem_singleton.mpr rfl), by simp [slot]⟩
    · have hdst := (hF.res pkt (hF.in_sent hpkt) res hmsg).2.1
      rw [← hdst] at hl hl'
      rw [hmsg] at hinp
      refine .inr ⟨l', hdst ▸ hl', List.mem_map_of_mem ?_⟩
      exact he.of_res hinp (by rw [hl]; rfl) hl'
  · rw [hl, Option.some.injEq] at hl₀
    subst hl₀
    obtain ⟨res, hres, rfl⟩ := List.mem_map.mp ht
    exact .inr ⟨l', hl', List.mem_map_of_mem (hsub hres)⟩

theorem draws_step (hcfg : cfg.Live) (h : Live cfg s) (hs : NetStep cfg s p inp s') (q : Pid) :
    cfg.Draws (s'.replica q).bqs := by
  by_cases hq : q = p
  · subst hq
    obtain ⟨sends, rest, he, -⟩ := hs.effect
    rcases he.bqs_cases with hb | ⟨targets, ht⟩
    · rw [hb]; exact h.draws q
    · exact ((h.draws q).of_targets hcfg ht).1
  · rw [hs.other hq]; exact h.draws q

theorem short_step (hcfg : cfg.Live) (h : Live cfg s) (hs : NetStep cfg s p inp s') {q : Pid}
    {i : CmdId} {l : List Res} (hl : (s'.replica q).pending i = some l) :
    cfg.enough (l.map Res.pid) = false := by
  by_cases hq : q = p
  · subst hq
    obtain ⟨sends, rest, he, -⟩ := hs.effect
    rcases he.pending_open hl with ⟨l₀, hl₀, -, rfl | hr⟩ | ⟨-, rfl, -⟩
    · exact h.short q i _ hl₀
    · rwa [(h.draws q).isReady] at hr
    · exact hcfg.enough_nil
  · rw [hs.other hq] at hl
    exact h.short q i l hl

theorem active_step (h : Live cfg s) (hs : NetStep cfg s p inp s') {q : Pid} {i : CmdId}
    (hi : (s'.replica q).HandedOver i) :
    ((s'.replica q).instances i).isSome ∨ (s'.replica q).Decided i := by
  by_cases hq : q = p
  · subst hq
    obtain ⟨sends, rest, he, -⟩ := hs.effect
    exact he.active (h.active q) hi
  · rw [hs.other hq] at hi ⊢
    exact h.active q i hi

theorem asked_step (hcfg : cfg.Live) (h : Live cfg s) (hF : Flow cfg s)
    (hs : NetStep cfg s p inp s') {i : CmdId} (hi : ((s'.replica i.pid).pending i).isSome) :
    ∃ targets, cfg.Suffices targets ∧ targets ⊆ s'.slots i := by
  obtain ⟨l, hl⟩ := Option.isSome_iff_exists.mp hi
  have hkept : ∀ l₀, (s.replica i.pid).pending i = some l₀ → l₀ ⊆ l →
      ∃ targets, cfg.Suffices targets ∧ targets ⊆ s'.slots i := by
    intro l₀ hl₀ hsub
    obtain ⟨targets, hsuf, ht⟩ := h.asked i (by rw [hl₀]; rfl)
    exact ⟨targets, hsuf, List.Subset.trans ht (slots_kept hF hs hl₀ hl hsub)⟩
  by_cases hp : i.pid = p
  · obtain ⟨sends, rest, he, hperm, hnet, -⟩ := hs.effect
    rw [← hp] at he hnet
    rcases he.pending_open hl with ⟨l₀, hl₀, hsub, -⟩ | ⟨-, -, cmd, targets, hid, ht, rfl⟩
    · exact hkept l₀ hl₀ hsub
    · refine ⟨targets, ((h.draws _).of_targets hcfg ht).2, fun t ht' => mem_slots.mpr ?_⟩
      refine .inl ⟨⟨i.pid, t, .announce (.req cmd)⟩, ?_, by simp [slot, hid]⟩
      rw [hnet, List.mem_append, mem_packets]
      exact .inr ⟨rfl, List.mem_map_of_mem ht'⟩
  · rw [hs.other hp] at hl
    exact hkept l hl (List.Subset.refl _)

theorem proposed_step (h : Live cfg s) (hs : NetStep cfg s p inp s') {q : Pid} {i : CmdId}
    {inst : Instance} (hi : (s'.replica q).instances i = some inst) {r : Pid}
    (hr : r ∈ inst.replicas) :
    r ∈ inst.responses ∨ ⟨q, r, .quorum (.request i inst.deps)⟩ ∈ s'.network ∨
      ⟨r, q, .quorum (.response i inst.deps)⟩ ∈ s'.network := by
  obtain ⟨sends, rest, he, hperm, hnet, -⟩ := hs.effect
  have hsent : ∀ {m}, m ∈ sends → ⟨p, m.1, m.2⟩ ∈ s'.network := fun hm => by
    rw [hnet, List.mem_append, mem_packets]
    exact .inr ⟨rfl, hm⟩
  have hold : (∃ inst₀, (s.replica q).instances i = some inst₀ ∧ inst.deps = inst₀.deps ∧
      inst.replicas = inst₀.replicas ∧ inst₀.responses ⊆ inst.responses) ∨
      q = p ∧ inst.replicas = Quorum.replicas cfg i ∧ sends = requestSends cfg i inst.deps := by
    by_cases hq : q = p
    · subst hq
      exact (he.instance_open hi).imp (fun h => h) fun h => ⟨rfl, h⟩
    · rw [hs.other hq] at hi
      exact .inl ⟨inst, hi, rfl, rfl, List.Subset.refl _⟩
  rcases hold with ⟨inst₀, hi₀, hd, hrep, hsub⟩ | ⟨rfl, hrep, rfl⟩
  · rw [hd]
    rcases h.proposed q i inst₀ hi₀ r (hrep ▸ hr) with hc | hc | hc
    · exact .inl (hsub hc)
    · rcases hs.remains hc with hc' | ⟨rfl, hinp⟩
      · exact .inr (.inl hc')
      · rw [he.of_request hinp] at hsent
        exact .inr (.inr (hsent (List.mem_singleton.mpr rfl)))
    · rcases hs.remains hc with hc' | ⟨rfl, hinp⟩
      · exact .inr (.inr hc')
      · exact .inl (he.of_response hinp hi₀ (hrep ▸ hr) hi)
  · rw [hrep] at hr
    exact .inr (.inl (hsent (List.mem_map_of_mem hr)))

theorem told_step (h : Live cfg s) (hF' : Flow cfg s') (hs : NetStep cfg s p inp s') {q : Pid}
    {i : CmdId} {deps : List CmdId} (hi : (i, deps) ∈ (s'.replica q).decided) {r : Pid}
    (hr : r ∈ cfg.pool) :
    (∃ hash, .commit hash i deps ∈ (s'.replica r).calls) ∨
      ⟨q, r, .announce (.commit i deps)⟩ ∈ s'.network := by
  obtain ⟨sends, rest, he, hperm, hnet, -⟩ := hs.effect
  have hold : (i, deps) ∈ (s.replica q).decided ∨ q = p ∧ sends = commitSends cfg q i deps := by
    by_cases hq : q = p
    · subst hq
      exact (he.decided_told hi).imp (fun h => h) fun h => ⟨rfl, h⟩
    · rw [hs.other hq] at hi
      exact .inl hi
  rcases hold with hd | ⟨rfl, rfl⟩
  · rcases h.told q i deps hd r hr with ⟨hash, hc⟩ | hc
    · exact .inl ⟨hash, (hs.grows r).calls hc⟩
    · rcases hs.remains hc with hc' | ⟨rfl, hinp⟩
      · exact .inr hc'
      · exact .inl (he.of_commit hinp)
  · by_cases hrq : r = q
    · subst hrq
      exact .inl (hF'.decided_call r i deps hi)
    · refine .inr ?_
      rw [hnet, List.mem_append, mem_packets]
      exact .inr ⟨rfl, List.mem_map_of_mem (List.mem_filter.mpr ⟨hr, by simpa using hrq⟩)⟩

/-- **Every step keeps the wire complete.** -/
theorem step (hcfg : cfg.Live) (h : Live cfg s) (hF : Flow cfg s) (hs : NetStep cfg s p inp s') :
    Live cfg s' :=
  ⟨h.draws_step hcfg hs, fun _ _ _ => h.short_step hcfg hs, fun _ _ => h.active_step hs,
    fun _ => h.asked_step hcfg hF hs, fun _ _ _ hi _ => h.proposed_step hs hi,
    fun _ _ _ hi _ => h.told_step (hF.step hs) hs hi⟩

theorem of_reachable (hcfg : cfg.Live) {c : Cluster} (h : Cluster.Reachable cfg c) :
    Live cfg c.net :=
  net_invariant (init hcfg) (fun _ _ _ hr _ hI hs => hI.step hcfg (Flow.of_reachable hr) hs) h

end Live

/-! ## When the wire is empty -/

section Quiescent

variable {cfg : Config} {s : Net} {i : CmdId}

theorem Live.not_pending (hL : Live cfg s) (hO : cfg.protocolType ≠ .threeJane → Once cfg s)
    (hq : s.network = []) : (s.replica i.pid).pending i = none := by
  refine Option.eq_none_iff_forall_not_mem.mpr fun l hl => ?_
  have hl : (s.replica i.pid).pending i = some l := hl
  have hslots : s.slots i = l.map Res.pid := by simp [Net.slots, hq, hl, collected]
  obtain ⟨targets, hsuf, ht⟩ := hL.asked i (by rw [hl]; rfl)
  rw [hslots] at ht
  have hfull := hsuf _ ht fun hp =>
    ⟨hslots ▸ (hO hp).slots_nodup i, hslots ▸ (hO hp).slots_sub i⟩
  rw [hL.short _ i l hl] at hfull
  cases hfull

theorem Live.no_instance (hcfg : cfg.Live) (hL : Live cfg s) (hF : Flow cfg s)
    (hq : s.network = []) (p : Pid) : (s.replica p).instances i = none := by
  refine Option.eq_none_iff_forall_not_mem.mpr fun inst hi => ?_
  have hi : (s.replica p).instances i = some inst := hi
  obtain ⟨hrep, hnd, hsub, hlen⟩ := (hF.sound p).instance_ok i inst hi
  have hall : inst.replicas ⊆ inst.responses := fun r hr => by
    rcases hL.proposed p i inst hi r hr with h | h | h
    · exact h
    all_goals
      rw [hq] at h
      cases h
  have hrnd : inst.replicas.Nodup := hrep ▸ Config.replicas_nodup hcfg.pool_nodup i
  have hle := (hrnd.subperm hall).length_le
  have hge := (hnd.subperm hsub).length_le
  rcases hlen with h | h
  · rw [h, List.subset_nil, hrep] at hall
    exact hcfg.replicas_ne_nil i hall
  · omega

theorem Live.decided (hcfg : cfg.Live) (hL : Live cfg s) (hF : Flow cfg s)
    (hO : cfg.protocolType ≠ .threeJane → Once cfg s) (hq : s.network = []) (hi : s.used i) :
    (s.replica i.pid).Decided i := by
  rcases (hF.sound i.pid).open_or_ready i (hF.used_iff.mp hi) with h | h
  · rw [hL.not_pending hO hq] at h
    cases h
  · refine (hL.active _ i h).resolve_left fun h => ?_
    rw [hL.no_instance hcfg hF hq] at h
    cases h

theorem Live.committed (hcfg : cfg.Live) (hL : Live cfg s) (hF : Flow cfg s)
    (hO : cfg.protocolType ≠ .threeJane → Once cfg s) (hq : s.network = []) (hi : s.used i)
    {q : Pid} (hqp : q ∈ cfg.pool) : CmdLog.Committed (s.replica q).log i := by
  obtain ⟨deps, hd⟩ := hL.decided hcfg hF hO hq hi
  refine (CmdLog.committed_iff (hF.creates q) (hF.run q)).mpr ?_
  rcases hL.told _ i deps hd q hqp with ⟨hash, hc⟩ | h
  · exact ⟨hash, deps, hc⟩
  · rw [hq] at h
    cases h

theorem Live.pendingCommit (hcfg : cfg.Live) (hL : Live cfg s) (hF : Flow cfg s)
    (hO : cfg.protocolType ≠ .threeJane → Once cfg s) (hq : s.network = []) {q : Pid}
    (hqp : q ∈ cfg.pool) : (s.replica q).log.pendingCommit = [] := by
  obtain ⟨D, hD, hcom⟩ := hF.exists_deps
  refine CmdLog.pendingCommit_eq_nil (hF.log_inv q)
    (CmdLog.run_follows (hF.creates q) (hcom q) (hF.run q)) fun x hx y hy => ?_
  obtain ⟨hash, deps, hc⟩ := (CmdLog.committed_iff (hF.creates q) (hF.run q)).mp hx
  have hdec := hF.commit_call q hash x deps hc
  obtain ⟨rd, hrd, hdeps⟩ := (hF.sound x.pid).decided_ready x deps hdec
  rw [← hD x deps hdec, hdeps, mem_unionDeps] at hy
  obtain ⟨res, hres, hyc⟩ := hy
  obtain ⟨pkt, hpkt, hm⟩ := hF.ready_sent _ x rd hrd res hres
  exact hL.committed hcfg hF hO hq ((hF.res pkt hpkt res hm).2.2.2 y hyc) hqp

end Quiescent

/-! ## Every message can be delivered -/

section Deliver

variable {cfg : Config} {me src : Pid} {env : Env} {b : BLSMR}

theorem decide_isSome (h : b.dds.log.Inv) (i : CmdId) (deps : List CmdId) :
    (b.decide cfg me env i deps).isSome := by
  obtain ⟨log', hlog, -⟩ := h.commit env.hash i deps
  simp [BLSMR.decide, DDS.commit, hlog]

theorem handleAnnounceStatus_isSome (h : b.dds.log.Inv) {status : AnnounceStatus}
    (hq : ∀ rd, status = .quorumReady rd → rd.quorum ≠ []) :
    (b.handleAnnounceStatus cfg me env status).isSome := by
  cases status with
  | doNothing => rfl
  | quorumReady rd =>
    obtain ⟨quorum, fast⟩ := rd
    cases quorum with
    | nil => exact absurd rfl (hq _ rfl)
    | cons first rest =>
      cases fast with
      | true =>
        obtain ⟨log', hlog, -⟩ := h.commit env.hash first.id (unionDeps (first :: rest))
        simp [BLSMR.handleAnnounceStatus, BLSMR.decide, DDS.commit, hlog]
      | false => rfl

theorem allowFastpath_isSome (quorum : List Res) (res : Res) :
    ∃ fast, DDS.allowFastpath cfg (quorum ++ [res]) = some fast := by
  unfold DDS.allowFastpath
  cases quorum <;> (split <;> exact ⟨_, rfl⟩)

theorem dds_onMessage_isSome {dds : DDS} (h : dds.log.Inv) (m : Announce) :
    ∃ out, dds.onMessage cfg me env src m = some out ∧ out.1.log.Inv ∧
      ∀ rd, out.2.1 = .quorumReady rd → rd.quorum ≠ [] := by
  have hno : ∀ rd, AnnounceStatus.doNothing = .quorumReady rd → rd.quorum ≠ [] :=
    fun rd hrd => by cases hrd
  cases m with
  | req cmd => exact ⟨_, rfl, h.submit cmd, hno⟩
  | commit i deps =>
    obtain ⟨log', hlog, hI⟩ := h.commit env.hash i deps
    simp only [DDS.onMessage, DDS.commit, hlog, Option.map_some]
    exact ⟨_, rfl, hI, hno⟩
  | res res =>
    cases hl : dds.pendingAnnounceQuorums.lookup res.id with
    | none =>
      simp only [DDS.onMessage, hl]
      exact ⟨_, rfl, h, hno⟩
    | some l =>
      simp only [DDS.onMessage, hl]
      by_cases hr : dds.isReady cfg (l ++ [res]) = true
      · obtain ⟨fast, hf⟩ := @allowFastpath_isSome cfg l res
        rw [if_pos hr, hf]
        exact ⟨_, rfl, h, fun rd hrd => (by cases hrd; simp)⟩
      · rw [if_neg hr]
        exact ⟨_, rfl, h, hno⟩

/-- **No message makes a replica panic** whose log is as calls leave it. -/
theorem onMessage_isSome (h : b.dds.log.Inv) (msg : Message) :
    (b.onMessage cfg me env src msg).isSome := by
  cases msg with
  | announce m =>
    obtain ⟨⟨dds', status, sends⟩, hm, hI, hq⟩ := @dds_onMessage_isSome cfg me src env _ h m
    obtain ⟨out, ho⟩ := Option.isSome_iff_exists.mp
      (@handleAnnounceStatus_isSome cfg me env { b with dds := dds' } hI status hq)
    simp [BLSMR.onMessage, hm, ho]
  | quorum m =>
    rcases hm : b.quorum.onMessage src m with ⟨quorum', status, sends⟩
    obtain ⟨out, ho⟩ : ∃ out, { b with quorum := quorum' }.handleQuorumStatus cfg me env status =
        some out := by
      refine Option.isSome_iff_exists.mp ?_
      cases status with
      | doNothing => rfl
      | decided i deps => exact @decide_isSome cfg me env { b with quorum := quorum' } h i deps
    simp [BLSMR.onMessage, hm, ho]

end Deliver

/-- **Every message in flight can be delivered.** -/
theorem deliverable {cfg : Config} {ok : Cluster → Action → Prop} {c : Cluster}
    (h : Cluster.ReachableBy cfg ok c) {packet : Packet} (hp : packet ∈ c.network) {env : Env}
    (hf : c.Fresh env) : (Cluster.step cfg c (.deliver packet env)).isSome := by
  have hI := (Flow.of_reachable h).log_inv packet.dst
  unfold Cluster.step
  rw [if_pos (show c.Fresh (Action.deliver packet env).env from hf)]
  simp only [if_pos hp, Option.isSome_map]
  exact onMessage_isSome hI packet.msg

/-- **No command is stuck.** Once no message is in flight, every command announced
is decided by its coordinator and stable at every replica, and no log has a
command pending. -/
theorem quiescent_stable (cfg : Config) (hcfg : cfg.Live) (c : Cluster)
    (h : Cluster.Reachable cfg c) (hq : c.network = []) :
    (∀ p, ∀ cmd ∈ (c.replicas p).announced,
      (∃ deps, (cmd.id, deps) ∈ (c.replicas p).decided) ∧
        ∀ q ∈ cfg.pool, cmd.id ∈ (c.replicas q).dds.log.stable) ∧
    ∀ q ∈ cfg.pool, (c.replicas q).dds.log.pendingCommit = [] := by
  have hF := Flow.of_reachable h
  have hL := Live.of_reachable hcfg h
  have hO : cfg.protocolType ≠ .threeJane → Once cfg c.net := fun hp =>
    Once.of_reachable hp hcfg.pool_nodup h
  refine ⟨fun p cmd hcmd => ?_, fun q hqp => hL.pendingCommit hcfg hF hO hq hqp⟩
  have hused : c.net.used cmd.id := ⟨p, cmd, hcmd, rfl⟩
  have hp : cmd.id.pid = p := (hF.sound p).announced_pid cmd hcmd
  refine ⟨hp ▸ hL.decided hcfg hF hO hq hused, fun q hqp => ?_⟩
  refine ((hF.log_inv q).toCore.stable_or_pending
    (hL.committed hcfg hF hO hq hused hqp)).resolve_right fun hpend => ?_
  rw [hL.pendingCommit hcfg hF hO hq hqp] at hpend
  cases hpend

/-- Two EPaxos replicas; the first reply is a quorum, and the slow path decides. -/
theorem quiescent_stable_two :
    let cfg : Config := .standard .epaxos [0, 1]
    let a : Command := ⟨⟨0, 1⟩, 7⟩
    ∃ c, Cluster.Reachable cfg c ∧ a ∈ (c.replicas 0).announced ∧
      a.id ∈ (c.replicas 1).dds.log.stable ∧ (c.replicas 1).dds.log.pendingCommit = [] := by
  intro cfg a
  let run : List Action := decidedByTwo a
  have hrun : (Cluster.execute cfg (fun _ _ => true) run).any (fun c =>
      decide (c.network = [] ∧ a ∈ (c.replicas 0).announced)) = true := by decide +kernel
  obtain ⟨c, hc, hd⟩ := (Option.any_eq_true _ _).mp hrun
  obtain ⟨hq, ha⟩ := of_decide_eq_true hd
  have hreach := Cluster.reachable_execute (fun (_ : Cluster) (_ : Action) _ => True.intro) hc
  have hall := quiescent_stable cfg (.inl ⟨.inl ⟨rfl, by decide, rfl⟩, by decide⟩) c hreach hq
  exact ⟨c, hreach, ha, (hall.1 0 a ha).2 1 (by decide), hall.2 1 (by decide)⟩

end Blsmr
