import Blsmr.Quorum.Chosen
import Blsmr.Replica.Announce

/-!
# Contacting a grid quorum

A 3Jane coordinator sends a command to a quorum its grid chooses. The chosen processes are
a minimal quorum (`chosen_quorum_minimal`), so that the coordinator is ready with the last
of their replies and not before.
-/

namespace Blsmr

namespace QuorumSystem

theorem after_snoc (self : QuorumSystem) (earlier : List Randomness) (rng : Randomness) :
    self.after (earlier ++ [rng]) = ((self.after earlier).chooseRandomQuorum rng).1 := by
  unfold after
  rw [List.foldl_append, List.foldl_cons, List.foldl_nil]

theorem isQuorum_after (self : QuorumSystem) (earlier : List Randomness) (pids : List Pid) :
    (self.after earlier).isQuorum pids = self.isQuorum pids := by
  induction earlier using List.reverseRecOn with
  | nil => rfl
  | append_singleton earlier rng ih => rw [after_snoc, isQuorum_chooseRandomQuorum, ih]

/-- A quorum without repetitions of which no proper part is a quorum. -/
structure MinimalQuorum (qs : QuorumSystem) (quorum : List Pid) : Prop where
  nodup : quorum.Nodup
  accepted : qs.isQuorum quorum = true
  minimal : ∀ pids, pids ⊆ quorum → ¬ quorum ⊆ pids → qs.isQuorum pids = false

end QuorumSystem

namespace DDS

/-- What a 3Jane coordinator keeps: its quorum system as earlier choices left it, and no
force timers. -/
structure Grounded (cfg : Config) (d : DDS) : Prop where
  bqs : ∃ earlier, d.bqs = cfg.quorumSystem.after earlier
  timers : d.announceForceTimers = ∅

section

variable {cfg : Config} {me : Pid} {d d' start : DDS} {e : Event} {status : AnnounceStatus}
  {cmdId : CmdId} {replies : List Res} {out : List QuorumReady}

theorem Grounded.announce (hp : cfg.protocolType = .threeJane) (h : Grounded cfg d) (env : Env)
    (cmd : Command) : Grounded cfg (d.announce cfg env cmd).1 := by
  obtain ⟨earlier, hb⟩ := h.bqs
  unfold DDS.announce sendAnnounce prepareAnnounce
  rw [hp]
  refine ⟨⟨earlier ++ [env.rng], ?_⟩, h.timers⟩
  rw [QuorumSystem.after_snoc, ← hb]

theorem Grounded.handle (hp : cfg.protocolType = .threeJane) (h : Grounded cfg d)
    (hs : d.handle cfg me e = some (d', status)) : Grounded cfg d' := by
  cases e with
  | announce env cmd =>
    simp only [DDS.handle, Option.some.injEq, Prod.mk.injEq] at hs
    exact hs.1 ▸ h.announce hp env cmd
  | timer id =>
    obtain ⟨cmdId, hid, -⟩ := handle_timer hs
    rw [h.timers] at hid
    cases hid
  | deliver env src msg =>
    by_cases hmsg : ∃ res, msg = .res res
    · obtain ⟨res, rfl⟩ := hmsg
      cases hq : d.pendingAnnounceQuorums.lookup res.id with
      | none =>
        rw [handle_straggler hq] at hs
        cases hs
        exact h
      | some quorum =>
        cases hr : d.isReady cfg (quorum ++ [res]) with
        | false =>
          rw [handle_kept hq hr] at hs
          cases hs
          exact ⟨h.bqs, h.timers⟩
        | true =>
          rw [handle_ready hq hr] at hs
          obtain ⟨fast, -, hs⟩ := Option.map_eq_some_iff.mp hs
          cases hs
          exact ⟨h.bqs, h.timers⟩
    · obtain ⟨-, ht, hb, -⟩ := handle_other (fun res heq => hmsg ⟨res, heq⟩) hs
      exact ⟨hb ▸ h.bqs, ht ▸ h.timers⟩

theorem grounded_of_reachable (hp : cfg.protocolType = .threeJane)
    (h : Transition.Reachable (DDS.step cfg me) (.default cfg) (fun _ _ => True) d) :
    Grounded cfg d := by
  refine h.invariant ⟨⟨[], rfl⟩, rfl⟩ fun d e d' _ _ hd hs => ?_
  obtain ⟨⟨d'', status⟩, hh, rfl⟩ := Option.map_eq_some_iff.mp hs
  exact hd.handle hp hh

theorem Collecting.grounded (hp : cfg.protocolType = .threeJane) (hstart : Grounded cfg start)
    (h : Collecting cfg me cmdId start replies out d) : Grounded cfg d := by
  induction h with
  | start => exact hstart
  | event _ _ hs ih => exact ih.handle hp hs

/-- **The replies are handed over** with the first that makes a quorum. -/
theorem Collecting.quorum {env : Env} {cmd : Command} (hp : cfg.protocolType = .threeJane)
    (hstart : Transition.Reachable (DDS.step cfg me) (.default cfg) (fun _ _ => True) start)
    (h : Collecting cfg me cmd.id (start.announce cfg env cmd).1 replies out d) :
    UntilFull cfg (fun quorum => cfg.quorumSystem.isQuorum (quorum.map Res.pid)) cmd.id replies
      out d := by
  have hpending : (start.announce cfg env cmd).1.pendingAnnounceQuorums =
      start.pendingAnnounceQuorums.insert cmd.id [] := announce_pending cmd
  have hground := (grounded_of_reachable hp hstart).announce hp env cmd
  refine h.untilFull ((keyed_of_reachable hstart).insert (by simp) hpending)
    (by rw [hpending, AList.lookup_insert]) (fun _ _ d quorum hc => ?_)
    fun _ _ d id hc _ hid => ?_
  · obtain ⟨earlier, hb⟩ := (hc.grounded hp hground).bqs
    unfold isReady isQuorum
    rw [hp, hb]
    exact QuorumSystem.isQuorum_after _ _ _
  · rw [(hc.grounded hp hground).timers] at hid
    cases hid

/-- When only all of the contacted members make a quorum, the replies are handed over once
all of them have answered. -/
theorem UntilFull.length_eq {qs : QuorumSystem} {chosen : List Pid} (hne : chosen ≠ [])
    (hiff : ∀ as, as ⊆ chosen → (qs.isQuorum as = true ↔ chosen ⊆ as))
    (hfrom : ∀ res ∈ replies, res.pid ∈ chosen)
    (h : UntilFull cfg (fun quorum => qs.isQuorum (quorum.map Res.pid)) cmdId replies out d) :
    out.length = if chosen ⊆ replies.map Res.pid then 1 else 0 := by
  have hquorum : ∀ quorum, quorum ⊆ replies →
      (qs.isQuorum (quorum.map Res.pid) = true ↔ chosen ⊆ quorum.map Res.pid) :=
    fun quorum hsub => hiff _ fun p hp => by
      obtain ⟨res, hres, rfl⟩ := List.mem_map.mp hp
      exact hfrom res (hsub hres)
  rcases h with ⟨hnot, -, rfl⟩ | ⟨pre, res, post, fast, rfl, hyes, -, -, -, rfl⟩
  · refine (if_neg fun hall => ?_).symm
    cases replies with
    | nil => exact hne (List.subset_nil.mp hall)
    | cons res rest =>
      have hno : qs.isQuorum ((res :: rest).map Res.pid) = false :=
        hnot _ (List.cons_ne_nil res rest) (List.prefix_refl _)
      rw [(hquorum _ (List.Subset.refl _)).mpr hall] at hno
      cases hno
  · refine (if_pos ?_).symm
    have hsub : pre ++ [res] ⊆ pre ++ res :: post := by
      rw [List.append_cons pre res post]
      exact List.subset_append_left _ post
    exact List.Subset.trans ((hquorum _ hsub).mp hyes) (List.map_subset _ hsub)

theorem announce_sends {env : Env} (hp : cfg.protocolType = .threeJane) {qs : QuorumSystem}
    (hb : start.bqs = qs) (cmd : Command) : (start.announce cfg env cmd).2 =
      (qs.chooseRandomQuorum env.rng).2.map fun pid => (pid, .req cmd) := by
  unfold DDS.announce DDS.sendAnnounce DDS.prepareAnnounce
  rw [hp]
  simp only [hb]

end

end DDS

section

variable {k : ℕ} {sqrtCeil : ℕ → ℕ} {pids : List Pid} {faults : ℕ}

variable (faults) in
open Grid.QuorumSystem in
theorem QuorumSystem.chosen_spec (hk : 1 ≤ k) (hleast : ∀ y, k ≤ 2 * y * y → sqrtCeil k ≤ y)
    (hnd : pids.Nodup) (hlen : pids.length = k * k) :
    ∃ qs, QuorumSystem.newWitnessingGridWithFaults sqrtCeil pids faults = some qs ∧
      ∀ earlier rng, let chosen := ((qs.after earlier).chooseRandomQuorum rng).2
        chosen.length = sqrtCeil k * k + sqrtCeil k * (k - sqrtCeil k) ∧ chosen.Nodup ∧
          chosen ⊆ pids ∧ ∀ as, as ⊆ chosen → (qs.isQuorum as = true ↔ chosen ⊆ as) := by
  obtain ⟨grid, hg, hflat, rfl, hxg, -⟩ := @withFaults_spec sqrtCeil pids k hlen faults
  refine ⟨.witnessGrid grid, Option.map_eq_some_iff.mpr ⟨grid, hg, rfl⟩, fun earlier rng => ?_⟩
  have hx : grid.x ≤ grid.n := hxg ▸ le_of_least hk hleast
  have hndg : grid.flattenGrid.Nodup := hflat ▸ hnd
  obtain ⟨rows, cols, hr, hc, hrx, hcx, he⟩ :=
    chosen_crossCells grid earlier rng (withFaults_indices hg ▸ List.Perm.refl _) hx
  rw [he, ← hxg]
  refine ⟨?_, nodup_crossCells hndg hr hc, fun p hp => ?_, fun as hsub =>
    isQuorum_crossCells_iff hndg hr hc hrx hcx hsub⟩
  · rw [length_crossCells hr, hrx, hcx]
  · obtain ⟨r, c, -, rfl⟩ := mem_crossCells.mp hp
    exact hflat ▸ cell_mem r c

/-- **A chosen grid quorum** is a minimal quorum of distinct members, and a 3Jane coordinator
that contacts it is ready exactly when all contacted have answered. -/
theorem chosen_quorum_minimal (k : ℕ) (hk : 1 ≤ k) (sqrtCeil : ℕ → ℕ)
    (hx : k ≤ 2 * sqrtCeil k * sqrtCeil k) (hleast : ∀ y, k ≤ 2 * y * y → sqrtCeil k ≤ y)
    (pids : List Pid) (hnd : pids.Nodup) (hlen : pids.length = k * k) (faults : ℕ) :
    ∃ qs, QuorumSystem.newWitnessingGridWithFaults sqrtCeil pids faults = some qs ∧
      (∀ earlier rng, let choice := (qs.after earlier).chooseRandomQuorum rng
        choice.2.length = sqrtCeil k * k + sqrtCeil k * (k - sqrtCeil k) ∧ choice.2 ⊆ pids ∧
          choice.1.MinimalQuorum choice.2) ∧
      ∀ (cfg : Config) (me : Pid) (env : Env) (cmd : Command) (start : DDS),
        cfg.protocolType = .threeJane → cfg.quorumSystem = qs →
        Transition.Reachable (DDS.step cfg me) (.default cfg) (fun _ _ => True) start →
        ∃ earlier, let chosen := ((qs.after earlier).chooseRandomQuorum env.rng).2
          (start.announce cfg env cmd).2 = chosen.map (fun pid => (pid, .req cmd)) ∧
          ∀ replies out d,
            DDS.Collecting cfg me cmd.id (start.announce cfg env cmd).1 replies out d →
            (∀ res ∈ replies, res.pid ∈ chosen) →
            out.length = (if chosen ⊆ replies.map Res.pid then 1 else 0) ∧
            ∀ env src res, (d.handle cfg me (.deliver env src (.res res))).isSome := by
  obtain ⟨qs, hqs, hchosen⟩ := QuorumSystem.chosen_spec faults hk hleast hnd hlen
  refine ⟨qs, hqs, fun earlier rng => ?_, fun cfg me env cmd start hp hcfg hstart => ?_⟩
  · obtain ⟨hl, hn, hsub, hiff⟩ := hchosen earlier rng
    have hsame : ∀ as, ((qs.after earlier).chooseRandomQuorum rng).1.isQuorum as =
        qs.isQuorum as := fun as => by
      rw [← QuorumSystem.after_snoc, QuorumSystem.isQuorum_after]
    refine ⟨hl, hsub, hn, ?_, fun as has hnot => ?_⟩
    · rw [hsame]
      exact (hiff _ (List.Subset.refl _)).mpr (List.Subset.refl _)
    · rw [hsame, Bool.eq_false_iff]
      exact fun hq => hnot ((hiff as has).mp hq)
  · subst hcfg
    obtain ⟨earlier, hb⟩ := (DDS.grounded_of_reachable hp hstart).bqs
    obtain ⟨hl, -, -, hiff⟩ := hchosen earlier env.rng
    refine ⟨earlier, DDS.announce_sends hp hb cmd, fun replies out d hc hfrom =>
      ⟨(hc.quorum hp hstart).length_eq (fun hnil => ?_) hiff hfrom,
        fun _ _ _ => DDS.handle_reply_isSome⟩⟩
    have hpos : 0 < sqrtCeil k := Nat.pos_of_ne_zero fun h0 => by
      rw [h0] at hx
      omega
    rw [hnil, List.length_nil] at hl
    have := Nat.mul_pos hpos hk
    omega

/-- The grid of side two: three cells, whichever row and column. -/
theorem chosen_quorum_minimal_two :
    ∃ qs, QuorumSystem.newWitnessingGridWithFaults (fun _ => 1) [10, 11, 12, 13] 1 = some qs ∧
      ∀ rng, (qs.chooseRandomQuorum rng).2.length = 3 ∧
        (qs.chooseRandomQuorum rng).1.MinimalQuorum (qs.chooseRandomQuorum rng).2 := by
  obtain ⟨qs, hqs, hchosen, -⟩ := chosen_quorum_minimal 2 (by decide) (fun _ => 1) (by decide)
    (fun y hy => Nat.pos_of_ne_zero fun h => by subst h; omega) [10, 11, 12, 13] (by decide) rfl 1
  exact ⟨qs, hqs, fun rng => ⟨(hchosen [] rng).1, (hchosen [] rng).2.2⟩⟩

end

end Blsmr
