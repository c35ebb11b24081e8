import Blsmr.Quorum.System

/-!
# Quorum sizes

The sizes the protocols compute from the number of processes, and their
intersections. `new_dissemination`, Bullshark and the consistent broadcast all
arrive at `2 * ((n - 1) / 3) + 1`, HotStuff at `2 * n / 3 + 1`. The first is
enough exactly when `n` leaves remainder one modulo three
(`quorums_intersect_iff`); the second is enough for every `n`
(`hotstuff_overlap`). The processes that are left when the tolerated number of
others is silent are always enough for `new_dissemination`, and for
`new_witnessing` with some remainders only (`quorums_available_iff`).
-/

namespace Blsmr

/-! ## The formulas -/

namespace Bullshark

def adversaryThreshold (procNum : ℕ) : ℕ := (procNum - 1) / 3

def quorumSize (procNum : ℕ) : ℕ := 2 * adversaryThreshold procNum + 1

def directCommitThreshold (procNum : ℕ) : ℕ := adversaryThreshold procNum + 1

end Bullshark

namespace ByzantineConsistentBroadcast

def quorumSize (procNum : ℕ) : ℕ := 2 * ((procNum - 1) / 3) + 1

end ByzantineConsistentBroadcast

namespace Hotstuff

/-- `n` is the size of `HOTSTUFF_POOL`. -/
def quorumSize (n : ℕ) : ℕ := n * 2 / 3 + 1

end Hotstuff

/-! ## Intersections -/

/-- A list of distinct members of `pids`. -/
structure MemberSet (pids as : List Pid) : Prop where
  nodup : as.Nodup
  subset : as ⊆ pids

/-- Any two sets of members of which one meets `rule` and the other `rule'`
share at least `t` members. -/
def Overlap (pids : List Pid) (rule rule' : List Pid → Prop) (t : ℕ) : Prop :=
  ∀ as bs, MemberSet pids as → MemberSet pids bs → rule as → rule' bs →
    t ≤ (as.filter (· ∈ bs)).length

theorem overlap_length_iff {pids : List Pid} (hnd : pids.Nodup) {rule rule' : List Pid → Prop}
    {q q' t : ℕ} (hr : ∀ as, rule as ↔ q ≤ as.length) (hr' : ∀ as, rule' as ↔ q' ≤ as.length)
    (hq : q ≤ pids.length) (hq' : q' ≤ pids.length) (ht : 0 < t) :
    Overlap pids rule rule' t ↔ t + pids.length ≤ q + q' := by
  have hcard : pids.toFinset.card = pids.length := List.toFinset_card_of_nodup hnd
  rw [← hcard, ← Counting.overlap_iff (by rwa [hcard]) (by rwa [hcard]) ht]
  constructor
  · intro h A B hA hB hAq hBq
    have := h A.toList B.toList
      ⟨A.nodup_toList, fun x hx => List.mem_toFinset.mp (hA (Finset.mem_toList.mp hx))⟩
      ⟨B.nodup_toList, fun x hx => List.mem_toFinset.mp (hB (Finset.mem_toList.mp hx))⟩
      ((hr _).mpr (by simpa using hAq)) ((hr' _).mpr (by simpa using hBq))
    rwa [← List.toFinset_card_of_nodup (A.nodup_toList.filter _), List.toFinset_filter,
      Finset.toList_toFinset, Finset.filter_congr fun x _ => by
        rw [decide_eq_true_iff, Finset.mem_toList], Finset.filter_mem_eq_inter] at this
  · intro h as bs has hbs hra hrb
    have := h as.toFinset bs.toFinset
      (fun x hx => List.mem_toFinset.mpr (has.subset (List.mem_toFinset.mp hx)))
      (fun x hx => List.mem_toFinset.mpr (hbs.subset (List.mem_toFinset.mp hx)))
      (by rw [List.toFinset_card_of_nodup has.nodup]; exact (hr _).mp hra)
      (by rw [List.toFinset_card_of_nodup hbs.nodup]; exact (hr' _).mp hrb)
    rwa [← List.toFinset_card_of_nodup (has.nodup.filter _), List.toFinset_filter,
      Finset.filter_congr fun x _ => by rw [decide_eq_true_iff, ← List.mem_toFinset],
      Finset.filter_mem_eq_inter]

theorem hotstuff_overlap {pids : List Pid} (hnd : pids.Nodup) (hn : 1 ≤ pids.length) :
    Overlap pids (fun as => Hotstuff.quorumSize pids.length ≤ as.length)
      (fun as => Hotstuff.quorumSize pids.length ≤ as.length) ((pids.length - 1) / 3 + 1) := by
  refine (overlap_length_iff hnd (fun _ => Iff.rfl) (fun _ => Iff.rfl) ?_ ?_ (by omega)).mpr ?_ <;>
    unfold Hotstuff.quorumSize <;> omega

theorem isQuorum_newDissemination (pids as : List Pid) :
    (QuorumSystem.newDissemination pids).isQuorum as = true ↔
      2 * ((pids.length - 1) / 3) + 1 ≤ as.length := by
  show decide (as.length ≥ 2 * ((pids.length - 1) / 3) + 2 - 1) = true ↔ _
  rw [decide_eq_true_iff]
  omega

/-- The intersections the protocols rely on: any two quorums of one rule share a
process that is not faulty, and a Bullshark quorum meets every directly
committing set. -/
structure QuorumsIntersect (pids : List Pid) : Prop where
  dissemination : Overlap pids (fun as => (QuorumSystem.newDissemination pids).isQuorum as = true)
    (fun as => (QuorumSystem.newDissemination pids).isQuorum as = true) ((pids.length - 1) / 3 + 1)
  bullshark : Overlap pids (fun as => Bullshark.quorumSize pids.length ≤ as.length)
    (fun as => Bullshark.quorumSize pids.length ≤ as.length) ((pids.length - 1) / 3 + 1)
  broadcast : Overlap pids
    (fun as => ByzantineConsistentBroadcast.quorumSize pids.length ≤ as.length)
    (fun as => ByzantineConsistentBroadcast.quorumSize pids.length ≤ as.length)
    ((pids.length - 1) / 3 + 1)
  hotstuff : Overlap pids (fun as => Hotstuff.quorumSize pids.length ≤ as.length)
    (fun as => Hotstuff.quorumSize pids.length ≤ as.length) ((pids.length - 1) / 3 + 1)
  directCommit : Overlap pids (fun as => Bullshark.quorumSize pids.length ≤ as.length)
    (fun as => Bullshark.directCommitThreshold pids.length ≤ as.length) 1

/-- **The quorums intersect** exactly when the number of processes is `3f + 1`. -/
theorem quorums_intersect_iff (pids : List Pid) (hnd : pids.Nodup) (hn : 1 ≤ pids.length) :
    QuorumsIntersect pids ↔ pids.length % 3 = 1 := by
  have hdis : Overlap pids _ _ ((pids.length - 1) / 3 + 1) ↔ _ :=
    overlap_length_iff hnd (isQuorum_newDissemination pids) (isQuorum_newDissemination pids)
      (by omega) (by omega) (by omega)
  have hbs : Overlap pids (fun as => Bullshark.quorumSize pids.length ≤ as.length)
      (fun as => Bullshark.quorumSize pids.length ≤ as.length) ((pids.length - 1) / 3 + 1) ↔ _ :=
    overlap_length_iff hnd (fun _ => Iff.rfl) (fun _ => Iff.rfl)
      (by unfold Bullshark.quorumSize Bullshark.adversaryThreshold; omega)
      (by unfold Bullshark.quorumSize Bullshark.adversaryThreshold; omega) (by omega)
  have hdc : Overlap pids (fun as => Bullshark.quorumSize pids.length ≤ as.length)
      (fun as => Bullshark.directCommitThreshold pids.length ≤ as.length) 1 ↔ _ :=
    overlap_length_iff hnd (fun _ => Iff.rfl) (fun _ => Iff.rfl)
      (by unfold Bullshark.quorumSize Bullshark.adversaryThreshold; omega)
      (by unfold Bullshark.directCommitThreshold Bullshark.adversaryThreshold; omega) (by omega)
  have hbc : Overlap pids
      (fun as => ByzantineConsistentBroadcast.quorumSize pids.length ≤ as.length)
      (fun as => ByzantineConsistentBroadcast.quorumSize pids.length ≤ as.length)
      ((pids.length - 1) / 3 + 1) ↔ _ :=
    overlap_length_iff hnd (fun _ => Iff.rfl) (fun _ => Iff.rfl)
      (by unfold ByzantineConsistentBroadcast.quorumSize; omega)
      (by unfold ByzantineConsistentBroadcast.quorumSize; omega) (by omega)
  constructor
  · intro h
    have := hdis.mp h.dissemination
    omega
  · intro h
    refine ⟨hdis.mpr (by omega), hbs.mpr ?_, hbc.mpr ?_, hotstuff_overlap hnd hn, hdc.mpr ?_⟩
    · unfold Bullshark.quorumSize Bullshark.adversaryThreshold; omega
    · unfold ByzantineConsistentBroadcast.quorumSize; omega
    · unfold Bullshark.quorumSize Bullshark.directCommitThreshold Bullshark.adversaryThreshold
      omega

/-- Four processes. -/
theorem quorums_intersect_four : QuorumsIntersect [0, 1, 2, 3] :=
  (quorums_intersect_iff [0, 1, 2, 3] (by decide) (by decide)).mpr (by decide)

/-- Among six processes two disjoint sets of three are both quorums. -/
theorem six_quorums_disjoint :
    ¬ ∀ pids : List Pid, pids.Nodup → 1 ≤ pids.length → QuorumsIntersect pids := by
  intro h
  have hov := (h [0, 1, 2, 3, 4, 5] (by decide) (by decide)).dissemination [0, 1, 2] [3, 4, 5]
    ⟨by decide, by decide⟩ ⟨by decide, by decide⟩ (by decide) (by decide)
  exact absurd hov (by decide)

/-! ## Availability -/

/-- Whatever members are left without the tolerated number of processes are a quorum, and
so is whatever the system chooses. -/
structure Available (qs : QuorumSystem) (pids : List Pid) (divisor : ℕ) : Prop where
  rest : ∀ as, MemberSet pids as → as.length = pids.length - (pids.length - 1) / divisor →
    qs.isQuorum as = true
  chosen : ∀ rng, qs.isQuorum (qs.chooseRandomQuorum rng).2 = true

theorem isQuorum_threshold {qs : Thres.QuorumSystem} {as : List Pid} :
    (QuorumSystem.threshold qs).isQuorum as = true ↔ qs.size ≤ as.length := decide_eq_true_iff

theorem available_threshold_iff {pids : List Pid} (hnd : pids.Nodup) (f m : ℕ) :
    Available (.threshold (.new pids f m)) pids f ↔
      (Thres.QuorumSystem.new pids f m).size ≤ pids.length - (pids.length - 1) / f := by
  constructor
  · intro h
    have hlen : (pids.take (pids.length - (pids.length - 1) / f)).length =
        pids.length - (pids.length - 1) / f := by
      rw [List.length_take, Nat.min_eq_left (Nat.sub_le _ _)]
    rw [← hlen]
    exact isQuorum_threshold.mp (h.rest _
      ⟨hnd.sublist (List.take_sublist _ _), List.take_subset _ _⟩ hlen)
  · intro h
    refine ⟨fun as _ hlen => isQuorum_threshold.mpr (hlen ▸ h), fun rng => ?_⟩
    -- the sample is cut short only where the size exceeds the number of processes
    refine isQuorum_threshold.mpr ?_
    rw [show ((QuorumSystem.threshold (.new pids f m)).chooseRandomQuorum rng).2.length =
      min (Thres.QuorumSystem.new pids f m).size pids.length from rng.sampling.length _ _]
    exact Nat.le_min.mpr ⟨Nat.le_refl _, h.trans (Nat.sub_le _ _)⟩

/-- **Which threshold quorums are available.** -/
theorem quorums_available_iff (pids : List Pid) (hnd : pids.Nodup) (hn : 1 ≤ pids.length) :
    Available (.newDissemination pids) pids 3 ∧
      (Available (.newWitnessing pids) pids 5 ↔ 2 ≤ (pids.length - 1) % 5) := by
  refine ⟨(available_threshold_iff hnd 3 2).mpr ?_, (available_threshold_iff hnd 5 4).trans ?_⟩ <;>
    unfold Thres.QuorumSystem.size Thres.QuorumSystem.new <;> simp only <;> omega

/-- Five processes. -/
theorem quorums_available_five :
    Available (.newDissemination [0, 1, 2, 3, 4]) [0, 1, 2, 3, 4] 3 ∧
      Available (.newWitnessing [0, 1, 2, 3, 4]) [0, 1, 2, 3, 4] 5 :=
  have h := quorums_available_iff [0, 1, 2, 3, 4] (by decide) (by decide)
  ⟨h.1, h.2.mpr (by decide)⟩

/-- Among six processes five are not enough for `new_witnessing`, nor are all six. -/
theorem six_witnessing_unavailable :
    ¬ (∀ pids : List Pid, pids.Nodup → 1 ≤ pids.length →
      ∀ as, MemberSet pids as → as.length = pids.length - (pids.length - 1) / 5 →
        (QuorumSystem.newWitnessing pids).isQuorum as = true) ∧
    ¬ ∀ pids : List Pid, pids.Nodup → 1 ≤ pids.length → ∀ rng,
      (QuorumSystem.newWitnessing pids).isQuorum
        ((QuorumSystem.newWitnessing pids).chooseRandomQuorum rng).2 = true := by
  constructor
  · intro h
    exact absurd (h [0, 1, 2, 3, 4, 5] (by decide) (by decide) [0, 1, 2, 3, 4]
      ⟨by decide, by decide⟩ (by decide)) (by decide)
  · intro h
    let sampling : Thres.Sampling :=
      ⟨fun pids size => pids.take size, fun _ _ => (List.take_sublist _ _).subperm,
        fun _ _ => List.length_take⟩
    let keep : ∀ n, Grid.Shuffle n := fun _ => ⟨id, List.Perm.refl⟩
    exact absurd (h [0, 1, 2, 3, 4, 5] (by decide) (by decide) ⟨sampling, keep, keep⟩) (by decide)

end Blsmr
