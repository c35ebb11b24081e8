import Blsmr.Bullshark.Runs

/-!
# No walk passes a directly committed anchor

What a replica has counted is a vertex with so many edges to vertices with an edge to
the anchor, and what it has found in its walks is what can be reached (`Noted`). With
`f + 1` votes the anchor is reached from every later vertex, so every walk that comes by
pushes it (`never_walks_past`).
-/

namespace Blsmr.Bullshark

open Blsmr.Graph RoundBasedDAG

/-- The votes of a vertex for an anchor two rounds below. -/
structure Counted (n : ℕ) (created : List Vertex) (x : Count) : Prop where
  vertex_mem : x.vertex ∈ created
  anchor_mem : x.anchor ∈ created
  round : x.vertex.round = x.anchor.round + 2
  source : x.anchor.source = leader n x.anchor.round
  votes : x.votes = (Bullshark.votes x.anchor x.vertex.strongEdges).length

structure Noted (n : ℕ) (created : List Vertex) (s : Bullshark) : Prop where
  counts : ∀ x ∈ s.history.counts, Counted n created x
  visits : ∀ x ∈ s.history.visits, Faithful n created x

section

variable {cfg : Config} {me : Pid} {w w' : Work} {n : ℕ} {created created' : List Vertex}

theorem Counted.mono (h : created ⊆ created') {x : Count} (hx : Counted n created x) :
    Counted n created' x :=
  ⟨h hx.vertex_mem, h hx.anchor_mem, hx.round, hx.source, hx.votes⟩

theorem Faithful.mono (h : created ⊆ created') {x : Visit} (hx : Faithful n created x) :
    Faithful n created' x :=
  ⟨h hx.anchor_mem, hx.round, hx.pushes⟩

theorem Noted.mono (h : created ⊆ created') {s : Bullshark} (hs : Noted n created s) :
    Noted n created' s :=
  ⟨fun x hx => (hs.counts x hx).mono h, fun x hx => (hs.visits x hx).mono h⟩

theorem Noted.move (hG : Good cfg me w) (h : Move cfg me w w')
    (hN : Noted cfg.procNum w.shared.created w.state) :
    Noted cfg.procNum w'.shared.created w'.state := by
  cases h with
  | @advance vertex =>
    have hN' := hN.mono (List.subset_cons_self vertex _)
    exact ⟨hN'.counts, hN'.visits⟩
  | count hmem hanchor hround _ hsource =>
    refine ⟨List.forall_mem_cons.mpr ⟨?_, hN.counts⟩, hN.visits⟩
    exact ⟨hmem, hG.sound.dag.mem hanchor, hround, hsource, rfl⟩
  | order _ _ _ _ hcommit =>
    obtain ⟨visits, hvisits, hfaithful⟩ := hcommit.visits
    refine ⟨?_, ?_⟩
    · simp only [hcommit.counts]
      exact hN.counts
    · simp only [hvisits]
      exact List.forall_mem_append.mpr ⟨hfaithful, hN.visits⟩
  | _ => exact ⟨hN.counts, hN.visits⟩

end

theorem Noted.of_reachable {cfg : Config} {c : System} (h : c.Reachable cfg) (p : Pid) :
    Noted cfg.procNum c.shared.created (c.replicas p) := by
  by_cases hp : p ∈ c.started
  · refine Invariant.replicas (P := fun _ created s => Noted cfg.procNum created s)
      (fun hsub hN => hN.mono hsub) (fun _ hh _ _ hN => ?_) (fun hnew => ?_)
      (fun hG hm hN => hN.move hG hm) h p hp
    · exact ⟨hh ▸ hN.counts, hh ▸ hN.visits⟩
    · refine ⟨?_, ?_⟩ <;>
      · rw [hnew.history]
        exact List.forall_mem_nil _
  · rw [(Invariant.of_reachable h).idle p hp]
    exact ⟨List.forall_mem_nil _, List.forall_mem_nil _⟩

/-- **No walk passes a directly committed anchor.** If a replica has counted `f + 1` votes
for the anchor of a round, every walk that comes to this round finds the anchor, reaches it
and pushes it. -/
theorem never_walks_past (f submitLimit : ℕ) (c : System)
    (h : c.Reachable ⟨3 * f + 1, submitLimit⟩) (p q : Pid) (x : Count)
    (hx : x ∈ (c.replicas p).history.counts) (hvotes : f + 1 ≤ x.votes) (y : Visit)
    (hy : y ∈ (c.replicas q).history.visits) (hround : y.round = x.anchor.round) :
    y.found = some x.anchor ∧ y.linked = true ∧ y.pushed = [x.anchor] := by
  have hV := (Invariant.of_reachable h).vertices
  have hC := (Noted.of_reachable h p).counts x hx
  have hF := (Noted.of_reachable h q).visits y hy
  have hS : Supported (3 * f + 1) c.shared.created x.anchor x.vertex := by
    refine ⟨hC.anchor_mem, hC.vertex_mem, hC.round, ?_⟩
    rw [← hC.votes]
    unfold directCommitThreshold adversaryThreshold
    omega
  have hge : x.vertex.round ≤ y.anchor.round := by
    have := hC.round
    have := hF.round
    omega
  have hreach := hS.reaches rfl hV hF.anchor_mem hge
  exact hF.pushes x.anchor hround.symm (hround ▸ hC.source) hreach

/-- Replicas 0 to 4 go on to round 10 without replica 5. It gets their vertices up to
round 3, and is the leader of round 4: its own vertex makes it commit the anchor of round
2, which the others only walk back to. -/
def overtakenLeader (cfg : Config) : List Phase :=
  let among := Phase.deliver fun x => decide (x.src < 5) && decide (x.dst < 5)
  [.start cfg, among 400,
    (Phase.deliver (fun x => x.dst == 5) 400).until fun c => 4 ≤ (c.replicas 5).round,
    .timeout 5 20, among 400, .timeout 5 20,
    (among 400).until fun c => 8 ≤ (c.replicas 4).lastOrderedRound]

/-- Replica 5 has counted five votes for the anchor of round 2, which replica 4 finds
later. -/
theorem never_walks_past_seven : ∃ (c : System) (x : Count) (y : Visit),
    c.Reachable ⟨7, 0⟩ ∧ x ∈ (c.replicas 5).history.counts ∧ 3 ≤ x.votes ∧
      y ∈ (c.replicas 4).history.visits ∧ y.round = x.anchor.round ∧
      y.found = some x.anchor ∧ y.linked = true ∧ y.pushed = [x.anchor] := by
  let cfg : Config := ⟨7, 0⟩
  have hrun : (run cfg (overtakenLeader cfg) System.init).any (fun c =>
      (c.replicas 5).history.counts.any fun x => decide (3 ≤ x.votes) &&
        (c.replicas 4).history.visits.any fun y => decide (y.round = x.anchor.round)) = true := by
    decide +kernel
  obtain ⟨c, hc, hd⟩ := (Option.any_eq_true _ _).mp hrun
  simp only [List.any_eq_true, Bool.and_eq_true, decide_eq_true_eq] at hd
  obtain ⟨x, hx, hvotes, y, hy, hround⟩ := hd
  have hreach := reachable_run .init hc
  exact ⟨c, x, y, hreach, hx, hvotes, hy, hround,
    never_walks_past 2 0 c hreach 5 4 x hx hvotes y hy hround⟩

end Blsmr.Bullshark
