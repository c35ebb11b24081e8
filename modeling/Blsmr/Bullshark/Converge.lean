import Blsmr.Bullshark.Addable
import Blsmr.Bullshark.Buffer
import Blsmr.Bullshark.Spread

/-!
# The DAGs converge

What a replica has received above its bound is in its DAG, unless it reaches a vertex that is
stranded in the buffer: one whose edges came to the DAG too late for it (`addable_left_behind`)
or were thrown away (`blocked_by_thrown`). With nothing in flight every replica has received
every vertex, so without stranded vertices the DAGs are the same (`dags_converge`).
-/

namespace Blsmr.Bullshark

open Blsmr.Transition Blsmr.Graph RoundBasedDAG

/-! ## What stays out of a DAG -/

/-- A vertex of the buffer that no further vertex of the buffer can help into the DAG: those
of its edges that lie above the bound have all been added. -/
def Stranded (s : Bullshark) (u : Vertex) : Prop :=
  u ∈ s.buffer ∧ s.dag.gcOffset < u.round ∧ ¬ s.dag.Has u ∧
    ∀ e ∈ u.strongEdges, s.dag.gcOffset < e.round → s.dag.Has e

section

variable {cfg : Config} {p : Pid} {created : List Vertex} {s : Bullshark} {v : Vertex}

/-- **What has arrived is in the DAG, or reaches a stranded vertex**. By induction on the
round: an edge that is missing lies in the buffer, like the vertex. -/
theorem Received.has_or_stranded (hR : Received created s) (hV : Vertices cfg.procNum created)
    (hall : ∀ u ∈ created, u ∈ s.history.received) (hv : v ∈ created)
    (hlt : s.dag.gcOffset < v.round) : s.dag.Has v ∨ ∃ u, v.Reaches u ∧ Stranded s u := by
  generalize hr : v.round = r
  induction r using Nat.strong_induction_on generalizing v with
  | _ r ih =>
    by_cases hhas : s.dag.Has v
    · exact .inl hhas
    have hbuffer : v ∈ s.buffer := by
      rcases (hR.received v (hall v hv)).2 with hin | hthrown | hheld | hbelow
      · exact hin
      · have := (hR.thrown v hthrown).2.1
        omega
      · exact absurd hheld hhas
      · omega
    by_cases hedges : ∀ e ∈ v.strongEdges, s.dag.gcOffset < e.round → s.dag.Has e
    · exact .inr ⟨v, .refl _ _, hbuffer, hlt, hhas, hedges⟩
    · push Not at hedges
      obtain ⟨e, he, hle, hno⟩ := hedges
      obtain ⟨hmem, hround⟩ := hV.edge v hv e he
      obtain ⟨u, hu, hs⟩ := (ih e.round (by omega) hmem hle rfl).resolve_left hno
      exact .inr ⟨u, hu.head he, hs⟩

/-- **A DAG holds the vertices that reach no stranded one.** -/
theorem Received.has_iff (hR : Received created s) (hV : Vertices cfg.procNum created)
    (hd : Causal cfg.procNum created s.dag) (hall : ∀ u ∈ created, u ∈ s.history.received)
    (hv : v ∈ created) (hlt : s.dag.gcOffset < v.round) :
    s.dag.Has v ↔ ∀ u, v.Reaches u → ¬ Stranded s u := by
  constructor
  · intro hhas u hu hs
    exact hs.2.2.1 ((hd.linked hV).has_of_reaches hhas hu hs.2.1.le)
  · intro hnone
    refine (hR.has_or_stranded hV hall hv hlt).resolve_right fun ⟨u, hu, hs⟩ => ?_
    exact hnone u hu hs

theorem Invariant.stored {c : System} (hI : Invariant cfg c) {r : ℕ} {q : Pid}
    (h : (c.replicas p).dag.vertexAt r q = some v) :
    v ∈ c.shared.created ∧ v.round = r ∧ v.source = q := by
  by_cases hp : p ∈ c.started
  · exact (hI.sound p hp).dag.stored r q v h
  · rw [hI.idle p hp] at h
    exact absurd ((causal_default 0 []).stored r q v h).1 List.not_mem_nil

end

/-- **The DAGs converge.** With nothing in flight every replica has received every vertex
that was created, and its DAG holds those above its bound that do not reach a stranded
vertex. Replicas without stranded vertices have the same DAG above their bounds. -/
theorem dags_converge (cfg : Config) (c : System) (h : c.Reachable cfg)
    (hquiet : c.network = []) :
    (∀ p ∈ cfg.pool, ∀ v ∈ c.shared.created, v ∈ (c.replicas p).history.received ∧
      ((c.replicas p).dag.gcOffset < v.round →
        ((c.replicas p).dag.Has v ↔ ∀ u, v.Reaches u → ¬ Stranded (c.replicas p) u))) ∧
      ∀ p ∈ cfg.pool, ∀ q ∈ cfg.pool, (∀ u, ¬ Stranded (c.replicas p) u) →
        (∀ u, ¬ Stranded (c.replicas q) u) → ∀ round source,
        (c.replicas p).dag.gcOffset < round → (c.replicas q).dag.gcOffset < round →
          (c.replicas p).dag.vertexAt round source =
            (c.replicas q).dag.vertexAt round source := by
  have hI := Invariant.of_reachable h
  have hall : ∀ p ∈ cfg.pool, ∀ v ∈ c.shared.created, v ∈ (c.replicas p).history.received :=
    fun p hp v hv => (Spread.of_reachable h).received hI hquiet hp hv
  have hstarted : ∀ p ∈ cfg.pool, ∀ v ∈ c.shared.created, p ∈ c.started := fun p hp v hv => by
    by_contra hp'
    have hin := hall p hp v hv
    rw [hI.idle p hp'] at hin
    cases hin
  have hhas : ∀ p ∈ cfg.pool, ∀ v ∈ c.shared.created, (c.replicas p).dag.gcOffset < v.round →
      ((c.replicas p).dag.Has v ↔ ∀ u, v.Reaches u → ¬ Stranded (c.replicas p) u) :=
    fun p hp v hv hlt => (Received.of_reachable h p).has_iff hI.vertices
      (hI.sound p (hstarted p hp v hv)).dag (hall p hp) hv hlt
  refine ⟨fun p hp v hv => ⟨hall p hp v hv, hhas p hp v hv⟩, ?_⟩
  intro p hp q hq hnp hnq r s hlp hlq
  have hmove : ∀ {p q : Pid}, q ∈ cfg.pool → (∀ u, ¬ Stranded (c.replicas q) u) →
      (c.replicas q).dag.gcOffset < r → ∀ {v : Vertex},
      (c.replicas p).dag.vertexAt r s = some v → (c.replicas q).dag.vertexAt r s = some v := by
    intro p q hq hnone hlt v hv
    obtain ⟨hmem, rfl, rfl⟩ := hI.stored hv
    exact (hhas q hq v hmem hlt).mpr fun u _ => hnone u
  exact Option.ext fun v => ⟨hmove hq hnq hlq, hmove hp hnp hlp⟩

/-- Three replicas, whose leader of round 2 does not exist: when everything has been delivered
they wait for their timers, with one DAG. -/
theorem dags_converge_three : ∃ c : System, c.Reachable ⟨3, 0⟩ ∧ c.network = [] ∧
    c.shared.created.length = 12 ∧ ∀ round source, 0 < round →
      (c.replicas 0).dag.vertexAt round source = (c.replicas 2).dag.vertexAt round source := by
  let cfg : Config := ⟨3, 0⟩
  let phases : List Phase := [.start cfg, .deliver (fun _ => true) 400]
  have hrun : (run cfg phases System.init).any (fun c =>
      c.network.isEmpty && decide (c.shared.created.length = 12) &&
        [0, 2].all fun p => (c.replicas p).buffer.isEmpty &&
          decide ((c.replicas p).dag.gcOffset = 0)) = true := by
    decide +kernel
  obtain ⟨c, hc, hd⟩ := (Option.any_eq_true _ _).mp hrun
  simp only [Bool.and_eq_true, List.isEmpty_iff, decide_eq_true_eq, List.all_cons,
    List.all_nil, and_true] at hd
  obtain ⟨⟨hquiet, hlength⟩, ⟨hbuffer, hoffset⟩, hbuffer', hoffset'⟩ := hd
  have hreach := reachable_run .init hc
  have hnone : ∀ {s : Bullshark}, s.buffer = [] → ∀ u, ¬ Stranded s u := fun h u hu => by
    rw [Stranded, h] at hu
    exact List.not_mem_nil hu.1
  refine ⟨c, hreach, hquiet, hlength, fun round source hlt => ?_⟩
  exact (dags_converge cfg c hreach hquiet).2 0 (by decide) 2 (by decide) (hnone hbuffer)
    (hnone hbuffer') round source (by omega) (by omega)

end Blsmr.Bullshark
