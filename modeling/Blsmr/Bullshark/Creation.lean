import Blsmr.Bullshark.Agreement
import Blsmr.Bullshark.Calls

/-!
# The vertices of honest replicas

A replica goes on to the next round when its own has a quorum, or falls behind and jumps to the
round of a vertex whose row has one (`Calls`). In both cases the row below has a quorum: in the
second because the vertex has its edges to it, which are in the DAG. So every vertex created has
a quorum of edges and goes into the DAG of its replica at once, no replica creates two in a
round, and no replica takes one for a bad vertex (`honest_vertices`).
-/

namespace Blsmr.Bullshark

open Blsmr.Transition Blsmr.Graph RoundBasedDAG
open Broadcast (Packet)

/-- A replica creates its vertices in rising rounds; the newest comes first. -/
def Advancing (created : List Vertex) : Prop :=
  created.Pairwise fun newer older => newer.source = older.source → older.round < newer.round

/-- **What holds of the vertices that have been created.** -/
structure Honest (f : ℕ) (created : List Vertex) : Prop where
  advancing : Advancing created
  quorum : ∀ v ∈ created, 1 ≤ v.round → 2 * f + 1 ≤ v.strongEdges.length
  below : ∀ v ∈ created, ∀ u ∈ v.strongEdges, u ∈ created ∧ u.round + 1 = v.round
  distinct : ∀ v ∈ created, (v.strongEdges.map Vertex.source).Nodup

section

variable {cfg : Config} {me : Pid} {c c' base : System} {w w' : Work} {a : Action} {env : Env}
  {vertex : Vertex} {round f : ℕ} {created : List Vertex}

/-! ## Rising rounds -/

theorem Move.advancing (hG : Good cfg me w) (h : Move cfg me w w')
    (hA : Advancing w.shared.created) : Advancing w'.shared.created := by
  cases h with
  | advance hlt _ _ hsource =>
    refine List.pairwise_cons.mpr ⟨fun u hu hs => ?_, hA⟩
    exact (hG.sound.own u hu (hs.symm.trans hsource)).trans_lt hlt
  | _ => exact hA

theorem Moves.advancing (hG : Good cfg me w) (h : Moves cfg me w w')
    (hA : Advancing w.shared.created) : Advancing w'.shared.created := by
  induction h with
  | refl => exact hA
  | tail hms hm ih => exact Move.advancing (hG.moves hms) hm ih

theorem begins_advancing (hI : Invariant cfg c) (hb : Begins cfg c a me base w)
    (hA : Advancing c.shared.created) : Advancing w.shared.created := by
  cases hb with
  | start _ hs =>
    rw [setUp_created]
    refine List.pairwise_cons.mpr ⟨fun u hu hsource => ?_, hA⟩
    have hme : me = u.source := hsource
    exact absurd (hme ▸ hI.present u hu) hs
  | _ => exact hA

theorem Advancing.of_reachable (h : c.Reachable cfg) : Advancing c.shared.created := by
  have hinit : Advancing System.init.shared.created := List.Pairwise.nil
  refine h.invariant (I := fun c => Advancing c.shared.created) hinit fun c a c' hr _ hA hs => ?_
  have hI := Invariant.of_reachable hr
  obtain ⟨me, base, w, w', hb, hm, rfl⟩ := hI.step hs
  exact Moves.advancing (hI.opening hb).good hm (begins_advancing hI hb hA)

theorem Vertices.honest (hV : Vertices (3 * f + 1) created) (hA : Advancing created) :
    Honest f created where
  advancing := hA
  quorum v hv hle := by
    have hq := hV.quorum v hv (by omega)
    unfold quorumSize adversaryThreshold at hq
    omega
  below := hV.edge
  distinct := hV.distinct

end

/-- **Honest replicas create valid vertices only.** A replica creates its vertices in rounds
that rise, so one in a round at most; each above round 0 has edges to `2 * f + 1` vertices of
the round below, from different replicas. Where `broadcast_vertex` is called the new vertex
goes into the DAG at once, and every vertex above round 0 that a step creates comes from such
a call and is kept by its replica. No vertex that is handed out is taken for a bad one. -/
theorem honest_vertices (f submitLimit : ℕ) (c : System)
    (h : c.Reachable ⟨3 * f + 1, submitLimit⟩) :
    Honest f c.shared.created ∧
    (∀ a c', System.step ⟨3 * f + 1, submitLimit⟩ c a = some c' →
      ∀ v ∈ c'.shared.created, v ∉ c.shared.created → 1 ≤ v.round →
        Kept (c'.replicas v.source) v ∧ ∃ env base w w',
          env.cfg = ⟨3 * f + 1, submitLimit⟩ ∧ env.me = v.source ∧
          Begins ⟨3 * f + 1, submitLimit⟩ c a v.source base w ∧ Makes env v w w' ∧
          c' = base.update v.source w') ∧
    (∀ a me base w w', Begins ⟨3 * f + 1, submitLimit⟩ c a me base w →
      Moves ⟨3 * f + 1, submitLimit⟩ me w w' → Honest f w'.shared.created ∧
        ∀ (env : Env) (round : ℕ), env.cfg = ⟨3 * f + 1, submitLimit⟩ → env.me = me →
          Calls w' round → ∃ vertex w₁ w₂,
            createVertex env round (startTimer { w' with state := { w'.state with round } }) =
              some (vertex, w₁) ∧
            tryAddToDag env vertex w₁ = some (true, w₂) ∧ w₂.state.dag.Has vertex ∧
            broadcastVertex env round (startTimer { w' with state := { w'.state with round } }) =
              some (reliablyBroadcast env (.vertex vertex) w₂)) ∧
    ∀ (index : ℕ) (packet : Packet VertexMessage) (vertex : Vertex),
      c.network[index]? = some packet → packet.dst ∈ c.started →
      c.handed ⟨3 * f + 1, submitLimit⟩ packet = some (.vertex vertex) →
      (c.replicas packet.dst).badVertex vertex packet.src = false := by
  have hI := Invariant.of_reachable h
  have hA := Advancing.of_reachable h
  refine ⟨hI.vertices.honest hA, fun a c' hs v hv hnew h1 => makes_of_step hI hs hv hnew h1,
    fun a me base w w' hb hm => ?_, fun index packet vertex hk hs hret => hI.not_bad hk hs hret⟩
  have hG := (hI.opening hb).good
  have hG' := hG.moves hm
  refine ⟨hG'.vertices.honest (Moves.advancing hG hm (begins_advancing hI hb hA)),
    fun env round hcfg hme hcall => ?_⟩
  subst hme
  exact hcall.added (hcfg ▸ hG')

/-- The vertex that completes a quorum of round 1 is not a bad one, and the replica that it is
handed to creates a vertex of round 2. -/
theorem honest_vertices_four : ∃ (c c' : System) (index : ℕ) (packet : Packet VertexMessage)
    (u v : Vertex), c.Reachable ⟨4, 0⟩ ∧ Honest 1 c.shared.created ∧
      c.network[index]? = some packet ∧ c.handed ⟨4, 0⟩ packet = some (.vertex u) ∧
      (c.replicas packet.dst).badVertex u packet.src = false ∧
      System.step ⟨4, 0⟩ c (.deliver index inOrder) = some c' ∧
      v ∈ c'.shared.created ∧ v ∉ c.shared.created ∧ v.round = 2 ∧
      Kept (c'.replicas v.source) v ∧ ∃ env w w', Makes env v w w' := by
  let cfg : Config := ⟨4, 0⟩
  let check (c : System) (index : ℕ) : Bool := (c.network[index]?).any fun packet =>
    (c.handed cfg packet).any (fun x => x.casesOn (fun _ => true) fun _ => false) &&
      decide (packet.dst ∈ c.started) &&
      (System.step cfg c (.deliver index inOrder)).any fun c' => c'.shared.created.any fun v =>
        v.round == 2 && !c.shared.created.any (sameVertex v)
  let done (c : System) : Bool := (oldest (fun _ => true) c.network).any (check c)
  have hrun : (run cfg [.start cfg, (Phase.deliver (fun _ => true) 400).until done]
      System.init).any done = true := by decide +kernel
  obtain ⟨c, hc, hd⟩ := (Option.any_eq_true _ _).mp hrun
  obtain ⟨index, -, hd⟩ := (Option.any_eq_true _ _).mp hd
  obtain ⟨packet, hk, hd⟩ := (Option.any_eq_true _ _).mp hd
  rw [Bool.and_eq_true, Bool.and_eq_true, decide_eq_true_eq] at hd
  obtain ⟨⟨hhanded, hs⟩, hd⟩ := hd
  obtain ⟨message, hm, hhanded⟩ := (Option.any_eq_true _ _).mp hhanded
  obtain ⟨c', hstep, hd⟩ := (Option.any_eq_true _ _).mp hd
  obtain ⟨v, hv, hd⟩ := List.any_eq_true.mp hd
  rw [Bool.and_eq_true, beq_iff_eq, Bool.not_eq_true', List.any_eq_false] at hd
  have hnew : v ∉ c.shared.created := fun hmem => hd.2 v hmem (sameVertex_self v)
  have hreach := reachable_run .init hc
  obtain ⟨hH, hmade, -, hbad⟩ := honest_vertices 1 0 c hreach
  cases message with
  | genesis => cases hhanded
  | vertex u =>
    obtain ⟨hkept, env, -, w, w', -, -, -, hM, -⟩ :=
      hmade _ c' hstep v hv hnew (by rw [hd.1]; decide)
    exact ⟨c, c', index, packet, u, v, hreach, hH, hk, hm, hbad index packet u hk hs hm, hstep,
      hv, hnew, hd.1, hkept, env, w, w', hM⟩

end Blsmr.Bullshark
