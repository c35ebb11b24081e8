import Blsmr.Bullshark.Protocol
import Blsmr.Lib.Graph

/-!
# The vertices that the replicas create

A vertex has edges to a quorum of vertices of the round below, from different
sources, and a replica creates one vertex in a round (`Vertices`). A vertex that is
voted for by `f + 1` edges of one vertex is therefore reached from every vertex of
the same round and of every later one (`Supported.reaches`).
-/

namespace Blsmr.Bullshark

open Blsmr.Graph

/-- `other` can be reached from `vertex` through strong edges. -/
abbrev Vertex.Reaches (vertex other : Vertex) : Prop := Reach Vertex.strongEdges vertex other

theorem sameVertex_iff {u v : Vertex} : sameVertex u v = true ↔ u.ptr = v.ptr := by
  unfold sameVertex
  exact beq_iff_eq

@[simp] theorem sameVertex_self (v : Vertex) : sameVertex v v = true := sameVertex_iff.mpr rfl

structure Vertices (n : ℕ) (created : List Vertex) : Prop where
  ptr_lt : ∀ v ∈ created, v.ptr < created.length
  ptr_inj : ∀ v ∈ created, ∀ u ∈ created, u.ptr = v.ptr → u = v
  key_inj : ∀ v ∈ created, ∀ u ∈ created, u.round = v.round → u.source = v.source → u = v
  source_lt : ∀ v ∈ created, v.source < n
  edge : ∀ v ∈ created, ∀ u ∈ v.strongEdges, u ∈ created ∧ u.round + 1 = v.round
  distinct : ∀ v ∈ created, (v.strongEdges.map Vertex.source).Nodup
  quorum : ∀ v ∈ created, v.round ≠ 0 → quorumSize n ≤ v.strongEdges.length

theorem quorumSize_pos (n : ℕ) : 0 < quorumSize n := Nat.succ_pos _

theorem Vertices.nil (n : ℕ) : Vertices n [] := by
  constructor <;> exact List.forall_mem_nil _

namespace Vertices

variable {n : ℕ} {created : List Vertex} {u v w : Vertex} (hV : Vertices n created)

include hV

theorem eq_of_same (hu : u ∈ created) (hv : v ∈ created) (h : sameVertex u v = true) : u = v :=
  hV.ptr_inj v hv u hu (sameVertex_iff.mp h)

theorem exists_edge (hv : v ∈ created) (h0 : v.round ≠ 0) : ∃ u, u ∈ v.strongEdges := by
  have hq := hV.quorum v hv h0
  have := quorumSize_pos n
  exact List.exists_mem_of_length_pos (by omega)

theorem reaches_mem (hv : v ∈ created) (h : v.Reaches u) :
    u ∈ created ∧ (u = v ∨ u.round < v.round) := by
  induction h with
  | refl => exact ⟨hv, .inl rfl⟩
  | tail _ hstep ih =>
    obtain ⟨hmem, hround⟩ := hV.edge _ ih.1 _ hstep
    refine ⟨hmem, .inr ?_⟩
    rcases ih.2 with rfl | hlt <;> omega

/-- **Quorums of edges meet.** Of `f + 1` edges of one vertex one is an edge of every
vertex of the round. -/
theorem common_edge {f : ℕ} (hn : n = 3 * f + 1) {b y : Vertex} (hb : b ∈ created)
    (hy : y ∈ created) (hround : y.round = b.round) (h0 : y.round ≠ 0) {ws : List Vertex}
    (hws : ws.Sublist b.strongEdges) (hlen : f + 1 ≤ ws.length) :
    ∃ w ∈ ws, w ∈ y.strongEdges := by
  have hnd : (ws.map Vertex.source).Nodup := (hV.distinct b hb).sublist (hws.map _)
  have hsub : ∀ v ∈ created, (v.strongEdges.map Vertex.source).toFinset ⊆ Finset.range n := by
    intro v hv s hs
    obtain ⟨u, hu, rfl⟩ := List.mem_map.mp (List.mem_toFinset.mp hs)
    exact Finset.mem_range.mpr (hV.source_lt u (hV.edge v hv u hu).1)
  have hA : (ws.map Vertex.source).toFinset ⊆ Finset.range n := fun s hs =>
    hsub b hb (List.mem_toFinset.mpr ((hws.map _).subset (List.mem_toFinset.mp hs)))
  have hcard := Counting.le_inter_card hA (hsub y hy)
  rw [List.toFinset_card_of_nodup hnd, List.toFinset_card_of_nodup (hV.distinct y hy),
    List.length_map, List.length_map, Finset.card_range] at hcard
  have hq := hV.quorum y hy h0
  have hf : adversaryThreshold n = f := by
    unfold adversaryThreshold
    omega
  unfold quorumSize at hq
  rw [hf] at hq
  obtain ⟨s, hs⟩ := Finset.card_pos.mp (by omega :
    0 < ((ws.map Vertex.source).toFinset ∩ (y.strongEdges.map Vertex.source).toFinset).card)
  obtain ⟨hsw, hsy⟩ := Finset.mem_inter.mp hs
  obtain ⟨w, hw, hws'⟩ := List.mem_map.mp (List.mem_toFinset.mp hsw)
  obtain ⟨w', hw', hwy⟩ := List.mem_map.mp (List.mem_toFinset.mp hsy)
  obtain ⟨hmem, hr⟩ := hV.edge b hb w (hws.subset hw)
  obtain ⟨hmem', hr'⟩ := hV.edge y hy w' hw'
  have heq : w' = w := hV.key_inj w hmem w' hmem' (by omega) (hwy.trans hws'.symm)
  exact ⟨w, hw, heq ▸ hw'⟩

end Vertices

theorem mem_votes {a v : Vertex} {vertices : List Vertex} :
    v ∈ votes a vertices ↔ v ∈ vertices ∧ ∃ u ∈ v.strongEdges, sameVertex u a = true := by
  unfold votes
  rw [List.mem_filter, List.any_eq_true]

/-- A vertex two rounds above has enough edges to vertices with an edge to `a`. -/
structure Supported (n : ℕ) (created : List Vertex) (a b : Vertex) : Prop where
  anchor_mem : a ∈ created
  vertex_mem : b ∈ created
  round : b.round = a.round + 2
  enough : directCommitThreshold n ≤ (votes a b.strongEdges).length

/-- **No later vertex misses a supported one.** By induction on the round: in the round
of the supporter quorums of edges meet, and above it any edge will do. -/
theorem Supported.reaches {n f : ℕ} (hn : n = 3 * f + 1) {created : List Vertex} {a b : Vertex}
    (hS : Supported n created a b) (hV : Vertices n created) {y : Vertex} (hy : y ∈ created)
    (hround : b.round ≤ y.round) : y.Reaches a := by
  obtain ⟨k, hk⟩ := Nat.exists_eq_add_of_le hround
  have hbr := hS.round
  induction k generalizing y with
  | zero =>
    have hthres : f + 1 ≤ (votes a b.strongEdges).length := by
      have := hS.enough
      unfold directCommitThreshold adversaryThreshold at this
      omega
    obtain ⟨w, hw, hwy⟩ := hV.common_edge hn hS.vertex_mem hy (by omega) (by omega)
      List.filter_sublist hthres
    obtain ⟨hwb, u, hu, hua⟩ := mem_votes.mp hw
    have hwmem := (hV.edge b hS.vertex_mem w hwb).1
    have heq : u = a := hV.eq_of_same (hV.edge w hwmem u hu).1 hS.anchor_mem hua
    exact (Reach.single (heq ▸ hu)).head hwy
  | succ k ih =>
    obtain ⟨u, hu⟩ := hV.exists_edge hy (by omega)
    obtain ⟨humem, hur⟩ := hV.edge y hy u hu
    exact (ih humem (by omega) (by omega)).head hu

end Blsmr.Bullshark
