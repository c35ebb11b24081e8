import Blsmr.Bullshark.Runs

/-!
# The vertices that have reached a replica

A vertex that has reached a replica is in the DAG, in the buffer, thrown away, or below
the bound (`Received`).
-/

namespace Blsmr.Bullshark

open Blsmr.Graph RoundBasedDAG

/-- Where the vertices are that have reached a replica. -/
structure Received (created : List Vertex) (s : Bullshark) : Prop where
  received : ∀ v ∈ s.history.received,
    v ∈ created ∧ (v ∈ s.buffer ∨ v ∈ s.history.thrown ∨ Kept s v)
  thrown : ∀ v ∈ s.history.thrown, v.round ≠ 0 ∧ v.round ≤ s.dag.gcOffset ∧ v ∉ s.buffer ∧
    ¬ s.dag.Has v

section

variable {cfg : Config} {me : Pid} {w w' : Work}

theorem discard_thrown (hG : Good cfg me w) {vertex : Vertex} (hmem : vertex ∈ w.shared.created) :
    vertex ∈ (discard vertex w).state.history.thrown ∨ w.state.dag.Has vertex := by
  unfold discard
  by_cases hin : w.state.inDag vertex = true
  · exact .inr (hG.has_of_inDag hmem hin)
  · simp only
    rw [if_neg hin]
    exact .inl List.mem_cons_self

theorem thrown_subset_discard (vertex : Vertex) (w : Work) :
    w.state.history.thrown ⊆ (discard vertex w).state.history.thrown := by
  unfold discard
  simp only
  split
  · exact List.Subset.refl _
  · exact List.subset_cons_self _ _

theorem mem_thrown_discard {u vertex : Vertex} {w : Work}
    (h : u ∈ (discard vertex w).state.history.thrown) :
    u = vertex ∨ u ∈ w.state.history.thrown := by
  unfold discard at h
  simp only at h
  split at h
  · exact .inr h
  · exact List.mem_cons.mp h

/-- **What a replica has come to** stays in its buffer, thrown away, or kept. -/
theorem Move.placed (hG : Good cfg me w) (h : Move cfg me w w') {v : Vertex}
    (hmem : v ∈ w.shared.created)
    (hf : v ∈ w.state.buffer ∨ v ∈ w.state.history.thrown ∨ Kept w.state v) :
    v ∈ w'.state.buffer ∨ v ∈ w'.state.history.thrown ∨ Kept w'.state v := by
  have hkept : Kept w.state v → Kept w'.state v := h.kept hG
  cases h with
  | @discard vertex hvmem =>
    rcases hf with hbuf | hth | hk
    · by_cases hkey : vertex.key = v.key
      · obtain rfl : vertex = v := hG.vertices.key_eq hvmem hmem hkey
        exact .inr ((discard_thrown hG hmem).imp_right .inl)
      · exact .inl (mem_bufferRemove.mpr ⟨hbuf, hkey⟩)
    · exact .inr (.inl (thrown_subset_discard _ _ hth))
    · exact .inr (.inr hk)
  | hold => exact hf.imp_left mem_bufferInsert_of_mem
  | @release vertex hvmem hheld =>
    rcases hf with hbuf | hf
    · by_cases hkey : vertex.key = v.key
      · exact .inr (.inr (hG.vertices.key_eq hvmem hmem hkey ▸ hheld))
      · exact .inl (mem_bufferRemove.mpr ⟨hbuf, hkey⟩)
    · exact .inr hf
  | order _ _ _ _ hcommit =>
    refine hf.imp_right (.imp (fun hth => ?_) hkept)
    simp only
    rw [hcommit.thrown]
    exact hth
  | _ => exact hf.imp_right (.imp_right hkept)

/-- Thrown away: at the bound or below, and neither buffered nor in the DAG. -/
def Gone (s : Bullshark) (v : Vertex) : Prop :=
  v.round ≠ 0 ∧ v.round ≤ s.dag.gcOffset ∧ v ∉ s.buffer ∧ ¬ s.dag.Has v

theorem Gone.added (hG : Good cfg me w) {v vertex : Vertex} {dag : RoundBasedDAG}
    (hg : Gone w.state v) (hmem : vertex ∈ w.shared.created)
    (hround : vertex.round = 0 ∨ w.state.dag.gcOffset < vertex.round)
    (hA : Added cfg.procNum vertex w.state.dag dag) : Gone { w.state with dag } v := by
  obtain ⟨h0, hle, hbuf, hno⟩ := hg
  refine ⟨h0, hA.gcOffset.symm ▸ hle, hbuf, fun hhas => ?_⟩
  rcases (hA.has_iff hG.vertices hG.sound.dag hmem).mp hhas with rfl | hhas
  · omega
  · exact hno hhas

theorem Gone.discard {v vertex : Vertex} (h0 : vertex.round ≠ 0)
    (hle : vertex.round ≤ w.state.dag.gcOffset)
    (hg : v ∈ w.state.history.thrown → Gone w.state v)
    (hv : v ∈ (discard vertex w).state.history.thrown) : Gone (discard vertex w).state v := by
  have hold : v ∈ w.state.history.thrown → Gone (Bullshark.discard vertex w).state v := fun hv =>
    have ⟨h0, hle, hbuf, hno⟩ := hg hv
    ⟨h0, hle, fun hb => hbuf (mem_bufferRemove.mp hb).1, hno⟩
  by_cases hin : w.state.inDag vertex = true
  · refine hold ?_
    unfold Bullshark.discard at hv
    simpa only [hin, if_true] using hv
  · unfold Bullshark.discard at hv
    simp only [hin] at hv
    rcases List.mem_cons.mp hv with rfl | hv
    · exact ⟨h0, hle, fun hb => (mem_bufferRemove.mp hb).2 rfl, fun hhas => hin (inDag_of_has hhas)⟩
    · exact hold hv

theorem Move.gone (hG : Good cfg me w) (h : Move cfg me w w')
    (hg : ∀ v ∈ w.state.history.thrown, Gone w.state v) :
    ∀ v ∈ w'.state.history.thrown, Gone w'.state v := by
  intro v hv
  cases h with
  | add hmem hlt _ hadd =>
    exact (hg v hv).added hG hmem (.inr hlt) (hG.sound.dag.shaped.addVertex hadd)
  | genesis hmem hround hadd =>
    exact (hg v hv).added hG hmem (.inl hround) (hG.sound.dag.shaped.addVertex hadd)
  | discard _ h0 hle => exact .discard h0 hle (hg v) hv
  | hold _ hlt =>
    obtain ⟨h0, hle, hbuf, hno⟩ := hg v hv
    refine ⟨h0, hle, fun hb => ?_, hno⟩
    rcases mem_of_mem_bufferInsert hb with rfl | hb
    · omega
    · exact hbuf hb
  | release =>
    obtain ⟨h0, hle, hbuf, hno⟩ := hg v hv
    exact ⟨h0, hle, fun hb => hbuf (mem_bufferRemove.mp hb).1, hno⟩
  | @order _ anchor _ _ _ _ _ hanchor _ hcommit =>
    have hle := le_of_vertexAt hanchor
    obtain ⟨h0, hle', hbuf, hno⟩ := hg v (hcommit.thrown ▸ hv)
    refine ⟨h0, by rw [hcommit.gcOffset]; omega, hbuf, fun hhas => hno ?_⟩
    unfold Has at hhas ⊢
    rw [hcommit.vertexAt] at hhas
    split at hhas
    · exact hhas
    · cases hhas
  | _ => exact hg v hv

theorem Received.move (hG : Good cfg me w) (h : Move cfg me w w')
    (hR : Received w.shared.created w.state) : Received w'.shared.created w'.state := by
  have hreceived : ∀ v ∈ w'.state.history.received, v ∈ w.shared.created ∧
      (v ∈ w.state.buffer ∨ v ∈ w.state.history.thrown ∨ Kept w.state v) := by
    cases h with
    | receive hmem hin => exact List.forall_mem_cons.mpr ⟨⟨hmem, hin⟩, hR.received⟩
    | order _ _ _ _ hcommit =>
      simp only
      rw [hcommit.received]
      exact hR.received
    | _ => exact hR.received
  refine ⟨fun v hv => ?_, h.gone hG hR.thrown⟩
  obtain ⟨hmem, hin⟩ := hreceived v hv
  exact ⟨h.created hmem, h.placed hG hmem hin⟩

theorem Received.moves (hG : Good cfg me w) (h : Moves cfg me w w')
    (hR : Received w.shared.created w.state) : Received w'.shared.created w'.state := by
  induction h with
  | refl => exact hR
  | tail hms hm ih => exact ih.move (hG.moves hms) hm

end

theorem Moves.placed {cfg : Config} {me : Pid} {w w' : Work} (hG : Good cfg me w)
    (h : Moves cfg me w w') {v : Vertex} (hmem : v ∈ w.shared.created)
    (hf : v ∈ w.state.buffer ∨ v ∈ w.state.history.thrown ∨ Kept w.state v) :
    v ∈ w'.state.buffer ∨ v ∈ w'.state.history.thrown ∨ Kept w'.state v := by
  induction h with
  | refl => exact hf
  | tail hms hm ih => exact hm.placed (hG.moves hms) (Moves.created hms hmem) ih

theorem Received.of_reachable {cfg : Config} {c : System} (h : c.Reachable cfg) (p : Pid) :
    Received c.shared.created (c.replicas p) := by
  by_cases hp : p ∈ c.started
  · refine Invariant.replicas (P := fun _ created s => Received created s)
      (fun hsub hR => ⟨fun v hv => ⟨hsub (hR.received v hv).1, (hR.received v hv).2⟩, hR.thrown⟩)
      (fun hd hh hb _ hR => ?_) (fun hnew => ?_) (fun hG hm hR => hR.move hG hm) h p hp
    · refine ⟨?_, ?_⟩
      · unfold Kept
        rw [hh, hb, hd]
        exact hR.received
      · rw [hh, hb, hd]
        exact hR.thrown
    · refine ⟨?_, ?_⟩ <;>
      · rw [hnew.history]
        exact List.forall_mem_nil _
  · rw [(Invariant.of_reachable h).idle p hp]
    exact ⟨List.forall_mem_nil _, List.forall_mem_nil _⟩

theorem Invariant.buffered {cfg : Config} {c : System} (hI : Invariant cfg c) {p : Pid} {v : Vertex}
    (hv : v ∈ (c.replicas p).buffer) : v ∈ c.shared.created := by
  by_cases hp : p ∈ c.started
  · exact ((hI.sound p hp).buffered v hv).1
  · rw [hI.idle p hp] at hv
    cases hv

/-- Replicas 1, 2 and 3 go on without replica 0 until replica 1 has ordered an anchor of
round 2. Replica 0 follows, and its third vertex reaches replica 1 first. -/
def overtaken (cfg : Config) : List Phase :=
  [.start cfg,
    (Phase.deliver (fun x => x.src != 0 && x.dst != 0) 400).until fun c =>
      2 ≤ (c.replicas 1).dag.gcOffset,
    (Phase.deliver (fun x => x.dst == 0) 400).until fun c => 3 ≤ (c.replicas 0).round,
    .deliver (fun x => x.dst == 0 || x.src == 0 && x.dst != 1) 400,
    .deliver (fun x => x.dst == 1 && x.msg.id == ⟨0, 16⟩) 2]

end Blsmr.Bullshark
