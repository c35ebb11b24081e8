import Blsmr.Bullshark.Agreement
import Blsmr.Bullshark.Progress

/-!
# The DAG of a replica

A vertex comes into the DAG as a genesis vertex, as the replica's own, from a message or out
of the buffer, and adding it may broadcast, order and collect garbage before the outer call is
done. The DAG stays `Consistent` at every moment of this (`dag_consistent`): its searches can
rely on it (`Ready.searchable`), and the bound, which is even, only rises. So `order_anchors`
goes through where it is called, and no vertex is ordered twice.
-/

namespace Blsmr.Bullshark

open Blsmr.Graph Bfs RoundBasedDAG Rows

/-- **What holds of the DAG of a replica.** -/
structure Consistent (n : ℕ) (s : Bullshark) : Prop where
  visited_length : s.dag.visited.length = s.dag.matrix.length
  ordered_length : s.dag.ordered.length = s.dag.matrix.length
  matrix : Wide (n + 1) s.dag.matrix
  visited : Wide (n + 1) s.dag.visited
  ordered : Wide (n + 1) s.dag.ordered
  placed : ∀ r p v, s.dag.slot r p = some (some v) → v.round = r ∧ v.source = p
  below : ∀ v, s.dag.Has v → s.dag.gcOffset < v.round →
    ∀ u ∈ v.strongEdges, u.round + 1 = v.round ∧ s.dag.Has u
  marks : ∀ v u, s.dag.Has v → s.dag.isOrdered v = some true → v.Reaches u →
    s.dag.gcOffset ≤ u.round → s.dag.isOrdered u = some true
  offset : s.dag.gcOffset = s.lastOrderedRound
  even : s.dag.gcOffset % 2 = 0

section

variable {n f : ℕ} {created : List Vertex} {s : Bullshark} {log : List (Vertex × ℕ)}
  {out : List Vertex}

/-- **Nothing is ordered twice.** -/
theorem Replay.nodup (h : Replay log out) : (out.map Vertex.key).Nodup := by
  induction h with
  | nil => exact List.nodup_nil
  | snoc _ _ ht ih =>
    rw [List.map_append]
    refine List.nodup_append.mpr ⟨ih, ht.nodup, fun k hk k' hk' heq => ?_⟩
    subst heq
    obtain ⟨v, hv, hvk⟩ := List.mem_map.mp hk
    obtain ⟨u, hu, huk⟩ := List.mem_map.mp hk'
    exact ht.fresh u hu ⟨v, hv, hvk.trans huk.symm⟩

/-- **The marks are closed**: what an ordered vertex reaches above the bound has been ordered,
since no anchor has been ordered at a higher bound. -/
theorem Ready.searchable (hV : Vertices n created) (hR : Ready n created s)
    (hL : Logged n created s) : Searchable n s.dag where
  toLinked := hR.dag.linked hV
  marks v u hv hdone hr hle := by
    have hout : ∀ w, v.Reaches w → w.Reaches u → w ∈ s.history.output := fun w hw => by
      induction hw with
      | refl =>
        intro _
        obtain ⟨x, hx, hk⟩ := (hR.marks v.key (hR.dag.within hv).1).mp hdone
        exact hV.key_eq (hR.output x hx).1 (hR.dag.mem hv) hk ▸ hx
      | @tail x y hvx hxy ih =>
        intro hyu
        refine (hR.replay.contains hV hL.rising).2 x (ih (hyu.head hxy)) y hxy fun z hz => ?_
        have hy := (hV.reaches_mem (hR.dag.mem hv) (hvx.tail hxy)).1
        have := (hL.bound z hz).2
        rcases (hV.reaches_mem hy hyu).2 with rfl | hlt <;> omega
    exact (hR.marks u.key hle).mpr ⟨u, hout u hr (.refl _ u), rfl⟩

theorem Ready.consistent (hR : Ready n created s) (hs : Searchable n s.dag) :
    Consistent n s where
  visited_length := hs.shaped.visited_length
  ordered_length := hs.shaped.ordered_length
  matrix := hs.shaped.matrix
  visited := hs.shaped.visited
  ordered := hs.shaped.ordered
  placed r p v h := hs.stored r p v (vertexAt_eq_some.mpr h)
  below := hs.closed
  marks v u hv hdone hr hle := by
    have hu := hs.within (hs.has_of_reaches hv hr hle)
    rw [hs.shaped.isOrdered_of_within (hs.within hv)] at hdone
    rw [hs.shaped.isOrdered_of_within hu, hs.marks v u hv (Option.some.inj hdone) hr hle]
  offset := hR.offset.symm
  even := hR.even

theorem Consistent.default (n : ℕ) : Consistent n Bullshark.default := by
  have hnone : ∀ r p, Bullshark.default.dag.slot r p = none := fun r p => by
    have hle : Bullshark.default.dag.gcOffset ≤ r := Nat.zero_le r
    rw [slot_of_le hle]
    rfl
  have hhas : ∀ v, ¬ Bullshark.default.dag.Has v := fun v hv => by
    rw [Has, vertexAt_eq_some, hnone] at hv
    cases hv
  refine ⟨rfl, rfl, List.forall_mem_nil _, List.forall_mem_nil _, List.forall_mem_nil _,
    fun r p v h => ?_, fun v hv => absurd hv (hhas v), fun v u hv => absurd hv (hhas v), rfl, rfl⟩
  rw [hnone] at h
  cases h

end

/-! ## The moments of a handler -/

section

variable {f submitLimit : ℕ} {cfg : Config} {me : Pid} {c c' base : System} {w w' : Work}
  {a : Action}

theorem searchable_of_begins (h : c.Reachable ⟨3 * f + 1, submitLimit⟩)
    (hb : Begins ⟨3 * f + 1, submitLimit⟩ c a me base w)
    (hm : Moves ⟨3 * f + 1, submitLimit⟩ me w w') : Searchable (3 * f + 1) w'.state.dag := by
  have hG := ((Invariant.of_reachable h).opening hb).good.moves hm
  exact hG.sound.toReady.searchable hG.vertices (.of_begins h hb hm)

/-- **The bound only rises.** -/
theorem gcOffset_le_of_leads (h : c.Reachable cfg) (h' : c.Leads cfg c') (p : Pid) :
    (c.replicas p).dag.gcOffset ≤ (c'.replicas p).dag.gcOffset := by
  induction h' with
  | init => exact Nat.le_refl _
  | @step c₁ c₂ a hr _ hs ih =>
    refine ih.trans ?_
    have hI := Invariant.of_reachable (h.append hr)
    obtain ⟨me, base, w, w', hb, hm, rfl⟩ := hI.step hs
    unfold System.update
    simp only
    by_cases hp : p = me
    · subst hp
      rw [Function.update_self]
      exact (hI.begins_bound hb).1.symm.le.trans (Moves.grows (hI.opening hb).good hm).1
    · rw [Function.update_of_ne hp, (hI.begins_base hb).1]

/-- The anchor that `try_ordering` finds lies in an even round, so the walk back from it ends
where it should. -/
theorem Good.orderAnchors_isSome (hG : Good cfg me w) (env : Env) {vertex anchor : Vertex}
    (heven : vertex.round % 2 = 0)
    (hanchor : w.state.getAnchor (vertex.round - 2) = some (some anchor)) :
    (orderAnchors env anchor w).isSome = true := by
  have hat := vertexAt_eq_some.mpr hanchor
  obtain ⟨-, hround, -⟩ := hG.sound.dag.stored _ _ _ hat
  obtain ⟨d, commits, history, he, -⟩ :=
    hG.orderAnchors_spec env (hG.sound.dag.has hat) (by omega : anchor.round % 2 = 0)
  rw [he]
  rfl

end

/-- **The DAG of every replica is consistent**, in every reachable state and at every moment
of a handler, where `try_ordering` can order what it finds. The bound only rises, and the
vertices that a replica has ordered are different ones. -/
theorem dag_consistent (f submitLimit : ℕ) (c : System)
    (h : c.Reachable ⟨3 * f + 1, submitLimit⟩) :
    (∀ p, Consistent (3 * f + 1) (c.replicas p) ∧
      ((c.replicas p).history.output.map Vertex.key).Nodup) ∧
    (∀ c', c.Leads ⟨3 * f + 1, submitLimit⟩ c' → ∀ p,
      (c.replicas p).dag.gcOffset ≤ (c'.replicas p).dag.gcOffset ∧
        (c.replicas p).history.output <+: (c'.replicas p).history.output) ∧
    ∀ a me base w w', Begins ⟨3 * f + 1, submitLimit⟩ c a me base w →
      Moves ⟨3 * f + 1, submitLimit⟩ me w w' →
      Consistent (3 * f + 1) w'.state ∧ (w'.state.history.output.map Vertex.key).Nodup ∧
        ∀ (env : Env) (vertex anchor : Vertex), vertex.round % 2 = 0 →
          w'.state.getAnchor (vertex.round - 2) = some (some anchor) →
          (orderAnchors env anchor w').isSome = true := by
  have hI := Invariant.of_reachable h
  refine ⟨fun p => ?_, fun c' h' p => ⟨gcOffset_le_of_leads h h' p, output_isPrefix h h' p⟩,
    fun a me base w w' hb hm => ?_⟩
  · by_cases hp : p ∈ c.started
    · have hR := (hI.sound p hp).toReady
      have hL : Logged (3 * f + 1) _ _ := Logged.of_reachable h p
      exact ⟨hR.consistent (hR.searchable hI.vertices hL), hR.replay.nodup⟩
    · rw [hI.idle p hp]
      exact ⟨.default _, List.nodup_nil⟩
  · have hG := (hI.opening hb).good.moves hm
    have hR := hG.sound.toReady
    exact ⟨hR.consistent (searchable_of_begins h hb hm), hR.replay.nodup,
      fun env vertex anchor heven hanchor => hG.orderAnchors_isSome env heven hanchor⟩

theorem dag_consistent_four : ∃ c : System, c.Reachable ⟨4, 0⟩ ∧
    (c.replicas 1).dag.gcOffset = 2 ∧ ∀ p, Consistent 4 (c.replicas p) ∧
      ((c.replicas p).history.output.map Vertex.key).Nodup := by
  obtain ⟨c, hreach, hoff, -⟩ := exists_sameStart
  exact ⟨c, hreach, hoff, (dag_consistent 1 0 c hreach).1⟩

end Blsmr.Bullshark
