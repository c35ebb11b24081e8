import Blsmr.Bullshark.Spread

/-!
# What the handlers call

Handlers call `broadcast_vertex` where the row below a round has its quorum (`Calls`), so the
new vertex goes into the DAG before it is broadcast (`Calls.added`). A vertex that a step
creates comes from such a call (`Makes`), an anchor that it orders from a call of
`order_anchors` (`Orders`), and a command leaves the pending map for a vertex made or handed
out (`Called`).
-/

namespace Blsmr.Bullshark

open Blsmr.Transition Blsmr.Graph RoundBasedDAG
open Broadcast (Packet)

/-- Where `broadcast_vertex` is called, and for which round: in `try_advance_round`, and in
`try_add_to_dag` when a vertex has just gone into the DAG. -/
inductive Calls (w : Work) : ℕ → Prop
  | advance (hreached : w.state.quorumReachedForRound w.state.round = some true) :
      Calls w (w.state.round + 1)
  | catchUp {vertex : Vertex} (hhas : w.state.dag.Has vertex)
      (hmin : w.state.dag.minRound < vertex.round)
      (hreached : w.state.quorumReachedForRound vertex.round = some true)
      (hround : w.state.round < vertex.round) : Calls w vertex.round

/-- Between `w` and `w'` the vertex is created by a call of `broadcast_vertex`, which adds it to
the DAG before it broadcasts it. -/
inductive Makes (env : Env) (vertex : Vertex) (w w' : Work) : Prop
  | call {u w₁ w₂ : Work} (hto : Moves env.cfg env.me w u) (hcalls : Calls u vertex.round)
      (hcreate : createVertex env vertex.round
        (startTimer { u with state := { u.state with round := vertex.round } }) =
          some (vertex, w₁))
      (hadd : tryAddToDag env vertex w₁ = some (true, w₂)) (hhas : w₂.state.dag.Has vertex)
      (hcall : Moves env.cfg env.me u (reliablyBroadcast env (.vertex vertex) w₂))
      (hfrom : Moves env.cfg env.me (reliablyBroadcast env (.vertex vertex) w₂) w')

/-- Between `w` and `w'` the entry is made in the log by a call of `order_anchors` for the
anchor that `try_ordering` has found. -/
inductive Orders (env : Env) (entry : Vertex × ℕ) (w w' : Work) : Prop
  | call {u u' : Work} {vertex anchor : Vertex} (hto : Moves env.cfg env.me w u)
      (heven : vertex.round % 2 = 0)
      (hfound : u.state.getAnchor (vertex.round - 2) = some (some anchor))
      (hcall : orderAnchors env anchor u = some u') (hold : entry ∉ u.state.history.anchors)
      (hnew : entry ∈ u'.state.history.anchors) (hfrom : Moves env.cfg env.me u' w')

/-- **What a part of a handler calls.** -/
structure Called (env : Env) (w w' : Work) : Prop where
  moves : Moves env.cfg env.me w w'
  makes : ∀ v ∈ w'.shared.created, v ∈ w.shared.created ∨ Makes env v w w'
  orders : ∀ y ∈ w'.state.history.anchors, y ∈ w.state.history.anchors ∨ Orders env y w w'
  pending : ∀ i x, w.state.pendingCommands.lookup i = some x →
    w'.state.pendingCommands.lookup i = some x ∨ ∃ v, Makes env v w w' ∧ x ∈ v.commands

/-- What `broadcast_vertex` does where it is called. -/
def Broadcasts (env : Env) (broadcast : ℕ → Work → Option Work) : Prop :=
  ∀ {w w' : Work} {round : ℕ}, Good env.cfg env.me w → Calls w round →
    broadcast round (startTimer { w with state := { w.state with round } }) = some w' →
    Called env w w'

section

variable {env : Env} {w w' w'' : Work} {vertex v : Vertex} {round : ℕ} {entry : Vertex × ℕ}
  {broadcast : ℕ → Work → Option Work}

/-! ## The own vertex goes into the DAG -/

theorem Good.tryOrdering_has (hG : Good env.cfg env.me w) (hhas : w.state.dag.Has vertex)
    (hlt : w.state.dag.gcOffset < vertex.round) :
    ∃ w', tryOrdering env vertex w = some w' ∧ w'.state.dag.Has vertex := by
  rcases hG.tryOrdering_eq hhas hlt with hto | ⟨anchor, hA, hto⟩
  · exact ⟨w, hto, hhas⟩
  · have hGc : Good env.cfg env.me (counted vertex anchor w) :=
      ⟨hG.me_lt, hG.vertices, { hG.sound with }⟩
    split at hto
    · obtain ⟨d, commits, history, he, hC⟩ := hGc.orderAnchors_spec env hA.has hA.even
      refine ⟨_, hto.trans he, ?_⟩
      have hround := hA.round
      unfold Has at *
      simp only
      rw [hC.vertexAt, if_pos (by omega)]
      exact hhas
    · exact ⟨_, hto, hhas⟩

theorem Good.place_has (hG : Good env.cfg env.me w) (broadcast : ℕ → Work → Option Work)
    (hmem : vertex ∈ w.shared.created) (hlt : w.state.dag.gcOffset < vertex.round)
    (hle : vertex.round ≤ w.state.round) (hedges : ∀ u ∈ vertex.strongEdges, w.state.dag.Has u) :
    ∃ w', Bullshark.place broadcast env vertex w = some w' ∧ w'.state.dag.Has vertex := by
  have hd := hG.sound.dag
  obtain ⟨dag, hadd⟩ := Option.isSome_iff_exists.mp
    (hd.shaped.addVertex_isSome hlt.le (hG.vertices.source_lt vertex hmem).le)
  have hA := hd.shaped.addVertex hadd
  have hhas : dag.Has vertex := (hA.has_iff hG.vertices hd hmem).mpr (.inl rfl)
  have hG₁ : Good env.cfg env.me { w with state := { w.state with dag } } :=
    hG.move (.add hmem hlt hedges hadd)
  have hrelease : Move env.cfg env.me { w with state := { w.state with dag } } _ :=
    .release hmem (.inl hhas)
  have hG₂ := hG₁.move hrelease
  unfold Bullshark.place
  rw [hadd, Option.bind_eq_bind, Option.bind_some, hG₁.catchUp_of_le hhas hle,
    Option.bind_eq_bind, Option.bind_some]
  simp only
  split
  · exact hG₂.tryOrdering_has hhas (hA.gcOffset.trans_lt hlt)
  · exact ⟨_, rfl, hhas⟩

/-- **Where `broadcast_vertex` is called there is a quorum in the row below.** -/
theorem Calls.row_below (hG : Good env.cfg env.me w) (h : Calls w round) :
    w.state.round < round ∧ w.state.dag.gcOffset < round ∧
      ∃ row, w.state.dag.index (round - 1) = some row ∧
        quorumSize env.cfg.procNum ≤ row.reduceOption.length := by
  cases h with
  | advance hreached =>
    obtain ⟨row, hrow, hquorum⟩ := quorumReached_spec hreached
    rw [hG.sound.procNum] at hquorum
    have hle := (index_isSome_iff.mp (by rw [hrow]; rfl :
      (w.state.dag.index w.state.round).isSome = true)).1
    exact ⟨Nat.lt_succ_self _, Nat.lt_succ_of_le hle, row, hrow, hquorum⟩
  | catchUp hhas hmin _ hround =>
    exact ⟨hround, hmin, hG.row_below (hG.sound.dag.mem hhas) hhas hmin⟩

/-- **The new vertex is added at once**, before it is broadcast. -/
theorem Calls.added (hG : Good env.cfg env.me w) (h : Calls w round) :
    ∃ vertex w₁ w₂,
      createVertex env round (startTimer { w with state := { w.state with round } }) =
        some (vertex, w₁) ∧
      tryAddToDag env vertex w₁ = some (true, w₂) ∧ w₂.state.dag.Has vertex ∧
      broadcastVertex env round (startTimer { w with state := { w.state with round } }) =
        some (reliablyBroadcast env (.vertex vertex) w₂) := by
  obtain ⟨hround, hlt, row, hrow, hquorum⟩ := h.row_below hG
  have h0 : round ≠ 0 := by omega
  have hG₁ := hG.moves (entering_moves hround hrow hquorum)
  have hmax : round - 1 ≤ w.state.dag.currentMaxAllocatedRound := by
    have := (index_isSome_iff.mp (by rw [hrow]; rfl :
      (w.state.dag.index (round - 1)).isSome = true)).2
    unfold currentMaxAllocatedRound
    omega
  obtain ⟨w₂, hplace, hhas⟩ := hG₁.place_has (broadcastVertex env) List.mem_cons_self hlt le_rfl
    (hG.own_edges hrow)
  have hcreate : createVertex env round _ = _ := createVertex_eq h0 hrow
  have hadd : tryAddToDag env (ownVertex env round row w) (entering env round row w) =
      some (true, w₂) := by
    have heq : tryAddToDag env (ownVertex env round row w) (entering env round row w) =
        (place (broadcastVertex env) env (ownVertex env round row w)
          (entering env round row w)).map (Prod.mk true) :=
      tryAddWith_of_has hlt hmax (hG.own_edges hrow)
    rw [heq, hplace, Option.map_some]
  refine ⟨_, _, w₂, hcreate, hadd, hhas, ?_⟩
  have hbroadcast : broadcastVertex env round
      (startTimer { w with state := { w.state with round } }) = _ := broadcastVertex_eq rfl
  rw [hbroadcast, hcreate, Option.bind_eq_bind, Option.bind_some]
  simp only
  rw [hadd]
  rfl

/-! ## Parts of a handler -/

theorem Makes.before (hm : Moves env.cfg env.me w w') (h : Makes env v w' w'') :
    Makes env v w w'' := by
  obtain ⟨hto, hcalls, hcreate, hadd, hhas, hcall, hfrom⟩ := h
  exact ⟨hm.trans hto, hcalls, hcreate, hadd, hhas, hcall, hfrom⟩

theorem Makes.after (h : Makes env v w w') (hm : Moves env.cfg env.me w' w'') :
    Makes env v w w'' := by
  obtain ⟨hto, hcalls, hcreate, hadd, hhas, hcall, hfrom⟩ := h
  exact ⟨hto, hcalls, hcreate, hadd, hhas, hcall, hfrom.trans hm⟩

theorem Makes.kept (hG : Good env.cfg env.me w) (h : Makes env v w w') : Kept w'.state v := by
  obtain ⟨hto, -, -, -, hhas, hcall, hfrom⟩ := h
  exact hfrom.kept ((hG.moves hto).moves hcall) (.inl hhas)

theorem Makes.own (hG : Good env.cfg env.me w) (h : Makes env v w w') :
    v ∈ w'.shared.created ∧ v.source = env.me ∧ w.state.dag.gcOffset < v.round := by
  obtain ⟨hto, hcalls, hcreate, -, hhas, hcall, hfrom⟩ := h
  have hG₁ := hG.moves hto
  obtain ⟨hround, hlt, row, hrow, -⟩ := hcalls.row_below hG₁
  have hown := hcreate.symm.trans (createVertex_eq (show v.round ≠ 0 by omega) hrow)
  have heq : v = ownVertex env v.round row _ := (Prod.mk.inj (Option.some.inj hown)).1
  have hmem := (hG₁.moves hcall).sound.dag.mem (v := v) hhas
  refine ⟨hfrom.created hmem, ?_, (Moves.grows hG hto).1.trans_lt hlt⟩
  rw [heq]
  rfl

theorem Orders.before (hm : Moves env.cfg env.me w w') (h : Orders env entry w' w'') :
    Orders env entry w w'' := by
  obtain ⟨hto, heven, hfound, hcall, hold, hnew, hfrom⟩ := h
  exact ⟨hm.trans hto, heven, hfound, hcall, hold, hnew, hfrom⟩

theorem Orders.after (h : Orders env entry w w') (hm : Moves env.cfg env.me w' w'') :
    Orders env entry w w'' := by
  obtain ⟨hto, heven, hfound, hcall, hold, hnew, hfrom⟩ := h
  exact ⟨hto, heven, hfound, hcall, hold, hnew, hfrom.trans hm⟩

theorem Called.trans (h : Called env w w') (h' : Called env w' w'') : Called env w w'' where
  moves := h.moves.trans h'.moves
  makes x hx := by
    rcases h'.makes x hx with hx | hx
    · exact (h.makes x hx).imp_right (·.after h'.moves)
    · exact .inr (hx.before h.moves)
  orders y hy := by
    rcases h'.orders y hy with hy | hy
    · exact (h.orders y hy).imp_right (·.after h'.moves)
    · exact .inr (hy.before h.moves)
  pending i x hx := by
    rcases h.pending i x hx with hx | ⟨u, hu, hx⟩
    · exact (h'.pending i x hx).imp_right fun ⟨u, hu, hx⟩ => ⟨u, hu.before h.moves, hx⟩
    · exact .inr ⟨u, hu.after h'.moves, hx⟩

theorem Called.of_same (hm : Moves env.cfg env.me w w')
    (hcreated : w'.shared.created = w.shared.created)
    (hanchors : w'.state.history.anchors = w.state.history.anchors)
    (hpending : w'.state.pendingCommands = w.state.pendingCommands) : Called env w w' :=
  ⟨hm, fun _ hx => .inl (hcreated ▸ hx), fun _ hy => .inl (hanchors ▸ hy),
    fun _ _ hx => .inl (hpending ▸ hx)⟩

theorem Called.refl (env : Env) (w : Work) : Called env w w := .of_same .refl rfl rfl rfl

theorem Called.of_move (hm : Move env.cfg env.me w w')
    (hcreated : w'.shared.created = w.shared.created)
    (hanchors : w'.state.history.anchors = w.state.history.anchors)
    (hpending : w'.state.pendingCommands = w.state.pendingCommands) : Called env w w' :=
  .of_same (.single hm) hcreated hanchors hpending

theorem tryOrdering_called (hG : Good env.cfg env.me w) (hmem : vertex ∈ w.shared.created)
    (h : tryOrdering env vertex w = some w') : Called env w w' := by
  unfold tryOrdering at h
  split at h
  · cases h
    exact .refl _ _
  · rename_i hround
    rw [not_or] at hround
    obtain ⟨o, ho, h⟩ := Option.bind_eq_some_iff.mp h
    cases o with
    | none => cases h; exact .refl _ _
    | some anchor =>
      have hfound := ho
      unfold getAnchor at ho
      rw [getLeaderId_eq hG.sound.procNum] at ho
      have hat := vertexAt_eq_some.mpr ho
      obtain ⟨-, har, has⟩ := hG.sound.dag.stored _ _ _ hat
      have hhas := hG.sound.dag.has hat
      have heven : anchor.round % 2 = 0 := by omega
      have hsource : anchor.source = leader env.cfg.procNum anchor.round := by rw [har, has]
      obtain ⟨edges, hedges, h⟩ := Option.bind_eq_some_iff.mp h
      rw [mapM_upgrade hedges] at h
      have hcount : Move env.cfg env.me w _ :=
        .count hmem hhas (by omega : vertex.round = anchor.round + 2) heven hsource
      simp only at h
      split at h
      · rename_i hvotes
        have hS : Supported env.cfg.procNum w.shared.created anchor vertex := by
          refine ⟨hG.sound.dag.mem hhas, hmem, by omega, ?_⟩
          rw [← hG.sound.procNum]
          exact hvotes
        obtain ⟨d, commits, history, he, hC⟩ := (hG.move hcount).orderAnchors_spec env hhas heven
        have hcall := he
        rw [he] at h
        cases h
        have horder : Moves env.cfg env.me w _ :=
          .tail (.single hcount) (.order hS hsource hhas heven hC)
        refine ⟨horder, fun x hx => .inl hx, fun y hy => ?_, fun i x hx => .inl hx⟩
        by_cases hold : y ∈ w.state.history.anchors
        · exact .inl hold
        · exact .inr ⟨.single hcount, by omega, hfound, hcall, hold, hy, .refl⟩
      · cases h
        exact .of_move hcount rfl rfl rfl

theorem place_called (hb : Broadcasts env broadcast) (hG : Good env.cfg env.me w)
    (hmem : vertex ∈ w.shared.created) (hlt : w.state.dag.gcOffset < vertex.round)
    (hedges : ∀ u ∈ vertex.strongEdges, w.state.dag.Has u)
    (h : place broadcast env vertex w = some w') : Called env w w' := by
  obtain ⟨dag, hadd, h⟩ := Option.bind_eq_some_iff.mp h
  obtain ⟨w₂, hcatch, h⟩ := Option.bind_eq_some_iff.mp h
  have hA := hG.sound.dag.shaped.addVertex hadd
  have hm₁ : Move env.cfg env.me _ _ := .add hmem hlt hedges hadd
  have hG₁ := hG.move hm₁
  have hhas₁ : dag.Has vertex := (hA.has_iff hG.vertices hG.sound.dag hmem).mpr (.inl rfl)
  have h₂ : Called env { w with state := { w.state with dag } } w₂ := by
    obtain ⟨reached, hreached, hcatch⟩ := Option.bind_eq_some_iff.mp hcatch
    split at hcatch
    · rename_i hr
      have hmin : dag.minRound < vertex.round := by
        have hoffset : dag.gcOffset < vertex.round := hA.gcOffset ▸ hlt
        exact hoffset
      exact hb hG₁ (.catchUp hhas₁ hmin (hr.1 ▸ hreached) hr.2) hcatch
    · cases hcatch
      exact .refl _ _
  have hG₂ := hG₁.moves h₂.moves
  have hmem₂ := h₂.moves.created hmem
  have hm₃ : Move env.cfg env.me w₂ _ := .release hmem₂ (h₂.moves.kept hG₁ (.inl hhas₁))
  have h₃ : Called env w _ :=
    ((Called.of_move hm₁ rfl rfl rfl).trans h₂).trans (.of_move hm₃ rfl rfl rfl)
  simp only at h
  split at h
  · exact h₃.trans (tryOrdering_called (hG₂.move hm₃) hmem₂ h)
  · cases h
    exact h₃

theorem tryAddWith_called (hb : Broadcasts env broadcast) (hG : Good env.cfg env.me w)
    (hmem : vertex ∈ w.shared.created) (h0 : vertex.round ≠ 0) {added : Bool}
    (h : tryAddWith broadcast env vertex w = some (added, w')) : Called env w w' := by
  unfold tryAddWith at h
  split at h
  · rename_i hle
    cases h
    exact .of_move (.discard hmem h0 hle) rfl rfl rfl
  · rename_i hlt
    split at h
    · cases h
      exact .refl _ _
    · obtain ⟨known, hknown, h⟩ := Option.bind_eq_some_iff.mp h
      split at h
      · rename_i hk
        obtain ⟨w₁, hplace, h⟩ := Option.bind_eq_some_iff.mp h
        cases h
        exact place_called hb hG hmem (Nat.lt_of_not_le hlt) (hG.has_edges hmem (hk ▸ hknown))
          hplace
      · cases h
        exact .refl _ _

theorem broadcasts_none : Broadcasts env fun _ _ => none :=
  fun _ _ h => nomatch h

/-- **A call of `broadcast_vertex`** makes its vertex. -/
theorem broadcasts_broadcastVertex : Broadcasts env (broadcastVertex env) := by
  intro w w' round hG hcalls h
  obtain ⟨hround, -, row, hrow, hquorum⟩ := hcalls.row_below hG
  have h0 : round ≠ 0 := by omega
  obtain ⟨x, w₁, w₂, hcreate, hadd, hhas, hbroadcast⟩ := hcalls.added hG
  rw [hbroadcast, Option.some.injEq] at h
  subst h
  have hmake := hcreate
  rw [createVertex_eq h0 hrow, Option.some.injEq, Prod.mk.injEq] at hmake
  obtain ⟨rfl, rfl⟩ := hmake
  have hm₁ := entering_moves hround hrow hquorum
  have hnone : tryAddWith (fun _ _ => none) env (ownVertex env round row w)
      (entering env round row w) = some (true, w₂) := (tryAddWith_congr (Nat.le_refl _)).trans hadd
  have h₂ := tryAddWith_called broadcasts_none (hG.moves hm₁) List.mem_cons_self h0 hnone
  have hsend : Move env.cfg env.me w₂
      (reliablyBroadcast env (.vertex (ownVertex env round row w)) w₂) :=
    .send rfl rfl (h₂.moves.created List.mem_cons_self) h0 rfl
  have hfrom : Called env w₂ (reliablyBroadcast env (.vertex (ownVertex env round row w)) w₂) :=
    .of_move hsend rfl rfl rfl
  have hcall := hm₁.trans (h₂.trans hfrom).moves
  have hmakes : Makes env (ownVertex env round row w) w
      (reliablyBroadcast env (.vertex (ownVertex env round row w)) w₂) :=
    ⟨.refl, hcalls, hcreate, hadd, hhas, hcall, .refl⟩
  refine ⟨hcall, fun u hu => ?_, fun y hy => ?_, fun i u hu => ?_⟩
  · rcases (h₂.trans hfrom).makes u hu with hu | hu
    · rcases List.mem_cons.mp hu with rfl | hu
      · exact .inr hmakes
      · exact .inl hu
    · exact .inr (hu.before hm₁)
  · exact ((h₂.trans hfrom).orders y hy).imp_right (·.before hm₁)
  · exact .inr ⟨_, hmakes, (env.drain.perm _).mem_iff.mpr (mem_values.mpr ⟨i, hu⟩)⟩

theorem tryAddToDag_called (hG : Good env.cfg env.me w) (hmem : vertex ∈ w.shared.created)
    (h0 : vertex.round ≠ 0) {added : Bool} (h : tryAddToDag env vertex w = some (added, w')) :
    Called env w w' := tryAddWith_called broadcasts_broadcastVertex hG hmem h0 h

theorem tryAdvanceRound_called (hG : Good env.cfg env.me w) (h : tryAdvanceRound env w = some w') :
    Called env w w' := by
  obtain ⟨reached, hreached, h⟩ := Option.bind_eq_some_iff.mp h
  split at h
  · rename_i hr
    exact broadcasts_broadcastVertex hG (.advance (hr ▸ hreached)) h
  · cases h
    exact .refl _ _

theorem tryAll_called {vertices : List Vertex} (hG : Good env.cfg env.me w)
    (hmem : ∀ v ∈ vertices, v ∈ w.shared.created ∧ v.round ≠ 0)
    (h : tryAll env vertices w = some w') : Called env w w' := by
  induction vertices generalizing w with
  | nil => cases h; exact .refl _ _
  | cons x vertices ih =>
    obtain ⟨⟨added, w₁⟩, hadd, h⟩ := Option.bind_eq_some_iff.mp h
    obtain ⟨hx, h0⟩ := hmem x List.mem_cons_self
    have h₁ := tryAddToDag_called hG hx h0 hadd
    refine h₁.trans (ih (hG.moves h₁.moves) (fun u hu => ?_) h)
    obtain ⟨hu, h0⟩ := hmem u (List.mem_cons_of_mem x hu)
    exact ⟨h₁.moves.created hu, h0⟩

/-! ## Handlers -/

theorem onGenesis_called (hG : Good env.cfg env.me w) (hmem : vertex ∈ w.shared.created)
    (h0 : vertex.round = 0) (h : onGenesis env vertex w = some w') : Called env w w' := by
  obtain ⟨dag, hadd, h⟩ := Option.bind_eq_some_iff.mp h
  have hA := hG.sound.dag.shaped.addVertex hadd
  have hm₁ : Move env.cfg env.me w { w with state := { w.state with dag } } :=
    .genesis hmem h0 hadd
  have hG₁ := hG.move hm₁
  have hm₂ : Move env.cfg env.me _ (receive vertex { w with state := { w.state with dag } }) :=
    .receive hmem (.inr (.inr (.inl ((hA.has_iff hG.vertices hG.sound.dag hmem).mpr (.inl rfl)))))
  exact ((Called.of_move hm₁ rfl rfl rfl).trans (.of_move hm₂ rfl rfl rfl)).trans
    (tryAdvanceRound_called (hG₁.move hm₂) h)

theorem goOn_called (hG : Good env.cfg env.me w) (h : goOn env vertex w = some w') :
    Called env w w' := by
  unfold goOn at h
  split at h
  · cases h
    exact .refl _ _
  · obtain ⟨may, -, h⟩ := Option.bind_eq_some_iff.mp h
    split at h
    · exact tryAdvanceRound_called hG h
    · cases h
      exact .refl _ _

theorem onVertex_called (hG : Good env.cfg env.me w) (hmem : vertex ∈ w.shared.created)
    (h0 : vertex.round ≠ 0) (h : onVertex env vertex w = some w') :
    Called env (forgetCommands vertex w) w' ∧ vertex ∈ w'.state.history.received := by
  obtain ⟨w₂, added, w₃, htry, hadd, hgo⟩ := onVertex_parts h
  have hm₁ : Move env.cfg env.me w (forgetCommands vertex w) := .forget hmem
  have hG₁ := hG.move hm₁
  have h₂ := tryAll_called hG₁ (fun v hv =>
    hG.sound.buffered v ((List.mem_insertionSort _).mp hv)) htry
  have hG₂ := hG₁.moves h₂.moves
  have hmem₂ := h₂.moves.created hmem
  have h₃ := tryAddToDag_called hG₂ hmem₂ h0 hadd
  obtain ⟨-, htaken, hheld⟩ := tryAddToDag_moves hG₂ hmem₂ h0 hadd
  have hG₃ := hG₂.moves h₃.moves
  have hmem₃ := h₃.moves.created hmem₂
  have hm₄ : Moves env.cfg env.me w₃ (keepInBuffer vertex added w₃) :=
    keepInBuffer_moves hmem₃ hheld
  have h₄ : Called env w₃ (keepInBuffer vertex added w₃) := by
    cases added <;> exact .of_same hm₄ rfl rfl rfl
  have hm₅ : Move env.cfg env.me _ (receive vertex (keepInBuffer vertex added w₃)) :=
    .receive (hm₄.created hmem₃) (hG₃.mem_keepInBuffer hmem₃ htaken)
  have h₅ := (h₂.trans (h₃.trans h₄)).trans (.of_move hm₅ rfl rfl rfl)
  have h₆ := goOn_called (hG₁.moves h₅.moves) hgo
  exact ⟨h₅.trans h₆, Moves.received h₆.moves List.mem_cons_self⟩

end

/-! ## Steps -/

/-- **How a step goes on.** Replica `me` begins with `w`, forgets the commands of a vertex that
is handed out, and ends with `w'`. -/
inductive Continues (cfg : Config) (c : System) (a : Action) (me : Pid) (w w' : Work) : Prop
  | plain (env : Env) (hcfg : env.cfg = cfg) (hme : env.me = me) (h : Called env w w')
  | handed (env : Env) {vertex : Vertex} (hcfg : env.cfg = cfg) (hme : env.me = me)
      (hmem : vertex ∈ w.shared.created) (hout : c.handsOut cfg a = some (me, .vertex vertex))
      (h : Called env (forgetCommands vertex w) w') (hrec : vertex ∈ w'.state.history.received)

section

variable {cfg : Config} {c c' : System} {a : Action} {w' : Work}

theorem Invariant.deliver_continues (hI : Invariant cfg c) {index : ℕ} {drain : Hotstuff.Drain}
    {packet : Packet VertexMessage} (hk : c.network[index]? = some packet)
    (hs : packet.dst ∈ c.started)
    (h : onMessage (c.env cfg packet.dst drain) packet.src packet.msg (c.work packet.dst) =
      some w') :
    ∃ w, Begins cfg c (.deliver index drain) packet.dst (c.deliver cfg index packet) w ∧
      Continues cfg c (.deliver index drain) packet.dst w w' := by
  refine ⟨_, .deliver hk hs rfl, ?_⟩
  have hG := (hI.opening_deliver hk hs rfl).good
  have hout : c.handsOut cfg (.deliver index drain) =
      (c.handed cfg packet).map fun message => (packet.dst, message) := by
    have hnext : c.handsOut cfg (.deliver index drain) = (c.network[index]?).bind fun packet =>
        (c.handed cfg packet).map fun message => (packet.dst, message) := rfl
    rw [hnext, hk, Option.bind_some]
  unfold onMessage at h
  simp only at h
  split at h
  · cases h
    exact .plain (c.env cfg packet.dst drain) rfl rfl (.refl _ _)
  · rename_i vertex hret
    obtain ⟨hmem, h0⟩ := hI.handed_out hk hs hret
    exact .plain ((c.env cfg packet.dst drain).holding vertex) rfl rfl
      (onGenesis_called hG hmem h0 h)
  · rename_i vertex hret
    obtain ⟨hmem, h0⟩ := hI.handed_out hk hs hret
    have hret : c.handed cfg packet = some (.vertex vertex) := hret
    split at h
    · cases h
      exact .plain (c.env cfg packet.dst drain) rfl rfl (.refl _ _)
    · obtain ⟨hcalled, hrec⟩ := onVertex_called hG hmem h0 h
      exact .handed ((c.env cfg packet.dst drain).holding vertex) rfl rfl hmem
        (by rw [hout, hret]; rfl) hcalled hrec

theorem Invariant.timer_continues (hI : Invariant cfg c) {index : ℕ} {drain : Hotstuff.Drain}
    {p : Pid} {id : TimerId} (hk : c.timers[index]? = some (p, id))
    (h : onTimer (c.env cfg p drain) id (c.work p) = some w') :
    ∃ w, Begins cfg c (.timer index drain) p { c with timers := c.timers.eraseIdx index } w ∧
      Continues cfg c (.timer index drain) p w w' := by
  have hG := hI.good (hI.timers _ (List.mem_of_getElem? hk))
  let env := c.env cfg p drain
  unfold onTimer at h
  split at h
  · refine ⟨_, .request hk ‹_›, .plain env rfl rfl ?_⟩
    cases h
    split
    · exact .of_move (scheduleSubmit_move _ _ _) rfl rfl rfl
    · exact .refl _ _
  · refine ⟨_, .fire hk ‹_›, .plain env rfl rfl ?_⟩
    split at h
    · have hm := stopWaiting_move (c.work p) cfg p
      have h₁ : Called env (c.work p) _ := .of_move hm rfl rfl rfl
      exact h₁.trans (tryAdvanceRound_called (hG.move hm) h)
    · cases h
      exact .refl _ _

/-- **A step begins and goes on with calls.** -/
theorem Invariant.continues (hI : Invariant cfg c) (h : System.step cfg c a = some c') :
    ∃ me base w w', Begins cfg c a me base w ∧ Continues cfg c a me w w' ∧
      c' = base.update me w' := by
  cases a with
  | start pid drain =>
    simp only [System.step, Option.ite_none_right_eq_some] at h
    obtain ⟨⟨hp, hs⟩, h⟩ := h
    cases h
    have hmem : genesis (c.env cfg pid drain) (c.work pid) ∈
        (setUp (c.env cfg pid drain) (c.work pid)).shared.created := by
      rw [setUp_created]
      exact List.mem_cons_self
    have hround : (genesis (c.env cfg pid drain) (c.work pid)).round = 0 := rfl
    have hm : Move cfg pid (setUp (c.env cfg pid drain) (c.work pid))
        (onStart (c.env cfg pid drain) (c.work pid)) :=
      @Move.send cfg pid _ _ (.genesis _) rfl rfl hmem hround rfl
    exact ⟨pid, _, _, _, .start hp hs, .plain (c.env cfg pid drain) rfl rfl
      (.of_move hm rfl rfl rfl), rfl⟩
  | deliver index drain =>
    simp only [System.step] at h
    split at h
    · cases h
    · rename_i packet hk
      rw [Option.ite_none_right_eq_some] at h
      obtain ⟨hs, h⟩ := h
      obtain ⟨w', hw', h⟩ := Option.map_eq_some_iff.mp h
      obtain ⟨w, hb, hc⟩ := hI.deliver_continues hk hs hw'
      exact ⟨_, _, w, w', hb, hc, h.symm⟩
  | submit index =>
    simp only [System.step] at h
    split at h
    · cases h
    · rename_i pid command hk
      rw [Option.ite_none_right_eq_some] at h
      obtain ⟨hs, h⟩ := h
      cases h
      exact ⟨pid, _, _, _, .submit hk hs, .plain (c.env cfg pid inOrder) rfl rfl
        (.refl _ _), rfl⟩
  | timer index drain =>
    simp only [System.step] at h
    split at h
    · cases h
    · rename_i pid id hk
      obtain ⟨w', hw', h⟩ := Option.map_eq_some_iff.mp h
      obtain ⟨w, hb, hc⟩ := hI.timer_continues hk hw'
      exact ⟨_, _, w, w', hb, hc, h.symm⟩

theorem Continues.moves {me : Pid} {w : Work} (h : Continues cfg c a me w w') :
    Moves cfg me w w' := by
  cases h with
  | plain env hcfg hme h =>
    subst hcfg hme
    exact h.moves
  | handed env hcfg hme hmem _ h _ =>
    subst hcfg hme
    exact .head (.forget hmem) h.moves

theorem begins_genesis {me : Pid} {base : System} {w : Work} (hb : Begins cfg c a me base w)
    {v : Vertex} (hv : v ∈ w.shared.created) : v ∈ c.shared.created ∨ v.round = 0 := by
  cases hb with
  | start =>
    rw [setUp_created] at hv
    rcases List.mem_cons.mp hv with rfl | hv
    · exact .inr rfl
    · exact .inl hv
  | _ => exact .inl hv

/-- **Every new vertex comes from a call of `broadcast_vertex`**, genesis vertices apart. -/
theorem makes_of_step (hI : Invariant cfg c) (h : System.step cfg c a = some c') {v : Vertex}
    (hv : v ∈ c'.shared.created) (hnew : v ∉ c.shared.created) (h1 : 1 ≤ v.round) :
    Kept (c'.replicas v.source) v ∧ ∃ env base w w', env.cfg = cfg ∧ env.me = v.source ∧
      Begins cfg c a v.source base w ∧ Makes env v w w' ∧ c' = base.update v.source w' := by
  obtain ⟨me, base, w, w', hb, hc, rfl⟩ := hI.continues h
  have hG := (hI.opening hb).good
  have hno : v ∉ w.shared.created := fun hw =>
    (begins_genesis hb hw).elim hnew fun h0 => by omega
  obtain rfl : v.source = me := (hc.moves.created_own hv).resolve_left hno
  obtain ⟨env, hcfg, hme, hM⟩ : ∃ env : Env, env.cfg = cfg ∧ env.me = v.source ∧
      Makes env v w w' := by
    cases hc with
    | plain env hcfg hme h => exact ⟨env, hcfg, hme, (h.makes v hv).resolve_left hno⟩
    | handed env hcfg hme hmem _ h _ =>
      exact ⟨env, hcfg, hme, ((h.makes v hv).resolve_left hno).before (.single (.forget hmem))⟩
  refine ⟨?_, env, base, w, w', hcfg, hme, hb, hM, rfl⟩
  have hkept : Kept w'.state v := hM.kept (hcfg ▸ hme ▸ hG)
  unfold System.update
  simp only
  rwa [Function.update_self]

/-- **Every new entry of a log comes from a call of `order_anchors`** in the middle of a
handler. -/
theorem orders_of_step (hI : Invariant cfg c) (h : System.step cfg c a = some c') {p : Pid}
    {entry : Vertex × ℕ} (hentry : entry ∈ (c'.replicas p).history.anchors)
    (hnew : entry ∉ (c.replicas p).history.anchors) :
    ∃ env base w w', env.cfg = cfg ∧ env.me = p ∧ Begins cfg c a p base w ∧
      Orders env entry w w' ∧ c' = base.update p w' := by
  obtain ⟨me, base, w, w', hb, hc, rfl⟩ := hI.continues h
  obtain ⟨hreplicas, -⟩ := hI.begins_base hb
  unfold System.update at hentry
  simp only at hentry
  by_cases hp : p = me
  · subst hp
    rw [Function.update_self] at hentry
    have hno : entry ∉ w.state.history.anchors := by rwa [(hI.begins_bound hb).2]
    obtain ⟨env, hcfg, hme, hO⟩ : ∃ env : Env, env.cfg = cfg ∧ env.me = p ∧
        Orders env entry w w' := by
      cases hc with
      | plain env hcfg hme h => exact ⟨env, hcfg, hme, (h.orders _ hentry).resolve_left hno⟩
      | handed env hcfg hme hmem _ h _ =>
        exact ⟨env, hcfg, hme,
          ((h.orders _ hentry).resolve_left hno).before (.single (.forget hmem))⟩
    exact ⟨env, base, w, w', hcfg, hme, hb, hO, rfl⟩
  · rw [Function.update_of_ne hp, hreplicas] at hentry
    exact absurd hentry hnew

end

end Blsmr.Bullshark
