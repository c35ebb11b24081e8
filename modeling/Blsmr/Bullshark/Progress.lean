import Blsmr.Bullshark.Handlers

/-!
# When a handler goes through

Between two handlers a replica is `Steady`: its round lies above the bound, its row is
allocated, and no later row has a quorum. From such a state every function of a handler
goes through and leads to one again, except for the edges that are looked up for a vertex
that has arrived: those have to be alive, and their row has to be there
(`Steady.tryAddToDag`).
-/

namespace Blsmr.Bullshark

open Blsmr.Graph RoundBasedDAG

section

variable {n : ℕ} {created : List Vertex} {d d' : RoundBasedDAG} {v : Vertex} {r : ℕ}

/-! ## Rows with a quorum -/

/-- The DAG holds a quorum of vertices of the round. -/
def RoundBasedDAG.Full (n : ℕ) (d : RoundBasedDAG) (r : ℕ) : Prop :=
  ∃ vs : List Vertex, vs.Nodup ∧ quorumSize n ≤ vs.length ∧ ∀ v ∈ vs, d.Has v ∧ v.round = r

theorem RoundBasedDAG.Causal.full_of_row (hd : Causal n created d) {row : List (Option Vertex)}
    (hrow : d.index r = some row) (hq : quorumSize n ≤ row.reduceOption.length) : Full n d r := by
  refine ⟨row.reduceOption, .of_map _ (hd.row_sources hrow), hq, fun v hv => ?_⟩
  obtain ⟨p, hp⟩ := (mem_reduceOption_index hrow).mp hv
  exact ⟨hd.has hp, (hd.stored _ _ _ hp).2.1⟩

theorem RoundBasedDAG.Causal.row_of_full (hd : Causal n created d) (h : Full n d r) :
    ∃ row, d.index r = some row ∧ quorumSize n ≤ row.reduceOption.length := by
  obtain ⟨vs, hnd, hq, hvs⟩ := h
  have hpos := quorumSize_pos n
  obtain ⟨v, hv⟩ := List.exists_mem_of_length_pos (by omega : 0 < vs.length)
  obtain ⟨hle, hlt, -⟩ := hd.within (hvs v hv).1
  rw [(hvs v hv).2] at hle hlt
  obtain ⟨row, hrow⟩ := Option.isSome_iff_exists.mp (index_isSome_iff.mpr ⟨hle, hlt⟩)
  refine ⟨row, hrow, hq.trans (List.subperm_of_subset hnd fun u hu => ?_).length_le⟩
  obtain ⟨hhas, hr⟩ := hvs u hu
  exact (mem_reduceOption_index hrow).mpr ⟨u.source, hr ▸ hhas⟩

theorem RoundBasedDAG.Full.of_added (hV : Vertices n created) (hd : Causal n created d)
    (hA : Added n v d d') (hv : v ∈ created) (h : Full n d' r) : Full n d r ∨ r = v.round := by
  obtain ⟨vs, hnd, hq, hvs⟩ := h
  by_cases hr : r = v.round
  · exact .inr hr
  · refine .inl ⟨vs, hnd, hq, fun u hu => ?_⟩
    obtain ⟨hhas, hur⟩ := hvs u hu
    rcases (hA.has_iff hV hd hv).mp hhas with rfl | hhas
    · exact absurd hur.symm hr
    · exact ⟨hhas, hur⟩

theorem RoundBasedDAG.Full.mono (h : ∀ v, d'.Has v → d.Has v) (hf : Full n d' r) : Full n d r := by
  obtain ⟨vs, hnd, hq, hvs⟩ := hf
  exact ⟨vs, hnd, hq, fun u hu => ⟨h u (hvs u hu).1, (hvs u hu).2⟩⟩

end

/-- **A replica between two handlers.** -/
structure Steady (cfg : Config) (me : Pid) (w : Work) : Prop where
  good : Good cfg me w
  floor : w.state.dag.gcOffset = 0 ∨ w.state.dag.gcOffset < w.state.round
  top : w.state.round = 0 ∨ w.state.round < w.state.dag.currentAllocatedRounds
  full : ∀ r, Full cfg.procNum w.state.dag r → r ≤ w.state.round
  clock : w.state.round = 0 → w.state.timer = 0

/-- What adding a vertex does besides: nothing is thrown away, the bound stays below the
vertex, and the row of the bound does not change before the bound does. -/
structure Frame (cfg : Config) (me : Pid) (bound : ℕ) (w w' : Work) : Prop where
  moves : Moves cfg me w w'
  thrown : w'.state.history.thrown = w.state.history.thrown
  offset : w'.state.dag.gcOffset ≤ max w.state.dag.gcOffset bound
  row : w'.state.dag.gcOffset = w.state.dag.gcOffset → ∀ p,
    w'.state.dag.vertexAt w.state.dag.gcOffset p = w.state.dag.vertexAt w.state.dag.gcOffset p

/-- What has been created since has been broadcast. -/
def Told (w w' : Work) : Prop :=
  ∀ v ∈ w'.shared.created, v ∈ w.shared.created ∨ ∃ b ∈ w'.shared.broadcasts, b.2.content = v

/-- **What adding a vertex does besides.** -/
structure Adds (cfg : Config) (me : Pid) (bound : ℕ) (w w' : Work) : Prop
    extends Frame cfg me bound w w' where
  told : Told w w'

section

variable {cfg : Config} {me : Pid} {w w' w'' : Work} {bound : ℕ}

theorem Move.grows (hG : Good cfg me w) (h : Move cfg me w w') :
    w.state.dag.gcOffset ≤ w'.state.dag.gcOffset ∧
      w.state.dag.currentAllocatedRounds ≤ w'.state.dag.currentAllocatedRounds := by
  cases h with
  | add _ _ _ hadd =>
    have hA := hG.sound.dag.shaped.addVertex hadd
    exact ⟨hA.gcOffset.ge, hA.allocated ▸ le_max_left _ _⟩
  | genesis _ _ hadd =>
    have hA := hG.sound.dag.shaped.addVertex hadd
    exact ⟨hA.gcOffset.ge, hA.allocated ▸ le_max_left _ _⟩
  | order _ _ hanchor _ hcommit =>
    have hle := le_of_vertexAt hanchor
    exact ⟨by simp only; rw [hcommit.gcOffset]; exact hle, hcommit.allocated.ge⟩
  | _ => exact ⟨Nat.le_refl _, Nat.le_refl _⟩

theorem Moves.grows (hG : Good cfg me w) (h : Moves cfg me w w') :
    w.state.dag.gcOffset ≤ w'.state.dag.gcOffset ∧
      w.state.dag.currentAllocatedRounds ≤ w'.state.dag.currentAllocatedRounds := by
  induction h with
  | refl => exact ⟨Nat.le_refl _, Nat.le_refl _⟩
  | tail hms hm ih =>
    obtain ⟨h₁, h₂⟩ := hm.grows (hG.moves hms)
    exact ⟨ih.1.trans h₁, ih.2.trans h₂⟩

theorem Frame.trans (hG : Good cfg me w) (h : Frame cfg me bound w w')
    (h' : Frame cfg me bound w' w'') : Frame cfg me bound w w'' where
  moves := h.moves.trans h'.moves
  thrown := h'.thrown.trans h.thrown
  offset := by
    have := h.offset
    have := h'.offset
    omega
  row heq p := by
    have h₁ := (Moves.grows hG h.moves).1
    have h₂ := (Moves.grows (hG.moves h.moves) h'.moves).1
    have h₃ : w'.state.dag.gcOffset = w.state.dag.gcOffset := by omega
    have := h'.row (by omega) p
    rw [h₃] at this
    exact this.trans (h.row h₃ p)

theorem Frame.of_dag (hm : Moves cfg me w w')
    (hthrown : w'.state.history.thrown = w.state.history.thrown)
    (hdag : w'.state.dag = w.state.dag) : Frame cfg me bound w w' :=
  ⟨hm, hthrown, hdag ▸ le_max_left _ _, fun _ _ => hdag ▸ rfl⟩

theorem Move.broadcasts (h : Move cfg me w w') :
    w.shared.broadcasts ⊆ w'.shared.broadcasts := by
  cases h with
  | send => exact List.subset_cons_self _ _
  | _ => exact List.Subset.refl _

theorem Moves.broadcasts (h : Moves cfg me w w') :
    w.shared.broadcasts ⊆ w'.shared.broadcasts := by
  induction h with
  | refl => exact List.Subset.refl _
  | tail _ hm ih => exact fun b hb => hm.broadcasts (ih hb)

theorem Told.of_created (h : w'.shared.created = w.shared.created) : Told w w' :=
  fun _ hv => .inl (h ▸ hv)

theorem Told.trans (h : Told w w') (hm : Moves cfg me w' w'') (h' : Told w' w'') : Told w w'' := by
  intro v hv
  rcases h' v hv with hv | hv
  · exact (h v hv).imp_right fun ⟨b, hb, heq⟩ => ⟨b, Moves.broadcasts hm hb, heq⟩
  · exact .inr hv

theorem Adds.refl (cfg : Config) (me : Pid) (bound : ℕ) (w : Work) : Adds cfg me bound w w :=
  ⟨.of_dag .refl rfl rfl, .of_created rfl⟩

theorem Adds.trans (hG : Good cfg me w) (h : Adds cfg me bound w w')
    (h' : Adds cfg me bound w' w'') : Adds cfg me bound w w'' :=
  ⟨h.toFrame.trans hG h'.toFrame, h.told.trans h'.moves h'.told⟩

end

/-! ## Looking up edges -/

section

variable {env : Env} {w w' : Work} {vertex : Vertex}

theorem upgrade_of_alive {s : Bullshark} {u : Vertex} (h : s.alive env u = true) :
    s.upgrade env u = some u := if_pos h

theorem mapM_upgrade_of_alive {s : Bullshark} {edges : List Vertex}
    (h : ∀ u ∈ edges, s.alive env u = true) : edges.mapM (s.upgrade env) = some edges := by
  induction edges with
  | nil => rfl
  | cons u edges ih =>
    rw [List.mapM_cons, upgrade_of_alive (h u List.mem_cons_self),
      ih fun x hx => h x (List.mem_cons_of_mem u hx)]
    rfl

/-- The edges that the check of a vertex looks at: up to the first that is not in the
DAG. -/
def examined (s : Bullshark) : List Vertex → List Vertex
  | [] => []
  | u :: us => if s.inDag u then u :: examined s us else [u]

theorem knowsAll_isSome {n : ℕ} {s : Bullshark} (hd : Shaped n s.dag) {edges : List Vertex}
    (hwithin : ∀ u ∈ edges, Within n s.dag u.round u.source)
    (halive : ∀ u ∈ s.examined edges, s.alive env u = true) :
    (s.knowsAll env edges).isSome = true := by
  induction edges with
  | nil => rfl
  | cons u edges ih =>
    unfold knowsAll
    have hu : u ∈ s.examined (u :: edges) := by
      unfold examined
      split
      · exact List.mem_cons_self
      · exact List.mem_singleton_self u
    have hslot := hd.slot_of_within (hwithin u List.mem_cons_self)
    rw [upgrade_of_alive (halive u hu), Option.bind_eq_bind, Option.bind_some, hslot,
      Option.bind_eq_bind, Option.bind_some]
    cases hat : s.dag.vertexAt u.round u.source with
    | none => rfl
    | some known =>
      simp only
      split
      · rename_i hsame
        have hin : s.inDag u = true := by
          unfold inDag
          rw [vertexAt_eq_some.mp hat]
          exact hsame
        refine ih (fun x hx => hwithin x (List.mem_cons_of_mem u hx)) fun x hx => halive x ?_
        unfold examined
        rw [if_pos hin]
        exact List.mem_cons_of_mem u hx
      · rfl

theorem knowsAll_of_has {s : Bullshark} {edges : List Vertex} (h : ∀ u ∈ edges, s.dag.Has u) :
    s.knowsAll env edges = some true := by
  induction edges with
  | nil => rfl
  | cons u edges ih =>
    have hu := h u List.mem_cons_self
    unfold knowsAll
    rw [upgrade_of_alive (alive_of_has hu), Option.bind_eq_bind, Option.bind_some,
      vertexAt_eq_some.mp hu, Option.bind_eq_bind, Option.bind_some]
    simp only
    rw [if_pos (sameVertex_self u), ih fun x hx => h x (List.mem_cons_of_mem u hx)]

theorem quorumReached_of_index {s : Bullshark} {round : ℕ} {row : List (Option Vertex)}
    (h : s.dag.index round = some row) : s.quorumReachedForRound round =
      some (decide (quorumSize s.procNum ≤ row.reduceOption.length)) := by
  unfold quorumReachedForRound
  rw [h]
  rfl

theorem Good.catchUp_of_le (hG : Good env.cfg env.me w) {f : ℕ → Work → Option Work}
    (hhas : w.state.dag.Has vertex) (hle : vertex.round ≤ w.state.round) :
    catchUp f vertex w = some w := by
  have hin := hG.sound.dag.within hhas
  obtain ⟨row, hrow⟩ := Option.isSome_iff_exists.mp (index_isSome_iff.mpr ⟨hin.1, hin.2.1⟩)
  rw [Bullshark.catchUp_of_le hle, quorumReached_of_index hrow, Option.map_some]

theorem tryAddWith_of_has {f : ℕ → Work → Option Work}
    (hlt : w.state.dag.gcOffset < vertex.round)
    (hmax : vertex.round - 1 ≤ w.state.dag.currentMaxAllocatedRound)
    (hedges : ∀ u ∈ vertex.strongEdges, w.state.dag.Has u) :
    tryAddWith f env vertex w = (place f env vertex w).map (Prod.mk true) := by
  unfold tryAddWith
  rw [if_neg (show ¬ vertex.round ≤ w.state.dag.minRound from Nat.not_le_of_lt hlt),
    if_neg (Nat.not_lt_of_le hmax), knowsAll_of_has hedges, Option.bind_eq_bind,
    Option.bind_some, if_pos rfl, Option.map_eq_bind]
  rfl

theorem Good.broadcastVertex_eq (hG : Good env.cfg env.me w) {round : ℕ} (h0 : round ≠ 0)
    (hlt : w.state.dag.gcOffset < round) {row : List (Option Vertex)}
    (hrow : w.state.dag.index (round - 1) = some row) :
    Bullshark.broadcastVertex env round (startTimer { w with state := { w.state with round } }) =
      (place (fun _ _ => none) env (ownVertex env round row w) (entering env round row w)).map
        (reliablyBroadcast env (.vertex (ownVertex env round row w))) := by
  have hmax : round - 1 ≤ w.state.dag.currentMaxAllocatedRound := by
    have := (index_isSome_iff.mp (by rw [hrow]; rfl : (w.state.dag.index (round - 1)).isSome)).2
    unfold currentMaxAllocatedRound
    omega
  have hadd : tryAddWith (fun _ _ => none) env (ownVertex env round row w)
      (entering env round row w) = (place (fun _ _ => none) env (ownVertex env round row w)
        (entering env round row w)).map (Prod.mk true) :=
    tryAddWith_of_has hlt hmax (hG.own_edges hrow)
  unfold Bullshark.broadcastVertex
  rw [createVertex_eq h0 hrow, Option.bind_eq_bind, Option.bind_some]
  simp only
  rw [hadd, Option.bind_eq_bind, Option.bind_map, Option.map_eq_bind]
  rfl

/-! ## Ordering -/

/-- The votes of a vertex for the anchor have been counted. -/
def counted (vertex anchor : Vertex) (w : Work) : Work :=
  { w with state := { w.state with history := { w.state.history with
    counts := ⟨vertex, anchor, (votes anchor vertex.strongEdges).length⟩ ::
      w.state.history.counts } } }

/-- The anchor of a vertex is two rounds below. -/
structure AnchorOf (d : RoundBasedDAG) (vertex anchor : Vertex) : Prop where
  has : d.Has anchor
  round : vertex.round = anchor.round + 2
  even : anchor.round % 2 = 0

/-- `try_ordering` looks for the anchor of a vertex that is in the DAG, and counts the votes
if there is one. -/
theorem Good.tryOrdering_eq (hG : Good env.cfg env.me w) (hhas : w.state.dag.Has vertex)
    (hlt : w.state.dag.gcOffset < vertex.round) :
    Bullshark.tryOrdering env vertex w = some w ∨
      ∃ anchor, AnchorOf w.state.dag vertex anchor ∧
        Bullshark.tryOrdering env vertex w =
          if directCommitThreshold w.state.procNum ≤ (votes anchor vertex.strongEdges).length then
            orderAnchors env anchor (counted vertex anchor w)
          else some (counted vertex anchor w) := by
  have heven := hG.sound.even
  unfold Bullshark.tryOrdering
  by_cases hround : vertex.round % 2 = 1 ∨ vertex.round = 0
  · rw [if_pos hround]
    exact .inl rfl
  have hanchor : w.state.getAnchor (vertex.round - 2) = some (w.state.dag.vertexAt
      (vertex.round - 2) (leader env.cfg.procNum (vertex.round - 2))) :=
    getAnchor_eq hG.vertices hG.sound.dag hG.sound.procNum hhas (by omega) (by omega)
  rw [if_neg hround, hanchor]
  cases hat : w.state.dag.vertexAt (vertex.round - 2)
      (leader env.cfg.procNum (vertex.round - 2)) with
  | none => exact .inl rfl
  | some anchor =>
    obtain ⟨-, har, -⟩ := hG.sound.dag.stored _ _ _ hat
    have hedges : vertex.strongEdges.mapM (w.state.upgrade env) = some vertex.strongEdges :=
      mapM_upgrade_of_alive fun u hu => alive_of_has (hG.sound.dag.closed vertex hhas hlt u hu)
    refine .inr ⟨anchor, ⟨hG.sound.dag.has hat, by omega, by omega⟩, ?_⟩
    rw [Option.bind_eq_bind, Option.bind_some]
    simp only
    rw [hedges]
    rfl

theorem Steady.tryOrdering (hS : Steady env.cfg env.me w) (hmem : vertex ∈ w.shared.created)
    (hhas : w.state.dag.Has vertex) (hlt : w.state.dag.gcOffset < vertex.round) :
    ∃ w', Bullshark.tryOrdering env vertex w = some w' ∧ Steady env.cfg env.me w' ∧
      Adds env.cfg env.me (vertex.round - 2) w w' := by
  have hG := hS.good
  rcases hG.tryOrdering_eq hhas hlt with hto | ⟨anchor, hA, hto⟩
  · exact ⟨w, hto, hS, .refl _ _ _ w⟩
  have hGc : Good env.cfg env.me (counted vertex anchor w) :=
    ⟨hG.me_lt, hG.vertices, { hG.sound with }⟩
  have hSc : Steady env.cfg env.me (counted vertex anchor w) :=
    ⟨hGc, hS.floor, hS.top, hS.full, hS.clock⟩
  have hround := hA.round
  by_cases hvotes : directCommitThreshold w.state.procNum ≤
      (votes anchor vertex.strongEdges).length
  · rw [if_pos hvotes] at hto
    obtain ⟨d, commits, history, he, hC⟩ := hGc.orderAnchors_spec env hA.has hA.even
    rw [he] at hto
    have hmoves := tryOrdering_moves hG hmem hto
    refine ⟨_, hto, ⟨hG.moves hmoves, .inr ?_, ?_, fun r hf => ?_, hS.clock⟩,
      ⟨⟨hmoves, hC.thrown, ?_, fun heq p => ?_⟩, .of_created rfl⟩⟩
    · obtain ⟨row, hrow, hq⟩ := hG.row_below hmem hhas hlt
      have hle := hS.full _ (hG.sound.dag.full_of_row hrow hq)
      have hlt' : anchor.round < w.state.round := by omega
      simp only
      rw [hC.gcOffset]
      exact hlt'
    · rw [hC.allocated]
      exact hS.top
    · refine hS.full r (hf.mono fun v hv => ?_)
      unfold Has at *
      rw [hC.vertexAt] at hv
      split at hv
      · exact hv
      · cases hv
    · simp only
      rw [hC.gcOffset, show anchor.round = vertex.round - 2 by omega]
      exact le_max_right _ _
    · simp only at heq ⊢
      rw [hC.vertexAt, if_pos (hC.gcOffset ▸ heq.le)]
      rfl
  · rw [if_neg hvotes] at hto
    exact ⟨_, hto, hSc, .of_dag (tryOrdering_moves hG hmem hto) rfl rfl, .of_created rfl⟩

/-! ## Adding vertices -/

theorem Good.place {broadcast : ℕ → Work → Option Work}
    (hG : Good env.cfg env.me w) (hmem : vertex ∈ w.shared.created)
    (hlt : w.state.dag.gcOffset < vertex.round)
    (hedges : ∀ u ∈ vertex.strongEdges, w.state.dag.Has u)
    (hcatch : ∀ dag, Added env.cfg.procNum vertex w.state.dag dag →
      Good env.cfg env.me { w with state := { w.state with dag } } → dag.Has vertex →
      ∃ w₂, catchUp broadcast vertex { w with state := { w.state with dag } } = some w₂ ∧
        Steady env.cfg env.me w₂ ∧
        Adds env.cfg env.me (vertex.round - 2) { w with state := { w.state with dag } } w₂) :
    ∃ w', Bullshark.place broadcast env vertex w = some w' ∧ Steady env.cfg env.me w' ∧
      Adds env.cfg env.me (vertex.round - 2) w w' := by
  have hd := hG.sound.dag
  obtain ⟨dag, hadd⟩ := Option.isSome_iff_exists.mp
    (hd.shaped.addVertex_isSome hlt.le (hG.vertices.source_lt vertex hmem).le)
  have hA := hd.shaped.addVertex hadd
  have hm₁ : Move env.cfg env.me _ _ := .add hmem hlt hedges hadd
  have hG₁ := hG.move hm₁
  have hhas₁ : dag.Has vertex := (hA.has_iff hG.vertices hd hmem).mpr (.inl rfl)
  obtain ⟨w₂, hcatch, hS₂, hA₂⟩ := hcatch dag hA hG₁ hhas₁
  have hmem₂ := hA₂.moves.created hmem
  have hgrow₂ := Moves.grows hG₁ hA₂.moves
  have hlt₂ : w₂.state.dag.gcOffset < vertex.round := by
    have h₁ := hA₂.offset
    have h₂ : dag.gcOffset = w.state.dag.gcOffset := hA.gcOffset
    simp only at h₁
    omega
  have hhas₂ : w₂.state.dag.Has vertex := by
    rcases hA₂.moves.kept hG₁ (.inl hhas₁) with h | h
    · exact h
    · omega
  have hm₃ : Move env.cfg env.me _ _ := .release hmem₂ (.inl hhas₂)
  have hS₃ : Steady env.cfg env.me { w₂ with
      state := { w₂.state with buffer := bufferRemove vertex w₂.state.buffer } } :=
    ⟨hS₂.good.move hm₃, hS₂.floor, hS₂.top, hS₂.full, hS₂.clock⟩
  have hto₁ : Adds env.cfg env.me (vertex.round - 2) w
      { w with state := { w.state with dag } } := by
    refine ⟨⟨.single hm₁, rfl, hA.gcOffset ▸ le_max_left _ _, fun _ p => ?_⟩, .of_created rfl⟩
    rw [hA.vertexAt, if_neg fun h => absurd h.1 (by omega)]
  have hto₃ := (hto₁.trans hG hA₂).trans hG ⟨.of_dag (.single hm₃) rfl rfl, .of_created rfl⟩
  unfold Bullshark.place
  rw [hadd, Option.bind_eq_bind, Option.bind_some]
  simp only
  rw [hcatch, Option.bind_eq_bind, Option.bind_some]
  split
  · obtain ⟨w', he, hS', hA'⟩ := hS₃.tryOrdering hmem₂ hhas₂ hlt₂
    exact ⟨w', he, hS', hto₃.trans hG hA'⟩
  · exact ⟨_, rfl, hS₃, hto₃⟩

theorem Good.broadcastVertex (hG : Good env.cfg env.me w) {round : ℕ}
    (hround : w.state.round < round) (hlt : w.state.dag.gcOffset < round)
    {row : List (Option Vertex)} (hrow : w.state.dag.index (round - 1) = some row)
    (hquorum : quorumSize env.cfg.procNum ≤ row.reduceOption.length)
    (hfull : ∀ r, Full env.cfg.procNum w.state.dag r → r ≤ round) :
    ∃ w', Bullshark.broadcastVertex env round
        (startTimer { w with state := { w.state with round } }) = some w' ∧
      Steady env.cfg env.me w' ∧ Adds env.cfg env.me (round - 2) w w' := by
  have h0 : round ≠ 0 := by omega
  have hm₁ := entering_moves hround hrow hquorum
  have hG₁ := hG.moves hm₁
  have hmem : ownVertex env round row w ∈ (entering env round row w).shared.created :=
    List.mem_cons_self
  have hplace : ∃ w₂, Bullshark.place (fun _ _ => none) env (ownVertex env round row w)
      (entering env round row w) = some w₂ ∧ Steady env.cfg env.me w₂ ∧
      Adds env.cfg env.me (round - 2) (entering env round row w) w₂ := by
    refine hG₁.place hmem hlt (hG.own_edges hrow) fun dag hA hG' hhas => ?_
    have hin := hG'.sound.dag.within hhas
    refine ⟨_, hG'.catchUp_of_le hhas le_rfl, ⟨hG', .inr ?_, .inr hin.2.1, fun r hf => ?_,
      fun hz => absurd hz h0⟩, .refl _ _ _ _⟩
    · have hoffset : dag.gcOffset < round := hA.gcOffset ▸ hlt
      exact hoffset
    · rcases hf.of_added hG₁.vertices hG₁.sound.dag hA hmem with hf | hr
      · exact hfull r hf
      · exact hr.le
  obtain ⟨w₂, he, hS₂, hA₂⟩ := hplace
  have hm₃ : Move env.cfg env.me w₂
      (reliablyBroadcast env (.vertex (ownVertex env round row w)) w₂) :=
    .send rfl rfl (hA₂.moves.created hmem) h0 rfl
  refine ⟨_, by rw [hG.broadcastVertex_eq h0 hlt hrow, he]; rfl,
    ⟨hS₂.good.move hm₃, hS₂.floor, hS₂.top, hS₂.full, hS₂.clock⟩,
    ((Frame.of_dag hm₁ rfl rfl).trans hG hA₂.toFrame).trans hG (.of_dag (.single hm₃) rfl rfl),
    fun v hv => ?_⟩
  rcases hA₂.told v hv with hv | ⟨b, hb, heq⟩
  · rcases List.mem_cons.mp hv with rfl | hv
    · exact .inr ⟨_, List.mem_cons_self, rfl⟩
    · exact .inl hv
  · exact .inr ⟨b, List.mem_cons_of_mem _ hb, heq⟩

theorem Steady.catchUp (hS : Steady env.cfg env.me w) (hmem : vertex ∈ w.shared.created)
    (hlt : w.state.dag.gcOffset < vertex.round) {dag : RoundBasedDAG}
    (hA : Added env.cfg.procNum vertex w.state.dag dag)
    (hG : Good env.cfg env.me { w with state := { w.state with dag } }) (hhas : dag.Has vertex) :
    ∃ w₂, Bullshark.catchUp (Bullshark.broadcastVertex env) vertex
        { w with state := { w.state with dag } } = some w₂ ∧ Steady env.cfg env.me w₂ ∧
      Adds env.cfg env.me (vertex.round - 2) { w with state := { w.state with dag } } w₂ := by
  have hin := hG.sound.dag.within hhas
  have hoffset : dag.gcOffset < vertex.round := hA.gcOffset ▸ hlt
  obtain ⟨row, hrow⟩ := Option.isSome_iff_exists.mp (index_isSome_iff.mpr ⟨hin.1, hin.2.1⟩)
  have hfull : ∀ r, Full env.cfg.procNum dag r → r ≤ w.state.round ∨ r = vertex.round :=
    fun r hf =>
      (hf.of_added hS.good.vertices hS.good.sound.dag hA hmem).imp_left (hS.full r)
  unfold Bullshark.catchUp
  simp only
  rw [quorumReached_of_index hrow, Option.bind_eq_bind, Option.bind_some]
  split
  · rename_i hr
    obtain ⟨below, hbelow, hquorum⟩ := hG.row_below hmem hhas hoffset
    refine hG.broadcastVertex hr.2 hoffset hbelow hquorum fun r hf => ?_
    have hlate : w.state.round < vertex.round := hr.2
    rcases hfull r hf with h | h <;> omega
  · rename_i hr
    refine ⟨_, rfl, ⟨hG, ?_, ?_, fun r hf => ?_, hS.clock⟩, .refl _ _ _ _⟩
    · simp only
      rw [hA.gcOffset]
      exact hS.floor
    · refine hS.top.imp_right fun h => ?_
      simp only
      rw [hA.allocated]
      omega
    · rcases hfull r hf with h | rfl
      · exact h
      · obtain ⟨row', hrow', hq⟩ := hG.sound.dag.row_of_full hf
        rw [Option.some.inj (hrow'.symm.trans hrow)] at hq
        rw [not_and] at hr
        refine Nat.le_of_not_lt (hr ?_)
        rw [decide_eq_true_iff, hS.good.sound.procNum]
        exact hq

/-- A vertex of a row that is there, with edges that are alive, is added, kept for later,
or thrown away. -/
theorem Steady.tryAddToDag (hS : Steady env.cfg env.me w) (hmem : vertex ∈ w.shared.created)
    (hknown : w.state.dag.gcOffset < vertex.round →
      vertex.round - 1 ≤ w.state.dag.currentMaxAllocatedRound →
      (w.state.knowsAll env vertex.strongEdges).isSome = true) :
    ∃ added w', Bullshark.tryAddToDag env vertex w = some (added, w') ∧
      (Steady env.cfg env.me w' ∧ Adds env.cfg env.me (vertex.round - 2) w w' ∨
        vertex.round ≤ w.state.dag.gcOffset ∧ w' = discard vertex w) := by
  unfold Bullshark.tryAddToDag tryAddWith
  by_cases hle : vertex.round ≤ w.state.dag.minRound
  · rw [if_pos hle]
    exact ⟨true, _, rfl, .inr ⟨hle, rfl⟩⟩
  rw [if_neg hle]
  have hlt : w.state.dag.gcOffset < vertex.round := Nat.lt_of_not_le hle
  by_cases hmax : vertex.round - 1 > w.state.dag.currentMaxAllocatedRound
  · rw [if_pos hmax]
    exact ⟨false, w, rfl, .inl ⟨hS, .refl _ _ _ w⟩⟩
  rw [if_neg hmax]
  obtain ⟨known, hk⟩ := Option.isSome_iff_exists.mp (hknown hlt (Nat.le_of_not_lt hmax))
  rw [hk, Option.bind_eq_bind, Option.bind_some]
  cases known with
  | false => exact ⟨false, w, rfl, .inl ⟨hS, .refl _ _ _ w⟩⟩
  | true =>
    have hedges := hS.good.has_edges hmem hk
    obtain ⟨w', he, hS', hA'⟩ :=
      hS.good.place hmem hlt hedges fun _ hA hG hhas => hS.catchUp hmem hlt hA hG hhas
    refine ⟨true, w', ?_, .inl ⟨hS', hA'⟩⟩
    rw [if_pos rfl, he]
    rfl

theorem Steady.tryAdvanceRound (hS : Steady env.cfg env.me w)
    (hrow : w.state.round < w.state.dag.currentAllocatedRounds) :
    ∃ w', Bullshark.tryAdvanceRound env w = some w' ∧ Steady env.cfg env.me w' ∧
      Moves env.cfg env.me w w' ∧ Told w w' := by
  have hle : w.state.dag.gcOffset ≤ w.state.round := by
    have := hS.floor
    omega
  obtain ⟨row, hrow⟩ := Option.isSome_iff_exists.mp (index_isSome_iff.mpr ⟨hle, hrow⟩)
  unfold Bullshark.tryAdvanceRound
  rw [quorumReached_of_index hrow, Option.bind_eq_bind, Option.bind_some]
  split
  · rename_i hq
    rw [decide_eq_true_iff, hS.good.sound.procNum] at hq
    obtain ⟨w', he, hS', hA⟩ := hS.good.broadcastVertex (Nat.lt_succ_self _)
      (Nat.lt_succ_of_le hle) hrow hq fun r hf => (hS.full r hf).trans (Nat.le_succ _)
    exact ⟨w', he, hS', hA.moves, hA.told⟩
  · exact ⟨w, rfl, hS, .refl, .of_created rfl⟩

end

end Blsmr.Bullshark
