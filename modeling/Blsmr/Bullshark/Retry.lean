import Blsmr.Bullshark.Steps

/-!
# What the retry of the buffer takes in

A delivered vertex makes the replica try the vertices of its buffer once, in the order of
their rounds, and then the vertex itself. The pass places exactly the vertices that are
`Placeable` at its beginning. A vertex of the buffer that lacked the delivered one only is
not tried again (`none_addable`).
-/

namespace Blsmr.Bullshark

open Blsmr.Transition Blsmr.Graph RoundBasedDAG
open Broadcast (Packet)

/-- What a part of a handler does that places the vertices `P`, and own new ones: they
leave the buffer, the bound does not rise above `bound`, and nothing is thrown away. -/
structure Places (P : Vertex → Prop) (bound : ℕ) (w w' : Work) : Prop where
  has : ∀ x ∈ w.shared.created, w'.state.dag.Has x → w.state.dag.Has x ∨ P x
  buffer : ∀ x, x ∈ w'.state.buffer ↔ x ∈ w.state.buffer ∧ ¬ P x
  offset : w'.state.dag.gcOffset ≤ max w.state.dag.gcOffset bound
  thrown : w'.state.history.thrown = w.state.history.thrown

/-- The replica is in the round it was in. -/
def SameRound (w w' : Work) : Prop :=
  w'.state.round = w.state.round ∧ w'.state.wait = w.state.wait

/-- The replica enters a round: it begins to wait, and its own vertex is in the DAG. -/
structure Enters (me : Pid) (round : ℕ) (w w' : Work) : Prop where
  later : w.state.round < round
  entered : w'.state.round = round
  wait : w'.state.wait = true
  own : ∃ v, v.source = me ∧ v.round = round ∧ w'.state.dag.Has v

section

variable {P Q : Vertex → Prop} {env : Env} {w w' w'' : Work} {v : Vertex} {bound : ℕ}

theorem Places.trans (h : Places P bound w w') (h' : Places Q bound w' w'')
    (hsub : w.shared.created ⊆ w'.shared.created) :
    Places (fun x => P x ∨ Q x) bound w w'' where
  has x hx hhas := by
    rcases h'.has x (hsub hx) hhas with hhas | hQ
    · exact (h.has x hx hhas).imp_right .inl
    · exact .inr (.inr hQ)
  buffer x := by rw [h'.buffer, h.buffer, not_or, and_assoc]
  offset := by
    have := h.offset
    have := h'.offset
    omega
  thrown := h'.thrown.trans h.thrown

theorem Places.congr (h : Places P bound w w') (hPQ : ∀ x, P x ↔ Q x) : Places Q bound w w' := by
  obtain rfl : P = Q := funext fun x => propext (hPQ x)
  exact h

theorem Places.mono {bound' : ℕ} (h : Places P bound w w') (hle : bound ≤ bound') :
    Places P bound' w w' :=
  ⟨h.has, h.buffer, h.offset.trans (max_le_max_left _ hle), h.thrown⟩

theorem Places.of_same (hdag : w'.state.dag = w.state.dag)
    (hbuffer : w'.state.buffer = w.state.buffer)
    (hthrown : w'.state.history.thrown = w.state.history.thrown) :
    Places (fun _ => False) bound w w' :=
  ⟨fun x _ hx => .inl (hdag ▸ hx), fun x => by rw [hbuffer, not_false_eq_true, and_true],
    hdag ▸ le_max_left _ _, hthrown⟩

theorem SameRound.trans (h : SameRound w w') (h' : SameRound w' w'') : SameRound w w'' :=
  ⟨h'.1.trans h.1, h'.2.trans h.2⟩

theorem Good.mem_bufferRemove (hG : Good env.cfg env.me w) (hmem : v ∈ w.shared.created)
    {x : Vertex} : x ∈ bufferRemove v w.state.buffer ↔ x ∈ w.state.buffer ∧ ¬ x = v := by
  rw [Bullshark.mem_bufferRemove]
  refine and_congr_right fun hx => not_congr ⟨fun hk => ?_, fun heq => heq ▸ rfl⟩
  exact hG.vertices.key_eq (hG.sound.buffered x hx).1 hmem hk.symm

/-! ## The parts of a handler -/

theorem tryOrdering_places (hG : Good env.cfg env.me w)
    (h : tryOrdering env v w = some w') :
    Places (fun _ => False) (v.round - 2) w w' ∧ SameRound w w' := by
  unfold tryOrdering at h
  split at h
  · cases h
    exact ⟨.of_same rfl rfl rfl, rfl, rfl⟩
  · rename_i hround
    rw [Option.bind_eq_bind, Option.bind_eq_some_iff] at h
    obtain ⟨o, ho, h⟩ := h
    cases o with
    | none =>
      cases h
      exact ⟨.of_same rfl rfl rfl, rfl, rfl⟩
    | some anchor =>
      unfold getAnchor at ho
      obtain ⟨-, har, -⟩ := hG.sound.dag.stored _ _ _ (vertexAt_eq_some.mpr ho)
      have hhas := hG.sound.dag.has (vertexAt_eq_some.mpr ho)
      simp only at h
      rw [Option.bind_eq_bind, Option.bind_eq_some_iff] at h
      obtain ⟨edges, -, h⟩ := h
      split at h
      · have hGc : Good env.cfg env.me { w with state := { w.state with history :=
            { w.state.history with counts := ⟨v, anchor, (votes anchor edges).length⟩ ::
              w.state.history.counts } } } := ⟨hG.me_lt, hG.vertices, { hG.sound with }⟩
        obtain ⟨d, commits, history, he, hC⟩ :=
          hGc.sound.toReady.orderAnchors hGc.vertices hhas (by omega)
        rw [he] at h
        cases h
        refine ⟨⟨fun x _ hx => .inl ?_, fun x => by simp, ?_, hC.thrown⟩, rfl, rfl⟩
        · unfold Has at hx ⊢
          rw [hC.vertexAt] at hx
          split at hx
          · exact hx
          · cases hx
        · simp only
          rw [hC.gcOffset, har]
          exact le_max_right _ _
      · cases h
        exact ⟨.of_same rfl rfl rfl, rfl, rfl⟩

theorem place_places {broadcast : ℕ → Work → Option Work} (hG : Good env.cfg env.me w)
    (hmem : v ∈ w.shared.created) (hlt : w.state.dag.gcOffset < v.round)
    (hedges : ∀ u ∈ v.strongEdges, w.state.dag.Has u)
    (hcatch : ∀ {dag : RoundBasedDAG} {w₂ : Work}, Added env.cfg.procNum v w.state.dag dag →
      Good env.cfg env.me { w with state := { w.state with dag } } → dag.Has v →
      catchUp broadcast v { w with state := { w.state with dag } } = some w₂ →
      Moves env.cfg env.me { w with state := { w.state with dag } } w₂ ∧
        Places (fun _ => False) (v.round - 2) { w with state := { w.state with dag } } w₂)
    (h : place broadcast env v w = some w') :
    ∃ dag w₂, Added env.cfg.procNum v w.state.dag dag ∧
      Good env.cfg env.me { w with state := { w.state with dag } } ∧
      catchUp broadcast v { w with state := { w.state with dag } } = some w₂ ∧
      Good env.cfg env.me w₂ ∧ Moves env.cfg env.me w₂ w' ∧ SameRound w₂ w' ∧
      Places (· = v) (v.round - 2) w w' := by
  have hd := hG.sound.dag
  unfold place at h
  rw [Option.bind_eq_bind, Option.bind_eq_some_iff] at h
  obtain ⟨dag, hadd, h⟩ := h
  rw [Option.bind_eq_bind, Option.bind_eq_some_iff] at h
  obtain ⟨w₂, hcatch₂, h⟩ := h
  have hA := hd.shaped.addVertex hadd
  have hm₁ : Move env.cfg env.me _ _ := .add hmem hlt hedges hadd
  have hG₁ := hG.move hm₁
  have hhas₁ : dag.Has v := (hA.has_iff hG.vertices hd hmem).mpr (.inl rfl)
  obtain ⟨hm₂, hP₂⟩ := hcatch hA hG₁ hhas₁ hcatch₂
  have hG₂ := hG₁.moves hm₂
  have hmem₂ := hm₂.created hmem
  have hm₃ : Move env.cfg env.me w₂ { w₂ with state := { w₂.state with
      buffer := bufferRemove v w₂.state.buffer } } :=
    .release hmem₂ (hm₂.kept hG₁ (.inl hhas₁))
  have hG₃ := hG₂.move hm₃
  have hP₃ : Places (· = v) (v.round - 2) w { w₂ with state := { w₂.state with
      buffer := bufferRemove v w₂.state.buffer } } := by
    refine ⟨fun x hx hhas => ?_, fun x => ?_, ?_, hP₂.thrown⟩
    · rcases hP₂.has x hx hhas with hhas | hno
      · exact ((hA.has_iff hG.vertices hd hmem).mp hhas).symm
      · exact hno.elim
    · rw [hG₂.mem_bufferRemove hmem₂, hP₂.buffer, not_false_eq_true, and_true]
    · have := hP₂.offset
      simp only at this ⊢
      rwa [hA.gcOffset] at this
  have hcreated : w.shared.created ⊆ w₂.shared.created := hm₂.created
  simp only at h
  split at h
  · obtain ⟨hP₄, hR₄⟩ := tryOrdering_places hG₃ h
    exact ⟨dag, w₂, hA, hG₁, hcatch₂, hG₂, .head hm₃ (tryOrdering_moves hG₃ hmem₂ h), hR₄,
      (hP₃.trans hP₄ hcreated).congr fun x => by rw [or_false]⟩
  · cases h
    exact ⟨dag, w₂, hA, hG₁, hcatch₂, hG₂, .single hm₃, ⟨rfl, rfl⟩, hP₃⟩

theorem broadcastVertex_places (hG : Good env.cfg env.me w) {round : ℕ}
    (hround : w.state.round < round) (hlt : w.state.dag.gcOffset < round)
    {row : List (Option Vertex)} (hrow : w.state.dag.index (round - 1) = some row)
    (hquorum : quorumSize env.cfg.procNum ≤ row.reduceOption.length)
    (h : broadcastVertex env round
      (startTimer { w with state := { w.state with round } }) = some w') :
    Places (fun _ => False) (round - 2) w w' ∧ Enters env.me round w w' := by
  have hG₁ := hG.moves (entering_moves hround hrow hquorum)
  have hmem₁ : ownVertex env round row w ∈ (entering env round row w).shared.created :=
    List.mem_cons_self
  have hhas₁ : ∀ {dag : RoundBasedDAG}, Added env.cfg.procNum (ownVertex env round row w)
      (entering env round row w).state.dag dag → dag.Has (ownVertex env round row w) :=
    fun hA => (hA.has_iff hG₁.vertices hG₁.sound.dag hmem₁).mpr (.inl rfl)
  rw [hG.broadcastVertex_eq (by omega) hlt hrow, Option.map_eq_some_iff] at h
  obtain ⟨w₂, hplace, rfl⟩ := h
  obtain ⟨dag, w₃, hA, hG₃, hc, -, hm₃, hR₃, hP⟩ := place_places hG₁ hmem₁ hlt
    (hG.own_edges hrow) (fun _ hG' hhas hc => by
      rw [hG'.catchUp_of_le hhas le_rfl] at hc
      cases hc
      exact ⟨.refl, .of_same rfl rfl rfl⟩) hplace
  rw [hG₃.catchUp_of_le (hhas₁ hA) le_rfl] at hc
  cases hc
  have hhas : w₂.state.dag.Has (ownVertex env round row w) := by
    have hoff : w₂.state.dag.gcOffset ≤ max w.state.dag.gcOffset (round - 2) := hP.offset
    refine (hm₃.kept hG₃ (.inl (hhas₁ hA))).resolve_right fun hdrop => ?_
    have hdrop : round < w₂.state.dag.gcOffset := hdrop
    omega
  refine ⟨⟨fun x hx hh => ?_, fun x => ?_, hP.offset, hP.thrown⟩,
    ⟨hround, hR₃.1, hR₃.2, _, rfl, rfl, hhas⟩⟩
  · rcases hP.has x (List.mem_cons_of_mem _ hx) hh with hh | rfl
    · exact .inl hh
    · exact absurd (hG.vertices.ptr_lt _ hx) (Nat.lt_irrefl _)
  · refine (hP.buffer x).trans (and_congr_right fun hx => ?_)
    refine iff_of_true (fun heq => ?_) not_false
    have hlt := hG.vertices.ptr_lt x (hG.sound.buffered x hx).1
    rw [heq] at hlt
    exact Nat.lt_irrefl _ hlt

theorem catchUp_cases (hG : Good env.cfg env.me w) (hmem : v ∈ w.shared.created)
    (hhas : w.state.dag.Has v) (hlt : w.state.dag.gcOffset < v.round)
    (h : catchUp (broadcastVertex env) v w = some w') :
    w' = w ∨ Full env.cfg.procNum w.state.dag v.round ∧ Moves env.cfg env.me w w' ∧
      Places (fun _ => False) (v.round - 2) w w' ∧ Enters env.me v.round w w' := by
  unfold catchUp at h
  rw [Option.bind_eq_bind, Option.bind_eq_some_iff] at h
  obtain ⟨reached, hreached, h⟩ := h
  split at h
  · rename_i hr
    obtain ⟨row, hrow, hq⟩ := quorumReached_spec (hr.1 ▸ hreached)
    rw [hG.sound.procNum] at hq
    obtain ⟨below, hbelow, hquorum⟩ := hG.row_below hmem hhas hlt
    exact .inr ⟨hG.sound.dag.full_of_row hrow hq, broadcastVertex_moves hG hr.2 hbelow hquorum h,
      broadcastVertex_places hG hr.2 hlt hbelow hquorum h⟩
  · exact .inl (Option.some.inj h).symm

/-- What `try_add_to_dag` does with a vertex it places. -/
structure Placed (env : Env) (v : Vertex) (w w' : Work) : Prop where
  moves : Moves env.cfg env.me w w'
  places : Places (· = v) (v.round - 2) w w'
  has : w'.state.dag.Has v
  round : SameRound w w' ∨ Enters env.me v.round w w' ∧ ∃ vs : List Vertex, vs.Nodup ∧
    quorumSize env.cfg.procNum ≤ vs.length ∧
    ∀ x ∈ vs, x.round = v.round ∧ (w.state.dag.Has x ∨ x = v)

theorem Placed.of_place (hG : Good env.cfg env.me w) (hmem : v ∈ w.shared.created)
    (hlt : w.state.dag.gcOffset < v.round) (hedges : ∀ u ∈ v.strongEdges, w.state.dag.Has u)
    (h : place (broadcastVertex env) env v w = some w') : Placed env v w w' := by
  obtain ⟨dag, w₂, hA, hG₁, hc, hG₂, hm, hR, hP⟩ := place_places hG hmem hlt hedges
    (fun hA hG₁ hhas hc => by
      rcases catchUp_cases hG₁ hmem hhas (hA.gcOffset ▸ hlt) hc with rfl | ⟨-, hm, hP, -⟩
      · exact ⟨.refl, .of_same rfl rfl rfl⟩
      · exact ⟨hm, hP⟩) h
  have hhas {x : Vertex} : dag.Has x ↔ x = v ∨ w.state.dag.Has x :=
    hA.has_iff hG.vertices hG.sound.dag hmem
  obtain ⟨hmoves, hkept⟩ := place_moves catchesUp_broadcastVertex hG hmem hlt hedges h
  have hoff := hP.offset
  refine ⟨hmoves, hP, hkept.resolve_right (by omega), ?_⟩
  rcases catchUp_cases hG₁ hmem (hhas.mpr (.inl rfl)) (hA.gcOffset ▸ hlt) hc with
    rfl | ⟨⟨vs, hnd, hq, hvs⟩, -, -, hE⟩
  · exact .inl hR
  · obtain ⟨own, hsource, hround, hown⟩ := hE.own
    refine .inr ⟨⟨hE.later, hR.1.trans hE.entered, hR.2.trans hE.wait, own, hsource, hround,
      (hm.kept hG₂ (.inl hown)).resolve_right (by omega)⟩, vs, hnd, hq, fun x hx => ?_⟩
    exact ⟨(hvs x hx).2, (hhas.mp (hvs x hx).1).symm⟩

/-- **What `try_add_to_dag` does.** -/
theorem tryAddToDag_cases (hG : Good env.cfg env.me w) (hmem : v ∈ w.shared.created)
    (h0 : v.round ≠ 0) {added : Bool} (h : tryAddToDag env v w = some (added, w')) :
    v.round ≤ w.state.dag.gcOffset ∧ added = true ∧ w' = discard v w ∨
    w.state.dag.gcOffset < v.round ∧
      ((∀ u ∈ v.strongEdges, w.state.dag.Has u) ∧ added = true ∧ Placed env v w w' ∨
        (¬ ∀ u ∈ v.strongEdges, w.state.dag.Has u) ∧ added = false ∧ w' = w) := by
  unfold tryAddToDag tryAddWith at h
  split at h
  · cases h
    exact .inl ⟨‹_›, rfl, rfl⟩
  · rename_i hlt
    refine .inr ⟨Nat.lt_of_not_le hlt, ?_⟩
    split at h
    · rename_i hmax
      cases h
      obtain ⟨u, hu⟩ := hG.vertices.exists_edge hmem h0
      refine .inr ⟨fun hall => ?_, rfl, rfl⟩
      have hur := (hG.vertices.edge v hmem u hu).2
      have hin := (hG.sound.dag.within (hall u hu)).2.1
      unfold currentMaxAllocatedRound at hmax
      omega
    · rw [Option.bind_eq_bind, Option.bind_eq_some_iff] at h
      obtain ⟨known, hknown, h⟩ := h
      cases known with
      | true =>
        have hedges := hG.has_edges hmem hknown
        rw [if_pos rfl, Option.bind_eq_bind, Option.bind_eq_some_iff] at h
        obtain ⟨w₁, hplace, h⟩ := h
        cases h
        exact .inl ⟨hedges, rfl, .of_place hG hmem (Nat.lt_of_not_le hlt) hedges hplace⟩
      | false =>
        cases h
        refine .inr ⟨fun hall => ?_, rfl, rfl⟩
        rw [knowsAll_of_has hall] at hknown
        cases hknown

/-- **What `try_advance_round` does.** -/
theorem tryAdvanceRound_cases (hG : Good env.cfg env.me w) (h : tryAdvanceRound env w = some w') :
    ¬ Full env.cfg.procNum w.state.dag w.state.round ∧ w' = w ∨
      Full env.cfg.procNum w.state.dag w.state.round ∧
        Places (fun _ => False) (w.state.round - 1) w w' ∧
        Enters env.me (w.state.round + 1) w w' := by
  unfold tryAdvanceRound at h
  rw [Option.bind_eq_bind, Option.bind_eq_some_iff] at h
  obtain ⟨reached, hreached, h⟩ := h
  cases reached with
  | true =>
    obtain ⟨row, hrow, hquorum⟩ := quorumReached_spec hreached
    rw [hG.sound.procNum] at hquorum
    rw [if_pos rfl] at h
    have hle := (index_isSome_iff.mp (by rw [hrow]; rfl : (w.state.dag.index _).isSome)).1
    exact .inr ⟨hG.sound.dag.full_of_row hrow hquorum, broadcastVertex_places hG
      (Nat.lt_succ_self _) (Nat.lt_succ_of_le hle) hrow hquorum h⟩
  | false =>
    cases h
    refine .inl ⟨fun hf => ?_, rfl⟩
    obtain ⟨row, hrow, hq⟩ := hG.sound.dag.row_of_full hf
    rw [quorumReached_of_index hrow, hG.sound.procNum, decide_eq_true hq] at hreached
    cases hreached

/-! ## What goes through leaves the replica steady -/

theorem Steady.of_tryAddToDag (hS : Steady env.cfg env.me w) (hmem : v ∈ w.shared.created)
    (h0 : v.round ≠ 0) {added : Bool} (h : Bullshark.tryAddToDag env v w = some (added, w')) :
    Steady env.cfg env.me w' := by
  obtain ⟨added', w'', h', hor⟩ := hS.tryAddToDag hmem fun hlt hmax => by
    unfold Bullshark.tryAddToDag tryAddWith at h
    rw [if_neg (show ¬ v.round ≤ w.state.dag.minRound from Nat.not_le_of_lt hlt),
      if_neg (Nat.not_lt_of_le hmax), Option.bind_eq_bind, Option.bind_eq_some_iff] at h
    obtain ⟨known, hknown, -⟩ := h
    rw [hknown]
    rfl
  rw [h] at h'
  cases h'
  rcases hor with ⟨hS', -⟩ | ⟨hle, rfl⟩
  · exact hS'
  · exact hS.discard hmem h0 hle

theorem Steady.of_tryAdvanceRound (hS : Steady env.cfg env.me w)
    (h : Bullshark.tryAdvanceRound env w = some w') : Steady env.cfg env.me w' := by
  have hrow : w.state.round < w.state.dag.currentAllocatedRounds := by
    unfold Bullshark.tryAdvanceRound quorumReachedForRound at h
    simp only [Option.bind_eq_bind, Option.bind_assoc] at h
    obtain ⟨row, hrow, -⟩ := Option.bind_eq_some_iff.mp h
    exact (index_isSome_iff.mp (by rw [hrow]; rfl)).2
  obtain ⟨w'', h', hS', -⟩ := hS.tryAdvanceRound hrow
  rw [h] at h'
  cases h'
  exact hS'

theorem Steady.onGenesis_eq (hS : Steady env.cfg env.me w) (hmem : v ∈ w.shared.created)
    (h0 : v.round = 0) (h : Bullshark.onGenesis env v w = some w') :
    ∃ w₁, Steady env.cfg env.me w₁ ∧ Bullshark.tryAdvanceRound env w₁ = some w' := by
  unfold Bullshark.onGenesis at h
  rw [Option.bind_eq_bind, Option.bind_eq_some_iff] at h
  obtain ⟨dag, hadd, h⟩ := h
  have hA := hS.good.sound.dag.shaped.addVertex hadd
  have hhas : dag.Has v := (hA.has_iff hS.good.vertices hS.good.sound.dag hmem).mpr (.inl rfl)
  have hle := le_of_vertexAt hhas
  rw [hA.gcOffset] at hle
  exact ⟨_, (hS.addGenesis hmem h0 (by omega) hadd).1.receive v, h⟩

end

/-! ## The pass over the buffer -/

/-- What the DAG holds, and what can be placed there from the buffer. -/
inductive Placeable (s : Bullshark) : Vertex → Prop
  | held {v : Vertex} (h : s.dag.Has v) : Placeable s v
  | buffered {v : Vertex} (hv : v ∈ s.buffer) (hlt : s.dag.gcOffset < v.round)
      (hedges : ∀ u ∈ v.strongEdges, Placeable s u) : Placeable s v

theorem Placeable.congr {s s' : Bullshark} {v : Vertex} (h : Placeable s v)
    (hdag : s'.dag = s.dag) (hbuffer : s'.buffer = s.buffer) : Placeable s' v := by
  induction h with
  | held h => exact .held (hdag ▸ h)
  | buffered hv hlt _ ih => exact .buffered (hbuffer ▸ hv) (hdag ▸ hlt) ih

section

variable {env : Env} {w₀ w w' : Work} {v x : Vertex} {tried rest : List Vertex}

theorem Placeable.edges (hG : Good env.cfg env.me w) (h : Placeable w.state v)
    (hlt : w.state.dag.gcOffset < v.round) : ∀ u ∈ v.strongEdges, Placeable w.state u := by
  cases h with
  | held h => exact fun u hu => .held (hG.sound.dag.closed v h hlt u hu)
  | buffered _ _ hedges => exact hedges

/-- The replica has entered a later round, in which some of these vertices are a quorum. -/
structure Entered (env : Env) (P : Vertex → Prop) (w₀ w : Work) : Prop where
  later : w₀.state.round < w.state.round
  wait : w.state.wait = true
  own : ∃ v, v.source = env.me ∧ v.round = w.state.round ∧ Kept w.state v
  quorum : ∃ vs : List Vertex, vs.Nodup ∧ quorumSize env.cfg.procNum ≤ vs.length ∧
    ∀ x ∈ vs, x.round = w.state.round ∧ P x

/-- The buffered vertices have been tried up to some round. -/
structure Passing (env : Env) (w₀ w : Work) (tried rest : List Vertex) : Prop where
  moves : Moves env.cfg env.me w₀ w
  has : ∀ x ∈ w₀.shared.created, w.state.dag.Has x → Placeable w₀.state x
  subset : w.state.buffer ⊆ w₀.state.buffer
  cover : ∀ x ∈ w₀.state.buffer, x ∈ tried ∨ x ∈ rest
  bound : ∀ x ∈ rest, w.state.dag.gcOffset ≤ max w₀.state.dag.gcOffset (x.round - 2)
  left : ∀ x ∈ w₀.state.buffer, x ∉ tried → x ∈ w.state.buffer
  kept : ∀ x ∈ tried, w₀.state.dag.gcOffset < x.round → Placeable w₀.state x → Kept w.state x
  buffer : ∀ x ∈ tried,
    (x ∈ w.state.buffer ↔ w₀.state.dag.gcOffset < x.round ∧ ¬ Placeable w₀.state x)
  thrown : ∀ x ∈ w.state.history.thrown, x ∈ w₀.state.history.thrown ∨
    x ∈ w₀.state.buffer ∧ x.round ≤ w₀.state.dag.gcOffset
  round : SameRound w₀ w ∨ Entered env (Placeable w₀.state) w₀ w
  idle : (∀ x ∈ w₀.state.buffer, w₀.state.dag.gcOffset < x.round → ¬ Placeable w₀.state x) →
    w.state.dag = w₀.state.dag
  steady : Steady env.cfg env.me w₀ → Steady env.cfg env.me w

/-- **What the pass over the buffer leaves behind.** -/
structure Passed (env : Env) (w₀ w : Work) : Prop where
  moves : Moves env.cfg env.me w₀ w
  has : ∀ x ∈ w₀.shared.created, w.state.dag.Has x → Placeable w₀.state x
  kept : ∀ x, Placeable w₀.state x → Kept w.state x
  buffer : ∀ x, x ∈ w.state.buffer ↔ x ∈ w₀.state.buffer ∧
    w₀.state.dag.gcOffset < x.round ∧ ¬ Placeable w₀.state x
  thrown : ∀ x ∈ w.state.history.thrown, x ∈ w₀.state.history.thrown ∨
    x ∈ w₀.state.buffer ∧ x.round ≤ w₀.state.dag.gcOffset
  round : SameRound w₀ w ∨ Entered env (Placeable w₀.state) w₀ w
  idle : (∀ x ∈ w₀.state.buffer, w₀.state.dag.gcOffset < x.round → ¬ Placeable w₀.state x) →
    w.state.dag = w₀.state.dag
  steady : Steady env.cfg env.me w₀ → Steady env.cfg env.me w

theorem SameRound.entered (hG : Good env.cfg env.me w) (hm : Moves env.cfg env.me w w')
    (h : SameRound w w') {P : Vertex → Prop}
    (hor : SameRound w₀ w ∨ Entered env P w₀ w) : SameRound w₀ w' ∨ Entered env P w₀ w' := by
  refine hor.imp (·.trans h) fun hE => ?_
  obtain ⟨own, hsource, hround, hkept⟩ := hE.own
  obtain ⟨vs, hnd, hq, hvs⟩ := hE.quorum
  exact ⟨h.1 ▸ hE.later, h.2.trans hE.wait, ⟨own, hsource, hround.trans h.1.symm,
    hm.kept hG hkept⟩, vs, hnd, hq, fun x hx => ⟨(hvs x hx).1.trans h.1.symm, (hvs x hx).2⟩⟩

theorem Placed.entered (hG₀ : Good env.cfg env.me w₀) (hm : Moves env.cfg env.me w₀ w)
    (h : Placed env v w w') {P : Vertex → Prop} (hv : P v)
    (hP : ∀ x ∈ w₀.shared.created, w.state.dag.Has x → P x)
    (hor : SameRound w₀ w ∨ Entered env P w₀ w) : SameRound w₀ w' ∨ Entered env P w₀ w' := by
  have hG := hG₀.moves hm
  rcases h.round with hR | ⟨hE, vs, hnd, hq, hvs⟩
  · exact hR.entered hG h.moves hor
  · have hlater := hE.later
    have hle : w₀.state.round ≤ w.state.round :=
      hor.elim (fun hR => hR.1.ge) fun hE => hE.later.le
    obtain ⟨own, hsource, hround, hown⟩ := hE.own
    refine .inr ⟨by rw [hE.entered]; omega, hE.wait,
      ⟨own, hsource, hround.trans hE.entered.symm, .inl hown⟩, vs, hnd, hq, fun x hx => ?_⟩
    obtain ⟨hxr, hhas⟩ := hvs x hx
    refine ⟨hxr.trans hE.entered.symm, ?_⟩
    rcases hhas with hhas | rfl
    · rcases hm.created_own (hG.sound.dag.mem hhas) with hmem | hme
      · exact hP x hmem hhas
      · have := hG.sound.own x (hG.sound.dag.mem hhas) hme
        omega
    · exact hv

theorem Passing.turned (hP : Passing env w₀ w tried (v :: rest)) {x : Vertex}
    (hx : x ∈ w₀.state.buffer) : x ∈ v :: tried ∨ x ∈ rest := by
  rcases hP.cover x hx with h | h
  · exact .inl (List.mem_cons_of_mem v h)
  · rcases List.mem_cons.mp h with rfl | h
    · exact .inl List.mem_cons_self
    · exact .inr h

theorem Passing.keep (hP : Passing env w₀ w tried (v :: rest)) (hv : v ∈ w₀.state.buffer)
    (hlt : w₀.state.dag.gcOffset < v.round) (hnot : ¬ Placeable w₀.state v) :
    Passing env w₀ w (v :: tried) rest where
  moves := hP.moves
  has := hP.has
  subset := hP.subset
  cover _ hx := hP.turned hx
  bound x hx := hP.bound x (List.mem_cons_of_mem v hx)
  left x hx hx' := hP.left x hx fun hmem => hx' (List.mem_cons_of_mem v hmem)
  kept x hx hxlt hpl := by
    rcases List.mem_cons.mp hx with rfl | hx
    · exact absurd hpl hnot
    · exact hP.kept x hx hxlt hpl
  buffer x hx := by
    by_cases hx' : x ∈ tried
    · exact hP.buffer x hx'
    · rcases List.mem_cons.mp hx with rfl | hx
      · exact iff_of_true (hP.left x hv hx') ⟨hlt, hnot⟩
      · exact absurd hx hx'
  thrown := hP.thrown
  round := hP.round
  idle := hP.idle
  steady := hP.steady

theorem Passing.remove (hP : Passing env w₀ w tried (v :: rest))
    (hm : Moves env.cfg env.me w w') (hG : Good env.cfg env.me w)
    (hhas : ∀ x ∈ w₀.shared.created, w'.state.dag.Has x → Placeable w₀.state x)
    (hbuffer : ∀ x, x ∈ w'.state.buffer ↔ x ∈ w.state.buffer ∧ ¬ x = v)
    (hbound : ∀ x ∈ rest, w'.state.dag.gcOffset ≤ max w₀.state.dag.gcOffset (x.round - 2))
    (hv : w₀.state.dag.gcOffset < v.round → Placeable w₀.state v ∧ Kept w'.state v)
    (hthrown : ∀ x ∈ w'.state.history.thrown, x ∈ w.state.history.thrown ∨
      x ∈ w₀.state.buffer ∧ x.round ≤ w₀.state.dag.gcOffset)
    (hround : SameRound w₀ w' ∨ Entered env (Placeable w₀.state) w₀ w')
    (hidle : (∀ x ∈ w₀.state.buffer, w₀.state.dag.gcOffset < x.round →
      ¬ Placeable w₀.state x) → w'.state.dag = w.state.dag)
    (hsteady : Steady env.cfg env.me w → Steady env.cfg env.me w') :
    Passing env w₀ w' (v :: tried) rest where
  moves := hP.moves.trans hm
  has := hhas
  subset x hx := hP.subset ((hbuffer x).mp hx).1
  cover _ hx := hP.turned hx
  bound := hbound
  left x hx hnot := by
    rw [List.mem_cons, not_or] at hnot
    exact (hbuffer x).mpr ⟨hP.left x hx hnot.2, hnot.1⟩
  kept x hx hlt hpl := by
    by_cases heq : x = v
    · exact heq ▸ (hv (heq ▸ hlt)).2
    · exact hm.kept hG (hP.kept x ((List.mem_cons.mp hx).resolve_left heq) hlt hpl)
  buffer x hx := by
    rw [hbuffer]
    by_cases heq : x = v
    · refine iff_of_false (fun h => h.2 heq) fun h => h.2 ?_
      exact heq ▸ (hv (heq ▸ h.1)).1
    · rw [hP.buffer x ((List.mem_cons.mp hx).resolve_left heq)]
      exact and_iff_left heq
  thrown x hx := by
    rcases hthrown x hx with hx | hx
    · exact hP.thrown x hx
    · exact .inr hx
  round := hround
  idle hno := (hidle hno).trans (hP.idle hno)
  steady hS := hsteady (hP.steady hS)

/-- **A buffered vertex is placed** in its turn if and only if it is placeable. -/
theorem Passing.step (hG₀ : Good env.cfg env.me w₀) (hP : Passing env w₀ w tried (v :: rest))
    (hsorted : ∀ x ∈ rest, v.round ≤ x.round) (hv : v ∈ w₀.state.buffer) {added : Bool}
    (h : tryAddToDag env v w = some (added, w')) : Passing env w₀ w' (v :: tried) rest := by
  have hG := hG₀.moves hP.moves
  obtain ⟨hmem₀, h0⟩ := hG₀.sound.buffered v hv
  have hmem := hP.moves.created hmem₀
  have hgrow := (Moves.grows hG₀ hP.moves).1
  have hbound := hP.bound v List.mem_cons_self
  have hrest := fun x hx => hP.bound x (List.mem_cons_of_mem v hx)
  have hsteady := fun hS : Steady env.cfg env.me w => hS.of_tryAddToDag hmem h0 h
  rcases tryAddToDag_cases hG hmem h0 h with
    ⟨hle, -, rfl⟩ | ⟨hlt, ⟨hedges, -, hplaced⟩ | ⟨hno, -, rfl⟩⟩
  · have hm : Move env.cfg env.me w (discard v w) := .discard hmem h0 hle
    refine hP.remove (.single hm) hG hP.has (fun x => hG.mem_bufferRemove hmem) hrest
      (fun hlt => by omega) (fun x hx => ?_) (SameRound.entered hG (.single hm) ⟨rfl, rfl⟩ hP.round)
      (fun _ => rfl) hsteady
    rcases mem_thrown_discard hx with rfl | hx
    · exact .inr ⟨hv, by omega⟩
    · exact .inl hx
  · have hpl : Placeable w₀.state v := .buffered hv (by omega) fun u hu =>
      hP.has u (hG₀.vertices.edge v hmem₀ u hu).1 (hedges u hu)
    refine hP.remove hplaced.moves hG (fun x hx hhas => ?_) hplaced.places.buffer
      (fun x hx => ?_) (fun _ => ⟨hpl, .inl hplaced.has⟩)
      (fun x hx => .inl (hplaced.places.thrown ▸ hx))
      (hplaced.entered hG₀ hP.moves hpl hP.has hP.round)
      (fun hno => absurd hpl (hno v hv (by omega))) hsteady
    · rcases hplaced.places.has x (hP.moves.created hx) hhas with hhas | rfl
      · exact hP.has x hx hhas
      · exact hpl
    · have := hplaced.places.offset
      have := hrest x hx
      have := hsorted x hx
      omega
  · have hnot : ¬ Placeable w₀.state v := fun hpl => hno fun u hu => by
      have hur := (hG₀.vertices.edge v hmem₀ u hu).2
      have hu' := hpl.edges hG₀ (by omega) u hu
      refine Or.resolve_right (?_ : Kept w'.state u) (by omega)
      cases hu' with
      | held hhas => exact hP.moves.kept hG₀ (.inl hhas)
      | buffered hub hult hue =>
        refine hP.kept u ((hP.cover u hub).resolve_right fun hmem => ?_) hult
          (.buffered hub hult hue)
        rcases List.mem_cons.mp hmem with rfl | hmem
        · omega
        · have := hsorted u hmem
          omega
    exact hP.keep hv (by omega) hnot

/-- **The pass over the buffer** places what is placeable. -/
theorem tryAll_passed (hG : Good env.cfg env.me w)
    (h : tryAll env (w.state.buffer.insertionSort fun a b => a.round ≤ b.round) w = some w') :
    Passed env w w' := by
  have hgo : ∀ {rest tried : List Vertex} {w₁ : Work}, Passing env w w₁ tried rest →
      rest.Pairwise (fun a b => a.round ≤ b.round) → (∀ x ∈ rest, x ∈ w.state.buffer) →
      tryAll env rest w₁ = some w' → ∃ tried, Passing env w w' tried [] := by
    intro rest
    induction rest with
    | nil =>
      intro tried w₁ hP _ _ h
      cases h
      exact ⟨tried, hP⟩
    | cons v rest ih =>
      intro tried w₁ hP hsorted hmem h
      obtain ⟨hfirst, hsorted⟩ := List.pairwise_cons.mp hsorted
      unfold tryAll at h
      rw [Option.bind_eq_bind, Option.bind_eq_some_iff] at h
      obtain ⟨⟨added, w₂⟩, hadd, h⟩ := h
      exact ih (hP.step hG hfirst (hmem v List.mem_cons_self) hadd) hsorted
        (fun x hx => hmem x (List.mem_cons_of_mem v hx)) h
  have hsort : (w.state.buffer.insertionSort fun a b => a.round ≤ b.round).Pairwise
      fun a b => a.round ≤ b.round := by
    have := List.pairwise_insertionSort (fun a b : Vertex => a.round ≤ b.round) w.state.buffer
    exact this
  have hstart : Passing env w w [] (w.state.buffer.insertionSort fun a b => a.round ≤ b.round) :=
    ⟨.refl, fun x _ hx => .held hx, List.Subset.refl _,
      fun x hx => .inr ((List.mem_insertionSort _).mpr hx), fun x _ => le_max_left _ _,
      fun x hx _ => hx, List.forall_mem_nil _,
      List.forall_mem_nil _, fun x hx => .inl hx, .inl ⟨rfl, rfl⟩, fun _ => rfl, id⟩
  obtain ⟨tried, hP⟩ := hgo hstart hsort (fun x hx => (List.mem_insertionSort _).mp hx) h
  have htried : ∀ x ∈ w.state.buffer, x ∈ tried := fun x hx =>
    (hP.cover x hx).resolve_right List.not_mem_nil
  refine ⟨hP.moves, hP.has, fun x hx => ?_, fun x => ⟨fun hx => ?_, fun hx => ?_⟩,
    hP.thrown, hP.round, hP.idle, hP.steady⟩
  · cases hx with
    | held hhas => exact hP.moves.kept hG (.inl hhas)
    | buffered hb hlt he => exact hP.kept x (htried x hb) hlt (.buffered hb hlt he)
  · exact ⟨hP.subset hx, (hP.buffer x (htried x (hP.subset hx))).mp hx⟩
  · exact (hP.buffer x (htried x hx.1)).mpr hx.2

/-! ## The handler -/

/-- What is done with the delivered vertex after the pass. -/
inductive Treated (env : Env) (v : Vertex) (w : Work) : Work → Prop
  | discarded (hle : v.round ≤ w.state.dag.gcOffset) : Treated env v w (discard v w)
  | placed {w' : Work} (hlt : w.state.dag.gcOffset < v.round)
      (hedges : ∀ u ∈ v.strongEdges, w.state.dag.Has u) (h : Placed env v w w')
      (hsteady : Steady env.cfg env.me w → Steady env.cfg env.me w') : Treated env v w w'
  | held (hlt : w.state.dag.gcOffset < v.round)
      (hno : ¬ ∀ u ∈ v.strongEdges, w.state.dag.Has u) :
      Treated env v w { w with state := { w.state with
        buffer := bufferInsert v w.state.buffer } }

/-- The end of the handler, in which the replica may go on to the next round. -/
structure Ends (env : Env) (v : Vertex) (w w' : Work) : Prop where
  moves : Moves env.cfg env.me w w'
  places : Places (fun _ => False) (v.round - 1) w w'
  round : SameRound w w' ∧ w'.state.dag = w.state.dag ∧
      (w.state.round = v.round → w.state.mayAdvance = some true →
        ¬ Full env.cfg.procNum w.state.dag w.state.round) ∨
    Enters env.me (w.state.round + 1) w w' ∧ w.state.round = v.round ∧
      w.state.mayAdvance = some true
  received : v ∈ w'.state.history.received
  steady : Steady env.cfg env.me w → Steady env.cfg env.me w'

theorem Treated.moves (hmem : v ∈ w.shared.created) (h0 : v.round ≠ 0)
    (h : Treated env v w w') : Moves env.cfg env.me w w' := by
  cases h with
  | discarded hle => exact .single (.discard hmem h0 hle)
  | placed _ _ h _ => exact h.moves
  | held hlt _ => exact .single (.hold hmem hlt)

theorem Treated.steady (hmem : v ∈ w.shared.created) (h0 : v.round ≠ 0)
    (h : Treated env v w w') (hS : Steady env.cfg env.me w) : Steady env.cfg env.me w' := by
  cases h with
  | discarded hle => exact hS.discard hmem h0 hle
  | placed _ _ _ hsteady => exact hsteady hS
  | held hlt hno =>
    exact ⟨hS.good.move (.hold hmem hlt), hS.floor, hS.top, hS.full, hS.clock⟩

theorem Treated.of_tryAddToDag (hG : Good env.cfg env.me w) (hmem : v ∈ w.shared.created)
    (h0 : v.round ≠ 0) {added : Bool} (h : tryAddToDag env v w = some (added, w')) :
    Treated env v w (keepInBuffer v added w') := by
  rcases tryAddToDag_cases hG hmem h0 h with
    ⟨hle, rfl, rfl⟩ | ⟨hlt, ⟨hedges, rfl, hp⟩ | ⟨hno, rfl, rfl⟩⟩
  · exact .discarded hle
  · exact .placed hlt hedges hp fun hS => hS.of_tryAddToDag hmem h0 h
  · exact .held hlt hno

theorem Ends.of_goOn (hG : Good env.cfg env.me w) (hmem : v ∈ w.shared.created)
    (hin : v ∈ w.state.buffer ∨ Taken w.state v) (h : goOn env v (receive v w) = some w') :
    Ends env v w w' := by
  have hm : Move env.cfg env.me w (receive v w) := .receive hmem hin
  have hsame : Places (fun _ => False) (v.round - 1) w (receive v w) := .of_same rfl rfl rfl
  unfold goOn at h
  split at h
  · rename_i hround
    cases h
    exact ⟨.single hm, hsame, .inl ⟨⟨rfl, rfl⟩, rfl, fun hr => absurd hr hround⟩,
      List.mem_cons_self, fun hS => hS.receive v⟩
  · rename_i hround
    have hround : w.state.round = v.round := not_not.mp hround
    rw [Option.bind_eq_bind, Option.bind_eq_some_iff] at h
    obtain ⟨may, hmay, h⟩ := h
    have hmay : w.state.mayAdvance = some may := hmay
    cases may with
    | false =>
      cases h
      refine ⟨.single hm, hsame, .inl ⟨⟨rfl, rfl⟩, rfl, fun _ hm => ?_⟩, List.mem_cons_self,
        fun hS => hS.receive v⟩
      rw [hmay] at hm
      cases hm
    | true =>
      rw [if_pos rfl] at h
      rcases tryAdvanceRound_cases (hG.move hm) h with ⟨hno, rfl⟩ | ⟨-, hP, hE⟩
      · exact ⟨.single hm, hsame, .inl ⟨⟨rfl, rfl⟩, rfl, fun _ _ => hno⟩,
          List.mem_cons_self, fun hS => hS.receive v⟩
      · have hP : Places (fun _ => False) (v.round - 1) (receive v w) w' := hround ▸ hP
        exact ⟨.head hm (tryAdvanceRound_moves (hG.move hm) h),
          (hsame.trans hP (List.Subset.refl _)).congr fun x => or_self_iff,
          .inr ⟨⟨hE.later, hE.entered, hE.wait, hE.own⟩, hround, hmay⟩,
          Moves.received (tryAdvanceRound_moves (hG.move hm) h) List.mem_cons_self,
          fun hS => (hS.receive v).of_tryAdvanceRound h⟩

/-- **What the handler of a vertex does**: the pass over the buffer, the vertex itself, and
perhaps the next round. -/
theorem onVertex_passes (hG : Good env.cfg env.me w) (hmem : v ∈ w.shared.created)
    (h0 : v.round ≠ 0) (h : onVertex env v w = some w') :
    ∃ w₂ w₃, tryAll env (w.state.buffer.insertionSort fun a b => a.round ≤ b.round)
        (forgetCommands v w) = some w₂ ∧ Passed env (forgetCommands v w) w₂ ∧
      Treated env v w₂ w₃ ∧ Ends env v w₃ w' := by
  obtain ⟨w₂, added, w₃, htry, hadd, hgo⟩ := onVertex_parts h
  have hm₁ : Move env.cfg env.me w (forgetCommands v w) := .forget hmem
  have hG₁ := hG.move hm₁
  have hP := tryAll_passed hG₁ htry
  have hG₂ := hG₁.moves hP.moves
  have hmem₂ : v ∈ w₂.shared.created := hP.moves.created hmem
  have hT := Treated.of_tryAddToDag hG₂ hmem₂ h0 hadd
  have hm₄ := hT.moves hmem₂ h0
  obtain ⟨hm₃, htaken, -⟩ := tryAddToDag_moves hG₂ hmem₂ h0 hadd
  have hin := (hG₂.moves hm₃).mem_keepInBuffer (hm₃.created hmem₂) htaken
  exact ⟨w₂, _, htry, hP, hT, .of_goOn (hG₂.moves hm₄) (hm₄.created hmem₂) hin hgo⟩

theorem onVertex_cases (hG : Good env.cfg env.me w) (hmem : v ∈ w.shared.created)
    (h0 : v.round ≠ 0) (h : onVertex env v w = some w') :
    ∃ w₁ w₂ w₃, Moves env.cfg env.me w w₁ ∧ w₁.state.dag = w.state.dag ∧
      w₁.state.buffer = w.state.buffer ∧ SameRound w w₁ ∧ w₁.shared.created = w.shared.created ∧
      (Steady env.cfg env.me w → Steady env.cfg env.me w₁) ∧ Passed env w₁ w₂ ∧
      Treated env v w₂ w₃ ∧ Ends env v w₃ w' := by
  obtain ⟨w₂, w₃, -, hP, hT, hE⟩ := onVertex_passes hG hmem h0 h
  exact ⟨_, w₂, w₃, .single (.forget hmem), rfl, rfl, ⟨rfl, rfl⟩, rfl,
    fun hS => hS.forgetCommands v, hP, hT, hE⟩

/-- **What the handler of a genesis vertex does**: it adds it, and perhaps enters a round. -/
theorem onGenesis_places (hG : Good env.cfg env.me w) (hmem : v ∈ w.shared.created)
    (h0 : v.round = 0) (h : onGenesis env v w = some w') :
    Places (· = v) (w.state.round - 1) w w' ∧ Kept w'.state v := by
  obtain ⟨dag, hadd, h⟩ := Option.bind_eq_some_iff.mp h
  have hA := hG.sound.dag.shaped.addVertex hadd
  have hm₁ : Move env.cfg env.me w { w with state := { w.state with dag } } :=
    .genesis hmem h0 hadd
  have hG₁ := hG.move hm₁
  have hhas : dag.Has v := (hA.has_iff hG.vertices hG.sound.dag hmem).mpr (.inl rfl)
  have hm₂ : Move env.cfg env.me { w with state := { w.state with dag } }
      (receive v { w with state := { w.state with dag } }) :=
    .receive hmem (.inr (.inr (.inl hhas)))
  have hG₂ := hG₁.move hm₂
  have hP₁ : Places (· = v) (w.state.round - 1) w
      (receive v { w with state := { w.state with dag } }) := by
    refine ⟨fun x _ hx => ((hA.has_iff hG.vertices hG.sound.dag hmem).mp hx).symm,
      fun x => ?_, ?_, rfl⟩
    · refine (and_iff_left_of_imp fun hx heq => ?_).symm
      exact (hG.sound.buffered x hx).2 (heq ▸ h0)
    · exact hA.gcOffset.le.trans (le_max_left _ _)
  have hP₃ : Places (fun _ => False) (w.state.round - 1)
      (receive v { w with state := { w.state with dag } }) w' := by
    rcases tryAdvanceRound_cases hG₂ h with ⟨-, rfl⟩ | ⟨-, hP, -⟩
    · exact .of_same rfl rfl rfl
    · exact hP
  exact ⟨(hP₁.trans hP₃ (List.Subset.refl _)).congr fun x => by rw [or_false],
    (tryAdvanceRound_moves hG₂ h).kept hG₂ (.inl hhas)⟩

end

end Blsmr.Bullshark
