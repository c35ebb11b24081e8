import Blsmr.Bullshark.Moves

/-!
# Handlers are sequences of moves

Every function that works on a `Work` is a sequence of moves when it does not panic. A
vertex that `try_add_to_dag` has taken is in the DAG, thrown away, or below the bound.
-/

namespace Blsmr.Bullshark

open Blsmr.Graph RoundBasedDAG

variable {env : Env} {w w' : Work} {vertex : Vertex}

theorem mem_cons_timer {w : Work} {id : TimerId} (h : id ∈ w.shared.nextTimer :: w.timers) :
    id ∈ w.timers ∨ w.shared.nextTimer ≤ id :=
  (List.mem_cons.mp h).elim (fun h => .inr h.ge) .inl

theorem startTimer_move (w : Work) (cfg : Config) (me : Pid) : Move cfg me w (startTimer w) :=
  .idle w.state.submitted w.state.submitTimer true w.shared.nextTimer (w.shared.nextTimer + 1)
    (w.shared.nextTimer :: w.timers) (Nat.le_succ _) fun _ => mem_cons_timer

theorem stopWaiting_move (w : Work) (cfg : Config) (me : Pid) :
    Move cfg me w { w with state := { w.state with wait := false } } :=
  .idle w.state.submitted w.state.submitTimer false w.state.timer w.shared.nextTimer w.timers
    (Nat.le_refl _) fun _ => .inl

theorem scheduleSubmit_move (w : Work) (cfg : Config) (me : Pid) :
    Move cfg me w (scheduleSubmit w) :=
  .idle w.state.submitted w.shared.nextTimer w.state.wait w.state.timer (w.shared.nextTimer + 1)
    (w.shared.nextTimer :: w.timers) (Nat.le_succ _) fun _ => mem_cons_timer

/-! ## Looking at the replica -/

theorem quorumReached_spec {s : Bullshark} {round : ℕ}
    (h : s.quorumReachedForRound round = some true) :
    ∃ row, s.dag.index round = some row ∧ quorumSize s.procNum ≤ row.reduceOption.length := by
  unfold quorumReachedForRound at h
  rw [Option.bind_eq_bind, Option.bind_eq_some_iff] at h
  obtain ⟨row, hrow, h⟩ := h
  exact ⟨row, hrow, of_decide_eq_true (Option.some.inj h)⟩

theorem upgrade_eq_some {s : Bullshark} {u v : Vertex} (h : s.upgrade env u = some v) :
    v = u ∧ s.alive env u = true := by
  unfold upgrade at h
  rw [Option.ite_none_right_eq_some] at h
  exact ⟨(Option.some.inj h.2).symm, h.1⟩

theorem mapM_upgrade {s : Bullshark} {edges edges' : List Vertex}
    (h : edges.mapM (s.upgrade env) = some edges') : edges' = edges := by
  induction edges generalizing edges' with
  | nil =>
    rw [List.mapM_nil] at h
    exact (Option.some.inj h).symm
  | cons u edges ih =>
    rw [List.mapM_cons, Option.bind_eq_bind, Option.bind_eq_some_iff] at h
    obtain ⟨v, hv, h⟩ := h
    rw [Option.bind_eq_bind, Option.bind_eq_some_iff] at h
    obtain ⟨rest, hrest, h⟩ := h
    rw [← Option.some.inj h, (upgrade_eq_some hv).1, ih hrest]

theorem knowsAll_spec {s : Bullshark} {edges : List Vertex} (h : s.knowsAll env edges = some true)
    {u : Vertex} (hu : u ∈ edges) :
    ∃ known, s.dag.vertexAt u.round u.source = some known ∧ sameVertex u known = true := by
  induction edges with
  | nil => cases hu
  | cons x edges ih =>
    unfold knowsAll at h
    rw [Option.bind_eq_bind, Option.bind_eq_some_iff] at h
    obtain ⟨y, hy, h⟩ := h
    obtain ⟨rfl, -⟩ := upgrade_eq_some hy
    rw [Option.bind_eq_bind, Option.bind_eq_some_iff] at h
    obtain ⟨o, ho, h⟩ := h
    cases o with
    | none => cases h
    | some known =>
      simp only at h
      split at h
      · rcases List.mem_cons.mp hu with rfl | hu
        · exact ⟨known, vertexAt_eq_some.mpr ho, ‹_›⟩
        · exact ih h hu
      · cases h

theorem Good.has_edges (hG : Good env.cfg env.me w) (hmem : vertex ∈ w.shared.created)
    (h : w.state.knowsAll env vertex.strongEdges = some true) :
    ∀ u ∈ vertex.strongEdges, w.state.dag.Has u := by
  intro u hu
  obtain ⟨known, hat, hsame⟩ := knowsAll_spec h hu
  have hd := hG.sound.dag
  have heq : u = known := hG.vertices.eq_of_same (hG.vertices.edge _ hmem u hu).1
    (hd.stored _ _ _ hat).1 hsame
  exact heq ▸ hd.has hat

theorem Good.has_of_inDag {cfg : Config} {me : Pid} (hG : Good cfg me w)
    (hmem : vertex ∈ w.shared.created) (h : w.state.inDag vertex = true) :
    w.state.dag.Has vertex := by
  unfold inDag at h
  split at h
  · rename_i known hslot
    have hat := vertexAt_eq_some.mpr hslot
    have hd := hG.sound.dag
    have heq : vertex = known := hG.vertices.eq_of_same hmem (hd.stored _ _ _ hat).1 h
    exact heq ▸ hd.has hat
  · cases h

/-! ## Ordering -/

theorem Good.orderAnchors_spec {cfg : Config} {me : Pid} (hG : Good cfg me w) (env : Env)
    {anchor : Vertex} (ha : w.state.dag.Has anchor) (heven : anchor.round % 2 = 0) :
    ∃ d commits history, orderAnchors env anchor w = some { w with
        state := { w.state with
          dag := d, lastOrderedRound := anchor.round, orderedAnchors := [], history }
        shared := { w.shared with commits } } ∧
      Committed cfg.procNum w.shared.created anchor w.state w.shared.commits d commits history :=
  hG.sound.toReady.orderAnchors hG.vertices ha heven

theorem tryOrdering_moves (hG : Good env.cfg env.me w) (hmem : vertex ∈ w.shared.created)
    (h : tryOrdering env vertex w = some w') : Moves env.cfg env.me w w' := by
  unfold tryOrdering at h
  split at h
  · cases h
    exact .refl
  · rename_i hround
    rw [not_or] at hround
    rw [Option.bind_eq_bind, Option.bind_eq_some_iff] at h
    obtain ⟨o, ho, h⟩ := h
    cases o with
    | none =>
      cases h
      exact .refl
    | some anchor =>
      unfold getAnchor at ho
      rw [getLeaderId_eq hG.sound.procNum] at ho
      have hat := vertexAt_eq_some.mpr ho
      obtain ⟨hamem, har, has⟩ := hG.sound.dag.stored _ _ _ hat
      have hhas := hG.sound.dag.has hat
      have heven : anchor.round % 2 = 0 := by omega
      have hsource : anchor.source = leader env.cfg.procNum anchor.round := by rw [har, has]
      simp only at h
      rw [Option.bind_eq_bind, Option.bind_eq_some_iff] at h
      obtain ⟨edges, hedges, h⟩ := h
      rw [mapM_upgrade hedges] at h
      have hcount : Move env.cfg env.me _ _ := .count hmem hhas (by omega) heven hsource
      split at h
      · rename_i hvotes
        have hS : Supported env.cfg.procNum w.shared.created anchor vertex := by
          refine ⟨hamem, hmem, by omega, ?_⟩
          rw [← hG.sound.procNum]
          exact hvotes
        obtain ⟨d, commits, history, he, hC⟩ := (hG.move hcount).orderAnchors_spec env hhas heven
        rw [he] at h
        cases h
        exact .tail (.single hcount) (.order hS hsource hhas heven hC)
      · cases h
        exact .single hcount

/-! ## Adding vertices -/

/-- What `try_add_to_dag` has taken. -/
def Taken (s : Bullshark) (v : Vertex) : Prop := v ∈ s.history.thrown ∨ Kept s v

/-- Falling behind is made up by a sequence of moves. -/
def CatchesUp (env : Env) (broadcast : ℕ → Work → Option Work) : Prop :=
  ∀ {w w' : Work} {vertex : Vertex}, Good env.cfg env.me w → vertex ∈ w.shared.created →
    w.state.dag.Has vertex → w.state.dag.gcOffset < vertex.round → w.state.round < vertex.round →
    broadcast vertex.round (startTimer { w with state := { w.state with round := vertex.round } }) =
      some w' → Moves env.cfg env.me w w'

theorem place_moves {broadcast : ℕ → Work → Option Work} (hb : CatchesUp env broadcast)
    (hG : Good env.cfg env.me w) (hmem : vertex ∈ w.shared.created)
    (hlt : w.state.dag.gcOffset < vertex.round)
    (hedges : ∀ u ∈ vertex.strongEdges, w.state.dag.Has u)
    (h : place broadcast env vertex w = some w') :
    Moves env.cfg env.me w w' ∧ Kept w'.state vertex := by
  unfold place at h
  rw [Option.bind_eq_bind, Option.bind_eq_some_iff] at h
  obtain ⟨dag, hadd, h⟩ := h
  rw [Option.bind_eq_bind, Option.bind_eq_some_iff] at h
  obtain ⟨w₂, hcatch, h⟩ := h
  have hA := hG.sound.dag.shaped.addVertex hadd
  have hm₁ : Move env.cfg env.me _ _ := .add hmem hlt hedges hadd
  have hG₁ := hG.move hm₁
  have hhas₁ : dag.Has vertex := (hA.has_iff hG.vertices hG.sound.dag hmem).mpr (.inl rfl)
  have hm₂ : Moves env.cfg env.me { w with state := { w.state with dag } } w₂ := by
    unfold catchUp at hcatch
    rw [Option.bind_eq_bind, Option.bind_eq_some_iff] at hcatch
    obtain ⟨reached, -, hcatch⟩ := hcatch
    split at hcatch
    · rename_i hr
      exact hb hG₁ hmem hhas₁ (by simp only; rw [hA.gcOffset]; exact hlt) hr.2 hcatch
    · cases hcatch
      exact .refl
  have hG₂ := hG₁.moves hm₂
  have hkept₂ : Kept w₂.state vertex := hm₂.kept hG₁ (.inl hhas₁)
  have hmem₂ := hm₂.created hmem
  have hm₃ : Move env.cfg env.me _ _ := .release hmem₂ hkept₂
  have hG₃ := hG₂.move hm₃
  have hto₃ := (Relation.ReflTransGen.head hm₁ hm₂).tail hm₃
  have hkept₃ := hm₃.kept hG₂ hkept₂
  simp only at h
  split at h
  · have hm₄ := tryOrdering_moves hG₃ hmem₂ h
    exact ⟨hto₃.trans hm₄, hm₄.kept hG₃ hkept₃⟩
  · cases h
    exact ⟨hto₃, hkept₃⟩

theorem tryAddWith_moves {broadcast : ℕ → Work → Option Work} (hb : CatchesUp env broadcast)
    (hG : Good env.cfg env.me w) (hmem : vertex ∈ w.shared.created) (h0 : vertex.round ≠ 0)
    {added : Bool} (h : tryAddWith broadcast env vertex w = some (added, w')) :
    Moves env.cfg env.me w w' ∧ (added = true → Taken w'.state vertex) ∧
      (added = false → w'.state.dag.gcOffset < vertex.round) := by
  unfold tryAddWith at h
  split at h
  · cases h
    rename_i hle
    refine ⟨.single (.discard hmem h0 hle), fun _ => ?_, fun hf => by cases hf⟩
    unfold Taken Kept discard
    simp only
    by_cases hin : w.state.inDag vertex = true
    · exact .inr (.inl (hG.has_of_inDag hmem hin))
    · rw [if_neg hin]
      exact .inl List.mem_cons_self
  · rename_i hlt
    have hlt : w.state.dag.gcOffset < vertex.round := Nat.lt_of_not_le hlt
    split at h
    · cases h
      exact ⟨.refl, fun hf => absurd hf Bool.false_ne_true, fun _ => hlt⟩
    · rw [Option.bind_eq_bind, Option.bind_eq_some_iff] at h
      obtain ⟨known, hknown, h⟩ := h
      split at h
      · rename_i hk
        rw [Option.bind_eq_bind, Option.bind_eq_some_iff] at h
        obtain ⟨w₁, hplace, h⟩ := h
        cases h
        obtain ⟨hm, hkept⟩ := place_moves hb hG hmem hlt (hG.has_edges hmem (hk ▸ hknown)) hplace
        exact ⟨hm, fun _ => .inr hkept, fun hf => by cases hf⟩
      · cases h
        exact ⟨.refl, fun hf => absurd hf Bool.false_ne_true, fun _ => hlt⟩

theorem catchesUp_none : CatchesUp env fun _ _ => none :=
  fun _ _ _ _ _ h => nomatch h

theorem catchUp_of_le {f : ℕ → Work → Option Work} (hle : vertex.round ≤ w.state.round) :
    catchUp f vertex w = (w.state.quorumReachedForRound vertex.round).map fun _ => w := by
  unfold catchUp
  simp only [gt_iff_lt, Nat.not_lt_of_le hle, and_false, if_false]
  rw [Option.map_eq_bind]
  rfl

theorem tryAddWith_congr {f g : ℕ → Work → Option Work} (hle : vertex.round ≤ w.state.round) :
    tryAddWith f env vertex w = tryAddWith g env vertex w := by
  have hplace : place f env vertex w = place g env vertex w := by
    refine Option.bind_congr fun dag _ => ?_
    have hcatch : catchUp f vertex { w with state := { w.state with dag } } =
        catchUp g vertex { w with state := { w.state with dag } } := by
      rw [catchUp_of_le, catchUp_of_le] <;> exact hle
    rw [hcatch]
  unfold tryAddWith
  rw [hplace]

/-- **`broadcast_vertex` as in the source**: the vertex is added with `try_add_to_dag`. -/
theorem broadcastVertex_eq {round : ℕ} (hround : w.state.round = round) :
    broadcastVertex env round w = do
      let (vertex, w) ← createVertex env round w
      let (_, w) ← tryAddToDag env vertex w
      return reliablyBroadcast env (.vertex vertex) w := by
  unfold broadcastVertex tryAddToDag
  refine Option.bind_congr fun x hx => ?_
  unfold createVertex at hx
  rw [Option.ite_none_left_eq_some] at hx
  obtain ⟨-, hx⟩ := hx
  obtain ⟨row, -, hx⟩ := Option.bind_eq_some_iff.mp hx
  cases hx
  simp only
  rw [tryAddWith_congr hround.ge]

/-! ## The own vertex of a round -/

/-- The vertex `create_vertex` makes of the row below. -/
def ownVertex (env : Env) (round : ℕ) (row : List (Option Vertex)) (w : Work) : Vertex where
  ptr := w.shared.created.length
  round
  source := env.me
  strongEdges := row.reduceOption
  commands := env.drain.order (w.state.pendingCommands.entries.map Sigma.snd)

/-- The replica has entered the round and created its vertex. -/
def entering (env : Env) (round : ℕ) (row : List (Option Vertex)) (w : Work) : Work :=
  { startTimer w with
    state := { (startTimer w).state with round, pendingCommands := ∅ }
    shared := { (startTimer w).shared with
      created := ownVertex env round row w :: w.shared.created } }

section

variable {round : ℕ} {row : List (Option Vertex)}

theorem entering_moves (hround : w.state.round < round)
    (hrow : w.state.dag.index (round - 1) = some row)
    (hquorum : quorumSize env.cfg.procNum ≤ row.reduceOption.length) :
    Moves env.cfg env.me w (entering env round row w) := by
  refine .tail (.single (startTimer_move w env.cfg env.me)) ?_
  exact @Move.advance _ _ (startTimer w) (ownVertex env round row w) _ hround hrow rfl rfl rfl
    (env.drain.perm _) hquorum

theorem Good.own_edges (hG : Good env.cfg env.me w)
    (hrow : w.state.dag.index (round - 1) = some row) :
    ∀ u ∈ (ownVertex env round row w).strongEdges, w.state.dag.Has u := fun u hu => by
  obtain ⟨p, hp⟩ := (mem_reduceOption_index hrow).mp hu
  exact hG.sound.dag.has hp

theorem createVertex_eq (h0 : round ≠ 0) (hrow : w.state.dag.index (round - 1) = some row) :
    createVertex env round (startTimer { w with state := { w.state with round } }) =
      some (ownVertex env round row w, entering env round row w) := by
  unfold createVertex
  rw [if_neg h0, Option.bind_eq_bind]
  rw [show (startTimer { w with state := { w.state with round } }).state.dag.index
    (round - 1) = some row from hrow]
  rfl

theorem broadcastVertex_moves (hG : Good env.cfg env.me w) (hround : w.state.round < round)
    (hrow : w.state.dag.index (round - 1) = some row)
    (hquorum : quorumSize env.cfg.procNum ≤ row.reduceOption.length)
    (h : broadcastVertex env round
      (startTimer { w with state := { w.state with round } }) = some w') :
    Moves env.cfg env.me w w' := by
  have h0 : round ≠ 0 := by omega
  unfold broadcastVertex at h
  rw [createVertex_eq h0 hrow, Option.bind_eq_bind, Option.bind_some] at h
  simp only at h
  rw [Option.bind_eq_bind, Option.bind_eq_some_iff] at h
  obtain ⟨⟨added, w₂⟩, hadd, h⟩ := h
  cases h
  have hm₁ := entering_moves hround hrow hquorum
  obtain ⟨hm₂, -⟩ := tryAddWith_moves catchesUp_none (hG.moves hm₁) List.mem_cons_self h0 hadd
  exact (hm₁.trans hm₂).tail (.send rfl rfl (hm₂.created List.mem_cons_self) h0 rfl)

end

theorem Good.row_below (hG : Good env.cfg env.me w) (hmem : vertex ∈ w.shared.created)
    (hhas : w.state.dag.Has vertex) (hlt : w.state.dag.gcOffset < vertex.round) :
    ∃ row, w.state.dag.index (vertex.round - 1) = some row ∧
      quorumSize env.cfg.procNum ≤ row.reduceOption.length := by
  have hd := hG.sound.dag
  have hin := hd.within hhas
  obtain ⟨row, hrow⟩ := Option.isSome_iff_exists.mp
    (index_isSome_iff.mpr ⟨(by omega : w.state.dag.gcOffset ≤ vertex.round - 1),
      (by have := hin.2.1; omega : vertex.round - 1 < _)⟩)
  refine ⟨row, hrow, (hG.vertices.quorum vertex hmem (by omega)).trans ?_⟩
  have hnd : vertex.strongEdges.Nodup := .of_map _ (hG.vertices.distinct vertex hmem)
  refine (List.subperm_of_subset hnd fun u hu => ?_).length_le
  have hur := (hG.vertices.edge vertex hmem u hu).2
  have hu := hd.closed vertex hhas hlt u hu
  rw [mem_reduceOption_index hrow]
  exact ⟨u.source, by rw [show vertex.round - 1 = u.round by omega]; exact hu⟩

theorem catchesUp_broadcastVertex : CatchesUp env (broadcastVertex env) := by
  intro w w' vertex hG hmem hhas hlt hround h
  obtain ⟨row, hrow, hquorum⟩ := hG.row_below hmem hhas hlt
  exact broadcastVertex_moves hG hround hrow hquorum h

theorem tryAddToDag_moves (hG : Good env.cfg env.me w) (hmem : vertex ∈ w.shared.created)
    (h0 : vertex.round ≠ 0) {added : Bool} (h : tryAddToDag env vertex w = some (added, w')) :
    Moves env.cfg env.me w w' ∧ (added = true → Taken w'.state vertex) ∧
      (added = false → w'.state.dag.gcOffset < vertex.round) :=
  tryAddWith_moves catchesUp_broadcastVertex hG hmem h0 h

theorem tryAdvanceRound_moves (hG : Good env.cfg env.me w) (h : tryAdvanceRound env w = some w') :
    Moves env.cfg env.me w w' := by
  unfold tryAdvanceRound at h
  rw [Option.bind_eq_bind, Option.bind_eq_some_iff] at h
  obtain ⟨reached, hreached, h⟩ := h
  split at h
  · rename_i hr
    obtain ⟨row, hrow, hquorum⟩ := quorumReached_spec (hr ▸ hreached)
    rw [hG.sound.procNum] at hquorum
    exact broadcastVertex_moves hG (Nat.lt_succ_self _) hrow hquorum h
  · cases h
    exact .refl

/-! ## Handlers -/

theorem tryAll_moves {vertices : List Vertex} (hG : Good env.cfg env.me w)
    (hmem : ∀ v ∈ vertices, v ∈ w.shared.created ∧ v.round ≠ 0)
    (h : tryAll env vertices w = some w') : Moves env.cfg env.me w w' := by
  induction vertices generalizing w with
  | nil =>
    cases h
    exact .refl
  | cons v vertices ih =>
    unfold tryAll at h
    rw [Option.bind_eq_bind, Option.bind_eq_some_iff] at h
    obtain ⟨⟨added, w₁⟩, hadd, h⟩ := h
    obtain ⟨hv, h0⟩ := hmem v List.mem_cons_self
    obtain ⟨hm, -⟩ := tryAddToDag_moves hG hv h0 hadd
    refine hm.trans (ih (hG.moves hm) (fun u hu => ?_) h)
    obtain ⟨hu, h0⟩ := hmem u (List.mem_cons_of_mem v hu)
    exact ⟨hm.created hu, h0⟩

theorem onGenesis_moves (hG : Good env.cfg env.me w) (hmem : vertex ∈ w.shared.created)
    (h0 : vertex.round = 0) (h : onGenesis env vertex w = some w') :
    Moves env.cfg env.me w w' := by
  unfold onGenesis at h
  rw [Option.bind_eq_bind, Option.bind_eq_some_iff] at h
  obtain ⟨dag, hadd, h⟩ := h
  have hm₁ : Move env.cfg env.me _ _ := .genesis hmem h0 hadd
  have hA := hG.sound.dag.shaped.addVertex hadd
  have hG₁ := hG.move hm₁
  have hm₂ : Move env.cfg env.me _ _ := .receive
    (w := { w with state := { w.state with dag } }) hmem
    (.inr (.inr (.inl ((hA.has_iff hG.vertices hG.sound.dag hmem).mpr (.inl rfl)))))
  exact ((Relation.ReflTransGen.single hm₁).tail hm₂).trans
    (tryAdvanceRound_moves (hG₁.move hm₂) h)

/-! ## The parts of the handler of a vertex -/

/-- The commands of the vertex are no longer pending. -/
def forgetCommands (vertex : Vertex) (w : Work) : Work :=
  { w with state := { w.state with
    pendingCommands := vertex.commands.foldl (fun m command => m.erase command.id)
      w.state.pendingCommands } }

/-- A vertex that has not been added goes into the buffer. -/
def keepInBuffer (vertex : Vertex) (added : Bool) (w : Work) : Work :=
  if added then w
  else { w with state := { w.state with buffer := bufferInsert vertex w.state.buffer } }

/-- The replica may go on to the next round. -/
def goOn (env : Env) (vertex : Vertex) (w : Work) : Option Work := do
  if w.state.round ≠ vertex.round then return w
  if ← w.state.mayAdvance then tryAdvanceRound env w else return w

theorem onVertex_eq : onVertex env vertex w = (do
    let w ← tryAll env (w.state.buffer.insertionSort fun a b => a.round ≤ b.round)
      (forgetCommands vertex w)
    let (added, w) ← tryAddToDag env vertex w
    goOn env vertex (receive vertex (keepInBuffer vertex added w))) :=
  rfl

theorem onVertex_parts (h : onVertex env vertex w = some w') : ∃ w₂ added w₃,
    tryAll env (w.state.buffer.insertionSort fun a b => a.round ≤ b.round)
      (forgetCommands vertex w) = some w₂ ∧
    tryAddToDag env vertex w₂ = some (added, w₃) ∧
    goOn env vertex (receive vertex (keepInBuffer vertex added w₃)) = some w' := by
  rw [onVertex_eq, Option.bind_eq_bind, Option.bind_eq_some_iff] at h
  obtain ⟨w₂, htry, h⟩ := h
  rw [Option.bind_eq_bind, Option.bind_eq_some_iff] at h
  obtain ⟨⟨added, w₃⟩, hadd, h⟩ := h
  exact ⟨w₂, added, w₃, htry, hadd, h⟩

theorem keepInBuffer_moves (hmem : vertex ∈ w.shared.created) {added : Bool}
    (hheld : added = false → w.state.dag.gcOffset < vertex.round) :
    Moves env.cfg env.me w (keepInBuffer vertex added w) := by
  cases added with
  | true => exact .refl
  | false => exact .single (.hold hmem (hheld rfl))

theorem Good.mem_keepInBuffer (hG : Good env.cfg env.me w) (hmem : vertex ∈ w.shared.created)
    {added : Bool} (htaken : added = true → Taken w.state vertex) :
    vertex ∈ (keepInBuffer vertex added w).state.buffer ∨
      Taken (keepInBuffer vertex added w).state vertex := by
  cases added with
  | true => exact .inr (htaken rfl)
  | false =>
    obtain ⟨u, hu, hk, hor⟩ := exists_key_bufferInsert vertex w.state.buffer
    have humem : u ∈ w.shared.created :=
      hor.elim (fun h => h ▸ hmem) fun h => (hG.sound.buffered u h).1
    exact .inl (hG.vertices.key_eq humem hmem hk ▸ hu)

theorem goOn_moves (hG : Good env.cfg env.me w) (h : goOn env vertex w = some w') :
    Moves env.cfg env.me w w' := by
  unfold goOn at h
  split at h
  · cases h
    exact .refl
  · rw [Option.bind_eq_bind, Option.bind_eq_some_iff] at h
    obtain ⟨may, -, h⟩ := h
    split at h
    · exact tryAdvanceRound_moves hG h
    · cases h
      exact .refl

theorem onVertex_moves (hG : Good env.cfg env.me w) (hmem : vertex ∈ w.shared.created)
    (h0 : vertex.round ≠ 0) (h : onVertex env vertex w = some w') : Moves env.cfg env.me w w' := by
  obtain ⟨w₂, added, w₃, htry, hadd, hgo⟩ := onVertex_parts h
  have hm₁ : Move env.cfg env.me w (forgetCommands vertex w) := .forget hmem
  have hG₁ := hG.move hm₁
  have hm₂ := tryAll_moves hG₁ (fun v hv =>
    hG.sound.buffered v ((List.mem_insertionSort _).mp hv)) htry
  have hG₂ := hG₁.moves hm₂
  obtain ⟨hm₃, htaken, hheld⟩ := tryAddToDag_moves hG₂ (hm₂.created hmem) h0 hadd
  have hG₃ := hG₂.moves hm₃
  have hmem₃ := hm₃.created (hm₂.created hmem)
  have hm₄ : Moves env.cfg env.me w₃ _ := keepInBuffer_moves hmem₃ hheld
  have hm₅ : Move env.cfg env.me _ _ :=
    .receive (hm₄.created hmem₃) (hG₃.mem_keepInBuffer hmem₃ htaken)
  have hto := ((hm₂.trans hm₃).head hm₁).trans (hm₄.tail hm₅)
  exact hto.trans (goOn_moves (hG.moves hto) hgo)

end Blsmr.Bullshark
