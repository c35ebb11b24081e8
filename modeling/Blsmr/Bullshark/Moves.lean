import Blsmr.Bullshark.Anchors

/-!
# What a handler does, move by move

`Move` lists the changes a handler makes to what it works on, each with what is known
when it is made. A handler that does not panic is a sequence of moves
(`onMessage_moves`), so an invariant needs to be checked for the moves only. `Good` is
the one that the moves themselves rest on.
-/

namespace Blsmr.Bullshark

open Blsmr.Graph RoundBasedDAG

/-- A vertex of round 0 is a genesis vertex. -/
def VertexMessage.Fits : VertexMessage → Prop
  | .vertex v => v.round ≠ 0
  | .genesis v => v.round = 0

/-- A replica in good order: it holds created vertices only, and is not behind its own. -/
structure Sound (n : ℕ) (me : Pid) (created : List Vertex) (s : Bullshark) : Prop
    extends Ready n created s where
  buffered : ∀ v ∈ s.buffer, v ∈ created ∧ v.round ≠ 0
  own : ∀ v ∈ created, v.source = me → v.round ≤ s.round

/-- **What a handler can rely on.** -/
structure Good (cfg : Config) (me : Pid) (w : Work) : Prop where
  me_lt : me < cfg.procNum
  vertices : Vertices cfg.procNum w.shared.created
  sound : Sound cfg.procNum me w.shared.created w.state

inductive Move (cfg : Config) (me : Pid) : Work → Work → Prop
  | idle {w : Work} (submitted : ℕ) (submitTimer : TimerId) (wait : Bool)
      (timer nextTimer : TimerId) (timers : List TimerId) (hnext : w.shared.nextTimer ≤ nextTimer)
      (htimers : ∀ id ∈ timers, id ∈ w.timers ∨ w.shared.nextTimer ≤ id) :
      Move cfg me w { w with
        state := { w.state with submitted, submitTimer, wait, timer }
        shared := { w.shared with nextTimer }
        timers }
  | advance {w : Work} {vertex : Vertex} {row : List (Option Vertex)}
      (hlt : w.state.round < vertex.round)
      (hrow : w.state.dag.index (vertex.round - 1) = some row)
      (hptr : vertex.ptr = w.shared.created.length) (hsource : vertex.source = me)
      (hedges : vertex.strongEdges = row.reduceOption)
      (hcommands : vertex.commands.Perm (w.state.pendingCommands.entries.map Sigma.snd))
      (hquorum : quorumSize cfg.procNum ≤ vertex.strongEdges.length) :
      Move cfg me w { w with
        state := { w.state with round := vertex.round, pendingCommands := ∅ }
        shared := { w.shared with created := vertex :: w.shared.created } }
  | add {w : Work} {vertex : Vertex} {dag : RoundBasedDAG} (hmem : vertex ∈ w.shared.created)
      (hlt : w.state.dag.gcOffset < vertex.round)
      (hedges : ∀ u ∈ vertex.strongEdges, w.state.dag.Has u)
      (hadd : w.state.dag.addVertex vertex = some dag) :
      Move cfg me w { w with state := { w.state with dag } }
  | genesis {w : Work} {vertex : Vertex} {dag : RoundBasedDAG} (hmem : vertex ∈ w.shared.created)
      (h0 : vertex.round = 0) (hadd : w.state.dag.addVertex vertex = some dag) :
      Move cfg me w { w with state := { w.state with dag } }
  | discard {w : Work} {vertex : Vertex} (hmem : vertex ∈ w.shared.created)
      (h0 : vertex.round ≠ 0) (hle : vertex.round ≤ w.state.dag.gcOffset) :
      Move cfg me w (discard vertex w)
  | hold {w : Work} {vertex : Vertex} (hmem : vertex ∈ w.shared.created)
      (hlt : w.state.dag.gcOffset < vertex.round) :
      Move cfg me w { w with
        state := { w.state with buffer := bufferInsert vertex w.state.buffer } }
  | release {w : Work} {vertex : Vertex} (hmem : vertex ∈ w.shared.created)
      (hheld : w.state.dag.Has vertex ∨ vertex.round < w.state.dag.gcOffset) :
      Move cfg me w { w with
        state := { w.state with buffer := bufferRemove vertex w.state.buffer } }
  | forget {w : Work} {vertex : Vertex} (hmem : vertex ∈ w.shared.created) :
      Move cfg me w { w with state := { w.state with
        pendingCommands := vertex.commands.foldl (fun m command => m.erase command.id)
          w.state.pendingCommands } }
  | receive {w : Work} {vertex : Vertex} (hmem : vertex ∈ w.shared.created)
      (hin : vertex ∈ w.state.buffer ∨ vertex ∈ w.state.history.thrown ∨
        w.state.dag.Has vertex ∨ vertex.round < w.state.dag.gcOffset) :
      Move cfg me w (receive vertex w)
  | count {w : Work} {vertex anchor : Vertex} (hmem : vertex ∈ w.shared.created)
      (hanchor : w.state.dag.Has anchor) (hround : vertex.round = anchor.round + 2)
      (heven : anchor.round % 2 = 0)
      (hsource : anchor.source = leader cfg.procNum anchor.round) :
      Move cfg me w { w with state := { w.state with history := { w.state.history with
        counts := ⟨vertex, anchor, (votes anchor vertex.strongEdges).length⟩ ::
          w.state.history.counts } } }
  | order {w : Work} {vertex anchor : Vertex} {dag : RoundBasedDAG} {commits : Commits}
      {history : History} (hsupport : Supported cfg.procNum w.shared.created anchor vertex)
      (hsource : anchor.source = leader cfg.procNum anchor.round)
      (hanchor : w.state.dag.Has anchor) (heven : anchor.round % 2 = 0)
      (hcommit : Committed cfg.procNum w.shared.created anchor w.state w.shared.commits dag
        commits history) :
      Move cfg me w { w with
        state := { w.state with
          dag, lastOrderedRound := anchor.round, orderedAnchors := [], history }
        shared := { w.shared with commits } }
  | send {w : Work} {env : Env} {message : VertexMessage} (hcfg : env.cfg = cfg)
      (hme : env.me = me) (hmem : message.content ∈ w.shared.created)
      (hround : message.Fits) (hsource : message.content.source = me) :
      Move cfg me w (reliablyBroadcast env message w)

/-- Several moves, one after the other. -/
abbrev Moves (cfg : Config) (me : Pid) : Work → Work → Prop :=
  Relation.ReflTransGen (Move cfg me)

/-! ## Vertices and DAGs that grow -/

section

variable {n : ℕ} {me : Pid} {created created' : List Vertex} {s : Bullshark}
  {d d' : RoundBasedDAG} {u v : Vertex}

theorem Vertices.cons (hV : Vertices n created) (hptr : v.ptr = created.length)
    (hlater : ∀ u ∈ created, u.source = v.source → u.round < v.round) (hsource : v.source < n)
    (hedge : ∀ u ∈ v.strongEdges, u ∈ created ∧ u.round + 1 = v.round)
    (hdistinct : (v.strongEdges.map Vertex.source).Nodup)
    (hquorum : v.round ≠ 0 → quorumSize n ≤ v.strongEdges.length) :
    Vertices n (v :: created) where
  ptr_lt u hu := by
    rw [List.length_cons]
    rcases List.mem_cons.mp hu with rfl | hu
    · omega
    · have := hV.ptr_lt u hu
      omega
  ptr_inj u hu x hx h := by
    rcases List.mem_cons.mp hu with rfl | hu' <;> rcases List.mem_cons.mp hx with rfl | hx'
    · rfl
    · have := hV.ptr_lt x hx'
      omega
    · have := hV.ptr_lt u hu'
      omega
    · exact hV.ptr_inj u hu' x hx' h
  key_inj u hu x hx hr hs := by
    rcases List.mem_cons.mp hu with rfl | hu' <;> rcases List.mem_cons.mp hx with rfl | hx'
    · rfl
    · have := hlater x hx' hs
      omega
    · have := hlater u hu' hs.symm
      omega
    · exact hV.key_inj u hu' x hx' hr hs
  source_lt := List.forall_mem_cons.mpr ⟨hsource, hV.source_lt⟩
  edge u hu x hx := by
    rcases List.mem_cons.mp hu with rfl | hu
    · exact ⟨List.mem_cons_of_mem _ (hedge x hx).1, (hedge x hx).2⟩
    · exact ⟨List.mem_cons_of_mem _ (hV.edge u hu x hx).1, (hV.edge u hu x hx).2⟩
  distinct := List.forall_mem_cons.mpr ⟨hdistinct, hV.distinct⟩
  quorum := List.forall_mem_cons.mpr ⟨hquorum, hV.quorum⟩

theorem RoundBasedDAG.Causal.mono (hd : Causal n created d) (h : created ⊆ created') :
    Causal n created' d :=
  ⟨hd.shaped, fun r p v hv => ⟨h (hd.stored r p v hv).1, (hd.stored r p v hv).2⟩, hd.closed⟩

theorem Ready.mono (hR : Ready n created s) (h : created ⊆ created') : Ready n created' s :=
  { hR with
    dag := hR.dag.mono h
    output := fun v hv => ⟨h (hR.output v hv).1, (hR.output v hv).2⟩ }

theorem RoundBasedDAG.Added.has_iff (hV : Vertices n created) (hd : Causal n created d)
    (hA : Added n v d d') (hv : v ∈ created) : d'.Has u ↔ u = v ∨ d.Has u := by
  unfold Has
  rw [hA.vertexAt]
  by_cases hk : u.round = v.round ∧ u.source = v.source
  · rw [if_pos hk]
    refine ⟨fun h => .inl (Option.some.inj h).symm, fun h => ?_⟩
    rcases h with rfl | h
    · rfl
    · rw [hV.key_inj v hv u (hd.mem h) hk.1 hk.2]
  · rw [if_neg hk]
    exact ⟨.inr, fun h => h.resolve_left fun heq => hk ⟨heq ▸ rfl, heq ▸ rfl⟩⟩

theorem RoundBasedDAG.Causal.added (hV : Vertices n created) (hd : Causal n created d)
    (hA : Added n v d d') (hv : v ∈ created)
    (hedges : d.gcOffset < v.round → ∀ u ∈ v.strongEdges, d.Has u) : Causal n created d' where
  shaped := hA.shaped
  stored r p x hx := by
    rw [hA.vertexAt] at hx
    split at hx
    · cases hx
      exact ⟨hv, ‹r = v.round ∧ p = v.source›.1.symm, ‹r = v.round ∧ p = v.source›.2.symm⟩
    · exact hd.stored r p x hx
  closed x hx hlt u hu := by
    rw [hA.gcOffset] at hlt
    rw [hA.has_iff hV hd hv] at hx ⊢
    rcases hx with rfl | hx
    · exact .inr (hedges hlt u hu)
    · exact .inr (hd.closed x hx hlt u hu)

theorem Ready.added (hV : Vertices n created) (hR : Ready n created s) (hA : Added n v s.dag d')
    (hv : v ∈ created) (hedges : s.dag.gcOffset < v.round → ∀ u ∈ v.strongEdges, s.dag.Has u) :
    Ready n created { s with dag := d' } where
  procNum := hR.procNum
  dag := hR.dag.added hV hA hv hedges
  offset := hR.offset.trans hA.gcOffset.symm
  even := hA.gcOffset ▸ hR.even
  stack := hR.stack
  marks k hk := by
    rw [hA.done]
    exact hR.marks k (hA.gcOffset ▸ hk)
  output := hR.output
  replay := hR.replay

theorem RoundBasedDAG.Causal.row_sources (hd : Causal n created d) {r : ℕ}
    {row : List (Option Vertex)} (hrow : d.index r = some row) :
    (row.reduceOption.map Vertex.source).Nodup := by
  have hpos : ∀ i v, row[i]? = some (some v) → v.source = i + 0 := fun i v h =>
    (hd.stored r i v (by rw [vertexAt_of_index hrow, h, Option.join_some])).2.2
  have hgen : ∀ (l : List (Option Vertex)) (k : ℕ),
      (∀ i v, l[i]? = some (some v) → v.source = i + k) →
      (l.reduceOption.map Vertex.source).Nodup ∧
        ∀ p ∈ l.reduceOption.map Vertex.source, k ≤ p := by
    intro l
    induction l with
    | nil => exact fun k _ => ⟨List.nodup_nil, List.forall_mem_nil _⟩
    | cons o l ih =>
      intro k h
      obtain ⟨hnd, hle⟩ := ih (k + 1) fun i v hi => by
        have := h (i + 1) v hi
        rw [this, Nat.add_right_comm, Nat.add_assoc]
      cases o with
      | none => exact ⟨hnd, fun p hp => Nat.le_of_succ_le (hle p hp)⟩
      | some v =>
        have hv : v.source = k := (h 0 v rfl).trans (Nat.zero_add k)
        rw [List.reduceOption_cons_of_some, List.map_cons, hv]
        refine ⟨List.nodup_cons.mpr ⟨fun hk => Nat.not_succ_le_self k (hle k hk), hnd⟩, ?_⟩
        exact List.forall_mem_cons.mpr ⟨Nat.le_refl k, fun p hp => Nat.le_of_succ_le (hle p hp)⟩
  exact (hgen row 0 hpos).1

end

/-! ## The buffer -/

section

variable {u v : Vertex} {l : List Vertex}

theorem sameKey_iff : sameKey u v = true ↔ u.key = v.key := by
  unfold sameKey
  rw [Bool.and_eq_true, beq_iff_eq, beq_iff_eq, Vertex.key_eq_iff]

theorem mem_of_mem_bufferInsert (h : u ∈ bufferInsert v l) : u = v ∨ u ∈ l := by
  induction l with
  | nil => exact .inl (List.mem_singleton.mp h)
  | cons x l ih =>
    unfold bufferInsert at h
    split at h
    · exact List.mem_cons.mp h
    · split at h
      · exact .inr h
      · rcases List.mem_cons.mp h with rfl | h
        · exact .inr List.mem_cons_self
        · exact (ih h).imp_right (List.mem_cons_of_mem x)

theorem mem_bufferInsert_of_mem (h : u ∈ l) : u ∈ bufferInsert v l := by
  induction l with
  | nil => cases h
  | cons x l ih =>
    unfold bufferInsert
    split
    · exact List.mem_cons_of_mem v h
    · split
      · exact h
      · rcases List.mem_cons.mp h with rfl | h
        · exact List.mem_cons_self
        · exact List.mem_cons_of_mem x (ih h)

theorem exists_key_bufferInsert (v : Vertex) (l : List Vertex) :
    ∃ u ∈ bufferInsert v l, u.key = v.key ∧ (u = v ∨ u ∈ l) := by
  induction l with
  | nil => exact ⟨v, List.mem_singleton_self v, rfl, .inl rfl⟩
  | cons x l ih =>
    unfold bufferInsert
    split
    · exact ⟨v, List.mem_cons_self, rfl, .inl rfl⟩
    · split
      · exact ⟨x, List.mem_cons_self, (sameKey_iff.mp ‹_›).symm, .inr List.mem_cons_self⟩
      · obtain ⟨u, hu, hk, h⟩ := ih
        exact ⟨u, List.mem_cons_of_mem x hu, hk, h.imp_right (List.mem_cons_of_mem x)⟩

theorem mem_bufferRemove : u ∈ bufferRemove v l ↔ u ∈ l ∧ v.key ≠ u.key := by
  unfold bufferRemove
  rw [List.mem_filter, Bool.not_eq_true', Bool.eq_false_iff, ne_eq, sameKey_iff]

end

/-! ## Moves keep the replica in good order -/

section

variable {cfg : Config} {me : Pid} {w w' : Work}

/-- **Every move keeps what a handler relies on.** -/
theorem Good.move (hG : Good cfg me w) (h : Move cfg me w w') : Good cfg me w' := by
  obtain ⟨hme, hV, hS⟩ := hG
  cases h with
  | idle => exact ⟨hme, hV, { hS with }⟩
  | @advance vertex row hlt hrow hptr hsource hedges _ hquorum =>
    have hrowmem : ∀ u ∈ vertex.strongEdges,
        u ∈ w.shared.created ∧ u.round + 1 = vertex.round := fun u hu => by
      rw [hedges, mem_reduceOption_index hrow] at hu
      obtain ⟨p, hu⟩ := hu
      obtain ⟨hmem, hr, -⟩ := hS.dag.stored _ _ _ hu
      exact ⟨hmem, by omega⟩
    have hlater : ∀ u ∈ w.shared.created, u.source = vertex.source → u.round < vertex.round :=
      fun u hu hs => (hS.own u hu (hs.trans hsource)).trans_lt hlt
    refine ⟨hme, hV.cons hptr hlater (hsource ▸ hme) hrowmem ?_ fun _ => hquorum, ?_⟩
    · rw [hedges]
      exact hS.dag.row_sources hrow
    · refine { hS.toReady.mono (List.subset_cons_self _ _) with buffered := ?_, own := ?_ }
      · exact fun u hu => ⟨List.mem_cons_of_mem _ (hS.buffered u hu).1, (hS.buffered u hu).2⟩
      · intro u hu hs
        rcases List.mem_cons.mp hu with rfl | hu
        · exact Nat.le_refl _
        · exact (hlater u hu (hs.trans hsource.symm)).le
  | add hmem hlt hedges hadd =>
    have hA := hS.dag.shaped.addVertex hadd
    exact ⟨hme, hV, { hS.toReady.added hV hA hmem fun _ => hedges with
      buffered := hS.buffered, own := hS.own }⟩
  | genesis hmem h0 hadd =>
    have hA := hS.dag.shaped.addVertex hadd
    exact ⟨hme, hV, { hS.toReady.added hV hA hmem fun hlt => by omega with
      buffered := hS.buffered, own := hS.own }⟩
  | discard =>
    exact ⟨hme, hV, { hS with
      buffered := fun u hu => hS.buffered u (mem_bufferRemove.mp hu).1 }⟩
  | hold hmem hlt =>
    refine ⟨hme, hV, { hS with buffered := fun u hu => ?_ }⟩
    rcases mem_of_mem_bufferInsert hu with rfl | hu
    · exact ⟨hmem, by omega⟩
    · exact hS.buffered u hu
  | release =>
    exact ⟨hme, hV, { hS with
      buffered := fun u hu => hS.buffered u (mem_bufferRemove.mp hu).1 }⟩
  | forget => exact ⟨hme, hV, { hS with }⟩
  | receive => exact ⟨hme, hV, { hS with }⟩
  | count => exact ⟨hme, hV, { hS with }⟩
  | order _ _ _ _ hcommit =>
    exact ⟨hme, hV, { hcommit.ready with buffered := hS.buffered, own := hS.own }⟩
  | send => exact ⟨hme, hV, { hS with }⟩

theorem Good.moves (hG : Good cfg me w) (h : Moves cfg me w w') : Good cfg me w' := by
  induction h with
  | refl => exact hG
  | tail _ hm ih => exact ih.move hm

/-- The DAG holds the vertex, or has dropped its round. -/
def Kept (s : Bullshark) (v : Vertex) : Prop := s.dag.Has v ∨ v.round < s.dag.gcOffset

theorem Move.kept (hG : Good cfg me w) (h : Move cfg me w w') {v : Vertex}
    (hv : Kept w.state v) : Kept w'.state v := by
  cases h with
  | add hmem _ _ hadd =>
    have hA := hG.sound.dag.shaped.addVertex hadd
    refine hv.imp (fun hv => (hA.has_iff hG.vertices hG.sound.dag hmem).mpr (.inr hv)) fun hv => ?_
    simp only
    rw [hA.gcOffset]
    exact hv
  | genesis hmem _ hadd =>
    have hA := hG.sound.dag.shaped.addVertex hadd
    refine hv.imp (fun hv => (hA.has_iff hG.vertices hG.sound.dag hmem).mpr (.inr hv)) fun hv => ?_
    simp only
    rw [hA.gcOffset]
    exact hv
  | @order _ anchor _ _ _ _ _ hanchor _ hcommit =>
    unfold Kept Has at *
    simp only
    rw [hcommit.vertexAt, hcommit.gcOffset]
    have hle := le_of_vertexAt hanchor
    by_cases hr : anchor.round ≤ v.round
    · rw [if_pos hr]
      exact hv.imp_right fun h => by omega
    · exact .inr (by omega)
  | _ => exact hv

theorem Moves.kept (hG : Good cfg me w) (h : Moves cfg me w w') {v : Vertex}
    (hv : Kept w.state v) : Kept w'.state v := by
  induction h with
  | refl => exact hv
  | tail hr hm ih => exact hm.kept (hG.moves hr) ih

theorem Move.created (h : Move cfg me w w') : w.shared.created ⊆ w'.shared.created := by
  cases h with
  | advance => exact List.subset_cons_self _ _
  | _ => exact List.Subset.refl _

theorem Moves.created (h : Moves cfg me w w') : w.shared.created ⊆ w'.shared.created := by
  induction h with
  | refl => exact List.Subset.refl _
  | tail _ hm ih => exact fun v hv => hm.created (ih hv)

end

end Blsmr.Bullshark
