import Blsmr.Bullshark.Buffer
import Blsmr.Bullshark.Progress

/-!
# Which edges are looked up

The edges of a vertex are looked up in the row below it, and each has to be alive. What a
replica has not been handed out yet is held by a message or by its consistent broadcast,
and the rest is in its DAG or its buffer (`Found`), unless it was thrown away. That happens
at the bound only, so the lookups of one kind of vertex can fail: those of the round above
the bound (`Timely`). With these in order the handlers go through.
-/

namespace Blsmr.Bullshark

open Blsmr.Graph RoundBasedDAG

/-- The consistent broadcast of the replica stores the vertex. -/
def Stored (w : Work) (u : Vertex) : Prop :=
  ∃ id message count, w.state.rbcast.messages.lookup id = some (message, count) ∧
    message.content = u ∧ id.messageId < w.shared.nextUid

/-- Somebody else holds the vertex, or the replica holds it or has been through with it. -/
def Found (elsewhere : Vertex → Bool) (w : Work) (u : Vertex) : Prop :=
  elsewhere u = true ∨ Stored w u ∨ u ∈ w.state.buffer ∨ u ∈ w.state.history.thrown ∨
    Kept w.state u

/-- The lookups for a vertex are in order: if it is of the round above the bound, the row
below it is there, and the edges that are looked up do not lead to vertices that nobody
else holds and that are thrown away or about to be. -/
def Timely (elsewhere : Vertex → Bool) (s : Bullshark) (v : Vertex) : Prop :=
  v.round = s.dag.gcOffset + 1 → s.dag.matrix ≠ [] ∧
    ∀ u ∈ s.examined v.strongEdges, u ∈ s.history.thrown ∨ u ∈ s.buffer → elsewhere u = true

section

variable {cfg : Config} {me : Pid} {w w' : Work} {elsewhere : Vertex → Bool} {u : Vertex}

theorem Stored.holds (h : Stored w u) : w.state.holds u = true := by
  obtain ⟨id, message, count, hl, rfl, -⟩ := h
  unfold Bullshark.holds
  rw [Bool.or_eq_true, List.any_eq_true]
  exact .inr ⟨_, AList.mem_lookup_iff.mp hl, sameVertex_self _⟩

theorem Stored.move (h : Move cfg me w w') (hs : Stored w u) : Stored w' u := by
  obtain ⟨id, message, count, hl, hu, hlt⟩ := hs
  cases h with
  | @send env m =>
    refine ⟨id, message, count, ?_, hu, hlt.trans (Nat.lt_succ_self _)⟩
    refine (AList.lookup_insert_ne fun heq => ?_).trans hl
    exact Nat.lt_irrefl _ (heq ▸ hlt)
  | _ => exact ⟨id, message, count, hl, hu, hlt⟩

theorem Found.move (hG : Good cfg me w) (h : Move cfg me w w') (hmem : u ∈ w.shared.created)
    (hf : Found elsewhere w u) : Found elsewhere w' u := by
  rcases hf with he | hs | hf
  · exact .inl he
  · exact .inr (.inl (hs.move h))
  · exact .inr (.inr (h.placed hG hmem hf))

theorem Found.moves (hG : Good cfg me w) (h : Moves cfg me w w') (hmem : u ∈ w.shared.created)
    (hf : Found elsewhere w u) : Found elsewhere w' u := by
  induction h with
  | refl => exact hf
  | tail hms hm ih => exact ih.move (hG.moves hms) hm (Moves.created hms hmem)

end

/-! ## The buffered vertices are tried again -/

theorem inDag_eq {s : Bullshark} {u : Vertex} : s.inDag u =
    ((s.dag.vertexAt u.round u.source).map (sameVertex u)).getD false := by
  unfold inDag
  cases hat : s.dag.vertexAt u.round u.source with
  | some known =>
    rw [vertexAt_eq_some.mp hat]
    rfl
  | none =>
    split
    · rename_i known hslot
      rw [vertexAt_eq_some.mpr hslot] at hat
      cases hat
    · rfl

theorem examined_congr {s s' : Bullshark} {edges : List Vertex}
    (h : ∀ u ∈ edges, s.dag.vertexAt u.round u.source = s'.dag.vertexAt u.round u.source) :
    s.examined edges = s'.examined edges := by
  induction edges with
  | nil => rfl
  | cons u edges ih =>
    unfold examined
    rw [inDag_eq, h u List.mem_cons_self, ← inDag_eq,
      ih fun x hx => h x (List.mem_cons_of_mem u hx)]

theorem Timely.congr {elsewhere elsewhere' : Vertex → Bool} {s s' : Bullshark} {v : Vertex}
    (h : ∀ u, elsewhere u = true → elsewhere' u = true) (hdag : s'.dag = s.dag)
    (hthrown : s'.history.thrown = s.history.thrown) (hbuffer : s'.buffer = s.buffer)
    (ht : Timely elsewhere s v) : Timely elsewhere' s' v := by
  intro hr
  rw [hdag] at hr
  refine ⟨hdag ▸ (ht hr).1, fun x hx hin => h x ((ht hr).2 x ?_ ?_)⟩
  · have heq : s'.examined v.strongEdges = s.examined v.strongEdges :=
      examined_congr fun u _ => by rw [hdag]
    rwa [heq] at hx
  · rwa [hthrown, hbuffer] at hin

theorem mem_of_mem_examined {s : Bullshark} {edges : List Vertex} {u : Vertex}
    (h : u ∈ s.examined edges) : u ∈ edges := by
  induction edges with
  | nil => cases h
  | cons x edges ih =>
    unfold examined at h
    split at h
    · exact (List.mem_cons.mp h).elim (fun h => h ▸ List.mem_cons_self)
        fun h => List.mem_cons_of_mem x (ih h)
    · exact List.mem_singleton.mp h ▸ List.mem_cons_self

/-- While the buffered vertices are tried: only those at the bound or below have been thrown
away, and the row of the bound is as it was until the bound rises. -/
structure Retrying (env : Env) (w₀ w : Work) : Prop where
  steady : Steady env.cfg env.me w
  moves : Moves env.cfg env.me w₀ w
  told : Told w₀ w
  thrown : ∀ u ∈ w.state.history.thrown, u ∈ w₀.state.history.thrown ∨
    u ∈ w₀.state.buffer ∧ u.round ≤ w₀.state.dag.gcOffset
  row : w.state.dag.gcOffset = w₀.state.dag.gcOffset → ∀ p,
    w.state.dag.vertexAt w₀.state.dag.gcOffset p = w₀.state.dag.vertexAt w₀.state.dag.gcOffset p

/-- What is known of a handler that begins. -/
structure Beginning (env : Env) (w : Work) : Prop where
  steady : Steady env.cfg env.me w
  received : Received w.shared.created w.state
  found : ∀ u ∈ w.shared.created, Found env.elsewhere w u

section

variable {env : Env} {w₀ w w' : Work} {v : Vertex}

/-- **The lookups for a timely vertex go through**, also later on. -/
theorem Retrying.knowsAll (hB : Beginning env w₀) (hR : Retrying env w₀ w)
    (hv : v ∈ w₀.shared.created) (ht : Timely env.elsewhere w₀.state v)
    (hlt : w.state.dag.gcOffset < v.round)
    (hmax : v.round - 1 ≤ w.state.dag.currentMaxAllocatedRound) :
    (w.state.knowsAll env v.strongEdges).isSome = true := by
  have hG₀ := hB.steady.good
  have hG := hR.steady.good
  obtain ⟨hgc, halloc⟩ := Moves.grows hG₀ hR.moves
  have hedge := hG₀.vertices.edge v hv
  refine knowsAll_isSome hG.sound.dag.shaped (fun u hu => ?_) fun u hu => ?_
  · have hur := (hedge u hu).2
    refine ⟨by omega, ?_, (hG₀.vertices.source_lt u (hedge u hu).1).le⟩
    have hrows : 0 < w.state.dag.currentAllocatedRounds := by
      by_contra h0
      unfold currentMaxAllocatedRound at hmax
      have hoff : w.state.dag.gcOffset ≤ w.state.dag.currentAllocatedRounds :=
        Nat.le_add_left _ _
      refine (ht (by omega)).1 (List.eq_nil_of_length_eq_zero ?_)
      have : w₀.state.dag.currentAllocatedRounds =
        w₀.state.dag.matrix.length + w₀.state.dag.gcOffset := rfl
      omega
    unfold currentMaxAllocatedRound at hmax
    omega
  · have hmem := mem_of_mem_examined hu
    obtain ⟨hucr, hur⟩ := hedge u hmem
    unfold Bullshark.alive
    rw [Bool.or_eq_true]
    rcases (hB.found u hucr).moves hG₀ hR.moves hucr with he | hs | hbuf | hth | hhas | hlow
    · exact .inl he
    · exact .inr hs.holds
    · refine .inr ?_
      unfold Bullshark.holds
      rw [List.any_eq_true.mpr ⟨u, hbuf, sameVertex_self u⟩, Bool.or_true, Bool.true_or]
    · -- it was thrown away before the bound rose, so the vertex is timely
      obtain ⟨-, hle, -, -⟩ := (hB.received.moves hG₀ hR.moves).thrown u hth
      have hor := hR.thrown u hth
      have hle₀ : u.round ≤ w₀.state.dag.gcOffset :=
        hor.elim (fun h => (hB.received.thrown u h).2.1) fun h => h.2
      have heq : w.state.dag.gcOffset = w₀.state.dag.gcOffset := by omega
      refine .inl ((ht (by omega)).2 u ?_ (hor.imp_right And.left))
      rw [← examined_congr (s := w.state)]
      · exact hu
      · intro x hx
        have hxr := (hedge x hx).2
        rw [show x.round = w₀.state.dag.gcOffset by omega]
        exact hR.row heq x.source
    · refine .inr ?_
      unfold Bullshark.holds
      rw [inDag_of_has hhas, Bool.true_or, Bool.true_or]
    · omega

theorem Steady.discard (hS : Steady env.cfg env.me w) (hmem : v ∈ w.shared.created)
    (h0 : v.round ≠ 0) (hle : v.round ≤ w.state.dag.gcOffset) :
    Steady env.cfg env.me (Bullshark.discard v w) :=
  ⟨hS.good.move (.discard hmem h0 hle), hS.floor, hS.top, hS.full, hS.clock⟩

theorem Retrying.trans (hB : Beginning env w₀) (hR : Retrying env w₀ w) {bound : ℕ}
    (hS : Steady env.cfg env.me w') (hA : Adds env.cfg env.me bound w w') :
    Retrying env w₀ w' where
  steady := hS
  moves := hR.moves.trans hA.moves
  told := hR.told.trans hA.moves hA.told
  thrown u hu := hR.thrown u (hA.thrown ▸ hu)
  row heq p := by
    have h₁ := (Moves.grows hB.steady.good hR.moves).1
    have h₂ := (Moves.grows hR.steady.good hA.moves).1
    have h₃ : w.state.dag.gcOffset = w₀.state.dag.gcOffset := by omega
    have := hA.row (by omega) p
    rw [h₃] at this
    exact this.trans (hR.row h₃ p)

/-- The loop over the buffered vertices goes through: they are tried in the order of their
rounds, and the bound rises only to rounds that have been tried. -/
theorem Retrying.tryAll (hB : Beginning env w₀) {rest : List Vertex} (hR : Retrying env w₀ w)
    (hsorted : rest.Pairwise fun u v => u.round ≤ v.round)
    (hrest : ∀ v ∈ rest, v ∈ w₀.state.buffer ∧ Timely env.elsewhere w₀.state v)
    (hbound : ∀ v ∈ rest, w.state.dag.gcOffset = w₀.state.dag.gcOffset ∨
      w.state.dag.gcOffset < v.round) :
    ∃ w', Bullshark.tryAll env rest w = some w' ∧ Retrying env w₀ w' := by
  induction rest generalizing w with
  | nil => exact ⟨w, rfl, hR⟩
  | cons v rest ih =>
    obtain ⟨hfirst, hsorted⟩ := List.pairwise_cons.mp hsorted
    obtain ⟨hvbuf, hvt⟩ := hrest v List.mem_cons_self
    obtain ⟨hv, h0⟩ := hB.steady.good.sound.buffered v hvbuf
    have hmem := hR.moves.created hv
    obtain ⟨added, w₁, he, hor⟩ := hR.steady.tryAddToDag hmem
      fun hlt hmax => hR.knowsAll hB hv hvt hlt hmax
    have hrest' := fun u hu => hrest u (List.mem_cons_of_mem v hu)
    have hgo : ∃ w', Bullshark.tryAll env rest w₁ = some w' ∧ Retrying env w₀ w' := by
      rcases hor with ⟨hS₁, hA⟩ | ⟨hle, rfl⟩
      · refine ih (hR.trans hB hS₁ hA) hsorted hrest' fun u hu => ?_
        have hvu := hfirst u hu
        have hoff := hA.offset
        have hgrow := (Moves.grows hR.steady.good hA.moves).1
        rcases hbound v List.mem_cons_self with heq | hlt <;> omega
      · have heq := (hbound v List.mem_cons_self).resolve_right (Nat.not_lt_of_le hle)
        refine ih ⟨hR.steady.discard hmem h0 hle, hR.moves.tail (.discard hmem h0 hle), hR.told,
          fun u hu => ?_, hR.row⟩ hsorted hrest'
          fun u hu => hbound u (List.mem_cons_of_mem v hu)
        rcases mem_thrown_discard hu with rfl | hu
        · exact .inr ⟨hvbuf, heq ▸ hle⟩
        · exact hR.thrown u hu
    obtain ⟨w', he', hR'⟩ := hgo
    refine ⟨w', ?_, hR'⟩
    unfold Bullshark.tryAll
    rw [he, Option.bind_eq_bind, Option.bind_some]
    exact he'

/-! ## Handlers -/

theorem Steady.mayAdvance (hS : Steady env.cfg env.me w) (h0 : w.state.round ≠ 0) :
    (Bullshark.mayAdvance w.state).isSome = true := by
  have hd := hS.good.sound.dag
  have hn := hS.good.sound.procNum
  have htop := hS.top.resolve_left h0
  have hle : ∀ round, w.state.getLeaderId round ≤ env.cfg.procNum := fun round => by
    rw [getLeaderId_eq hn]
    exact leader_le (Nat.zero_lt_of_lt hS.good.me_lt) round
  have hanchor : ∀ round, w.state.dag.gcOffset ≤ round → round ≤ w.state.round →
      ∃ o, w.state.getAnchor round = some o := fun round h₁ h₂ =>
    ⟨_, hd.shaped.slot_of_within ⟨h₁, h₂.trans_lt htop, hle round⟩⟩
  have hfloor := hS.floor
  obtain ⟨row, hrow⟩ := Option.isSome_iff_exists.mp (index_isSome_iff.mpr
    ⟨(by omega : w.state.dag.gcOffset ≤ w.state.round), htop⟩)
  unfold Bullshark.mayAdvance
  split
  · rfl
  · split
    · obtain ⟨o, ho⟩ := hanchor w.state.round (by omega) (Nat.le_refl _)
      rw [ho]
      rfl
    · obtain ⟨o, ho⟩ := hanchor (w.state.round - 1) (by omega) (Nat.sub_le _ _)
      rw [ho, Option.bind_eq_bind, Option.bind_some]
      cases o with
      | none => rfl
      | some anchor =>
        simp only
        rw [hrow]
        rfl

theorem Steady.receive (hS : Steady env.cfg env.me w) (v : Vertex) :
    Steady env.cfg env.me (Bullshark.receive v w) :=
  ⟨⟨hS.good.me_lt, hS.good.vertices, { hS.good.sound with }⟩, hS.floor, hS.top, hS.full, hS.clock⟩

theorem Steady.forgetCommands (hS : Steady env.cfg env.me w) (v : Vertex) :
    Steady env.cfg env.me (Bullshark.forgetCommands v w) :=
  ⟨⟨hS.good.me_lt, hS.good.vertices, { hS.good.sound with }⟩, hS.floor, hS.top, hS.full, hS.clock⟩

theorem Steady.keepInBuffer (hS : Steady env.cfg env.me w) (hmem : v ∈ w.shared.created)
    {added : Bool} (hheld : added = false → w.state.dag.gcOffset < v.round) :
    Steady env.cfg env.me (Bullshark.keepInBuffer v added w) := by
  cases added with
  | true => exact hS
  | false =>
    exact ⟨hS.good.move (.hold hmem (hheld rfl)), hS.floor, hS.top, hS.full, hS.clock⟩

theorem Steady.goOn (hS : Steady env.cfg env.me w) (h0 : v.round ≠ 0) :
    ∃ w', Bullshark.goOn env v w = some w' ∧ Steady env.cfg env.me w' ∧
      Moves env.cfg env.me w w' ∧ Told w w' := by
  unfold Bullshark.goOn
  split
  · exact ⟨w, rfl, hS, .refl, .of_created rfl⟩
  · rename_i hround
    have hpos : w.state.round ≠ 0 := not_not.mp hround ▸ h0
    obtain ⟨may, hmay⟩ := Option.isSome_iff_exists.mp (hS.mayAdvance hpos)
    rw [hmay, Option.bind_eq_bind, Option.bind_some]
    split
    · exact hS.tryAdvanceRound (hS.top.resolve_left hpos)
    · exact ⟨w, rfl, hS, .refl, .of_created rfl⟩

theorem Move.received {cfg : Config} {me : Pid} (h : Move cfg me w w') :
    w.state.history.received ⊆ w'.state.history.received := by
  cases h with
  | discard => exact List.Subset.refl _
  | receive => exact List.subset_cons_self _ _
  | order _ _ _ _ hcommit =>
    simp only
    rw [hcommit.received]
    exact List.Subset.refl _
  | _ => exact List.Subset.refl _

theorem Moves.received {cfg : Config} {me : Pid} (h : Moves cfg me w w') :
    w.state.history.received ⊆ w'.state.history.received := by
  induction h with
  | refl => exact List.Subset.refl _
  | tail _ hm ih => exact fun v hv => hm.received (ih hv)

/-- What a handler leaves behind when it goes through. -/
structure Done (env : Env) (w w' : Work) : Prop where
  steady : Steady env.cfg env.me w'
  told : Told w w'

theorem Steady.addGenesis (hS : Steady env.cfg env.me w) (hmem : v ∈ w.shared.created)
    (h0 : v.round = 0) (hoff : w.state.dag.gcOffset = 0) {dag : RoundBasedDAG}
    (hadd : w.state.dag.addVertex v = some dag) :
    Steady env.cfg env.me { w with state := { w.state with dag } } ∧
      w.state.round < dag.currentAllocatedRounds := by
  have hG := hS.good
  have hA := hG.sound.dag.shaped.addVertex hadd
  have hm : Move env.cfg env.me _ _ := .genesis hmem h0 hadd
  have hrows : w.state.round = 0 ∨ w.state.round < w.state.dag.currentAllocatedRounds := hS.top
  have halloc := hA.allocated
  refine ⟨⟨hG.move hm, .inl (hA.gcOffset.trans hoff), ?_, fun r hf => ?_, hS.clock⟩, by omega⟩
  · simp only
    omega
  · rcases hf.of_added hG.vertices hG.sound.dag hA hmem with hf | hr
    · exact hS.full r hf
    · omega

theorem Steady.onGenesis (hS : Steady env.cfg env.me w) (hmem : v ∈ w.shared.created)
    (h0 : v.round = 0) (hoff : w.state.dag.gcOffset = 0) :
    ∃ w', Bullshark.onGenesis env v w = some w' ∧ Done env w w' ∧
      v ∈ w'.state.history.received := by
  have hG := hS.good
  obtain ⟨dag, hadd⟩ := Option.isSome_iff_exists.mp
    (hG.sound.dag.shaped.addVertex_isSome (by omega) (hG.vertices.source_lt v hmem).le)
  obtain ⟨hS₁, hlt⟩ := hS.addGenesis hmem h0 hoff hadd
  obtain ⟨w', he, hS', hm', ht'⟩ := (hS₁.receive v).tryAdvanceRound hlt
  refine ⟨w', ?_, ⟨hS', ht'⟩, hm'.received List.mem_cons_self⟩
  unfold Bullshark.onGenesis
  rw [hadd]
  exact he

/-- **A vertex that is handed out** when the lookups for it and for the buffered vertices
are in order. -/
theorem Beginning.onVertex (hB : Beginning env w) (hmem : v ∈ w.shared.created)
    (h0 : v.round ≠ 0)
    (ht : ∀ u, u = v ∨ u ∈ w.state.buffer → Timely env.elsewhere w.state u) :
    ∃ w', Bullshark.onVertex env v w = some w' ∧ Done env w w' ∧
      v ∈ w'.state.history.received := by
  have hB₀ : Beginning env (forgetCommands v w) := ⟨hB.steady.forgetCommands v,
    ⟨hB.received.received, hB.received.thrown⟩, hB.found⟩
  have hR₀ : Retrying env (forgetCommands v w) (forgetCommands v w) :=
    ⟨hB₀.steady, .refl, .of_created rfl, fun u hu => .inl hu, fun _ _ => rfl⟩
  have ht₀ : ∀ u, u = v ∨ u ∈ w.state.buffer →
      Timely env.elsewhere (forgetCommands v w).state u :=
    fun u hu => Timely.congr (s := w.state) (fun _ h => h) rfl rfl rfl (ht u hu)
  obtain ⟨w₂, htry, hR₂⟩ := hR₀.tryAll hB₀
    (List.pairwise_insertionSort (fun a b => a.round ≤ b.round) w.state.buffer)
    (fun u hu => ⟨(List.mem_insertionSort _).mp hu,
      ht₀ u (.inr ((List.mem_insertionSort _).mp hu))⟩) fun _ _ => .inl rfl
  have hmem₂ := hR₂.moves.created hmem
  obtain ⟨added, w₃, hadd, hor⟩ := hR₂.steady.tryAddToDag hmem₂
    fun hlt hmax => hR₂.knowsAll hB₀ hmem (ht₀ v (.inl rfl)) hlt hmax
  have h₃ : Steady env.cfg env.me w₃ ∧ Told w w₃ := by
    rcases hor with ⟨hS₃, hA⟩ | ⟨hle, rfl⟩
    · exact ⟨hS₃, hR₂.told.trans hA.moves hA.told⟩
    · exact ⟨hR₂.steady.discard hmem₂ h0 hle, hR₂.told⟩
  obtain ⟨hS₃, ht₃⟩ := h₃
  obtain ⟨hm₃, -, hheld⟩ := tryAddToDag_moves hR₂.steady.good hmem₂ h0 hadd
  have hS₄ := hS₃.keepInBuffer (hm₃.created hmem₂) hheld
  have ht₄ : Told w (receive v (keepInBuffer v added w₃)) := by
    cases added <;> exact ht₃
  obtain ⟨w', he, hS', hm', ht'⟩ := (hS₄.receive v).goOn h0
  refine ⟨w', ?_, ⟨hS', ht₄.trans hm' ht'⟩, hm'.received List.mem_cons_self⟩
  have htry : tryAll env (w.state.buffer.insertionSort fun a b => a.round ≤ b.round)
      (forgetCommands v w) = some w₂ := htry
  rw [onVertex_eq, htry, Option.bind_eq_bind, Option.bind_some, hadd, Option.bind_eq_bind,
    Option.bind_some]
  exact he

end

end Blsmr.Bullshark
