import Blsmr.Bullshark.Addable

/-!
# Vertices that wait for one that was thrown away

`try_add_to_dag` throws a vertex away that it finds in the round of the bound, although the row
of that round is kept and the edges of the next round are still looked up there. As long as no
vertex is thrown away like that while another one refers to it, in the buffer or handed out
later, no vertex waits for one that is gone (`never_blocked`).
-/

namespace Blsmr.Bullshark

open Blsmr.Transition Blsmr.Graph RoundBasedDAG
open Broadcast (Packet)

/-- No vertex of the buffer waits for one that has reached the replica and is gone. -/
def Unblocked (s : Bullshark) : Prop :=
  ∀ v ∈ s.buffer, s.dag.gcOffset < v.round → ∀ u ∈ v.strongEdges,
    u ∈ s.history.received → s.dag.Has u ∨ u ∈ s.buffer

/-- The vertex is of the round of the bound, and not in the DAG. -/
def AtBound (s : Bullshark) (v : Vertex) : Prop :=
  v.round = s.dag.gcOffset ∧ s.inDag v = false

/-- When the vertex is handed out, no vertex at the bound waits in the buffer that another one
there refers to, and the vertex itself refers to none that has been handed out before. -/
structure Clear (s : Bullshark) (v : Vertex) : Prop where
  buffered : ∀ u ∈ s.buffer, AtBound s u → ∀ x ∈ s.buffer, u ∉ x.strongEdges
  referred : ∀ u ∈ v.strongEdges, AtBound s u → u ∉ s.history.received

/-- When its turn comes, the vertex is not at the bound, or none in the buffer refers to it. -/
def ClearOf (s : Bullshark) (v : Vertex) : Prop :=
  AtBound s v → ∀ x ∈ s.buffer, v ∉ x.strongEdges

/-- The replica as `on_message` finds it when it comes to the vertex handed out, after the
buffer has been tried again. -/
def System.retried (cfg : Config) (c : System) : Action → Option Bullshark
  | .deliver index drain => do
    let packet ← c.network[index]?
    match c.handed cfg packet with
    | some (.vertex vertex) =>
      let w := c.work packet.dst
      let out := w.state.rbcast.onMessage cfg.pool packet.dst packet.src packet.msg
      let w := { w with
        state := { w.state with rbcast := out.state }, sends := out.sends ++ w.sends }
      let w ← tryAll ((c.env cfg packet.dst drain).holding vertex)
        (w.state.buffer.insertionSort fun a b => a.round ≤ b.round) (forgetCommands vertex w)
      return w.state
    | _ => none
  | _ => none

/-- What the action hands out is not thrown away while another vertex refers to it, and refers
to none that was. -/
def HandsClear (cfg : Config) (c : System) (a : Action) : Prop :=
  ∀ p v, c.handsOut cfg a = some (p, .vertex v) →
    Clear (c.replicas p) v ∧ ∀ s, c.retried cfg a = some s → ClearOf s v

/-- What waits in the buffer or was thrown away has been handed out. -/
structure Arrived (s : Bullshark) : Prop where
  buffer : s.buffer ⊆ s.history.received
  thrown : s.history.thrown ⊆ s.history.received

section

variable {cfg : Config} {me p : Pid} {env : Env} {c c' : System} {a : Action} {w w₁ w₂ w₃ w' : Work}
  {s s' : Bullshark} {u v x : Vertex} {created created' : List Vertex}

theorem AtBound.not_has (h : AtBound s u) : ¬ s.dag.Has u := fun hhas => by
  have := h.2
  rw [inDag_of_has hhas] at this
  cases this

theorem AtBound.not_placeable (h : AtBound s u) : ¬ Placeable s u := by
  intro hp
  cases hp with
  | held hhas => exact h.not_has hhas
  | buffered _ hlt _ =>
    have := h.1
    omega

/-- A vertex that has been received, of the round of the bound or above, was thrown away if it
is missing. -/
theorem Received.thrown_of_missing (hR : Received created s) (hu : u ∈ s.history.received)
    (hge : s.dag.gcOffset ≤ u.round) (hno : ¬ s.dag.Has u) (hbuffer : u ∉ s.buffer) :
    u ∈ s.history.thrown := by
  rcases (hR.received u hu).2 with hin | hth | hhas | hlow
  · exact absurd hin hbuffer
  · exact hth
  · exact absurd hhas hno
  · omega

theorem Received.blocks (hR : Received created s) (hu : u ∈ s.history.thrown)
    (hrec : u ∈ s.history.received) (hx : x ∈ s.buffer) (hlt : s.dag.gcOffset < x.round)
    (hux : u ∈ x.strongEdges) : ¬ Unblocked s := by
  intro hU
  obtain ⟨-, -, hbuffer, hno⟩ := hR.thrown u hu
  exact (hU x hx hlt u hux hrec).elim hno hbuffer

/-! ## Where nothing is thrown away -/

theorem Unblocked.still (hU : Unblocked s) (hA : Arrived s) (hR : Received created s)
    (hR' : Received created' s')
    (hedge : ∀ x ∈ s'.buffer, ∀ u ∈ x.strongEdges, u.round + 1 = x.round)
    (hbuffer : s'.buffer ⊆ s.buffer) (hthrown : s'.history.thrown = s.history.thrown)
    (hle : s.dag.gcOffset ≤ s'.dag.gcOffset) : Unblocked s' := by
  intro x hx hlt u hu hrec
  by_contra hno
  rw [not_or] at hno
  have hround := hedge x hx u hu
  have hth := hR'.thrown_of_missing hrec (by omega) hno.1 hno.2
  rw [hthrown] at hth
  obtain ⟨-, hle', -, -⟩ := hR.thrown u hth
  exact hR.blocks hth (hA.thrown hth) (hbuffer hx) (by omega) hu hU

theorem Arrived.places {P : Vertex → Prop} {bound : ℕ} (hA : Arrived w.state)
    (hm : Moves cfg me w w') (hP : Places P bound w w') : Arrived w'.state where
  buffer x hx := Moves.received hm (hA.buffer ((hP.buffer x).mp hx).1)
  thrown _ hx := Moves.received hm (hA.thrown (hP.thrown ▸ hx))

theorem Arrived.of_still (hA : Arrived s) (h : Still s s') : Arrived s' where
  buffer x hx := by
    rw [h.history]
    exact hA.buffer (h.buffer ▸ hx)
  thrown x hx := by
    rw [h.history] at hx ⊢
    exact hA.thrown hx

/-! ## The handler of a vertex -/

theorem Passed.throws (hG : Good env.cfg env.me w₁) (hP : Passed env w₁ w₂)
    (hgc : w₁.state.dag.gcOffset = w₂.state.dag.gcOffset) (hmem : u ∈ w₁.shared.created)
    (hb : AtBound w₁.state u) (hu : u ∈ w₁.state.buffer ∨ u ∈ w₁.state.history.thrown) :
    u ∈ w₂.state.history.thrown ∧ ¬ w₂.state.dag.Has u := by
  have hno : ¬ w₂.state.dag.Has u := fun hhas => hb.not_placeable (hP.has u hmem hhas)
  refine ⟨?_, hno⟩
  rcases Moves.placed hG hP.moves hmem (hu.imp_right .inl) with hin | hth | hhas | hlow
  · have := ((hP.buffer u).mp hin).2.1
    have := hb.1
    omega
  · exact hth
  · exact absurd hhas hno
  · have := hb.1
    omega

theorem Passed.keeps (hG : Good env.cfg env.me w₁) (hP : Passed env w₁ w₂)
    (hb : AtBound w₁.state u) (hx : x ∈ w₁.state.buffer) (hux : u ∈ x.strongEdges) :
    x ∈ w₂.state.buffer := by
  have hround := (hG.vertices.edge x (hG.sound.buffered x hx).1 u hux).2
  have hlt : w₁.state.dag.gcOffset < x.round := by
    have := hb.1
    omega
  exact (hP.buffer x).mpr ⟨hx, hlt, fun hp => hb.not_placeable (hp.edges hG hlt u hux)⟩

theorem Treated.mem_thrown (h : Treated env v w w') (hu : u ∈ w'.state.history.thrown) :
    u ∈ w.state.history.thrown ∨ u = v ∧ v.round ≤ w.state.dag.gcOffset := by
  cases h with
  | discarded hle => exact (mem_thrown_discard hu).symm.imp_right fun heq => ⟨heq, hle⟩
  | placed _ _ h _ => exact .inl (h.places.thrown ▸ hu)
  | held _ _ => exact .inl hu

theorem Treated.thrown (h : Treated env v w w') :
    w.state.history.thrown ⊆ w'.state.history.thrown := by
  cases h with
  | discarded hle => exact thrown_subset_discard v w
  | placed _ _ h _ => exact h.places.thrown ▸ List.Subset.refl _
  | held _ _ => exact List.Subset.refl _

theorem Treated.mem_buffer (h : Treated env v w w') (hx : x ∈ w'.state.buffer) :
    x ∈ w.state.buffer ∨ x = v := by
  cases h with
  | discarded _ => exact .inl (mem_bufferRemove.mp hx).1
  | placed _ _ h _ => exact .inl ((h.places.buffer x).mp hx).1
  | held _ _ => exact (mem_of_mem_bufferInsert hx).symm

theorem Treated.keeps (h : Treated env v w w') (hno : ¬ w.state.dag.Has u)
    (hx : x ∈ w.state.buffer) (hlt : w.state.dag.gcOffset < x.round) (hux : u ∈ x.strongEdges) :
    x ∈ w'.state.buffer := by
  cases h with
  | discarded hle =>
    refine mem_bufferRemove.mpr ⟨hx, fun hkey => ?_⟩
    have hround : v.round = x.round := congrArg Prod.fst hkey
    omega
  | placed _ hedges h _ =>
    refine (h.places.buffer x).mpr ⟨hx, fun heq => ?_⟩
    exact hno (hedges u (heq ▸ hux))
  | held _ _ => exact mem_bufferInsert_of_mem hx

theorem Treated.holds (hG : Good env.cfg env.me w) (hmem : v ∈ w.shared.created)
    (h : Treated env v w w') (hno : ¬ w.state.dag.Has u) (hlt : w.state.dag.gcOffset < v.round)
    (huv : u ∈ v.strongEdges) : v ∈ w'.state.buffer := by
  cases h with
  | discarded hle => omega
  | placed _ hedges _ _ => exact absurd (hedges u huv) hno
  | held _ _ =>
    obtain ⟨y, hy, hkey, hor⟩ := exists_key_bufferInsert v w.state.buffer
    have hymem : y ∈ w.shared.created :=
      hor.elim (fun heq => heq ▸ hmem) fun hy => (hG.sound.buffered y hy).1
    exact hG.vertices.key_eq hymem hmem hkey ▸ hy

theorem Treated.throws (h : Treated env v w w') (hb : AtBound w.state v) :
    v ∈ w'.state.history.thrown := by
  have hround := hb.1
  cases h with
  | discarded hle =>
    unfold discard
    simp only
    rw [hb.2, if_neg Bool.false_ne_true]
    exact List.mem_cons_self
  | placed hlt _ _ _ => omega
  | held hlt _ => omega

theorem Arrived.onVertex (hG : Good env.cfg env.me w) (hA : Arrived w.state)
    (hmem : v ∈ w.shared.created) (h0 : v.round ≠ 0) (h : onVertex env v w = some w') :
    Arrived w'.state := by
  obtain ⟨w₂, w₃, -, hP, hT, hE⟩ := onVertex_passes hG hmem h0 h
  have hsub : w.state.history.received ⊆ w'.state.history.received :=
    Moves.received (onVertex_moves hG hmem h0 h)
  constructor
  · intro x hx
    rcases hT.mem_buffer ((hE.places.buffer x).mp hx).1 with hx | rfl
    · exact hsub (hA.buffer ((hP.buffer x).mp hx).1)
    · exact hE.received
  · intro x hx
    rw [hE.places.thrown] at hx
    rcases hT.mem_thrown hx with hx | ⟨rfl, -⟩
    · exact hsub ((hP.thrown x hx).elim (fun hx => hA.thrown hx) fun hx => hA.buffer hx.1)
    · exact hE.received

/-- The handler of a vertex in its three parts: the pass over the buffer, the turn of the vertex
and the end. -/
structure Handling (env : Env) (v : Vertex) (w w₂ w₃ w' : Work) : Prop where
  good : Good env.cfg env.me w
  received : Received w.shared.created w.state
  arrived : Arrived w.state
  mem : v ∈ w.shared.created
  passed : Passed env (forgetCommands v w) w₂
  treated : Treated env v w₂ w₃
  turn : Moves env.cfg env.me w₂ w₃
  ends : Ends env v w₃ w'

theorem Handling.good₁ (hH : Handling env v w w₂ w₃ w') :
    Good env.cfg env.me (forgetCommands v w) := hH.good.move (.forget hH.mem)

theorem Handling.good₂ (hH : Handling env v w w₂ w₃ w') : Good env.cfg env.me w₂ :=
  hH.good₁.moves hH.passed.moves

theorem Handling.rest (hH : Handling env v w w₂ w₃ w') : Moves env.cfg env.me w₂ w' :=
  hH.turn.trans hH.ends.moves

theorem Handling.moves (hH : Handling env v w w₂ w₃ w') : Moves env.cfg env.me w w' :=
  .head (.forget hH.mem) (hH.passed.moves.trans hH.rest)

theorem Handling.received_after (hH : Handling env v w w₂ w₃ w') :
    Received w'.shared.created w'.state := hH.received.moves hH.good hH.moves

theorem Handling.gcOffset (hH : Handling env v w w₂ w₃ w') :
    w.state.dag.gcOffset ≤ w₂.state.dag.gcOffset ∧
      w₂.state.dag.gcOffset ≤ w'.state.dag.gcOffset :=
  ⟨(Moves.grows hH.good₁ hH.passed.moves).1, (Moves.grows hH.good₂ hH.rest).1⟩

/-- **What is thrown away when `x` refers to it blocks `x`.** -/
theorem Handling.blocks (hH : Handling env v w w₂ w₃ w') (hx : x ∈ w₃.state.buffer)
    (hu : u ∈ w₃.state.history.thrown) (hrec : u ∈ w'.state.history.received)
    (hlt : w'.state.dag.gcOffset < x.round) (hux : u ∈ x.strongEdges) : ¬ Unblocked w'.state :=
  hH.received_after.blocks (hH.ends.places.thrown ▸ hu) hrec
    ((hH.ends.places.buffer x).mpr ⟨hx, not_false⟩) hlt hux

theorem Handling.clear (hH : Handling env v w w₂ w₃ w') (hU : Unblocked w'.state)
    (hgc : w.state.dag.gcOffset = w'.state.dag.gcOffset) : Clear w.state v := by
  have hG := hH.good
  have hgc₁ : (forgetCommands v w).state.dag.gcOffset = w.state.dag.gcOffset := rfl
  obtain ⟨hle₁, hle₂⟩ := hH.gcOffset
  have hsub : w.state.history.received ⊆ w'.state.history.received := Moves.received hH.moves
  refine ⟨fun u hu hb x hx hux => ?_, fun u huv hb hrec => ?_⟩
  · obtain ⟨humem, hround⟩ := hG.vertices.edge x (hG.sound.buffered x hx).1 u hux
    have hat := hb.1
    obtain ⟨hth, hno⟩ := Passed.throws hH.good₁ hH.passed (by omega) humem hb (.inl hu)
    have hx₂ : x ∈ w₂.state.buffer := Passed.keeps hH.good₁ hH.passed hb hx hux
    exact hH.blocks (hH.treated.keeps hno hx₂ (by omega) hux) (hH.treated.thrown hth)
      (hsub (hH.arrived.buffer hu)) (by omega) hux hU
  · obtain ⟨humem, hround⟩ := hG.vertices.edge v hH.mem u huv
    have hat := hb.1
    have hin : u ∈ w.state.buffer ∨ u ∈ w.state.history.thrown := by
      by_cases hbuffer : u ∈ w.state.buffer
      · exact .inl hbuffer
      · exact .inr (hH.received.thrown_of_missing hrec hb.1.ge hb.not_has hbuffer)
    obtain ⟨hth, hno⟩ := Passed.throws hH.good₁ hH.passed (by omega) humem hb hin
    have hmem₂ : v ∈ w₂.shared.created := hH.passed.moves.created hH.mem
    exact hH.blocks (hH.treated.holds hH.good₂ hmem₂ hno (by omega) huv) (hH.treated.thrown hth)
      (hsub hrec) (by omega) huv hU

theorem Handling.clearOf (hH : Handling env v w w₂ w₃ w') (hU : Unblocked w'.state)
    (hgc : w₂.state.dag.gcOffset = w'.state.dag.gcOffset) : ClearOf w₂.state v := by
  intro hb x hx hvx
  have hG₂ := hH.good₂
  have hround := (hG₂.vertices.edge x (hG₂.sound.buffered x hx).1 v hvx).2
  have hat := hb.1
  exact hH.blocks (hH.treated.keeps hb.not_has hx (by omega) hvx) (hH.treated.throws hb)
    hH.ends.received (by omega) hvx hU

theorem Moves.atBound (hG : Good cfg me w) (hm : Moves cfg me w w')
    (hmem : u ∈ w.shared.created) (hround : u.round = w.state.dag.gcOffset)
    (hgc : w.state.dag.gcOffset = w'.state.dag.gcOffset) (hno : ¬ w'.state.dag.Has u) :
    AtBound w.state u := by
  refine ⟨hround, Bool.eq_false_iff.mpr fun hin => hno ?_⟩
  exact (Moves.kept hG hm (.inl (hG.has_of_inDag hmem hin))).resolve_right (by omega)

theorem Handling.unblocked (hH : Handling env v w w₂ w₃ w') (hU : Unblocked w.state)
    (hclear : w.state.dag.gcOffset = w'.state.dag.gcOffset → Clear w.state v)
    (hclearOf : w₂.state.dag.gcOffset = w'.state.dag.gcOffset → ClearOf w₂.state v) :
    Unblocked w'.state := by
  intro x hx hlt u hux hrec
  by_contra hno
  rw [not_or] at hno
  obtain ⟨hle₁, hle₂⟩ := hH.gcOffset
  have hG' := hH.good.moves hH.moves
  have hR' := hH.received_after
  have hround := (hG'.vertices.edge x (hG'.sound.buffered x hx).1 u hux).2
  have hth := hR'.thrown_of_missing hrec (by omega) hno.1 hno.2
  have hle := (hR'.thrown u hth).2.1
  have hx₃ := hH.treated.mem_buffer ((hH.ends.places.buffer x).mp hx).1
  rw [hH.ends.places.thrown] at hth
  rcases hH.treated.mem_thrown hth with hth | ⟨rfl, hle₃⟩
  · have hold := hH.passed.thrown u hth
    have hle₀ : u.round ≤ w.state.dag.gcOffset :=
      hold.elim (fun hu => (hH.received.thrown u hu).2.1) And.right
    have hgc : w.state.dag.gcOffset = w'.state.dag.gcOffset := by omega
    have hurec : u ∈ w.state.history.received :=
      hold.elim (fun hu => hH.arrived.thrown hu) fun hu => hH.arrived.buffer hu.1
    have hb : AtBound w.state u := Moves.atBound hH.good hH.moves
      (hH.received.received u hurec).1 (by omega) hgc hno.1
    rcases hx₃ with hx₂ | rfl
    · have hx₀ : x ∈ w.state.buffer := ((hH.passed.buffer x).mp hx₂).1
      rcases hold with hu | hu
      · exact hH.received.blocks hu hurec hx₀ (by omega) hux hU
      · exact (hclear hgc).buffered u hu.1 hb x hx₀ hux
    · exact (hclear hgc).referred u hux hb hurec
  · have hgc : w₂.state.dag.gcOffset = w'.state.dag.gcOffset := by omega
    have hb : AtBound w₂.state u := Moves.atBound hH.good₂ hH.rest
      (hH.passed.moves.created hH.mem) (by omega) hgc hno.1
    rcases hx₃ with hx₂ | rfl
    · exact hclearOf hgc hb x hx₂ hux
    · omega

/-- **After the handler of a vertex** nothing waits for a vertex that is gone, if and only if
nothing was thrown away that is referred to, or the bound has risen past it. -/
theorem Unblocked.onVertex_iff (hG : Good env.cfg env.me w)
    (hR : Received w.shared.created w.state) (hA : Arrived w.state) (hU : Unblocked w.state)
    (hmem : v ∈ w.shared.created) (h0 : v.round ≠ 0)
    (htry : tryAll env (w.state.buffer.insertionSort fun a b => a.round ≤ b.round)
      (forgetCommands v w) = some w₂) (h : onVertex env v w = some w') :
    Unblocked w'.state ↔
      (w.state.dag.gcOffset = w'.state.dag.gcOffset → Clear w.state v) ∧
      (w₂.state.dag.gcOffset = w'.state.dag.gcOffset → ClearOf w₂.state v) := by
  obtain ⟨w₂', w₃, htry', hP, hT, hE⟩ := onVertex_passes hG hmem h0 h
  rw [htry] at htry'
  cases htry'
  have hH : Handling env v w w₂ w₃ w' :=
    ⟨hG, hR, hA, hmem, hP, hT, hT.moves (hP.moves.created hmem) h0, hE⟩
  exact ⟨fun hU' => ⟨hH.clear hU', hH.clearOf hU'⟩, fun ⟨hclear, hclearOf⟩ =>
    hH.unblocked hU hclear hclearOf⟩

/-! ## Steps -/

theorem Arrived.does {out : Option (Pid × VertexMessage)} (hd : Does cfg p s out w')
    (hA : Arrived s) : Arrived w'.state := by
  cases hd with
  | start hnew _ _ =>
    constructor
    · rw [hnew.buffer]
      exact List.nil_subset _
    · rw [hnew.history]
      exact List.nil_subset _
  | idle hstill => exact hA.of_still hstill
  | @timeout env w _ hcfg hme hG hstate h =>
    subst hcfg hme
    have hA' : Arrived w.state := by
      rw [hstate]
      exact ⟨hA.buffer, hA.thrown⟩
    rcases tryAdvanceRound_cases hG h with ⟨-, rfl⟩ | ⟨-, hP, -⟩
    · exact hA'
    · exact hA'.places (tryAdvanceRound_moves hG h) hP
  | @genesis env w _ v hcfg hme hG hstill hmem h0 h =>
    subst hcfg hme
    exact (hA.of_still hstill).places (onGenesis_moves hG hmem h0 h)
      (onGenesis_places hG hmem h0 h).1
  | @vertex env w _ v hcfg hme hG hstill hmem h0 h =>
    subst hcfg hme
    exact (hA.of_still hstill).onVertex hG hmem h0 h

theorem Arrived.of_reachable (h : c.Reachable cfg) (p : Pid) : Arrived (c.replicas p) := by
  have hinit : ∀ p, Arrived (System.init.replicas p) := fun p =>
    ⟨List.Subset.refl _, List.Subset.refl _⟩
  refine h.invariant (I := fun c => ∀ p, Arrived (c.replicas p)) hinit
    (fun c a c' hr _ hA hs p => ?_) p
  obtain ⟨q, w', ⟨hstate, hothers⟩, hd⟩ := (Invariant.of_reachable hr).does hs
  by_cases hp : p = q
  · subst hp
    rw [hstate]
    exact (hA p).does hd
  · rw [hothers p hp]
    exact hA p

/-- **What happens when a vertex is handed out**, with the replica after the pass. -/
theorem Invariant.handles (hI : Invariant cfg c) (h : System.step cfg c a = some c')
    (hout : c.handsOut cfg a = some (p, .vertex v)) :
    ∃ (env : Env) (w w₂ w' : Work), Good env.cfg env.me w ∧ w.shared = c.shared ∧
      Still (c.replicas p) w.state ∧ v ∈ c.shared.created ∧ v.round ≠ 0 ∧
      tryAll env (w.state.buffer.insertionSort fun a b => a.round ≤ b.round)
        (forgetCommands v w) = some w₂ ∧
      onVertex env v w = some w' ∧ c'.replicas p = w'.state ∧
      c.retried cfg a = some w₂.state := by
  cases a with
  | deliver index drain =>
    simp only [System.step] at h
    split at h
    · cases h
    · rename_i packet hk
      rw [Option.ite_none_right_eq_some] at h
      obtain ⟨hs, h⟩ := h
      obtain ⟨w', hw', rfl⟩ := Option.map_eq_some_iff.mp h
      have hnext : c.handsOut cfg (.deliver index drain) = (c.network[index]?).bind fun packet =>
          (c.handed cfg packet).map fun message => (packet.dst, message) := rfl
      rw [hnext, hk, Option.bind_some, Option.map_eq_some_iff] at hout
      obtain ⟨message, hhanded, heq⟩ := hout
      obtain ⟨rfl, rfl⟩ := Prod.mk.inj heq
      obtain ⟨hmem, hfits⟩ := hI.handed_out hk hs hhanded
      have hret : ((c.work packet.dst).state.rbcast.onMessage
          (c.env cfg packet.dst drain).cfg.pool (c.env cfg packet.dst drain).me packet.src
          packet.msg).returned = some (.vertex v) := hhanded
      rw [onMessage_eq _ _ _ _ _ rfl, hret] at hw'
      simp only at hw'
      rw [if_neg (by rw [Bool.not_eq_true]; exact hI.not_bad hk hs hhanded)] at hw'
      obtain ⟨w₂, -, -, htry, -⟩ := onVertex_parts hw'
      have hG := (hI.opening_deliver hk hs rfl).good
      refine ⟨_, _, w₂, w', ?_, rfl, ⟨rfl, rfl, rfl, rfl, rfl, rfl⟩, hmem, hfits, htry, hw',
        Function.update_self _ _ _, ?_⟩
      · exact hG
      · refine Option.bind_eq_some_iff.mpr ⟨packet, hk, ?_⟩
        rw [hhanded]
        exact Option.bind_eq_some_iff.mpr ⟨w₂, htry, rfl⟩
  | _ => cases hout

theorem Does.unblocked {out : Option (Pid × VertexMessage)} (hd : Does cfg p s out w')
    (hout : ∀ v, out ≠ some (p, .vertex v)) (hU : Unblocked s) (hA : Arrived s)
    (hR : Received created s) (hR' : Received created' w'.state)
    (hedge : ∀ x ∈ w'.state.buffer, ∀ u ∈ x.strongEdges, u.round + 1 = x.round) :
    Unblocked w'.state := by
  have hplaces : ∀ {P : Vertex → Prop} {bound : ℕ} {me : Pid} {w : Work}, Good cfg me w →
      Moves cfg me w w' → Places P bound w w' → w.state.dag = s.dag →
      w.state.buffer = s.buffer → w.state.history = s.history → Unblocked w'.state := by
    intro P bound me w hG hm hP hdag hbuffer hhistory
    refine hU.still hA hR hR' hedge (fun x hx => ?_) ?_ ?_
    · exact hbuffer ▸ ((hP.buffer x).mp hx).1
    · rw [hP.thrown, hhistory]
    · exact hdag ▸ (Moves.grows hG hm).1
  cases hd with
  | start hnew _ _ =>
    intro x hx
    rw [hnew.buffer] at hx
    cases hx
  | idle hstill =>
    exact hU.still hA hR hR' hedge (fun x hx => hstill.buffer ▸ hx) (by rw [hstill.history])
      (hstill.dag ▸ le_rfl)
  | @timeout env w _ hcfg hme hG hstate h =>
    subst hcfg hme
    have hm := tryAdvanceRound_moves hG h
    rcases tryAdvanceRound_cases hG h with ⟨-, rfl⟩ | ⟨-, hP, -⟩
    · rw [hstate]
      exact hU
    · exact hplaces hG hm hP (by rw [hstate]) (by rw [hstate]) (by rw [hstate])
  | @genesis env w _ v hcfg hme hG hstill hmem h0 h =>
    subst hcfg hme
    exact hplaces hG (onGenesis_moves hG hmem h0 h) (onGenesis_places hG hmem h0 h).1
      hstill.dag hstill.buffer hstill.history
  | vertex => exact absurd rfl (hout _)

theorem Invariant.edge_round (hI : Invariant cfg c) (p : Pid) :
    ∀ x ∈ (c.replicas p).buffer, ∀ u ∈ x.strongEdges, u.round + 1 = x.round :=
  fun x hx u hu => (hI.vertices.edge x (hI.buffered hx) u hu).2

/-- **When a vertex is handed out**, it depends on what is thrown away then. -/
theorem Unblocked.handed_iff (hr : c.Reachable cfg) (h : System.step cfg c a = some c')
    (hout : c.handsOut cfg a = some (p, .vertex v)) (hU : Unblocked (c.replicas p)) :
    Unblocked (c'.replicas p) ↔
      ((c.replicas p).dag.gcOffset = (c'.replicas p).dag.gcOffset → Clear (c.replicas p) v) ∧
      ∀ s, c.retried cfg a = some s → s.dag.gcOffset = (c'.replicas p).dag.gcOffset →
        ClearOf s v := by
  obtain ⟨env, w, w₂, w', hG, hshared, hstill, hmem, h0, htry, hv, hstate, hretried⟩ :=
    (Invariant.of_reachable hr).handles h hout
  have hR := Received.of_reachable hr p
  have hR : Received w.shared.created w.state := by
    rw [hshared]
    refine ⟨?_, ?_⟩
    · unfold Kept
      rw [hstill.history, hstill.buffer, hstill.dag]
      exact hR.received
    · rw [hstill.history, hstill.buffer, hstill.dag]
      exact hR.thrown
  have hA : Arrived w.state := (Arrived.of_reachable hr p).of_still hstill
  have hUw : Unblocked w.state := by
    unfold Unblocked
    rw [hstill.history, hstill.buffer, hstill.dag]
    exact hU
  have hclear : Clear w.state v ↔ Clear (c.replicas p) v := by
    have hat : ∀ {u}, AtBound w.state u ↔ AtBound (c.replicas p) u := by
      intro u
      unfold AtBound
      rw [inDag_congr hstill.dag, hstill.dag]
    refine ⟨fun hC => ⟨?_, ?_⟩, fun hC => ⟨?_, ?_⟩⟩
    · simpa only [hstill.buffer, hat] using hC.buffered
    · simpa only [hstill.history, hat] using hC.referred
    · simpa only [hstill.buffer, hat] using hC.buffered
    · simpa only [hstill.history, hat] using hC.referred
  rw [hstate, hUw.onVertex_iff hG hR hA (hshared ▸ hmem) h0 htry hv, hclear, hstill.dag, hretried]
  refine and_congr_right fun _ => ⟨fun hC s hs => ?_, fun hC => hC _ rfl⟩
  cases hs
  exact hC

end

/-- **No vertex is blocked by one that was thrown away** in a run in which nothing is handed
out or tried again in the round of the bound that another vertex refers to. And a vertex that
is blocks something, unless the bound rises in the same step. -/
theorem never_blocked (cfg : Config) (c : System)
    (h : Transition.Reachable (System.step cfg) System.init (HandsClear cfg) c) :
    (∀ p, Unblocked (c.replicas p)) ∧
      ∀ a c' p v, System.step cfg c a = some c' → c.handsOut cfg a = some (p, .vertex v) →
        (Unblocked (c'.replicas p) ↔
          ((c.replicas p).dag.gcOffset = (c'.replicas p).dag.gcOffset →
            Clear (c.replicas p) v) ∧
          ∀ s, c.retried cfg a = some s → s.dag.gcOffset = (c'.replicas p).dag.gcOffset →
            ClearOf s v) := by
  have hinit : ∀ p, Unblocked (System.init.replicas p) := fun p x hx => absurd hx List.not_mem_nil
  have hall : ∀ p, Unblocked (c.replicas p) := by
    refine h.invariant (I := fun c => ∀ p, Unblocked (c.replicas p)) hinit
      fun c a c' hr ha hU hs p => ?_
    have hr : c.Reachable cfg := hr.weaken fun _ _ _ => trivial
    have hr' : c'.Reachable cfg := hr.step trivial hs
    obtain ⟨q, w', ⟨hstate, hothers⟩, hd⟩ := (Invariant.of_reachable hr).does hs
    by_cases hp : p = q
    · subst hp
      by_cases hv : ∃ v, c.handsOut cfg a = some (p, .vertex v)
      · obtain ⟨v, hv⟩ := hv
        obtain ⟨hclear, hclearOf⟩ := ha p v hv
        exact (Unblocked.handed_iff hr hs hv (hU p)).mpr
          ⟨fun _ => hclear, fun s hs _ => hclearOf s hs⟩
      · have hR' := Received.of_reachable hr' p
        have hedge := (Invariant.of_reachable hr').edge_round p
        rw [hstate] at hR' hedge ⊢
        exact hd.unblocked (fun v hout => hv ⟨v, hout⟩) (hU p) (Arrived.of_reachable hr p)
          (Received.of_reachable hr p) hR' hedge
    · rw [hothers p hp]
      exact hU p
  exact ⟨hall, fun a c' p v hs hout =>
    Unblocked.handed_iff (h.weaken fun _ _ _ => trivial) hs hout (hall p)⟩

/-- A check that is enough for `Clear`. -/
def unreferred (s : Bullshark) (v : Vertex) : Bool :=
  s.buffer.all (fun u => u.round != s.dag.gcOffset) &&
    v.strongEdges.all fun u => u.round != s.dag.gcOffset || s.inDag u ||
      !s.history.received.any (sameVertex u)

theorem clear_of_unreferred {s : Bullshark} {v : Vertex} (h : unreferred s v = true) :
    Clear s v := by
  unfold unreferred at h
  simp only [Bool.and_eq_true, List.all_eq_true, Bool.or_eq_true, bne_iff_ne, ne_eq,
    Bool.not_eq_true'] at h
  obtain ⟨hbuffer, hedges⟩ := h
  refine ⟨fun u hu hb => absurd hb.1 (hbuffer u hu), fun u hu hb hrec => ?_⟩
  rcases hedges u hu with (hround | hin) | hno
  · exact hround hb.1
  · rw [hb.2] at hin
    cases hin
  · rw [List.any_eq_false] at hno
    exact hno u hrec (sameVertex_self u)

/-- A check that is enough for `HandsClear`. -/
def clearly (cfg : Config) (c : System) (a : Action) : Bool :=
  (c.handsOut cfg a).all fun
    | (_, .genesis _) => true
    | (p, .vertex v) => unreferred (c.replicas p) v &&
      (c.retried cfg a).all fun s => v.round != s.dag.gcOffset

theorem handsClear_of_clearly {cfg : Config} {c : System} {a : Action}
    (h : clearly cfg c a = true) : HandsClear cfg c a := by
  intro p v hout
  unfold clearly at h
  rw [hout, Option.all_some, Bool.and_eq_true] at h
  refine ⟨clear_of_unreferred h.1, fun s hs hb => ?_⟩
  have hround := h.2
  rw [hs, Option.all_some, bne_iff_ne] at hround
  exact absurd hb.1 hround

/-- A check that tells a blocked vertex. -/
def blocks (s : Bullshark) : Bool :=
  s.buffer.any fun v => decide (s.dag.gcOffset < v.round) && v.strongEdges.any fun u =>
    s.history.received.any (sameVertex u) && !s.inDag u && !s.buffer.any (sameVertex u)

theorem not_unblocked_of_blocks {cfg : Config} {c : System} {p : Pid} (hr : c.Reachable cfg)
    (h : blocks (c.replicas p) = true) : ¬ Unblocked (c.replicas p) := by
  intro hU
  unfold blocks at h
  simp only [List.any_eq_true, Bool.and_eq_true, decide_eq_true_eq, Bool.not_eq_true'] at h
  obtain ⟨v, hv, hlt, u, hu, ⟨⟨x, hx, hux⟩, hdag⟩, hbuf⟩ := h
  have hI := Invariant.of_reachable hr
  have hux : u = x := hI.vertices.eq_of_same (hI.vertices.edge v (hI.buffered hv) u hu).1
    ((Received.of_reachable hr p).received x hx).1 hux
  rcases hU v hv hlt u hu (hux ▸ hx) with hhas | hin
  · rw [inDag_of_has hhas] at hdag
    cases hdag
  · rw [List.any_eq_false] at hbuf
    exact hbuf u hin (sameVertex_self u)

/-- The third vertex of replica 0 waits at replica 1 for the second one, which the next step
hands out and throws away. -/
theorem never_blocked_four : ∃ (c c' : System) (a : Action) (v : Vertex),
    (c.replicas 1).buffer ≠ [] ∧ 2 ≤ (c.replicas 1).dag.gcOffset ∧
      (∀ p, Unblocked (c.replicas p)) ∧ System.step ⟨4, 0⟩ c a = some c' ∧
      c.handsOut ⟨4, 0⟩ a = some (1, .vertex v) ∧ ¬ Unblocked (c'.replicas 1) ∧
      ∃ s, c.retried ⟨4, 0⟩ a = some s ∧ ¬ ClearOf s v := by
  let cfg : Config := ⟨4, 0⟩
  let last : Packet VertexMessage → Bool := fun x => x.dst == 1 && x.msg.id == ⟨0, 15⟩
  let check (c : System) (a : Action) : Bool := (System.step cfg c a).any fun c' =>
    (c.handsOut cfg a).any fun x => x.2.casesOn (fun v => x.1 == 1 &&
      unreferred (c.replicas 1) v && blocks (c'.replicas 1)) fun _ => false
  let phases : List Phase := overtaken cfg ++ [.deliver last 1]
  have hrun : (run cfg (phases.map (Phase.filter (clearly cfg))) System.init).any (fun c =>
        !(c.replicas 1).buffer.isEmpty && decide (2 ≤ (c.replicas 1).dag.gcOffset) &&
        (oldest last c.network).any fun index => check c (.deliver index inOrder)) = true := by
    decide +kernel
  obtain ⟨c, hc, hd⟩ := (Option.any_eq_true _ _).mp hrun
  rw [Bool.and_eq_true, Bool.and_eq_true, Bool.not_eq_true', List.isEmpty_eq_false_iff,
    decide_eq_true_eq] at hd
  obtain ⟨⟨hbuffer, hoffset⟩, hd⟩ := hd
  obtain ⟨index, -, hd⟩ := (Option.any_eq_true _ _).mp hd
  obtain ⟨c', hs, hd⟩ := (Option.any_eq_true _ _).mp hd
  obtain ⟨⟨p, message⟩, hout, hd⟩ := (Option.any_eq_true _ _).mp hd
  have hreach := reachable_filter (fun c a => handsClear_of_clearly) hc
  obtain ⟨hU, hexact⟩ := never_blocked cfg c hreach
  cases message with
  | genesis => cases hd
  | vertex v =>
    simp only [Bool.and_eq_true, beq_iff_eq] at hd
    obtain ⟨⟨rfl, hclear⟩, hblocks⟩ := hd
    have hr : c.Reachable cfg := hreach.weaken fun _ _ _ => trivial
    have hno := not_unblocked_of_blocks (hr.step trivial hs) hblocks
    refine ⟨c, c', _, v, hbuffer, hoffset, hU, hs, hout, hno, ?_⟩
    by_contra hall
    refine hno ((hexact _ c' 1 v hs hout).mpr ⟨fun _ => clear_of_unreferred hclear,
      fun s hs _ => ?_⟩)
    by_contra hclearOf
    exact hall ⟨s, hs, hclearOf⟩

/-- **A blocked vertex.** When the second vertex of replica 0 reaches replica 1 as well it
is thrown away, and the third one goes on waiting for it. -/
theorem blocked_by_thrown : ∃ c : System, c.Reachable ⟨4, 0⟩ ∧ ¬ Unblocked (c.replicas 1) := by
  let cfg : Config := ⟨4, 0⟩
  let phases : List Phase := overtaken cfg ++
    [.deliver (fun x => x.dst == 1 && x.msg.id == ⟨0, 15⟩) 2]
  have hrun : (run cfg phases System.init).any (fun c => blocks (c.replicas 1)) = true := by
    decide +kernel
  obtain ⟨c, hc, hd⟩ := (Option.any_eq_true _ _).mp hrun
  have hreach := reachable_run .init hc
  exact ⟨c, hreach, not_unblocked_of_blocks hreach hd⟩

end Blsmr.Bullshark
