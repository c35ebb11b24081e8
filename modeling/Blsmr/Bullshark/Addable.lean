import Blsmr.Bullshark.Retry

/-!
# Vertices that stay in the buffer

The buffer is tried again before the delivered vertex is added, and not afterwards. As long
as no vertex that is handed out is all that a vertex of the buffer lacks, no vertex stays in
the buffer whose edges are all in the DAG (`none_addable`).
-/

namespace Blsmr.Bullshark

open Blsmr.Transition Blsmr.Graph RoundBasedDAG
open Broadcast (Packet)

/-- No vertex of the buffer above the bound has all of its edges in the DAG. -/
def NoneAddable (s : Bullshark) : Prop :=
  ∀ u ∈ s.buffer, s.dag.minRound < u.round → ∃ e ∈ u.strongEdges, s.inDag e = false

/-- The vertex is all that a vertex of the buffer lacks. -/
def Completes (s : Bullshark) (v : Vertex) : Prop :=
  ∃ u ∈ s.buffer, s.dag.minRound < u.round ∧ v ∈ u.strongEdges ∧
    ∀ e ∈ u.strongEdges, e = v ∨ s.inDag e = true

/-- What is handed out does not go into the DAG, or no vertex of the buffer lacks only that. -/
def Apart (s : Bullshark) : VertexMessage → Prop
  | .genesis v => ¬ Completes s v
  | .vertex v => s.dag.minRound < v.round → (∀ e ∈ v.strongEdges, s.inDag e = true) →
    ¬ Completes s v

/-- What the action makes the consistent broadcast hand out is apart from the buffer. -/
def HandsApart (cfg : Config) (c : System) (a : Action) : Prop :=
  ∀ p message, c.handsOut cfg a = some (p, message) → Apart (c.replicas p) message

section

variable {cfg : Config} {me : Pid} {env : Env} {w w' : Work} {s s' : Bullshark} {v x : Vertex}
  {bound : ℕ}

theorem Good.inDag_iff (hG : Good cfg me w) (hmem : v ∈ w.shared.created) :
    w.state.inDag v = true ↔ w.state.dag.Has v :=
  ⟨hG.has_of_inDag hmem, inDag_of_has⟩

theorem inDag_congr (hdag : s'.dag = s.dag) : s'.inDag v = s.inDag v := by
  unfold inDag
  rw [hdag]

theorem Good.noneAddable_iff (hG : Good cfg me w) : NoneAddable w.state ↔
    ∀ u ∈ w.state.buffer, w.state.dag.gcOffset < u.round →
      ¬ ∀ e ∈ u.strongEdges, w.state.dag.Has e := by
  have hedge : ∀ u ∈ w.state.buffer, ∀ e ∈ u.strongEdges, e ∈ w.shared.created := fun u hu e he =>
    (hG.vertices.edge u (hG.sound.buffered u hu).1 e he).1
  refine forall₃_congr fun u hu _ => ⟨fun ⟨e, he, hno⟩ hall => ?_, fun hno => ?_⟩
  · rw [inDag_of_has (hall e he)] at hno
    cases hno
  · by_contra hall
    refine hno fun e he => hG.has_of_inDag (hedge u hu e he) ?_
    by_contra hne
    exact hall ⟨e, he, Bool.eq_false_iff.mpr hne⟩

theorem NoneAddable.congr (h : NoneAddable s) (hdag : s'.dag = s.dag)
    (hbuffer : s'.buffer ⊆ s.buffer) : NoneAddable s' := by
  intro u hu hlt
  obtain ⟨e, he, hno⟩ := h u (hbuffer hu) (hdag ▸ hlt)
  exact ⟨e, he, (inDag_congr hdag).trans hno⟩

theorem NoneAddable.not_placeable (hG : Good cfg me w) (h : NoneAddable w.state)
    (hx : x ∈ w.state.buffer) (hlt : w.state.dag.gcOffset < x.round) :
    ¬ Placeable w.state x := by
  have hno := hG.noneAddable_iff.mp h
  have hhas : ∀ {y}, Placeable w.state y → w.state.dag.Has y := by
    intro y hy
    induction hy with
    | held hy => exact hy
    | buffered hy hlt _ ih => exact absurd ih (hno _ hy hlt)
  exact fun hp => hno x hx hlt (hG.sound.dag.closed x (hhas hp) hlt)

theorem NoneAddable.places (hG : Good cfg me w) (hm : Moves cfg me w w')
    (hP : Places (fun _ => False) bound w w') (h : NoneAddable w.state) :
    NoneAddable w'.state := by
  refine (hG.moves hm).noneAddable_iff.mpr fun u hu hlt hall => ?_
  have hu := ((hP.buffer u).mp hu).1
  have hgrow := (Moves.grows hG hm).1
  refine hG.noneAddable_iff.mp h u hu (hgrow.trans_lt hlt) fun e he => ?_
  have hmem := (hG.vertices.edge u (hG.sound.buffered u hu).1 e he).1
  exact (hP.has e hmem (hall e he)).resolve_right id

/-- **One vertex more in the DAG**: it lets a vertex of the buffer in if it is all that this
one lacks, unless its own round has been dropped. -/
theorem NoneAddable.place_iff (hG : Good cfg me w) (hmem : v ∈ w.shared.created)
    (hm : Moves cfg me w w') (hP : Places (· = v) bound w w') (hv : Kept w'.state v)
    (h : NoneAddable w.state) :
    NoneAddable w'.state ↔ ¬ Completes w.state v ∨ v.round < w'.state.dag.gcOffset := by
  have hG' := hG.moves hm
  have hgrow := (Moves.grows hG hm).1
  have hround : ∀ u ∈ w.state.buffer, ∀ e ∈ u.strongEdges,
      e ∈ w.shared.created ∧ e.round + 1 = u.round := fun u hu =>
    hG.vertices.edge u (hG.sound.buffered u hu).1
  constructor
  · intro hN
    by_contra hno
    rw [not_or, not_not] at hno
    obtain ⟨⟨u, hu, hlt, hvu, hall⟩, hge⟩ := hno
    have hvr := (hround u hu v hvu).2
    have hne : ¬ u = v := fun heq => by
      rw [heq] at hvr
      omega
    refine hG'.noneAddable_iff.mp hN u ((hP.buffer u).mpr ⟨hu, hne⟩) (by omega) fun e he => ?_
    obtain ⟨hemem, her⟩ := hround u hu e he
    refine Or.resolve_right (?_ : Kept w'.state e) (by omega)
    rcases hall e he with rfl | hin
    · exact hv
    · exact hm.kept hG (.inl (hG.has_of_inDag hemem hin))
  · refine fun hor => hG'.noneAddable_iff.mpr fun u hu hlt hall => ?_
    have hu := ((hP.buffer u).mp hu).1
    have hin : ∀ e ∈ u.strongEdges, e = v ∨ w.state.dag.Has e := fun e he =>
      (hP.has e (hround u hu e he).1 (hall e he)).symm
    have hvu : v ∈ u.strongEdges := by
      by_contra hno
      exact hG.noneAddable_iff.mp h u hu (hgrow.trans_lt hlt) fun e he =>
        (hin e he).resolve_left fun heq => hno (heq ▸ he)
    rcases hor with hno | hlow
    · exact hno ⟨u, hu, hgrow.trans_lt hlt, hvu, fun e he => (hin e he).imp_right inDag_of_has⟩
    · have := (hround u hu v hvu).2
      omega

/-- **After the handler of a vertex**. -/
theorem NoneAddable.onVertex_iff (hG : Good env.cfg env.me w) (hmem : v ∈ w.shared.created)
    (h0 : v.round ≠ 0) (hN : NoneAddable w.state) (h : onVertex env v w = some w') :
    NoneAddable w'.state ↔ Apart w.state (.vertex v) := by
  obtain ⟨w₁, w₂, w₃, hm₁, hdag₁, hbuffer₁, -, hcreated₁, -, hpass, htreat, hends⟩ :=
    onVertex_cases hG hmem h0 h
  have hG₁ := hG.moves hm₁
  have hG₂ := hG₁.moves hpass.moves
  have hmem₂ : v ∈ w₂.shared.created := hpass.moves.created (hcreated₁ ▸ hmem)
  have hm₃ := htreat.moves hmem₂ h0
  have hG₃ := hG₂.moves hm₃
  have hN₁ : NoneAddable w₁.state := hN.congr hdag₁ fun x hx => hbuffer₁ ▸ hx
  have hnone := fun x hx hlt => hN₁.not_placeable hG₁ (x := x) hx hlt
  have hdag₂ : w₂.state.dag = w.state.dag := (hpass.idle hnone).trans hdag₁
  have hbuffer₂ : ∀ x, x ∈ w₂.state.buffer ↔
      x ∈ w.state.buffer ∧ w.state.dag.gcOffset < x.round := fun x => by
    rw [hpass.buffer, hbuffer₁, hdag₁, ← and_assoc]
    refine and_iff_left_of_imp fun hx => hnone x (hbuffer₁ ▸ hx.1) ?_
    rw [hdag₁]
    exact hx.2
  have hN₂ : NoneAddable w₂.state := hN.congr hdag₂ fun x hx => ((hbuffer₂ x).mp hx).1
  have hedges : (∀ e ∈ v.strongEdges, w.state.inDag e = true) ↔
      ∀ e ∈ v.strongEdges, w₂.state.dag.Has e := by
    rw [hdag₂]
    exact forall₂_congr fun e he => hG.inDag_iff (hG.vertices.edge v hmem e he).1
  cases htreat with
  | discarded hle =>
    rw [hdag₂] at hle
    refine iff_of_true ?_ fun hlt => absurd hlt (Nat.not_lt_of_le hle)
    refine NoneAddable.places hG₃ hends.moves hends.places (hN₂.congr rfl fun x hx => ?_)
    exact (mem_bufferRemove.mp hx).1
  | held hlt hno =>
    refine iff_of_true ?_ fun _ hall => absurd (hedges.mp hall) hno
    refine NoneAddable.places hG₃ hends.moves hends.places ?_
    refine hG₃.noneAddable_iff.mpr fun u hu hult hall => ?_
    rcases mem_of_mem_bufferInsert hu with rfl | hu
    · exact hno hall
    · exact hG₂.noneAddable_iff.mp hN₂ u hu hult hall
  | placed hlt hall hplaced _ =>
    have hP : Places (· = v) (v.round - 1) w₂ w' :=
      ((hplaced.places.mono (by omega)).trans hends.places hplaced.moves.created).congr
        fun x => by rw [or_false]
    have hm := hm₃.trans hends.moves
    have hoff := hP.offset
    rw [hN₂.place_iff hG₂ hmem₂ hm hP (hends.moves.kept hG₃ (.inl hplaced.has)),
      or_iff_left (by omega)]
    have hcompletes : Completes w₂.state v ↔ Completes w.state v := by
      refine exists_congr fun u => ?_
      rw [hbuffer₂, hdag₂, and_assoc]
      refine and_congr_right fun _ => ?_
      simp only [inDag_congr hdag₂]
      exact ⟨fun h => h.2, fun h => ⟨h.1, h⟩⟩
    rw [hdag₂] at hlt
    rw [hcompletes]
    exact ⟨fun hno _ _ => hno, fun hap => hap hlt (hedges.mpr hall)⟩

/-- **After the handler of a genesis vertex**. -/
theorem NoneAddable.onGenesis_iff (hG : Good env.cfg env.me w) (hmem : v ∈ w.shared.created)
    (h0 : v.round = 0) (hN : NoneAddable w.state) (h : onGenesis env v w = some w') :
    NoneAddable w'.state ↔ Apart w.state (.genesis v) ∨ 0 < w'.state.dag.gcOffset := by
  obtain ⟨hP, hkept⟩ := onGenesis_places hG hmem h0 h
  have hm := onGenesis_moves hG hmem h0 h
  rw [hN.place_iff hG hmem hm hP hkept, h0]
  exact Iff.rfl

theorem apart_congr (hdag : s'.dag = s.dag) (hbuffer : s'.buffer = s.buffer)
    (message : VertexMessage) : Apart s' message ↔ Apart s message := by
  unfold Apart Completes minRound
  simp only [inDag_congr hdag, hdag, hbuffer]

/-- **What a step leaves in a buffer**: nothing that could be added, if and only if what it
hands out is apart from the buffer. -/
theorem Does.noneAddable_iff {p : Pid} {out : Option (Pid × VertexMessage)}
    (hd : Does cfg p s out w') (hN : NoneAddable s) : NoneAddable w'.state ↔
      ∀ message, out = some (p, message) → Apart s message ∨
        (∃ v, message = .genesis v) ∧ 0 < w'.state.dag.gcOffset := by
  cases hd with
  | start hnew _ _ =>
    refine iff_of_true (fun u hu => ?_) fun _ h => by cases h
    rw [hnew.buffer] at hu
    cases hu
  | idle hstill =>
    exact iff_of_true (hN.congr hstill.dag fun x hx => hstill.buffer ▸ hx) fun _ h => by cases h
  | @timeout env w _ hcfg hme hG hstate h =>
    subst hcfg hme
    refine iff_of_true ?_ fun _ h => by cases h
    have hN' : NoneAddable w.state := by
      rw [hstate]
      exact hN
    rcases tryAdvanceRound_cases hG h with ⟨-, rfl⟩ | ⟨-, hP, -⟩
    · exact hN'
    · exact hN'.places hG (tryAdvanceRound_moves hG h) hP
  | @genesis env w _ v hcfg hme hG hstill hmem h0 h =>
    subst hcfg hme
    have hN' : NoneAddable w.state := hN.congr hstill.dag fun x hx => hstill.buffer ▸ hx
    rw [hN'.onGenesis_iff hG hmem h0 h, apart_congr hstill.dag hstill.buffer]
    refine ⟨fun hor message heq => ?_, fun hall => ?_⟩
    · cases heq
      exact hor.imp_right fun hlt => ⟨⟨v, rfl⟩, hlt⟩
    · exact (hall _ rfl).imp_right And.right
  | @vertex env w _ v hcfg hme hG hstill hmem h0 h =>
    subst hcfg hme
    have hN' : NoneAddable w.state := hN.congr hstill.dag fun x hx => hstill.buffer ▸ hx
    rw [hN'.onVertex_iff hG hmem h0 h, apart_congr hstill.dag hstill.buffer]
    refine ⟨fun hap message heq => ?_, fun hall => ?_⟩
    · cases heq
      exact .inl hap
    · refine (hall _ rfl).resolve_right fun hgenesis => ?_
      obtain ⟨⟨u, hu⟩, -⟩ := hgenesis
      cases hu

end

/-- **No addable vertex stays in a buffer** in a run in which what the consistent broadcast
hands out is apart from the buffers; and a vertex that is not leaves one behind. -/
theorem none_addable (cfg : Config) (c : System)
    (h : Transition.Reachable (System.step cfg) System.init (HandsApart cfg) c) :
    (∀ p, NoneAddable (c.replicas p)) ∧
      ∀ a c' p message, System.step cfg c a = some c' → c.handsOut cfg a = some (p, message) →
        (NoneAddable (c'.replicas p) ↔ Apart (c.replicas p) message ∨
          (∃ v, message = .genesis v) ∧ 0 < (c'.replicas p).dag.gcOffset) := by
  have hstep : ∀ {c a c'}, c.Reachable cfg → System.step cfg c a = some c' →
      (∀ p, NoneAddable (c.replicas p)) → ∀ p, NoneAddable (c'.replicas p) ↔
        ∀ message, c.handsOut cfg a = some (p, message) → Apart (c.replicas p) message ∨
          (∃ v, message = .genesis v) ∧ 0 < (c'.replicas p).dag.gcOffset := by
    intro c a c' hr hs hN p
    obtain ⟨q, w', ⟨hstate, hothers⟩, hd⟩ := (Invariant.of_reachable hr).does hs
    by_cases hp : p = q
    · subst hp
      rw [hstate]
      exact hd.noneAddable_iff (hN p)
    · rw [hothers p hp]
      refine iff_of_true (hN p) fun message hout => ?_
      exact absurd (hd.out_eq hout).symm hp
  have hall : ∀ p, NoneAddable (c.replicas p) := by
    refine h.invariant (I := fun c => ∀ p, NoneAddable (c.replicas p))
      (fun p u hu => absurd hu List.not_mem_nil) fun c a c' hr ha hN hs p => ?_
    exact (hstep (hr.weaken fun _ _ _ => trivial) hs hN p).mpr fun message hout =>
      .inl (ha p message hout)
  refine ⟨hall, fun a c' p message hs hout => ?_⟩
  rw [hstep (h.weaken fun _ _ _ => trivial) hs hall p]
  refine ⟨fun h => h message hout, fun hor message' heq => ?_⟩
  rw [hout] at heq
  cases heq
  exact hor

/-- The vertices of round 1 reach replica 1, except that of replica 3, and then a vertex with
an edge to this one. -/
def withheld (cfg : Config) : List Phase :=
  [.start cfg, (Phase.deliver (fun x => !(x.dst == 1 && x.msg.id == ⟨3, 4⟩)) 400).until fun c =>
    !(c.replicas 1).buffer.isEmpty]

theorem none_addable_four : ∃ c : System, (c.replicas 1).buffer ≠ [] ∧
    ∀ p, NoneAddable (c.replicas p) := by
  let cfg : Config := ⟨4, 0⟩
  let check : System → Action → Bool := fun c a =>
    (c.handsOut cfg a).all fun out => (c.replicas out.1).buffer.isEmpty
  have hrun : (run cfg ((withheld cfg).map (Phase.filter check)) System.init).any (fun c =>
      !(c.replicas 1).buffer.isEmpty) = true := by
    decide +kernel
  obtain ⟨c, hc, hd⟩ := (Option.any_eq_true _ _).mp hrun
  have hcheck : ∀ c a, check c a = true → HandsApart cfg c a := by
    intro c a h p message hout
    have hempty : (c.replicas p).buffer = [] := by
      have h : (c.handsOut cfg a).all (fun out => (c.replicas out.1).buffer.isEmpty) = true := h
      rw [hout, Option.all_some] at h
      exact List.isEmpty_iff.mp h
    have hno : ¬ Completes (c.replicas p) message.content := fun ⟨u, hu, _⟩ => by
      rw [hempty] at hu
      cases hu
    cases message with
    | genesis v => exact hno
    | vertex v => exact fun _ _ => hno
  rw [Bool.not_eq_true', List.isEmpty_eq_false_iff] at hd
  exact ⟨c, hd, (none_addable cfg c (reachable_filter hcheck hc)).1⟩

/-- **A vertex that stays behind.** When the vertex of replica 3 reaches replica 1 it is added,
and the vertex that lacked only this one stays in the buffer. -/
theorem addable_left_behind : ∃ c c' : System, c.Reachable ⟨4, 0⟩ ∧ ∃ index p v,
    System.step ⟨4, 0⟩ c (.deliver index inOrder) = some c' ∧
      c.handsOut ⟨4, 0⟩ (.deliver index inOrder) = some (p, .vertex v) ∧
      ¬ NoneAddable (c'.replicas p) := by
  let cfg : Config := ⟨4, 0⟩
  let which : Packet VertexMessage → Bool := fun x => x.dst == 1 && x.msg.id == ⟨3, 4⟩
  have hrun : handing cfg (withheld cfg ++ [.deliver which 1]) which (fun p _ c' =>
      let s := c'.replicas p
      s.buffer.any fun u => decide (s.dag.minRound < u.round) &&
        u.strongEdges.all s.inDag) = true := by
    decide +kernel
  obtain ⟨c, c', hc, index, p, v, hs, hout, hd⟩ := of_handing hrun
  refine ⟨c, c', hc, index, p, v, hs, hout, fun hN => ?_⟩
  obtain ⟨u, hu, hd⟩ := List.any_eq_true.mp hd
  rw [Bool.and_eq_true, decide_eq_true_eq, List.all_eq_true] at hd
  obtain ⟨e, he, hno⟩ := hN u hu hd.1
  rw [hd.2 e he] at hno
  cases hno

end Blsmr.Bullshark
