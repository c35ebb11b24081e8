import Blsmr.Bullshark.Agreement
import Blsmr.Bullshark.Calls

/-!
# Commands that no replica proposes any more

A replica takes a command out of its pending map when a vertex that carries it is handed out,
also when `try_add_to_dag` then discards the vertex; and nothing makes a replica order a vertex
that no later one has an edge to. So the only vertices that carry a command can fall behind
every bound (`orphaned_command`). A command stays as long as one replica does neither
(`no_command_orphaned`): it is handed no vertex below its bound for a command that it has
pending, and its anchors leave no vertex behind that carries the command.
-/

namespace Blsmr.Bullshark

open Blsmr.Transition Blsmr.Graph RoundBasedDAG
open Broadcast (Packet)

/-- The vertex carries the command. -/
abbrev Carries (i : CmdId) (v : Vertex) : Prop := i ∈ v.commands.map Command.id

/-- The replica has made the vertex, or been handed it. -/
def System.HasSeen (c : System) (p : Pid) (v : Vertex) : Prop :=
  v ∈ c.shared.created ∧ (v.source = p ∨ v ∈ (c.replicas p).history.received)

/-- In the step to `c'` the replica hands the anchor to `order_from`, with its bound before. -/
def System.HandsOver (c c' : System) (p : Pid) (y : Vertex × ℕ) : Prop :=
  y ∈ (c'.replicas p).history.anchors ∧ y ∉ (c.replicas p).history.anchors

/-- **The action does not make the replica drop the command.** -/
structure KeepsCommand (cfg : Config) (p : Pid) (i : CmdId) (c : System) (a : Action) : Prop where
  /-- No vertex below the bound takes the command out of the pending map. -/
  handed : ∀ v, c.handsOut cfg a = some (p, .vertex v) → Carries i v →
    i ∈ (c.replicas p).pendingCommands → i ∉ c.shared.commits.committed →
      (c.replicas p).dag.gcOffset ≤ v.round
  /-- An anchor that goes past a vertex with the command is handed over with one that reaches
  such a vertex, or there is such a vertex that it does not go past. -/
  ordered : ∀ c', System.step cfg c a = some c' → i ∉ c.shared.commits.committed →
    ∀ y, c.HandsOver c' p y → ∀ v, c'.HasSeen p v → Carries i v → y.2 ≤ v.round →
      v.round < y.1.round → ∃ u, Carries i u ∧
        ((∃ z, c.HandsOver c' p z ∧ z.1.Reaches u ∧ z.2 ≤ u.round) ∨
          c'.HasSeen p u ∧ y.1.round ≤ u.round)

/-- The replica will propose the command, or a vertex that it has seen carries it that does not
lie below its bound. -/
def System.KeptBy (c : System) (p : Pid) (i : CmdId) : Prop :=
  (∃ s ∈ c.submits, s.1 = p ∧ s.2.id = i) ∨ i ∈ (c.replicas p).pendingCommands ∨
    ∃ v, c.HasSeen p v ∧ Carries i v ∧ (c.replicas p).dag.gcOffset ≤ v.round

section

variable {f submitLimit : ℕ} {cfg : Config} {me p : Pid} {c c' base : System} {a : Action}
  {env : Env} {w w' : Work} {v : Vertex} {i : CmdId} {round : ℕ}

/-! ## What the bound goes past -/

/-- **The bound goes past a round** when an anchor above it is ordered. -/
theorem Move.passes (hG : Good cfg me w) (h : Move cfg me w w')
    (hL : Logged cfg.procNum w.shared.created w.state) (hle : w.state.dag.gcOffset ≤ round)
    (hlt : round < w'.state.dag.gcOffset) : ∃ y ∈ w'.state.history.anchors,
      y ∉ w.state.history.anchors ∧ y.2 ≤ round ∧ round < y.1.round := by
  cases h with
  | add _ _ _ hadd =>
    have hoff := (hG.sound.dag.shaped.addVertex hadd).gcOffset
    simp only at hlt
    omega
  | genesis _ _ hadd =>
    have hoff := (hG.sound.dag.shaped.addVertex hadd).gcOffset
    simp only at hlt
    omega
  | @order vertex anchor _ _ _ _ _ _ _ hcommit =>
    simp only [hcommit.gcOffset] at hlt ⊢
    rcases hcommit.log with ⟨-, hround, -, -⟩ | ⟨-, pushed, -, hanchors⟩
    · have := hG.sound.offset
      omega
    · refine ⟨(anchor, w.state.dag.gcOffset), ?_, fun hold => ?_, hle, hlt⟩
      · rw [hanchors, List.map_append]
        exact List.mem_append_right _ (List.mem_append_right _ (List.mem_singleton_self _))
      · have hround : anchor.round ≤ w.state.dag.gcOffset := (hL.bound _ hold).1
        omega
  | _ => exact absurd hlt (Nat.not_lt_of_le hle)

theorem Move.anchors (h : Move cfg me w w') :
    w.state.history.anchors ⊆ w'.state.history.anchors := by
  cases h with
  | order _ _ _ _ hcommit =>
    rcases hcommit.log with ⟨-, -, hanchors, -⟩ | ⟨-, pushed, -, hanchors⟩
    · exact hanchors ▸ List.Subset.refl _
    · exact hanchors ▸ List.subset_append_left _ _
  | _ => exact List.Subset.refl _

theorem Moves.anchors (h : Moves cfg me w w') :
    w.state.history.anchors ⊆ w'.state.history.anchors := by
  induction h with
  | refl => exact List.Subset.refl _
  | tail _ hm ih => exact fun y hy => hm.anchors (ih hy)

theorem Moves.passes (hn : cfg.procNum = 3 * f + 1) (hG : Good cfg me w) (h : Moves cfg me w w')
    (hL : Logged cfg.procNum w.shared.created w.state) (hle : w.state.dag.gcOffset ≤ round)
    (hlt : round < w'.state.dag.gcOffset) : ∃ y ∈ w'.state.history.anchors,
      y ∉ w.state.history.anchors ∧ y.2 ≤ round ∧ round < y.1.round := by
  induction h with
  | refl => omega
  | @tail w₁ w₂ hms hm ih =>
    by_cases hpast : round < w₁.state.dag.gcOffset
    · obtain ⟨y, hy, hno, hround⟩ := ih hpast
      exact ⟨y, hm.anchors hy, hno, hround⟩
    · obtain ⟨y, hy, hno, hround⟩ :=
        hm.passes (hG.moves hms) (hL.moves hn hG hms) (Nat.le_of_not_lt hpast) hlt
      exact ⟨y, hy, fun hold => hno (Moves.anchors hms hold), hround⟩

/-! ## What a step leaves to the replica -/

theorem Called.keeps (hG : Good env.cfg env.me w) (h : Called env w w') (hk : Keyed w.state)
    (hi : i ∈ w.state.pendingCommands) : i ∈ w'.state.pendingCommands ∨
      ∃ v ∈ w'.shared.created, v.source = env.me ∧ Carries i v ∧
        w.state.dag.gcOffset ≤ v.round := by
  obtain ⟨x, hx⟩ := Option.isSome_iff_exists.mp (AList.lookup_isSome.mpr hi)
  rcases h.pending i x hx with hx' | ⟨v, hM, hxv⟩
  · exact .inl (AList.lookup_isSome.mp (by rw [hx']; rfl))
  · have hcarries : Carries i v := List.mem_map.mpr ⟨x, hxv, hk i x hx⟩
    obtain ⟨hmem, hsource, hlt⟩ := hM.own hG
    exact .inr ⟨v, hmem, hsource, hcarries, hlt.le⟩

theorem Invariant.hasSeen (hI : Invariant cfg c) (h : System.step cfg c a = some c')
    (hv : c.HasSeen p v) : c'.HasSeen p v := by
  obtain ⟨me, base, w, w', hb, hm, rfl⟩ := hI.step h
  refine ⟨Moves.created hm (begins_created hb hv.1), hv.2.imp_right fun hrec => ?_⟩
  unfold System.update
  simp only
  by_cases hp : p = me
  · subst hp
    rw [Function.update_self]
    exact Moves.received hm ((hI.begins_bound hb).2 ▸ hrec)
  · rwa [Function.update_of_ne hp, (hI.begins_base hb).1]

/-- **A pending command stays**, or a new vertex or the one handed out carries it. -/
theorem Continues.keeps (hG : Good cfg p w) (hk : Keyed w.state)
    (hi : i ∈ w.state.pendingCommands) (h : Continues cfg c a p w w') :
    i ∈ w'.state.pendingCommands ∨
      (∃ v ∈ w'.shared.created, v.source = p ∧ Carries i v ∧ w.state.dag.gcOffset ≤ v.round) ∨
      ∃ v ∈ w'.shared.created, c.handsOut cfg a = some (p, .vertex v) ∧ Carries i v ∧
        v ∈ w'.state.history.received := by
  cases h with
  | plain env hcfg hme hcall =>
    subst hcfg hme
    exact (hcall.keeps hG hk hi).imp_right .inl
  | @handed env v hcfg hme hmem hout hcall hrec =>
    subst hcfg hme
    have hm : Move env.cfg env.me w (forgetCommands v w) := .forget hmem
    by_cases hiv : Carries i v
    · exact .inr (.inr ⟨v, hcall.moves.created hmem, hout, hiv, hrec⟩)
    · refine (hcall.keeps (hG.move hm) (hm.keyed hk) (AList.lookup_isSome.mp ?_)).imp_right .inl
      unfold forgetCommands
      simp only
      rw [lookup_foldl_erase, if_neg hiv]
      exact AList.lookup_isSome.mpr hi

theorem begins_handsOut (hb : Begins cfg c a me base w) {out : Pid × VertexMessage}
    (hout : c.handsOut cfg a = some out) :
    w.state.pendingCommands = (c.replicas me).pendingCommands := by
  cases hb with
  | deliver => rfl
  | _ => cases hout

/-- **Where the command is after a step**, with respect to the bound before. -/
theorem KeepsCommand.survives (hr : c.Reachable cfg) (h : System.step cfg c a = some c')
    (hK : KeepsCommand cfg p i c a) (hno : i ∉ c.shared.commits.committed)
    (hkept : c.KeptBy p i) : (∃ s ∈ c'.submits, s.1 = p ∧ s.2.id = i) ∨
      i ∈ (c'.replicas p).pendingCommands ∨
      ∃ v, c'.HasSeen p v ∧ Carries i v ∧ (c.replicas p).dag.gcOffset ≤ v.round := by
  have hI := Invariant.of_reachable hr
  have hk := (accounted_of_reachable hr).1
  have hseen : ∀ {v}, c.HasSeen p v → c'.HasSeen p v := hI.hasSeen h
  obtain ⟨me, base, w, w', hb, hc, rfl⟩ := hI.continues h
  have hself : (base.update me w').replicas me = w'.state := Function.update_self _ _ _
  obtain ⟨hkw, hbegin⟩ := begins_pending hb (hk me)
  have hgoes : p = me → i ∈ w.state.pendingCommands →
      i ∈ ((base.update me w').replicas p).pendingCommands ∨
        ∃ v, (base.update me w').HasSeen p v ∧ Carries i v ∧
          (c.replicas p).dag.gcOffset ≤ v.round := by
    rintro rfl hi
    rw [hself]
    rcases hc.keeps (hI.opening hb).good hkw hi with
      hi' | ⟨v, hv, hsource, hiv, hle⟩ | ⟨v, hv, hout, hiv, hrec⟩
    · exact .inl hi'
    · rw [(hI.begins_bound hb).1] at hle
      exact .inr ⟨v, ⟨hv, .inl hsource⟩, hiv, hle⟩
    · rw [begins_handsOut hb hout] at hi
      exact .inr ⟨v, ⟨hv, .inr (hself ▸ hrec)⟩, hiv, hK.handed v hout hiv hi hno⟩
  rcases hkept with ⟨s, hs, hsp, hi⟩ | hi | ⟨v, hv, hi, hle⟩
  · rcases begins_submits hb hs with hs | ⟨hme, hpending⟩
    · exact .inl ⟨s, List.mem_append_right _ hs, hsp, hi⟩
    · exact .inr (hgoes (hsp.symm.trans hme) (hi ▸ hpending))
  · by_cases hp : p = me
    · exact .inr (hgoes hp (hbegin i (hp ▸ hi)))
    · refine .inr (.inl ?_)
      unfold System.update
      simp only
      rwa [Function.update_of_ne hp, (hI.begins_base hb).1]
  · exact .inr (.inr ⟨v, hseen hv, hi, hle⟩)

/-- **The bound of a replica goes past a round** when it hands an anchor above it over. -/
theorem bound_passes (hr : c.Reachable ⟨3 * f + 1, submitLimit⟩)
    (h : System.step ⟨3 * f + 1, submitLimit⟩ c a = some c')
    (hle : (c.replicas p).dag.gcOffset ≤ round) (hlt : round < (c'.replicas p).dag.gcOffset) :
    ∃ y, c.HandsOver c' p y ∧ y.2 ≤ round ∧ round < y.1.round := by
  have hI := Invariant.of_reachable hr
  obtain ⟨me, base, w, w', hb, hm, rfl⟩ := hI.step h
  unfold System.HandsOver System.update at *
  simp only at hlt ⊢
  by_cases hp : p = me
  · subst hp
    rw [Function.update_self] at hlt ⊢
    obtain ⟨hbound, hnotes⟩ := hI.begins_bound hb
    obtain ⟨y, hy, hnew, hround⟩ :=
      Moves.passes rfl (hI.opening hb).good hm (.of_begins hr hb .refl) (hbound ▸ hle) hlt
    exact ⟨y, ⟨hy, hnotes ▸ hnew⟩, hround⟩
  · rw [Function.update_of_ne hp, (hI.begins_base hb).1] at hlt
    omega

theorem committed_of_reaches (hr : c.Reachable ⟨3 * f + 1, submitLimit⟩) {y : Vertex × ℕ}
    (hy : y ∈ (c.replicas p).history.anchors) (hreach : y.1.Reaches v) (hle : y.2 ≤ v.round)
    (hi : Carries i v) : i ∈ c.shared.commits.committed := by
  have hI := Invariant.of_reachable hr
  have hreplay : Replay (c.replicas p).history.anchors (c.replicas p).history.output := by
    by_cases hp : p ∈ c.started
    · exact (hI.sound p hp).replay
    · rw [hI.idle p hp]
      exact .nil
  have hout := (hreplay.contains hI.vertices (Logged.of_reachable hr p).rising).1 y hy v hreach hle
  exact (Flagged.of_reachable hr i).mpr ⟨p, v, hout, hi⟩

/-- **The step keeps the command**, or commits it. -/
theorem KeepsCommand.step (hr : c.Reachable ⟨3 * f + 1, submitLimit⟩)
    (h : System.step ⟨3 * f + 1, submitLimit⟩ c a = some c')
    (hK : KeepsCommand ⟨3 * f + 1, submitLimit⟩ p i c a)
    (hno : i ∉ c.shared.commits.committed) (hno' : i ∉ c'.shared.commits.committed)
    (hkept : c.KeptBy p i) : c'.KeptBy p i := by
  have hr' : c'.Reachable ⟨3 * f + 1, submitLimit⟩ := hr.step trivial h
  -- the higher such a vertex lies, the fewer rounds the bound can still go past
  have hclimb : ∀ rounds, ∀ v, c'.HasSeen p v → Carries i v →
      (c.replicas p).dag.gcOffset ≤ v.round →
      (c'.replicas p).dag.gcOffset - v.round = rounds →
      ∃ v, c'.HasSeen p v ∧ Carries i v ∧ (c'.replicas p).dag.gcOffset ≤ v.round := by
    intro rounds
    induction rounds using Nat.strong_induction_on with
    | h rounds ih =>
      intro v hv hi hle hrounds
      by_cases hpast : (c'.replicas p).dag.gcOffset ≤ v.round
      · exact ⟨v, hv, hi, hpast⟩
      · obtain ⟨y, hy, hoffset, hround⟩ := bound_passes hr h hle (Nat.lt_of_not_le hpast)
        obtain ⟨u, hiu, ⟨z, hz, hreach, hzu⟩ | ⟨hu, hyu⟩⟩ :=
          hK.ordered c' h hno y hy v hv hi hoffset hround
        · exact absurd (committed_of_reaches hr' hz.1 hreach hzu hiu) hno'
        · exact ih _ (by omega) u hu hiu (by omega) rfl
  rcases hK.survives hr h hno hkept with hs | hi | ⟨v, hv, hi, hle⟩
  · exact .inl hs
  · exact .inr (.inl hi)
  · exact .inr (.inr (hclimb _ v hv hi hle rfl))

end

/-- A check that is enough for `KeepsCommand`: an anchor that goes past a vertex with the command
does not go past one of the replica itself. -/
def keeps (cfg : Config) (p : Pid) (i : CmdId) (c : System) (a : Action) : Bool :=
  ((c.handsOut cfg a).all fun
    | (_, .genesis _) => true
    | (q, .vertex v) => !(q == p && decide (Carries i v)) ||
      decide ((c.replicas p).dag.gcOffset ≤ v.round)) &&
  (System.step cfg c a).all fun c' => (c'.replicas p).history.anchors.all fun y =>
    (c'.shared.created.all fun v =>
      !decide (Carries i v ∧ y.2 ≤ v.round ∧ v.round < y.1.round)) ||
    c'.shared.created.any fun u => decide (Carries i u ∧ u.source = p ∧ y.1.round ≤ u.round)

end Blsmr.Bullshark
