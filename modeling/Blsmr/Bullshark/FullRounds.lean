import Blsmr.Bullshark.Retry

/-!
# Replicas that wait in a full round

A replica that is in an even round and waits goes on when the anchor of the round is in its
DAG. That is checked when a vertex of the round itself is handed out, and the leader of a
round is `round % n + 1`, which is no replica when it is `n`. So a replica may be left waiting
in a round whose vertices it holds all (`Stuck`), and `Strands` says which vertices do that.
-/

namespace Blsmr.Bullshark

open Blsmr.Transition Blsmr.Graph RoundBasedDAG
open Broadcast (Packet)

/-- The DAG holds the vertices of the round of all replicas. -/
def Complete (n : ℕ) (s : Bullshark) (r : ℕ) : Prop :=
  ∀ p < n, ∃ v, s.dag.slot r p = some (some v)

/-- The replica waits in an even round whose vertices it holds all. -/
structure Stuck (n : ℕ) (s : Bullshark) : Prop where
  wait : s.wait = true
  even : s.round % 2 = 0
  later : 2 ≤ s.round
  complete : Complete n s s.round

instance (n : ℕ) (s : Bullshark) (r : ℕ) : Decidable (Complete n s r) :=
  decidable_of_iff (∀ p < n, (s.dag.vertexAt r p).isSome = true) <| forall₂_congr fun p _ => by
    rw [Option.isSome_iff_exists]
    exact exists_congr fun v => vertexAt_eq_some

instance (n : ℕ) (s : Bullshark) : Decidable (Stuck n s) :=
  decidable_of_iff (s.wait = true ∧ s.round % 2 = 0 ∧ 2 ≤ s.round ∧ Complete n s s.round)
    ⟨fun ⟨h₁, h₂, h₃, h₄⟩ => ⟨h₁, h₂, h₃, h₄⟩, fun ⟨h₁, h₂, h₃, h₄⟩ => ⟨h₁, h₂, h₃, h₄⟩⟩

/-- What can be placed when the vertex is handed out: the vertices of the buffer are tried
first, and then the vertex. -/
def Arrives (s : Bullshark) (v x : Vertex) : Prop :=
  Placeable s x ∨ x = v ∧ s.dag.gcOffset < v.round ∧ ∀ e ∈ v.strongEdges, Placeable s e

/-- The vertex lets the replica fill a round and stay there: its own round, or a later one in
which it catches up. In that round the check is not made, or there is no leader. -/
def Strands (n : ℕ) (me : Pid) (s : Bullshark) (v : Vertex) : Prop :=
  ∃ r, r % 2 = 0 ∧ 2 ≤ r ∧ s.round ≤ r ∧ (r = s.round → s.wait = true) ∧
    (∀ p < n, p ≠ me ∨ r = s.round → ∃ x, Arrives s v x ∧ x.round = r ∧ x.source = p) ∧
    (∀ r' > r, ¬ ∃ vs : List Vertex, vs.Nodup ∧ quorumSize n ≤ vs.length ∧
      ∀ x ∈ vs, x.round = r' ∧ Arrives s v x) ∧
    (r ≠ v.round ∨ r % n = n - 1)

/-- What `Steady` says of the replica alone. -/
structure Level (n : ℕ) (s : Bullshark) : Prop where
  floor : s.dag.gcOffset = 0 ∨ s.dag.gcOffset < s.round
  top : s.round = 0 ∨ s.round < s.dag.currentAllocatedRounds
  full : ∀ r, Full n s.dag r → r ≤ s.round
  clock : s.round = 0 → s.timer = 0

section

variable {cfg : Config} {me p : Pid} {env : Env} {w w' : Work} {s s' : Bullshark} {v x : Vertex}
  {n r bound : ℕ}

/-! ## Every reachable replica is steady -/

theorem Level.steady (hL : Level cfg.procNum w.state) (hG : Good cfg me w) : Steady cfg me w :=
  ⟨hG, hL.floor, hL.top, hL.full, hL.clock⟩

theorem Steady.level (hS : Steady cfg me w) : Level cfg.procNum w.state :=
  ⟨hS.floor, hS.top, hS.full, hS.clock⟩

theorem Level.congr (hL : Level n s) (hdag : s'.dag = s.dag) (hround : s'.round = s.round)
    (htimer : s'.timer = s.timer) : Level n s' := by
  obtain ⟨hfloor, htop, hfull, hclock⟩ := hL
  refine ⟨?_, ?_, ?_, ?_⟩ <;> rw [hround]
  · rwa [hdag]
  · rwa [hdag]
  · rwa [hdag]
  · rwa [htimer]

theorem Level.of_empty (hdag : ∃ k, s.dag = RoundBasedDAG.default.setRoundSize k)
    (hround : s.round = 0) (htimer : s.timer = 0) : Level n s := by
  obtain ⟨k, hdag⟩ := hdag
  refine ⟨.inl (by rw [hdag]; rfl), .inl hround, fun r hf => ?_, fun _ => htimer⟩
  obtain ⟨vs, -, hq, hvs⟩ := hf
  have hpos := quorumSize_pos n
  obtain ⟨v, hv⟩ := List.exists_mem_of_length_pos (by omega : 0 < vs.length)
  have hhas := (hvs v hv).1
  rw [hdag] at hhas
  exact absurd ((causal_default k []).within hhas).2.1 (Nat.not_lt_zero _)

theorem Does.level {out : Option (Pid × VertexMessage)} (hd : Does cfg p s out w')
    (hL : Level cfg.procNum s) : Level cfg.procNum w'.state := by
  cases hd with
  | start hnew hround htimer => exact .of_empty ⟨_, hnew.dag⟩ hround htimer
  | idle hstill => exact hL.congr hstill.dag hstill.round hstill.timer
  | @timeout env w _ hcfg hme hG hstate h =>
    subst hcfg hme
    have hS : Steady env.cfg env.me w :=
      Level.steady (by rw [hstate]; exact hL.congr rfl rfl rfl) hG
    exact (hS.of_tryAdvanceRound h).level
  | @genesis env w _ v hcfg hme hG hstill hmem h0 h =>
    subst hcfg hme
    have hS := (hL.congr hstill.dag hstill.round hstill.timer).steady hG
    obtain ⟨w₁, hS₁, h⟩ := hS.onGenesis_eq hmem h0 h
    exact (hS₁.of_tryAdvanceRound h).level
  | @vertex env w _ v hcfg hme hG hstill hmem h0 h =>
    subst hcfg hme
    have hS := (hL.congr hstill.dag hstill.round hstill.timer).steady hG
    obtain ⟨w₁, w₂, w₃, -, -, -, -, hcreated, hsteady, hpass, htreat, hends⟩ :=
      onVertex_cases hG hmem h0 h
    have hmem₂ := hpass.moves.created (hcreated ▸ hmem)
    exact (hends.steady (htreat.steady hmem₂ h0 (hpass.steady (hsteady hS)))).level

theorem Level.of_reachable {c : System} (h : c.Reachable cfg) (p : Pid) :
    Level cfg.procNum (c.replicas p) := by
  refine h.invariant (I := fun c => ∀ p, Level cfg.procNum (c.replicas p))
    (fun p => .of_empty ⟨0, rfl⟩ rfl rfl) (fun c a c' hr _ hL hs p => ?_) p
  obtain ⟨q, w', ⟨hstate, hothers⟩, hd⟩ := (Invariant.of_reachable hr).does hs
  by_cases hp : p = q
  · subst hp
    rw [hstate]
    exact hd.level (hL p)
  · rw [hothers p hp]
    exact hL p

/-! ## Full rounds -/

theorem quorum_of_others {P : Vertex → Prop} (hn : 4 ≤ n) (hme : me < n)
    (h : ∀ p < n, p ≠ me → ∃ x, P x ∧ x.source = p) :
    ∃ vs : List Vertex, vs.Nodup ∧ quorumSize n ≤ vs.length ∧ ∀ x ∈ vs, P x := by
  have hex : ∃ x : Vertex, True := by
    by_cases h0 : me = 0
    · obtain ⟨x, -⟩ := h 1 (by omega) fun h1 => Nat.one_ne_zero (h1.trans h0)
      exact ⟨x, trivial⟩
    · obtain ⟨x, -⟩ := h 0 (by omega) (Ne.symm h0)
      exact ⟨x, trivial⟩
  have : Nonempty Vertex := ⟨hex.choose⟩
  choose! f hf using h
  have hothers : ∀ p ∈ (List.range n).erase me, p < n ∧ p ≠ me := fun p hp => by
    obtain ⟨hne, hp⟩ := List.nodup_range.mem_erase_iff.mp hp
    exact ⟨List.mem_range.mp hp, hne⟩
  have hsources : (((List.range n).erase me).map f).map Vertex.source =
      (List.range n).erase me := by
    rw [List.map_map]
    refine (List.map_congr_left fun p hp => ?_).trans (List.map_id _)
    exact (hf p (hothers p hp).1 (hothers p hp).2).2
  refine ⟨((List.range n).erase me).map f, .of_map Vertex.source ?_, ?_, fun x hx => ?_⟩
  · rw [hsources]
    exact List.nodup_range.erase me
  · rw [List.length_map, List.length_erase_of_mem (List.mem_range.mpr hme), List.length_range]
    unfold quorumSize adversaryThreshold
    omega
  · obtain ⟨p, hp, rfl⟩ := List.mem_map.mp hx
    exact (hf p (hothers p hp).1 (hothers p hp).2).1

theorem Good.complete_iff (hG : Good cfg me w) : Complete cfg.procNum w.state r ↔
    ∀ p < cfg.procNum, ∃ x, (w.state.dag.Has x ∧ x.round = r) ∧ x.source = p := by
  refine forall₂_congr fun p _ => ⟨fun ⟨x, hx⟩ => ?_, fun ⟨x, ⟨hx, hr⟩, hs⟩ => ?_⟩
  · have hat := vertexAt_eq_some.mpr hx
    obtain ⟨-, hr, hs⟩ := hG.sound.dag.stored _ _ _ hat
    exact ⟨x, ⟨hG.sound.dag.has hat, hr⟩, hs⟩
  · subst hr hs
    exact ⟨x, vertexAt_eq_some.mp hx⟩

theorem Steady.not_others (hS : Steady cfg me w) (hn : 4 ≤ cfg.procNum) (hr : w.state.round < r) :
    ¬ ∀ p < cfg.procNum, p ≠ me → ∃ x, (w.state.dag.Has x ∧ x.round = r) ∧ x.source = p :=
  fun h => Nat.not_le_of_lt hr (hS.full r (quorum_of_others hn hS.good.me_lt h))

theorem Enters.not_stuck (hS : Steady cfg me w) (hn : 4 ≤ cfg.procNum) (hm : Moves cfg me w w')
    (hP : Places (fun _ => False) bound w w') (hE : Enters me r w w') :
    ¬ Stuck cfg.procNum w'.state := by
  intro hstuck
  have hG' := hS.good.moves hm
  refine hS.not_others hn hE.later fun p hp hne => ?_
  obtain ⟨x, ⟨hhas, hr⟩, hs⟩ := hG'.complete_iff.mp hstuck.complete p hp
  have hmem := (hm.created_own (hG'.sound.dag.mem hhas)).resolve_right
    fun h => hne (hs.symm.trans h)
  exact ⟨x, ⟨(hP.has x hmem hhas).resolve_right id, hr.trans hE.entered⟩, hs⟩

theorem Steady.tryAdvanceRound_not_stuck (hS : Steady env.cfg env.me w)
    (hn : 4 ≤ env.cfg.procNum) (h : Bullshark.tryAdvanceRound env w = some w') :
    ¬ Stuck env.cfg.procNum w'.state := by
  have hm := tryAdvanceRound_moves hS.good h
  rcases tryAdvanceRound_cases hS.good h with ⟨hno, rfl⟩ | ⟨-, hP, hE⟩
  · refine fun hstuck => hno (quorum_of_others hn hS.good.me_lt fun p hp _ => ?_)
    exact hS.good.complete_iff.mp hstuck.complete p hp
  · exact hE.not_stuck hS hn hm hP

/-! ## The handler of a vertex -/

/-- What the replica holds once the vertex has been handled, and the round it is in. -/
structure Handled (env : Env) (v : Vertex) (w w' : Work) : Prop where
  moves : Moves env.cfg env.me w w'
  has : ∀ x ∈ w.shared.created, w'.state.dag.Has x → Arrives w.state v x
  held : ∀ x, Arrives w.state v x → w'.state.round ≤ x.round → w'.state.dag.Has x
  round : SameRound w w' ∨ Entered env (Arrives w.state v) w w'

theorem Entered.mono {w₀ w₁ : Work} {P Q : Vertex → Prop} (h : Entered env P w₁ w)
    (hround : w₁.state.round = w₀.state.round) (hPQ : ∀ x, P x → Q x) : Entered env Q w₀ w := by
  obtain ⟨vs, hnd, hq, hvs⟩ := h.quorum
  exact ⟨hround ▸ h.later, h.wait, h.own, vs, hnd, hq, fun x hx =>
    ⟨(hvs x hx).1, hPQ x (hvs x hx).2⟩⟩

theorem Steady.onVertex_handled (hS : Steady env.cfg env.me w) (hmem : v ∈ w.shared.created)
    (h0 : v.round ≠ 0) (h : Bullshark.onVertex env v w = some w') :
    ∃ w₃, Steady env.cfg env.me w₃ ∧ Handled env v w w₃ ∧ Ends env v w₃ w' := by
  have hG := hS.good
  obtain ⟨w₁, w₂, w₃, hm₁, hdag₁, hbuffer₁, hround₁, hcreated₁, hsteady₁, hpass, htreat, hends⟩ :=
    onVertex_cases hG hmem h0 h
  have hG₁ := hG.moves hm₁
  have hG₂ := hG₁.moves hpass.moves
  have hmem₂ : v ∈ w₂.shared.created := hpass.moves.created (hcreated₁ ▸ hmem)
  have hm₃ := htreat.moves hmem₂ h0
  have hS₂ := hpass.steady (hsteady₁ hS)
  have hS₃ := htreat.steady hmem₂ h0 hS₂
  have hplaceable : ∀ x, Placeable w₁.state x → Placeable w.state x := fun x hx =>
    hx.congr hdag₁.symm hbuffer₁.symm
  have hkept : ∀ x, Placeable w.state x → Kept w₂.state x := fun x hx =>
    hpass.kept x (hx.congr hdag₁ hbuffer₁)
  have hhas₂ : ∀ x ∈ w.shared.created, w₂.state.dag.Has x → Placeable w.state x := fun x hx hhas =>
    hplaceable x (hpass.has x (hcreated₁.symm ▸ hx) hhas)
  have hgrow : w.state.dag.gcOffset ≤ w₂.state.dag.gcOffset := by
    have := (Moves.grows hG₁ hpass.moves).1
    rwa [hdag₁] at this
  have hround₂ : SameRound w w₂ ∨ Entered env (Arrives w.state v) w w₂ :=
    hpass.round.imp hround₁.trans fun hE => hE.mono hround₁.1 fun x hx => .inl (hplaceable x hx)
  have hedge := hG.vertices.edge v hmem
  refine ⟨w₃, hS₃, ?_, hends⟩
  have hheld : ∀ x, Placeable w.state x → w₃.state.round ≤ x.round → w₃.state.dag.Has x := by
    intro x hx hle
    refine (hm₃.kept hG₂ (hkept x hx)).resolve_right fun hlt => ?_
    have := hS₃.floor
    omega
  have hedges : w₂.state.dag.gcOffset < v.round → (∀ e ∈ v.strongEdges, Placeable w.state e) →
      ∀ e ∈ v.strongEdges, w₂.state.dag.Has e := by
    intro hlt hall e he
    refine (hkept e (hall e he)).resolve_right fun hlow => ?_
    have := (hedge e he).2
    omega
  refine ⟨(hm₁.trans hpass.moves).trans hm₃, fun x hx hhas => ?_, fun x hx hle => ?_, ?_⟩
  · cases htreat with
    | discarded => exact .inl (hhas₂ x hx hhas)
    | held => exact .inl (hhas₂ x hx hhas)
    | placed hlt hall hplaced _ =>
      have hx₂ := hpass.moves.created (hcreated₁.symm ▸ hx)
      rcases hplaced.places.has x hx₂ hhas with hhas | rfl
      · exact .inl (hhas₂ x hx hhas)
      · exact .inr ⟨rfl, hgrow.trans_lt hlt, fun e he => hhas₂ e (hedge e he).1 (hall e he)⟩
  · rcases hx with hx | ⟨rfl, hlt, hall⟩
    · exact hheld x hx hle
    · cases htreat with
      | discarded hlow =>
        have := hS₂.floor
        have hle : w₂.state.round ≤ x.round := hle
        omega
      | placed _ _ hplaced _ => exact hplaced.has
      | held hlt hno => exact absurd (hedges hlt hall) hno
  · cases htreat with
    | discarded => exact SameRound.entered hG₂ hm₃ ⟨rfl, rfl⟩ hround₂
    | held => exact SameRound.entered hG₂ hm₃ ⟨rfl, rfl⟩ hround₂
    | placed hlt hall hplaced _ =>
      refine hplaced.entered hG (hm₁.trans hpass.moves) (.inr ⟨rfl, hgrow.trans_lt hlt, ?_⟩)
        (fun x hx hhas => .inl (hhas₂ x hx hhas)) hround₂
      exact fun e he => hhas₂ e (hedge e he).1 (hall e he)

theorem Moves.created_later (h : Moves cfg me w w') : w.state.round ≤ w'.state.round ∧
    ∀ x ∈ w'.shared.created, x ∈ w.shared.created ∨ x.source = me ∧ w.state.round < x.round := by
  induction h with
  | refl => exact ⟨Nat.le_refl _, fun x hx => .inl hx⟩
  | tail _ hm ih =>
    obtain ⟨hle, hcreated⟩ := ih
    cases hm with
    | advance hlt _ _ hsource =>
      refine ⟨hle.trans hlt.le, fun x hx => ?_⟩
      rcases List.mem_cons.mp hx with rfl | hx
      · exact .inr ⟨hsource, hle.trans_lt hlt⟩
      · exact hcreated x hx
    | _ => exact ⟨hle, hcreated⟩

theorem mayAdvance_eq (hwait : s.wait = true) (heven : s.round % 2 = 0) :
    s.mayAdvance = (s.getAnchor s.round).map Option.isSome := by
  unfold mayAdvance
  rw [hwait, Bool.not_true, if_neg Bool.false_ne_true, if_pos (by omega)]
  cases s.getAnchor s.round <;> rfl

theorem Good.anchor_iff (hG : Good cfg me w) (hall : Complete cfg.procNum w.state r) :
    (∃ anchor, w.state.getAnchor r = some (some anchor)) ↔ r % cfg.procNum ≠ cfg.procNum - 1 := by
  have hpos : 0 < cfg.procNum := Nat.zero_lt_of_lt hG.me_lt
  have hmod := Nat.mod_lt r hpos
  unfold getAnchor
  rw [getLeaderId_eq hG.sound.procNum]
  unfold leader
  constructor
  · rintro ⟨anchor, hanchor⟩ heq
    obtain ⟨hmem, -, hs⟩ := hG.sound.dag.stored _ _ _ (vertexAt_eq_some.mpr hanchor)
    have hlt : r % cfg.procNum + 1 < cfg.procNum := hs ▸ hG.vertices.source_lt anchor hmem
    omega
  · exact fun hne => hall _ (by omega)

section Handled

variable {w₃ : Work} (hS₃ : Steady env.cfg env.me w₃) (hH : Handled env v w w₃)

include hS₃ hH

theorem Handled.none_later (hr : w₃.state.round < r) : ¬ ∃ vs : List Vertex, vs.Nodup ∧
    quorumSize env.cfg.procNum ≤ vs.length ∧ ∀ x ∈ vs, x.round = r ∧ Arrives w.state v x := by
  rintro ⟨vs, hnd, hq, hvs⟩
  refine Nat.not_le_of_lt hr (hS₃.full r ⟨vs, hnd, hq, fun x hx => ?_⟩)
  obtain ⟨hxr, hx⟩ := hvs x hx
  exact ⟨hH.held x hx (by omega), hxr⟩

theorem Handled.strands (hn : 4 ≤ env.cfg.procNum) (hends : Ends env v w₃ w')
    (hstuck : Stuck env.cfg.procNum w'.state) : Strands env.cfg.procNum env.me w.state v := by
  have hG₃ := hS₃.good
  have hlater : w.state.round ≤ w₃.state.round :=
    hH.round.elim (fun hR => hR.1.ge) fun hE => hE.later.le
  rcases hends.round with ⟨hR, hdag, hcheck⟩ | ⟨hE, -, -⟩
  swap
  · exact absurd hstuck (hE.not_stuck hS₃ hn hends.moves hends.places)
  obtain ⟨hwait, heven, htwo, hall⟩ := hstuck
  rw [hR.1] at heven htwo hall
  have hall₃ : Complete env.cfg.procNum w₃.state w₃.state.round := by
    unfold Complete at hall ⊢
    rwa [hdag] at hall
  have hothers := hG₃.complete_iff.mp hall₃
  refine ⟨w₃.state.round, heven, htwo, hlater, fun heq => ?_, fun p hp hne => ?_,
    fun r => hH.none_later hS₃, ?_⟩
  · rcases hH.round with hR' | hE
    · exact hR'.2.symm.trans (hR.2.symm.trans hwait)
    · exact absurd hE.later (by omega)
  · obtain ⟨x, ⟨hhas, hxr⟩, hs⟩ := hothers p hp
    refine ⟨x, ?_, hxr, hs⟩
    refine hH.has x ((hH.moves.created_later.2 x (hG₃.sound.dag.mem hhas)).resolve_right
      fun hnew => ?_) hhas
    rcases hne with hne | heq
    · exact hne (hs.symm.trans hnew.1)
    · omega
  · by_contra hno
    rw [not_or, not_not] at hno
    obtain ⟨heq, hleader⟩ := hno
    obtain ⟨anchor, hanchor⟩ := (hG₃.anchor_iff hall₃).mpr hleader
    refine hcheck heq ?_ (quorum_of_others hn hG₃.me_lt fun p hp _ => hothers p hp)
    rw [mayAdvance_eq (hR.2.symm.trans hwait) heven, hanchor]
    rfl

/-- The round in which a vertex strands the replica: a later one would have a quorum, and
with the others of this one the replica has caught up. -/
theorem Handled.round_eq (hn : 4 ≤ env.cfg.procNum) (hle : w.state.round ≤ r)
    (hothers : ∀ p < env.cfg.procNum, p ≠ env.me →
      ∃ x, Arrives w.state v x ∧ x.round = r ∧ x.source = p)
    (hnone : ∀ r', r < r' → ¬ ∃ vs : List Vertex, vs.Nodup ∧
      quorumSize env.cfg.procNum ≤ vs.length ∧ ∀ x ∈ vs, x.round = r' ∧ Arrives w.state v x) :
    w₃.state.round = r := by
  refine Nat.le_antisymm (Nat.le_of_not_lt fun hlt => ?_) (Nat.le_of_not_lt fun hlt => ?_)
  · rcases hH.round with hR | hE
    · have := hR.1
      omega
    · exact hnone _ hlt hE.quorum
  · refine hH.none_later hS₃ hlt (quorum_of_others hn hS₃.good.me_lt fun p hp hne => ?_)
    obtain ⟨x, hx, hxr, hs⟩ := hothers p hp hne
    exact ⟨x, ⟨hxr, hx⟩, hs⟩

theorem Handled.complete (hothers : ∀ p < env.cfg.procNum,
      p ≠ env.me ∨ w₃.state.round = w.state.round →
        ∃ x, Arrives w.state v x ∧ x.round = w₃.state.round ∧ x.source = p) :
    Complete env.cfg.procNum w₃.state w₃.state.round := by
  refine hS₃.good.complete_iff.mpr fun p hp => ?_
  by_cases hold : p ≠ env.me ∨ w₃.state.round = w.state.round
  · obtain ⟨x, hx, hxr, hs⟩ := hothers p hp hold
    exact ⟨x, ⟨hH.held x hx hxr.ge, hxr⟩, hs⟩
  · rw [not_or, not_not] at hold
    obtain ⟨own, hs, hr, hkept⟩ := (hH.round.resolve_left fun hR => hold.2 hR.1).own
    refine ⟨own, ⟨hkept.resolve_right fun hlow => ?_, hr⟩, hs.trans hold.1.symm⟩
    have := hS₃.floor
    omega

theorem Handled.stuck (hn : 4 ≤ env.cfg.procNum) (hends : Ends env v w₃ w')
    (hstrands : Strands env.cfg.procNum env.me w.state v) : Stuck env.cfg.procNum w'.state := by
  obtain ⟨r, heven, htwo, hle, hwait, hothers, hnone, hcheck⟩ := hstrands
  obtain rfl : w₃.state.round = r :=
    hH.round_eq hS₃ hn hle (fun p hp hne => hothers p hp (.inl hne)) hnone
  have hwait₃ : w₃.state.wait = true :=
    hH.round.elim (fun hR => hR.2.trans (hwait hR.1)) fun hE => hE.wait
  rcases hends.round with ⟨hR, hdag, -⟩ | ⟨-, hv, hmay⟩
  · refine ⟨hR.2.trans hwait₃, hR.1.symm ▸ heven, hR.1.symm ▸ htwo, ?_⟩
    have hall₃ := hH.complete hS₃ hothers
    unfold Complete at hall₃ ⊢
    rwa [hR.1, hdag]
  · rw [mayAdvance_eq hwait₃ heven] at hmay
    obtain ⟨o, ho, hsome⟩ := Option.map_eq_some_iff.mp hmay
    obtain ⟨anchor, rfl⟩ := Option.isSome_iff_exists.mp hsome
    have hleader := (hS₃.good.anchor_iff (hH.complete hS₃ hothers)).mp ⟨anchor, ho⟩
    exact absurd (hcheck.resolve_right hleader) (not_not.mpr hv)

end Handled

/-- **After the handler of a vertex**. -/
theorem Steady.onVertex_stuck_iff (hS : Steady env.cfg env.me w) (hmem : v ∈ w.shared.created)
    (h0 : v.round ≠ 0) (hn : 4 ≤ env.cfg.procNum) (h : Bullshark.onVertex env v w = some w') :
    Stuck env.cfg.procNum w'.state ↔ Strands env.cfg.procNum env.me w.state v := by
  obtain ⟨w₃, hS₃, hH, hends⟩ := hS.onVertex_handled hmem h0 h
  exact ⟨hH.strands hS₃ hn hends, hH.stuck hS₃ hn hends⟩

theorem strands_congr (hdag : s'.dag = s.dag) (hbuffer : s'.buffer = s.buffer)
    (hround : s'.round = s.round) (hwait : s'.wait = s.wait) :
    Strands n me s' v ↔ Strands n me s v := by
  have hplaceable : ∀ x, Placeable s' x ↔ Placeable s x := fun x =>
    ⟨fun hx => hx.congr hdag.symm hbuffer.symm, fun hx => hx.congr hdag hbuffer⟩
  unfold Strands Arrives
  simp only [hplaceable, hdag, hround, hwait]

/-- **A vertex that is handed out** leaves the replica stuck if and only if it strands it. -/
theorem Does.vertex_stuck_iff {q : Pid} (hn : 4 ≤ cfg.procNum)
    (hd : Does cfg p s (some (q, .vertex v)) w') (hL : Level cfg.procNum s) :
    Stuck cfg.procNum w'.state ↔ Strands cfg.procNum p s v := by
  cases hd with
  | @vertex env w _ _ hcfg hme hG hstill hmem h0 h =>
    subst hcfg hme
    have hS := (hL.congr hstill.dag hstill.round hstill.timer).steady hG
    rw [hS.onVertex_stuck_iff hmem h0 hn h]
    exact strands_congr hstill.dag hstill.buffer hstill.round hstill.wait

/-- **No step leaves a replica stuck**, unless it hands out a vertex that strands it. -/
theorem Does.not_stuck {out : Option (Pid × VertexMessage)} (hn : 4 ≤ cfg.procNum)
    (hd : Does cfg p s out w') (hL : Level cfg.procNum s) (hs : ¬ Stuck cfg.procNum s)
    (hout : ∀ v, out = some (p, .vertex v) → ¬ Strands cfg.procNum p s v) :
    ¬ Stuck cfg.procNum w'.state := by
  cases hd with
  | start _ hround _ =>
    intro hstuck
    have := hstuck.later
    omega
  | idle hstill =>
    refine fun hstuck => hs ⟨hstill.wait ▸ hstuck.wait, hstill.round ▸ hstuck.even,
      hstill.round ▸ hstuck.later, ?_⟩
    have hall := hstuck.complete
    unfold Complete at hall ⊢
    rwa [hstill.dag, hstill.round] at hall
  | @timeout env w _ hcfg hme hG hstate h =>
    subst hcfg hme
    have hS : Steady env.cfg env.me w :=
      Level.steady (by rw [hstate]; exact hL.congr rfl rfl rfl) hG
    exact hS.tryAdvanceRound_not_stuck hn h
  | @genesis env w _ v hcfg hme hG hstill hmem h0 h =>
    subst hcfg hme
    have hS := (hL.congr hstill.dag hstill.round hstill.timer).steady hG
    obtain ⟨w₁, hS₁, h⟩ := hS.onGenesis_eq hmem h0 h
    exact hS₁.tryAdvanceRound_not_stuck hn h
  | vertex hcfg hme hG hstill hmem h0 h =>
    rw [Does.vertex_stuck_iff hn (.vertex hcfg hme hG hstill hmem h0 h) hL]
    exact hout _ rfl

end

/-- What the action makes the consistent broadcast hand out strands nobody. -/
def StrandsNone (cfg : Config) (c : System) (a : Action) : Prop :=
  ∀ p v, c.handsOut cfg a = some (p, .vertex v) → ¬ Strands cfg.procNum p (c.replicas p) v

/-- **No replica waits in a full round** in a run in which no vertex that is handed out
strands its replica; a vertex that does leaves it waiting; and a full round has an anchor
unless its leader would be replica `n`. -/
theorem full_round_goes_on (cfg : Config) (hn : 4 ≤ cfg.procNum) :
    (∀ c, Transition.Reachable (System.step cfg) System.init (StrandsNone cfg) c →
      ∀ p, ¬ Stuck cfg.procNum (c.replicas p)) ∧
    ∀ c : System, c.Reachable cfg →
      (∀ a c' p v, System.step cfg c a = some c' → c.handsOut cfg a = some (p, .vertex v) →
        (¬ Stuck cfg.procNum (c'.replicas p) ↔ ¬ Strands cfg.procNum p (c.replicas p) v)) ∧
      ∀ p r, Complete cfg.procNum (c.replicas p) r →
        ((∃ anchor, (c.replicas p).getAnchor r = some (some anchor)) ↔
          r % cfg.procNum ≠ cfg.procNum - 1) := by
  refine ⟨fun c h => ?_, fun c hr => ⟨fun a c' p v hs hout => ?_, fun p r hall => ?_⟩⟩
  · refine h.invariant (I := fun c => ∀ p, ¬ Stuck cfg.procNum (c.replicas p))
      (fun p hstuck => absurd hstuck.later (Nat.not_succ_le_zero 1)) fun c a c' hr ha ih hs p => ?_
    have hr : c.Reachable cfg := hr.weaken fun _ _ _ => trivial
    obtain ⟨q, w', ⟨hstate, hothers⟩, hd⟩ := (Invariant.of_reachable hr).does hs
    by_cases hp : p = q
    · subst hp
      rw [hstate]
      exact hd.not_stuck hn (Level.of_reachable hr p) (ih p) fun v => ha p v
    · rw [hothers p hp]
      exact ih p
  · obtain ⟨q, w', ⟨hstate, -⟩, hd⟩ := (Invariant.of_reachable hr).does hs
    obtain rfl := hd.out_eq hout
    rw [hout] at hd
    rw [hstate, hd.vertex_stuck_iff hn (Level.of_reachable hr q)]
  · have hI := Invariant.of_reachable hr
    have hp : p ∈ c.started := by
      by_contra hp
      obtain ⟨v, hv⟩ := hall 0 (by omega)
      rw [hI.idle p hp] at hv
      exact absurd ((causal_default 0 []).stored _ _ _ (vertexAt_eq_some.mpr hv)).1
        List.not_mem_nil
    exact (hI.good hp).anchor_iff hall

theorem RoundBasedDAG.lt_of_vertexAt {d : RoundBasedDAG} {r : ℕ} {p : Pid} {v : Vertex}
    (h : d.vertexAt r p = some v) : r < d.currentAllocatedRounds := by
  have hle := le_of_vertexAt h
  have hslot := vertexAt_eq_some.mp h
  rw [slot_of_le hle] at hslot
  obtain ⟨row, hrow, -⟩ := Option.bind_eq_some_iff.mp hslot
  obtain ⟨hlt, -⟩ := List.getElem?_eq_some_iff.mp hrow
  unfold currentAllocatedRounds
  omega

/-- A check that is enough for `StrandsNone` with four replicas: the buffer is empty, and no
other row from the round of the replica on is filled by the others. -/
def unfilled (cfg : Config) (c : System) (a : Action) : Bool :=
  (c.handsOut cfg a).all fun out =>
    let s := c.replicas out.1
    s.buffer.isEmpty && (List.range s.dag.currentAllocatedRounds).all fun r =>
      decide (r < s.round) || r == out.2.content.round ||
        (List.range 4).any fun q => q != out.1 && (s.dag.vertexAt r q).isNone

theorem strandsNone_of_unfilled {submitLimit : ℕ} {c : System} {a : Action}
    (h : unfilled ⟨4, submitLimit⟩ c a = true) : StrandsNone ⟨4, submitLimit⟩ c a := by
  rintro p v hout ⟨r, heven, -, hle, -, hothers, -, hor⟩
  have hr : r ≠ v.round := hor.resolve_right fun hmod : r % 4 = 4 - 1 => by omega
  unfold unfilled at h
  rw [hout, Option.all_some, Bool.and_eq_true, List.isEmpty_iff] at h
  obtain ⟨hbuffer, hrows⟩ := h
  have hhas : ∀ x, Arrives (c.replicas p) v x → x.round = r → (c.replicas p).dag.Has x := by
    rintro x (hx | ⟨rfl, -⟩) hxr
    · cases hx with
      | held hx => exact hx
      | buffered hx =>
        rw [hbuffer] at hx
        cases hx
    · exact absurd hxr.symm hr
  have hother : ∀ q < 4, q ≠ p → ((c.replicas p).dag.vertexAt r q).isNone = false := by
    intro q hq hne
    obtain ⟨x, hx, hxr, hs⟩ := hothers q hq (.inl hne)
    have hat := hhas x hx hxr
    unfold Has at hat
    rw [hxr, hs] at hat
    rw [hat]
    rfl
  have halloc : r < (c.replicas p).dag.currentAllocatedRounds := by
    obtain ⟨q, hq, hne⟩ : ∃ q < 4, q ≠ p := by
      by_cases h0 : p = 0
      · exact ⟨1, by decide, fun h1 => Nat.one_ne_zero (h1.trans h0)⟩
      · exact ⟨0, by decide, Ne.symm h0⟩
    obtain ⟨x, hx⟩ := Option.isSome_iff_exists.mp (Option.isNone_eq_false_iff.mp (hother q hq hne))
    exact lt_of_vertexAt hx
  have hrow := List.all_eq_true.mp hrows r (List.mem_range.mpr halloc)
  rw [Bool.or_eq_true, Bool.or_eq_true, decide_eq_true_eq, beq_iff_eq, List.any_eq_true] at hrow
  rcases hrow with (hlt | heq) | ⟨q, hq, hnone⟩
  · exact absurd hle (Nat.not_le_of_lt hlt)
  · exact hr heq
  · rw [Bool.and_eq_true, bne_iff_ne, hother q (List.mem_range.mp hq) hnone.1] at hnone
    exact Bool.false_ne_true hnone.2

theorem full_round_goes_on_four : ∃ c : System, 3 ≤ (c.replicas 1).round ∧
    Complete 4 (c.replicas 1) 2 ∧ ∀ p, ¬ Stuck 4 (c.replicas p) := by
  let cfg : Config := ⟨4, 0⟩
  have hrun : (run cfg ([.start cfg, (Phase.deliver (fun _ => true) 400).until fun c =>
      decide (3 ≤ (c.replicas 1).round ∧ Complete 4 (c.replicas 1) 2)].map
        (Phase.filter (unfilled cfg))) System.init).any (fun c =>
      decide (3 ≤ (c.replicas 1).round ∧ Complete 4 (c.replicas 1) 2)) = true := by
    decide +kernel
  obtain ⟨c, hc, hd⟩ := (Option.any_eq_true _ _).mp hrun
  obtain ⟨hround, hall⟩ := of_decide_eq_true hd
  exact ⟨c, hround, hall, (full_round_goes_on cfg (Nat.le_refl 4)).1 c
    (reachable_filter (fun _ _ => strandsNone_of_unfilled) hc)⟩

/-- **Two replicas that wait in a full round.** With five replicas round 4 has no leader. With
four, the round of a replica is filled from the buffer while a vertex of round 3 is handled,
and the replica goes on waiting although it holds the anchor. -/
theorem waiting_in_full_round :
    (∃ c c' : System, c.Reachable ⟨5, 0⟩ ∧ ∃ index p v,
      System.step ⟨5, 0⟩ c (.deliver index inOrder) = some c' ∧
      c.handsOut ⟨5, 0⟩ (.deliver index inOrder) = some (p, .vertex v) ∧
      Stuck 5 (c'.replicas p)) ∧
    ∃ c c' : System, c.Reachable ⟨4, 0⟩ ∧ ∃ index p v,
      System.step ⟨4, 0⟩ c (.deliver index inOrder) = some c' ∧
      c.handsOut ⟨4, 0⟩ (.deliver index inOrder) = some (p, .vertex v) ∧
      Stuck 4 (c'.replicas p) ∧
      ((c'.replicas p).getAnchor (c'.replicas p).round).join.isSome = true := by
  let late : Packet VertexMessage → Bool := fun x => x.dst == 1 && x.msg.id == ⟨3, 4⟩
  have hleader : handing ⟨5, 0⟩ [.start ⟨5, 0⟩, .deliver (fun _ => true) 366] (fun _ => true)
      (fun p _ c' => decide (Stuck 5 (c'.replicas p))) = true := by
    decide +kernel
  have hbuffer : handing ⟨4, 0⟩ [.start ⟨4, 0⟩,
      (Phase.deliver (fun x => !late x) 400).until fun c => 3 ≤ (c.replicas 1).buffer.length,
      .deliver late 2, .deliver (fun x => x.msg.id == ⟨2, 12⟩) 10] (fun x => x.msg.id == ⟨2, 12⟩)
      (fun p _ c' => decide (Stuck 4 (c'.replicas p)) &&
        ((c'.replicas p).getAnchor (c'.replicas p).round).join.isSome) = true := by
    decide +kernel
  refine ⟨?_, ?_⟩
  · obtain ⟨c, c', hc, index, p, v, hs, hout, hd⟩ := of_handing hleader
    exact ⟨c, c', hc, index, p, v, hs, hout, of_decide_eq_true hd⟩
  · obtain ⟨c, c', hc, index, p, v, hs, hout, hd⟩ := of_handing hbuffer
    rw [Bool.and_eq_true] at hd
    exact ⟨c, c', hc, index, p, v, hs, hout, of_decide_eq_true hd.1, hd.2⟩

end Blsmr.Bullshark
