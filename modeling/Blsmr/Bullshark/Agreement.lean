import Blsmr.Bullshark.Commands
import Blsmr.Bullshark.Logs

/-!
# Total order

The anchors of two replicas are the same as far as both have come, but for the anchor of
round 0: the walk of `order_anchors` ends above it, so it is ordered by the replicas only
that commit it directly. The history of an anchor is ordered down to the bound that the
replica had at that moment, which is the round of the last anchor it committed directly.
`Uniform` says that neither makes a difference, and the outputs agree if and only if
it holds (`total_order_iff`).
-/

namespace Blsmr.Bullshark

open Blsmr.Transition Blsmr.Graph Bfs RoundBasedDAG

/-- One of the lists goes on where the other ends. -/
def Comparable (out out' : List Vertex) : Prop := out <+: out' ∨ out' <+: out

/-- **Nothing is lost between two logs.** An anchor of round 0 in one of them is in the
other one too, unless that is empty, and what a common anchor reaches between the two
offsets has been reached before, if the other log goes on after it. -/
structure Uniform (log log' : List (Vertex × ℕ)) : Prop where
  ground : ∀ x ∈ log, x.1.round = 0 → log' ≠ [] → ∃ offset, (x.1, offset) ∈ log'
  covered : ∀ anchor offset offset', (anchor, offset) ∈ log → (anchor, offset') ∈ log' →
    (∃ y ∈ log', anchor.round < y.1.round) → Covered log anchor offset offset'

/-! ## The anchors above round 0 -/

/-- The anchors above round 0 down to which an anchor has been walked back. -/
inductive Spine (n : ℕ) : Vertex → List Vertex → Prop
  | ground {last : Vertex} (h0 : last.round = 0) : Spine n last []
  | walked {last : Vertex} {pushed : List Vertex} (h0 : 0 < last.round)
      (hw : Backward n 0 (last.round - 2) last pushed) : Spine n last (pushed ++ [last])

section Spine

variable {n : ℕ} {created ps qs : List Vertex} {a last last' v : Vertex}

theorem Spine.pos (h : Spine n last ps) (hv : v ∈ ps) : 0 < v.round := by
  cases h with
  | ground => cases hv
  | walked h0 hw =>
    rcases List.mem_append.mp hv with hv | hv
    · exact (hw.mem hv).1
    · exact List.mem_singleton.mp hv ▸ h0

theorem Spine.next (hV : Vertices n created) (hU : Unmissed n created last)
    (h : Spine n last ps) (ha : a ∈ created) (heven : a.round % 2 = 0)
    (hlt : last.round < a.round) (hw : Backward n last.round (a.round - 2) a qs) :
    Spine n a (ps ++ qs ++ [a]) := by
  have hpar := hU.even
  cases h with
  | ground h0 => exact .walked (by omega) (h0 ▸ hw)
  | walked h0 hw' =>
    have := hw.extend hV hU h0 hw' ha (by omega) (by omega) (by omega)
    rw [List.append_assoc _ [last], List.singleton_append]
    exact .walked (by omega) this

/-- **The anchors of the later walk begin with those of the earlier one.** -/
theorem Spine.isPrefix (hV : Vertices n created) (hU : Unmissed n created last)
    (hU' : Unmissed n created last') (hle : last.round ≤ last'.round) (h : Spine n last ps)
    (h' : Spine n last' qs) : ps <+: qs := by
  have hpar := hU.even
  have hpar' := hU'.even
  cases h with
  | ground => exact List.nil_prefix
  | walked h0 hw =>
    cases h' with
    | ground => omega
    | walked h0' hw' =>
      by_cases heq : last.round = last'.round
      · have hll : last = last' := hV.key_inj last' hU'.mem last hU.mem heq
          (hU.source.trans (heq ▸ hU'.source.symm))
        subst hll
        rw [hw.unique hV hU.mem hw']
      · obtain ⟨ps₁, ps₂, rfl, hw₁⟩ := hw'.split hV hU h0 hU'.mem (by omega) (by omega)
          (by omega)
        rw [hw.unique hV hU.mem hw₁]
        exact ⟨ps₂ ++ [last'], by simp only [List.append_assoc, List.cons_append,
          List.nil_append]⟩

end Spine

/-! ## The log of a replica -/

/-- An anchor that has been committed directly, and with it the log. -/
structure Trunk (n : ℕ) (created : List Vertex) (last : Vertex) (anchors : List Vertex) :
    Prop where
  support : ∃ b, Supported n created last b
  even : last.round % 2 = 0
  source : last.source = leader n last.round
  mem : last ∈ anchors
  spine : ∃ ground ps, anchors = ground ++ ps ∧ (∀ v ∈ ground, v.round = 0) ∧ Spine n last ps

structure Logged (n : ℕ) (created : List Vertex) (s : Bullshark) : Prop where
  rising : Rising created s.history.anchors
  bound : ∀ x ∈ s.history.anchors, x.1.round ≤ s.dag.gcOffset ∧ x.2 ≤ s.dag.gcOffset
  trunk : s.history.anchors = [] ∧ s.dag.gcOffset = 0 ∨
    ∃ last, last.round = s.dag.gcOffset ∧ Trunk n created last (s.history.anchors.map Prod.fst)

section

variable {n f : ℕ} {created created' : List Vertex} {s : Bullshark} {a b last last' : Vertex}
  {anchors anchors' : List Vertex}

theorem Supported.mono (h : created ⊆ created') (hS : Supported n created a b) :
    Supported n created' a b :=
  ⟨h hS.anchor_mem, h hS.vertex_mem, hS.round, hS.enough⟩

theorem Logged.mono (h : created ⊆ created') (hL : Logged n created s) : Logged n created' s where
  rising := ⟨fun x hx => h (hL.rising.mem x hx), hL.rising.le, hL.rising.pairwise⟩
  bound := hL.bound
  trunk := hL.trunk.imp_right fun ⟨last, hround, hT⟩ =>
    ⟨last, hround, hT.support.imp fun _ hS => hS.mono h, hT.even, hT.source, hT.mem, hT.spine⟩

theorem Trunk.unmissed (hn : n = 3 * f + 1) (hV : Vertices n created)
    (hT : Trunk n created last anchors) : Unmissed n created last :=
  hT.support.elim fun _ hS => hS.unmissed hn hV hT.even hT.source

theorem Trunk.lt_of_fresh (hV : Vertices n created) (hR : Ready n created s)
    (hL : Logged n created s) (hT : Trunk n created last (s.history.anchors.map Prod.fst))
    (hround : last.round = s.dag.gcOffset) (ha : a ∈ created)
    (hsource : a.source = leader n a.round)
    (hle : s.dag.gcOffset ≤ a.round) (hfresh : ¬ ∃ v ∈ s.history.output, v.key = a.key) :
    last.round < a.round := by
  refine Nat.lt_of_le_of_ne (hround ▸ hle) fun heq => hfresh ?_
  have hll : last = a := hV.key_inj a ha last
    (hT.support.elim fun _ hS => hS.anchor_mem) heq (hT.source.trans (heq ▸ hsource.symm))
  subst hll
  obtain ⟨x, hx, rfl⟩ := List.mem_map.mp hT.mem
  exact ⟨x.1, (hR.replay.contains hV hL.rising).1 x hx x.1 (.refl _ _) (hL.rising.le x hx), rfl⟩

/-- **The log with one more direct commit.** -/
theorem Logged.order (hn : n = 3 * f + 1) (hV : Vertices n created) (hR : Ready n created s)
    (hL : Logged n created s) (hS : Supported n created a b)
    (hsource : a.source = leader n a.round) (heven : a.round % 2 = 0)
    (hle : s.dag.gcOffset ≤ a.round) (hfresh : ¬ ∃ v ∈ s.history.output, v.key = a.key)
    {pushed : List Vertex} (hw : Backward n s.lastOrderedRound (a.round - 2) a pushed)
    {s' : Bullshark} (hoffset : s'.dag.gcOffset = a.round)
    (hanchors : s'.history.anchors =
      s.history.anchors ++ (pushed ++ [a]).map fun v => (v, s.dag.gcOffset)) :
    Logged n created s' := by
  rw [hR.offset] at hw
  have hmem : ∀ v ∈ pushed ++ [a], v ∈ created ∧ s.dag.gcOffset ≤ v.round ∧
      v.round ≤ a.round := fun v hv => by
    rcases List.mem_append.mp hv with hv | hv
    · obtain ⟨hlt, hle', -, hreach⟩ := hw.mem hv
      exact ⟨(hV.reaches_mem hS.anchor_mem hreach).1, hlt.le, by omega⟩
    · cases List.mem_singleton.mp hv
      exact ⟨hS.anchor_mem, hle, Nat.le_refl _⟩
  have hlast : ∀ last, last.round = s.dag.gcOffset →
      Trunk n created last (s.history.anchors.map Prod.fst) → last.round < a.round :=
    fun _ hround hT => hT.lt_of_fresh hV hR hL hround hS.anchor_mem hsource hle hfresh
  have hold : ∀ x ∈ s.history.anchors, x.1.round < a.round := fun x hx => by
    rcases hL.trunk with ⟨hnil, -⟩ | ⟨last, hround, hT⟩
    · rw [hnil] at hx
      cases hx
    · exact ((hL.bound x hx).1.trans hround.ge).trans_lt (hlast last hround hT)
  have hmap : s'.history.anchors.map Prod.fst =
      s.history.anchors.map Prod.fst ++ (pushed ++ [a]) := by
    rw [hanchors, List.map_append, List.map_map]
    exact congrArg _ (List.map_id _)
  refine ⟨?_, ?_, .inr ⟨a, hoffset.symm, ⟨b, hS⟩, heven, hsource, ?_, ?_⟩⟩
  · rw [hanchors]
    refine hL.rising.extend (fun v hv => ⟨(hmem v hv).1, (hmem v hv).2.1⟩) hw.increasing_snoc
      fun x hx => ⟨(hL.bound x hx).2, fun v hv => ?_⟩
    rcases List.mem_append.mp hv with hv | hv
    · exact (hL.bound x hx).1.trans_lt (hw.mem hv).1
    · exact List.mem_singleton.mp hv ▸ hold x hx
  · rw [hanchors, hoffset]
    refine List.forall_mem_append.mpr ⟨fun x hx => ?_, List.forall_mem_map.mpr fun v hv => ?_⟩
    · obtain ⟨h₁, h₂⟩ := hL.bound x hx
      exact ⟨h₁.trans hle, h₂.trans hle⟩
    · exact ⟨(hmem v hv).2.2, hle⟩
  · rw [hmap]
    exact List.mem_append_right _ (List.mem_append_right _ (List.mem_singleton_self a))
  · rcases hL.trunk with ⟨hnil, h0⟩ | ⟨last, hround, hT⟩
    · rw [hmap, hnil]
      rcases Nat.eq_zero_or_pos a.round with ha | ha
      · have hp := hw.nil_of_le (by omega)
        exact ⟨[a], [], by rw [hp]; rfl, List.forall_mem_singleton.mpr ha, .ground ha⟩
      · exact ⟨[], pushed ++ [a], rfl, List.forall_mem_nil _,
          .walked ha (h0 ▸ hw)⟩
    · obtain ⟨ground, ps, heq, hground, hspine⟩ := hT.spine
      have := hspine.next hV (hT.unmissed hn hV) hS.anchor_mem heven (hlast last hround hT)
        (hround ▸ hw)
      exact ⟨ground, _, by rw [hmap, heq]; simp only [List.append_assoc], hground, this⟩

theorem Logged.move {cfg : Config} {me : Pid} {w w' : Work} (hn : cfg.procNum = 3 * f + 1)
    (hG : Good cfg me w) (h : Move cfg me w w')
    (hL : Logged cfg.procNum w.shared.created w.state) :
    Logged cfg.procNum w'.shared.created w'.state := by
  cases h with
  | @advance vertex =>
    have hL' := hL.mono (List.subset_cons_self vertex _)
    exact ⟨hL'.rising, hL'.bound, hL'.trunk⟩
  | add _ _ _ hadd =>
    have hoff := (hG.sound.dag.shaped.addVertex hadd).gcOffset
    exact ⟨hL.rising, by simp only [hoff]; exact hL.bound, by simp only [hoff]; exact hL.trunk⟩
  | genesis _ _ hadd =>
    have hoff := (hG.sound.dag.shaped.addVertex hadd).gcOffset
    exact ⟨hL.rising, by simp only [hoff]; exact hL.bound, by simp only [hoff]; exact hL.trunk⟩
  | @order vertex anchor _ _ _ hsupport hsource hanchor heven hcommit =>
    have hle := le_of_vertexAt hanchor
    rcases hcommit.log with ⟨-, hround, hanchors, -⟩ | ⟨hfresh, pushed, hw, hanchors⟩
    · have hoff : _ = w.state.dag.gcOffset :=
        hcommit.gcOffset.trans (hround.trans hG.sound.offset)
      refine ⟨?_, ?_, ?_⟩ <;> simp only [hanchors, hoff]
      · exact hL.rising
      · exact hL.bound
      · exact hL.trunk
    · exact hL.order hn hG.vertices hG.sound.toReady hsupport hsource heven hle hfresh hw
        hcommit.gcOffset hanchors
  | _ => exact ⟨hL.rising, hL.bound, hL.trunk⟩

theorem Logged.moves {cfg : Config} {me : Pid} {w w' : Work}
    (hn : cfg.procNum = 3 * f + 1) (hG : Good cfg me w) (h : Moves cfg me w w')
    (hL : Logged cfg.procNum w.shared.created w.state) :
    Logged cfg.procNum w'.shared.created w'.state := by
  induction h with
  | refl => exact hL
  | tail hms hm ih => exact ih.move hn (hG.moves hms) hm

end

theorem Logged.empty {n : ℕ} {created : List Vertex} {s : Bullshark}
    (hnil : s.history.anchors = []) (h0 : s.dag.gcOffset = 0) : Logged n created s := by
  refine ⟨⟨?_, ?_, ?_⟩, ?_, .inl ⟨hnil, h0⟩⟩ <;> rw [hnil]
  · exact List.forall_mem_nil _
  · exact List.forall_mem_nil _
  · exact .nil
  · exact List.forall_mem_nil _

theorem Logged.of_reachable {f submitLimit : ℕ} {c : System}
    (h : c.Reachable ⟨3 * f + 1, submitLimit⟩) (p : Pid) :
    Logged (3 * f + 1) c.shared.created (c.replicas p) := by
  by_cases hp : p ∈ c.started
  · refine Invariant.replicas (P := fun _ created s => Logged (3 * f + 1) created s)
      (fun hsub hL => hL.mono hsub) (fun hd hh _ _ hL => ?_)
      (fun hnew => .empty (by rw [hnew.history]) (by rw [hnew.dag]; rfl))
      (fun hG hm hL => hL.move rfl hG hm) h p hp
    exact ⟨hh ▸ hL.rising, by rw [hh, hd]; exact hL.bound, by rw [hh, hd]; exact hL.trunk⟩
  · rw [(Invariant.of_reachable h).idle p hp]
    exact .empty rfl rfl

theorem Logged.of_begins {f submitLimit : ℕ} {c base : System} {a : Action} {me : Pid}
    {w w' : Work} (h : c.Reachable ⟨3 * f + 1, submitLimit⟩)
    (hb : Begins ⟨3 * f + 1, submitLimit⟩ c a me base w)
    (hm : Moves ⟨3 * f + 1, submitLimit⟩ me w w') :
    Logged (3 * f + 1) w'.shared.created w'.state := by
  have hI := Invariant.of_reachable h
  refine Logged.moves rfl (hI.opening hb).good hm ?_
  obtain ⟨hbound, hnotes⟩ := hI.begins_bound hb
  have hL := (Logged.of_reachable h me).mono (begins_created hb)
  exact ⟨hnotes ▸ hL.rising, by rw [hnotes, hbound]; exact hL.bound,
    by rw [hnotes, hbound]; exact hL.trunk⟩

/-! ## Two logs -/

section

variable {n f o o' : ℕ} {created out out' : List Vertex} {s s' : Bullshark} {a : Vertex}
  {log log' l l' r : List (Vertex × ℕ)}

theorem Rising.ground_eq (hR : Rising created log) (hR' : Rising created log')
    {ground ground' ps ps' : List Vertex} (hlog : log.map Prod.fst = ground ++ ps)
    (hlog' : log'.map Prod.fst = ground' ++ ps')
    (h : ∀ v, v ∈ ground ↔ v ∈ ground') : ground = ground' := by
  have hinc : ∀ {log : List (Vertex × ℕ)} {ground ps : List Vertex}, Rising created log →
      log.map Prod.fst = ground ++ ps →
      ground.Pairwise (fun u v => u.round < v.round) := fun hR hlog => by
    have hmap : (List.map Prod.fst _).Pairwise fun u v : Vertex => u.round < v.round :=
      List.pairwise_map.mpr (hR.pairwise.imp And.left)
    rw [hlog] at hmap
    exact (List.pairwise_append.mp hmap).1
  have : Std.Irrefl fun u v : Vertex => u.round < v.round := ⟨fun _ => lt_irrefl _⟩
  have : Std.Antisymm fun u v : Vertex => u.round < v.round :=
    ⟨fun _ _ h h' => absurd h h'.asymm⟩
  exact (hinc hR hlog).eq_of_mem_iff (hinc hR' hlog') h

/-- **The anchors of two logs are the same as far as both have come.** -/
theorem Logged.anchors (hn : n = 3 * f + 1) (hV : Vertices n created) (hL : Logged n created s)
    (hL' : Logged n created s')
    (hg : ∀ x ∈ s.history.anchors, x.1.round = 0 → s'.history.anchors ≠ [] →
      ∃ offset, (x.1, offset) ∈ s'.history.anchors)
    (hg' : ∀ x ∈ s'.history.anchors, x.1.round = 0 → s.history.anchors ≠ [] →
      ∃ offset, (x.1, offset) ∈ s.history.anchors) :
    Comparable (s.history.anchors.map Prod.fst) (s'.history.anchors.map Prod.fst) := by
  rcases hL.trunk with ⟨hnil, -⟩ | ⟨last, -, hT⟩
  · rw [hnil]
    exact .inl List.nil_prefix
  rcases hL'.trunk with ⟨hnil, -⟩ | ⟨last', -, hT'⟩
  · rw [hnil]
    exact .inr List.nil_prefix
  obtain ⟨ground, ps, hlog, hground, hspine⟩ := hT.spine
  obtain ⟨ground', ps', hlog', hground', hspine'⟩ := hT'.spine
  have hne : ∀ {last} {log : List (Vertex × ℕ)}, last ∈ log.map Prod.fst → log ≠ [] :=
    fun hmem hnil => by simp [hnil] at hmem
  have hsub : ∀ {log log' : List (Vertex × ℕ)} {ground ground' ps ps' : List Vertex}
      {last : Vertex}, log.map Prod.fst = ground ++ ps → log'.map Prod.fst = ground' ++ ps' →
      (∀ v ∈ ground, v.round = 0) → Spine n last ps' →
      (∀ x ∈ log, x.1.round = 0 → ∃ offset, (x.1, offset) ∈ log') →
      ∀ v ∈ ground, v ∈ ground' := by
    intro log log' ground ground' ps ps' last hlog hlog' hground hspine hg v hv
    obtain ⟨x, hx, rfl⟩ := List.mem_map.mp (hlog ▸ List.mem_append_left ps hv)
    obtain ⟨offset, hx'⟩ := hg x hx (hground _ hv)
    have hmem : x.1 ∈ ground' ++ ps' := hlog' ▸ List.mem_map.mpr ⟨_, hx', rfl⟩
    refine (List.mem_append.mp hmem).resolve_right fun hps => ?_
    have := hspine.pos hps
    have := hground _ hv
    omega
  have heq : ground = ground' := hL.rising.ground_eq hL'.rising hlog hlog' fun v =>
    ⟨hsub hlog hlog' hground hspine' (fun x hx h0 => hg x hx h0 (hne hT'.mem)) v,
      hsub hlog' hlog hground' hspine (fun x hx h0 => hg' x hx h0 (hne hT.mem)) v⟩
  rw [hlog, hlog', ← heq]
  have hU := hT.unmissed hn hV
  have hU' := hT'.unmissed hn hV
  rcases Nat.le_total last.round last'.round with hle | hle
  · exact .inl ((List.prefix_append_right_inj _).mpr (hspine.isPrefix hV hU hU' hle hspine'))
  · exact .inr ((List.prefix_append_right_inj _).mpr (hspine'.isPrefix hV hU' hU hle hspine))

/-- **What the shorter log orders the longer one orders too**, up to the history of the
last anchor of both. -/
theorem Uniform.agree (hV : Vertices n created) (hU : Uniform log log') (hU' : Uniform log' log)
    (hR : Rising created log) (hR' : Rising created log') (h : Replay log out)
    (h' : Replay log' out') (hlog : log.map Prod.fst <+: log'.map Prod.fst) :
    Comparable out out' := by
  rcases List.eq_nil_or_concat log with rfl | ⟨l, ⟨a, o⟩, rfl⟩
  · rw [h.of_nil]
    exact .inl List.nil_prefix
  rw [List.concat_eq_append] at *
  obtain ⟨t, hmap⟩ := hlog
  rw [List.map_append, List.append_assoc] at hmap
  obtain ⟨l', r', rfl, hl, hr⟩ := List.map_eq_append_iff.mp hmap.symm
  obtain ⟨⟨a', o'⟩, r, rfl, ha, -⟩ := List.map_eq_cons_iff.mp hr
  obtain rfl : a' = a := ha
  rw [← List.singleton_append, ← List.append_assoc] at h'
  obtain ⟨out₁, tail, rfl, h₁, htail⟩ := h'.append
  obtain ⟨out₀, segment', rfl, h₀, -, ht'⟩ := h₁.last
  obtain ⟨out₂, segment, rfl, h₂, -, ht⟩ := h.last
  have hlast : (a', o) ∈ l ++ [(a', o)] := List.mem_append_right _ (List.mem_singleton_self _)
  have hlast' : (a', o') ∈ l' ++ (a', o') :: r := List.mem_append_right _ List.mem_cons_self
  have hout : out₂ = out₀ := by
    refine h₂.same hV h₀ hR.left hR'.left hl.symm fun b p p' hb hb' => ?_
    have hlt := (hR.before hb).1
    have hlt' := (hR'.before hb').1
    have hb := List.mem_append_left [(a', o)] hb
    have hb' := List.mem_append_left ((a', o') :: r) hb'
    refine ⟨(hU.covered b p p' hb hb' ⟨_, hlast', hlt⟩).left
        (List.forall_mem_singleton.mpr hlt.le),
      (hU'.covered b p' p hb' hb ⟨_, hlast, hlt⟩).left fun y hy => ?_⟩
    rcases List.mem_cons.mp hy with rfl | hy
    · exact hlt'.le
    · exact hlt'.le.trans (hR'.after hy).1.le
  subst hout
  have ha := hR.mem _ hlast
  rcases Nat.le_total o' o with hle | hle
  · obtain ⟨deep, rfl, -⟩ := traverse_deeper hV ha hle (hR.le _ hlast) ht' ht
    exact .inl ⟨deep ++ tail, by simp only [List.append_assoc]⟩
  · cases r with
    | nil =>
      obtain ⟨deep, rfl, -⟩ := traverse_deeper hV ha hle (hR'.le _ hlast') ht ht'
      rw [htail rfl, List.append_nil, ← List.append_assoc]
      exact .inr (List.prefix_append _ _)
    | cons y r =>
      have hy := (hR'.after (List.mem_cons_self (a := y) (l := r))).1
      have hc := hU.covered a' o o' hlast hlast'
        ⟨y, List.mem_append_right _ (List.mem_cons_of_mem _ List.mem_cons_self), hy⟩
      rw [h₂.segment_eq hV hR hle (hR'.le _ hlast') hc ht ht']
      exact .inl (List.prefix_append _ _)

theorem Comparable.ground (hc : Comparable out out') (hR : Rising created log)
    (h : Replay log out) (h' : Replay log' out') :
    ∀ x ∈ log, x.1.round = 0 → log' ≠ [] → ∃ offset, (x.1, offset) ∈ log' := by
  intro x hx h0 hne
  cases log with
  | nil => cases hx
  | cons y r =>
    obtain rfl : x = y := (List.mem_cons.mp hx).resolve_right fun hx => by
      have := ((List.pairwise_cons.mp hR.pairwise).1 x hx).1
      omega
    cases log' with
    | nil => exact absurd rfl hne
    | cons z r' =>
      obtain ⟨rest, rfl⟩ := Replay.head (a := x.1) (o := x.2) h
      obtain ⟨rest', rfl⟩ := Replay.head (a := z.1) (o := z.2) h'
      have heq : x.1 = z.1 := hc.elim (fun h => (List.cons_prefix_cons.mp h).1)
        fun h => (List.cons_prefix_cons.mp h).1.symm
      exact ⟨z.2, heq ▸ List.mem_cons_self⟩

theorem Comparable.earlier (hlog : Comparable (log.map Prod.fst) (log'.map Prod.fst))
    (hR' : Rising created log') (ha : (a, o) ∈ log) {x : Vertex × ℕ} (hx : x ∈ log')
    (hlt : x.1.round < a.round) : ∃ offset, (x.1, offset) ∈ log := by
  have ham : a ∈ log.map Prod.fst := List.mem_map.mpr ⟨_, ha, rfl⟩
  have hxm : x.1 ∈ log'.map Prod.fst := List.mem_map.mpr ⟨x, hx, rfl⟩
  have hmap : (log'.map Prod.fst).Pairwise fun u v : Vertex => u.round < v.round :=
    List.pairwise_map.mpr (hR'.pairwise.imp And.left)
  suffices hmem : x.1 ∈ log.map Prod.fst by
    obtain ⟨z, hz, heq⟩ := List.mem_map.mp hmem
    exact ⟨z.2, heq ▸ hz⟩
  rcases hlog with ⟨t, ht⟩ | hpre
  · rw [← ht] at hxm hmap
    refine (List.mem_append.mp hxm).resolve_right fun hxt => ?_
    exact ((List.pairwise_append.mp hmap).2.2 a ham x.1 hxt).asymm hlt
  · exact hpre.subset hxm

theorem Replay.not_mem_of_lt (hV : Vertices n created) (hR : Rising created (l ++ [(a, o)]))
    (h : Replay (l ++ [(a, o)]) out) {y : Vertex} (hlt : a.round < y.round) : y ∉ out := by
  intro hy
  obtain ⟨x, hx, -, hxy⟩ := h.source hR hy
  have hxa : x.1.round ≤ a.round := by
    rcases List.mem_append.mp hx with hx | hx
    · exact (hR.before hx).1.le
    · exact List.mem_singleton.mp hx ▸ Nat.le_refl _
  rcases (hV.reaches_mem (hR.mem x hx) hxy).2 with heq | hfalls
  · rw [heq] at hlt
    omega
  · omega

/-- **Outputs that agree have lost nothing.** What one log orders with an anchor and the
other one does not comes before the next anchor of the latter. -/
theorem Comparable.covered (hV : Vertices n created) (hc : Comparable out out')
    (hR : Rising created log) (hR' : Rising created log') (h : Replay log out)
    (h' : Replay log' out')
    (hlog : Comparable (log.map Prod.fst) (log'.map Prod.fst)) (ha : (a, o) ∈ log)
    (ha' : (a, o') ∈ log') (hnext : ∃ y ∈ log', a.round < y.1.round) : Covered log a o o' := by
  intro u hau hle hlt
  by_contra hno
  obtain ⟨y, hy, hay⟩ := hnext
  -- what reached it there would be an earlier anchor of both
  have hout' : u ∉ out' := fun hu => by
    obtain ⟨x, hx, hxle, hxu⟩ := h'.source hR' hu
    have hxa := hR'.round_lt_of_offset_lt ha' hx (hxle.trans_lt hlt)
    obtain ⟨offset, hx⟩ := hlog.earlier hR' ha hx hxa
    exact hno ⟨_, hx, hxa, hxu⟩
  have hyout : y.1 ∈ out' := (h'.contains hV hR').1 y hy y.1 (.refl _ _) (hR'.le y hy)
  obtain ⟨l, r, rfl⟩ := List.append_of_mem ha
  rw [← List.singleton_append, ← List.append_assoc] at h hR
  obtain ⟨seen, tail, rfl, hseen, -⟩ := h.append
  have hu : u ∈ seen := (hseen.contains hV hR.left).1 (a, o)
    (List.mem_append_right _ (List.mem_singleton_self _)) u hau hle
  rcases hc with hpre | hpre
  · exact hout' (hpre.subset (List.mem_append_left _ hu))
  · rcases List.prefix_or_prefix_of_prefix hpre (List.prefix_append seen tail) with hpre | hpre
    · exact hseen.not_mem_of_lt hV hR.left hay (hpre.subset hyout)
    · exact hout' (hpre.subset hu)

end

/-! ## Runs -/

/-- `c'` is a later moment of a run through `c`. -/
abbrev System.Leads (cfg : Config) (c c' : System) : Prop :=
  Transition.Reachable (System.step cfg) c (fun _ _ => True) c'

theorem output_isPrefix {cfg : Config} {c c' : System} (h : c.Reachable cfg)
    (h' : c.Leads cfg c') (p : Pid) :
    (c.replicas p).history.output <+: (c'.replicas p).history.output := by
  induction h' with
  | init => exact List.prefix_rfl
  | @step c₁ c₂ a hr _ hs ih =>
    refine ih.trans ?_
    have hI := Invariant.of_reachable (h.append hr)
    obtain ⟨me, base, w, w', hb, hm, rfl⟩ := hI.step hs
    unfold System.update
    simp only
    by_cases hp : p = me
    · subst hp
      obtain ⟨out, hout, -⟩ := hm.output
      rw [Function.update_self, hout, (begins_output hI hb).1]
      exact List.prefix_append _ _
    · rw [Function.update_of_ne hp, (hI.begins_base hb).1]

/-- **Total order.** In a run the outputs of all replicas at all moments agree if and only
if the logs at its end are uniform: the replicas that have ordered anything have all ordered
the anchor of round 0 or none has, and no anchor has brought in a vertex at one replica that
lay below the bound of another one when that ordered the anchor. -/
theorem total_order_iff (f submitLimit : ℕ) (c : System)
    (h : c.Reachable ⟨3 * f + 1, submitLimit⟩) :
    (∀ c₁ c₂ : System, c₁.Reachable ⟨3 * f + 1, submitLimit⟩ →
        c₂.Reachable ⟨3 * f + 1, submitLimit⟩ → c₁.Leads ⟨3 * f + 1, submitLimit⟩ c →
        c₂.Leads ⟨3 * f + 1, submitLimit⟩ c → ∀ p q,
        Comparable (c₁.replicas p).history.output (c₂.replicas q).history.output) ↔
      ∀ p q, Uniform (c.replicas p).history.anchors (c.replicas q).history.anchors := by
  have hV := (Invariant.of_reachable h).vertices
  have hL := Logged.of_reachable h
  have hreplay : ∀ p, Replay (c.replicas p).history.anchors (c.replicas p).history.output := by
    intro p
    by_cases hp : p ∈ c.started
    · exact ((Invariant.of_reachable h).sound p hp).replay
    · rw [(Invariant.of_reachable h).idle p hp]
      exact .nil
  constructor
  · intro hagree p q
    have hc := hagree c c h h .init .init
    have hg := fun p q => (hc p q).ground (hL p).rising (hreplay p) (hreplay q)
    have hlog := (hL p).anchors rfl hV (hL q) (hg p q) (hg q p)
    exact ⟨hg p q, fun a o o' ha ha' hnext => (hc p q).covered hV (hL p).rising (hL q).rising
      (hreplay p) (hreplay q) hlog ha ha' hnext⟩
  · intro hU c₁ c₂ h₁ h₂ hl₁ hl₂ p q
    have hend : Comparable (c.replicas p).history.output (c.replicas q).history.output := by
      have hlog := (hL p).anchors rfl hV (hL q) (hU p q).ground (hU q p).ground
      rcases hlog with hpre | hpre
      · exact (hU p q).agree hV (hU q p) (hL p).rising (hL q).rising (hreplay p) (hreplay q) hpre
      · exact ((hU q p).agree hV (hU p q) (hL q).rising (hL p).rising (hreplay q) (hreplay p)
          hpre).symm
    have hp := output_isPrefix h₁ hl₁ p
    have hq := output_isPrefix h₂ hl₂ q
    rcases hend with hpre | hpre
    · exact List.prefix_or_prefix_of_prefix (hp.trans hpre) hq
    · exact List.prefix_or_prefix_of_prefix hp (hq.trans hpre)

/-- The second replica had collected nothing when it ordered its anchors, and has the anchor
of round 0 if the first one has. -/
def sameStart (c : System) (p q : Pid) : Bool :=
  let log := (c.replicas p).history.anchors
  let log' := (c.replicas q).history.anchors
  log'.all (fun y => y.2 == 0) &&
    (log'.isEmpty || log.all fun x => x.1.round != 0 || log'.any fun y => sameVertex y.1 x.1)

theorem uniform_of_sameStart {f submitLimit : ℕ} {c : System}
    (h : c.Reachable ⟨3 * f + 1, submitLimit⟩) {p q : Pid} (hs : sameStart c p q = true) :
    Uniform (c.replicas p).history.anchors (c.replicas q).history.anchors := by
  have hV := (Invariant.of_reachable h).vertices
  have hp := (Logged.of_reachable h p).rising
  have hq := (Logged.of_reachable h q).rising
  unfold sameStart at hs
  simp only [Bool.and_eq_true, Bool.or_eq_true, List.all_eq_true, List.any_eq_true,
    List.isEmpty_iff, bne_iff_ne, beq_iff_eq] at hs
  obtain ⟨hzero, hstart⟩ := hs
  refine ⟨fun x hx h0 hne => ?_, fun a o o' _ ha' _ u _ _ hlt => ?_⟩
  · obtain ⟨y, hy, hyx⟩ := ((hstart.resolve_left hne) x hx).resolve_left fun hr => hr h0
    exact ⟨y.2, hV.eq_of_same (hq.mem y hy) (hp.mem x hx) hyx ▸ hy⟩
  · have h0 : o' = 0 := hzero _ ha'
    omega

theorem exists_sameStart : ∃ c : System, c.Reachable ⟨4, 0⟩ ∧ (c.replicas 1).dag.gcOffset = 2 ∧
    (c.replicas 2).history.output ≠ [] ∧ ∀ p < 4, ∀ q < 4, sameStart c p q = true := by
  let cfg : Config := ⟨4, 0⟩
  let phases : List Phase := [.start cfg,
    (Phase.deliver (fun x => x.src != 0 && x.dst != 0) 400).until fun c =>
      2 ≤ (c.replicas 1).dag.gcOffset]
  have hrun : (run cfg phases System.init).any (fun c => decide
      ((c.replicas 1).dag.gcOffset = 2 ∧ (c.replicas 2).history.output.length ≠ 0 ∧
        ∀ p < 4, ∀ q < 4, sameStart c p q = true)) = true := by
    decide +kernel
  obtain ⟨c, hc, hd⟩ := (Option.any_eq_true _ _).mp hrun
  obtain ⟨hoff, hout, hstart⟩ := of_decide_eq_true hd
  exact ⟨c, reachable_run .init hc, hoff, fun hnil => hout (by rw [hnil]; rfl), hstart⟩

theorem total_order_four : ∃ c : System, c.Reachable ⟨4, 0⟩ ∧
    (c.replicas 1).dag.gcOffset = 2 ∧ (c.replicas 2).history.output ≠ [] ∧ ∀ p q,
      Comparable (c.replicas p).history.output (c.replicas q).history.output := by
  obtain ⟨c, hreach, hoff, hout, hstart⟩ := exists_sameStart
  have hI := Invariant.of_reachable hreach
  have hidle : ∀ p, ¬ p < 4 → (c.replicas p).history.anchors = [] := fun p hp => by
    rw [hI.idle p fun hs => hp (hI.started p hs)]
    rfl
  refine ⟨c, hreach, hoff, hout, ?_⟩
  refine (total_order_iff 1 0 c hreach).mpr (fun p q => ?_) c c hreach hreach .init .init
  by_cases hp : p < 4
  · by_cases hq : q < 4
    · exact uniform_of_sameStart (f := 1) hreach (hstart p hp q hq)
    · rw [hidle q hq]
      exact ⟨fun _ _ _ hne => absurd rfl hne, fun _ _ _ _ ha' => absurd ha' List.not_mem_nil⟩
  · rw [hidle p hp]
    exact ⟨List.forall_mem_nil _, fun _ _ _ ha => absurd ha List.not_mem_nil⟩

/-- The others do without replicas 3 and 5. Replica 3 gets their vertices up to round 1 and
is the leader of round 2: its own vertex makes it commit the anchor of round 0. The next
leader that has something to commit is replica 4 in round 10, and it walks back from
round 8. -/
def missedLeader (cfg : Config) : List Phase :=
  let among := Phase.deliver fun x => x.src != 3 && x.src != 5 && x.dst != 3 && x.dst != 5
  let timeout := Phase.timer
    (fun c t => t.1 != 3 && t.1 != 5 && t.2 == (c.replicas t.1).timer) 20
  [.start cfg, among 400,
    (Phase.deliver (fun x => x.dst == 3) 400).until fun c => 2 ≤ (c.replicas 3).round,
    timeout, among 400, timeout, among 400, timeout,
    (among 400).until fun c => 8 ≤ (c.replicas 4).lastOrderedRound]

/-- **No total order.** Replica 3 has ordered the anchor of round 0, and the output of
replica 4 begins with the one of round 8. -/
theorem outputs_diverge : ∃ c : System, c.Reachable ⟨7, 0⟩ ∧
    ¬ Comparable (c.replicas 3).history.output (c.replicas 4).history.output := by
  let cfg : Config := ⟨7, 0⟩
  have hrun : (run cfg (missedLeader cfg) System.init).any (fun c =>
      (c.replicas 3).history.output.head?.any (fun v => v.round == 0) &&
        (c.replicas 4).history.output.head?.any (fun v => v.round == 8)) = true := by
    decide +kernel
  obtain ⟨c, hc, hd⟩ := (Option.any_eq_true _ _).mp hrun
  rw [Bool.and_eq_true] at hd
  obtain ⟨u, hu, hru⟩ := (Option.any_eq_true _ _).mp hd.1
  obtain ⟨v, hv, hrv⟩ := (Option.any_eq_true _ _).mp hd.2
  obtain ⟨out, hout⟩ := List.head?_eq_some_iff.mp hu
  obtain ⟨out', hout'⟩ := List.head?_eq_some_iff.mp hv
  refine ⟨c, reachable_run .init hc, fun h => ?_⟩
  rw [hout, hout'] at h
  have heq : u = v := h.elim (fun h => (List.cons_prefix_cons.mp h).1)
    fun h => (List.cons_prefix_cons.mp h).1.symm
  rw [heq, beq_iff_eq] at hru
  rw [beq_iff_eq] at hrv
  omega

end Blsmr.Bullshark
