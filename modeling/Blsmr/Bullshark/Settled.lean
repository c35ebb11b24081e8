import Blsmr.Bullshark.Agreement
import Blsmr.Bullshark.Converge

/-!
# What is due is committed

A vertex of a leader that has enough edges to vertices with an edge to the leader's vertex two
rounds below commits that one, at every replica that places it (`Settled`). With nothing in
flight the replicas that leave nothing in their buffers have the same vertices, and so they
have committed up to the same round, have the same anchors above round 0, and have ordered the
same vertices if and only if their logs are alike (`outputs_converge`).
-/

namespace Blsmr.Bullshark

open Blsmr.Transition Blsmr.Graph Bfs RoundBasedDAG

/-! ## Direct commits -/

/-- `b` commits `a` at a replica that places it. -/
structure DirectCommit (n : ℕ) (a b : Vertex) : Prop where
  round : b.round = a.round + 2
  even : a.round % 2 = 0
  anchor : a.source = leader n a.round
  source : b.source = leader n b.round
  reaches : b.Reaches a
  enough : directCommitThreshold n ≤ (votes a b.strongEdges).length

/-- **What the vertices of the DAG commit is ordered**, except for those in `but`, and the
bound is the round of the last anchor that one of them commits. -/
structure Settled (n : ℕ) (but : Vertex → Prop) (d : RoundBasedDAG) : Prop where
  done : ∀ a b, DirectCommit n a b → d.Has b → ¬ but b →
    a.round < d.gcOffset ∨ d.done a.key = true
  top : (d.gcOffset = 0 ∧ ∀ k, d.done k = false) ∨
    ∃ a b, DirectCommit n a b ∧ d.Has b ∧ a.round = d.gcOffset

section

variable {n : ℕ} {but but' : Vertex → Prop} {created : List Vertex} {d d' : RoundBasedDAG}
  {s : Bullshark} {a b v : Vertex}

theorem DirectCommit.supported (h : DirectCommit n a b) (hV : Vertices n created)
    (hb : b ∈ created) : Supported n created a b :=
  ⟨(hV.reaches_mem hb h.reaches).1, hb, h.round, h.enough⟩

theorem DirectCommit.unique (h : DirectCommit n a b) (hV : Vertices n created)
    (hb : b ∈ created) {a' : Vertex} (ha' : a' ∈ created) (hround : a'.round + 2 = b.round)
    (hsource : a'.source = leader n a'.round) : a = a' := by
  have hr := h.round
  have heq : a.round = a'.round := by omega
  exact hV.key_inj a' ha' a (h.supported hV hb).anchor_mem heq
    (h.anchor.trans (heq ▸ hsource.symm))

theorem DirectCommit.has (h : DirectCommit n a b) (hV : Vertices n created)
    (hd : Causal n created d) (hb : d.Has b) (hle : d.gcOffset ≤ a.round) : d.Has a :=
  (hd.linked hV).has_of_reaches hb h.reaches hle

theorem directCommitThreshold_pos (n : ℕ) : 0 < directCommitThreshold n := Nat.succ_pos _

theorem reaches_of_votes (hV : Vertices n created) (hb : b ∈ created) (ha : a ∈ created)
    (h : 0 < (votes a b.strongEdges).length) : b.Reaches a := by
  obtain ⟨e, he⟩ := List.exists_mem_of_length_pos h
  obtain ⟨heb, u, hu, hua⟩ := mem_votes.mp he
  have hmem := (hV.edge b hb e heb).1
  have heq : u = a := hV.eq_of_same (hV.edge e hmem u hu).1 ha hua
  exact (Reach.single (heq ▸ hu)).head heb

/-! ## The DAG -/

theorem Settled.narrow (hS : Settled n but d) (h : ∀ a b, DirectCommit n a b → d.Has b →
    but b → ¬ but' b → a.round < d.gcOffset ∨ d.done a.key = true) : Settled n but' d where
  done a b hC hb hno := by
    by_cases hin : but b
    · exact h a b hC hb hin hno
    · exact hS.done a b hC hb hin
  top := hS.top

theorem Settled.added (hS : Settled n but d) (hV : Vertices n created) (hd : Causal n created d)
    (hA : Added n v d d') (hv : v ∈ created) : Settled n (fun b => b = v ∨ but b) d' where
  done _ _ hC hb hno := by
    rw [not_or] at hno
    rw [hA.gcOffset, hA.done]
    exact hS.done _ _ hC (((hA.has_iff hV hd hv).mp hb).resolve_left hno.1) hno.2
  top := by
    rw [hA.gcOffset]
    refine hS.top.imp (fun ⟨h0, hnone⟩ => ⟨h0, fun k => (hA.done k).trans (hnone k)⟩) ?_
    rintro ⟨a, b, hC, hb, hround⟩
    exact ⟨a, b, hC, (hA.has_iff hV hd hv).mpr (.inr hb), hround⟩

theorem done_default (m : ℕ) (k : ℕ × Pid) :
    (RoundBasedDAG.default.setRoundSize m).done k = false := by
  rw [done_of_le (d := RoundBasedDAG.default.setRoundSize m) (Nat.zero_le k.1)]
  rfl

theorem Settled.of_empty {k : ℕ} : Settled n but (RoundBasedDAG.default.setRoundSize k) where
  done _ _ _ hb _ :=
    absurd ((causal_default k []).within hb).2.1 (Nat.not_lt_zero _)
  top := .inl ⟨rfl, done_default k⟩

theorem Replay.mem_last {l : List (Vertex × ℕ)} {o : ℕ} {out : List Vertex}
    (h : Replay (l ++ [(a, o)]) out) : a ∈ out := by
  obtain ⟨out₁, segment, rfl, -, hfresh, ht⟩ := h.last
  cases ht with
  | skip hx => exact absurd hx hfresh
  | mark => exact List.mem_append_right _ List.mem_cons_self

theorem Committed.mem_output {commits commits' : Commits} {history : History}
    (hC : Committed n created a s commits d commits' history) :
    ∃ u ∈ history.output, u.key = a.key := by
  rcases hC.log with ⟨hin, -, -, hout⟩ | ⟨-, pushed, -, hanchors⟩
  · exact hout ▸ hin
  · have hreplay := hC.ready.replay
    simp only [hanchors, List.map_append, ← List.append_assoc] at hreplay
    exact ⟨a, hreplay.mem_last, rfl⟩

/-- **An anchor is committed**: its vertex is exempted no longer. -/
theorem Settled.committed {commits commits' : Commits} {history : History} (hR : Ready n created s)
    (hV : Vertices n created) (hcommit : Committed n created a s commits d commits' history)
    (hS : Settled n (fun b => b = v ∨ but b) s.dag) (hC : DirectCommit n a v) (hv : s.dag.Has v)
    (hle : s.dag.gcOffset ≤ a.round) : Settled n but d := by
  have hmem := hR.dag.mem hv
  have hhas : ∀ {b}, d.Has b → s.dag.Has b := fun {b} hb => by
    unfold Has at hb
    rw [hcommit.vertexAt] at hb
    exact (Option.ite_none_right_eq_some.mp hb).2
  obtain ⟨out, hout, -⟩ := hcommit.output
  have hmarked : ∀ {k : ℕ × Pid}, d.gcOffset ≤ k.1 → (∃ u ∈ history.output, u.key = k) →
      d.done k = true := fun hk hu => (hcommit.ready.marks _ hk).mpr hu
  constructor
  · intro a' b hC' hb hno
    by_cases hlt : a'.round < d.gcOffset
    · exact .inl hlt
    refine .inr (hmarked (Nat.le_of_not_lt hlt) ?_)
    by_cases hbv : b = v
    · subst hbv
      have heq := hC'.unique hV hmem (hC.supported hV hmem).anchor_mem hC.round.symm hC.anchor
      exact heq ▸ hcommit.mem_output
    · have hgrow : s.dag.gcOffset ≤ a'.round := by
        have := hcommit.gcOffset
        omega
      have hdone := (hS.done a' b hC' (hhas hb) (not_or.mpr ⟨hbv, hno⟩)).resolve_left
        (Nat.not_lt_of_le hgrow)
      obtain ⟨u, hu, hk⟩ := (hR.marks _ hgrow).mp hdone
      exact ⟨u, hout ▸ List.mem_append_left _ hu, hk⟩
  · refine .inr ⟨a, v, hC, ?_, hcommit.gcOffset.symm⟩
    unfold Has
    rw [hcommit.vertexAt, if_pos (by rw [hC.round]; omega)]
    exact hv

end

/-! ## The handlers -/

/-- Catching up settles what it adds. -/
def Settles (env : Env) (broadcast : ℕ → Work → Option Work) : Prop :=
  ∀ {w w' : Work} {vertex : Vertex} {but : Vertex → Prop}, Good env.cfg env.me w →
    vertex ∈ w.shared.created → w.state.dag.Has vertex → w.state.dag.gcOffset < vertex.round →
    w.state.round < vertex.round →
    broadcast vertex.round (startTimer { w with state := { w.state with round := vertex.round } }) =
      some w' → Settled env.cfg.procNum but w.state.dag →
    Settled env.cfg.procNum but w'.state.dag

section

variable {env : Env} {w w' : Work} {but : Vertex → Prop} {v : Vertex}

theorem Settled.tryOrdering (hS : Settled env.cfg.procNum (fun b => b = v ∨ but b) w.state.dag)
    (hG : Good env.cfg env.me w) (hmem : v ∈ w.shared.created) (hkept : Kept w.state v)
    (hsource : v.source = leader env.cfg.procNum v.round)
    (h : Bullshark.tryOrdering env v w = some w') : Settled env.cfg.procNum but w'.state.dag := by
  have hd := hG.sound.dag
  have hat : ∀ {a}, DirectCommit env.cfg.procNum a v → w.state.dag.Has v →
      w.state.dag.gcOffset ≤ a.round →
      w.state.dag.vertexAt (v.round - 2) (leader env.cfg.procNum (v.round - 2)) = some a := by
    intro a hC hv hle
    have hround : v.round - 2 = a.round := by
      have := hC.round
      omega
    rw [hround, ← hC.anchor]
    exact hC.has hG.vertices hd hv hle
  unfold Bullshark.tryOrdering at h
  split at h
  · rename_i hround
    cases h
    refine hS.narrow fun a b hC _ hb hno => ?_
    obtain rfl := hb.resolve_right hno
    have := hC.round
    have := hC.even
    omega
  · rename_i hround
    rw [not_or] at hround
    obtain ⟨o, ho, h⟩ := Option.bind_eq_some_iff.mp h
    unfold getAnchor at ho
    rw [getLeaderId_eq hG.sound.procNum] at ho
    cases o with
    | none =>
      cases h
      refine hS.narrow fun a b hC hhas hb hno => ?_
      obtain rfl := hb.resolve_right hno
      by_contra hor
      rw [not_or] at hor
      have ha := vertexAt_eq_some.mp (hat hC hhas (Nat.le_of_not_lt hor.1))
      rw [ho] at ha
      cases ha
    | some anchor =>
      have hanchor := vertexAt_eq_some.mpr ho
      obtain ⟨hamem, har, has⟩ := hd.stored _ _ _ hanchor
      have hahas := hd.has hanchor
      have hle := le_of_vertexAt hahas
      obtain ⟨edges, hedges, h⟩ := Option.bind_eq_some_iff.mp h
      rw [mapM_upgrade hedges] at h
      have hthreshold : directCommitThreshold w.state.procNum =
          directCommitThreshold env.cfg.procNum := by rw [hG.sound.procNum]
      simp only at h
      split at h
      · rename_i hvotes
        replace hvotes := hthreshold.ge.trans hvotes
        have hv : w.state.dag.Has v := hkept.resolve_right (by omega)
        have hC : DirectCommit env.cfg.procNum anchor v := by
          refine ⟨by omega, by omega, by rw [har, has], hsource, ?_, hvotes⟩
          exact reaches_of_votes hG.vertices hmem hamem
            ((directCommitThreshold_pos _).trans_le hvotes)
        have hcount : Move env.cfg env.me _ _ :=
          .count hmem hahas hC.round hC.even hC.anchor
        obtain ⟨d, commits, history, he, hcommit⟩ :=
          (hG.move hcount).orderAnchors_spec env hahas hC.even
        rw [he] at h
        cases h
        exact hS.committed (hG.move hcount).sound.toReady hG.vertices hcommit hC hv hle
      · rename_i hvotes
        cases h
        refine hS.narrow fun a b hC hhas hb hno => ?_
        obtain rfl := hb.resolve_right hno
        by_contra hor
        rw [not_or] at hor
        have ha := hat hC hhas (Nat.le_of_not_lt hor.1)
        rw [hanchor] at ha
        cases ha
        exact hvotes (hthreshold.le.trans hC.enough)

theorem Settled.place {broadcast : ℕ → Work → Option Work} (hb : CatchesUp env broadcast)
    (hs : Settles env broadcast) (hS : Settled env.cfg.procNum but w.state.dag)
    (hG : Good env.cfg env.me w) (hmem : v ∈ w.shared.created)
    (hlt : w.state.dag.gcOffset < v.round) (hedges : ∀ u ∈ v.strongEdges, w.state.dag.Has u)
    (h : Bullshark.place broadcast env v w = some w') :
    Settled env.cfg.procNum but w'.state.dag := by
  obtain ⟨dag, hadd, h⟩ := Option.bind_eq_some_iff.mp h
  obtain ⟨w₂, hcatch, h⟩ := Option.bind_eq_some_iff.mp h
  have hA := hG.sound.dag.shaped.addVertex hadd
  have hm₁ : Move env.cfg env.me _ _ := .add hmem hlt hedges hadd
  have hG₁ := hG.move hm₁
  have hhas₁ : dag.Has v := (hA.has_iff hG.vertices hG.sound.dag hmem).mpr (.inl rfl)
  have hS₁ := hS.added hG.vertices hG.sound.dag hA hmem
  obtain ⟨hm₂, hS₂⟩ : Moves env.cfg env.me { w with state := { w.state with dag } } w₂ ∧
      Settled env.cfg.procNum (fun b => b = v ∨ but b) w₂.state.dag := by
    obtain ⟨reached, -, hcatch⟩ := Option.bind_eq_some_iff.mp hcatch
    split at hcatch
    · rename_i hr
      have hlt₁ : dag.gcOffset < v.round := hA.gcOffset ▸ hlt
      exact ⟨hb hG₁ hmem hhas₁ hlt₁ hr.2 hcatch, hs hG₁ hmem hhas₁ hlt₁ hr.2 hcatch hS₁⟩
    · cases hcatch
      exact ⟨.refl, hS₁⟩
  have hG₂ := hG₁.moves hm₂
  have hkept₂ : Kept w₂.state v := hm₂.kept hG₁ (.inl hhas₁)
  have hmem₂ := hm₂.created hmem
  have hm₃ : Move env.cfg env.me _ _ := .release hmem₂ hkept₂
  have hG₃ := hG₂.move hm₃
  have hleader := getLeaderId_eq hG₃.sound.procNum v.round
  simp only at h
  split at h
  · rename_i hsource
    have hkept₃ := hm₃.kept hG₂ hkept₂
    exact Settled.tryOrdering (by exact hS₂) hG₃ hmem₂ hkept₃ (hsource.trans hleader) h
  · rename_i hsource
    cases h
    refine hS₂.narrow fun a b hC _ hbv hno => ?_
    obtain rfl := hbv.resolve_right hno
    exact absurd (hC.source.trans hleader.symm) hsource

theorem Settled.tryAddWith {broadcast : ℕ → Work → Option Work} (hb : CatchesUp env broadcast)
    (hs : Settles env broadcast) (hS : Settled env.cfg.procNum but w.state.dag)
    (hG : Good env.cfg env.me w) (hmem : v ∈ w.shared.created) {added : Bool}
    (h : Bullshark.tryAddWith broadcast env v w = some (added, w')) :
    Settled env.cfg.procNum but w'.state.dag := by
  unfold Bullshark.tryAddWith at h
  split at h
  · cases h
    exact hS
  · rename_i hlt
    split at h
    · cases h
      exact hS
    · obtain ⟨known, hknown, h⟩ := Option.bind_eq_some_iff.mp h
      split at h
      · rename_i hk
        obtain ⟨w₁, hplace, h⟩ := Option.bind_eq_some_iff.mp h
        cases h
        exact hS.place hb hs hG hmem (Nat.lt_of_not_le hlt) (hG.has_edges hmem (hk ▸ hknown)) hplace
      · cases h
        exact hS

theorem settles_none : Settles env fun _ _ => none :=
  fun _ _ _ _ _ h => nomatch h

theorem Settled.broadcastVertex (hS : Settled env.cfg.procNum but w.state.dag)
    (hG : Good env.cfg env.me w) {round : ℕ} (hround : w.state.round < round)
    {row : List (Option Vertex)} (hrow : w.state.dag.index (round - 1) = some row)
    (hquorum : quorumSize env.cfg.procNum ≤ row.reduceOption.length)
    (h : Bullshark.broadcastVertex env round
      (startTimer { w with state := { w.state with round } }) = some w') :
    Settled env.cfg.procNum but w'.state.dag := by
  unfold Bullshark.broadcastVertex at h
  rw [createVertex_eq (by omega) hrow, Option.bind_eq_bind, Option.bind_some] at h
  obtain ⟨⟨added, w₂⟩, hadd, h⟩ := Option.bind_eq_some_iff.mp h
  cases h
  have hG₁ := hG.moves (entering_moves hround hrow hquorum)
  have hS₁ : Settled env.cfg.procNum but (entering env round row w).state.dag := hS
  have hS₂ := hS₁.tryAddWith catchesUp_none settles_none hG₁ List.mem_cons_self hadd
  exact hS₂

theorem settles_broadcastVertex : Settles env (broadcastVertex env) := by
  intro w w' vertex but hG hmem hhas hlt hround h hS
  obtain ⟨row, hrow, hquorum⟩ := hG.row_below hmem hhas hlt
  exact hS.broadcastVertex hG hround hrow hquorum h

theorem Settled.tryAddToDag (hS : Settled env.cfg.procNum but w.state.dag)
    (hG : Good env.cfg env.me w) (hmem : v ∈ w.shared.created) {added : Bool}
    (h : Bullshark.tryAddToDag env v w = some (added, w')) :
    Settled env.cfg.procNum but w'.state.dag :=
  hS.tryAddWith catchesUp_broadcastVertex settles_broadcastVertex hG hmem h

theorem Settled.tryAdvanceRound (hS : Settled env.cfg.procNum but w.state.dag)
    (hG : Good env.cfg env.me w) (h : Bullshark.tryAdvanceRound env w = some w') :
    Settled env.cfg.procNum but w'.state.dag := by
  obtain ⟨reached, hreached, h⟩ := Option.bind_eq_some_iff.mp h
  split at h
  · rename_i hr
    obtain ⟨row, hrow, hquorum⟩ := quorumReached_spec (hr ▸ hreached)
    rw [hG.sound.procNum] at hquorum
    exact hS.broadcastVertex hG (Nat.lt_succ_self _) hrow hquorum h
  · cases h
    exact hS

theorem Settled.tryAll {vertices : List Vertex} (hS : Settled env.cfg.procNum but w.state.dag)
    (hG : Good env.cfg env.me w) (hmem : ∀ v ∈ vertices, v ∈ w.shared.created ∧ v.round ≠ 0)
    (h : Bullshark.tryAll env vertices w = some w') :
    Settled env.cfg.procNum but w'.state.dag := by
  induction vertices generalizing w with
  | nil =>
    cases h
    exact hS
  | cons v vertices ih =>
    obtain ⟨⟨added, w₁⟩, hadd, h⟩ := Option.bind_eq_some_iff.mp h
    obtain ⟨hv, h0⟩ := hmem v List.mem_cons_self
    obtain ⟨hm, -⟩ := tryAddToDag_moves hG hv h0 hadd
    refine ih (hS.tryAddToDag hG hv hadd) (hG.moves hm) (fun u hu => ?_) h
    obtain ⟨hu, h0⟩ := hmem u (List.mem_cons_of_mem v hu)
    exact ⟨hm.created hu, h0⟩

theorem Settled.onGenesis (hS : Settled env.cfg.procNum but w.state.dag)
    (hG : Good env.cfg env.me w) (hmem : v ∈ w.shared.created) (h0 : v.round = 0)
    (h : Bullshark.onGenesis env v w = some w') : Settled env.cfg.procNum but w'.state.dag := by
  obtain ⟨dag, hadd, h⟩ := Option.bind_eq_some_iff.mp h
  have hA := hG.sound.dag.shaped.addVertex hadd
  have hm₁ : Move env.cfg env.me _ _ := .genesis hmem h0 hadd
  have hhas₁ : dag.Has v := (hA.has_iff hG.vertices hG.sound.dag hmem).mpr (.inl rfl)
  have hm₂ : Move env.cfg env.me { w with state := { w.state with dag } } _ :=
    .receive hmem (.inr (.inr (.inl hhas₁)))
  have hS₁ : Settled env.cfg.procNum but dag := by
    refine (hS.added hG.vertices hG.sound.dag hA hmem).narrow fun a b hC _ hb hno => ?_
    obtain rfl := hb.resolve_right hno
    have := hC.round
    omega
  exact Settled.tryAdvanceRound hS₁ ((hG.move hm₁).move hm₂) h

theorem Settled.onVertex (hS : Settled env.cfg.procNum but w.state.dag)
    (hG : Good env.cfg env.me w) (hmem : v ∈ w.shared.created) (h0 : v.round ≠ 0)
    (h : Bullshark.onVertex env v w = some w') : Settled env.cfg.procNum but w'.state.dag := by
  obtain ⟨w₂, added, w₃, htry, hadd, hgo⟩ := onVertex_parts h
  have hm₁ : Move env.cfg env.me w (forgetCommands v w) := .forget hmem
  have hG₁ := hG.move hm₁
  have hbuffered : ∀ u ∈ w.state.buffer.insertionSort fun a b => a.round ≤ b.round,
      u ∈ w.shared.created ∧ u.round ≠ 0 := fun u hu =>
    hG.sound.buffered u ((List.mem_insertionSort _).mp hu)
  have hm₂ := tryAll_moves hG₁ hbuffered htry
  have hG₂ := hG₁.moves hm₂
  have hS₂ : Settled env.cfg.procNum but w₂.state.dag :=
    Settled.tryAll (w := forgetCommands v w) hS hG₁ hbuffered htry
  obtain ⟨hm₃, htaken, hheld⟩ := tryAddToDag_moves hG₂ (hm₂.created hmem) h0 hadd
  have hG₃ := hG₂.moves hm₃
  have hmem₃ := hm₃.created (hm₂.created hmem)
  have hS₃ := hS₂.tryAddToDag hG₂ (hm₂.created hmem) hadd
  have hm₄ : Moves env.cfg env.me w₃ (keepInBuffer v added w₃) := keepInBuffer_moves hmem₃ hheld
  have hm₅ : Move env.cfg env.me _ _ :=
    .receive (hm₄.created hmem₃) (hG₃.mem_keepInBuffer hmem₃ htaken)
  have hS₄ : Settled env.cfg.procNum but (receive v (keepInBuffer v added w₃)).state.dag := by
    cases added <;> exact hS₃
  unfold goOn at hgo
  split at hgo
  · cases hgo
    exact hS₄
  · obtain ⟨may, -, hgo⟩ := Option.bind_eq_some_iff.mp hgo
    split at hgo
    · exact hS₄.tryAdvanceRound ((hG₃.moves hm₄).move hm₅) hgo
    · cases hgo
      exact hS₄

end

/-! ## Runs -/

section

variable {cfg : Config} {c : System} {p : Pid} {s : Bullshark} {w' : Work}

theorem Does.settled {out : Option (Pid × VertexMessage)} (hd : Does cfg p s out w')
    (hS : Settled cfg.procNum (fun _ => False) s.dag) :
    Settled cfg.procNum (fun _ => False) w'.state.dag := by
  cases hd with
  | start hnew =>
    rw [hnew.dag]
    exact .of_empty
  | idle hstill => exact hstill.dag ▸ hS
  | @timeout env w _ hcfg hme hG hstate h =>
    subst hcfg hme
    exact Settled.tryAdvanceRound (by rw [hstate]; exact hS) hG h
  | @genesis env w _ v hcfg hme hG hstill hmem h0 h =>
    subst hcfg hme
    exact Settled.onGenesis (hstill.dag ▸ hS) hG hmem h0 h
  | @vertex env w _ v hcfg hme hG hstill hmem h0 h =>
    subst hcfg hme
    exact Settled.onVertex (hstill.dag ▸ hS) hG hmem h0 h

theorem Settled.of_reachable (h : c.Reachable cfg) (p : Pid) :
    Settled cfg.procNum (fun _ => False) (c.replicas p).dag := by
  refine h.invariant (I := fun c => ∀ p, Settled cfg.procNum (fun _ => False) (c.replicas p).dag)
    (fun p => .of_empty (k := 0)) (fun c a c' hr _ hS hs p => ?_) p
  obtain ⟨q, w', ⟨hstate, hothers⟩, hd⟩ := (Invariant.of_reachable hr).does hs
  by_cases hp : p = q
  · subst hp
    rw [hstate]
    exact hd.settled (hS p)
  · rw [hothers p hp]
    exact hS p

end


/-! ## With nothing in flight -/

section

variable {cfg : Config} {c : System} {p q : Pid} {a b : Vertex}

theorem Invariant.replay (hI : Invariant cfg c) (p : Pid) :
    Replay (c.replicas p).history.anchors (c.replicas p).history.output := by
  by_cases hp : p ∈ c.started
  · exact (hI.sound p hp).replay
  · rw [hI.idle p hp]
    exact .nil

theorem Invariant.of_done (hI : Invariant cfg c) {k : ℕ × Pid}
    (h : (c.replicas p).dag.done k = true) :
    (c.replicas p).history.output ≠ [] ∧ k.1 ≤ (c.replicas p).dag.gcOffset := by
  by_cases hp : p ∈ c.started
  · have hS := hI.sound p hp
    obtain ⟨v, hv, rfl⟩ := (hS.marks k (le_of_done h)).mp h
    exact ⟨List.ne_nil_of_mem hv, hS.offset ▸ (hS.output v hv).2⟩
  · rw [hI.idle p hp] at h
    have hnone : Bullshark.default.dag.done k = false := done_default 0 k
    rw [hnone] at h
    cases h

variable (h : c.Reachable cfg) (hquiet : c.network = [])

include h hquiet

/-- **What any vertex commits has been ordered**, or lies below the bound. -/
theorem ordered_of_quiet (hp : p ∈ cfg.pool) (hnone : ∀ u, ¬ Stranded (c.replicas p) u)
    (hb : b ∈ c.shared.created) (hC : DirectCommit cfg.procNum a b) :
    a.round < (c.replicas p).dag.gcOffset ∨ (c.replicas p).dag.done a.key = true := by
  have hI := Invariant.of_reachable h
  have hall : ∀ v ∈ c.shared.created, v ∈ (c.replicas p).history.received := fun v hv =>
    (Spread.of_reachable h).received hI hquiet hp hv
  have hs : p ∈ c.started := by
    by_contra hs
    have hin := hall b hb
    rw [hI.idle p hs] at hin
    cases hin
  by_cases hlt : (c.replicas p).dag.gcOffset < b.round
  · refine (Settled.of_reachable h p).done a b hC ?_ not_false
    exact ((Received.of_reachable h p).has_iff hI.vertices (hI.sound p hs).dag hall hb hlt).mpr
      fun u _ => hnone u
  · have := hC.round
    exact .inl (by omega)

theorem offset_le_of_quiet (hq : q ∈ cfg.pool) (hnone : ∀ u, ¬ Stranded (c.replicas q) u) :
    (c.replicas p).dag.gcOffset ≤ (c.replicas q).dag.gcOffset := by
  have hI := Invariant.of_reachable h
  rcases (Settled.of_reachable h p).top with ⟨h0, -⟩ | ⟨a, b, hC, hb, hround⟩
  · exact h0 ▸ Nat.zero_le _
  · rw [← hround]
    rcases ordered_of_quiet h hquiet hq hnone (hI.stored hb).1 hC with hlt | hdone
    · exact hlt.le
    · exact (hI.of_done hdone).2

theorem output_ne_nil_of_quiet (hq : q ∈ cfg.pool) (hnone : ∀ u, ¬ Stranded (c.replicas q) u)
    (hoffset : (c.replicas q).dag.gcOffset = 0) (hp : (c.replicas p).history.output ≠ []) :
    (c.replicas q).history.output ≠ [] := by
  have hI := Invariant.of_reachable h
  have hs : p ∈ c.started := by
    by_contra hs
    rw [hI.idle p hs] at hp
    exact hp rfl
  have hS := hI.sound p hs
  have hle := offset_le_of_quiet h hquiet (p := p) hq hnone
  rcases (Settled.of_reachable h p).top with ⟨-, hnothing⟩ | ⟨a, b, hC, hb, hround⟩
  · obtain ⟨v, hv⟩ := List.exists_mem_of_ne_nil _ hp
    have hdone := (hS.marks v.key (by omega)).mpr ⟨v, hv, rfl⟩
    rw [hnothing] at hdone
    cases hdone
  · rcases ordered_of_quiet h hquiet hq hnone (hI.stored hb).1 hC with hlt | hdone
    · omega
    · exact (hI.of_done hdone).1

end

/-! ## Two logs -/

/-- The logs begin with the same anchor if one begins in round 0, and what lies between the
offsets of a common anchor has been reached before. -/
structure Alike (log log' : List (Vertex × ℕ)) : Prop where
  ground : ∀ v, v.round = 0 → ((∃ o, (v, o) ∈ log) ↔ ∃ o, (v, o) ∈ log')
  covered : ∀ a o o', (a, o) ∈ log → (a, o') ∈ log' → Covered log a o o' ∧ Covered log' a o' o

/-- The anchors are the same, but for those of round 0 with which they begin. -/
def SameAbove (anchors anchors' : List Vertex) : Prop :=
  ∃ ground ground' ps, anchors = ground ++ ps ∧ anchors' = ground' ++ ps ∧
    (∀ v ∈ ground, v.round = 0) ∧ (∀ v ∈ ground', v.round = 0) ∧ ∀ v ∈ ps, 0 < v.round

section

variable {n f o o' : ℕ} {created out : List Vertex} {a last last' : Vertex}
  {log log' : List (Vertex × ℕ)} {anchors anchors' : List Vertex}

theorem SameAbove.filter_eq (h : SameAbove anchors anchors') :
    anchors.filter (0 < ·.round) = anchors'.filter (0 < ·.round) := by
  obtain ⟨ground, ground', ps, rfl, rfl, hground, hground', -⟩ := h
  have hnone : ∀ {ground : List Vertex}, (∀ v ∈ ground, v.round = 0) →
      ground.filter (0 < ·.round) = [] := fun hg =>
    List.filter_eq_nil_iff.mpr fun v hv => by rw [hg v hv]; decide
  rw [List.filter_append, List.filter_append, hnone hground, hnone hground']

theorem Replay.ne_nil (h : Replay log out) (hne : log ≠ []) : out ≠ [] := by
  cases log with
  | nil => exact absurd rfl hne
  | cons x log =>
    obtain ⟨rest, rfl⟩ := Replay.head (a := x.1) (o := x.2) h
    exact List.cons_ne_nil _ _

/-- **Trunks of the same round** differ in the anchor of round 0 only. -/
theorem Trunk.same (hn : n = 3 * f + 1) (hV : Vertices n created)
    (hT : Trunk n created last anchors) (hT' : Trunk n created last' anchors')
    (hround : last.round = last'.round) : SameAbove anchors anchors' := by
  have hU := hT.unmissed hn hV
  have hU' := hT'.unmissed hn hV
  obtain rfl : last = last' := hV.key_inj last' hU'.mem last hU.mem hround
    (hT.source.trans (hround ▸ hT'.source.symm))
  obtain ⟨ground, ps, hlog, hground, hspine⟩ := hT.spine
  obtain ⟨ground', ps', hlog', hground', hspine'⟩ := hT'.spine
  have hpre := hspine.isPrefix hV hU hU' le_rfl hspine'
  have hpre' := hspine'.isPrefix hV hU' hU le_rfl hspine
  obtain rfl : ps = ps' := hpre.eq_of_length_le hpre'.length_le
  exact ⟨ground, ground', ps, hlog, hlog', hground, hground', fun v hv => hspine.pos hv⟩

theorem Logged.same {s s' : Bullshark} (hL : Logged n created s) (hn : n = 3 * f + 1)
    (hV : Vertices n created) (hL' : Logged n created s')
    (hoffset : s.dag.gcOffset = s'.dag.gcOffset)
    (hne : s.dag.gcOffset = 0 → s.history.output ≠ [] → s'.history.output ≠ [])
    (hne' : s'.dag.gcOffset = 0 → s'.history.output ≠ [] → s.history.output ≠ [])
    (h : Replay s.history.anchors s.history.output)
    (h' : Replay s'.history.anchors s'.history.output) :
    SameAbove (s.history.anchors.map Prod.fst) (s'.history.anchors.map Prod.fst) := by
  have hlast : ∀ {s : Bullshark} {last : Vertex}, last ∈ s.history.anchors.map Prod.fst →
      Replay s.history.anchors s.history.output → s.history.output ≠ [] := fun hin h => by
    obtain ⟨x, hx, -⟩ := List.mem_map.mp hin
    exact h.ne_nil (List.ne_nil_of_mem hx)
  rcases hL.trunk with ⟨hnil, h0⟩ | ⟨last, hround, hT⟩
  · rcases hL'.trunk with ⟨hnil', -⟩ | ⟨last', hround', hT'⟩
    · rw [hnil, hnil']
      exact ⟨[], [], [], rfl, rfl, List.forall_mem_nil _, List.forall_mem_nil _,
        List.forall_mem_nil _⟩
    · exact absurd (hnil ▸ h).of_nil (hne' (hoffset.symm.trans h0) (hlast hT'.mem h'))
  · rcases hL'.trunk with ⟨hnil', h0'⟩ | ⟨last', hround', hT'⟩
    · exact absurd (hnil' ▸ h').of_nil (hne (hoffset.trans h0') (hlast hT.mem h))
    · exact hT.same hn hV hT' (hround.trans (hoffset.trans hround'.symm))

theorem Rising.map_eq (hR : Rising created log) (hR' : Rising created log')
    (hg : ∀ v, v.round = 0 → ((∃ o, (v, o) ∈ log) ↔ ∃ o, (v, o) ∈ log'))
    (hsame : SameAbove (log.map Prod.fst) (log'.map Prod.fst)) :
    log.map Prod.fst = log'.map Prod.fst := by
  obtain ⟨ground, ground', ps, hlog, hlog', hground, hground', hps⟩ := hsame
  have hmem : ∀ {log : List (Vertex × ℕ)} {ground : List Vertex} {v : Vertex},
      log.map Prod.fst = ground ++ ps → v.round = 0 → (v ∈ ground ↔ ∃ o, (v, o) ∈ log) := by
    intro log ground v hlog h0
    have hiff : v ∈ ground ↔ v ∈ ground ++ ps :=
      ⟨List.mem_append_left _, fun hv => (List.mem_append.mp hv).resolve_right fun hv =>
        (hps v hv).ne' h0⟩
    rw [hiff, ← hlog]
    exact List.mem_map.trans ⟨fun ⟨x, hx, he⟩ => ⟨x.2, he ▸ hx⟩, fun ⟨o, ho⟩ => ⟨_, ho, rfl⟩⟩
  have heq : ground = ground' := hR.ground_eq hR' hlog hlog' fun v => by
    by_cases h0 : v.round = 0
    · rw [hmem hlog h0, hmem hlog' h0]
      exact hg v h0
    · exact iff_of_false (fun hv => h0 (hground v hv)) fun hv => h0 (hground' v hv)
  rw [hlog, hlog', heq]

theorem Replay.covered (h : Replay log out) (hV : Vertices n created) (hR : Rising created log)
    (hR' : Rising created log') (h' : Replay log' out)
    (hlog : log.map Prod.fst = log'.map Prod.fst) (ha : (a, o) ∈ log) (ha' : (a, o') ∈ log') :
    Covered log a o o' := by
  intro u hau hle hlt
  have hu : u ∈ out := (h.contains hV hR).1 _ ha u hau hle
  obtain ⟨x, hx, hxle, hxu⟩ := h'.source hR' hu
  have hxa := hR'.round_lt_of_offset_lt ha' hx (hxle.trans_lt hlt)
  obtain ⟨y, hy, heq⟩ := List.mem_map.mp (hlog ▸ List.mem_map.mpr ⟨x, hx, rfl⟩)
  exact ⟨y, hy, heq ▸ hxa, heq ▸ hxu⟩

/-- **Logs with the same output are alike.** -/
theorem Alike.of_replay (hV : Vertices n created) (hR : Rising created log)
    (hR' : Rising created log') (h : Replay log out) (h' : Replay log' out)
    (hsame : SameAbove (log.map Prod.fst) (log'.map Prod.fst)) : Alike log log' := by
  have hfirst : ∀ {log log' : List (Vertex × ℕ)}, Rising created log → Replay log out →
      Replay log' out → ∀ v, v.round = 0 → (∃ o, (v, o) ∈ log) → ∃ o, (v, o) ∈ log' :=
    fun hR h h' v h0 ⟨o, hv⟩ => Comparable.ground (.inl List.prefix_rfl) hR h h' (v, o) hv h0
      fun hnil => h.ne_nil (List.ne_nil_of_mem hv) (hnil ▸ h').of_nil
  have hg : ∀ v, v.round = 0 → ((∃ o, (v, o) ∈ log) ↔ ∃ o, (v, o) ∈ log') := fun v h0 =>
    ⟨hfirst hR h h' v h0, hfirst hR' h' h v h0⟩
  have hmap := hR.map_eq hR' hg hsame
  exact ⟨hg, fun a o o' ha ha' => ⟨h.covered hV hR hR' h' hmap ha ha',
    h'.covered hV hR' hR h hmap.symm ha' ha⟩⟩

end

/-- **The outputs converge.** With nothing in flight, at replicas that leave nothing in their
buffers, no vertex that was created commits an anchor above the bound. They have the same
bound and the same anchors above round 0, and the same output if and only if their logs
are alike. -/
theorem outputs_converge (f submitLimit : ℕ) (c : System)
    (h : c.Reachable ⟨3 * f + 1, submitLimit⟩) (hquiet : c.network = []) (p q : Pid)
    (hp : p < 3 * f + 1) (hq : q < 3 * f + 1) (hnp : ∀ u, ¬ Stranded (c.replicas p) u)
    (hnq : ∀ u, ¬ Stranded (c.replicas q) u) :
    (∀ a b, b ∈ c.shared.created → DirectCommit (3 * f + 1) a b →
        a.round ≤ (c.replicas p).dag.gcOffset) ∧
      (c.replicas p).dag.gcOffset = (c.replicas q).dag.gcOffset ∧
      ((c.replicas p).history.anchors.map Prod.fst).filter (0 < ·.round) =
        ((c.replicas q).history.anchors.map Prod.fst).filter (0 < ·.round) ∧
      ((c.replicas p).history.output = (c.replicas q).history.output ↔
        Alike (c.replicas p).history.anchors (c.replicas q).history.anchors) := by
  have hI := Invariant.of_reachable h
  have hV : Vertices (3 * f + 1) c.shared.created := hI.vertices
  have hp : p ∈ Config.pool ⟨3 * f + 1, submitLimit⟩ := mem_pool.mpr hp
  have hq : q ∈ Config.pool ⟨3 * f + 1, submitLimit⟩ := mem_pool.mpr hq
  have hoffset : (c.replicas p).dag.gcOffset = (c.replicas q).dag.gcOffset :=
    (offset_le_of_quiet h hquiet hq hnq).antisymm (offset_le_of_quiet h hquiet hp hnp)
  have hLp := Logged.of_reachable h p
  have hLq := Logged.of_reachable h q
  have hsame := hLp.same rfl hV hLq hoffset
    (fun h0 hne => output_ne_nil_of_quiet h hquiet hq hnq (hoffset.symm.trans h0) hne)
    (fun h0 hne => output_ne_nil_of_quiet h hquiet hp hnp (hoffset.trans h0) hne)
    (hI.replay p) (hI.replay q)
  refine ⟨fun a b hb hC => ?_, hoffset, hsame.filter_eq, fun heq => ?_, fun hA => ?_⟩
  · rcases ordered_of_quiet h hquiet hp hnp hb hC with hlt | hdone
    · exact hlt.le
    · exact (hI.of_done hdone).2
  · have hreplay := hI.replay q
    rw [← heq] at hreplay
    exact .of_replay hV hLp.rising hLq.rising (hI.replay p) hreplay hsame
  · have hmap := hLp.rising.map_eq hLq.rising hA.ground hsame
    exact (hI.replay p).same hV (hI.replay q) hLp.rising hLq.rising hmap hA.covered

/-- Seven replicas, whose leader of round 6 does not exist. What replica 1 sends to replica 5
comes last; when everything has been delivered all of them have ordered eleven vertices. -/
theorem outputs_converge_seven : ∃ c : System, c.Reachable ⟨7, 0⟩ ∧ c.network = [] ∧
    (c.replicas 0).dag.gcOffset = 2 ∧ (c.replicas 0).history.output.length = 11 ∧
    (c.replicas 5).history.output = (c.replicas 0).history.output := by
  let cfg : Config := ⟨7, 0⟩
  let phases : List Phase := [.start cfg, .deliver (fun x => x.src != 1 || x.dst != 5) 1500,
    .deliver (fun _ => true) 1500]
  have hrun : (run cfg phases System.init).any (fun c =>
      c.network.isEmpty && decide ((c.replicas 0).dag.gcOffset = 2) &&
        decide ((c.replicas 0).history.output.length = 11) &&
        sameStart c 5 0 && sameStart c 0 5 && [0, 5].all fun p =>
          (c.replicas p).buffer.isEmpty && !(c.replicas p).history.anchors.isEmpty &&
            (c.replicas p).history.anchors.all fun x => x.2 == 0) = true := by
    decide +kernel
  obtain ⟨c, hc, hd⟩ := (Option.any_eq_true _ _).mp hrun
  simp only [Bool.and_eq_true, List.isEmpty_iff, decide_eq_true_eq, List.all_cons, List.all_nil,
    and_true, Bool.not_eq_true', List.isEmpty_eq_false_iff, List.all_eq_true, beq_iff_eq] at hd
  obtain ⟨⟨⟨⟨⟨hquiet, hoffset⟩, hlength⟩, hsame⟩, hsame'⟩, ⟨⟨hb, hne⟩, hzero⟩,
    ⟨hb', hne'⟩, hzero'⟩ := hd
  have hreach := reachable_run .init hc
  have hU := uniform_of_sameStart (f := 2) hreach hsame
  have hU' := uniform_of_sameStart (f := 2) hreach hsame'
  have hnone : ∀ {s : Bullshark}, s.buffer = [] → ∀ u, ¬ Stranded s u := fun h u hu => by
    rw [Stranded, h] at hu
    exact List.not_mem_nil hu.1
  have hcovered : ∀ {log : List (Vertex × ℕ)} {a : Vertex} {o : ℕ}, Covered log a o 0 :=
    fun u _ _ hlt => absurd hlt (Nat.not_lt_zero _)
  refine ⟨c, hreach, hquiet, hoffset, hlength, ?_⟩
  refine (outputs_converge 2 0 c hreach hquiet 5 0 (by decide) (by decide) (hnone hb')
    (hnone hb)).2.2.2.mpr ⟨fun v h0 => ⟨?_, ?_⟩, fun a o o' ha ha' => ?_⟩
  · rintro ⟨o, hv⟩
    exact hU.ground _ hv h0 hne
  · rintro ⟨o, hv⟩
    exact hU'.ground _ hv h0 hne'
  · rw [show o = 0 from hzero' _ ha, show o' = 0 from hzero _ ha']
    exact ⟨hcovered, hcovered⟩

end Blsmr.Bullshark
