import Blsmr.Bullshark.Search

/-!
# Ordering the anchors

`Backward` is the walk of `order_anchors` without the DAG it is made in: at each
round it pushes the vertex of the leader if that can be reached. `Replay` is what
`order_from` does for one anchor after the other. A replica whose DAG is causally
closed walks and orders in this way (`Ready.orderAnchors`), and does not panic.
-/

namespace Blsmr.Bullshark

open Blsmr.Graph Bfs RoundBasedDAG

/-- `get_leader_id`. -/
def leader (n round : ℕ) : Pid := round % n + 1

/-- The walk back from an anchor to round `last`, lowest anchor first. -/
inductive Backward (n last : ℕ) : ℕ → Vertex → List Vertex → Prop
  | stop {round : ℕ} {anchor : Vertex} (h : round ≤ last) : Backward n last round anchor []
  | skip {round : ℕ} {anchor : Vertex} {pushed : List Vertex} (h : last < round + 2)
      (hno : ∀ v, v.round = round + 2 → v.source = leader n (round + 2) → ¬ anchor.Reaches v)
      (hw : Backward n last round anchor pushed) : Backward n last (round + 2) anchor pushed
  | push {round : ℕ} {anchor v : Vertex} {pushed : List Vertex} (h : last < round + 2)
      (hround : v.round = round + 2) (hsource : v.source = leader n (round + 2))
      (hreach : anchor.Reaches v) (hw : Backward n last round v pushed) :
      Backward n last (round + 2) anchor (pushed ++ [v])

/-- What is ordered for a log of anchors with the offsets at which they were ordered. -/
inductive Replay : List (Vertex × ℕ) → List Vertex → Prop
  | nil : Replay [] []
  | snoc {log : List (Vertex × ℕ)} {out segment : List Vertex} {anchor : Vertex} {offset : ℕ}
      (h : Replay log out) (hfresh : ¬ ∃ v ∈ out, v.key = anchor.key)
      (ht : Traverse Vertex.key (keptEdges offset) (fun k => ∃ v ∈ out, v.key = k) [anchor]
        segment) : Replay (log ++ [(anchor, offset)]) (out ++ segment)

section Backward

variable {n last round : ℕ} {anchor v : Vertex} {pushed : List Vertex}

theorem Backward.mem (h : Backward n last round anchor pushed) (hv : v ∈ pushed) :
    last < v.round ∧ v.round ≤ round ∧ v.source = leader n v.round ∧ anchor.Reaches v := by
  induction h with
  | stop => cases hv
  | skip _ _ _ ih =>
    obtain ⟨h₁, h₂, h₃⟩ := ih hv
    exact ⟨h₁, by omega, h₃⟩
  | push hlt hround hsource hreach _ ih =>
    rcases List.mem_append.mp hv with hv | hv
    · obtain ⟨h₁, h₂, h₃, h₄⟩ := ih hv
      exact ⟨h₁, by omega, h₃, hreach.trans h₄⟩
    · cases List.mem_singleton.mp hv
      exact ⟨by omega, by omega, hround ▸ hsource, hreach⟩

theorem Backward.increasing (h : Backward n last round anchor pushed) :
    pushed.Pairwise fun u v => u.round < v.round := by
  induction h with
  | stop => exact .nil
  | skip _ _ _ ih => exact ih
  | push _ hround _ _ hw ih =>
    refine List.pairwise_append.mpr ⟨ih, List.pairwise_singleton _ _, fun u hu v hv => ?_⟩
    cases List.mem_singleton.mp hv
    have := (hw.mem hu).2.1
    omega

theorem Backward.increasing_snoc (h : Backward n last (anchor.round - 2) anchor pushed) :
    (pushed ++ [anchor]).Pairwise fun u v => u.round < v.round := by
  refine List.pairwise_append.mpr ⟨h.increasing, List.pairwise_singleton _ _, fun u hu v hv => ?_⟩
  cases List.mem_singleton.mp hv
  have := h.mem hu
  omega

theorem Backward.round_le (h : Backward n last (anchor.round - 2) anchor pushed)
    (hv : v ∈ pushed ++ [anchor]) : v.round ≤ anchor.round := by
  rcases List.mem_append.mp hv with hv | hv
  · have := (h.mem hv).2.1
    omega
  · exact List.mem_singleton.mp hv ▸ Nat.le_refl _

theorem Backward.nil_of_le (h : Backward n last round anchor pushed) (hle : round ≤ last) :
    pushed = [] := by
  cases h with
  | stop => rfl
  | skip => omega
  | push => omega

end Backward

/-! ## The walk of a replica -/

/-- **A replica that can order.** Its DAG is causally closed, above a bound that is the
round of the last anchor; the marks are those of the vertices in the output. -/
structure Ready (n : ℕ) (created : List Vertex) (s : Bullshark) : Prop where
  procNum : s.procNum = n
  dag : Causal n created s.dag
  offset : s.lastOrderedRound = s.dag.gcOffset
  even : s.dag.gcOffset % 2 = 0
  stack : s.orderedAnchors = []
  marks : ∀ k, s.dag.gcOffset ≤ k.1 →
    (s.dag.done k = true ↔ ∃ v ∈ s.history.output, v.key = k)
  output : ∀ v ∈ s.history.output, v ∈ created ∧ v.round ≤ s.lastOrderedRound
  replay : Replay s.history.anchors s.history.output

/-- What the walk notes of a round. -/
structure Faithful (n : ℕ) (created : List Vertex) (x : Visit) : Prop where
  anchor_mem : x.anchor ∈ created
  round : x.round + 2 ≤ x.anchor.round
  pushes : ∀ v, v.round = x.round → v.source = leader n x.round → x.anchor.Reaches v →
    x.found = some v ∧ x.linked = true ∧ x.pushed = [v]

section

variable {n : ℕ} {created : List Vertex} {s : Bullshark} {alive : Vertex → Bool}

theorem getLeaderId_eq (hn : s.procNum = n) (round : ℕ) : s.getLeaderId round = leader n round := by
  unfold getLeaderId leader
  rw [hn]

theorem leader_le (hn : 0 < n) (round : ℕ) : leader n round ≤ n :=
  Nat.succ_le_of_lt (Nat.mod_lt round hn)

theorem inDag_of_has {v : Vertex} (h : s.dag.Has v) : s.inDag v = true := by
  unfold inDag
  rw [vertexAt_eq_some.mp h]
  exact sameVertex_self v

theorem alive_of_has {env : Env} {v : Vertex} (h : s.dag.Has v) : s.alive env v = true := by
  unfold Bullshark.alive holds
  rw [inDag_of_has h]
  simp

variable (hV : Vertices n created)

include hV

theorem Vertices.pos {v : Vertex} (hv : v ∈ created) : 0 < n :=
  Nat.zero_lt_of_lt (hV.source_lt v hv)

theorem getAnchor_eq (hd : Causal n created s.dag) (hn : s.procNum = n) {x : Vertex}
    (hx : s.dag.Has x) {round : ℕ} (hle : s.dag.gcOffset ≤ round) (hlt : round ≤ x.round) :
    s.getAnchor round = some (s.dag.vertexAt round (leader n round)) := by
  unfold getAnchor
  rw [getLeaderId_eq hn]
  refine hd.shaped.slot_of_within ⟨hle, ?_, leader_le (hV.pos (hd.mem hx)) round⟩
  have := (hd.within hx).2.1
  omega

/-- What the walk leaves behind. -/
structure Walked (n : ℕ) (created : List Vertex) (round : ℕ) (anchor : Vertex) (s : Bullshark)
    (d : RoundBasedDAG) (pushed : List Vertex) (visits : List Visit) : Prop where
  silent : Silent n s.dag d
  backward : Backward n s.lastOrderedRound round anchor pushed
  pushed_has : ∀ v ∈ pushed, s.dag.Has v
  faithful : ∀ x ∈ visits, Faithful n created x

/-- What one turn of the walk does: the vertex of the leader is pushed if it is reached. -/
structure Turned (n : ℕ) (created : List Vertex) (round : ℕ) (anchor : Vertex) (s : Bullshark)
    (next : Vertex) (d : RoundBasedDAG) (pushed : List Vertex) (visit : Visit) : Prop where
  silent : Silent n s.dag d
  next_has : s.dag.Has next
  next_round : round + 2 ≤ next.round
  pushed_has : ∀ v ∈ pushed, s.dag.Has v
  faithful : Faithful n created visit
  backward : ∀ ps, Backward n s.lastOrderedRound round next ps →
    Backward n s.lastOrderedRound (round + 2) anchor (ps ++ pushed)

theorem walk_turn (halive : ∀ v, s.dag.Has v → alive v = true) (hn : s.procNum = n)
    (hd : Causal n created s.dag) (hoffset : s.lastOrderedRound = s.dag.gcOffset) {round : ℕ}
    {anchor : Vertex} (ha : s.dag.Has anchor) (hlt : s.lastOrderedRound < round + 2)
    (hle : round + 2 + 2 ≤ anchor.round) :
    ∃ next d pushed visit, walk alive (round + 2) anchor s = walk alive round next { s with
        dag := d
        orderedAnchors := pushed ++ s.orderedAnchors
        history := { s.history with visits := visit :: s.history.visits } } ∧
      Turned n created round anchor s next d pushed visit := by
  have hwalk : walk alive (round + 2) anchor s = _ := if_pos hlt
  rw [getAnchor_eq hV hd hn ha (by omega) (by omega), Option.bind_eq_bind,
    Option.bind_some] at hwalk
  cases hat : s.dag.vertexAt (round + 2) (leader n (round + 2)) with
  | none =>
    have hno : ∀ v, v.round = round + 2 → v.source = leader n (round + 2) →
        ¬ anchor.Reaches v := fun v hr hs hreach => by
      have := (hd.linked hV).has_of_reaches ha hreach (by omega)
      rw [Has, hr, hs, hat] at this
      cases this
    rw [hat] at hwalk
    refine ⟨anchor, s.dag, [], _, hwalk, .refl hd.shaped, ha, by omega, List.forall_mem_nil _,
      ⟨hd.mem ha, hle, fun v hr hs hreach => absurd hreach (hno v hr hs)⟩, fun ps hps => ?_⟩
    rw [List.append_nil]
    exact .skip hlt hno hps
  | some previous =>
    obtain ⟨hmem, hr, hs⟩ := hd.stored _ _ _ hat
    have hp : s.dag.Has previous := hd.has hat
    obtain ⟨linked, d₁, hpath, hsil, hiff⟩ := (hd.linked hV).pathExists halive ha hp
    have honly : ∀ v, v.round = round + 2 → v.source = leader n (round + 2) →
        anchor.Reaches v → v = previous := fun v hvr hvs hreach =>
      hV.key_inj previous hmem v (hV.reaches_mem (hd.mem ha) hreach).1 (hvr.trans hr.symm)
        (hvs.trans hs.symm)
    rw [hat] at hwalk
    simp only at hwalk
    rw [hpath, Option.bind_eq_bind, Option.bind_some] at hwalk
    refine ⟨_, _, _, _, hwalk, hsil, ?_, ?_, fun v hv => ?_,
      ⟨hd.mem ha, hle, fun v hvr hvs hreach => ?_⟩, fun ps hps => ?_⟩
    · split
      · exact hp
      · exact ha
    · split <;> omega
    · split at hv
      · exact List.mem_singleton.mp hv ▸ hp
      · cases hv
    · have heq := honly v hvr hvs hreach
      subst heq
      have hl := hiff.mpr hreach
      exact ⟨rfl, hl, if_pos hl⟩
    · cases linked with
      | true => exact .push hlt hr hs (hiff.mp rfl) hps
      | false =>
        rw [if_neg Bool.false_ne_true, List.append_nil]
        exact .skip hlt (fun v hvr hvs hreach =>
          absurd (hiff.mpr (honly v hvr hvs hreach ▸ hreach)) Bool.false_ne_true) hps

/-- **The walk of a replica** goes back as the created vertices say. -/
theorem walk_spec (halive : ∀ v, s.dag.Has v → alive v = true) (hn : s.procNum = n)
    (hd : Causal n created s.dag) (hoffset : s.lastOrderedRound = s.dag.gcOffset)
    {round : ℕ} (heven : round % 2 = 0) {anchor : Vertex} (ha : s.dag.Has anchor)
    (hround : s.lastOrderedRound < round → round + 2 ≤ anchor.round) :
    ∃ d pushed visits, walk alive round anchor s = some { s with
        dag := d
        orderedAnchors := pushed ++ s.orderedAnchors
        history := { s.history with visits := visits ++ s.history.visits } } ∧
      Walked n created round anchor s d pushed visits := by
  induction round using Nat.twoStepInduction generalizing anchor s with
  | zero =>
    exact ⟨s.dag, [], [], rfl, .refl hd.shaped, .stop (Nat.zero_le _),
      List.forall_mem_nil _, List.forall_mem_nil _⟩
  | one => omega
  | more round ih =>
    by_cases hlt : s.lastOrderedRound < round + 2
    · obtain ⟨next, d₁, pushed₁, visit, hturn, hT⟩ :=
        walk_turn hV halive hn hd hoffset ha hlt (hround hlt)
      have hhas : ∀ v, d₁.Has v ↔ s.dag.Has v := fun v => hT.silent.has
      obtain ⟨d, pushed, visits, he, hW⟩ := ih (s := { s with
          dag := d₁
          orderedAnchors := pushed₁ ++ s.orderedAnchors
          history := { s.history with visits := visit :: s.history.visits } })
        (fun v hv => halive v ((hhas v).mp hv)) hn (hd.silent hT.silent)
        (hoffset.trans hT.silent.gcOffset.symm) (by omega) ((hhas next).mpr hT.next_has)
        fun _ => hT.next_round
      refine ⟨d, pushed ++ pushed₁, visits ++ [visit], ?_, hT.silent.trans hW.silent,
        hT.backward pushed hW.backward, ?_, ?_⟩
      · rw [hturn, he]
        simp only [List.append_assoc, List.singleton_append]
      · exact List.forall_mem_append.mpr ⟨fun v hv => (hhas v).mp (hW.pushed_has v hv),
          hT.pushed_has⟩
      · exact List.forall_mem_append.mpr ⟨hW.faithful, List.forall_mem_singleton.mpr hT.faithful⟩
    · have hstop : walk alive (round + 2) anchor s = some s := if_neg hlt
      exact ⟨s.dag, [], [], hstop, .refl hd.shaped, .stop (by omega),
        List.forall_mem_nil _, List.forall_mem_nil _⟩

/-! ## Ordering the stack -/

/-- What `order_from` does for the anchors on the stack. -/
structure Ordered (n : ℕ) (created stack : List Vertex) (d : RoundBasedDAG)
    (output : List Vertex) (anchors : List (Vertex × ℕ)) (d' : RoundBasedDAG) (out : List Vertex)
    (fresh : List (Vertex × ℕ)) : Prop where
  settled : Settled n out d d'
  replay : Replay (anchors ++ fresh) (output ++ out)
  out_mem : ∀ v ∈ out, v ∈ created ∧ ∃ a ∈ stack, v.round ≤ a.round
  above : stack.Pairwise (fun a b => a.round < b.round) →
    (∀ a ∈ stack, ¬ ∃ v ∈ output, v.key = a.key) → fresh = stack.map fun a => (a, d.gcOffset)
  again : (∀ a ∈ stack, ∃ v ∈ output, v.key = a.key) → fresh = [] ∧ out = []

theorem orderFrom_replay {d : RoundBasedDAG} (hd : Causal n created d)
    (halive : ∀ v, d.Has v → alive v = true) {commits : Commits} {output : List Vertex}
    {anchors : List (Vertex × ℕ)} (hreplay : Replay anchors output)
    (hmarks : ∀ k, d.gcOffset ≤ k.1 → (d.done k = true ↔ ∃ v ∈ output, v.key = k))
    {a : Vertex} (ha : d.Has a) :
    ∃ out d', RoundBasedDAG.orderFrom alive a ⟨d, commits, output⟩ =
        some ⟨d', out.foldl (fun c v => c.count v) commits, output ++ out⟩ ∧
      Ordered n created [a] d output anchors d' out
        (if d.done a.key then [] else [(a, d.gcOffset)]) := by
  obtain ⟨out, d', he, hS, hT⟩ := hd.orderFrom hV halive ha
  have hle := (hd.within ha).1
  have hmem : ∀ v ∈ out, d.Has v ∧ v.round ≤ a.round := by
    refine hT.subset (fun x hx y hy => ?_) fun x hx => ?_
    · have := (hV.edge x (hd.mem hx.1) y (mem_keptEdges.mp hy).1).2
      exact ⟨(hd.linked hV).has_keptEdges hx.1 hy, by omega⟩
    · cases List.mem_singleton.mp hx
      exact ⟨ha, Nat.le_refl _⟩
  have hold : d.done a.key = true → out = [] := fun hdone =>
    hT.unique (.skip hdone .nil)
  refine ⟨out, d', he, hS, ?_, fun v hv => ⟨hd.mem (hmem v hv).1, a, List.mem_singleton_self a,
    (hmem v hv).2⟩, fun _ habove => ?_, fun hagain => ?_⟩
  · cases hdone : d.done a.key with
    | true =>
      rw [hold hdone, if_pos rfl, List.append_nil, List.append_nil]
      exact hreplay
    | false =>
      rw [if_neg Bool.false_ne_true]
      refine .snoc hreplay (fun h => ?_) ?_
      · rw [(hmarks a.key hle).mpr h] at hdone
        cases hdone
      · refine hT.congr (S := fun v => d.gcOffset ≤ v.round) (fun x _ y hy => ?_)
          (fun _ _ => rfl) (fun x hx => (hmarks x.key hx).symm) fun x hx => ?_
        · exact (mem_keptEdges.mp hy).2
        · cases List.mem_singleton.mp hx
          exact hle
  · rw [if_neg, List.map_singleton]
    exact fun hdone => habove a (List.mem_singleton_self a) ((hmarks a.key hle).mp hdone)
  · have hdone := (hmarks a.key hle).mpr (hagain a (List.mem_singleton_self a))
    exact ⟨if_pos hdone, hold hdone⟩

/-- **The stack is ordered.** -/
theorem orderAll_spec {d : RoundBasedDAG} (hd : Causal n created d)
    (halive : ∀ v, d.Has v → alive v = true) (commits : Commits) {output : List Vertex}
    {anchors : List (Vertex × ℕ)} (hreplay : Replay anchors output)
    (hmarks : ∀ k, d.gcOffset ≤ k.1 → (d.done k = true ↔ ∃ v ∈ output, v.key = k))
    {stack : List Vertex} (hstack : ∀ a ∈ stack, d.Has a) :
    ∃ out d' fresh, orderAll alive stack ⟨d, commits, output⟩ anchors =
        some (⟨d', out.foldl (fun c v => c.count v) commits, output ++ out⟩, anchors ++ fresh) ∧
      Ordered n created stack d output anchors d' out fresh := by
  induction stack generalizing d commits output anchors with
  | nil =>
    refine ⟨[], d, [], by simp [orderAll], .refl hd.shaped, by simpa using hreplay,
      List.forall_mem_nil _, fun _ _ => rfl, fun _ => ⟨rfl, rfl⟩⟩
  | cons a stack ih =>
    have ha := hstack a List.mem_cons_self
    obtain ⟨out₁, d₁, he₁, hO₁⟩ := orderFrom_replay hV hd halive hreplay hmarks ha
    obtain ⟨out₂, d₂, fresh₂, he₂, hO₂⟩ := ih (hd.settled hO₁.settled)
      (fun v hv => halive v (hO₁.settled.has.mp hv)) _ hO₁.replay (hO₁.settled.marks hmarks)
      (fun b hb => hO₁.settled.has.mpr (hstack b (List.mem_cons_of_mem a hb)))
    refine ⟨out₁ ++ out₂, d₂, (if d.done a.key then [] else [(a, d.gcOffset)]) ++ fresh₂, ?_,
      hO₁.settled.trans hO₂.settled, ?_, fun v hv => ?_, fun hinc habove => ?_, fun hagain => ?_⟩
    · unfold orderAll
      rw [hd.shaped.isOrdered_of_within (hd.within ha), Option.bind_eq_bind, Option.bind_some, he₁]
      simp only [Option.bind_eq_bind, Option.bind_some, List.foldl_append]
      rw [← List.append_assoc output, ← List.append_assoc anchors]
      cases hdone : d.done a.key with
      | true => simpa [hdone] using he₂
      | false => simpa [hdone] using he₂
    · rw [← List.append_assoc, ← List.append_assoc]
      exact hO₂.replay
    · rcases List.mem_append.mp hv with hv | hv
      · obtain ⟨hmem, b, hb, hle⟩ := hO₁.out_mem v hv
        cases List.mem_singleton.mp hb
        exact ⟨hmem, a, List.mem_cons_self, hle⟩
      · obtain ⟨hmem, b, hb, hle⟩ := hO₂.out_mem v hv
        exact ⟨hmem, b, List.mem_cons_of_mem a hb, hle⟩
    · obtain ⟨hlt, hinc⟩ := List.pairwise_cons.mp hinc
      rw [hO₁.above (List.pairwise_singleton _ _) (fun b hb => ?_), hO₂.above hinc ?_,
        hO₁.settled.gcOffset]
      · rfl
      · rintro b hb ⟨v, hv, hk⟩
        rcases List.mem_append.mp hv with hv | hv
        · exact habove b (List.mem_cons_of_mem a hb) ⟨v, hv, hk⟩
        · obtain ⟨-, a', ha', hle⟩ := hO₁.out_mem v hv
          cases List.mem_singleton.mp ha'
          have := hlt b hb
          have := (Vertex.key_eq_iff.mp hk).1
          omega
      · cases List.mem_singleton.mp hb
        exact habove a List.mem_cons_self
    · obtain ⟨h₁, h₁'⟩ := hO₁.again fun b hb => by
        cases List.mem_singleton.mp hb
        exact hagain a List.mem_cons_self
      obtain ⟨h₂, h₂'⟩ := hO₂.again fun b hb => by
        obtain ⟨v, hv, hk⟩ := hagain b (List.mem_cons_of_mem a hb)
        exact ⟨v, List.mem_append_left _ hv, hk⟩
      rw [h₁, h₁', h₂, h₂']
      exact ⟨rfl, rfl⟩

/-! ## `order_anchors` -/

/-- What `order_anchors` does. -/
structure Committed (n : ℕ) (created : List Vertex) (a : Vertex) (s : Bullshark)
    (commits : Commits) (d : RoundBasedDAG) (commits' : Commits) (history : History) : Prop where
  ready : Ready n created { s with
    dag := d, lastOrderedRound := a.round, orderedAnchors := [], history }
  gcOffset : d.gcOffset = a.round
  allocated : d.currentAllocatedRounds = s.dag.currentAllocatedRounds
  vertexAt : ∀ r p, d.vertexAt r p = if a.round ≤ r then s.dag.vertexAt r p else none
  output : ∃ out, history.output = s.history.output ++ out ∧
    commits' = out.foldl (fun c v => c.count v) commits
  visits : ∃ visits, history.visits = visits ++ s.history.visits ∧
    ∀ x ∈ visits, Faithful n created x
  log : (∃ v ∈ s.history.output, v.key = a.key) ∧ a.round = s.lastOrderedRound ∧
      history.anchors = s.history.anchors ∧ history.output = s.history.output ∨
    (¬ ∃ v ∈ s.history.output, v.key = a.key) ∧ ∃ pushed,
      Backward n s.lastOrderedRound (a.round - 2) a pushed ∧
      history.anchors =
        s.history.anchors ++ (pushed ++ [a]).map fun v => (v, s.dag.gcOffset)
  counts : history.counts = s.history.counts
  received : history.received = s.history.received
  thrown : history.thrown = s.history.thrown

section

variable {a : Vertex} {d₁ d₂ : RoundBasedDAG} {stack out pushed : List Vertex}
  {fresh : List (Vertex × ℕ)}

omit hV in
theorem Ordered.gcOffset_gc (hd : Causal n created s.dag) (hsil : Silent n s.dag d₁)
    {output : List Vertex} {anchors : List (Vertex × ℕ)}
    (hO : Ordered n created stack d₁ output anchors d₂ out fresh) (ha : s.dag.Has a) :
    (d₂.gc a.round).gcOffset = a.round := by
  obtain ⟨hle, hlt, -⟩ := hd.within ha
  rw [RoundBasedDAG.gcOffset_gc, hO.settled.gcOffset, hsil.gcOffset]
  · omega
  · rw [hO.settled.allocated, hsil.allocated]
    exact hlt

theorem Ready.ordered (hR : Ready n created s) (hsil : Silent n s.dag d₁) (ha : s.dag.Has a)
    (heven : a.round % 2 = 0) (hround : ∀ v ∈ stack, v.round ≤ a.round)
    (hO : Ordered n created stack d₁ s.history.output s.history.anchors d₂ out fresh)
    {history : History} (houtput : history.output = s.history.output ++ out)
    (hanchors : history.anchors = s.history.anchors ++ fresh) :
    Ready n created { s with
      dag := d₂.gc a.round, lastOrderedRound := a.round, orderedAnchors := [], history } := by
  have hgc := hO.settled.shaped.gc a.round
  have hoff := hO.gcOffset_gc hR.dag hsil ha
  refine ⟨hR.procNum, ((hR.dag.silent hsil).settled hO.settled).collected hV hgc, hoff.symm,
    hoff.symm ▸ heven, rfl, fun k hk => ?_, ?_, ?_⟩ <;> simp only [houtput, hanchors]
  · rw [hgc.done, decide_eq_true hk, Bool.true_and]
    refine hO.settled.marks (fun k hk => ?_) k (hgc.gcOffset.trans hk)
    rw [hsil.done]
    exact hR.marks k (hsil.gcOffset ▸ hk)
  · refine List.forall_mem_append.mpr ⟨fun v hv => ?_, fun v hv => ?_⟩
    · obtain ⟨hmem, hv⟩ := hR.output v hv
      have hle := (hR.dag.within ha).1
      exact ⟨hmem, hv.trans (hR.offset ▸ hle)⟩
    · obtain ⟨hmem, b, hb, hv⟩ := hO.out_mem v hv
      exact ⟨hmem, hv.trans (hround b hb)⟩
  · exact hO.replay

omit hV in
/-- The anchor has been ordered before, and then nothing is ordered now; or all of the stack
is. -/
theorem Ordered.log (hR : Ready n created s)
    (hback : Backward n s.lastOrderedRound (a.round - 2) a pushed) (ha : s.dag.Has a)
    (hO : Ordered n created (pushed ++ [a]) d₁ s.history.output s.history.anchors d₂ out fresh) :
    (∃ v ∈ s.history.output, v.key = a.key) ∧ a.round = s.lastOrderedRound ∧ fresh = [] ∧
        out = [] ∨
      (¬ ∃ v ∈ s.history.output, v.key = a.key) ∧
        fresh = (pushed ++ [a]).map fun v => (v, d₁.gcOffset) := by
  have hle := (hR.dag.within ha).1
  have hlast := hR.offset
  by_cases hk : ∃ v ∈ s.history.output, v.key = a.key
  · obtain ⟨v, hv, hkv⟩ := hk
    have hr : v.round = a.round := (Vertex.key_eq_iff.mp hkv).1
    have := (hR.output v hv).2
    have hnil := hback.nil_of_le (by omega)
    refine .inl ⟨⟨v, hv, hkv⟩, by omega, hO.again fun b hb => ?_⟩
    rw [hnil, List.nil_append] at hb
    exact List.mem_singleton.mp hb ▸ ⟨v, hv, hkv⟩
  · refine .inr ⟨hk, hO.above hback.increasing_snoc ?_⟩
    rintro b hb ⟨v, hv, hkv⟩
    rcases List.mem_append.mp hb with hb | hb
    · have := (hback.mem hb).1
      have := (hR.output v hv).2
      have := (Vertex.key_eq_iff.mp hkv).1
      omega
    · exact hk (List.mem_singleton.mp hb ▸ ⟨v, hv, hkv⟩)

end

/-- **`order_anchors` walks back, orders and collects garbage.** -/
theorem Ready.orderAnchors {env : Env} {w : Work} (hR : Ready n created w.state) {a : Vertex}
    (ha : w.state.dag.Has a) (heven : a.round % 2 = 0) :
    ∃ d commits history, orderAnchors env a w = some { w with
        state := { w.state with
          dag := d, lastOrderedRound := a.round, orderedAnchors := [], history }
        shared := { w.shared with commits } } ∧
      Committed n created a w.state w.shared.commits d commits history := by
  have halive : ∀ v, w.state.dag.Has v → w.state.alive env v = true := fun v hv => alive_of_has hv
  obtain ⟨d₁, pushed, visits, hwalk, hW⟩ := walk_spec hV
    (s := { w.state with orderedAnchors := a :: w.state.orderedAnchors })
    halive hR.procNum hR.dag hR.offset (by omega) ha
    (fun (hlt : w.state.lastOrderedRound < a.round - 2) => by omega)
  have hsil : Silent n w.state.dag d₁ := hW.silent
  have hback : Backward n w.state.lastOrderedRound (a.round - 2) a pushed := hW.backward
  have hpushed : ∀ v ∈ pushed, w.state.dag.Has v := hW.pushed_has
  have hstack : ∀ v ∈ pushed ++ [a], d₁.Has v := List.forall_mem_append.mpr
    ⟨fun v hv => hsil.has.mpr (hpushed v hv), List.forall_mem_singleton.mpr (hsil.has.mpr ha)⟩
  obtain ⟨out, d₂, fresh, hall, hO⟩ := orderAll_spec hV (hR.dag.silent hsil)
    (fun v hv => halive v (hsil.has.mp hv)) w.shared.commits hR.replay
    (fun k hk => by rw [hsil.done]; exact hR.marks k (hsil.gcOffset ▸ hk)) hstack
  have hgc := hO.settled.shaped.gc a.round
  have hoff := hO.gcOffset_gc hR.dag hsil ha
  refine ⟨d₂.gc a.round, out.foldl (fun c v => c.count v) w.shared.commits, { w.state.history with
    output := w.state.history.output ++ out
    anchors := w.state.history.anchors ++ fresh
    visits := visits ++ w.state.history.visits }, ?_, ?_⟩
  · unfold Bullshark.orderAnchors
    simp only
    rw [hwalk]
    simp only [Option.bind_eq_bind, Option.bind_some, hR.stack]
    rw [hall]
    rfl
  refine ⟨hR.ordered hV hsil ha heven (fun v hv => hback.round_le hv) hO rfl rfl, hoff, ?_,
    fun r p => ?_, ⟨out, rfl, rfl⟩, ⟨visits, rfl, hW.faithful⟩, ?_, rfl, rfl, rfl⟩
  · rw [hgc.allocated, hO.settled.allocated, hsil.allocated]
  · rw [hgc.vertexAt, hoff, hO.settled.vertexAt, hsil.vertexAt]
  · rcases hO.log hR hback ha with ⟨hold, hround, hf, ho⟩ | ⟨hno, hf⟩
    · refine .inl ⟨hold, hround, ?_, ?_⟩
      · rw [hf, List.append_nil]
      · rw [ho, List.append_nil]
    · exact .inr ⟨hno, pushed, hback, by rw [hf, hsil.gcOffset]⟩

end

end Blsmr.Bullshark
