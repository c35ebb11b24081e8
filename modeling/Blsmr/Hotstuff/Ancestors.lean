import Blsmr.Hotstuff.Commit

/-!
# When `commit` finds the ancestors of a block

`commit` follows the weak references from a block down to `b_exec`. It needs
every node in between to be alive (`commit_isSome_iff`). A node that the replica
has in its map is, and so is one whose proposal is still on the way to it. What is
left are the nodes whose proposals it rejected as too low: it never stored them,
and the other replicas collect them when their own `b_exec` has passed them. The
replica panics exactly when it commits across such a node that nobody holds any
more (`commit_finds_ancestors_iff`).
-/

namespace Blsmr.Hotstuff

open Blsmr.Chain Blsmr.Transition

variable {Q : Type} {cfg : Config Q} {c c' : System Q} {p : Pid} {env : Env} {ev : Event}
  {out : Outcome Q}

/-! ## What has to be alive -/

theorem eq_of_onChain {created : List Node} (hl : LinkedNodes created) {a b : Node}
    (ha : OnChain created a) (hb : OnChain created b) (hab : a.height = b.height) : a = b := by
  rcases ha with rfl | ha <;> rcases hb with rfl | hb
  · rfl
  · exact absurd hab (hl.height_pos hb).ne
  · exact absurd hab (hl.height_pos ha).ne'
  · exact hl.eq_of_height ha hb hab

/-- **`commit` gets through** exactly when the nodes from `b_exec` up to the block
are alive. -/
theorem commit_isSome_iff {created : List Node} (hl : LinkedNodes created)
    {elsewhere : Node → Bool} {self : Hotstuff Q} {shared : Shared} {block : Node}
    (hb : OnChain created block) : (self.commit elsewhere shared block).isSome ↔
      ∀ node, OnChain created node → self.bExec.height ≤ node.height →
        node.height < block.height → self.alive elsewhere node = true := by
  induction block with
  | genesis => exact iff_of_true rfl fun node _ _ hlt => absurd hlt (Nat.not_lt_zero _)
  | child id parent height commands ih =>
    obtain ⟨hon, rfl⟩ := height_of_onChain hl hb
    have ih := ih hon
    unfold commit
    by_cases hlt : self.bExec.height < parent.height + 1
    · rw [if_pos hlt]
      have hstep : (∀ node, OnChain created node → self.bExec.height ≤ node.height →
          node.height < parent.height + 1 → self.alive elsewhere node = true) ↔
          self.alive elsewhere parent = true ∧ (commit elsewhere self shared parent).isSome := by
        rw [ih]
        constructor
        · exact fun h => ⟨h parent hon (Nat.le_of_lt_succ hlt) (Nat.lt_succ_self _),
            fun node hn hle hlt => h node hn hle (Nat.lt_succ_of_lt hlt)⟩
        · rintro ⟨hp, h⟩ node hn hle hlt'
          rcases Nat.lt_succ_iff_lt_or_eq.mp hlt' with hlow | heq
          · exact h node hn hle hlow
          · exact eq_of_onChain hl hn hon heq ▸ hp
      refine Iff.trans ?_ hstep.symm
      by_cases hp : self.alive elsewhere parent = true
      · rw [if_pos hp]
        cases commit elsewhere self shared parent <;> simp [hp]
      · rw [if_neg hp]
        simp [hp]
    · rw [if_neg hlt]
      refine iff_of_true rfl fun node _ hle hlt' => ?_
      have hlt' : node.height < parent.height + 1 := hlt'
      omega

theorem update_isSome_iff {elsewhere : Node → Bool} {self : Hotstuff Q} {shared : Shared}
    {node : Node} : (self.update elsewhere shared node).isSome ↔
      ∀ block, node.greatGrandparent (self.alive elsewhere) = some block →
        ((self.raise node ((node.parent (self.alive elsewhere)).bind
          (·.parent (self.alive elsewhere)))).commit elsewhere shared block).isSome := by
  unfold update
  cases hgg : node.greatGrandparent (self.alive elsewhere) with
  | none =>
    unfold Node.greatGrandparent at hgg
    simp only [hgg]
    simp
  | some block =>
    unfold Node.greatGrandparent at hgg
    simp only [hgg]
    simp only [Option.some.injEq, forall_eq']
    cases commit elsewhere _ shared block <;> simp

/-- The nodes strictly between `b_exec` and the block are held elsewhere, or are
in the replica's own map. -/
def Within (created : List Node) (elsewhere : Node → Bool) (self : Hotstuff Q)
    (block : Node) : Prop :=
  ∀ node ∈ created, self.bExec.height < node.height → node.height < block.height →
    elsewhere node = true ∨ self.nodes.lookup node.id = some node

/-- **`update` gets through** exactly when what lies between is held. -/
theorem Keyed.update_isSome_iff {created : List Node} (hl : LinkedNodes created)
    {elsewhere : Node → Bool} {self : Hotstuff Q} (hk : Keyed created self)
    (hexec : OnChain created self.bExec) {shared : Shared} {node : Node} (hn : node ∈ created) :
    (self.update elsewhere shared node).isSome ↔
      ∀ block, node.greatGrandparent (self.alive elsewhere) = some block →
        Within created elsewhere self block := by
  rw [Hotstuff.update_isSome_iff]
  refine forall_congr' fun block => forall_congr' fun hgg => ?_
  obtain ⟨q, g, hq, hg, -, -, -, hbon, -, hgh, hbh⟩ := greatGrandparent_spec hl (.inr hn) hgg
  rw [hq, Option.bind_some, hg, commit_isSome_iff hl hbon]
  obtain ⟨lock, hraise, -⟩ := raise_spec self node (some g)
  have hlock := (raise_bLock self node (some g)).2 g rfl
  rw [hraise] at hlock ⊢
  have hlock : g.height ≤ lock.height := hlock
  set leaf := if node.height > self.bLeaf.height then node else self.bLeaf with hleaf
  have hleaf' : node.height ≤ leaf.height := by
    rw [hleaf]
    split <;> omega
  have hk' : Keyed created { self with bLeaf := leaf, bLock := lock } := ⟨hk.key, hk.onChain⟩
  constructor
  · intro h n hn' hlow hup
    rcases hk'.alive_iff.mp (h n (.inr hn') hlow.le hup) with h | h | h | h | h | h
    · rw [h] at hlow
      exact absurd hlow (Nat.not_lt_zero _)
    · exact .inl h
    · exact .inr h
    · obtain rfl : lock = n := h
      exact absurd hup (by omega)
    · have h : self.bExec = n := h
      rw [h] at hlow
      exact absurd hlow (Nat.lt_irrefl _)
    · have h : leaf = n := h
      rw [h] at hleaf'
      exact absurd hup (by omega)
  · intro h n hn' hlow hup
    refine hk'.alive_iff.mpr ?_
    rcases Nat.lt_or_eq_of_le hlow with hlow | heq
    · rcases h n (mem_of_height_pos hn' (by omega)) hlow hup with h | h
      · exact .inr (.inl h)
      · exact .inr (.inr (.inl h))
    · exact .inr (.inr (.inr (.inr (.inl (eq_of_onChain hl hexec hn' heq)))))

/-! ## The leaf is stored -/

/-- The replica has its leaf in its map. -/
def LeafStored (s : Hotstuff Q) : Prop :=
  s.bLeaf = .genesis ∨ s.nodes.lookup s.bLeaf.id = some s.bLeaf

theorem lookup_insert_self_or {m : AList fun _ : NodeId => Node} {a b : Node}
    (h : m.lookup a.id = some a) (hab : a.id = b.id → a = b) :
    (m.insert b.id b).lookup a.id = some a := by
  by_cases hid : a.id = b.id
  · rw [hab hid, AList.lookup_insert]
  · rw [AList.lookup_insert_ne hid, h]

theorem height_of_refs {created : List Node} (hl : LinkedNodes created) {node block : Node}
    (hn : OnChain created node)
    (h : (node.parentRef.bind Node.parentRef).bind Node.parentRef = some block) :
    block.height + 3 = node.height := by
  have hall : Node.parent (fun _ => true) = Node.parentRef := by
    funext n
    unfold Node.parent
    cases n.parentRef <;> rfl
  have hgg : node.greatGrandparent (fun _ => true) = some block := by
    unfold Node.greatGrandparent
    rw [hall]
    exact h
  obtain ⟨-, -, -, -, -, -, -, -, -, -, hh⟩ := greatGrandparent_spec hl hn hgg
  exact hh

theorem LeafStored.update {elsewhere : Node → Bool} {s s' : Hotstuff Q} {shared shared' : Shared}
    {created : List Node} (hl : LinkedNodes created) {node : Node} (hn : node ∈ created)
    (hu : s.update elsewhere shared node = some (s', shared')) (hs : LeafStored s)
    (hnode : s.nodes.lookup node.id = some node) : LeafStored s' := by
  have hupd := update_spec hu
  have hleaf : s'.bLeaf = .genesis ∨
      s.nodes.lookup s'.bLeaf.id = some s'.bLeaf ∧ node.height ≤ s'.bLeaf.height := by
    by_cases hgt : node.height > s.bLeaf.height
    · rw [hupd.bLeaf, if_pos hgt]
      exact .inr ⟨hnode, le_rfl⟩
    · rw [hupd.bLeaf, if_neg hgt]
      exact hs.imp_right fun h => ⟨h, Nat.le_of_not_lt hgt⟩
  refine hleaf.imp_right fun ⟨h, hle⟩ => ?_
  rcases hupd.bExec with ⟨-, hnodes, -⟩ | ⟨block, -, href, hnodes, -⟩
  · rwa [hnodes]
  · have hh := height_of_refs hl (.inr hn) href
    rw [hnodes, lookup_retain]
    exact ⟨h, decide_eq_true (by omega)⟩

theorem Handled.leafStored {elsewhere : Node → Bool} {self : Hotstuff Q} {shared : Shared}
    {me : Pid} (h : Handled cfg me env elsewhere self shared ev out)
    (hl : LinkedNodes out.shared.created)
    (hinj : ∀ a ∈ out.shared.created, ∀ b ∈ out.shared.created, a.id = b.id → a = b)
    (hleaf : OnChain shared.created self.bLeaf)
    (hmsg : ∀ src msg node, ev = .message src msg → msg.carries = some node →
      node ∈ shared.created) (hs : LeafStored self) : LeafStored out.state := by
  have hsub := h.created_subset
  have hins : ∀ {s' : Hotstuff Q} {b : Node}, s'.bLeaf = self.bLeaf →
      s'.nodes = self.nodes.insert b.id b → b ∈ out.shared.created → LeafStored s' := by
    intro s' b hb hn hbc
    unfold LeafStored
    rw [hb, hn]
    rcases hleaf with h | h
    · exact .inl h
    · exact hs.imp_right fun hs => lookup_insert_self_or hs (hinj _ (hsub h) _ hbc)
  cases h with
  | started self' timers hself =>
    unfold LeafStored
    rw [hself.bLeaf, hself.nodes]
    exact hs
  | ticked self' timers command hself =>
    unfold LeafStored
    rw [hself.bLeaf, hself.nodes]
    exact hs
  | submitted src self' command hself =>
    unfold LeafStored
    rw [hself.bLeaf, hself.nodes]
    exact hs
  | founded self' timers hself =>
    refine hins (b := (self'.createLeaf env shared).2.2) hself.bLeaf ?_ List.mem_cons_self
    rw [← hself.nodes]
    rfl
  | voted src node leader self' shared' hh hl' hu =>
    have hn : node ∈ shared'.created := hsub (hmsg src _ node rfl rfl)
    exact LeafStored.update hl hn hu (hins rfl rfl hn) (AList.lookup_insert _)
  | certified src node leaf self₁ self' shared₁ shared' hb hr hc hu =>
    obtain ⟨commands, -, -, rfl, rfl⟩ := createLeaf_spec hc
    have hcr : shared'.created = leaf :: shared.created := (update_spec hu).created
    have hn : node ∈ shared'.created := hsub (hmsg src _ node rfl rfl)
    have hln : leaf ∈ shared'.created := hcr ▸ List.mem_cons_self
    refine LeafStored.update hl hln hu (.inr ?_) (AList.lookup_insert _)
    exact lookup_insert_self_or (AList.lookup_insert _) (hinj _ hn _ hln)
  | _ => exact hs

theorem leafStored_of_reachable (hcfg : cfg.Valid) (h : System.Reachable cfg c) :
    ∀ p, LeafStored (c.replicas p) :=
  h.invariant (I := fun c => ∀ p, LeafStored (c.replicas p)) (fun _ => .inl rfl)
      fun c _ c' hr _ hI hstep q => by
    have hG := (OneChain.of_reachable hcfg hr).growing
    have hG' := (OneChain.of_reachable hcfg (hr.step trivial hstep)).growing
    obtain ⟨p, ev, out, hs⟩ := step_cases hstep
    by_cases hq : q = p
    · subst hq
      have hl := hG'.linked
      have hinj : ∀ a ∈ c'.shared.created, ∀ b ∈ c'.shared.created, a.id = b.id → a = b :=
        fun a ha b hb => hG'.eq_of_id ha hb
      rw [hs.shared] at hl hinj
      rw [hs.self]
      exact hs.handled.leafStored hl hinj (hG.fields q).bLeaf (hs.carried hG) (hI q)
    · rw [hs.other hq]
      exact hI q

/-! ## Proposals on their way -/

/-- Every node was proposed to every replica. -/
def System.Proposed (cfg : Config Q) (c : System Q) : Prop :=
  ∀ node ∈ c.shared.created, ∀ p ∈ cfg.pool, ∃ src,
    (⟨src, p, .propose node⟩ : Packet) ∈ c.network ++ c.delivered

theorem Handled.proposes {elsewhere : Node → Bool} {self : Hotstuff Q} {shared : Shared}
    {me : Pid} (h : Handled cfg me env elsewhere self shared ev out) :
    out.shared.created = shared.created ∨ ∃ leaf, out.shared.created = leaf :: shared.created ∧
      ∀ q ∈ cfg.pool, (q, .propose leaf) ∈ out.sends := by
  cases h with
  | founded self' timers hself =>
    exact .inr ⟨_, rfl, fun q hq => List.mem_map.mpr ⟨q, hq, rfl⟩⟩
  | voted src node leader self' shared' hh hl hu => exact .inl (update_spec hu).created
  | certified src node leaf self₁ self' shared₁ shared' hb hr hc hu =>
    obtain ⟨-, -, -, -, rfl⟩ := createLeaf_spec hc
    exact .inr ⟨leaf, (update_spec hu).created, fun q hq => List.mem_map.mpr ⟨q, hq, rfl⟩⟩
  | _ => exact .inl rfl

theorem System.Proposed.step (hP : System.Proposed cfg c) (hs : Stepped cfg c p env ev out c') :
    System.Proposed cfg c' := by
  have hkept : ∀ node q src, (⟨src, q, .propose node⟩ : Packet) ∈ c.network ++ c.delivered →
      (⟨src, q, .propose node⟩ : Packet) ∈ c'.network ++ c'.delivered :=
    fun _ _ _ h => hs.perm.mem_iff.mpr (List.mem_append_right _ h)
  intro node hn q hq
  rw [hs.shared] at hn
  rcases hs.handled.proposes with hcr | ⟨leaf, hcr, hsends⟩
  · obtain ⟨src, h⟩ := hP node (hcr ▸ hn) q hq
    exact ⟨src, hkept _ _ _ h⟩
  · rw [hcr] at hn
    rcases List.mem_cons.mp hn with rfl | hn
    · exact ⟨p, hs.perm.mem_iff.mpr
        (List.mem_append_left _ (mem_packets.mpr ⟨rfl, hsends q hq⟩))⟩
    · obtain ⟨src, h⟩ := hP node hn q hq
      exact ⟨src, hkept _ _ _ h⟩

theorem proposed_of_reachable (h : System.Reachable cfg c) : System.Proposed cfg c :=
  h.invariant (fun _ h => by cases h) fun _ _ _ _ _ hI hstep => by
    obtain ⟨p, ev, out, hs⟩ := step_cases hstep
    exact hI.step hs

/-! ## The condition -/

/-- The block up to which the delivery of the message makes its receiver commit:
the great-grandparent of a proposal that is accepted, or of the leaf that is made
on a node that gets its quorum. -/
def System.block (cfg : Config Q) (c : System Q) (packet : Packet) : Option Node :=
  let self := c.replicas packet.dst
  let alive := self.alive (c.elsewhere cfg packet.dst)
  match packet.msg with
  | .submit _ => none
  | .propose node =>
    if node.height > self.vheight ∧
        (self.extendsLock (c.elsewhere cfg packet.dst) node = true ∨
          node.height > self.bLock.height) then
      node.greatGrandparent alive
    else none
  | .vote node =>
    if self.bExec.height < node.height ∧ (self.addVote cfg node).2 = true then
      (node.parent alive).bind (·.parent alive)
    else none

/-- Replica `p` has received the proposal of the node without keeping it, no
other replica holds the node, and no message carries it. -/
def System.Lost (cfg : Config Q) (c : System Q) (p : Pid) (node : Node) : Prop :=
  (∃ src, (⟨src, p, .propose node⟩ : Packet) ∈ c.delivered) ∧
    (c.replicas p).nodes.lookup node.id ≠ some node ∧ c.elsewhere cfg p node = false

theorem within_iff (hP : System.Proposed cfg c) (hp : p ∈ cfg.pool) {block : Node} :
    Within c.shared.created (c.elsewhere cfg p) (c.replicas p) block ↔
      ∀ node ∈ c.shared.created, (c.replicas p).bExec.height < node.height →
        node.height < block.height → ¬ c.Lost cfg p node := by
  unfold Within System.Lost
  refine forall_congr' fun node => forall_congr' fun hn => forall_congr' fun _ =>
    forall_congr' fun _ => ?_
  constructor
  · rintro (h | h) ⟨-, hmap, helse⟩
    · rw [h] at helse
      cases helse
    · exact hmap h
  · intro h
    by_contra hno
    rw [not_or] at hno
    obtain ⟨src, hsrc⟩ := hP node hn p hp
    rcases List.mem_append.mp hsrc with hin | hdel
    · exact hno.1 (elsewhere_of_mem hin rfl)
    · exact h ⟨⟨src, hdel⟩, hno.2, Bool.eq_false_iff.mpr hno.1⟩

section

variable {src : Pid} {node : Node} {self₁ : Hotstuff Q} {shared₁ : Shared} {leaf : Node}

theorem Placed.certified_spec (hP : Placed cfg c) (hin : ⟨src, p, .vote node⟩ ∈ c.network)
    (henv : c.Fresh env)
    (hc : (((c.replicas p).addVote cfg node).1.certify node).createLeaf env c.shared =
      (self₁, shared₁, leaf)) :
    Keyed (leaf :: c.shared.created) self₁ ∧ self₁.bLock = (c.replicas p).bLock ∧
      self₁.bExec = (c.replicas p).bExec ∧ self₁.bLeaf = node ∧ leaf.parentRef = some node ∧
      ∀ n ∈ c.shared.created, self₁.nodes.lookup n.id = some n ↔
        n = node ∨ (c.replicas p).nodes.lookup n.id = some n := by
  obtain ⟨commands, hleaf, -, rfl, rfl⟩ := createLeaf_spec hc
  have hG := hP.chain.growing
  have hn := hG.carried _ hin node rfl
  have hk := (hP.keyed p).mono (List.subset_cons_self leaf _)
  have hk₁ : Keyed (leaf :: c.shared.created) (((c.replicas p).addVote cfg node).1.certify node) :=
    ⟨fun id n h => (hk.insert (.inr (List.mem_cons_of_mem _ hn)) h).1,
      fun id n h => (hk.insert (.inr (List.mem_cons_of_mem _ hn)) h).2⟩
  refine ⟨⟨fun id n h => (hk₁.insert (.inr List.mem_cons_self) h).1,
    fun id n h => (hk₁.insert (.inr List.mem_cons_self) h).2⟩, rfl, rfl, rfl, by rw [hleaf]; rfl,
    fun n hn' => ?_⟩
  have hfresh : n.id ≠ leaf.id := by
    intro hid
    rw [hleaf] at hid
    have hid : n.id = env.uid := hid
    exact henv.1 (hid ▸ hG.ids_used n hn')
  have hlook : (((c.replicas p).nodes.insert node.id node).insert leaf.id leaf).lookup n.id =
      some n ↔ n = node ∨ (c.replicas p).nodes.lookup n.id = some n := by
    rw [AList.lookup_insert_ne hfresh]
    by_cases hid : n.id = node.id
    · obtain rfl := hG.eq_of_id hn' hn hid
      rw [AList.lookup_insert]
      simp
    · rw [AList.lookup_insert_ne hid]
      exact ⟨.inr, fun h => h.resolve_left fun h => hid (h ▸ rfl)⟩
  exact hlook

theorem Placed.alive_leaf (hP : Placed cfg c) (hstored : LeafStored (c.replicas p))
    (hin : ⟨src, p, .vote node⟩ ∈ c.network) (henv : c.Fresh env)
    (hc : (((c.replicas p).addVote cfg node).1.certify node).createLeaf env c.shared =
      (self₁, shared₁, leaf)) {n : Node} (hon : OnChain c.shared.created n) :
    self₁.alive (c.elsewhere cfg p) n = true ↔
      (c.replicas p).alive (c.elsewhere cfg p) n = true := by
  obtain ⟨hk₁, hlock, hexec, hleaf, -, hmap⟩ := hP.certified_spec hin henv hc
  have hheld : c.elsewhere cfg p node = true := elsewhere_of_mem hin rfl
  rw [hk₁.alive_iff, (hP.keyed p).alive_iff, hlock, hexec, hleaf]
  rcases hon with rfl | hn
  · simp
  · rw [hmap n hn]
    constructor
    · rintro (h | h | (rfl | h) | h | h | rfl)
      · exact .inl h
      · exact .inr (.inl h)
      · exact .inr (.inl hheld)
      · exact .inr (.inr (.inl h))
      · exact .inr (.inr (.inr (.inl h)))
      · exact .inr (.inr (.inr (.inr (.inl h))))
      · exact .inr (.inl hheld)
    · rintro (h | h | h | h | h | rfl)
      · exact .inl h
      · exact .inr (.inl h)
      · exact .inr (.inr (.inl (.inr h)))
      · exact .inr (.inr (.inr (.inl h)))
      · exact .inr (.inr (.inr (.inr (.inl h))))
      · rcases hstored with h | h
        · exact .inl h
        · exact .inr (.inr (.inl (.inr h)))

end

theorem parent_congr {created : List Node} (hl : LinkedNodes created) {alive alive' : Node → Bool}
    (h : ∀ n, OnChain created n → (alive n = true ↔ alive' n = true)) {node : Node}
    (hn : OnChain created node) : node.parent alive = node.parent alive' := by
  refine Option.ext fun q => ?_
  rw [parent_eq_some, parent_eq_some]
  refine and_congr_right fun href => h q (onChain_parentRef hl hn href)

theorem grandparent_congr {created : List Node} (hl : LinkedNodes created)
    {alive alive' : Node → Bool}
    (h : ∀ n, OnChain created n → (alive n = true ↔ alive' n = true)) {node : Node}
    (hn : OnChain created node) : (node.parent alive).bind (·.parent alive) =
      (node.parent alive').bind (·.parent alive') := by
  rw [parent_congr hl h hn]
  cases hq : node.parent alive' with
  | none => rfl
  | some q => exact parent_congr hl h (onChain_parent hl hn hq).1

theorem greatGrandparent_congr {created : List Node} (hl : LinkedNodes created)
    {alive alive' : Node → Bool}
    (h : ∀ n, OnChain created n → (alive n = true ↔ alive' n = true)) {node : Node}
    (hn : OnChain created node) : node.greatGrandparent alive = node.greatGrandparent alive' := by
  unfold Node.greatGrandparent
  rw [grandparent_congr hl h hn]
  cases hq : node.parent alive' with
  | none => rfl
  | some q =>
    rw [Option.bind_some]
    cases hg : q.parent alive' with
    | none => rfl
    | some g =>
      exact parent_congr hl h (onChain_parent hl (onChain_parent hl hn hq).1 hg).1

/-! ## Deliveries -/

theorem nextLeader_isSome (hcfg : cfg.Valid) (self : Hotstuff Q) :
    ∃ leader, self.nextLeader cfg = some leader := by
  have hpos : 0 < cfg.pool.length := List.length_pos_of_mem hcfg.zero_mem
  unfold nextLeader
  split
  · exact ⟨_, List.getElem?_eq_getElem (Nat.mod_lt _ hpos)⟩
  · exact ⟨_, List.getElem?_eq_getElem hpos⟩

theorem Within.congr {created created' : List Node} {elsewhere : Node → Bool}
    {self self' : Hotstuff Q} {block : Node} (hexec : self'.bExec = self.bExec)
    (hcr : ∀ n, n.height < block.height → (n ∈ created' ↔ n ∈ created))
    (hmap : ∀ n ∈ created, n.height < block.height →
      (self'.nodes.lookup n.id = some n ↔ self.nodes.lookup n.id = some n)) :
    Within created' elsewhere self' block ↔ Within created elsewhere self block := by
  unfold Within
  rw [hexec]
  constructor
  · intro h n hn hlow hup
    exact (h n ((hcr n hup).mpr hn) hlow hup).imp_right (hmap n hn hup).mp
  · intro h n hn hlow hup
    have hn := (hcr n hup).mp hn
    exact (h n hn hlow hup).imp_right (hmap n hn hup).mpr

theorem Placed.propose_isSome_iff (hcfg : cfg.Valid) (hP : Placed cfg c) {src : Pid} {node : Node}
    (hin : ⟨src, p, .propose node⟩ ∈ c.network) :
    ((c.replicas p).onMessage cfg env (c.elsewhere cfg p) c.shared (.propose node)).isSome ↔
      ∀ block, c.block cfg ⟨src, p, .propose node⟩ = some block →
        Within c.shared.created (c.elsewhere cfg p) (c.replicas p) block := by
  have hG := hP.chain.growing
  have hn := hG.carried _ hin node rfl
  simp only [onMessage, System.block]
  by_cases hacc : node.height > (c.replicas p).vheight ∧
      ((c.replicas p).extendsLock (c.elsewhere cfg p) node = true ∨
        node.height > (c.replicas p).bLock.height)
  · rw [if_pos hacc, if_pos hacc]
    have hk : Keyed c.shared.created ((c.replicas p).accept node) :=
      ⟨fun id n h => ((hP.keyed p).insert (.inr hn) h).1,
        fun id n h => ((hP.keyed p).insert (.inr hn) h).2⟩
    have hpass : (((c.replicas p).accept node).update (c.elsewhere cfg p) c.shared node).isSome ↔
        ∀ block, node.greatGrandparent ((c.replicas p).alive (c.elsewhere cfg p)) = some block →
          Within c.shared.created (c.elsewhere cfg p) (c.replicas p) block := by
      rw [hk.update_isSome_iff hG.linked (hG.fields p).bExec hn,
        greatGrandparent_congr hG.linked (fun n hon => hP.alive_accept hin hon) (.inr hn)]
      refine forall_congr' fun block => forall_congr' fun hgg => ?_
      obtain ⟨-, -, -, -, -, -, -, -, -, -, hh⟩ :=
        greatGrandparent_spec hG.linked (.inr hn) hgg
      refine Within.congr rfl (fun _ _ => Iff.rfl) fun n hn' hup => ?_
      have hid : n.id ≠ node.id := by
        intro hid
        rw [hG.eq_of_id hn' hn hid] at hup
        omega
      exact Iff.of_eq (congrArg (· = some n) (AList.lookup_insert_ne hid))
    rw [← hpass]
    obtain ⟨leader, hleader⟩ := nextLeader_isSome hcfg ((c.replicas p).accept node)
    rw [hleader]
    cases ((c.replicas p).accept node).update (c.elsewhere cfg p) c.shared node <;> simp
  · rw [if_neg hacc, if_neg hacc]
    simp

theorem Placed.vote_isSome_iff (hcfg : cfg.Valid) (hP : Placed cfg c)
    (hstored : LeafStored (c.replicas p)) {src : Pid} {node : Node}
    (hin : ⟨src, p, .vote node⟩ ∈ c.network) (henv : c.Fresh env) :
    ((c.replicas p).onMessage cfg env (c.elsewhere cfg p) c.shared (.vote node)).isSome ↔
      ∀ block, c.block cfg ⟨src, p, .vote node⟩ = some block →
        Within c.shared.created (c.elsewhere cfg p) (c.replicas p) block := by
  have hG := hP.chain.growing
  have hn := hG.carried _ hin node rfl
  simp only [onMessage, System.block]
  by_cases hlow : node.height ≤ (c.replicas p).bExec.height
  · rw [if_pos hlow, if_neg fun h => absurd h.1 (Nat.not_lt.mpr hlow)]
    simp
  rw [if_neg hlow]
  by_cases hr : ((c.replicas p).addVote cfg node).2 = true
  · rw [if_pos hr, if_pos ⟨Nat.lt_of_not_le hlow, hr⟩]
    rcases hc : (((c.replicas p).addVote cfg node).1.certify node).createLeaf env c.shared with
      ⟨self₁, shared₁, leaf⟩
    obtain ⟨hk₁, hlock, hexec, hleaf, href, hmap⟩ := hP.certified_spec hin henv hc
    have hheight : leaf.height = node.height + 1 := by
      obtain ⟨commands, rfl, -⟩ := createLeaf_spec hc
      rfl
    have htop : c.shared.created.headD .genesis = node :=
      hG.linked.headD_of_height hn (hP.chain.tallied.newest hcfg hP.chain.voting hG hin hr)
    have hl : LinkedNodes (leaf :: c.shared.created) :=
      hG.linked.cons rfl (by rw [htop, href]) (by rw [htop, hheight])
    have halive : self₁.alive (c.elsewhere cfg p) node = true :=
      hk₁.alive_iff.mpr (.inr (.inl (elsewhere_of_mem hin rfl)))
    have hgg : leaf.greatGrandparent (self₁.alive (c.elsewhere cfg p)) =
        (node.parent ((c.replicas p).alive (c.elsewhere cfg p))).bind
          (·.parent ((c.replicas p).alive (c.elsewhere cfg p))) := by
      unfold Node.greatGrandparent
      rw [parent_eq_some.mpr ⟨href, halive⟩, Option.bind_some]
      exact grandparent_congr hG.linked (fun n hon => hP.alive_leaf hstored hin henv hc hon)
        (.inr hn)
    have hpass : (self₁.update (c.elsewhere cfg p) shared₁ leaf).isSome ↔
        ∀ block, (node.parent ((c.replicas p).alive (c.elsewhere cfg p))).bind
            (·.parent ((c.replicas p).alive (c.elsewhere cfg p))) = some block →
          Within c.shared.created (c.elsewhere cfg p) (c.replicas p) block := by
      rw [hk₁.update_isSome_iff hl (hexec ▸ (hG.fields p).bExec.mono (List.subset_cons_self _ _))
        List.mem_cons_self, hgg]
      refine forall_congr' fun block => forall_congr' fun hb => ?_
      rw [← hgg] at hb
      obtain ⟨-, -, -, -, -, -, -, -, -, -, hh⟩ :=
        greatGrandparent_spec hl (.inr List.mem_cons_self) hb
      refine Within.congr hexec (fun n hup => ?_) fun n hn' hup => ?_
      · refine ⟨fun h => (List.mem_cons.mp h).resolve_left fun h => ?_, List.mem_cons_of_mem _⟩
        rw [h] at hup
        omega
      · rw [hmap n hn']
        refine ⟨fun h => h.resolve_left fun h => ?_, .inr⟩
        rw [h] at hup
        omega
    rw [← hpass]
    cases self₁.update (c.elsewhere cfg p) shared₁ leaf <;> simp
  · rw [if_neg hr, if_neg fun h => hr h.2]
    simp

/-- **`commit` finds its ancestors, or one of them was lost.** In every reachable
state the delivery of a message in flight panics exactly when the replica commits
a block above a node over its `b_exec` whose proposal it has received and not
kept, and which nobody else holds any more. -/
theorem commit_finds_ancestors_iff (cfg : Config Q) (hcfg : cfg.Valid) (c : System Q)
    (h : System.Reachable cfg c) (packet : Packet) (hin : packet ∈ c.network) (env : Env)
    (henv : c.Fresh env) :
    (System.step cfg c (.deliver packet env)).isSome ↔
      ∀ block, c.block cfg packet = some block → ∀ node ∈ c.shared.created,
        (c.replicas packet.dst).bExec.height < node.height → node.height < block.height →
          ¬ c.Lost cfg packet.dst node := by
  have hP := Placed.of_reachable hcfg h
  have hdst := hP.chain.growing.dst packet hin
  have hstep : (System.step cfg c (.deliver packet env)).isSome ↔
      ((c.replicas packet.dst).onMessage cfg env (c.elsewhere cfg packet.dst) c.shared
        packet.msg).isSome := by
    unfold System.step
    rw [if_pos (show c.Fresh (Action.deliver packet env).env from henv)]
    simp only [if_pos hin, Option.isSome_map]
  rw [hstep]
  have hgo : ((c.replicas packet.dst).onMessage cfg env (c.elsewhere cfg packet.dst) c.shared
      packet.msg).isSome ↔ ∀ block, c.block cfg packet = some block →
        Within c.shared.created (c.elsewhere cfg packet.dst) (c.replicas packet.dst) block := by
    obtain ⟨src, p, msg⟩ := packet
    cases msg with
    | submit command => exact iff_of_true rfl fun block hb => by cases hb
    | propose node => exact hP.propose_isSome_iff hcfg hin
    | vote node => exact hP.vote_isSome_iff hcfg (leafStored_of_reachable hcfg h p) hin henv
  rw [hgo]
  exact forall_congr' fun block => forall_congr' fun _ =>
    within_iff (proposed_of_reachable h) hdst

/-- Four replicas, the leader is replica 0. Replica 3 gets the first proposal and then the
fifth: it is to commit the second node, and the first one, which the others have
collected, is in its own map. -/
theorem commit_finds_ancestors_four :
    let cfg : Config ℤ := .standard false [0, 1, 2, 3]
    let n₁ : Node := .child 1 .genesis 1 []
    let n₂ : Node := .child 7 n₁ 2 []
    ∃ c packet env, System.Reachable cfg c ∧ c.block cfg packet = some n₂ ∧
      (c.replicas packet.dst).bExec = .genesis ∧ n₁ ∈ c.shared.created ∧
      c.elsewhere cfg packet.dst n₁ = false ∧
      (System.step cfg c (.deliver packet env)).isSome := by
  intro cfg n₁ n₂
  let n₃ : Node := .child 14 n₂ 3 []
  let n₄ : Node := .child 20 n₃ 4 []
  let n₅ : Node := .child 26 n₄ 5 []
  let run : List Action := [.start 0 (.counting 1),
    .recv 2 0 0 (.propose n₁), .recv 3 0 1 (.propose n₁), .recv 4 0 2 (.propose n₁),
    .recv 5 0 0 (.vote n₁), .recv 6 1 0 (.vote n₁), .recv 7 2 0 (.vote n₁),
    .recv 8 0 0 (.propose n₂), .recv 9 0 1 (.propose n₂), .recv 10 0 2 (.propose n₂),
    .recv 11 0 3 (.propose n₁),
    .recv 12 0 0 (.vote n₂), .recv 13 1 0 (.vote n₂), .recv 14 2 0 (.vote n₂),
    .recv 15 0 0 (.propose n₃), .recv 16 0 1 (.propose n₃), .recv 17 0 2 (.propose n₃),
    .recv 18 0 0 (.vote n₃), .recv 19 1 0 (.vote n₃), .recv 20 2 0 (.vote n₃),
    .recv 21 0 0 (.propose n₄), .recv 22 0 1 (.propose n₄), .recv 23 0 2 (.propose n₄),
    .recv 24 0 0 (.vote n₄), .recv 25 1 0 (.vote n₄), .recv 26 2 0 (.vote n₄),
    .recv 27 0 0 (.propose n₅), .recv 28 0 1 (.propose n₅), .recv 29 0 2 (.propose n₅),
    .recv 30 3 0 (.vote n₁)]
  let packet : Packet := ⟨0, 3, .propose n₅⟩
  have hrun : (System.execute cfg run).any (fun c => decide (packet ∈ c.network ∧
      c.Fresh (.counting 31) ∧ c.block cfg packet = some n₂ ∧ (c.replicas 3).bExec = .genesis ∧
      n₁ ∈ c.shared.created ∧ c.elsewhere cfg 3 n₁ = false ∧
      ∀ node ∈ c.shared.created, node.height < 2 →
        (c.replicas 3).nodes.lookup node.id = some node)) = true := by decide +kernel
  obtain ⟨c, hc, hd⟩ := (Option.any_eq_true _ _).mp hrun
  obtain ⟨hin, henv, hblock, hexec, hmem, helse, hheld⟩ := of_decide_eq_true hd
  have hreach := System.reachable_execute hc
  have hcfg : cfg.Valid := Config.standard_valid (by decide) (by decide)
  refine ⟨c, packet, .counting 31, hreach, hblock, hexec, hmem, helse, ?_⟩
  refine (commit_finds_ancestors_iff cfg hcfg c hreach packet hin _ henv).mpr ?_
  rintro block hb node hnode - hup ⟨-, hno, -⟩
  rw [hblock, Option.some.injEq] at hb
  subst hb
  exact hno (hheld node hnode hup)

/-- **A lost ancestor.** Four replicas, the leader is replica 0. Replica 3 gets the
second proposal before the first one, which it then rejects. When the fifth
proposal arrives it is to commit the second node, but the others have collected
the first. -/
theorem lost_ancestor_panics :
    let cfg : Config ℤ := .standard false [0, 1, 2, 3]
    ∃ c packet env block, System.Reachable cfg c ∧ packet ∈ c.network ∧ c.Fresh env ∧
      c.block cfg packet = some block ∧
      (c.replicas packet.dst).commit (c.elsewhere cfg packet.dst) c.shared block = none ∧
      System.step cfg c (.deliver packet env) = none := by
  intro cfg
  let n₁ : Node := .child 1 .genesis 1 []
  let n₂ : Node := .child 7 n₁ 2 []
  let n₃ : Node := .child 15 n₂ 3 []
  let n₄ : Node := .child 21 n₃ 4 []
  let n₅ : Node := .child 27 n₄ 5 []
  let packet : Packet := ⟨0, 3, .propose n₅⟩
  let env := Env.counting 31
  let run : List Action := [.start 0 (.counting 1),
    .recv 2 0 0 (.propose n₁), .recv 3 0 1 (.propose n₁), .recv 4 0 2 (.propose n₁),
    .recv 5 0 0 (.vote n₁), .recv 6 1 0 (.vote n₁), .recv 7 2 0 (.vote n₁),
    .recv 8 0 0 (.propose n₂), .recv 9 0 1 (.propose n₂), .recv 10 0 2 (.propose n₂),
    .recv 11 0 3 (.propose n₂), .recv 12 0 3 (.propose n₁),
    .recv 13 0 0 (.vote n₂), .recv 14 1 0 (.vote n₂), .recv 15 2 0 (.vote n₂),
    .recv 16 0 0 (.propose n₃), .recv 17 0 1 (.propose n₃), .recv 18 0 2 (.propose n₃),
    .recv 19 0 0 (.vote n₃), .recv 20 1 0 (.vote n₃), .recv 21 2 0 (.vote n₃),
    .recv 22 0 0 (.propose n₄), .recv 23 0 1 (.propose n₄), .recv 24 0 2 (.propose n₄),
    .recv 25 0 0 (.vote n₄), .recv 26 1 0 (.vote n₄), .recv 27 2 0 (.vote n₄),
    .recv 28 0 0 (.propose n₅), .recv 29 0 1 (.propose n₅), .recv 30 0 2 (.propose n₅)]
  have hrun : (System.execute cfg run).any (fun c =>
      decide (packet ∈ c.network ∧ c.Fresh env ∧ c.block cfg packet = some n₂) &&
        ((c.replicas 3).commit (c.elsewhere cfg 3) c.shared n₂).isNone &&
        (System.step cfg c (.deliver packet env)).isNone) = true := by
    decide +kernel
  obtain ⟨c, hc, hd⟩ := (Option.any_eq_true _ _).mp hrun
  simp only [Bool.and_eq_true, Option.isNone_iff_eq_none] at hd
  obtain ⟨⟨hd, hcommit⟩, hstep⟩ := hd
  obtain ⟨hin, henv, hblock⟩ := of_decide_eq_true hd
  exact ⟨c, packet, env, n₂, System.reachable_execute hc, hin, henv, hblock, hcommit, hstep⟩

end Blsmr.Hotstuff
