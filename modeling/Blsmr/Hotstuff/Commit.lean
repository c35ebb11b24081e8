import Blsmr.Hotstuff.Chain

/-!
# Every block is committed once, unless a leader meets its own late proposal

A replica commits the great-grandparent of the node it updates with. A leaf that
a leader has just made is the newest node, so its great-grandparent is never
below `b_exec`. A proposal that arrives later can be lower, and `update` moves
`b_exec` without a check: a leader that had its quorum before its own proposal
arrived accepts that proposal, which is then two heights above `b_exec`, and goes
back by one (`Overtaken`). The block it leaves is counted a second time. In every
run without such a step the blocks are counted in the order of the chain
(`commits_in_order`).
-/

namespace Blsmr.Hotstuff

open Blsmr.Chain Blsmr.Transition

variable {Q : Type} {cfg : Config Q} {c c' : System Q} {p : Pid} {env : Env} {ev : Event}
  {out : Outcome Q}

/-! ## What `update` reaches -/

/-- `great_grandparent` in `update`. -/
def Node.greatGrandparent (alive : Node → Bool) (self : Node) : Option Node :=
  ((self.parent alive).bind (·.parent alive)).bind (·.parent alive)

theorem onChain_parent {created : List Node} (hl : LinkedNodes created) {alive : Node → Bool}
    {node parent : Node} (hn : OnChain created node) (hp : node.parent alive = some parent) :
    OnChain created parent ∧ parent.height + 1 = node.height := by
  have href := parentRef_of_parent hp
  rcases hn with rfl | hn
  · cases href
  · obtain ⟨q, hq, hon, hh⟩ := hl.parent_spec rfl hn
    rw [href, Option.some.injEq] at hq
    exact hq ▸ ⟨hon, hh⟩

theorem greatGrandparent_spec {created : List Node} (hl : LinkedNodes created)
    {alive : Node → Bool} {node block : Node} (hn : OnChain created node)
    (h : node.greatGrandparent alive = some block) : ∃ parent grandparent,
      node.parent alive = some parent ∧ parent.parent alive = some grandparent ∧
      grandparent.parent alive = some block ∧ OnChain created parent ∧
      OnChain created grandparent ∧ OnChain created block ∧
      parent.height + 1 = node.height ∧ grandparent.height + 2 = node.height ∧
      block.height + 3 = node.height := by
  obtain ⟨g, hg, hb⟩ := Option.bind_eq_some_iff.mp h
  obtain ⟨q, hq, hg⟩ := Option.bind_eq_some_iff.mp hg
  obtain ⟨hqon, hqh⟩ := onChain_parent hl hn hq
  obtain ⟨hgon, hgh⟩ := onChain_parent hl hqon hg
  obtain ⟨hbon, hbh⟩ := onChain_parent hl hgon hb
  exact ⟨q, g, hq, hg, hb, hqon, hgon, hbon, hqh, by omega, by omega⟩

theorem raise_bLock (self : Hotstuff Q) (node : Node) (grandparent : Option Node) :
    self.bLock.height ≤ (self.raise node grandparent).bLock.height ∧
      ∀ g, grandparent = some g → g.height ≤ (self.raise node grandparent).bLock.height := by
  obtain ⟨lock, hraise, hlock⟩ := raise_spec self node grandparent
  refine ⟨?_, ?_⟩
  · rw [hraise]
    rcases hlock with rfl | ⟨-, hlt⟩
    · exact le_rfl
    · exact hlt.le
  · rintro g rfl
    simp only [raise]
    by_cases hg : g.height > self.bLock.height
    · split <;> simp
    · have hle := Nat.le_of_not_lt hg
      split <;> simpa [hg] using hle

/-! ## What `commit` counts -/

theorem mem_of_height_pos {created : List Node} {node : Node} (hn : OnChain created node)
    (hpos : 0 < node.height) : node ∈ created := by
  rcases hn with rfl | hn
  · cases hpos
  · exact hn

theorem height_of_onChain {created : List Node} (hl : LinkedNodes created) {id : NodeId}
    {parent : Node} {height : ℕ} {commands : List Command}
    (hn : OnChain created (.child id parent height commands)) :
    OnChain created parent ∧ height = parent.height + 1 := by
  rcases hn with hn | hn
  · cases hn
  · obtain ⟨q, hq, hon, hh⟩ := hl.parent_spec rfl hn
    cases hq
    exact ⟨hon, hh.symm⟩

theorem toCommit_heights {created : List Node} (hl : LinkedNodes created) (self : Hotstuff Q)
    {block : Node} (hb : OnChain created block) :
    (self.toCommit block).map Node.height =
      List.range' (self.bExec.height + 1) (block.height - self.bExec.height) := by
  induction block with
  | genesis => simp [toCommit, Node.lineage, Node.height]
  | child id parent height commands ih =>
    obtain ⟨hon, rfl⟩ := height_of_onChain hl hb
    have ih := ih hon
    show _ = List.range' _ (parent.height + 1 - self.bExec.height)
    unfold toCommit at ih ⊢
    rw [Node.lineage]
    by_cases hlt : self.bExec.height < parent.height + 1
    · rw [List.takeWhile_cons_of_pos (by exact decide_eq_true hlt), List.reverse_cons,
        List.map_append, ih, show parent.height + 1 - self.bExec.height =
          parent.height - self.bExec.height + 1 by omega, List.range'_concat]
      show _ ++ [parent.height + 1] = _
      rw [show self.bExec.height + 1 + 1 * (parent.height - self.bExec.height) =
        parent.height + 1 by omega]
    · rw [List.takeWhile_cons_of_neg (by exact fun h => hlt (of_decide_eq_true h)),
        show parent.height + 1 - self.bExec.height = 0 by omega]
      rfl

/-! ## One step of `b_exec` -/

/-- The replica counts the blocks up to `block`, the great-grandparent of `node`. -/
structure CommitsTo (created : List Node) (node block : Node) (s s' : Hotstuff Q) : Prop where
  onChain : OnChain created block
  height : block.height + 3 = node.height
  bExec : s'.bExec = block
  bLock : block.height + 1 ≤ s'.bLock.height
  commits : s'.commits = s.commits ++ s.toCommit block

/-- **`update`** raises the lock, and commits the great-grandparent if it is alive. -/
theorem update_commits {created : List Node} (hl : LinkedNodes created)
    {elsewhere : Node → Bool} {self self' : Hotstuff Q} {shared shared' : Shared} {node : Node}
    (hn : node ∈ created) (h : self.update elsewhere shared node = some (self', shared')) :
    self.bLock.height ≤ self'.bLock.height ∧
    ((node.greatGrandparent (self.alive elsewhere) = none ∧ self'.bExec = self.bExec ∧
        self'.commits = self.commits) ∨
      ∃ block, node.greatGrandparent (self.alive elsewhere) = some block ∧
        CommitsTo created node block self self') := by
  unfold update at h
  set gp := (node.parent (self.alive elsewhere)).bind (·.parent (self.alive elsewhere)) with hgp
  obtain ⟨hle, hg⟩ := raise_bLock self node gp
  obtain ⟨lock, hraise, -⟩ := raise_spec self node gp
  simp only [hraise] at h
  rw [hraise] at hle hg
  cases hgg : node.greatGrandparent (self.alive elsewhere) with
  | none =>
    rw [show gp.bind (·.parent (self.alive elsewhere)) = none from hgg] at h
    cases h
    exact ⟨hle, .inl ⟨rfl, rfl, rfl⟩⟩
  | some block =>
    rw [show gp.bind (·.parent (self.alive elsewhere)) = some block from hgg] at h
    obtain ⟨⟨self₁, shared₁⟩, hc, h⟩ := Option.bind_eq_some_iff.mp h
    cases h
    obtain ⟨q, g, hq, hgq, -, -, -, hon, -, hgh, hbh⟩ :=
      greatGrandparent_spec hl (.inr hn) hgg
    have hlock : g.height ≤ lock.height := hg g (by rw [hgp, hq, Option.bind_some, hgq])
    rw [(commit_spec hc).state]
    exact ⟨hle, .inr ⟨block, rfl, hon, hbh, rfl, by show _ ≤ lock.height; omega, rfl⟩⟩

/-- Nothing is committed, or what lies up to the great-grandparent of a node
proposed or of the newest node. -/
def Advanced (ev : Event) (created : List Node) (s s' : Hotstuff Q) : Prop :=
  s.bLock.height ≤ s'.bLock.height ∧ (s'.bExec = s.bExec ∧ s'.commits = s.commits ∨
    ∃ node ∈ created, ((∃ src, ev = .message src (.propose node)) ∨
      node.height = created.length) ∧ ∃ block, CommitsTo created node block s s')

/-- **What a handler does to `b_exec`.** -/
theorem Handled.advanced {elsewhere : Node → Bool} {self : Hotstuff Q} {shared : Shared}
    {me : Pid} (h : Handled cfg me env elsewhere self shared ev out)
    (hl : LinkedNodes out.shared.created)
    (hmsg : ∀ src msg node, ev = .message src msg → msg.carries = some node →
      node ∈ shared.created) : Advanced ev out.shared.created self out.state := by
  cases h with
  | started self' timers hself =>
    exact ⟨hself.bLock ▸ le_rfl, .inl ⟨hself.bExec, hself.commits⟩⟩
  | founded self' timers hself =>
    exact ⟨hself.bLock ▸ le_rfl, .inl ⟨hself.bExec, hself.commits⟩⟩
  | ticked self' timers command hself =>
    exact ⟨hself.bLock ▸ le_rfl, .inl ⟨hself.bExec, hself.commits⟩⟩
  | submitted src self' command hself =>
    exact ⟨hself.bLock ▸ le_rfl, .inl ⟨hself.bExec, hself.commits⟩⟩
  | voted src node leader self' shared' hh hl' hu =>
    have hn : node ∈ shared'.created :=
      (update_spec hu).created ▸ hmsg src _ node rfl rfl
    obtain ⟨hle, ⟨-, hkept⟩ | ⟨block, -, hto⟩⟩ := update_commits hl hn hu
    · exact ⟨hle, .inl hkept⟩
    · exact ⟨hle, .inr ⟨node, hn, .inl ⟨src, rfl⟩, block,
        hto.onChain, hto.height, hto.bExec, hto.bLock, hto.commits⟩⟩
  | certified src node leaf self₁ self' shared₁ shared' hb hr hc hu =>
    obtain ⟨commands, -, -, rfl, rfl⟩ := createLeaf_spec hc
    have hcr : shared'.created = leaf :: shared.created := (update_spec hu).created
    have hn : leaf ∈ shared'.created := hcr ▸ List.mem_cons_self
    have hh : leaf.height = shared'.created.length := by
      rw [hcr] at hl ⊢
      exact hl.2.1
    obtain ⟨hle, ⟨-, hkept⟩ | ⟨block, -, hto⟩⟩ := update_commits hl hn hu
    · exact ⟨hle, .inl hkept⟩
    · exact ⟨hle, .inr ⟨leaf, hn, .inr hh, block,
        hto.onChain, hto.height, hto.bExec, hto.bLock, hto.commits⟩⟩
  | _ => exact ⟨le_rfl, .inl ⟨rfl, rfl⟩⟩

/-- `b_exec` stays below the lock, and three below the newest node. -/
def Locked (c : System Q) : Prop :=
  ∀ p, (c.replicas p).bExec.height = 0 ∨
    (c.replicas p).bExec.height + 1 ≤ (c.replicas p).bLock.height ∧
      (c.replicas p).bExec.height + 3 ≤ c.shared.created.length

theorem Stepped.carried (hG : Growing cfg c) (hs : Stepped cfg c p env ev out c') :
    ∀ src msg node, ev = .message src msg → msg.carries = some node →
      node ∈ c.shared.created := by
  rintro src msg node rfl hn
  exact hG.carried _ hs.consumed_mem node hn

theorem Stepped.advanced (hI : OneChain cfg c) (hI' : OneChain cfg c')
    (hs : Stepped cfg c p env ev out c') :
    Advanced ev c'.shared.created (c.replicas p) (c'.replicas p) := by
  have hl := hI'.growing.linked
  rw [hs.shared] at hl ⊢
  rw [hs.self]
  exact hs.handled.advanced hl (hs.carried hI.growing)

theorem Stepped.length_le (hs : Stepped cfg c p env ev out c') :
    c.shared.created.length ≤ c'.shared.created.length := by
  rw [hs.shared]
  rcases hs.handled.created_cases with h | ⟨_, _, h, -⟩ <;> rw [h]
  exact Nat.le_succ _

theorem Locked.step (hL : Locked c) (hI : OneChain cfg c) (hI' : OneChain cfg c')
    (hs : Stepped cfg c p env ev out c') : Locked c' := by
  have hlen := hs.length_le
  intro q
  by_cases hq : q = p
  · subst hq
    obtain ⟨hle, ⟨hb, -⟩ | ⟨node, hn, -, block, hto⟩⟩ := hs.advanced hI hI'
    · rw [hb]
      have := hL q
      omega
    · have hmax := hI'.growing.linked.height_le hn
      have hbl := hto.bLock
      have hh := hto.height
      rw [hto.bExec]
      omega
  · rw [hs.other hq]
    have := hL q
    omega

/-! ## What a replica holds -/

/-- The map of nodes is keyed by their identifiers. -/
structure Keyed (created : List Node) (s : Hotstuff Q) : Prop where
  key : ∀ id node, s.nodes.lookup id = some node → node.id = id
  onChain : ∀ id node, s.nodes.lookup id = some node → OnChain created node

theorem Keyed.alive_iff {created : List Node} {s : Hotstuff Q} (hk : Keyed created s)
    {elsewhere : Node → Bool} {node : Node} : s.alive elsewhere node = true ↔
      node = .genesis ∨ elsewhere node = true ∨ s.nodes.lookup node.id = some node ∨
        s.bLock = node ∨ s.bExec = node ∨ s.bLeaf = node := by
  have hnodes : (s.nodes.entries.any fun e => e.2 == node) = true ↔
      s.nodes.lookup node.id = some node := by
    rw [List.any_eq_true, ← Option.mem_def, AList.mem_lookup_iff]
    constructor
    · rintro ⟨⟨id, n⟩, he, hn⟩
      obtain rfl : n = node := beq_iff_eq.mp hn
      have hid := hk.key id n (Option.mem_def.mp (AList.mem_lookup_iff.mpr he))
      exact hid ▸ he
    · exact fun he => ⟨_, he, beq_self_eq_true node⟩
  simp only [alive, holds, Bool.or_eq_true, beq_iff_eq, hnodes, or_assoc]

theorem Keyed.insert {created : List Node} {s : Hotstuff Q} (hk : Keyed created s) {node : Node}
    (hn : OnChain created node) {id : NodeId} {n : Node}
    (h : (s.nodes.insert node.id node).lookup id = some n) : n.id = id ∧ OnChain created n := by
  by_cases hid : id = node.id
  · subst hid
    rw [AList.lookup_insert, Option.some.injEq] at h
    exact h ▸ ⟨rfl, hn⟩
  · rw [AList.lookup_insert_ne hid] at h
    exact ⟨hk.key id n h, hk.onChain id n h⟩

theorem Keyed.mono {created created' : List Node} {s : Hotstuff Q} (hk : Keyed created s)
    (hsub : created ⊆ created') : Keyed created' s :=
  ⟨hk.key, fun id n h => (hk.onChain id n h).mono hsub⟩

theorem Updated.nodes {s s' : Hotstuff Q} {shared shared' : Shared} {node : Node}
    (h : Updated s shared node s' shared') {id : NodeId} {n : Node}
    (hn : s'.nodes.lookup id = some n) : s.nodes.lookup id = some n := by
  rcases h.bExec with ⟨-, hs, -⟩ | ⟨block, -, -, hs, -⟩
  · rwa [hs] at hn
  · rw [hs] at hn
    exact (lookup_retain.mp hn).1

theorem Handled.keyed {elsewhere : Node → Bool} {self : Hotstuff Q} {shared : Shared}
    {me : Pid} (h : Handled cfg me env elsewhere self shared ev out)
    (hk : Keyed shared.created self)
    (hmsg : ∀ src msg node, ev = .message src msg → msg.carries = some node →
      node ∈ shared.created) : Keyed out.shared.created out.state := by
  have hk' := hk.mono h.created_subset
  have hins : ∀ {s : Hotstuff Q} {created : List Node},
      (∀ id n, s.nodes.lookup id = some n → n.id = id ∧ OnChain created n) →
      Keyed created s := fun h => ⟨fun id n hn => (h id n hn).1, fun id n hn => (h id n hn).2⟩
  cases h with
  | started self' timers hself => exact ⟨hself.nodes ▸ hk'.key, hself.nodes ▸ hk'.onChain⟩
  | ticked self' timers command hself => exact ⟨hself.nodes ▸ hk'.key, hself.nodes ▸ hk'.onChain⟩
  | submitted src self' command hself => exact ⟨hself.nodes ▸ hk'.key, hself.nodes ▸ hk'.onChain⟩
  | founded self' timers hself =>
    refine hins fun id n hn => ?_
    have hk'' : Keyed _ self' := ⟨hself.nodes ▸ hk'.key, hself.nodes ▸ hk'.onChain⟩
    exact hk''.insert (.inr List.mem_cons_self) hn
  | voted src node leader self' shared' hh hl hu =>
    have hn : node ∈ shared'.created := (update_spec hu).created ▸ hmsg src _ node rfl rfl
    exact hins fun id n h => hk'.insert (.inr hn) ((update_spec hu).nodes h)
  | certified src node leaf self₁ self' shared₁ shared' hb hr hc hu =>
    have hsub : shared.created ⊆ shared'.created := by
      rw [(update_spec hu).created]
      obtain ⟨-, -, -, -, rfl⟩ := createLeaf_spec hc
      exact List.subset_cons_self _ _
    obtain ⟨commands, -, -, rfl, rfl⟩ := createLeaf_spec hc
    have hn : node ∈ shared'.created := hsub (hmsg src _ node rfl rfl)
    have hleaf : leaf ∈ shared'.created := (update_spec hu).created ▸ List.mem_cons_self
    have hcert : Keyed shared'.created ((self.addVote cfg node).1.certify node) :=
      hins fun id n h => hk'.insert (.inr hn) h
    exact hins fun id n h => hcert.insert (.inr hleaf) ((update_spec hu).nodes h)
  | _ => exact ⟨hk'.key, hk'.onChain⟩

/-! ## Late proposals -/

/-- The guard under which `on_message` accepts a proposal. -/
def Accepts (elsewhere : Node → Bool) (self : Hotstuff Q) (node : Node) : Prop :=
  node.height > self.vheight ∧
    (self.extendsLock elsewhere node = true ∨ node.height > self.bLock.height)

/-- The replica still accepts the proposal, although its `b_exec` is only two
heights below, and the parent of `b_exec` is alive. -/
def Overtaken (elsewhere : Node → Bool) (self : Hotstuff Q) (node : Node) : Prop :=
  0 < self.bExec.height ∧ node.height = self.bExec.height + 2 ∧
    self.vheight < node.height ∧ self.bLock.height < node.height ∧
    (self.bExec.parent (self.alive elsewhere)).isSome

/-- The step is not the delivery of a proposal that its replica has overtaken. -/
def System.InTime (cfg : Config Q) (c : System Q) : Action → Prop
  | .deliver ⟨_, p, .propose node⟩ _ => ¬ Overtaken (c.elsewhere cfg p) (c.replicas p) node
  | _ => True

/-- What holds of the fields of the replicas, on top of the chain. -/
structure Placed (cfg : Config Q) (c : System Q) : Prop where
  chain : OneChain cfg c
  locked : Locked c
  keyed : ∀ p, Keyed c.shared.created (c.replicas p)

theorem Keyed.default (created : List Node) : Keyed created (Hotstuff.default : Hotstuff Q) := by
  have h : ∀ id node, (Hotstuff.default : Hotstuff Q).nodes.lookup id = some node →
      id = Node.genesis.id ∧ node = .genesis := by
    intro id node h
    have hmem : (⟨id, node⟩ : Sigma fun _ : NodeId => Node) ∈
        [(⟨Node.genesis.id, .genesis⟩ : Sigma fun _ : NodeId => Node)] :=
      AList.mem_lookup_iff.mp h
    cases List.mem_singleton.mp hmem
    exact ⟨rfl, rfl⟩
  refine ⟨fun id node hn => ?_, fun id node hn => ?_⟩
  · obtain ⟨rfl, rfl⟩ := h id node hn
    rfl
  · exact .inl (h id node hn).2

theorem Placed.init (cfg : Config Q) : Placed cfg System.init :=
  ⟨OneChain.init cfg, fun _ => .inl rfl, fun _ => Keyed.default _⟩

theorem Placed.of_reachable (hcfg : cfg.Valid) (h : System.Reachable cfg c) : Placed cfg c :=
  h.invariant (Placed.init cfg) fun _ _ _ hr _ hI hstep => by
    have hI' := OneChain.of_reachable hcfg (hr.step trivial hstep)
    obtain ⟨p, ev, out, hs⟩ := step_cases hstep
    refine ⟨hI', hI.locked.step hI.chain hI' hs, fun q => ?_⟩
    by_cases hq : q = p
    · subst hq
      rw [hs.self, hs.shared]
      exact hs.handled.keyed (hI.keyed q) (hs.carried hI.chain.growing)
    · rw [hs.other hq, hs.shared]
      exact (hI.keyed q).mono hs.handled.created_subset

theorem Keyed.alive_accept {created : List Node} {s : Hotstuff Q} (hk : Keyed created s)
    (hinj : ∀ a ∈ created, ∀ b ∈ created, a.id = b.id → a = b) {elsewhere : Node → Bool}
    {node n : Node} (hn : node ∈ created) (hin : elsewhere node = true)
    (hon : OnChain created n) :
    (s.accept node).alive elsewhere n = true ↔ s.alive elsewhere n = true := by
  have hk' : Keyed created (s.accept node) :=
    ⟨fun id n h => (hk.insert (.inr hn) h).1, fun id n h => (hk.insert (.inr hn) h).2⟩
  rw [hk'.alive_iff, hk.alive_iff]
  by_cases hid : n.id = node.id
  · rcases hon with rfl | hon
    · simp
    · cases hinj n hon node hn hid
      simp [hin]
  · have hl : (s.accept node).nodes.lookup n.id = s.nodes.lookup n.id := AList.lookup_insert_ne hid
    rw [hl]
    rfl

section

variable {elsewhere : Node → Bool} {self : Hotstuff Q} {shared : Shared}

theorem extendsLock_iff {node : Node} : self.extendsLock elsewhere node = true ↔
    ∃ parent, node.parent (self.alive elsewhere) = some parent ∧ parent.id = self.bLock.id := by
  unfold extendsLock
  rw [Option.any_eq_true]
  simp only [beq_iff_eq]

theorem propose_spec {node : Node}
    (h : self.onMessage cfg env elsewhere shared (.propose node) = some out) :
    ¬ Accepts elsewhere self node ∧ out.state = self ∨
      Accepts elsewhere self node ∧
        (self.accept node).update elsewhere shared node = some (out.state, out.shared) := by
  simp only [onMessage] at h
  by_cases hacc : node.height > self.vheight ∧
      (self.extendsLock elsewhere node = true ∨ node.height > self.bLock.height)
  · rw [if_pos hacc] at h
    obtain ⟨leader, -, h⟩ := Option.bind_eq_some_iff.mp h
    obtain ⟨⟨self', shared'⟩, hu, h⟩ := Option.bind_eq_some_iff.mp h
    cases h
    exact .inr ⟨hacc, hu⟩
  · rw [if_neg hacc] at h
    cases h
    exact .inl ⟨hacc, rfl⟩

end

theorem elsewhere_of_mem {packet : Packet} (hin : packet ∈ c.network) {node : Node}
    (hm : packet.msg.carries = some node) : c.elsewhere cfg p node = true := by
  unfold System.elsewhere
  rw [Bool.or_eq_true]
  exact .inr (List.any_eq_true.mpr ⟨packet, hin, by rw [hm]; exact beq_self_eq_true _⟩)

theorem Placed.alive_accept (hP : Placed cfg c) {src : Pid} {node n : Node}
    (hin : ⟨src, p, .propose node⟩ ∈ c.network) (hon : OnChain c.shared.created n) :
    ((c.replicas p).accept node).alive (c.elsewhere cfg p) n = true ↔
      (c.replicas p).alive (c.elsewhere cfg p) n = true :=
  (hP.keyed p).alive_accept (fun _ ha _ hb => hP.chain.growing.eq_of_id ha hb)
    (hP.chain.growing.carried _ hin node rfl) (elsewhere_of_mem hin rfl) hon

theorem parent_eq_some {alive : Node → Bool} {node parent : Node} :
    node.parent alive = some parent ↔ node.parentRef = some parent ∧ alive parent = true :=
  Option.filter_eq_some_iff

theorem Placed.overtaken_of_lt (hP : Placed cfg c) {src : Pid} {node block : Node}
    (hin : ⟨src, p, .propose node⟩ ∈ c.network)
    (hacc : Accepts (c.elsewhere cfg p) (c.replicas p) node)
    (hgg : node.greatGrandparent (((c.replicas p).accept node).alive (c.elsewhere cfg p)) =
      some block) (hlt : block.height < (c.replicas p).bExec.height) :
    Overtaken (c.elsewhere cfg p) (c.replicas p) node := by
  have hG := hP.chain.growing
  have hn := hG.carried _ hin node rfl
  obtain ⟨q, g, hq, hgq, hbg, hqon, hgon, hbon, hqh, hgh, hbh⟩ :=
    greatGrandparent_spec hG.linked (.inr hn) hgg
  have hlock : (c.replicas p).bExec.height + 1 ≤ (c.replicas p).bLock.height := by
    have := hP.locked p
    omega
  have habove : (c.replicas p).bLock.height < node.height := by
    rcases hacc.2 with hext | h
    · obtain ⟨q', hq', hid⟩ := extendsLock_iff.mp hext
      obtain rfl : q = q' := Option.some.inj
        ((parentRef_of_parent hq).symm.trans (parentRef_of_parent hq'))
      have hqc := mem_of_height_pos hqon (by omega)
      have hlc := mem_of_height_pos (hG.fields p).bLock (by omega)
      rw [← hG.eq_of_id hqc hlc hid]
      omega
    · exact h
  have hexec : g = (c.replicas p).bExec := hG.linked.eq_of_height
    (mem_of_height_pos hgon (by omega)) (mem_of_height_pos (hG.fields p).bExec (by omega))
    (by omega)
  refine ⟨by omega, by omega, hacc.1, habove, ?_⟩
  obtain ⟨hbref, hbalive⟩ := parent_eq_some.mp hbg
  rw [hP.alive_accept hin hbon] at hbalive
  rw [← hexec, parent_eq_some.mpr ⟨hbref, hbalive⟩]
  rfl

theorem Placed.lt_of_overtaken (hP : Placed cfg c) {src : Pid} {node : Node}
    (hin : ⟨src, p, .propose node⟩ ∈ c.network)
    (hov : Overtaken (c.elsewhere cfg p) (c.replicas p) node) :
    Accepts (c.elsewhere cfg p) (c.replicas p) node ∧ ∃ block,
      node.greatGrandparent (((c.replicas p).accept node).alive (c.elsewhere cfg p)) =
        some block ∧ block.height < (c.replicas p).bExec.height := by
  obtain ⟨hpos, hh, hv, hl, hbelow⟩ := hov
  obtain ⟨block, hblock⟩ := Option.isSome_iff_exists.mp hbelow
  obtain ⟨hbref, hbalive⟩ := parent_eq_some.mp hblock
  have hG := hP.chain.growing
  have hlin := hG.linked
  have hn := hG.carried _ hin node rfl
  have hlock : (c.replicas p).bExec.height + 1 ≤ (c.replicas p).bLock.height := by
    have := hP.locked p
    omega
  have hec := mem_of_height_pos (hG.fields p).bExec hpos
  have hlc := mem_of_height_pos (hG.fields p).bLock (by omega)
  obtain ⟨q, hq, hqon, hqh⟩ := hlin.parent_spec rfl hn
  obtain rfl : q = (c.replicas p).bLock :=
    hlin.eq_of_height (mem_of_height_pos hqon (by omega)) hlc (by omega)
  obtain ⟨g, hg, hgon, hgh⟩ := hlin.parent_spec rfl hlc
  obtain rfl : g = (c.replicas p).bExec :=
    hlin.eq_of_height (mem_of_height_pos hgon (by omega)) hec (by omega)
  obtain ⟨b, hb, hbon, hbh⟩ := hlin.parent_spec rfl hec
  obtain rfl : b = block := Option.some.inj (hb.symm.trans hbref)
  have hk := hP.keyed p
  refine ⟨⟨hv, .inr hl⟩, b, ?_, by omega⟩
  unfold Node.greatGrandparent
  rw [parent_eq_some.mpr ⟨hq, (hP.alive_accept hin hqon).mpr (hk.alive_iff.mpr (by simp))⟩,
    Option.bind_some,
    parent_eq_some.mpr ⟨hg, (hP.alive_accept hin hgon).mpr (hk.alive_iff.mpr (by simp))⟩,
    Option.bind_some, parent_eq_some.mpr ⟨hbref, (hP.alive_accept hin hbon).mpr hbalive⟩]

theorem step_deliver {packet : Packet} :
    System.step cfg c (.deliver packet env) = some c' ↔
      c.Fresh env ∧ packet ∈ c.network ∧ ∃ out,
        (c.replicas packet.dst).onMessage cfg env (c.elsewhere cfg packet.dst) c.shared
          packet.msg = some out ∧
        System.update { c with
          network := c.network.erase packet
          delivered := packet :: c.delivered } packet.dst env out = c' := by
  unfold System.step
  rw [Option.ite_none_right_eq_some, Option.ite_none_right_eq_some, Option.map_eq_some_iff]
  rfl

theorem Placed.bExec_le (hP : Placed cfg c) (hP' : Placed cfg c')
    (hs : Stepped cfg c p env ev out c') (hne : ∀ src node, ev ≠ .message src (.propose node)) :
    (c.replicas p).bExec.height ≤ (c'.replicas p).bExec.height := by
  obtain ⟨-, ⟨hb, -⟩ | ⟨node, -, ⟨src, hev⟩ | htop, block, hto⟩⟩ := hs.advanced hP.chain hP'.chain
  · rw [hb]
  · exact absurd hev (hne src node)
  · have hlen := hs.length_le
    have hh := hto.height
    have hlow := hP.locked p
    rw [hto.bExec]
    omega

/-- **A step takes no replica's `b_exec` back exactly when it is in time.** -/
theorem Placed.inTime_iff (hP : Placed cfg c) (hP' : Placed cfg c') {a : Action}
    (hstep : System.step cfg c a = some c') : System.InTime cfg c a ↔
      ∀ q, (c.replicas q).bExec.height ≤ (c'.replicas q).bExec.height := by
  obtain ⟨out, hs⟩ := step_stepped hstep
  have hother : (∀ q, (c.replicas q).bExec.height ≤ (c'.replicas q).bExec.height) ↔
      (c.replicas a.pid).bExec.height ≤ (c'.replicas a.pid).bExec.height := by
    refine ⟨fun h => h _, fun h q => ?_⟩
    by_cases hq : q = a.pid
    · exact hq ▸ h
    · rw [hs.other hq]
  rw [hother]
  have hgo : (∀ src node, a.event ≠ .message src (.propose node)) → (System.InTime cfg c a ↔
      (c.replicas a.pid).bExec.height ≤ (c'.replicas a.pid).bExec.height) := by
    intro hne
    refine iff_of_true ?_ (hP.bExec_le hP' hs hne)
    unfold System.InTime
    split
    · exact absurd rfl (hne _ _)
    · trivial
  cases a with
  | start pid env => exact hgo fun _ _ h => by cases h
  | timer pid id env => exact hgo fun _ _ h => by cases h
  | deliver packet env =>
    obtain ⟨src, p, msg⟩ := packet
    cases msg with
    | submit command => exact hgo fun _ _ h => by cases h
    | vote node => exact hgo fun _ _ h => by cases h
    | propose node =>
      obtain ⟨-, hin, out', hout, rfl⟩ := step_deliver.mp hstep
      have hself : ((System.update { c with
          network := c.network.erase ⟨src, p, .propose node⟩
          delivered := ⟨src, p, .propose node⟩ :: c.delivered } p env out').replicas p) =
            out'.state := Function.update_self ..
      show ¬ Overtaken (c.elsewhere cfg p) (c.replicas p) node ↔
        (c.replicas p).bExec.height ≤ _
      rw [← Nat.not_lt, not_iff_not, show Action.pid _ = p from rfl, hself]
      rcases propose_spec hout with ⟨hrej, hst⟩ | ⟨hacc, hu⟩
      · rw [hst]
        exact iff_of_false (fun hov => hrej (hP.lt_of_overtaken hin hov).1) (Nat.lt_irrefl _)
      · have hG := hP.chain.growing
        obtain ⟨-, ⟨hgg, hb, -⟩ | ⟨block, hgg, hto⟩⟩ :=
          update_commits hG.linked (hG.carried _ hin node rfl) hu
        · rw [hb]
          refine iff_of_false (fun hov => ?_) (Nat.lt_irrefl _)
          obtain ⟨-, block, hblock, -⟩ := hP.lt_of_overtaken hin hov
          rw [hgg] at hblock
          cases hblock
        · rw [hto.bExec]
          refine ⟨fun hov => ?_, hP.overtaken_of_lt hin hacc hgg⟩
          obtain ⟨-, b, hb, hlt⟩ := hP.lt_of_overtaken hin hov
          rw [hgg, Option.some.injEq] at hb
          exact hb ▸ hlt

instance (elsewhere : Node → Bool) (self : Hotstuff Q) (node : Node) :
    Decidable (Overtaken elsewhere self node) :=
  inferInstanceAs (Decidable (_ ∧ _ ∧ _ ∧ _ ∧ _))

instance (cfg : Config Q) (c : System Q) (a : Action) : Decidable (System.InTime cfg c a) :=
  match a with
  | .start _ _ => isTrue trivial
  | .timer _ _ _ => isTrue trivial
  | .deliver ⟨_, _, .submit _⟩ _ => isTrue trivial
  | .deliver ⟨_, _, .vote _⟩ _ => isTrue trivial
  | .deliver ⟨_, p, .propose node⟩ _ =>
    inferInstanceAs (Decidable (¬ Overtaken (c.elsewhere cfg p) (c.replicas p) node))

/-! ## Whole runs -/

/-- The blocks a replica has counted, in the order of the chain. -/
def CommitsInOrder (created : List Node) (s : Hotstuff Q) : Prop :=
  s.commits ⊆ created ∧ s.commits.map Node.height = List.range' 1 s.bExec.height

theorem CommitsInOrder.advanced {created created' : List Node} {s s' : Hotstuff Q}
    (h : CommitsInOrder created s) (hl : LinkedNodes created') (hsub : created ⊆ created')
    (ha : Advanced ev created' s s') (hle : s.bExec.height ≤ s'.bExec.height) :
    CommitsInOrder created' s' := by
  obtain ⟨-, ⟨hb, hc⟩ | ⟨node, -, -, block, hto⟩⟩ := ha
  · unfold CommitsInOrder
    rw [hb, hc]
    exact ⟨List.Subset.trans h.1 hsub, h.2⟩
  · unfold CommitsInOrder
    rw [hto.commits, List.map_append, h.2, toCommit_heights hl s hto.onChain]
    refine ⟨List.append_subset.mpr
      ⟨List.Subset.trans h.1 hsub, toCommit_subset hl s hto.onChain⟩, ?_⟩
    rw [hto.bExec] at hle ⊢
    rw [Nat.add_comm _ 1, List.range'_append_1]
    congr 1
    omega

/-- The runs in which no replica goes back. -/
abbrev System.TimelyRun (cfg : Config Q) (c c' : System Q) : Prop :=
  Transition.Reachable (System.step cfg) c (System.InTime cfg) c'

theorem Placed.of_timely (hcfg : cfg.Valid) (h : System.TimelyRun cfg System.init c) :
    Placed cfg c := Placed.of_reachable hcfg (h.weaken fun _ _ _ => trivial)

/-- **A step in time** goes on where the replica was. -/
theorem Placed.timely_step (hP : Placed cfg c) (hP' : Placed cfg c') {a : Action}
    (hok : System.InTime cfg c a) (hstep : System.step cfg c a = some c') (q : Pid) :
    (c.replicas q).commits <+: (c'.replicas q).commits ∧
      (CommitsInOrder c.shared.created (c.replicas q) →
        CommitsInOrder c'.shared.created (c'.replicas q)) := by
  obtain ⟨out, hs⟩ := step_stepped hstep
  have hsub : c.shared.created ⊆ c'.shared.created := hs.shared ▸ hs.handled.created_subset
  have hle := (hP.inTime_iff hP' hstep).mp hok q
  by_cases hq : q = a.pid
  · subst hq
    have ha := hs.advanced hP.chain hP'.chain
    refine ⟨?_, fun h => h.advanced hP'.chain.growing.linked hsub ha hle⟩
    obtain ⟨-, ⟨-, hc⟩ | ⟨node, -, -, block, hto⟩⟩ := ha
    · rw [hc]
    · rw [hto.commits]
      exact List.prefix_append _ _
  · rw [hs.other hq]
    exact ⟨List.prefix_rfl, fun h => ⟨List.Subset.trans h.1 hsub, h.2⟩⟩

theorem CommitsInOrder.of_timely (hcfg : cfg.Valid) (h : System.TimelyRun cfg System.init c)
    (q : Pid) : CommitsInOrder c.shared.created (c.replicas q) := by
  induction h with
  | init => exact ⟨List.nil_subset _, rfl⟩
  | step hr hok hs ih =>
    exact ((Placed.of_timely hcfg hr).timely_step (.of_timely hcfg (hr.step hok hs)) hok hs q).2 ih

theorem System.TimelyRun.mono (hcfg : cfg.Valid) (h : System.TimelyRun cfg System.init c)
    (h' : System.TimelyRun cfg c c') (q : Pid) :
    (c.replicas q).bExec.height ≤ (c'.replicas q).bExec.height ∧
      (c.replicas q).commits <+: (c'.replicas q).commits := by
  induction h' with
  | init => exact ⟨le_rfl, List.prefix_rfl⟩
  | step hr hok hs ih =>
    have hP := Placed.of_timely hcfg (h.append hr)
    have hP' := Placed.of_timely hcfg ((h.append hr).step hok hs)
    exact ⟨ih.1.trans ((hP.inTime_iff hP' hs).mp hok q),
      ih.2.trans (hP.timely_step hP' hok hs q).1⟩

/-- **Each block is committed once**, in the order of the chain: in every run in
which no replica accepts a proposal it has overtaken, `b_exec` never goes back,
and the blocks a replica has counted are those of heights 1, 2, 3, ... up to its
`b_exec`; the next step takes some `b_exec` back exactly when it delivers such a
proposal. -/
theorem commits_in_order (cfg : Config Q) (hcfg : cfg.Valid) (c c' : System Q)
    (h : System.TimelyRun cfg System.init c) (h' : System.TimelyRun cfg c c') :
    (∀ p, (c.replicas p).bExec.height ≤ (c'.replicas p).bExec.height ∧
      (c.replicas p).commits <+: (c'.replicas p).commits) ∧
    (∀ p, (c'.replicas p).commits ⊆ c'.shared.created ∧
      (c'.replicas p).commits.map Node.height = List.range' 1 (c'.replicas p).bExec.height) ∧
    ∀ a c'', System.step cfg c' a = some c'' → (System.InTime cfg c' a ↔
      ∀ p, (c'.replicas p).bExec.height ≤ (c''.replicas p).bExec.height) := by
  refine ⟨h.mono hcfg h', CommitsInOrder.of_timely hcfg (h.append h'), fun a c'' hstep => ?_⟩
  have hr : System.Reachable cfg c' := (h.append h').weaken fun _ _ _ => trivial
  exact (Placed.of_reachable hcfg hr).inTime_iff
    (.of_reachable hcfg (hr.step trivial hstep)) hstep

/-- Two replicas with rotating leaders, each of which gets its proposals in time. -/
theorem commits_in_order_two :
    let cfg : Config ℤ := .standard true [0, 1]
    ∃ c, System.TimelyRun cfg System.init c ∧ (c.replicas 1).bExec.height = 1 ∧
      (c.replicas 1).commits.map Node.height = [1] := by
  intro cfg
  let n₁ : Node := .child 1 .genesis 1 []
  let n₂ : Node := .child 5 n₁ 2 []
  let n₃ : Node := .child 9 n₂ 3 []
  let run : List Action := [.start 0 (.counting 1),
    .recv 2 0 0 (.propose n₁), .recv 3 0 1 (.propose n₁),
    .recv 4 0 1 (.vote n₁), .recv 5 1 1 (.vote n₁),
    .recv 6 1 0 (.propose n₂), .recv 7 1 1 (.propose n₂),
    .recv 8 0 0 (.vote n₂), .recv 9 1 0 (.vote n₂),
    .recv 10 0 0 (.propose n₃), .recv 11 0 1 (.propose n₃),
    .recv 12 0 1 (.vote n₃), .recv 13 1 1 (.vote n₃)]
  have hrun : (Transition.exec (System.step cfg) (fun c a => decide (System.InTime cfg c a))
      System.init run).any (fun c => decide ((c.replicas 1).bExec.height = 1)) = true := by
    decide +kernel
  obtain ⟨c, hc, hd⟩ := (Option.any_eq_true _ _).mp hrun
  have h1 := of_decide_eq_true hd
  have hreach : System.TimelyRun cfg System.init c :=
    Transition.Reachable.exec (fun _ _ => of_decide_eq_true) .init hc
  have hcfg : cfg.Valid := Config.standard_valid (by decide) (by decide)
  have hcommits := (commits_in_order cfg hcfg c c hreach .init).2.1 1
  exact ⟨c, hreach, h1, by rw [hcommits.2, h1]; rfl⟩

/-- **A block counted twice.** Four replicas, the leader is replica 0. Its quorums
for the first three nodes come before its own proposals. When its third proposal
arrives `b_exec` goes back from the first node to the genesis node, and with the
fourth the first node is counted again. -/
theorem overtaken_block_counted_twice :
    let cfg : Config ℤ := .standard false [0, 1, 2, 3]
    let n₁ : Node := .child 1 .genesis 1 []
    ∃ c a c' b c'', System.Reachable cfg c ∧ System.step cfg c a = some c' ∧
      (c'.replicas 0).bExec.height < (c.replicas 0).bExec.height ∧
      System.step cfg c' b = some c'' ∧ (c''.replicas 0).commits = [n₁, n₁] := by
  intro cfg n₁
  let n₂ : Node := .child 7 n₁ 2 []
  let n₃ : Node := .child 13 n₂ 3 []
  let n₄ : Node := .child 19 n₃ 4 []
  let run : List Action := [.start 0 (.counting 1),
    .recv 2 0 1 (.propose n₁), .recv 3 0 2 (.propose n₁), .recv 4 0 3 (.propose n₁),
    .recv 5 1 0 (.vote n₁), .recv 6 2 0 (.vote n₁), .recv 7 3 0 (.vote n₁),
    .recv 8 0 1 (.propose n₂), .recv 9 0 2 (.propose n₂), .recv 10 0 3 (.propose n₂),
    .recv 11 1 0 (.vote n₂), .recv 12 2 0 (.vote n₂), .recv 13 3 0 (.vote n₂),
    .recv 14 0 1 (.propose n₃), .recv 15 0 2 (.propose n₃), .recv 16 0 3 (.propose n₃),
    .recv 17 1 0 (.vote n₃), .recv 18 2 0 (.vote n₃), .recv 19 3 0 (.vote n₃)]
  let a := Action.recv 20 0 0 (.propose n₃)
  let b := Action.recv 21 0 0 (.propose n₄)
  have hrun : (System.execute cfg run).any (fun c => (System.step cfg c a).any fun c' =>
      decide ((c'.replicas 0).bExec.height < (c.replicas 0).bExec.height) &&
        (System.step cfg c' b).any fun c'' => decide ((c''.replicas 0).commits = [n₁, n₁])) =
      true := by decide +kernel
  obtain ⟨c, hc, hd⟩ := (Option.any_eq_true _ _).mp hrun
  obtain ⟨c', hc', hd⟩ := (Option.any_eq_true _ _).mp hd
  rw [Bool.and_eq_true] at hd
  obtain ⟨c'', hc'', hd'⟩ := (Option.any_eq_true _ _).mp hd.2
  exact ⟨c, a, c', b, c'', System.reachable_execute hc, hc', of_decide_eq_true hd.1, hc'',
    of_decide_eq_true hd'⟩

end Blsmr.Hotstuff
