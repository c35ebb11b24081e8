import Blsmr.Hotstuff.Ancestors
import Blsmr.Hotstuff.Commands

/-!
# Three nodes above a block commit it

Who votes for a node stores it, and `b_exec` stays three heights below the newest node,
so a node at that height or above is nowhere collected (`Stored`). A leader that makes a
leaf therefore finds its great-grandparent alive and commits it. The flags that the
replicas share are those of the blocks with three nodes above them, no more and no fewer
(`committed_exact`), although one replica alone may count blocks late, or twice.

A command in the pending map of a replica goes into the leaf that the replica makes on its
next turn as the leader, unless a node has taken it before (`waiting_commits`).
-/

namespace Blsmr.Hotstuff

open Blsmr.Chain Blsmr.Transition

variable {Q : Type} {cfg : Config Q} {c c' : System Q} {p : Pid} {env : Env} {ev : Event}
  {out : Outcome Q}

/-! ## What the replicas keep -/

/-- Who voted for a node has it in its map, while `collect_garbage` cannot reach it. -/
def Stored (c : System Q) : Prop :=
  ∀ pkt ∈ c.network ++ c.delivered, ∀ node, pkt.msg = .vote node →
    c.shared.created.length ≤ node.height + 3 →
      (c.replicas pkt.src).nodes.lookup node.id = some node

theorem Updated.lookup_nodes {s s' : Hotstuff Q} {shared shared' : Shared} {node n : Node}
    {created : List Node} (h : Updated s shared node s' shared') (hl : LinkedNodes created)
    (hn : node ∈ created) (hlow : created.length ≤ n.height + 3)
    (hs : s.nodes.lookup n.id = some n) : s'.nodes.lookup n.id = some n := by
  rcases h.bExec with ⟨-, hnodes, -⟩ | ⟨block, -, href, hnodes, -⟩
  · rw [hnodes, hs]
  · have hh := height_of_refs hl (.inr hn) href
    have hmax := hl.height_le hn
    rw [hnodes, lookup_retain]
    exact ⟨hs, decide_eq_true (by omega)⟩

section

variable {elsewhere : Node → Bool} {self : Hotstuff Q} {shared : Shared} {me : Pid}

theorem Handled.lookup_nodes (h : Handled cfg me env elsewhere self shared ev out)
    (hl : LinkedNodes out.shared.created)
    (hinj : ∀ a ∈ out.shared.created, ∀ b ∈ out.shared.created, a.id = b.id → a = b)
    (hmsg : ∀ src msg node, ev = .message src msg → msg.carries = some node →
      node ∈ shared.created) {n : Node} (hn : n ∈ shared.created)
    (hlow : out.shared.created.length ≤ n.height + 3) (hs : self.nodes.lookup n.id = some n) :
    out.state.nodes.lookup n.id = some n := by
  have hsub := h.created_subset
  have hins : ∀ {m : AList fun _ : NodeId => Node} {b : Node}, m.lookup n.id = some n →
      b ∈ out.shared.created → (m.insert b.id b).lookup n.id = some n :=
    fun hm hb => lookup_insert_self_or hm (hinj _ (hsub hn) _ hb)
  cases h with
  | started self' timers hself => rw [← hself.nodes] at hs; exact hs
  | ticked self' timers command hself => rw [← hself.nodes] at hs; exact hs
  | submitted src self' command hself => rw [← hself.nodes] at hs; exact hs
  | founded self' timers hself =>
    rw [← hself.nodes] at hs
    exact hins hs List.mem_cons_self
  | voted src node leader self' shared' hh hl' hu =>
    have hnode : node ∈ shared'.created := hsub (hmsg src _ node rfl rfl)
    exact (update_spec hu).lookup_nodes hl hnode hlow (hins hs hnode)
  | certified src node leaf self₁ self' shared₁ shared' hb hr hc hu =>
    obtain ⟨commands, -, -, rfl, rfl⟩ := createLeaf_spec hc
    have hcr : shared'.created = leaf :: shared.created := (update_spec hu).created
    have hleaf : leaf ∈ shared'.created := hcr ▸ List.mem_cons_self
    have hnode : node ∈ shared'.created := hsub (hmsg src _ node rfl rfl)
    exact (update_spec hu).lookup_nodes hl hleaf hlow (hins (hins hs hnode) hleaf)
  | _ => exact hs

theorem Handled.stores_vote (h : Handled cfg me env elsewhere self shared ev out)
    (hl : LinkedNodes out.shared.created)
    (hmsg : ∀ src msg node, ev = .message src msg → msg.carries = some node →
      node ∈ shared.created) {dst : Pid} {node : Node} (hm : (dst, .vote node) ∈ out.sends)
    (hlow : out.shared.created.length ≤ node.height + 3) :
    out.state.nodes.lookup node.id = some node := by
  have hsub := h.created_subset
  cases h with
  | founded =>
    obtain ⟨q, -, he⟩ := List.mem_map.mp hm
    cases he
  | ticked =>
    obtain ⟨q, -, he⟩ := List.mem_map.mp hm
    cases he
  | certified =>
    obtain ⟨q, -, he⟩ := List.mem_map.mp hm
    cases he
  | voted src node' leader self' shared' hh hl' hu =>
    cases List.mem_singleton.mp hm
    exact (update_spec hu).lookup_nodes hl (hsub (hmsg src _ node rfl rfl)) hlow
      (AList.lookup_insert _)
  | _ => cases hm

end

theorem Stored.step (hS : Stored c) (hI : OneChain cfg c) (hI' : OneChain cfg c')
    (hs : Stepped cfg c p env ev out c') : Stored c' := by
  have hl := hI'.growing.linked
  have hinj : ∀ a ∈ c'.shared.created, ∀ b ∈ c'.shared.created, a.id = b.id → a = b :=
    fun a ha b hb => hI'.growing.eq_of_id ha hb
  have hmsg := hs.carried hI.growing
  have hlen := hs.length_le
  intro pkt hpkt node hm hlow
  rw [hs.perm.mem_iff, List.mem_append, mem_packets] at hpkt
  rw [hs.shared] at hl hinj hlow
  rcases hpkt with ⟨hsrc, hsend⟩ | hpkt
  · rw [hsrc, hs.self]
    exact hs.handled.stores_vote hl hmsg (hm ▸ hsend) hlow
  · have hn := (hI.voting.vote pkt hpkt node hm).1
    have hold := hS pkt hpkt node hm (by rw [hs.shared] at hlen; omega)
    by_cases hq : pkt.src = p
    · rw [hq, hs.self]
      exact hs.handled.lookup_nodes hl hinj hmsg hn hlow (hq ▸ hold)
    · rw [hs.other hq]
      exact hold

theorem stored_of_reachable (hcfg : cfg.Valid) (h : System.Reachable cfg c) : Stored c :=
  h.invariant (fun _ h => by cases h) fun _ _ _ hr _ hI hstep => by
    obtain ⟨p, ev, out, hs⟩ := step_cases hstep
    exact hI.step (.of_reachable hcfg hr) (.of_reachable hcfg (hr.step trivial hstep)) hs

theorem holds_of_lookup {s : Hotstuff Q} {n : Node} (h : s.nodes.lookup n.id = some n) :
    s.holds n = true := by
  have hmem : (s.nodes.entries.any fun e => e.2 == n) = true :=
    List.any_eq_true.mpr ⟨⟨n.id, n⟩, AList.mem_lookup_iff.mp h, beq_self_eq_true n⟩
  simp only [holds, hmem, Bool.true_or]

/-- **A node with a child lives on** until four nodes are above it: a voter still has it. -/
theorem Stored.alive (hS : Stored c) (hI : OneChain cfg c) {n : Node}
    (hn : n ∈ c.shared.created) (hlt : n.height < c.shared.created.length)
    (hlow : c.shared.created.length ≤ n.height + 3) (p : Pid) :
    (c.replicas p).alive (c.elsewhere cfg p) n = true := by
  have hvotes := hI.tallied.certified n hn hlt
  have hpos : 0 < (c.votesFor n).length := by
    unfold quorumSize at hvotes
    omega
  obtain ⟨pkt, hpkt⟩ := List.exists_mem_of_length_pos hpos
  obtain ⟨hdel, hm⟩ := List.mem_filter.mp hpkt
  have hin := List.mem_append_right c.network hdel
  have hm := of_decide_eq_true hm
  have hheld := holds_of_lookup (hS pkt hin n hm hlow)
  have hsrc := (hI.voting.vote pkt hin n hm).2.2.1
  unfold Hotstuff.alive
  by_cases hq : pkt.src = p
  · rw [← hq, hheld, Bool.or_true]
  · have helse : c.elsewhere cfg p n = true := by
      unfold System.elsewhere
      rw [Bool.or_eq_true, List.any_eq_true]
      exact .inl ⟨pkt.src, hsrc, by rw [hheld, bne_iff_ne.mpr hq]; rfl⟩
    rw [helse, Bool.or_true, Bool.true_or]

/-! ## A leader commits with its leaf -/

theorem Placed.leaf_greatGrandparent (hP : Placed cfg c) (hS : Stored c)
    (hstored : LeafStored (c.replicas p)) {src : Pid} {node leaf : Node}
    (hin : ⟨src, p, .vote node⟩ ∈ c.network) (henv : c.Fresh env)
    (htop : node.height = c.shared.created.length) (hhigh : 1 < node.height)
    {self₁ : Hotstuff Q} {shared₁ : Shared}
    (hc : (((c.replicas p).addVote cfg node).1.certify node).createLeaf env c.shared =
      (self₁, shared₁, leaf)) :
    ∃ block, leaf.greatGrandparent (self₁.alive (c.elsewhere cfg p)) = some block := by
  have hG := hP.chain.growing
  have hn := hG.carried _ hin node rfl
  obtain ⟨hk₁, -, -, hleaf, href, -⟩ := hP.certified_spec hin henv hc
  have halive : ∀ n, OnChain c.shared.created n → n.height < c.shared.created.length →
      c.shared.created.length ≤ n.height + 3 → self₁.alive (c.elsewhere cfg p) n = true := by
    intro n hon hlt hlow
    rw [hP.alive_leaf hstored hin henv hc hon]
    rcases hon with rfl | hn
    · exact (hP.keyed p).alive_iff.mpr (.inl rfl)
    · exact hS.alive hP.chain hn hlt hlow p
  obtain ⟨g, hg, hgon, hgh⟩ := hG.linked.parent_spec rfl hn
  obtain ⟨b, hb, hbon, hbh⟩ :=
    hG.linked.parent_spec rfl (mem_of_height_pos hgon (by omega))
  have hnode : leaf.parent (self₁.alive (c.elsewhere cfg p)) = some node :=
    parent_eq_some.mpr ⟨href, hk₁.alive_iff.mpr (by simp [hleaf])⟩
  have hgrand := parent_eq_some.mpr ⟨hg, halive g hgon (by omega) (by omega)⟩
  have hgreat := parent_eq_some.mpr ⟨hb, halive b hbon (by omega) (by omega)⟩
  refine ⟨b, ?_⟩
  unfold Node.greatGrandparent
  rw [hnode, Option.bind_some, hgrand, Option.bind_some, hgreat]

/-- **Whoever makes a leaf commits up to three heights below it.** -/
theorem Placed.commits_with_leaf (hP : Placed cfg c) (hP' : Placed cfg c') (hS : Stored c)
    (hstored : LeafStored (c.replicas p)) (hcfg : cfg.Valid)
    (hs : Stepped cfg c p env ev out c') (henv : c.Fresh env)
    (hgrow : c'.shared.created.length = c.shared.created.length + 1)
    (hhigh : 3 ≤ c'.shared.created.length) :
    (c'.replicas p).bExec.height + 3 = c'.shared.created.length := by
  have hG := hP.chain.growing
  have hl := hP'.chain.growing.linked
  rw [hs.self]
  rw [hs.shared] at hl hgrow hhigh ⊢
  cases hs.handled with
  | founded self' timers hself hpc hme =>
    have hnil : c.shared.created = [] := by
      by_contra hne
      exact (hs.start rfl).2.1 (hme ▸ hG.started hne)
    rw [hnil, List.length_nil] at hgrow
    omega
  | voted src node leader self' shared' hh hl' hu =>
    rw [(update_spec hu).created] at hgrow
    omega
  | certified src node leaf self₁ self' shared₁ shared' hb hr hc hu =>
    have hin := hs.consumed_mem
    have htop := hP.chain.tallied.newest hcfg hP.chain.voting hG hin hr
    obtain ⟨block, hblock⟩ := hP.leaf_greatGrandparent hS hstored hin henv htop
      (by omega) hc
    obtain ⟨commands, -, -, rfl, rfl⟩ := createLeaf_spec hc
    have hcr : shared'.created = leaf :: c.shared.created := (update_spec hu).created
    have hleaf : leaf ∈ shared'.created := hcr ▸ List.mem_cons_self
    have hh : leaf.height = shared'.created.length := by
      rw [hcr] at hl ⊢
      exact hl.2.1
    obtain ⟨-, ⟨hnone, -⟩ | ⟨b, -, hto⟩⟩ := update_commits hl hleaf hu
    · rw [hblock] at hnone
      cases hnone
    · rw [hto.bExec, hto.height, hh]
  | _ => exact absurd hgrow (Nat.ne_of_lt (Nat.lt_succ_self _))

/-! ## The flags -/

/-- The command is in a block with three nodes above it. -/
def System.Deep (c : System Q) (i : CmdId) : Prop :=
  ∃ node ∈ c.shared.created, node.height + 3 ≤ c.shared.created.length ∧
    ∃ command ∈ node.commands, command.id = i

theorem System.Deep.mono {i : CmdId} (h : c.Deep i)
    (hsub : c.shared.created ⊆ c'.shared.created)
    (hlen : c.shared.created.length ≤ c'.shared.created.length) : c'.Deep i := by
  obtain ⟨node, hn, hh, hcmd⟩ := h
  exact ⟨node, hsub hn, hh.trans hlen, hcmd⟩

theorem Updated.flags {s s' : Hotstuff Q} {shared shared' : Shared} {node : Node}
    (h : Updated s shared node s' shared') (hl : LinkedNodes shared'.created)
    (hn : node ∈ shared'.created) (hexec : OnChain shared'.created s'.bExec) {i : CmdId}
    (hi : i ∈ shared'.committed) : i ∈ shared.committed ∨ ∃ block ∈ shared'.created,
      block.height + 3 ≤ shared'.created.length ∧ ∃ command ∈ block.commands, command.id = i := by
  rcases h.bExec with ⟨-, -, -, -, rfl⟩ | ⟨block, rfl, href, -, -, -, hcount⟩
  · exact .inl hi
  · refine ((hcount.committed i).mp hi).imp_right fun ⟨b, hb, hcmd⟩ => ?_
    have hh := height_of_refs hl (.inr hn) href
    have hmax := hl.height_le hn
    have hmem : b.height ∈ (s.toCommit s'.bExec).map Node.height := List.mem_map_of_mem hb
    rw [toCommit_heights hl s hexec, List.mem_range'_1] at hmem
    exact ⟨b, toCommit_subset hl s hexec hb, by omega, hcmd⟩

theorem Handled.new_flags {elsewhere : Node → Bool} {self : Hotstuff Q} {shared : Shared}
    {me : Pid} (h : Handled cfg me env elsewhere self shared ev out)
    (hl : LinkedNodes out.shared.created) (hexec : OnChain out.shared.created out.state.bExec)
    (hmsg : ∀ src msg node, ev = .message src msg → msg.carries = some node →
      node ∈ shared.created) {i : CmdId} (hi : i ∈ out.shared.committed) :
    i ∈ shared.committed ∨ ∃ block ∈ out.shared.created,
      block.height + 3 ≤ out.shared.created.length ∧
        ∃ command ∈ block.commands, command.id = i := by
  have hsub := h.created_subset
  cases h with
  | voted src node leader self' shared' hh hl' hu =>
    exact (update_spec hu).flags hl (hsub (hmsg src _ node rfl rfl)) hexec hi
  | certified src node leaf self₁ self' shared₁ shared' hb hr hc hu =>
    obtain ⟨commands, -, -, rfl, rfl⟩ := createLeaf_spec hc
    have hleaf : leaf ∈ shared'.created := (update_spec hu).created ▸ List.mem_cons_self
    exact (update_spec hu).flags hl hleaf hexec hi
  | _ => exact .inl hi

/-- The flags are those of the blocks with three nodes above them. -/
def System.Exact (c : System Q) : Prop := ∀ i, i ∈ c.shared.committed ↔ c.Deep i

theorem step_fresh {a : Action} (h : System.step cfg c a = some c') : c.Fresh a.env :=
  (Option.ite_none_right_eq_some.mp h).1

/-- **A step keeps the flags exact**: with a leaf one more block is three heights below. -/
theorem System.Exact.step (hE : c.Exact) (hcfg : cfg.Valid) (hr : System.Reachable cfg c)
    {a : Action} (hstep : System.step cfg c a = some c') : c'.Exact := by
  have hr' : System.Reachable cfg c' := hr.step trivial hstep
  have hP := Placed.of_reachable hcfg hr
  have hP' := Placed.of_reachable hcfg hr'
  obtain ⟨out, hs⟩ := step_stepped hstep
  have hG' := hP'.chain.growing
  have hl := hG'.linked
  have hexec := (hG'.fields a.pid).bExec
  have hlen := hs.length_le
  have hsub : c.shared.created ⊆ c'.shared.created := hs.shared ▸ hs.handled.created_subset
  have hflags : c.shared.committed ⊆ c'.shared.committed := by
    rw [hs.self, hs.shared] at hexec
    rw [hs.shared] at hl ⊢
    exact (hs.handled.flags hl hexec).1
  intro i
  constructor
  · intro hi
    rw [hs.self, hs.shared] at hexec
    rw [hs.shared] at hl hi
    rcases hs.handled.new_flags hl hexec (hs.carried hP.chain.growing) hi with hi | hi
    · exact ((hE i).mp hi).mono hsub hlen
    · unfold System.Deep
      rw [hs.shared]
      exact hi
  · rintro ⟨node, hn, hh, command, hc, rfl⟩
    by_cases hold : node ∈ c.shared.created ∧ node.height + 3 ≤ c.shared.created.length
    · exact hflags ((hE _).mpr ⟨node, hold.1, hold.2, command, hc, rfl⟩)
    · rw [not_and] at hold
      have hgrow : c'.shared.created.length = c.shared.created.length + 1 := by
        rcases hs.handled.created_cases with hcr | ⟨parent, commands, hcr, -⟩
        · rw [← hs.shared] at hcr
          rw [hcr] at hn hh
          exact absurd hh (hold hn)
        · rw [hs.shared, hcr, List.length_cons]
      have htop := hP.commits_with_leaf hP' (stored_of_reachable hcfg hr)
        (leafStored_of_reachable hcfg hr a.pid) hcfg hs (step_fresh hstep) hgrow (by omega)
      exact flagged_of_reachable hcfg hr' a.pid node hn (by omega) command hc

theorem exact_of_reachable (hcfg : cfg.Valid) (h : System.Reachable cfg c) : c.Exact :=
  h.invariant (fun i => iff_of_false (fun h => by cases h) fun ⟨_, h, _⟩ => by cases h)
    fun _ _ _ hr _ hE hstep => hE.step hcfg hr hstep

/-- **Three nodes above a block commit it.** In every reachable state the commands that are
committed are those of the nodes that are at least three heights below the newest node. -/
theorem committed_exact (cfg : Config Q) (hcfg : cfg.Valid) (c : System Q)
    (h : System.Reachable cfg c) (i : CmdId) :
    i ∈ c.shared.committed ↔ ∃ node ∈ c.shared.created,
      node.height + 3 ≤ c.shared.created.length ∧ ∃ command ∈ node.commands, command.id = i :=
  exact_of_reachable hcfg h i

/-- Two replicas with rotating leaders. Replica 1 submits a command before replica 0
starts, the first node carries it, and with the fourth node it is committed. -/
theorem committed_exact_two :
    let cfg : Config ℤ := .standard true [0, 1]
    ∃ c, System.Reachable cfg c ∧ c.shared.created.length = 4 ∧
      (⟨1, 2⟩ ∈ c.shared.committed ↔ ∃ node ∈ c.shared.created,
        node.height + 3 ≤ c.shared.created.length ∧
          ∃ command ∈ node.commands, command.id = ⟨1, 2⟩) ∧
      ⟨1, 2⟩ ∈ c.shared.committed := by
  intro cfg
  let command : Command := ⟨⟨1, 2⟩, 0⟩
  let n₁ : Node := .child 4 .genesis 1 [command]
  let n₂ : Node := .child 8 n₁ 2 []
  let n₃ : Node := .child 12 n₂ 3 []
  let run : List Action := [.start 1 (.counting 1), .timer 1 1 (.counting 2),
    .recv 3 1 0 (.submit command), .start 0 (.counting 4),
    .recv 5 0 0 (.propose n₁), .recv 6 0 1 (.propose n₁),
    .recv 7 0 1 (.vote n₁), .recv 8 1 1 (.vote n₁),
    .recv 9 1 0 (.propose n₂), .recv 10 1 1 (.propose n₂),
    .recv 11 0 0 (.vote n₂), .recv 12 1 0 (.vote n₂),
    .recv 13 0 0 (.propose n₃), .recv 14 0 1 (.propose n₃),
    .recv 15 0 1 (.vote n₃), .recv 16 1 1 (.vote n₃)]
  have hrun : (System.execute cfg run).any (fun c =>
      decide (c.shared.created.length = 4 ∧ ⟨1, 2⟩ ∈ c.shared.committed)) = true := by
    decide +kernel
  obtain ⟨c, hc, hd⟩ := (Option.any_eq_true _ _).mp hrun
  obtain ⟨hlen, hcommitted⟩ := of_decide_eq_true hd
  have hreach := System.reachable_execute hc
  have hcfg : cfg.Valid := Config.standard_valid (by decide) (by decide)
  exact ⟨c, hreach, hlen, committed_exact cfg hcfg c hreach ⟨1, 2⟩, hcommitted⟩

/-! ## The next turn -/

theorem Placed.leaf_maker (hP : Placed cfg c) (hcfg : cfg.Valid) {out : Outcome Q}
    (hm : Moved cfg c p env ev out c') (hne : c.shared.created ≠ [])
    (hgrow : c'.shared.created.length = c.shared.created.length + 1) :
    cfg.leader c.shared.created.length = some p ∧ (c'.replicas p).pendingCommands = ∅ := by
  have hG := hP.chain.growing
  have hs := hm.stepped
  constructor
  · rcases hs.handled.created_cases with hcr | ⟨parent, commands, -, hwhy⟩
    · rw [hs.shared, hcr] at hgrow
      omega
    · rcases hwhy with ⟨rfl, rfl, -⟩ | ⟨src, rfl, hr, -⟩
      · exact absurd (hG.started hne) (hs.start rfl).2.1
      · have hin := hs.consumed_mem
        rw [← hP.chain.tallied.newest hcfg hP.chain.voting hG hin hr]
        exact (hP.chain.voting.vote _ (List.mem_append_left _ hin) parent rfl).2.2.2
  · cases hm.pending with
    | drained _ leaf _ _ hp => exact hp
    | kept _ hcr => rw [hcr] at hgrow; omega
    | ticked hcr => rw [hcr] at hgrow; omega
    | submitted _ _ hcr => rw [hcr] at hgrow; omega
    | accepted _ _ hcr => rw [hcr] at hgrow; omega

/-- From a chain of `start` nodes on, the command still waits at replica `q` for its first
turn as the leader, or it is in a node at most one above each turn of `q`. -/
def System.Awaits (cfg : Config Q) (start : ℕ) (q : Pid) (command : Command)
    (c : System Q) : Prop :=
  ((c.replicas q).pendingCommands.lookup command.id = some command ∧
    ∀ h, 1 ≤ h → start ≤ h → cfg.leader h = some q → c.shared.created.length ≤ h) ∨
  ∃ node ∈ c.shared.created, command ∈ node.commands ∧
    ∀ h, 1 ≤ h → start ≤ h → cfg.leader h = some q → node.height ≤ h + 1

theorem Stepped.length_le_succ (hs : Stepped cfg c p env ev out c') :
    c'.shared.created.length ≤ c.shared.created.length + 1 := by
  rw [hs.shared]
  rcases hs.handled.created_cases with h | ⟨_, _, h, -⟩ <;> rw [h]
  · exact Nat.le_succ _
  · exact Nat.le_of_eq List.length_cons

/-- **The wait for a turn**: the step that makes a leaf on a turn of `q` takes the command. -/
theorem System.Awaits.step {start : ℕ} {q : Pid} {command : Command}
    (hA : System.Awaits cfg start q command c) (hcfg : cfg.Valid) (hr : System.Reachable cfg c)
    {a : Action} (hstep : System.step cfg c a = some c') :
    System.Awaits cfg start q command c' := by
  have hP := Placed.of_reachable hcfg hr
  have hG := hP.chain.growing
  have hG' := (Placed.of_reachable hcfg (hr.step trivial hstep)).chain.growing
  obtain ⟨ev, out, hm⟩ := step_moved hstep
  rcases hA with ⟨hi, hturn⟩ | ⟨node, hn, hc, hle⟩
  · have hsucc := hm.stepped.length_le_succ
    have hpending : (c'.replicas q).pendingCommands.lookup command.id = some command ∨
        ∃ node ∈ c'.shared.created, command ∈ node.commands := by
      by_cases hq : q = a.pid
      · subst hq
        exact (plain_of_reachable hr).pending_step hG hm hi
      · exact .inl (by rw [hm.stepped.other hq]; exact hi)
    rcases hpending with hi' | ⟨node, hn, hc⟩
    · refine .inl ⟨hi', fun h hpos hstart hl => ?_⟩
      have hlow := hturn h hpos hstart hl
      by_contra hpast
      have hlen : c.shared.created.length = h := by omega
      obtain ⟨hmaker, hempty⟩ := hP.leaf_maker hcfg hm
        (fun hnil => by rw [hnil] at hlen; exact absurd hlen.symm (Nat.ne_of_gt hpos)) (by omega)
      rw [hlen, hl, Option.some.injEq] at hmaker
      rw [hmaker, hempty, AList.lookup_empty] at hi'
      cases hi'
    · refine .inr ⟨node, hn, hc, fun h hpos hstart hl => ?_⟩
      have hlow := hturn h hpos hstart hl
      have hmax := hG'.linked.height_le hn
      omega
  · exact .inr ⟨node, hm.pending.created_subset hn, hc, hle⟩

theorem Config.exists_turn {cfg : Config Q} (hrot : cfg.rotating = true) {q : Pid}
    (hq : q ∈ cfg.pool) (start : ℕ) :
    ∃ h, start ≤ h ∧ h < start + cfg.pool.length ∧ cfg.leader h = some q := by
  obtain ⟨k, hk, rfl⟩ := List.getElem_of_mem hq
  set n := cfg.pool.length with hn
  have hpos : 0 < n := by omega
  have hmod := Nat.mod_lt start hpos
  have hdiv := Nat.div_add_mod start n
  have hleads : ∀ m, cfg.leader (n * m + k) = some (cfg.pool[k]) := by
    intro m
    unfold Config.leader
    rw [if_pos hrot, Nat.mul_add_mod, Nat.mod_eq_of_lt hk]
    exact List.getElem?_eq_getElem hk
  by_cases hlt : start % n ≤ k
  · exact ⟨n * (start / n) + k, by omega, by omega, hleads _⟩
  · refine ⟨n * (start / n + 1) + k, ?_, ?_, hleads _⟩ <;> rw [Nat.mul_add, Nat.mul_one] <;> omega

/-- **A waiting command is committed three nodes after the next turn.** A command in the
pending map of replica `q` is committed once three nodes are above the one that `q` makes
on its next turn as the leader; with rotating leaders every member has a turn within any
`n` heights. -/
theorem waiting_commits (cfg : Config Q) (hcfg : cfg.Valid) (c c' : System Q)
    (hr : System.Reachable cfg c)
    (hrun : Transition.Reachable (System.step cfg) c (fun _ _ => True) c') (q : Pid)
    (command : Command)
    (hi : (c.replicas q).pendingCommands.lookup command.id = some command) :
    (∀ h, 1 ≤ h → c.shared.created.length ≤ h → cfg.leader h = some q →
      h + 4 ≤ c'.shared.created.length → command.id ∈ c'.shared.committed) ∧
    (cfg.rotating = true → q ∈ cfg.pool →
      max 1 c.shared.created.length + cfg.pool.length + 3 ≤ c'.shared.created.length →
        command.id ∈ c'.shared.committed) := by
  have hA : System.Awaits cfg c.shared.created.length q command c' := by
    induction hrun with
    | init => exact .inl ⟨hi, fun _ _ hle _ => hle⟩
    | step hrun _ hstep ih => exact ih.step hcfg (hr.append hrun) hstep
  have hE := exact_of_reachable hcfg (hr.append hrun)
  have hturn : ∀ h, 1 ≤ h → c.shared.created.length ≤ h → cfg.leader h = some q →
      h + 4 ≤ c'.shared.created.length → command.id ∈ c'.shared.committed := by
    intro h hpos hstart hl hpast
    rcases hA with ⟨-, hlow⟩ | ⟨node, hn, hc, hle⟩
    · have := hlow h hpos hstart hl
      omega
    · have := hle h hpos hstart hl
      exact (hE _).mpr ⟨node, hn, by omega, command, hc, rfl⟩
  refine ⟨hturn, fun hrot hq hlen => ?_⟩
  obtain ⟨h, hle, hlt, hl⟩ := Config.exists_turn hrot hq (max 1 c.shared.created.length)
  exact hturn h (by omega) (by omega) hl (by omega)

/-- Two replicas with rotating leaders. Replica 1 submits a command, replica 0 starts and
makes the first node without it, replica 1 takes it into the second, and with the fifth
node it is committed. -/
theorem waiting_commits_two :
    let cfg : Config ℤ := .standard true [0, 1]
    let command : Command := ⟨⟨1, 2⟩, 0⟩
    ∃ c c', System.Reachable cfg c ∧
      (c.replicas 1).pendingCommands.lookup command.id = some command ∧
      Transition.Reachable (System.step cfg) c (fun _ _ => True) c' ∧
      command.id ∈ c'.shared.committed := by
  intro cfg command
  let n₁ : Node := .child 3 .genesis 1 []
  let n₂ : Node := .child 7 n₁ 2 [command]
  let n₃ : Node := .child 11 n₂ 3 []
  let n₄ : Node := .child 15 n₃ 4 []
  let run : List Action := [.start 0 (.counting 3),
    .recv 4 0 0 (.propose n₁), .recv 5 0 1 (.propose n₁),
    .recv 6 0 1 (.vote n₁), .recv 7 1 1 (.vote n₁),
    .recv 8 1 0 (.propose n₂), .recv 9 1 1 (.propose n₂),
    .recv 10 0 0 (.vote n₂), .recv 11 1 0 (.vote n₂),
    .recv 12 0 0 (.propose n₃), .recv 13 0 1 (.propose n₃),
    .recv 14 0 1 (.vote n₃), .recv 15 1 1 (.vote n₃),
    .recv 16 1 0 (.propose n₄), .recv 17 1 1 (.propose n₄),
    .recv 18 0 0 (.vote n₄), .recv 19 1 0 (.vote n₄)]
  have hrun : (System.execute cfg [.start 1 (.counting 1), .timer 1 1 (.counting 2)]).any
      (fun c => decide ((c.replicas 1).pendingCommands.lookup command.id = some command ∧
        c.shared.created.length = 0) &&
        (Transition.exec (System.step cfg) (fun _ _ => true) c run).any fun c' =>
          decide (c'.shared.created.length = 5)) = true := by decide +kernel
  obtain ⟨c, hc, hd⟩ := (Option.any_eq_true _ _).mp hrun
  rw [Bool.and_eq_true] at hd
  obtain ⟨hi, hnone⟩ := of_decide_eq_true hd.1
  obtain ⟨c', hc', hlen⟩ := (Option.any_eq_true _ _).mp hd.2
  have hreach := System.reachable_execute hc
  have hrest : Transition.Reachable (System.step cfg) c (fun _ _ => True) c' :=
    Transition.Reachable.exec (fun _ _ _ => trivial) .init hc'
  have hcfg : cfg.Valid := Config.standard_valid (by decide) (by decide)
  refine ⟨c, c', hreach, hi, hrest, ?_⟩
  refine (waiting_commits cfg hcfg c c' hreach hrest 1 command hi).1 1 le_rfl ?_ rfl ?_
  · rw [hnone]
    exact Nat.zero_le 1
  · rw [of_decide_eq_true hlen]

end Blsmr.Hotstuff
