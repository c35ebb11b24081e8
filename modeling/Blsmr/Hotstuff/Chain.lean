import Blsmr.Hotstuff.Cases
import Blsmr.Lib.Chain

/-!
# HotStuff builds one chain

A replica votes at most once at each height, and all votes for a height go to one
leader, so two quorums at one height would take more votes than there are
replicas (`Tallied.newest`). This holds whatever `collect_garbage` has dropped:
a vote that starts a new entry for a collected node still counts against the same
`n` votes. So a leaf is always made on the newest node, and the nodes created
form one chain (`one_chain`).
-/

namespace Blsmr.Hotstuff

open Blsmr.Chain Blsmr.Transition

variable {Q : Type} {cfg : Config Q} {c c' : System Q} {p : Pid} {env : Env} {ev : Event}
  {out : Outcome Q}

/-- The nodes created form a chain. -/
abbrev LinkedNodes (created : List Node) : Prop :=
  Linked Node.parentRef Node.height .genesis created

/-- The genesis node or one of the nodes created. -/
abbrev OnChain (created : List Node) (node : Node) : Prop := On .genesis created node

/-- The fields of a replica are on the chain. -/
structure OnChainAt (created : List Node) (s : Hotstuff Q) : Prop where
  bLock : OnChain created s.bLock
  bExec : OnChain created s.bExec
  bLeaf : OnChain created s.bLeaf
  commits : s.commits ⊆ created

/-! ## Votes and quorums -/

/-- Who voted at which height. -/
def voteKey (pkt : Packet) : Option (Pid × ℕ) :=
  match pkt.msg with
  | .vote node => some (pkt.src, node.height)
  | _ => none

/-- The votes for a node delivered so far. -/
def System.votesFor (c : System Q) (node : Node) : List Packet :=
  c.delivered.filter fun pkt => pkt.msg = .vote node

/-- A quorum counter after `calls` votes. -/
def Config.afterVotes (cfg : Config Q) (calls : ℕ) : Q :=
  (fun q => (cfg.addQuorum q).1)^[calls] (cfg.newQuorum (quorumSize cfg.pool.length))

/-- Every replica votes once at each height, for a node created, to the leader. -/
structure Voting (cfg : Config Q) (c : System Q) : Prop where
  vote : ∀ pkt ∈ c.network ++ c.delivered, ∀ node, pkt.msg = .vote node →
    node ∈ c.shared.created ∧ node.height ≤ (c.replicas pkt.src).vheight ∧ pkt.src ∈ cfg.pool ∧
      cfg.leader node.height = some pkt.dst
  once : ((c.network ++ c.delivered).filterMap voteKey).Nodup

/-- The quorum counters hold votes delivered. A node with a child has had its
quorum, and what its counter holds is either past the threshold or on top of it. -/
structure Tallied (cfg : Config Q) (c : System Q) : Prop where
  entry : ∀ p id e, (c.replicas p).pendingQuorums.lookup id = some e →
    ∃ node ∈ c.shared.created, node.id = id ∧ cfg.leader node.height = some p ∧
      ∃ calls, e.2 = cfg.afterVotes calls ∧ calls ≤ (c.votesFor node).length ∧
        (node.height < c.shared.created.length → quorumSize cfg.pool.length ≤ calls ∨
          quorumSize cfg.pool.length + calls ≤ (c.votesFor node).length)
  certified : ∀ node ∈ c.shared.created, node.height < c.shared.created.length →
    quorumSize cfg.pool.length ≤ (c.votesFor node).length

/-- The nodes created form a chain, and nothing else is in circulation. -/
structure Growing (cfg : Config Q) (c : System Q) : Prop where
  linked : LinkedNodes c.shared.created
  ids_nodup : (c.shared.created.map Node.id).Nodup
  ids_used : ∀ node ∈ c.shared.created, node.id ∈ c.uids
  started : c.shared.created ≠ [] → 0 ∈ c.started
  carried : ∀ pkt ∈ c.network, ∀ node, pkt.msg.carries = some node → node ∈ c.shared.created
  dst : ∀ pkt ∈ c.network, pkt.dst ∈ cfg.pool
  fields : ∀ p, OnChainAt c.shared.created (c.replicas p)

/-! ## A step, seen from the system -/

namespace Stepped

theorem other (hs : Stepped cfg c p env ev out c') {q : Pid} (hq : q ≠ p) :
    c'.replicas q = c.replicas q := by
  rw [hs.replicas, Function.update_of_ne hq]

theorem self (hs : Stepped cfg c p env ev out c') : c'.replicas p = out.state := by
  rw [hs.replicas, Function.update_self]

theorem mem_network (hs : Stepped cfg c p env ev out c') {pkt : Packet} (h : pkt ∈ c'.network) :
    pkt ∈ c.network ∨ pkt.src = p ∧ (pkt.dst, pkt.msg) ∈ out.sends := by
  obtain ⟨rest, hperm, hnet⟩ := hs.network
  rw [hnet, List.mem_append, mem_packets] at h
  exact h.imp_left fun h => hperm.mem_iff.mpr (List.mem_append_right _ h)

theorem perm (hs : Stepped cfg c p env ev out c') :
    (c'.network ++ c'.delivered).Perm (packets p out.sends ++ (c.network ++ c.delivered)) := by
  obtain ⟨rest, hperm, hnet⟩ := hs.network
  rw [hnet, hs.delivered]
  calc (rest ++ packets p out.sends ++ (ev.consumed p ++ c.delivered)).Perm
        (packets p out.sends ++ rest ++ (ev.consumed p ++ c.delivered)) :=
        List.perm_append_comm.append_right _
    _ = packets p out.sends ++ ((rest ++ ev.consumed p) ++ c.delivered) := by
        simp only [List.append_assoc]
    List.Perm _ (packets p out.sends ++ ((ev.consumed p ++ rest) ++ c.delivered)) :=
        (List.perm_append_comm.append_right _).append_left _
    List.Perm _ (packets p out.sends ++ (c.network ++ c.delivered)) :=
        (hperm.symm.append_right _).append_left _

theorem consumed_mem {src : Pid} {msg : HSMessage}
    (hs : Stepped cfg c p env (.message src msg) out c') : ⟨src, p, msg⟩ ∈ c.network := by
  obtain ⟨rest, hperm, -⟩ := hs.network
  exact hperm.mem_iff.mpr List.mem_cons_self

theorem votesFor_le (hs : Stepped cfg c p env ev out c') (node : Node) :
    (c.votesFor node).length ≤ (c'.votesFor node).length := by
  unfold System.votesFor
  rw [hs.delivered, List.filter_append, List.length_append]
  omega

theorem votesFor_vote {src : Pid} {node : Node}
    (hs : Stepped cfg c p env (.message src (.vote node)) out c') :
    (c'.votesFor node).length = (c.votesFor node).length + 1 := by
  unfold System.votesFor
  rw [hs.delivered, List.filter_append, List.length_append]
  simp [Event.consumed, Nat.add_comm]

end Stepped

/-! ## What a handler does to the chain -/

namespace Handled

variable {elsewhere : Node → Bool} {self : Hotstuff Q} {shared : Shared} {me : Pid}

theorem created_cases (h : Handled cfg me env elsewhere self shared ev out) :
    out.shared.created = shared.created ∨ ∃ parent commands,
      out.shared.created = .child env.uid parent (parent.height + 1) commands :: shared.created ∧
      ((ev = .start ∧ me = 0 ∧ parent = self.bLeaf) ∨
        ∃ src, ev = .message src (.vote parent) ∧ (self.addVote cfg parent).2 = true ∧
          ∀ id e, out.state.pendingQuorums.lookup id = some e →
            (self.addVote cfg parent).1.pendingQuorums.lookup id = some e) := by
  cases h with
  | founded self' timers hself hpc hme =>
    refine .inr ⟨self'.bLeaf, _, rfl, .inl ⟨rfl, hme, hself.bLeaf⟩⟩
  | voted src node leader self' shared' hh hl hu => exact .inl (update_spec hu).created
  | certified src node leaf self₁ self' shared₁ shared' hb hr hc hu =>
    obtain ⟨commands, hleaf, -, rfl, rfl⟩ := createLeaf_spec hc
    refine .inr ⟨node, commands, ?_,
      .inr ⟨src, rfl, hr, fun id e he => (update_spec hu).pendingQuorums he⟩⟩
    have hleaf : leaf = .child env.uid node (node.height + 1) commands := hleaf
    rw [← hleaf]
    exact (update_spec hu).created
  | _ => exact .inl rfl

theorem created_subset (h : Handled cfg me env elsewhere self shared ev out) :
    shared.created ⊆ out.shared.created := by
  rcases h.created_cases with h | ⟨_, _, h, -⟩
  · rw [h]; exact List.Subset.refl _
  · rw [h]; exact List.subset_cons_self _ _

theorem sends_propose (h : Handled cfg me env elsewhere self shared ev out) {dst : Pid}
    {node : Node} (hm : (dst, .propose node) ∈ out.sends) :
    node ∈ out.shared.created ∧ dst ∈ cfg.pool := by
  have hb : ∀ leaf, (dst, .propose node) ∈ broadcast cfg (.propose leaf) →
      node = leaf ∧ dst ∈ cfg.pool := by
    intro leaf hm
    obtain ⟨q, hq, he⟩ := List.mem_map.mp hm
    cases he
    exact ⟨rfl, hq⟩
  cases h with
  | founded self' timers hself hpc hme =>
    obtain ⟨rfl, hd⟩ := hb _ hm
    exact ⟨List.mem_cons_self, hd⟩
  | ticked self' timers command =>
    obtain ⟨q, -, he⟩ := List.mem_map.mp hm
    cases he
  | voted src node' leader => cases List.mem_singleton.mp hm
  | certified src node' leaf self₁ self' shared₁ shared' hlt hr hc hu =>
    obtain ⟨-, -, -, -, rfl⟩ := createLeaf_spec hc
    obtain ⟨rfl, hd⟩ := hb _ hm
    refine ⟨?_, hd⟩
    show _ ∈ shared'.created
    rw [(update_spec hu).created]
    exact List.mem_cons_self
  | _ => cases hm

theorem sends_vote (h : Handled cfg me env elsewhere self shared ev out) {dst : Pid} {node : Node}
    (hm : (dst, .vote node) ∈ out.sends) :
    (∃ src, ev = .message src (.propose node)) ∧ out.sends = [(dst, .vote node)] ∧
      self.vheight < node.height ∧ out.state.vheight = node.height ∧
      cfg.leader node.height = some dst := by
  cases h with
  | founded =>
    obtain ⟨q, -, he⟩ := List.mem_map.mp hm
    cases he
  | ticked =>
    obtain ⟨q, -, he⟩ := List.mem_map.mp hm
    cases he
  | voted src node' leader self' shared' hh hl hu =>
    cases List.mem_singleton.mp hm
    exact ⟨⟨src, rfl⟩, rfl, hh, (update_spec hu).vheight, hl⟩
  | certified src node' leaf =>
    obtain ⟨q, -, he⟩ := List.mem_map.mp hm
    cases he
  | _ => cases hm

theorem vheight_le (h : Handled cfg me env elsewhere self shared ev out) :
    self.vheight ≤ out.state.vheight := by
  cases h with
  | started self' timers hself => exact hself.vheight.ge
  | founded self' timers hself => exact hself.vheight.ge
  | ticked self' timers command hself => exact hself.vheight.ge
  | submitted src self' command hself => exact hself.vheight.ge
  | voted src node leader self' shared' hh hl hu => exact (update_spec hu).vheight ▸ hh.le
  | certified src node leaf self₁ self' shared₁ shared' hlt hr hc hu =>
    obtain ⟨-, -, -, rfl, -⟩ := createLeaf_spec hc
    exact (update_spec hu).vheight.ge
  | _ => exact le_rfl

theorem pendingQuorums_cases (h : Handled cfg me env elsewhere self shared ev out) :
    (∀ id e, out.state.pendingQuorums.lookup id = some e →
      self.pendingQuorums.lookup id = some e) ∨
    ∃ src node, ev = .message src (.vote node) ∧ ∀ id e,
      out.state.pendingQuorums.lookup id = some e →
        (self.addVote cfg node).1.pendingQuorums.lookup id = some e := by
  cases h with
  | started self' timers hself => exact .inl fun id e he => hself.pendingQuorums ▸ he
  | founded self' timers hself => exact .inl fun id e he => hself.pendingQuorums ▸ he
  | ticked self' timers command hself => exact .inl fun id e he => hself.pendingQuorums ▸ he
  | submitted src self' command hself => exact .inl fun id e he => hself.pendingQuorums ▸ he
  | voted src node leader self' shared' hh hl hu =>
    exact .inl fun id e he => (update_spec hu).pendingQuorums he
  | added src node => exact .inr ⟨src, node, rfl, fun id e he => he⟩
  | certified src node leaf self₁ self' shared₁ shared' hb hr hc hu =>
    obtain ⟨-, -, -, rfl, -⟩ := createLeaf_spec hc
    exact .inr ⟨src, node, rfl, fun id e he => (update_spec hu).pendingQuorums he⟩
  | _ => exact .inl fun id e he => he

end Handled

/-! ## Votes -/

/-- **A step keeps the votes apart.** -/
theorem Voting.step (hV : Voting cfg c) (hG : Growing cfg c) (hs : Stepped cfg c p env ev out c') :
    Voting cfg c' := by
  have hmono : ∀ q, (c.replicas q).vheight ≤ (c'.replicas q).vheight := by
    intro q
    by_cases hq : q = p
    · subst hq; rw [hs.self]; exact hs.handled.vheight_le
    · rw [hs.other hq]
  have hsub : c.shared.created ⊆ c'.shared.created := hs.shared ▸ hs.handled.created_subset
  have hkey : ∀ {pkt : Packet} {k}, voteKey pkt = some k → ∃ node, pkt.msg = .vote node ∧
      k = (pkt.src, node.height) := by
    rintro ⟨src, dst, msg⟩ k hk
    cases msg with
    | vote node => cases hk; exact ⟨node, rfl, rfl⟩
    | _ => cases hk
  refine ⟨fun pkt hpkt node hm => ?_, ?_⟩
  · rw [hs.perm.mem_iff, List.mem_append, mem_packets] at hpkt
    rcases hpkt with ⟨rfl, hsend⟩ | hpkt
    · rw [hm] at hsend
      obtain ⟨⟨src, rfl⟩, -, -, hvh, hl⟩ := hs.handled.sends_vote hsend
      have hin := hs.consumed_mem
      exact ⟨hsub (hG.carried _ hin node rfl), by rw [hs.self, hvh], hG.dst _ hin, hl⟩
    · obtain ⟨hn, hh, hsrc, hl⟩ := hV.vote pkt hpkt node hm
      exact ⟨hsub hn, hh.trans (hmono _), hsrc, hl⟩
  · rw [(hs.perm.filterMap voteKey).nodup_iff, List.filterMap_append]
    by_cases hvote : ∃ dst node, (dst, HSMessage.vote node) ∈ out.sends
    · obtain ⟨dst, node, hm⟩ := hvote
      obtain ⟨-, hsends, hlt, -⟩ := hs.handled.sends_vote hm
      rw [hsends]
      refine List.nodup_cons.mpr ⟨fun hmem => ?_, hV.once⟩
      obtain ⟨pkt, hpkt, hk⟩ := List.mem_filterMap.mp hmem
      obtain ⟨node', hm', hk'⟩ := hkey hk
      obtain ⟨hsrc, hh⟩ := Prod.mk.inj hk'
      have hle := (hV.vote pkt hpkt node' hm').2.1
      have hsrc : pkt.src = p := hsrc.symm
      rw [hsrc, ← hh] at hle
      omega
    · have hnil : (packets p out.sends).filterMap voteKey = [] := by
        refine List.filterMap_eq_nil_iff.mpr fun pkt hpkt => ?_
        refine Option.eq_none_iff_forall_not_mem.mpr fun k hk => hvote ?_
        obtain ⟨node, hm, -⟩ := hkey hk
        exact ⟨pkt.dst, node, hm ▸ (mem_packets.mp hpkt).2⟩
      rw [hnil, List.nil_append]
      exact hV.once

theorem Voting.votes_le (hV : Voting cfg c) (node : Node) :
    ((c.network ++ c.delivered).filter fun pkt => pkt.msg = .vote node).length ≤
      cfg.pool.length := by
  set votes := (c.network ++ c.delivered).filter fun pkt => pkt.msg = .vote node with hvotes
  have hmem : ∀ pkt ∈ votes, pkt ∈ c.network ++ c.delivered ∧ pkt.msg = .vote node := by
    intro pkt h
    simpa using List.mem_filter.mp h
  have hkeys : votes.filterMap voteKey =
      (votes.map Packet.src).map fun src => (src, node.height) := by
    rw [List.map_map, ← List.filterMap_eq_map]
    refine List.filterMap_congr fun pkt hpkt => ?_
    simp [voteKey, (hmem pkt hpkt).2]
  have hnd : (votes.map Packet.src).Nodup := by
    refine List.Nodup.of_map (fun src => (src, node.height)) ?_
    rw [← hkeys]
    exact hV.once.sublist (List.filter_sublist.filterMap voteKey)
  have hsub : votes.map Packet.src ⊆ cfg.pool := by
    intro src hsrc
    obtain ⟨pkt, hpkt, rfl⟩ := List.mem_map.mp hsrc
    exact (hV.vote pkt (hmem pkt hpkt).1 node (hmem pkt hpkt).2).2.2.1
  calc votes.length = (votes.map Packet.src).length := (List.length_map _).symm
    _ ≤ cfg.pool.length := (hnd.subperm hsub).length_le

theorem Voting.votesFor_lt (hV : Voting cfg c) {pkt : Packet} (hm : pkt ∈ c.network) {node : Node}
    (hv : pkt.msg = .vote node) : (c.votesFor node).length < cfg.pool.length := by
  have hle := hV.votes_le node
  rw [List.filter_append, List.length_append] at hle
  have hpos : 0 < (c.network.filter fun pkt => pkt.msg = .vote node).length :=
    List.length_pos_of_mem (List.mem_filter.mpr ⟨hm, by simpa using hv⟩)
  unfold System.votesFor
  omega

theorem Config.afterVotes_succ (cfg : Config Q) (calls : ℕ) :
    cfg.afterVotes (calls + 1) = (cfg.addQuorum (cfg.afterVotes calls)).1 :=
  Function.iterate_succ_apply' ..

theorem Growing.eq_of_id (hG : Growing cfg c) {a b : Node} (ha : a ∈ c.shared.created)
    (hb : b ∈ c.shared.created) (hab : a.id = b.id) : a = b :=
  List.inj_on_of_nodup_map hG.ids_nodup ha hb hab

theorem Tallied.addVote (hT : Tallied cfg c) (hG : Growing cfg c) {node : Node}
    (hn : node ∈ c.shared.created) (p : Pid) : ∃ height calls,
      ((c.replicas p).addVote cfg node).1.pendingQuorums =
        (c.replicas p).pendingQuorums.insert node.id (height, cfg.afterVotes (calls + 1)) ∧
      ((c.replicas p).addVote cfg node).2 = (cfg.addQuorum (cfg.afterVotes calls)).2 ∧
      calls ≤ (c.votesFor node).length ∧
      (node.height < c.shared.created.length → quorumSize cfg.pool.length ≤ calls ∨
        quorumSize cfg.pool.length + calls ≤ (c.votesFor node).length) := by
  unfold Hotstuff.addVote
  cases he : (c.replicas p).pendingQuorums.lookup node.id with
  | none =>
    exact ⟨node.height, 0, rfl, rfl, Nat.zero_le _, fun hlt => .inr (hT.certified node hn hlt)⟩
  | some e =>
    obtain ⟨node', hn', hid, -, calls, hq, hle, hch⟩ := hT.entry p node.id e he
    obtain rfl := hG.eq_of_id hn' hn hid
    rw [Option.getD_some]
    refine ⟨e.1, calls, ?_, ?_, hle, hch⟩
    · rw [Config.afterVotes_succ, ← hq]
    · rw [← hq]

/-- **A quorum is for the newest node.** -/
theorem Tallied.newest (hcfg : cfg.Valid) (hT : Tallied cfg c) (hV : Voting cfg c)
    (hG : Growing cfg c) {src : Pid} {node : Node} (hm : ⟨src, p, .vote node⟩ ∈ c.network)
    (hr : ((c.replicas p).addVote cfg node).2 = true) :
    node.height = c.shared.created.length := by
  have hn := hG.carried _ hm node rfl
  obtain ⟨height, calls, -, hadd, hle, hch⟩ := hT.addVote hG hn p
  rw [hadd] at hr
  have hsize : calls + 1 = quorumSize cfg.pool.length := hcfg.only_at_threshold _ _ hr
  have hroom := hV.votesFor_lt hm rfl
  have hmax := hG.linked.height_le hn
  by_contra hne
  -- a second quorum at this height would take `2 * quorumSize` of `n` votes
  rcases hch (by omega) with h | h
  · omega
  · unfold quorumSize at hsize h
    omega

theorem Tallied.entry_voted (hcfg : cfg.Valid) (hT : Tallied cfg c) (hV : Voting cfg c)
    (hG : Growing cfg c) {src : Pid} {node : Node}
    (hs : Stepped cfg c p env (.message src (.vote node)) out c')
    (hsub : ∀ id e, out.state.pendingQuorums.lookup id = some e →
      ((c.replicas p).addVote cfg node).1.pendingQuorums.lookup id = some e)
    {q : Pid} {id : NodeId} {e : ℕ × Q} (he : (c'.replicas q).pendingQuorums.lookup id = some e) :
    ∃ n ∈ c.shared.created, n.id = id ∧ cfg.leader n.height = some q ∧
      ∃ calls, e.2 = cfg.afterVotes calls ∧ calls ≤ (c'.votesFor n).length ∧
        (n.height < c.shared.created.length → quorumSize cfg.pool.length ≤ calls ∨
          quorumSize cfg.pool.length + calls ≤ (c'.votesFor n).length) ∧
        (n = node → ((c.replicas p).addVote cfg node).2 = true →
          quorumSize cfg.pool.length ≤ calls) := by
  have hm := hs.consumed_mem
  obtain ⟨hn, -, -, hl⟩ := hV.vote _ (List.mem_append_left _ hm) node rfl
  have hold : (c.replicas q).pendingQuorums.lookup id = some e → ¬ (q = p ∧ id = node.id) →
      ∃ n ∈ c.shared.created, n.id = id ∧ cfg.leader n.height = some q ∧
        ∃ calls, e.2 = cfg.afterVotes calls ∧ calls ≤ (c'.votesFor n).length ∧
          (n.height < c.shared.created.length → quorumSize cfg.pool.length ≤ calls ∨
            quorumSize cfg.pool.length + calls ≤ (c'.votesFor n).length) ∧
          (n = node → ((c.replicas p).addVote cfg node).2 = true →
            quorumSize cfg.pool.length ≤ calls) := by
    intro he hne
    obtain ⟨n, hn', hid, hln, calls, hq, hle, hch⟩ := hT.entry q id e he
    have hmono := hs.votesFor_le n
    refine ⟨n, hn', hid, hln, calls, hq, hle.trans hmono, fun hlt => ?_, fun hnn => ?_⟩
    · exact (hch hlt).imp_right fun h => h.trans hmono
    · subst hnn
      exact absurd ⟨Option.some.inj (hln.symm.trans hl), hid.symm⟩ hne
  by_cases hq : q = p
  · subst hq
    rw [hs.self] at he
    obtain ⟨height, calls, hpq, hadd, hle, hch⟩ := hT.addVote hG hn q
    have he' := hsub id e he
    rw [hpq] at he'
    by_cases hid : id = node.id
    · subst hid
      rw [AList.lookup_insert, Option.some.injEq] at he'
      subst he'
      have hvotes := hs.votesFor_vote
      refine ⟨node, hn, rfl, hl, calls + 1, rfl, by omega, fun hlt => ?_, fun _ hr => ?_⟩
      · rcases hch hlt with h | h
        · exact .inl (by omega)
        · exact .inr (by omega)
      · rw [hadd] at hr
        exact (hcfg.only_at_threshold _ _ hr).ge
    · rw [AList.lookup_insert_ne hid] at he'
      exact hold he' fun h => hid h.2
  · rw [hs.other hq] at he
    exact hold he fun h => hq h.1

theorem Tallied.kept (hcfg : cfg.Valid) (hT : Tallied cfg c) (hV : Voting cfg c)
    (hG : Growing cfg c) (hs : Stepped cfg c p env ev out c')
    (hcr : c'.shared.created = c.shared.created) : Tallied cfg c' := by
  have hmono := hs.votesFor_le
  have hcert : ∀ node ∈ c'.shared.created, node.height < c'.shared.created.length →
      quorumSize cfg.pool.length ≤ (c'.votesFor node).length := by
    rw [hcr]
    exact fun node hn hlt => (hT.certified node hn hlt).trans (hmono node)
  refine ⟨fun q id e he => ?_, hcert⟩
  rw [hcr]
  rcases hs.handled.pendingQuorums_cases with hsub | ⟨src, node, rfl, hsub⟩
  · have he' : (c.replicas q).pendingQuorums.lookup id = some e := by
      by_cases hq : q = p
      · subst hq
        exact hsub id e (hs.self ▸ he)
      · exact hs.other hq ▸ he
    obtain ⟨n, hn, hid, hl, calls, hq, hle, hch⟩ := hT.entry q id e he'
    exact ⟨n, hn, hid, hl, calls, hq, hle.trans (hmono n),
      fun hlt => (hch hlt).imp_right fun h => h.trans (hmono n)⟩
  · obtain ⟨n, hn, hid, hl, calls, hq, hle, hch, -⟩ := hT.entry_voted hcfg hV hG hs hsub he
    exact ⟨n, hn, hid, hl, calls, hq, hle, hch⟩

theorem Tallied.first (hT : Tallied cfg c) (hG : Growing cfg c)
    (hs : Stepped cfg c 0 env .start out c') {node : Node} (hh : 0 < node.height)
    (hcr : c'.shared.created = node :: c.shared.created) : Tallied cfg c' := by
  have hnil : c.shared.created = [] := by
    by_contra hne
    exact (hs.start rfl).2.1 (hG.started hne)
  refine ⟨fun q id e he => ?_, fun n hn hlt => ?_⟩
  · have hold : ∃ q, (c.replicas q).pendingQuorums.lookup id = some e := by
      by_cases hq : q = 0
      · subst hq
        rcases hs.handled.pendingQuorums_cases with hsub | ⟨_, _, hev, -⟩
        · exact ⟨0, hsub id e (hs.self ▸ he)⟩
        · cases hev
      · exact ⟨q, hs.other hq ▸ he⟩
    obtain ⟨q, he⟩ := hold
    obtain ⟨n, hn, -⟩ := hT.entry q id e he
    rw [hnil] at hn
    cases hn
  · rw [hcr, hnil] at hn hlt
    rw [List.mem_singleton.mp hn, List.length_singleton] at hlt
    omega

theorem Tallied.extended (hcfg : cfg.Valid) (hT : Tallied cfg c) (hV : Voting cfg c)
    (hG : Growing cfg c) {src : Pid} {parent node : Node}
    (hs : Stepped cfg c p env (.message src (.vote parent)) out c')
    (hr : ((c.replicas p).addVote cfg parent).2 = true)
    (hsub : ∀ id e, out.state.pendingQuorums.lookup id = some e →
      ((c.replicas p).addVote cfg parent).1.pendingQuorums.lookup id = some e)
    (hh : node.height = parent.height + 1)
    (hcr : c'.shared.created = node :: c.shared.created) : Tallied cfg c' := by
  have hm := hs.consumed_mem
  have hp := hG.carried _ hm parent rfl
  have htop := hT.newest hcfg hV hG hm hr
  have hlen : c'.shared.created.length = c.shared.created.length + 1 := by
    rw [hcr, List.length_cons]
  have hbelow : ∀ n ∈ c.shared.created, n = parent ∨ n.height < c.shared.created.length := by
    intro n hn
    rcases (hG.linked.height_le hn).lt_or_eq with h | h
    · exact .inr h
    · exact .inl (hG.linked.eq_of_height hn hp (h.trans htop.symm))
  refine ⟨fun q id e he => ?_, fun n hn hlt => ?_⟩
  · obtain ⟨n, hn, hid, hl, calls, hq, hle, hch, htop'⟩ := hT.entry_voted hcfg hV hG hs hsub he
    refine ⟨n, hcr ▸ List.mem_cons_of_mem _ hn, hid, hl, calls, hq, hle, fun _ => ?_⟩
    rcases hbelow n hn with rfl | hlt
    · exact .inl (htop' rfl hr)
    · exact hch hlt
  · rw [hcr] at hn
    rcases List.mem_cons.mp hn with rfl | hn
    · omega
    · rcases hbelow n hn with rfl | hlt'
      · obtain ⟨height, calls, -, hadd, hle, -⟩ := hT.addVote hG hp p
        rw [hadd] at hr
        have hsize := hcfg.only_at_threshold _ _ hr
        rw [hs.votesFor_vote]
        omega
      · exact (hT.certified n hn hlt').trans (hs.votesFor_le n)

/-- **A step keeps the tally.** -/
theorem Tallied.step (hcfg : cfg.Valid) (hT : Tallied cfg c) (hV : Voting cfg c)
    (hG : Growing cfg c) (hs : Stepped cfg c p env ev out c') : Tallied cfg c' := by
  rcases hs.handled.created_cases with hcr | ⟨parent, commands, hcr, hwhy⟩
  · exact hT.kept hcfg hV hG hs (by rw [hs.shared, hcr])
  rw [← hs.shared] at hcr
  rcases hwhy with ⟨rfl, rfl, rfl⟩ | ⟨src, rfl, hr, hsub⟩
  · refine hT.first hG hs ?_ hcr
    exact Nat.succ_pos _
  · exact hT.extended hcfg hV hG hs hr hsub rfl hcr

/-! ## The chain grows -/

theorem onChain_parentRef {created : List Node} (hl : LinkedNodes created) {node parent : Node}
    (hn : OnChain created node) (hp : node.parentRef = some parent) : OnChain created parent := by
  rcases hn with rfl | hn
  · cases hp
  · obtain ⟨q, hq, hon, -⟩ := hl.parent_spec rfl hn
    rw [hp, Option.some.injEq] at hq
    exact hq ▸ hon

theorem lineage_subset {created : List Node} (hl : LinkedNodes created) {node : Node}
    (hn : OnChain created node) : node.lineage ⊆ created := by
  induction node with
  | genesis => exact List.nil_subset _
  | child id parent height commands ih =>
    rcases hn with hn | hn
    · cases hn
    · exact List.cons_subset.mpr ⟨hn, ih (onChain_parentRef hl (.inr hn) rfl)⟩

theorem toCommit_subset {created : List Node} (hl : LinkedNodes created) (self : Hotstuff Q)
    {block : Node} (hb : OnChain created block) : self.toCommit block ⊆ created := by
  intro node hn
  rw [toCommit, List.mem_reverse] at hn
  exact lineage_subset hl hb ((List.takeWhile_sublist _).subset hn)

/-- **`update` stays on the chain.** -/
theorem Updated.onChain {s s' : Hotstuff Q} {shared shared' : Shared} {node : Node}
    {created : List Node} (h : Updated s shared node s' shared') (hl : LinkedNodes created)
    (hs : OnChainAt created s) (hn : OnChain created node) : OnChainAt created s' := by
  have hbind : ∀ {r : Option Node}, (∀ q, r = some q → OnChain created q) →
      ∀ q, r.bind Node.parentRef = some q → OnChain created q := by
    intro r hr q hq
    obtain ⟨t, ht, hq⟩ := Option.bind_eq_some_iff.mp hq
    exact onChain_parentRef hl (hr t ht) hq
  have hgrand := hbind fun q hq => onChain_parentRef hl hn hq
  refine ⟨?_, ?_, ?_, ?_⟩
  · rcases h.bLock with h | ⟨g, h, hg, -⟩
    · rw [h]; exact hs.bLock
    · rw [h]; exact hgrand g hg
  · rcases h.bExec with ⟨h, -⟩ | ⟨b, h, hb, -⟩
    · rw [h]; exact hs.bExec
    · rw [h]; exact hbind hgrand b hb
  · rw [h.bLeaf]
    split
    · exact hn
    · exact hs.bLeaf
  · rcases h.bExec with ⟨-, -, -, h, -⟩ | ⟨b, -, hb, -, -, h, -⟩
    · rw [h]; exact hs.commits
    · rw [h]
      exact List.append_subset.mpr ⟨hs.commits, toCommit_subset hl s (hbind hgrand b hb)⟩

theorem OnChainAt.mono {created created' : List Node} {s : Hotstuff Q} (h : OnChainAt created s)
    (hsub : created ⊆ created') : OnChainAt created' s :=
  ⟨h.bLock.mono hsub, h.bExec.mono hsub, h.bLeaf.mono hsub, List.Subset.trans h.commits hsub⟩

theorem Bookkept.onChain {created : List Node} {s s' : Hotstuff Q} (h : Bookkept s s')
    (hs : OnChainAt created s) : OnChainAt created s' :=
  ⟨h.bLock ▸ hs.bLock, h.bExec ▸ hs.bExec, h.bLeaf ▸ hs.bLeaf, h.commits ▸ hs.commits⟩

namespace Handled

variable {elsewhere : Node → Bool} {self : Hotstuff Q} {shared : Shared} {me : Pid}

/-- **A handler keeps its replica on the chain.** -/
theorem onChain (h : Handled cfg me env elsewhere self shared ev out)
    (hl : LinkedNodes out.shared.created) (hs : OnChainAt shared.created self)
    (hmsg : ∀ src msg node, ev = .message src msg → msg.carries = some node →
      node ∈ shared.created) : OnChainAt out.shared.created out.state := by
  have hs' := hs.mono h.created_subset
  cases h with
  | started self' timers hself => exact hself.onChain hs'
  | founded self' timers hself =>
    obtain ⟨h₁, h₂, h₃, h₄⟩ := hself.onChain hs'
    exact ⟨h₁, h₂, h₃, h₄⟩
  | ticked self' timers command hself => exact hself.onChain hs'
  | submitted src self' command hself => exact hself.onChain hs'
  | voted src node leader self' shared' hh hl' hu =>
    have hupd := update_spec hu
    have hn : OnChain shared'.created node := .inr (hupd.created ▸ hmsg src _ node rfl rfl)
    exact hupd.onChain hl ⟨hs'.bLock, hs'.bExec, hs'.bLeaf, hs'.commits⟩ hn
  | certified src node leaf self₁ self' shared₁ shared' hb hr hc hu =>
    have hupd := update_spec hu
    obtain ⟨commands, hleaf, -, rfl, rfl⟩ := createLeaf_spec hc
    have hcr : shared'.created = leaf :: shared.created := hupd.created
    have hn : OnChain shared'.created node :=
      .inr (hcr ▸ List.mem_cons_of_mem _ (hmsg src _ node rfl rfl))
    have hleaf' : OnChain shared'.created leaf := .inr (hcr ▸ List.mem_cons_self)
    exact hupd.onChain hl ⟨hs'.bLock, hs'.bExec, hn, hs'.commits⟩ hleaf'
  | added => exact ⟨hs'.bLock, hs'.bExec, hs'.bLeaf, hs'.commits⟩
  | _ => exact hs'

theorem sends_dst (h : Handled cfg me env elsewhere self shared ev out) {dst : Pid}
    {msg : HSMessage} (hm : (dst, msg) ∈ out.sends) : dst ∈ cfg.pool := by
  cases msg with
  | propose node => exact (h.sends_propose hm).2
  | vote node =>
    have hl := (h.sends_vote hm).2.2.2.2
    unfold Config.leader at hl
    split at hl
    · exact List.mem_of_getElem? hl
    · exact List.mem_of_getElem? hl
  | submit command =>
    cases h with
    | ticked self' timers command =>
      obtain ⟨q, hq, he⟩ := List.mem_map.mp hm
      cases he
      exact (List.mem_filter.mp hq).1
    | founded =>
      obtain ⟨q, -, he⟩ := List.mem_map.mp hm
      cases he
    | certified =>
      obtain ⟨q, -, he⟩ := List.mem_map.mp hm
      cases he
    | voted => cases List.mem_singleton.mp hm
    | _ => cases hm

end Handled

theorem Growing.linked_step (hcfg : cfg.Valid) (hT : Tallied cfg c) (hV : Voting cfg c)
    (hG : Growing cfg c) (hs : Stepped cfg c p env ev out c') : LinkedNodes c'.shared.created := by
  rw [hs.shared]
  rcases hs.handled.created_cases with hcr | ⟨parent, commands, hcr, hwhy⟩
  · rw [hcr]
    exact hG.linked
  · rw [hcr]
    suffices hp : c.shared.created.headD .genesis = parent from
      hG.linked.cons rfl (by rw [hp]; rfl) (by rw [hp]; rfl)
    rcases hwhy with ⟨rfl, rfl, rfl⟩ | ⟨src, rfl, hr, -⟩
    · have hnil : c.shared.created = [] := by
        by_contra hne
        exact (hs.start rfl).2.1 (hG.started hne)
      have hleaf := (hG.fields 0).bLeaf
      rw [hnil] at hleaf ⊢
      rcases hleaf with h | h
      · exact h.symm
      · cases h
    · have hm := hs.consumed_mem
      exact hG.linked.headD_of_height (hG.carried _ hm parent rfl) (hT.newest hcfg hV hG hm hr)

/-- **A step keeps the chain.** -/
theorem Growing.step (hcfg : cfg.Valid) (hT : Tallied cfg c) (hV : Voting cfg c)
    (hG : Growing cfg c) (hs : Stepped cfg c p env ev out c') : Growing cfg c' := by
  have hl := hG.linked_step hcfg hT hV hs
  have hsub : c.shared.created ⊆ c'.shared.created := hs.shared ▸ hs.handled.created_subset
  have hmsg : ∀ src msg node, ev = .message src msg → msg.carries = some node →
      node ∈ c.shared.created := by
    rintro src msg node rfl hn
    exact hG.carried _ hs.consumed_mem node hn
  have hcr := hs.handled.created_cases
  rw [← hs.shared] at hcr
  refine ⟨hl, ?_, ?_, ?_, fun pkt hpkt node hn => ?_, fun pkt hpkt => ?_, fun q => ?_⟩
  · rcases hcr with hcr | ⟨parent, commands, hcr, -⟩
    · rw [hcr]; exact hG.ids_nodup
    · rw [hcr, List.map_cons, List.nodup_cons]
      refine ⟨fun hmem => ?_, hG.ids_nodup⟩
      obtain ⟨n, hn, hid⟩ := List.mem_map.mp hmem
      have hid : n.id = env.uid := hid
      exact hs.fresh (hid ▸ hG.ids_used n hn)
  · rw [hs.uids]
    rcases hcr with hcr | ⟨parent, commands, hcr, -⟩
    · rw [hcr]
      exact fun n hn => List.mem_cons_of_mem _ (hG.ids_used n hn)
    · rw [hcr]
      intro n hn
      rcases List.mem_cons.mp hn with rfl | hn
      · exact List.mem_cons_self
      · exact List.mem_cons_of_mem _ (hG.ids_used n hn)
  · intro hne
    rcases hcr with hcr | ⟨parent, commands, hcr, ⟨rfl, rfl, -⟩ | ⟨src, rfl, -⟩⟩
    · exact hs.started (hG.started (hcr ▸ hne))
    · exact (hs.start rfl).2.2
    · exact hs.started (hG.started (List.ne_nil_of_mem (hmsg src _ parent rfl rfl)))
  · rcases hs.mem_network hpkt with hold | ⟨-, hnew⟩
    · exact hsub (hG.carried pkt hold node hn)
    · obtain ⟨src, dst, msg⟩ := pkt
      cases msg with
      | submit command => cases hn
      | propose leaf =>
        cases hn
        rw [hs.shared]
        exact (hs.handled.sends_propose hnew).1
      | vote n =>
        cases hn
        obtain ⟨⟨src', rfl⟩, -⟩ := hs.handled.sends_vote hnew
        exact hsub (hmsg src' _ node rfl rfl)
  · rcases hs.mem_network hpkt with hold | ⟨-, hnew⟩
    · exact hG.dst pkt hold
    · exact hs.handled.sends_dst hnew
  · by_cases hq : q = p
    · subst hq
      rw [hs.self, hs.shared]
      exact hs.handled.onChain (hs.shared ▸ hl) (hG.fields q) hmsg
    · rw [hs.other hq]
      exact (hG.fields q).mono hsub

/-! ## The chain of a run -/

/-- What holds of the votes, the counters and the nodes together. -/
structure OneChain (cfg : Config Q) (c : System Q) : Prop where
  growing : Growing cfg c
  voting : Voting cfg c
  tallied : Tallied cfg c

theorem OneChain.init (cfg : Config Q) : OneChain cfg System.init := by
  refine ⟨⟨trivial, List.nodup_nil, ?_, ?_, ?_, ?_, fun p => ⟨.inl rfl, .inl rfl, .inl rfl, ?_⟩⟩,
    ⟨?_, List.nodup_nil⟩, ⟨?_, ?_⟩⟩ <;> simp [System.init, Hotstuff.default]

theorem OneChain.of_reachable (hcfg : cfg.Valid) (h : System.Reachable cfg c) : OneChain cfg c :=
  h.invariant (OneChain.init cfg) fun _ _ _ _ _ hI hstep => by
    obtain ⟨p, ev, out, hs⟩ := step_cases hstep
    exact ⟨hI.growing.step hcfg hI.tallied hI.voting hs, hI.voting.step hI.growing hs,
      hI.tallied.step hcfg hI.voting hI.growing hs⟩

/-- **HotStuff builds one chain.** In every reachable state at most one node has
been created at each height, each has as its parent the one node one height
below, the fields of all replicas are on this chain, and nodes committed at one
height are the same. -/
theorem one_chain (cfg : Config Q) (hcfg : cfg.Valid) (c : System Q)
    (h : System.Reachable cfg c) :
    (∀ a ∈ c.shared.created, ∀ b ∈ c.shared.created, a.height = b.height → a = b) ∧
    (∀ a ∈ c.shared.created, ∃ parent, a.parentRef = some parent ∧
      OnChain c.shared.created parent ∧ parent.height + 1 = a.height ∧
      ∀ b, OnChain c.shared.created b → b.height + 1 = a.height → b = parent) ∧
    (∀ p, OnChain c.shared.created (c.replicas p).bLock ∧
      OnChain c.shared.created (c.replicas p).bExec ∧
      OnChain c.shared.created (c.replicas p).bLeaf) ∧
    ∀ p q, ∀ a ∈ (c.replicas p).commits, ∀ b ∈ (c.replicas q).commits,
      a.height = b.height → a = b := by
  have hG := (OneChain.of_reachable hcfg h).growing
  have huniq : ∀ a b, OnChain c.shared.created a → OnChain c.shared.created b →
      a.height = b.height → a = b := by
    rintro a b (rfl | ha) (rfl | hb) hab
    · rfl
    · exact absurd hab (hG.linked.height_pos hb).ne
    · exact absurd hab (hG.linked.height_pos ha).ne'
    · exact hG.linked.eq_of_height ha hb hab
  refine ⟨fun a ha b hb => huniq a b (.inr ha) (.inr hb), fun a ha => ?_, fun p => ?_,
    fun p q a ha b hb => ?_⟩
  · obtain ⟨parent, hp, hon, hh⟩ := hG.linked.parent_spec rfl ha
    exact ⟨parent, hp, hon, hh, fun b hb hbh => huniq b parent hb hon (by omega)⟩
  · exact ⟨(hG.fields p).bLock, (hG.fields p).bExec, (hG.fields p).bLeaf⟩
  · exact huniq a b (.inr ((hG.fields p).commits ha)) (.inr ((hG.fields q).commits hb))

/-- Two replicas with rotating leaders. Both commit the first of four nodes. -/
theorem one_chain_two :
    let cfg : Config ℤ := .standard true [0, 1]
    let n₁ : Node := .child 1 .genesis 1 []
    ∃ c, System.Reachable cfg c ∧ (c.replicas 0).commits = [n₁] ∧
      (c.replicas 1).commits = [n₁] ∧
      ∀ a ∈ c.shared.created, ∀ b ∈ c.shared.created, a.height = b.height → a = b := by
  intro cfg n₁
  let n₂ : Node := .child 5 n₁ 2 []
  let n₃ : Node := .child 9 n₂ 3 []
  let n₄ : Node := .child 13 n₃ 4 []
  let run : List Action := [.start 0 (.counting 1),
    .recv 2 0 0 (.propose n₁), .recv 3 0 1 (.propose n₁),
    .recv 4 0 1 (.vote n₁), .recv 5 1 1 (.vote n₁),
    .recv 6 1 0 (.propose n₂), .recv 7 1 1 (.propose n₂),
    .recv 8 0 0 (.vote n₂), .recv 9 1 0 (.vote n₂),
    .recv 10 0 0 (.propose n₃), .recv 11 0 1 (.propose n₃),
    .recv 12 0 1 (.vote n₃), .recv 13 1 1 (.vote n₃), .recv 14 1 0 (.propose n₄)]
  have hrun : (System.execute cfg run).any (fun c => decide ((c.replicas 0).commits = [n₁] ∧
      (c.replicas 1).commits = [n₁])) = true := by decide +kernel
  obtain ⟨c, hc, hd⟩ := (Option.any_eq_true _ _).mp hrun
  obtain ⟨h0, h1⟩ := of_decide_eq_true hd
  have hreach := System.reachable_execute hc
  exact ⟨c, hreach, h0, h1,
    (one_chain cfg (Config.standard_valid (by decide) (by decide)) c hreach).1⟩

end Blsmr.Hotstuff
