import Blsmr.Hotstuff.Depth

/-!
# The chain never stalls

There is no timeout in the protocol, so it goes on only as long as a message for the newest
node is under way. Every member has either still to receive the proposal of that node, and
then accepts it, or has answered with its vote (`Circulates`): its `vheight` and its lock are
lower. The votes that arrive are all counted, because `b_exec` is lower too and the counter
is not collected, and with the last one that the quorum needs there is a newer node. So
there is a message in flight in every state after replica 0 has started, and a node costs at
most `2 * n` messages (`chain_never_stalls`).
-/

namespace Blsmr.Hotstuff

open Blsmr.Chain Blsmr.Transition

variable {Q : Type} {cfg : Config Q} {c c' : System Q} {p : Pid} {env : Env} {ev : Event}
  {out : Outcome Q}

/-- The counter's `add` returns `Some` on the call that reaches the threshold. -/
def Config.AtThreshold (cfg : Config Q) : Prop :=
  ∀ size calls, calls + 1 = size →
    (cfg.addQuorum ((fun q => (cfg.addQuorum q).1)^[calls] (cfg.newQuorum size))).2 = true

theorem Config.standard_atThreshold (rotating : Bool) (pool : List Pid) :
    (Config.standard rotating pool).AtThreshold := by
  rintro _ calls rfl
  simp [Config.standard, iterate_countdown]

/-! ## What the handlers do with the newest node -/

section

variable {elsewhere : Node → Bool} {self : Hotstuff Q} {shared : Shared} {me : Pid}

theorem Handled.vheight_cases (h : Handled cfg me env elsewhere self shared ev out) :
    out.state.vheight = self.vheight ∨ ∃ src node, ev = .message src (.propose node) ∧
      out.state.vheight = node.height ∧ out.shared.created = shared.created ∧
      ∃ leader, (leader, .vote node) ∈ out.sends := by
  cases h with
  | started self' timers hself => exact .inl hself.vheight
  | founded self' timers hself => exact .inl hself.vheight
  | ticked self' timers command hself => exact .inl hself.vheight
  | submitted src self' command hself => exact .inl hself.vheight
  | voted src node leader self' shared' hh hl hu =>
    exact .inr ⟨src, node, rfl, (update_spec hu).vheight, (update_spec hu).created,
      leader, List.mem_singleton_self _⟩
  | certified src node leaf self₁ self' shared₁ shared' hb hr hc hu =>
    obtain ⟨-, -, -, rfl, -⟩ := createLeaf_spec hc
    exact .inl (update_spec hu).vheight
  | _ => exact .inl rfl

theorem Handled.broadcasts (h : Handled cfg me env elsewhere self shared ev out) :
    (out.shared.created = shared.created ∧ ∀ e ∈ out.sends, ∀ node, e.2 ≠ .propose node) ∨
      ∃ leaf, out.shared.created = leaf :: shared.created ∧
        out.sends = broadcast cfg (.propose leaf) := by
  cases h with
  | founded self' timers hself => exact .inr ⟨_, rfl, rfl⟩
  | certified src node leaf self₁ self' shared₁ shared' hb hr hc hu =>
    obtain ⟨-, -, -, -, rfl⟩ := createLeaf_spec hc
    exact .inr ⟨leaf, (update_spec hu).created, rfl⟩
  | ticked self' timers command =>
    refine .inl ⟨rfl, fun e he node hn => ?_⟩
    obtain ⟨q, -, rfl⟩ := List.mem_map.mp he
    cases hn
  | voted src node leader self' shared' hh hl hu =>
    refine .inl ⟨(update_spec hu).created, fun e he node hn => ?_⟩
    rw [List.mem_singleton.mp he] at hn
    cases hn
  | _ => exact .inl ⟨rfl, fun _ h => by cases h⟩

theorem propose_answered {node : Node} (hv : self.vheight < node.height)
    (hlock : self.bLock.height < node.height)
    (h : self.onMessage cfg env elsewhere shared (.propose node) = some out) :
    ∃ leader, (leader, .vote node) ∈ out.sends := by
  simp only [onMessage] at h
  rw [if_pos ⟨hv, .inr hlock⟩] at h
  obtain ⟨leader, -, h⟩ := Option.bind_eq_some_iff.mp h
  obtain ⟨⟨self', shared'⟩, -, h⟩ := Option.bind_eq_some_iff.mp h
  cases h
  exact ⟨leader, List.mem_singleton_self _⟩

theorem Updated.lookup_quorums {s s' : Hotstuff Q} {shared' : Shared} {node : Node}
    {created : List Node} (h : Updated s shared node s' shared') (hl : LinkedNodes created)
    (hn : node ∈ created) {id : NodeId}
    (hhigh : ∀ e, s.pendingQuorums.lookup id = some e → created.length ≤ e.1) :
    s'.pendingQuorums.lookup id = s.pendingQuorums.lookup id := by
  rcases h.bExec with ⟨-, -, hq, -⟩ | ⟨block, -, href, -, hq, -⟩
  · rw [hq]
  · have hh := height_of_refs hl (.inr hn) href
    have hmax := hl.height_le hn
    rw [hq]
    refine Option.ext fun e => ?_
    rw [lookup_retain]
    refine and_iff_left_of_imp fun he => decide_eq_true ?_
    have := hhigh e he
    omega

theorem Handled.lookup_quorums (h : Handled cfg me env elsewhere self shared ev out)
    (hl : LinkedNodes out.shared.created)
    (hmsg : ∀ src msg node, ev = .message src msg → msg.carries = some node →
      node ∈ shared.created) {id : NodeId}
    (hhigh : ∀ e, self.pendingQuorums.lookup id = some e → out.shared.created.length ≤ e.1)
    (hne : ∀ src node, ev = .message src (.vote node) → node.id ≠ id) :
    out.state.pendingQuorums.lookup id = self.pendingQuorums.lookup id := by
  have hsub := h.created_subset
  have hadd : ∀ {node : Node}, node.id ≠ id →
      (self.addVote cfg node).1.pendingQuorums.lookup id = self.pendingQuorums.lookup id :=
    fun hid => AList.lookup_insert_ne hid.symm
  cases h with
  | started self' timers hself => exact congrArg _ hself.pendingQuorums
  | founded self' timers hself => exact congrArg _ hself.pendingQuorums
  | ticked self' timers command hself => exact congrArg _ hself.pendingQuorums
  | submitted src self' command hself => exact congrArg _ hself.pendingQuorums
  | voted src node leader self' shared' hh hl' hu =>
    exact (update_spec hu).lookup_quorums hl (hsub (hmsg src _ node rfl rfl)) hhigh
  | added src node => exact hadd (hne src node rfl)
  | certified src node leaf self₁ self' shared₁ shared' hb hr hc hu =>
    obtain ⟨commands, -, -, rfl, rfl⟩ := createLeaf_spec hc
    have hleaf : leaf ∈ shared'.created := (update_spec hu).created ▸ List.mem_cons_self
    have hsame := hadd (hne src node rfl)
    rw [← hsame] at hhigh ⊢
    exact (update_spec hu).lookup_quorums hl hleaf hhigh
  | _ => rfl

end

/-! ## The lock and `vheight` are lower than a node not yet voted for -/

/-- What a replica has seen bounds its lock and its `vheight`. -/
structure Behind (c : System Q) : Prop where
  bLock : ∀ q, (c.replicas q).bLock.height = 0 ∨
    (c.replicas q).bLock.height + 2 ≤ c.shared.created.length
  vheight : ∀ q, (c.replicas q).vheight ≤ c.shared.created.length

theorem grandparent_height {created : List Node} (hl : LinkedNodes created)
    {node grandparent : Node} (hn : node ∈ created)
    (h : node.parentRef.bind Node.parentRef = some grandparent) :
    grandparent.height + 2 = node.height := by
  obtain ⟨parent, hp, hon, hh⟩ := hl.parent_spec rfl hn
  rw [hp, Option.bind_some] at h
  rcases hon with rfl | hpc
  · cases h
  · obtain ⟨g, hg, -, hgh⟩ := hl.parent_spec rfl hpc
    obtain rfl := Option.some.inj (h.symm.trans hg)
    omega

theorem Handled.bLock_cases {elsewhere : Node → Bool} {self : Hotstuff Q} {shared : Shared}
    {me : Pid} (h : Handled cfg me env elsewhere self shared ev out)
    (hl : LinkedNodes out.shared.created)
    (hmsg : ∀ src msg node, ev = .message src msg → msg.carries = some node →
      node ∈ shared.created) :
    out.state.bLock = self.bLock ∨
      out.state.bLock.height + 2 ≤ out.shared.created.length := by
  have hsub := h.created_subset
  have hupd : ∀ {s s' : Hotstuff Q} {shared₁ : Shared} {node : Node},
      Updated s shared₁ node s' out.shared → node ∈ out.shared.created →
      s'.bLock = s.bLock ∨ s'.bLock.height + 2 ≤ out.shared.created.length := by
    intro s s' shared₁ node hu hn
    refine hu.bLock.imp_right fun ⟨g, hg, href, _⟩ => ?_
    rw [hg, grandparent_height hl hn href]
    exact hl.height_le hn
  cases h with
  | started self' timers hself => exact .inl hself.bLock
  | founded self' timers hself => exact .inl hself.bLock
  | ticked self' timers command hself => exact .inl hself.bLock
  | submitted src self' command hself => exact .inl hself.bLock
  | voted src node leader self' shared' hh hl' hu =>
    have hmoved := hupd (update_spec hu) (hsub (hmsg src _ node rfl rfl))
    exact hmoved
  | certified src node leaf self₁ self' shared₁ shared' hb hr hc hu =>
    obtain ⟨commands, -, -, rfl, rfl⟩ := createLeaf_spec hc
    have hleaf : leaf ∈ shared'.created := (update_spec hu).created ▸ List.mem_cons_self
    have hmoved := hupd (update_spec hu) hleaf
    exact hmoved
  | _ => exact .inl rfl

theorem Behind.step (hB : Behind c) (hI : OneChain cfg c) (hI' : OneChain cfg c')
    (hs : Stepped cfg c p env ev out c') : Behind c' := by
  have hl := hI'.growing.linked
  have hlen := hs.length_le
  have hmsg := hs.carried hI.growing
  refine ⟨fun q => ?_, fun q => ?_⟩
  · have hold := hB.bLock q
    by_cases hq : q = p
    · subst hq
      rw [hs.self]
      rw [hs.shared] at hl ⊢
      rcases hs.handled.bLock_cases hl hmsg with h | h
      · rw [hs.shared] at hlen
        rw [h]
        omega
      · exact .inr h
    · rw [hs.other hq]
      omega
  · have hold := hB.vheight q
    by_cases hq : q = p
    · subst hq
      rw [hs.self]
      rcases hs.handled.vheight_cases with h | ⟨src, node, hev, h, -⟩
      · omega
      · have hmax := hI.growing.linked.height_le (hmsg src _ node hev rfl)
        omega
    · rw [hs.other hq]
      omega

theorem behind_of_reachable (hcfg : cfg.Valid) (h : System.Reachable cfg c) : Behind c :=
  h.invariant (⟨fun _ => .inl rfl, fun _ => le_rfl⟩ : Behind System.init)
    fun _ _ _ hr _ hI hstep => by
      obtain ⟨p, ev, out, hs⟩ := step_cases hstep
      exact hI.step (.of_reachable hcfg hr) (.of_reachable hcfg (hr.step trivial hstep)) hs

/-! ## The newest node -/

/-- Replica `q` has still to answer the proposal of the node. -/
def System.Asked (c : System Q) (top : Node) (q : Pid) : Prop :=
  (∃ src, (⟨src, q, .propose top⟩ : Packet) ∈ c.network) ∧ (c.replicas q).vheight < top.height

/-- Replica `q` has voted for the node. -/
def System.Answered (c : System Q) (top : Node) (q : Pid) : Prop :=
  ∃ pkt ∈ c.network ++ c.delivered, pkt.src = q ∧ pkt.msg = .vote top

/-- Every member is asked or has answered, and the leader has counted the votes that
arrived; they are no quorum yet. -/
structure Circulates (cfg : Config Q) (c : System Q) (top : Node) : Prop where
  members : ∀ q ∈ cfg.pool, c.Asked top q ∨ c.Answered top q
  counted : ∀ leader, cfg.leader top.height = some leader →
    ((c.replicas leader).pendingQuorums.lookup top.id).getD
        (top.height, cfg.newQuorum (quorumSize cfg.pool.length)) =
      (top.height, cfg.afterVotes (c.votesFor top).length)
  short : (c.votesFor top).length < quorumSize cfg.pool.length

theorem System.Answered.step {top : Node} {q : Pid} (h : c.Answered top q)
    (hs : Stepped cfg c p env ev out c') : c'.Answered top q := by
  obtain ⟨pkt, hpkt, hm⟩ := h
  exact ⟨pkt, hs.perm.mem_iff.mpr (List.mem_append_right _ hpkt), hm⟩

theorem deliver_answers {src q : Pid} {top : Node} (hv : (c.replicas q).vheight < top.height)
    (hlock : (c.replicas q).bLock.height < top.height)
    (hstep : System.step cfg c (.deliver ⟨src, q, .propose top⟩ env) = some c') :
    c'.Answered top q := by
  obtain ⟨-, -, out, hout, rfl⟩ := step_deliver.mp hstep
  obtain ⟨leader, hm⟩ := propose_answered hv hlock hout
  refine ⟨⟨q, leader, .vote top⟩, List.mem_append_left _ (List.mem_append_right _ ?_), rfl, rfl⟩
  exact List.mem_map.mpr ⟨_, hm, rfl⟩

/-- **A member that is asked answers** when the proposal arrives, and is asked until then. -/
theorem System.Asked.step {top : Node} {q : Pid} (h : c.Asked top q) (hB : Behind c)
    (hG : Growing cfg c) {a : Action} (hstep : System.step cfg c a = some c')
    (htop : top ∈ c.shared.created) (hhigh : top.height = c.shared.created.length) :
    c'.Asked top q ∨ c'.Answered top q := by
  obtain ⟨⟨src, hin⟩, hv⟩ := h
  by_cases hev : ∃ src env, a = .deliver ⟨src, q, .propose top⟩ env
  · obtain ⟨src', env, rfl⟩ := hev
    have hlock := hB.bLock q
    have hpos := hG.linked.height_pos htop
    exact .inr (deliver_answers hv (by omega) hstep)
  obtain ⟨out, hs⟩ := step_stepped hstep
  have hnot : ∀ src', a.pid = q → a.event ≠ .message src' (.propose top) := by
    rintro src' rfl he
    cases a with
    | deliver packet env =>
      obtain ⟨src₁, dst, msg⟩ := packet
      cases he
      exact hev ⟨_, _, rfl⟩
    | start pid env => cases he
    | timer pid id env => cases he
  refine .inl ⟨⟨src, ?_⟩, ?_⟩
  · obtain ⟨rest, hperm, hnet⟩ := hs.network
    rw [hnet]
    refine List.mem_append_left _ ((List.mem_append.mp (hperm.mem_iff.mp hin)).resolve_left ?_)
    intro hcons
    cases he : a.event with
    | message src' msg =>
      rw [he] at hcons
      cases List.mem_singleton.mp hcons
      exact hnot src rfl he
    | start => rw [he] at hcons; cases hcons
    | timer => rw [he] at hcons; cases hcons
  · by_cases hq : q = a.pid
    · subst hq
      rw [hs.self]
      rcases hs.handled.vheight_cases with h | ⟨src', node, he, h, -⟩
      · rw [h]
        exact hv
      · have hn := hs.carried hG src' _ node he rfl
        rw [h, hhigh]
        refine lt_of_le_of_ne (hG.linked.height_le hn) fun heq => hnot src' rfl ?_
        rw [he, hG.linked.eq_of_height hn htop (heq.trans hhigh.symm)]
    · rw [hs.other hq]
      exact hv

theorem Stepped.votesFor_other (hs : Stepped cfg c p env ev out c') {top : Node}
    (hne : ∀ src, ev ≠ .message src (.vote top)) : c'.votesFor top = c.votesFor top := by
  unfold System.votesFor
  rw [hs.delivered, List.filter_append]
  have hnil : ((ev.consumed p).filter fun pkt => pkt.msg = .vote top) = [] := by
    refine List.filter_eq_nil_iff.mpr fun pkt hpkt hm => ?_
    cases ev with
    | message src msg =>
      rw [List.mem_singleton.mp hpkt] at hm
      exact hne src (congrArg _ (of_decide_eq_true hm))
    | start => cases hpkt
    | timer => cases hpkt
  rw [hnil, List.nil_append]

/-- **A vote for the newest node** that makes no leaf is counted, and is not the last that
the quorum needs. -/
theorem Circulates.count_vote {top : Node} (hC : Circulates cfg c top)
    (hadd : cfg.AtThreshold) (hP : Placed cfg c) {src : Pid}
    (hs : Stepped cfg c p env (.message src (.vote top)) out c')
    (hhigh : top.height = c.shared.created.length)
    (hcr : c'.shared.created = c.shared.created) :
    (c'.replicas p).pendingQuorums.lookup top.id =
        some (top.height, cfg.afterVotes ((c.votesFor top).length + 1)) ∧
      (c.votesFor top).length + 1 < quorumSize cfg.pool.length := by
  have hin := hs.consumed_mem
  have hl := (hP.chain.voting.vote _ (List.mem_append_left _ hin) top rfl).2.2.2
  have hpos := hP.chain.growing.linked.height_pos (hP.chain.growing.carried _ hin top rfl)
  have hcount := hC.counted p hl
  rw [hs.shared] at hcr
  rw [hs.self]
  cases hs.handled with
  | late _ _ hb =>
    have hlow := hP.locked p
    omega
  | added _ _ hb hr =>
    have hafter : ((c.replicas p).addVote cfg top).2 =
        (cfg.addQuorum (cfg.afterVotes (c.votesFor top).length)).2 := by
      unfold Hotstuff.addVote
      rw [hcount]
    refine ⟨?_, ?_⟩
    · show ((c.replicas p).addVote cfg top).1.pendingQuorums.lookup top.id = _
      unfold Hotstuff.addVote
      rw [hcount, Config.afterVotes_succ]
      exact AList.lookup_insert _
    · have hshort := hC.short
      refine lt_of_le_of_ne hshort fun heq => ?_
      rw [hafter] at hr
      have hreached := hadd _ _ heq
      unfold Config.afterVotes at hr
      rw [hr] at hreached
      cases hreached
  | certified _ _ leaf self₁ self' shared₁ shared' hb hr hc hu =>
    obtain ⟨commands, -, -, rfl, rfl⟩ := createLeaf_spec hc
    rw [show shared'.created = leaf :: c.shared.created from (update_spec hu).created] at hcr
    exact absurd (congrArg List.length hcr) (Nat.ne_of_gt (Nat.lt_succ_self _))

/-- **A step that makes no leaf** keeps the newest node going. -/
theorem Circulates.kept {top : Node} (hC : Circulates cfg c top) (hadd : cfg.AtThreshold)
    (hB : Behind c) (hP : Placed cfg c) (hP' : Placed cfg c') {a : Action}
    (hstep : System.step cfg c a = some c') (htop : top ∈ c.shared.created)
    (hhigh : top.height = c.shared.created.length)
    (hcr : c'.shared.created = c.shared.created) : Circulates cfg c' top := by
  obtain ⟨out, hs⟩ := step_stepped hstep
  have hG := hP.chain.growing
  have hmembers : ∀ q ∈ cfg.pool, c'.Asked top q ∨ c'.Answered top q := by
    intro q hq
    rcases hC.members q hq with h | h
    · exact h.step hB hG hstep htop hhigh
    · exact .inr (h.step hs)
  by_cases hvote : ∃ src, a.event = .message src (.vote top)
  · obtain ⟨src, hev⟩ := hvote
    rw [hev] at hs
    obtain ⟨hlook, hshort⟩ := hC.count_vote hadd hP hs hhigh hcr
    have hl' := (hP.chain.voting.vote _ (List.mem_append_left _ hs.consumed_mem) top rfl).2.2.2
    refine ⟨hmembers, fun leader hl => ?_, by rw [hs.votesFor_vote]; exact hshort⟩
    obtain rfl := Option.some.inj (hl'.symm.trans hl)
    rw [hlook, hs.votesFor_vote]
    rfl
  · have hne : ∀ src, a.event ≠ .message src (.vote top) := fun src h => hvote ⟨src, h⟩
    have hvotes := hs.votesFor_other hne
    refine ⟨hmembers, fun leader hl => ?_, by rw [hvotes]; exact hC.short⟩
    rw [hvotes]
    have hcount := hC.counted leader hl
    by_cases hq : leader = a.pid
    · subst hq
      have hlinked := hP'.chain.growing.linked
      rw [hs.shared] at hlinked hcr
      rw [hs.self, hs.handled.lookup_quorums hlinked (hs.carried hG) ?_ ?_]
      · exact hcount
      · intro e he
        rw [he, Option.getD_some] at hcount
        rw [hcount, hcr, hhigh]
      · intro src node hev hid
        obtain rfl := hG.eq_of_id (hs.carried hG src _ node hev rfl) htop hid
        exact hne src hev
    · rw [hs.other hq]
      exact hcount

/-- **A new leaf is on its way to everybody**, and nobody has voted for it. -/
theorem Circulates.of_leaf (hB : Behind c) (hP : Placed cfg c)
    (hs : Stepped cfg c p env ev out c') {leaf : Node}
    (hcr : c'.shared.created = leaf :: c.shared.created) (hid : leaf.id = env.uid)
    (hhigh : leaf.height = c.shared.created.length + 1)
    (hsends : out.sends = broadcast cfg (.propose leaf)) : Circulates cfg c' leaf := by
  have hG := hP.chain.growing
  have hnew : leaf ∉ c.shared.created := by
    intro hn
    exact hs.fresh (hid ▸ hG.ids_used leaf hn)
  have hnovote : c'.votesFor leaf = [] := by
    refine List.filter_eq_nil_iff.mpr fun pkt hpkt hm => hnew ?_
    have hm := of_decide_eq_true hm
    have hall : pkt ∈ packets p out.sends ++ (c.network ++ c.delivered) :=
      hs.perm.mem_iff.mp (List.mem_append_right _ hpkt)
    rcases List.mem_append.mp hall with h | h
    · have hsend := (mem_packets.mp h).2
      rw [hm, hsends] at hsend
      obtain ⟨q, -, he⟩ := List.mem_map.mp hsend
      cases he
    · exact (hP.chain.voting.vote pkt h leaf hm).1
  have hvheight : ∀ q, (c'.replicas q).vheight ≤ c.shared.created.length := by
    intro q
    by_cases hq : q = p
    · subst hq
      rw [hs.self]
      rcases hs.handled.vheight_cases with h | ⟨-, -, -, -, h, -⟩
      · rw [h]
        exact hB.vheight q
      · rw [← hs.shared, hcr] at h
        exact absurd (congrArg List.length h) (Nat.ne_of_gt (Nat.lt_succ_self _))
    · rw [hs.other hq]
      exact hB.vheight q
  refine ⟨fun q hq => .inl ⟨⟨p, ?_⟩, ?_⟩, fun leader hl => ?_, ?_⟩
  · obtain ⟨rest, -, hnet⟩ := hs.network
    rw [hnet]
    refine List.mem_append_right _ (mem_packets.mpr ⟨rfl, ?_⟩)
    rw [hsends]
    exact List.mem_map.mpr ⟨q, hq, rfl⟩
  · exact Nat.lt_of_le_of_lt (hvheight q) (by omega)
  · have hnone : (c'.replicas leader).pendingQuorums.lookup leaf.id = none := by
      refine Option.eq_none_iff_forall_ne_some.mpr fun e he => ?_
      have hused : ∀ node ∈ c.shared.created, node.id ≠ leaf.id := by
        intro node hn hnid
        exact hs.fresh (hid ▸ hnid ▸ hG.ids_used node hn)
      have hold : ∀ q, (c.replicas q).pendingQuorums.lookup leaf.id ≠ some e := by
        intro q he
        obtain ⟨node, hn, hnid, -⟩ := hP.chain.tallied.entry q _ e he
        exact hused node hn hnid
      by_cases hq : leader = p
      · subst hq
        rw [hs.self] at he
        rcases hs.handled.pendingQuorums_cases with hsub | ⟨src, node, rfl, hsub⟩
        · exact hold _ (hsub _ e he)
        · have hne := hused node (hG.carried _ hs.consumed_mem node rfl)
          have hadd : ((c.replicas leader).addVote cfg node).1.pendingQuorums.lookup leaf.id =
              (c.replicas leader).pendingQuorums.lookup leaf.id :=
            AList.lookup_insert_ne hne.symm
          exact hold _ (hadd ▸ hsub _ e he)
      · exact hold _ (hs.other hq ▸ he)
    rw [hnone, hnovote]
    rfl
  · rw [hnovote]
    unfold quorumSize
    exact Nat.succ_pos _

/-- **The newest node circulates** in every reachable state. -/
theorem circulates_of_reachable (hcfg : cfg.Valid) (hadd : cfg.AtThreshold)
    (h : System.Reachable cfg c) : ∀ top ∈ c.shared.created,
      top.height = c.shared.created.length → Circulates cfg c top :=
  h.invariant (I := fun c => ∀ top ∈ c.shared.created,
      top.height = c.shared.created.length → Circulates cfg c top)
    (fun _ h => by cases h) fun c a c' hr _ hI hstep top htop hhigh => by
      have hP := Placed.of_reachable hcfg hr
      have hP' := Placed.of_reachable hcfg (hr.step trivial hstep)
      have hB := behind_of_reachable hcfg hr
      obtain ⟨out, hs⟩ := step_stepped hstep
      have hcases := hs.handled.broadcasts
      rw [← hs.shared] at hcases
      rcases hcases with ⟨hcr, -⟩ | ⟨leaf, hcr, hsends⟩
      · rw [hcr] at htop hhigh
        exact (hI top htop hhigh).kept hadd hB hP hP' hstep htop hhigh hcr
      · have hl := hP'.chain.growing.linked
        have hleaf : leaf ∈ c'.shared.created := hcr ▸ List.mem_cons_self
        have hlh : leaf.height = c.shared.created.length + 1 := by
          rw [hcr] at hl
          exact hl.2.1
        obtain rfl : leaf = top := hl.eq_of_height hleaf htop (by
          rw [hlh, hhigh, hcr, List.length_cons])
        refine Circulates.of_leaf hB hP hs hcr ?_ hlh hsends
        rcases hs.handled.created_cases with hsame | ⟨parent, commands, hnew, -⟩
        · rw [← hs.shared, hcr] at hsame
          exact absurd (congrArg List.length hsame) (Nat.ne_of_gt (Nat.lt_succ_self _))
        · rw [← hs.shared, hcr] at hnew
          rw [(List.cons.inj hnew).1]
          rfl

theorem created_of_started (h : System.Reachable cfg c) (h0 : 0 ∈ c.started) :
    c.shared.created ≠ [] := by
  refine h.invariant (I := fun c => 0 ∈ c.started → c.shared.created ≠ []) (fun h => by cases h)
    (fun c a c' _ _ hI hstep h0 => ?_) h0
  obtain ⟨out, hs⟩ := step_stepped hstep
  have hsub : c.shared.created ⊆ c'.shared.created := hs.shared ▸ hs.handled.created_subset
  have hkept : 0 ∈ c.started → c'.shared.created ≠ [] := fun h0 hnil =>
    hI h0 (List.eq_nil_of_subset_nil (hnil ▸ hsub))
  cases a with
  | start pid env =>
    have hstarted : c'.started = pid :: c.started := by
      unfold System.step at hstep
      obtain ⟨-, h⟩ := Option.ite_none_right_eq_some.mp hstep
      obtain ⟨-, h⟩ := Option.ite_none_right_eq_some.mp h
      cases h
      rfl
    rw [hstarted] at h0
    rcases List.mem_cons.mp h0 with rfl | h0
    · rw [hs.shared]
      cases hs.handled with
      | started _ _ _ _ hme => exact absurd rfl hme
      | founded => exact List.cons_ne_nil _ _
    · exact hkept h0
  | deliver packet env =>
    obtain ⟨-, -, out, -, rfl⟩ := step_deliver.mp hstep
    exact hkept h0
  | timer pid id env =>
    obtain ⟨-, -, out, -, rfl⟩ := step_timer.mp hstep
    exact hkept h0

/-- **A message is on its way to a live replica** as long as the leader and a quorum of
replicas are alive: the vote of one of them has not arrived, since they would be a quorum. -/
theorem Circulates.in_flight {top : Node} (hC : Circulates cfg c top) (hV : Voting cfg c)
    {live : List Pid} (hnd : live.Nodup) (hpool : live ⊆ cfg.pool)
    (hsize : quorumSize cfg.pool.length ≤ live.length)
    (hleader : ∀ leader, cfg.leader top.height = some leader → leader ∈ live) :
    ∃ packet ∈ c.network, packet.dst ∈ live ∧ packet.msg.carries = some top := by
  by_contra hno
  have hvoted : live ⊆ (c.votesFor top).map Packet.src := by
    intro q hq
    rcases hC.members q (hpool hq) with ⟨⟨src, hin⟩, -⟩ | ⟨pkt, hpkt, rfl, hm⟩
    · exact absurd ⟨_, hin, hq, rfl⟩ hno
    · rcases List.mem_append.mp hpkt with hin | hdel
      · have hdst := hleader _ (hV.vote pkt hpkt top hm).2.2.2
        exact absurd ⟨pkt, hin, hdst, by rw [hm]; rfl⟩ hno
      · exact List.mem_map_of_mem (List.mem_filter.mpr ⟨hdel, decide_eq_true hm⟩)
  have hle := (hnd.subperm hvoted).length_le
  have hshort := hC.short
  rw [List.length_map] at hle
  omega

/-! ## What a node costs -/

/-- Who is asked to vote at which height. -/
def proposalKey (pkt : Packet) : Option (Pid × ℕ) :=
  match pkt.msg with
  | .propose node => some (pkt.dst, node.height)
  | _ => none

/-- Every node is proposed once to each member. -/
structure Proposing (cfg : Config Q) (c : System Q) : Prop where
  key : ∀ k ∈ (c.network ++ c.delivered).filterMap proposalKey,
    k.1 ∈ cfg.pool ∧ 1 ≤ k.2 ∧ k.2 ≤ c.shared.created.length
  once : ((c.network ++ c.delivered).filterMap proposalKey).Nodup

theorem filterMap_proposalKey_of_none {sends : List (Pid × HSMessage)}
    (h : ∀ e ∈ sends, ∀ node, e.2 ≠ .propose node) :
    (packets p sends).filterMap proposalKey = [] := by
  refine List.filterMap_eq_nil_iff.mpr fun pkt hpkt => ?_
  obtain ⟨src, dst, msg⟩ := pkt
  cases msg with
  | propose node => exact absurd rfl (h _ (mem_packets.mp hpkt).2 node)
  | submit command => rfl
  | vote node => rfl

theorem filterMap_proposalKey_broadcast (leaf : Node) :
    (packets p (broadcast cfg (.propose leaf))).filterMap proposalKey =
      cfg.pool.map fun q => (q, leaf.height) := by
  unfold packets broadcast
  rw [List.map_map, List.filterMap_map, ← List.filterMap_eq_map]
  rfl

theorem Proposing.step (hR : Proposing cfg c) (hcfg : cfg.Valid) (hI' : OneChain cfg c')
    (hs : Stepped cfg c p env ev out c') : Proposing cfg c' := by
  have hlen := hs.length_le
  have hperm : ((c'.network ++ c'.delivered).filterMap proposalKey).Perm
      ((packets p out.sends).filterMap proposalKey ++
        (c.network ++ c.delivered).filterMap proposalKey) := by
    rw [← List.filterMap_append]
    exact hs.perm.filterMap proposalKey
  have hcases := hs.handled.broadcasts
  rw [← hs.shared] at hcases
  rcases hcases with ⟨-, hnone⟩ | ⟨leaf, hcr, hsends⟩
  · rw [filterMap_proposalKey_of_none hnone, List.nil_append] at hperm
    refine ⟨fun k hk => ?_, hperm.nodup_iff.mpr hR.once⟩
    obtain ⟨hq, hpos, hle⟩ := hR.key k (hperm.mem_iff.mp hk)
    exact ⟨hq, hpos, hle.trans hlen⟩
  · have hl := hI'.growing.linked
    rw [hcr] at hl
    have hhigh : leaf.height = c.shared.created.length + 1 := hl.2.1
    rw [hsends, filterMap_proposalKey_broadcast] at hperm
    refine ⟨fun k hk => ?_, hperm.nodup_iff.mpr ?_⟩
    · rcases List.mem_append.mp (hperm.mem_iff.mp hk) with h | h
      · obtain ⟨q, hq, rfl⟩ := List.mem_map.mp h
        rw [hcr, List.length_cons, ← hhigh]
        exact ⟨hq, by omega, le_rfl⟩
      · obtain ⟨hq, hpos, hle⟩ := hR.key k h
        exact ⟨hq, hpos, hle.trans hlen⟩
    · refine List.nodup_append.mpr ⟨?_, hR.once, ?_⟩
      · exact hcfg.pool_nodup.map fun _ _ h => (Prod.mk.inj h).1
      · rintro k hk _ hk' rfl
        obtain ⟨q, -, rfl⟩ := List.mem_map.mp hk
        have hle := (hR.key _ hk').2.2
        rw [hhigh] at hle
        omega

theorem proposing_of_reachable (hcfg : cfg.Valid) (h : System.Reachable cfg c) :
    Proposing cfg c :=
  h.invariant (⟨fun _ h => (by cases h), List.nodup_nil⟩ : Proposing cfg System.init)
    fun _ _ _ hr _ hI hstep => by
      obtain ⟨p, ev, out, hs⟩ := step_cases hstep
      exact hI.step hcfg (.of_reachable hcfg (hr.step trivial hstep)) hs

theorem length_le_of_keys (pool : List Pid) (height : ℕ) {keys : List (Pid × ℕ)}
    (hnd : keys.Nodup) (h : ∀ k ∈ keys, k.1 ∈ pool ∧ 1 ≤ k.2 ∧ k.2 ≤ height) :
    keys.length ≤ pool.length * height := by
  have hsub : keys ⊆ pool ×ˢ List.range' 1 height := by
    intro k hk
    obtain ⟨hq, hpos, hle⟩ := h k hk
    exact List.mem_product.mpr ⟨hq, List.mem_range'_1.mpr ⟨hpos, by omega⟩⟩
  have hle := (hnd.subperm hsub).length_le
  rwa [List.length_product, List.length_range'] at hle

theorem length_carriers (l : List Packet) :
    (l.filter fun pkt => pkt.msg.carries.isSome).length =
      (l.filterMap proposalKey).length + (l.filterMap voteKey).length := by
  induction l with
  | nil => rfl
  | cons pkt l ih =>
    obtain ⟨src, dst, msg⟩ := pkt
    cases msg with
    | submit command =>
      rw [List.filter_cons_of_neg (by simp [HSMessage.carries]),
        List.filterMap_cons_none (by rfl), List.filterMap_cons_none (by rfl), ih]
    | propose node =>
      rw [List.filter_cons_of_pos (by rfl), List.filterMap_cons_some (by rfl),
        List.filterMap_cons_none (by rfl), List.length_cons, List.length_cons, ih]
      omega
    | vote node =>
      rw [List.filter_cons_of_pos (by rfl), List.filterMap_cons_none (by rfl),
        List.filterMap_cons_some (by rfl), List.length_cons, List.length_cons, ih]
      omega

/-- **The votes and proposals sent** are at most `2 * n` for each node. -/
theorem OneChain.cost (hI : OneChain cfg c) (hR : Proposing cfg c) :
    ((c.network ++ c.delivered).filter fun pkt => pkt.msg.carries.isSome).length ≤
      2 * (cfg.pool.length * c.shared.created.length) := by
  have hvotes := length_le_of_keys cfg.pool c.shared.created.length hI.voting.once fun k hk => by
    obtain ⟨pkt, hpkt, hk⟩ := List.mem_filterMap.mp hk
    obtain ⟨src, dst, msg⟩ := pkt
    cases msg with
    | vote node =>
      cases hk
      obtain ⟨hn, -, hsrc, -⟩ := hI.voting.vote _ hpkt node rfl
      exact ⟨hsrc, hI.growing.linked.height_pos hn, hI.growing.linked.height_le hn⟩
    | propose node => cases hk
    | submit command => cases hk
  have hproposals := length_le_of_keys cfg.pool c.shared.created.length hR.once hR.key
  rw [length_carriers]
  omega

/-- **The chain never stalls** while its leaders are alive. Let the quorum counter return
`Some` on the call that reaches the threshold. Once replica 0 has started, in every reachable
state each member has still to receive the proposal of the newest node or has voted for it,
the votes that arrived are no quorum, and a message with the node is on its way to a replica
of any set of `quorumSize` replicas with the leader among them; and the votes and proposals
sent so far are at most `2 * n` for each node, so the chain grows as they are delivered. -/
theorem chain_never_stalls (cfg : Config Q) (hcfg : cfg.Valid) (hadd : cfg.AtThreshold)
    (c : System Q) (h : System.Reachable cfg c) :
    (0 ∈ c.started → ∃ top ∈ c.shared.created, top.height = c.shared.created.length ∧
      (∀ q ∈ cfg.pool, (∃ src, (⟨src, q, .propose top⟩ : Packet) ∈ c.network) ∨
        ∃ pkt ∈ c.network ++ c.delivered, pkt.src = q ∧ pkt.msg = .vote top) ∧
      (c.votesFor top).length < quorumSize cfg.pool.length ∧
      ∀ live : List Pid, live.Nodup → live ⊆ cfg.pool →
        quorumSize cfg.pool.length ≤ live.length →
        (∀ leader, cfg.leader top.height = some leader → leader ∈ live) →
          ∃ packet ∈ c.network, packet.dst ∈ live ∧ packet.msg.carries = some top) ∧
    ((c.network ++ c.delivered).filter fun pkt => pkt.msg.carries.isSome).length ≤
      2 * (cfg.pool.length * c.shared.created.length) := by
  have hI := OneChain.of_reachable hcfg h
  refine ⟨fun h0 => ?_, hI.cost (proposing_of_reachable hcfg h)⟩
  have hne := created_of_started h h0
  have hlinked := hI.growing.linked
  obtain ⟨top, rest, hcr⟩ := List.exists_cons_of_ne_nil hne
  have htop : top ∈ c.shared.created := hcr ▸ List.mem_cons_self
  have hhigh : top.height = c.shared.created.length := by
    rw [hcr] at hlinked ⊢
    exact hlinked.2.1
  have hC := circulates_of_reachable hcfg hadd h top htop hhigh
  exact ⟨top, htop, hhigh, fun q hq => (hC.members q hq).imp_left And.left, hC.short,
    fun live hnd hpool hsize hleader => hC.in_flight hI.voting hnd hpool hsize hleader⟩

/-- Four replicas, of which the last is silent. Three have the first node and two votes for it
have arrived; the third is the message that keeps the run going. -/
theorem chain_never_stalls_four :
    let cfg : Config ℤ := .standard false [0, 1, 2, 3]
    let n₁ : Node := .child 1 .genesis 1 []
    ∃ c, System.Reachable cfg c ∧
      c.network = [⟨0, 3, .propose n₁⟩, ⟨2, 0, .vote n₁⟩] ∧
      (∃ packet ∈ c.network, packet.dst ∈ [0, 1, 2]) ∧
      ((c.network ++ c.delivered).filter fun pkt => pkt.msg.carries.isSome).length ≤
        2 * (cfg.pool.length * c.shared.created.length) := by
  intro cfg n₁
  let run : List Action := [.start 0 (.counting 1), .recv 2 0 0 (.propose n₁),
    .recv 3 0 1 (.propose n₁), .recv 4 0 2 (.propose n₁), .recv 5 0 0 (.vote n₁),
    .recv 6 1 0 (.vote n₁)]
  have hrun : (System.execute cfg run).any (fun c =>
      decide (c.network = [⟨0, 3, .propose n₁⟩, ⟨2, 0, .vote n₁⟩] ∧ 0 ∈ c.started)) = true := by
    decide +kernel
  obtain ⟨c, hc, hd⟩ := (Option.any_eq_true _ _).mp hrun
  obtain ⟨hnet, h0⟩ := of_decide_eq_true hd
  have hreach := System.reachable_execute hc
  obtain ⟨hgo, hcost⟩ := chain_never_stalls cfg (Config.standard_valid (by decide) (by decide))
    (Config.standard_atThreshold _ _) c hreach
  obtain ⟨top, -, -, -, -, hflight⟩ := hgo h0
  obtain ⟨packet, hin, hdst, -⟩ := hflight [0, 1, 2] (by decide) (by decide) (by decide)
    fun leader hl => by cases hl; decide
  exact ⟨c, hreach, hnet, ⟨packet, hin, hdst⟩, hcost⟩

/-! ## Without a view change -/

/-- **A silent replica stops the chain on its first turn.** In a run in which replica `q`
takes no step the chain does not get above any height that `q` leads; with rotating leaders
one silent member keeps it at `n` nodes at most. -/
theorem silent_leader_stops (cfg : Config Q) (hcfg : cfg.Valid) (q : Pid) (c : System Q)
    (h : Transition.Reachable (System.step cfg) System.init (fun _ a => a.pid ≠ q) c) :
    (∀ turn, 1 ≤ turn → cfg.leader turn = some q → c.shared.created.length ≤ turn) ∧
    (cfg.rotating = true → q ∈ cfg.pool → c.shared.created.length ≤ cfg.pool.length) := by
  have hturn : ∀ turn, 1 ≤ turn → cfg.leader turn = some q →
      c.shared.created.length ≤ turn := by
    intro turn hpos hl
    induction h with
    | init => exact Nat.zero_le _
    | @step c c' a hrun hok hstep ih =>
      have hr : System.Reachable cfg c := hrun.weaken fun _ _ _ => trivial
      obtain ⟨ev, out, hm⟩ := step_moved hstep
      have hsucc := hm.stepped.length_le_succ
      by_contra hpast
      have hlen : c.shared.created.length = turn := by omega
      have hne : c.shared.created ≠ [] := by
        intro hnil
        rw [hnil] at hlen
        exact absurd hlen.symm (Nat.ne_of_gt hpos)
      obtain ⟨hmaker, -⟩ := (Placed.of_reachable hcfg hr).leaf_maker hcfg hm hne (by omega)
      rw [hlen, hl, Option.some.injEq] at hmaker
      exact hok hmaker.symm
  refine ⟨hturn, fun hrot hq => ?_⟩
  obtain ⟨turn, hle, hlt, hl⟩ := Config.exists_turn hrot hq 1
  exact (hturn turn hle hl).trans (by omega)

/-- Two replicas with rotating leaders. Replica 1, the leader of the first node, is silent. -/
theorem silent_leader_stops_two :
    let cfg : Config ℤ := .standard true [0, 1]
    ∃ c, Transition.Reachable (System.step cfg) System.init (fun _ a => a.pid ≠ 1) c ∧
      c.shared.created ≠ [] ∧ c.shared.created.length ≤ 1 := by
  intro cfg
  let n₁ : Node := .child 1 .genesis 1 []
  let run : List Action := [.start 0 (.counting 1), .recv 2 0 0 (.propose n₁)]
  have hrun : (Transition.exec (System.step cfg) (fun _ a => decide (a.pid ≠ 1)) System.init
      run).any (fun c => decide (c.shared.created ≠ [])) = true := by decide +kernel
  obtain ⟨c, hc, hd⟩ := (Option.any_eq_true _ _).mp hrun
  have hreach : Transition.Reachable (System.step cfg) System.init (fun _ a => a.pid ≠ 1) c :=
    Transition.Reachable.exec (fun _ _ h => of_decide_eq_true h) .init hc
  have hcfg : cfg.Valid := Config.standard_valid (by decide) (by decide)
  exact ⟨c, hreach, of_decide_eq_true hd,
    (silent_leader_stops cfg hcfg 1 c hreach).1 1 le_rfl rfl⟩

end Blsmr.Hotstuff
