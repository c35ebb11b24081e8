import Blsmr.Replica.Contacted
import Blsmr.Replica.Timers
import Mathlib.Algebra.Order.BigOperators.Group.List

/-!
# The messages of a run

`Ledger` counts the messages of every kind ever sent: a command costs one request
for each replica asked and one commit message for each peer, and when it takes the
slow path one proposal for each member of its committee; every request and every
proposal is answered once. So a cluster with no message in flight has sent a
number of messages that its commands and the paths they took determine
(`message_complexity`).
-/

namespace Blsmr

open Blsmr.Transition

/-! ## Kinds of messages -/

inductive Message.Kind where
  | req
  | res
  | commit
  | request
  | response
  deriving DecidableEq, Repr

def Message.kind : Message → Message.Kind
  | .announce (.req _) => .req
  | .announce (.res _) => .res
  | .announce (.commit _ _) => .commit
  | .quorum (.request _ _) => .request
  | .quorum (.response _ _) => .response

/-- How many of the packets are of kind `k`. -/
def number (k : Message.Kind) (l : List Packet) : ℕ := l.countP fun pkt => pkt.msg.kind = k

section Number

variable {k : Message.Kind} {l l' : List Packet}

@[simp] theorem number_nil : number k [] = 0 := rfl

@[simp] theorem number_append : number k (l ++ l') = number k l + number k l' := List.countP_append

theorem number_perm (h : l.Perm l') : number k l = number k l' := h.countP_eq _

theorem number_packets (p : Pid) (sends : List (Pid × Message)) :
    number k (packets p sends) = sends.countP fun m => m.2.kind = k := by
  unfold number packets
  rw [List.countP_map]
  rfl

theorem number_consumed (p src : Pid) (msg : Message) :
    number k (consumed p (some (src, msg))) = if msg.kind = k then 1 else 0 := by
  simp [number, consumed, List.countP_cons]

theorem number_packets_kind (p : Pid) (sends : List (Pid × Message)) (k' : Message.Kind)
    (h : ∀ m ∈ sends, m.2.kind = k') :
    number k (packets p sends) = if k' = k then sends.length else 0 := by
  rw [number_packets]
  split
  · rename_i hk
    exact List.countP_eq_length.mpr fun m hm => by simp [h m hm, hk]
  · rename_i hk
    exact List.countP_eq_zero.mpr fun m hm => by simp [h m hm, hk]

theorem length_eq_number (l : List Packet) : l.length = number .req l + number .res l +
    number .commit l + number .request l + number .response l := by
  induction l with
  | nil => rfl
  | cons pkt l ih =>
    have hone : ∀ k, number k (pkt :: l) = number k l + if pkt.msg.kind = k then 1 else 0 :=
      fun k => by simp [number, List.countP_cons]
    simp only [hone, List.length_cons, ih]
    cases pkt.msg.kind <;> simp <;> omega

end Number

/-! ## Totals over the pool -/

/-- The sum of `f` over the members of the pool. -/
def Net.total (cfg : Config) (s : Net) (f : Progress → ℕ) : ℕ :=
  (cfg.pool.map fun p => f (s.replica p)).sum

/-- How many commands took the slow path here. -/
def Progress.slow (x : Progress) : ℕ := x.ready.countP fun r => !r.2.allowFastpath

section Total

variable {cfg : Config} {s s' : Net} {p : Pid} {inp : Option (Pid × Message)} {f : Progress → ℕ}

theorem sum_update {pool : List Pid} (hnd : pool.Nodup) (g g' : Pid → ℕ) {p : Pid}
    (hg : ∀ q, q ≠ p → g' q = g q) (hp : p ∈ pool) :
    (pool.map g').sum + g p = (pool.map g).sum + g' p := by
  induction pool with
  | nil => cases hp
  | cons q pool ih =>
    obtain ⟨hq, hnd⟩ := List.nodup_cons.mp hnd
    simp only [List.map_cons, List.sum_cons]
    by_cases hqp : q = p
    · subst hqp
      have hsame : pool.map g' = pool.map g :=
        List.map_congr_left fun r hr => hg r fun he => hq (he ▸ hr)
      rw [hsame]
      omega
    · have := ih hnd ((List.mem_cons.mp hp).resolve_left (Ne.symm hqp))
      rw [hg q hqp]
      omega

theorem Net.total_step (hnd : cfg.pool.Nodup) (hs : NetStep cfg s p inp s') (hp : p ∈ cfg.pool) :
    s'.total cfg f + f (s.replica p) = s.total cfg f + f (s'.replica p) :=
  sum_update hnd (fun q => f (s.replica q)) (fun q => f (s'.replica q))
    (fun _ hq => by rw [hs.other hq]) hp

theorem Net.total_add (hnd : cfg.pool.Nodup) (hs : NetStep cfg s p inp s') {d : ℕ}
    (hf : f (s'.replica p) = f (s.replica p) + d) (hp : d ≠ 0 → p ∈ cfg.pool) :
    s'.total cfg f = s.total cfg f + d := by
  by_cases hd : d = 0
  · subst hd
    refine congrArg List.sum (List.map_congr_left fun q _ => ?_)
    by_cases hq : q = p
    · subst hq
      exact hf
    · rw [hs.other hq]
  · have := Net.total_step (f := f) hnd hs (hp hd)
    omega

end Total

/-! ## Whom a coordinator asks -/

/-- How many replicas a command is announced to. -/
def Config.fanout (cfg : Config) : ℕ :=
  match cfg.protocolType, cfg.quorumSystem with
  | .threeJane, .witnessGrid grid => grid.x * grid.n + grid.x * (grid.n - grid.x)
  | _, _ => cfg.pool.length

/-- How many replicas the slow path asks. -/
def Config.committee (cfg : Config) : ℕ :=
  if cfg.protocolType ≠ .threeJane then cfg.pool.length
  else min cfg.quorumSystem.consensusCommitteeSize cfg.pool.length

theorem Config.length_replicas (cfg : Config) (i : CmdId) :
    (Quorum.replicas cfg i).length = cfg.committee := by
  unfold Quorum.replicas Config.committee
  split
  · rfl
  · rw [List.length_take, List.length_insertionSort]

/-- The quorum systems of the replicas are as choices of quorums leave them. -/
def Drawn (cfg : Config) (s : Net) : Prop :=
  ∀ p, ∃ earlier, (s.replica p).bqs = cfg.quorumSystem.after earlier

theorem Targets.drawn {cfg : Config} {bqs bqs' : QuorumSystem} {targets : List Pid}
    {earlier : List QuorumSystem.Randomness} (h : bqs = cfg.quorumSystem.after earlier)
    (ht : Targets cfg bqs bqs' targets) : ∃ later, bqs' = cfg.quorumSystem.after later := by
  rcases ht with ⟨-, rfl, -⟩ | ⟨-, rng, hrng⟩
  · exact ⟨earlier, h⟩
  · exact ⟨earlier ++ [rng], by rw [QuorumSystem.after_snoc, ← h, hrng]⟩

theorem Drawn.step {cfg : Config} {s s' : Net} {p : Pid} {inp : Option (Pid × Message)}
    (h : Drawn cfg s) (hs : NetStep cfg s p inp s') : Drawn cfg s' := by
  intro q
  by_cases hq : q = p
  · subst hq
    obtain ⟨sends, rest, he, -⟩ := hs.effect
    obtain ⟨earlier, hb⟩ := h q
    rcases he.bqs_cases with hb' | ⟨targets, ht⟩
    · exact ⟨earlier, hb'.trans hb⟩
    · exact ht.drawn hb
  · rw [hs.other hq]
    exact h q

theorem Targets.length_eq {cfg : Config} (hcfg : cfg.Live) {bqs bqs' : QuorumSystem}
    {targets : List Pid} {earlier : List QuorumSystem.Randomness}
    (h : bqs = cfg.quorumSystem.after earlier) (ht : Targets cfg bqs bqs' targets) :
    targets.length = cfg.fanout := by
  rcases ht with ⟨hp, -, rfl⟩ | ⟨hp, rng, hrng⟩
  · unfold Config.fanout
    split
    · contradiction
    · rfl
  · rcases hcfg with ⟨hd, -⟩ | ⟨k, grid, hk, hg⟩
    · rcases hd with hd | hd <;> (rw [hd.protocolType] at hp; cases hp)
    obtain ⟨hn, -, hx, hperm, -⟩ := hg.spec hk
    obtain ⟨rows, cols, hr, -, hrx, hcx, he⟩ :=
      QuorumSystem.chosen_crossCells grid earlier rng hperm (hn ▸ hx)
    rw [← hg.quorumSystem, ← h, hrng] at he
    have hfan : cfg.fanout = grid.x * grid.n + grid.x * (grid.n - grid.x) := by
      simp only [Config.fanout, hp, hg.quorumSystem]
    rw [hfan, show targets = _ from he, Grid.QuorumSystem.length_crossCells hr, hrx, hcx]

theorem length_commitSends {cfg : Config} (hnd : cfg.pool.Nodup) {me : Pid} (hme : me ∈ cfg.pool)
    (i : CmdId) (deps : List CmdId) :
    (commitSends cfg me i deps).length = cfg.pool.length - 1 := by
  have herase : cfg.pool.filter (· ≠ me) = cfg.pool.erase me := by
    rw [hnd.erase_eq_filter]
    exact List.filter_congr fun q _ => by by_cases hq : q = me <;> simp [hq]
  rw [commitSends, List.length_map, herase, List.length_erase_of_mem hme]

/-! ## What a step adds -/

/-- The entries a step makes: `a` commands announced, `sl` slow paths taken and `d`
commands decided, and the messages that these and the message consumed give rise to. -/
structure Effect.Books (cfg : Config) (p : Pid) (x : Progress) (inp : Option (Pid × Message))
    (x' : Progress) (sends : List (Pid × Message)) (a sl d : ℕ) : Prop where
  announced : x'.announced.length = x.announced.length + a
  slow : x'.slow = x.slow + sl
  decided : x'.decided.length = x.decided.length + d
  req : number .req (packets p sends) = cfg.fanout * a
  res : number .res (packets p sends) = number .req (consumed p inp)
  commit : number .commit (packets p sends) = (cfg.pool.length - 1) * d
  request : number .request (packets p sends) = cfg.committee * sl
  response : number .response (packets p sends) = number .request (consumed p inp)

section Books

variable {cfg : Config} {me : Pid} {used : CmdId → Prop} {x x' : Progress}
  {inp : Option (Pid × Message)} {sends : List (Pid × Message)}

theorem Effect.Books.nothing (hann : x'.announced = x.announced) (hready : x'.ready = x.ready)
    (hdec : x'.decided = x.decided) (hreq : number .req (consumed me inp) = 0)
    (hrequest : number .request (consumed me inp) = 0) :
    Effect.Books cfg me x inp x' [] 0 0 0 := by
  refine ⟨by rw [hann]; rfl, by unfold Progress.slow; rw [hready]; rfl, by rw [hdec]; rfl,
    ?_, ?_, ?_, ?_, ?_⟩ <;> simp [packets, hreq, hrequest]

theorem Completes.no_request {i : CmdId} {q : List Res} (hc : Completes cfg x inp i q)
    (me : Pid) :
    number .req (consumed me inp) = 0 ∧ number .request (consumed me inp) = 0 := by
  rcases hc with ⟨src, res, l, rfl, -⟩ | ⟨rfl, -⟩
  · simp [number_consumed, Message.kind]
  · exact ⟨rfl, rfl⟩

theorem Effect.books (he : Effect cfg me used x inp x' sends) (hnd : cfg.pool.Nodup)
    (hlen : ∀ bqs' targets, Targets cfg x.bqs bqs' targets → targets.length = cfg.fanout)
    (hme : x'.decided ≠ x.decided → me ∈ cfg.pool) :
    ∃ a sl d, Effect.Books cfg me x inp x' sends a sl d := by
  have hgrow : ∀ {l : List (CmdId × List CmdId)} {d}, l ++ [d] ≠ l := by simp
  have hcommit : ∀ i deps, ∀ m ∈ commitSends cfg me i deps, m.2.kind = .commit := by
    intro i deps m hm
    obtain ⟨pid, -, rfl⟩ := List.mem_map.mp hm
    rfl
  cases he with
  | silent => exact ⟨0, 0, 0, .nothing rfl rfl rfl rfl rfl⟩
  | stale src res => exact ⟨0, 0, 0, .nothing rfl rfl rfl rfl rfl⟩
  | collect src res => exact ⟨0, 0, 0, .nothing rfl rfl rfl rfl rfl⟩
  | commit src i deps => exact ⟨0, 0, 0, .nothing rfl rfl rfl rfl rfl⟩
  | ignored src i deps => exact ⟨0, 0, 0, .nothing rfl rfl rfl rfl rfl⟩
  | accepted src i inst => exact ⟨0, 0, 0, .nothing rfl rfl rfl rfl rfl⟩
  | announce cmd bqs' targets hpid hfresh ht =>
    refine ⟨1, 0, 0, by simp [Progress.announce], rfl, rfl, ?_, ?_, ?_, ?_, ?_⟩ <;>
      rw [number_packets_kind _ _ .req (by simp [Message.kind])] <;>
      simp [hlen bqs' targets ht, consumed]
  | submit src cmd =>
    refine ⟨0, 0, 0, rfl, rfl, rfl, ?_, ?_, ?_, ?_, ?_⟩ <;>
      simp [number_packets, number_consumed, Message.kind]
  | request src i deps =>
    refine ⟨0, 0, 0, rfl, rfl, rfl, ?_, ?_, ?_, ?_, ?_⟩ <;>
      simp [number_packets, number_consumed, Message.kind]
  | fast inp i q hash log' hc =>
    obtain ⟨h1, h2⟩ := hc.no_request me
    have hlen' := length_commitSends hnd (hme hgrow) i (unionDeps q)
    refine ⟨0, 0, 1, rfl, ?_, by simp [Progress.decide, Progress.logged, Progress.hand,
      Progress.setPending], ?_, ?_, ?_, ?_, ?_⟩
    · simp [Progress.slow, Progress.decide, Progress.logged, Progress.hand, Progress.setPending]
    all_goals
      rw [number_packets_kind _ _ .commit (hcommit i _), hlen']
      simp [h1, h2]
  | slow inp i q hc =>
    obtain ⟨h1, h2⟩ := hc.no_request me
    have hlen' : (requestSends cfg i (unionDeps q)).length = cfg.committee := by
      rw [requestSends, List.length_map, cfg.length_replicas]
    refine ⟨0, 1, 0, rfl, ?_, rfl, ?_, ?_, ?_, ?_, ?_⟩
    · simp [Progress.slow, Progress.hand, Progress.setInstance, Progress.setPending]
    all_goals
      rw [number_packets_kind _ _ .request (by simp [requestSends, Message.kind]), hlen']
      simp [h1, h2]
  | complete src i inst hash log' =>
    have hlen' := length_commitSends hnd (hme hgrow) i inst.deps
    refine ⟨0, 0, 1, rfl, rfl, by simp [Progress.decide, Progress.logged, Progress.setInstance],
      ?_, ?_, ?_, ?_, ?_⟩
    all_goals
      rw [number_packets_kind _ _ .commit (hcommit i _), hlen']
      simp [number_consumed, Message.kind]

end Books

/-! ## The ledger -/

structure Ledger (cfg : Config) (s : Net) : Prop where
  req : number .req s.sent = cfg.fanout * s.total cfg (·.announced.length)
  res : number .res s.sent + number .req s.network = number .req s.sent
  commit : number .commit s.sent = (cfg.pool.length - 1) * s.total cfg (·.decided.length)
  request : number .request s.sent = cfg.committee * s.total cfg Progress.slow
  response : number .response s.sent + number .request s.network = number .request s.sent

namespace Ledger

variable {cfg : Config} {s s' : Net} {p : Pid} {inp : Option (Pid × Message)}

theorem init (cfg : Config) : Ledger cfg (Cluster.init cfg).net := by
  have hzero : ∀ f : Progress → ℕ, f (BLSMR.default cfg).progress = 0 →
      (Cluster.init cfg).net.total cfg f = 0 := by
    intro f hf
    simp [Net.total, Cluster.net, Cluster.init, hf]
  refine ⟨?_, rfl, ?_, ?_, rfl⟩ <;> rw [hzero _ rfl] <;> rfl

/-- **Every step keeps the ledger.** -/
theorem step (h : Ledger cfg s) (hcfg : cfg.Live) (hD : Drawn cfg s)
    (hs : NetStep cfg s p inp s') (hp : (s'.replica p).announced ≠ [] → p ∈ cfg.pool)
    (hF' : Flow cfg s') : Ledger cfg s' := by
  obtain ⟨sends, rest, he, hperm, hnet, hsent⟩ := hs.effect
  obtain ⟨earlier, hb⟩ := hD p
  have hdec : (s'.replica p).decided ≠ (s.replica p).decided → p ∈ cfg.pool := by
    intro hne
    have hex : (s'.replica p).decided ≠ [] := by
      intro hnil
      have := (hs.grows p).decided
      rw [hnil, List.subset_nil] at this
      exact hne (hnil.trans this.symm)
    obtain ⟨⟨i, deps⟩, hd⟩ := List.exists_mem_of_ne_nil _ hex
    obtain ⟨cmd, hcmd, -⟩ := (hF'.sound p).ready_announced i
      ((hF'.sound p).handedOver_of_decided ⟨deps, hd⟩)
    exact hp (List.ne_nil_of_mem hcmd)
  obtain ⟨a, sl, d, B⟩ := he.books hcfg.pool_nodup (fun _ _ ht => ht.length_eq hcfg hb) hdec
  have hsent' : ∀ k, number k s'.sent = number k s.sent + number k (packets p sends) :=
    fun k => by rw [hsent, number_append]
  have hnet' : ∀ k, number k s'.network + number k (consumed p inp) =
      number k s.network + number k (packets p sends) := fun k => by
    rw [hnet, number_append, number_perm hperm, number_append]
    omega
  have hann : a ≠ 0 → p ∈ cfg.pool := fun ha => hp fun hnil => by
    have := B.announced
    rw [hnil, List.length_nil] at this
    omega
  have hslow : sl ≠ 0 → p ∈ cfg.pool := fun hsl => by
    have hpos : 0 < (s'.replica p).slow := by
      rw [B.slow]
      omega
    obtain ⟨r, hr, -⟩ := List.countP_pos_iff.mp hpos
    obtain ⟨cmd, hcmd, -⟩ := (hF'.sound p).ready_announced r.1 ⟨r.2, hr⟩
    exact hp (List.ne_nil_of_mem hcmd)
  have hdec' : d ≠ 0 → p ∈ cfg.pool := fun hd => hdec fun he => by
    have := B.decided
    rw [he] at this
    omega
  refine ⟨?_, ?_, ?_, ?_, ?_⟩
  · rw [hsent', B.req, h.req, Net.total_add hcfg.pool_nodup hs B.announced hann, Nat.mul_add]
  · have h1 := hnet' .req
    have h2 := hsent' .req
    have h3 := hsent' .res
    have h4 := B.res
    have h5 := h.res
    omega
  · rw [hsent', B.commit, h.commit, Net.total_add hcfg.pool_nodup hs B.decided hdec', Nat.mul_add]
  · rw [hsent', B.request, h.request, Net.total_add hcfg.pool_nodup hs B.slow hslow, Nat.mul_add]
  · have h1 := hnet' .request
    have h2 := hsent' .request
    have h3 := hsent' .response
    have h4 := B.response
    have h5 := h.response
    omega

theorem of_reachable {c : Cluster} (hcfg : cfg.Live) (h : Cluster.Reachable cfg c) :
    Ledger cfg c.net := by
  suffices Drawn cfg c.net ∧ Ledger cfg c.net from this.2
  refine h.invariant (I := fun c => Drawn cfg c.net ∧ Ledger cfg c.net)
    ⟨fun _ => ⟨[], rfl⟩, init cfg⟩ fun c a c' hr hok hI hs => ?_
  have hs' := (step_net (regular_of_reachable hr) hs).1
  have hc' := hr.step hok hs
  have hT := Timely.of_reachable hc'
  refine ⟨hI.1.step hs', hI.2.step hcfg hI.1 hs' (fun hne => ?_) (Flow.of_reachable hc')⟩
  by_contra hp
  exact hne ((hT.replica a.label.1).idle fun hst => hp (hT.started_pool hst))

end Ledger

/-! ## The messages sent -/

section Bounds

variable {cfg : Config} {p : Pid} {x : Progress}

theorem length_le_of_nodup {α : Type*} {l l' : List α} (hnd : l.Nodup) (hsub : l ⊆ l') :
    l.length ≤ l'.length := (hnd.subperm hsub).length_le

theorem Sound.ready_le (h : Sound cfg p x) : x.ready.length ≤ x.announced.length := by
  have hsub : x.ready.map Prod.fst ⊆ x.announced.map Command.id := by
    intro i hi
    obtain ⟨r, hr, rfl⟩ := List.mem_map.mp hi
    obtain ⟨cmd, hcmd, hid⟩ := h.ready_announced r.1 ⟨r.2, hr⟩
    exact List.mem_map.mpr ⟨cmd, hcmd, hid⟩
  simpa using length_le_of_nodup h.ready_nodup hsub

theorem Sound.decided_le (h : Sound cfg p x) : x.decided.length ≤ x.announced.length := by
  have hsub : x.decided.map Prod.fst ⊆ x.ready.map Prod.fst := by
    intro i hi
    obtain ⟨d, hd, rfl⟩ := List.mem_map.mp hi
    obtain ⟨r, hr⟩ := h.handedOver_of_decided ⟨d.2, hd⟩
    exact List.mem_map.mpr ⟨_, hr, rfl⟩
  have := length_le_of_nodup h.decided_nodup hsub
  rw [List.length_map, List.length_map] at this
  exact this.trans h.ready_le

theorem Sound.slow_le (h : Sound cfg p x) : x.slow ≤ x.announced.length :=
  List.countP_le_length.trans h.ready_le

theorem Net.total_le {s : Net} {f g : Progress → ℕ} (h : ∀ q ∈ cfg.pool,
    f (s.replica q) ≤ g (s.replica q)) : s.total cfg f ≤ s.total cfg g :=
  List.sum_le_sum h

theorem Net.total_congr {s : Net} {f g : Progress → ℕ} (h : ∀ q ∈ cfg.pool,
    f (s.replica q) = g (s.replica q)) : s.total cfg f = s.total cfg g :=
  congrArg List.sum (List.map_congr_left h)

theorem Ledger.length_sent {s : Net} (h : Ledger cfg s) :
    s.sent.length + number .req s.network + number .request s.network =
      2 * (cfg.fanout * s.total cfg (·.announced.length)) +
        (cfg.pool.length - 1) * s.total cfg (·.decided.length) +
        2 * (cfg.committee * s.total cfg Progress.slow) := by
  have h0 := length_eq_number s.sent
  have h1 := h.req
  have h2 := h.res
  have h3 := h.commit
  have h4 := h.request
  have h5 := h.response
  omega

theorem Ledger.length_sent_le {s : Net} (h : Ledger cfg s) (hF : Flow cfg s) : s.sent.length ≤
    (2 * cfg.fanout + (cfg.pool.length - 1) + 2 * cfg.committee) *
      s.total cfg (·.announced.length) := by
  have hlen := h.length_sent
  have hd : s.total cfg (·.decided.length) ≤ s.total cfg (·.announced.length) :=
    Net.total_le fun q _ => (hF.sound q).decided_le
  have hsl : s.total cfg Progress.slow ≤ s.total cfg (·.announced.length) :=
    Net.total_le fun q _ => (hF.sound q).slow_le
  have hd' := Nat.mul_le_mul_left (cfg.pool.length - 1) hd
  have hsl' := Nat.mul_le_mul_left cfg.committee hsl
  simp only [Nat.add_mul, Nat.mul_assoc]
  omega

end Bounds

/-- **The cost of a command in messages.** A cluster with no message in flight has sent,
for every command announced, one request to each replica asked, its reply, and a commit
message to each peer, and for every command that took the slow path also a proposal to
each member of the committee and its response. -/
theorem message_complexity (cfg : Config) (hcfg : cfg.Live) (c : Cluster)
    (h : Cluster.Reachable cfg c) (hq : c.network = []) :
    c.sent.length =
      (2 * cfg.fanout + (cfg.pool.length - 1)) *
        (cfg.pool.map fun p => (c.replicas p).announced.length).sum +
      2 * cfg.committee *
        (cfg.pool.map fun p => (c.replicas p).ready.countP fun r => !r.2.allowFastpath).sum := by
  have hF := Flow.of_reachable h
  have hL := Live.of_reachable hcfg h
  have hO : cfg.protocolType ≠ .threeJane → Once cfg c.net := fun hp =>
    Once.of_reachable hp hcfg.pool_nodup h
  have hdec : c.net.total cfg (·.decided.length) = c.net.total cfg (·.announced.length) := by
    refine Net.total_congr fun q _ => Nat.le_antisymm (hF.sound q).decided_le ?_
    have hsub : (c.net.replica q).announced.map Command.id ⊆
        (c.net.replica q).decided.map Prod.fst := by
      intro i hi
      obtain ⟨cmd, hcmd, rfl⟩ := List.mem_map.mp hi
      obtain ⟨deps, hd⟩ := hL.decided hcfg hF hO hq ⟨q, cmd, hcmd, rfl⟩
      rw [(hF.sound q).announced_pid cmd hcmd] at hd
      exact List.mem_map.mpr ⟨_, hd, rfl⟩
    simpa using length_le_of_nodup (hF.sound q).announced_nodup hsub
  have hlen := (Ledger.of_reachable hcfg h).length_sent
  rw [hdec, show c.net.network = [] from hq] at hlen
  have hsent : c.net.sent.length = 2 * (cfg.fanout * c.net.total cfg (·.announced.length)) +
      (cfg.pool.length - 1) * c.net.total cfg (·.announced.length) +
      2 * (cfg.committee * c.net.total cfg Progress.slow) := by simpa using hlen
  show c.net.sent.length = _
  rw [hsent, Nat.add_mul, Nat.mul_assoc, Nat.mul_assoc]
  rfl

/-- Two EPaxos replicas and one command, on the slow path. -/
theorem message_complexity_two :
    let cfg : Config := .standard .epaxos [0, 1]
    ∃ c, Cluster.Reachable cfg c ∧ c.network = [] ∧ c.sent.length = 9 := by
  intro cfg
  let a : Command := ⟨⟨0, 1⟩, 7⟩
  let run : List Action := decidedByTwo a
  have hrun : (Cluster.execute cfg (fun _ _ => true) run).any (fun c =>
      decide (c.network = [] ∧
        (cfg.pool.map fun p => (c.replicas p).announced.length).sum = 1 ∧
        (cfg.pool.map fun p => (c.replicas p).ready.countP fun r => !r.2.allowFastpath).sum =
          1)) = true := by decide +kernel
  obtain ⟨c, hc, hd⟩ := (Option.any_eq_true _ _).mp hrun
  obtain ⟨hq, ha, hs⟩ := of_decide_eq_true hd
  have hreach := Cluster.reachable_execute (fun (_ : Cluster) (_ : Action) _ => True.intro) hc
  refine ⟨c, hreach, hq, ?_⟩
  rw [message_complexity cfg (.inl ⟨.inl ⟨rfl, by decide, rfl⟩, by decide⟩) c hreach hq, ha, hs]
  rfl

end Blsmr
