import Blsmr.Replica.Order

/-!
# Agreement on the execution order

Two same-key commands, each handed over with a reply from every replica, are
executed in the same order everywhere (`full_replies_agree`): each replica that
answered both either reported one in its reply to the other, or held one as
stable, and then every replica had answered that one before.
-/

namespace Blsmr

open Blsmr.Graph Blsmr.Transition

namespace Net

/-- `a` is the command that goes with its identifier. -/
def Named (s : Net) (a : Command) : Prop :=
  ∀ p, ∀ cmd ∈ (s.replica p).announced, cmd.id = a.id → cmd = a

/-- Two distinct commands with the same key. -/
structure Rivals (s : Net) (a b : Command) : Prop where
  left : s.Named a
  right : s.Named b
  ne : a.id ≠ b.id
  key : a.key = b.key

theorem Rivals.symm {s : Net} {a b : Command} (h : s.Rivals a b) : s.Rivals b a :=
  ⟨h.right, h.left, h.ne.symm, h.key.symm⟩

/-- The quorum handed over for `i` has a reply from every member of the pool. -/
def Full (cfg : Config) (s : Net) (i : CmdId) : Prop :=
  ∃ rd, (i, rd) ∈ (s.replica i.pid).ready ∧ ∀ r ∈ cfg.pool, ∃ res ∈ rd.quorum, res.pid = r

end Net

section Replies

variable {cfg : Config} {s s' : Net} {p : Pid} {inp : Option (Pid × Message)} {a b : Command}

theorem NetStep.rivals (hs : NetStep cfg s p inp s') (h : s'.Rivals a b) : s.Rivals a b :=
  ⟨fun q cmd hc => h.left q cmd ((hs.grows q).announced hc),
    fun q cmd hc => h.right q cmd ((hs.grows q).announced hc), h.ne, h.key⟩

theorem Flow.named (hF : Flow cfg s) {q : Pid} (ha : a ∈ (s.replica q).announced) :
    s.Named a := by
  intro r cmd hc hid
  refine hF.command_unique ?_ ?_ hid
  · rwa [(hF.sound r).announced_pid cmd hc]
  · rwa [(hF.sound q).announced_pid a ha]

theorem Flow.submit_of_named (hF : Flow cfg s) {res : Res} (h : s.Replied res) (ha : s.Named a)
    (hid : res.id = a.id) : .submit a ∈ (s.replica res.pid).calls := by
  obtain ⟨pkt, hpkt, hm⟩ := h
  obtain ⟨cmd, hc, hcid⟩ := (hF.res pkt hpkt res hm).2.2.1
  rwa [ha _ cmd (hF.submit_call _ cmd hc) (hcid.trans hid)] at hc

/-- A replica that answered `a` and now answers the open command `b` reports `a`
or holds it as stable. -/
theorem Flow.new_reply (hF : Flow cfg s) (hs : NetStep cfg s p inp s') (hab : s.Rivals a b)
    (hb : ¬ s.HandedOver b.id) {ra : Res} (hra : s.Replied ra) (hida : ra.id = a.id)
    (hpa : ra.pid = p) {src : Pid} {cmd : Command} (hinp : inp = some (src, .announce (.req cmd)))
    (hcmd : cmd.id = b.id) :
    a.id ∈ ((s.replica p).log.submit cmd).2 ∨ a.id ∈ (s.replica p).log.stable := by
  have hreq := (hF.req _ (hF.in_sent (hs.consumed_mem hinp)) cmd rfl).2
  obtain rfl : cmd = b := hab.right _ cmd hreq hcmd
  by_cases hst : a.id ∈ (s.replica p).log.stable
  · exact .inr hst
  · exact .inl (hF.reports (hpa ▸ hF.submit_of_named hra hab.left hida) hb hab.key hst)

theorem Flow.replied_of_completes (hF : Flow cfg s) (hs : NetStep cfg s p inp s') {i : CmdId}
    {q : List Res} (hc : Completes cfg (s.replica p) inp i q) :
    ¬ s.HandedOver i ∧ ∀ res ∈ q, s.Replied res ∧ res.id = i := by
  obtain ⟨l, hl, hsub⟩ := hc.pending
  obtain ⟨hann, hnot⟩ := (hF.sound p).pending_open i l hl
  refine ⟨?_, fun res hres => ?_⟩
  · rw [Net.HandedOver, (hF.sound p).pid_of_announced hann]
    exact hnot
  · rcases hsub res hres with h | ⟨hid, src, hinp⟩
    · exact ⟨hF.pending_sent p i l hl res h, (hF.sound p).pending_ids i l hl res h⟩
    · exact ⟨⟨_, hF.in_sent (hs.consumed_mem hinp), rfl⟩, hid⟩

theorem NetStep.replied_of_completes (hs : NetStep cfg s p inp s') {i : CmdId} {q : List Res}
    (hc : Completes cfg (s.replica p) inp i q) {res : Res} (h : s'.Replied res) :
    s.Replied res := by
  rcases hs.replied_cases h with h | ⟨src, cmd, hinp, -⟩
  · exact h
  · obtain ⟨res', hmsg, -⟩ := hc.reply hinp
    cases hmsg

end Replies

/-! ## Full replies -/

/-- What the replies to two same-key commands say, by the stages of the two. -/
structure FullOrder (cfg : Config) (s : Net) : Prop where
  open_open : ∀ a b, s.Rivals a b → ¬ s.HandedOver a.id → ¬ s.HandedOver b.id →
    ∀ ra rb, s.Replied ra → s.Replied rb → ra.id = a.id → rb.id = b.id → ra.pid = rb.pid →
      b.id ∈ ra.conflicts ∨ a.id ∈ rb.conflicts
  full_open : ∀ a b, s.Rivals a b → s.Full cfg a.id → ¬ s.HandedOver b.id →
    ∀ rb, s.Replied rb → rb.id = b.id → rb.pid ∈ cfg.pool →
      s.DependsOn a.id b.id ∨ a.id ∈ rb.conflicts ∨ a.id ∈ (s.replica rb.pid).log.stable
  full_full : ∀ a b, s.Rivals a b → s.Full cfg a.id → s.Full cfg b.id →
    s.DependsOn a.id b.id ∨ s.DependsOn b.id a.id ∨ s.AllPrecede cfg a.id b.id ∨
      s.AllPrecede cfg b.id a.id

namespace FullOrder

variable {cfg : Config} {s s' : Net} {p : Pid} {inp : Option (Pid × Message)}

theorem init (cfg : Config) : FullOrder cfg (Cluster.init cfg).net := by
  have hno : ∀ res, ¬ (Cluster.init cfg).net.Replied res := by
    rintro res ⟨pkt, hpkt, -⟩
    cases hpkt
  have hnf : ∀ i, ¬ (Cluster.init cfg).net.Full cfg i := by
    rintro i ⟨rd, hrd, -⟩
    cases hrd
  exact ⟨fun _ _ _ _ _ ra _ h => absurd h (hno ra), fun _ _ _ h => absurd h (hnf _),
    fun _ _ _ h => absurd h (hnf _)⟩

theorem open_open_step (h : FullOrder cfg s) (hF : Flow cfg s) (hs : NetStep cfg s p inp s')
    {a b : Command} (hab : s.Rivals a b) (ha : ¬ s.HandedOver a.id) (hb : ¬ s.HandedOver b.id)
    {ra rb : Res} (hra : s'.Replied ra) (hrb : s'.Replied rb) (hida : ra.id = a.id)
    (hidb : rb.id = b.id) (hpid : ra.pid = rb.pid) :
    b.id ∈ ra.conflicts ∨ a.id ∈ rb.conflicts := by
  rcases hs.replied_cases hra with hra | ⟨src, cmd, hinp, rfl⟩ <;>
    rcases hs.replied_cases hrb with hrb | ⟨src', cmd', hinp', rfl⟩
  · exact h.open_open a b hab ha hb ra rb hra hrb hida hidb hpid
  · exact .inr ((hF.new_reply hs hab hb hra hida hpid hinp' hidb).resolve_right
      (hF.not_stable ha p))
  · exact .inl ((hF.new_reply hs hab.symm ha hrb hidb hpid.symm hinp hida).resolve_right
      (hF.not_stable hb p))
  · rw [hinp] at hinp'
    cases hinp'
    exact absurd (hida.symm.trans hidb) hab.ne

theorem full_open_step (h : FullOrder cfg s) (hF : Flow cfg s) (hs : NetStep cfg s p inp s')
    {a b : Command} (hab : s.Rivals a b) (ha : s'.Full cfg a.id) (hb : ¬ s.HandedOver b.id)
    {rb : Res} (hrb : s'.Replied rb) (hidb : rb.id = b.id) (hpool : rb.pid ∈ cfg.pool) :
    s'.DependsOn a.id b.id ∨ a.id ∈ rb.conflicts ∨ a.id ∈ (s'.replica rb.pid).log.stable := by
  obtain ⟨rd, hrd, hfull⟩ := ha
  obtain ⟨ra, hra, hpid⟩ := hfull rb.pid hpool
  obtain ⟨i₀, hnew⟩ := hs.handedOver_new
  rcases hnew a.id rd hrd with hold | ⟨-, -, hc⟩
  · rcases hs.replied_cases hrb with hrb | ⟨src, cmd, hinp, rfl⟩
    · rcases h.full_open a b hab ⟨rd, hold, hfull⟩ hb rb hrb hidb hpool with h' | h' | h'
      · exact .inl (h'.step hs)
      · exact .inr (.inl h')
      · exact .inr (.inr ((hs.log_extends hF _).2 h'))
    · have hra' : s.Replied ra := hF.ready_sent _ a.id rd hold ra hra
      have hida := ((hF.sound _).ready_ids a.id rd hold).2 ra hra
      rcases hF.new_reply hs hab hb hra' hida hpid hinp hidb with h' | h'
      · exact .inr (.inl h')
      · exact .inr (.inr ((hs.log_extends hF _).2 h'))
  · obtain ⟨hnot, hq⟩ := hF.replied_of_completes hs hc
    obtain ⟨hra', hida⟩ := hq ra hra
    rcases h.open_open a b hab hnot hb ra rb hra' (hs.replied_of_completes hc hrb) hida hidb hpid
      with h' | h'
    · exact .inl ⟨rd, hrd, ra, hra, h'⟩
    · exact .inr (.inl h')

theorem full_full_new (h : FullOrder cfg s) (hF : Flow cfg s) (hs : NetStep cfg s p inp s')
    {a b : Command} (hab : s.Rivals a b) (ha : s.Full cfg a.id) {rd : QuorumReady}
    (hrd : (b.id, rd) ∈ (s'.replica b.id.pid).ready)
    (hfull : ∀ r ∈ cfg.pool, ∃ res ∈ rd.quorum, res.pid = r)
    (hc : Completes cfg (s.replica p) inp b.id rd.quorum) :
    s'.DependsOn a.id b.id ∨ s'.DependsOn b.id a.id ∨ s'.AllPrecede cfg a.id b.id := by
  obtain ⟨hnot, hq⟩ := hF.replied_of_completes hs hc
  by_cases hst : ∀ r ∈ cfg.pool, a.id ∈ (s.replica r).log.stable
  · exact .inr (.inr (Net.AllPrecede.step hF hs fun r hr => hF.precedes (hst r hr) hnot))
  · push Not at hst
    obtain ⟨r, hr, hns⟩ := hst
    obtain ⟨rb, hrb, rfl⟩ := hfull r hr
    obtain ⟨hrb', hidb⟩ := hq rb hrb
    rcases h.full_open a b hab ha hnot rb hrb' hidb hr with h' | h' | h'
    · exact .inl (h'.step hs)
    · exact .inr (.inl ⟨rd, hrd, rb, hrb, h'⟩)
    · exact absurd h' hns

/-- **A step keeps the order of commands with full replies.** -/
theorem step (h : FullOrder cfg s) (hF : Flow cfg s) (hs : NetStep cfg s p inp s') :
    FullOrder cfg s' := by
  refine ⟨fun a b hab ha hb ra rb hra hrb => ?_, fun a b hab ha hb rb hrb => ?_,
    fun a b hab ha hb => ?_⟩
  · exact h.open_open_step hF hs (hs.rivals hab) (fun h' => ha (hs.handedOver_mono h'))
      (fun h' => hb (hs.handedOver_mono h')) hra hrb
  · exact h.full_open_step hF hs (hs.rivals hab) ha (fun h' => hb (hs.handedOver_mono h')) hrb
  · have hab' := hs.rivals hab
    obtain ⟨rda, hrda, hfa⟩ := ha
    obtain ⟨rdb, hrdb, hfb⟩ := hb
    obtain ⟨i₀, hnew⟩ := hs.handedOver_new
    rcases hnew a.id rda hrda with hoa | ⟨ha₀, -, hca⟩ <;>
      rcases hnew b.id rdb hrdb with hob | ⟨hb₀, -, hcb⟩
    · rcases h.full_full a b hab' ⟨rda, hoa, hfa⟩ ⟨rdb, hob, hfb⟩ with h' | h' | h' | h'
      · exact .inl (h'.step hs)
      · exact .inr (.inl (h'.step hs))
      · exact .inr (.inr (.inl (h'.step hF hs)))
      · exact .inr (.inr (.inr (h'.step hF hs)))
    · rcases h.full_full_new hF hs hab' ⟨rda, hoa, hfa⟩ hrdb hfb hcb with h' | h' | h'
      · exact .inl h'
      · exact .inr (.inl h')
      · exact .inr (.inr (.inl h'))
    · rcases h.full_full_new hF hs hab'.symm ⟨rdb, hob, hfb⟩ hrda hfa hca with h' | h' | h'
      · exact .inr (.inl h')
      · exact .inl h'
      · exact .inr (.inr (.inr h'))
    · exact absurd (ha₀.trans hb₀.symm) hab'.ne

end FullOrder

/-- The quorum handed over for `i` by its coordinator holds a reply from every
member of the pool. -/
def FullReplies (cfg : Config) (c : Cluster) (i : CmdId) : Prop :=
  ∃ rd, (i, rd) ∈ (c.replicas i.pid).ready ∧ ∀ r ∈ cfg.pool, ∃ res ∈ rd.quorum, res.pid = r

/-- **Agreement for commands decided from full replies.** -/
theorem full_replies_agree (cfg : Config) (c : Cluster) (h : Cluster.Reachable cfg c)
    (a b : Command) (p q : Pid)
    (ha : a ∈ (c.replicas p).announced) (hb : b ∈ (c.replicas q).announced) (hab : a ≠ b)
    (hkey : a.key = b.key) (hfa : FullReplies cfg c a.id) (hfb : FullReplies cfg c b.id) :
    SameOrder cfg c a.id b.id := by
  obtain ⟨hF, hO⟩ := net_invariant (I := fun s => Flow cfg s ∧ FullOrder cfg s)
    ⟨Flow.init cfg, FullOrder.init cfg⟩ (fun _ _ _ _ _ hI hs => ⟨hI.1.step hs, hI.2.step hI.1 hs⟩) h
  have hne : a.id ≠ b.id := fun hid => hab (hF.named hb p a ha hid)
  exact hF.sameOrder hne (hO.full_full a b ⟨hF.named ha, hF.named hb, hne, hkey⟩ hfa hfb)

/-- Two Wintermute replicas that receive the requests in opposite orders. -/
theorem full_replies_agree_crossed :
    let cfg : Config := .standard .wintermute [0, 1]
    let a : Command := ⟨⟨0, 2⟩, 7⟩
    let b : Command := ⟨⟨1, 3⟩, 7⟩
    ∃ c, Cluster.Reachable cfg c ∧ (c.replicas 0).dds.log.executed = [a.id, b.id] ∧
      (c.replicas 1).dds.log.executed = [a.id, b.id] ∧ SameOrder cfg c a.id b.id := by
  intro cfg a b
  let run : List Action := crossed a b ++ crossedRest a b ++ [.recv 21 1 0 (.commit b [a.id])]
  let full (c : Cluster) (i : CmdId) : Bool := (c.replicas i.pid).ready.any fun r =>
    r.1 = i ∧ ∀ q ∈ cfg.pool, ∃ x ∈ r.2.quorum, x.pid = q
  have hrun : (Cluster.execute cfg (fun _ _ => true) run).any (fun c =>
      full c a.id && full c b.id &&
      decide (a ∈ (c.replicas 0).announced ∧ b ∈ (c.replicas 1).announced ∧
        (c.replicas 0).dds.log.executed = [a.id, b.id] ∧
        (c.replicas 1).dds.log.executed = [a.id, b.id])) = true := by decide +kernel
  obtain ⟨c, hc, hd⟩ := (Option.any_eq_true _ _).mp hrun
  rw [Bool.and_eq_true, Bool.and_eq_true, decide_eq_true_iff] at hd
  obtain ⟨⟨hfa, hfb⟩, ha, hb, h0, h1⟩ := hd
  have hfull : ∀ i, full c i = true → FullReplies cfg c i := by
    intro i hi
    obtain ⟨⟨j, rd⟩, hmem, hj⟩ := List.any_eq_true.mp hi
    obtain ⟨rfl, hq⟩ := of_decide_eq_true hj
    exact ⟨rd, hmem, hq⟩
  have hreach := Cluster.reachable_execute (fun (_ : Cluster) (_ : Action) _ => True.intro) hc
  exact ⟨c, hreach, h0, h1, full_replies_agree cfg c hreach a b 0 1 ha hb (by decide) rfl
    (hfull _ hfa) (hfull _ hfb)⟩

end Blsmr
