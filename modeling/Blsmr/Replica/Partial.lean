import Blsmr.Quorum.Sizes
import Blsmr.Replica.Agreement

/-!
# Agreement with partial announce quorums

EPaxos and 3Jane hand over any quorum of replies. Two quorums share a replica,
but a command which that replica holds as stable, and so leaves out of its
reply, need not be stable elsewhere: another replica can execute the two in the
other order (`partial_quorums_disagree`). `partial_quorums_agree` shows that this
is all that can go wrong.
-/

namespace Blsmr

open Blsmr.Graph Blsmr.Transition

/-! ## Quorums handed over -/

/-- What is handed over is a quorum, whatever quorums were drawn before. -/
structure Quorate (cfg : Config) (s : Net) : Prop where
  bqs : ∀ p l, (s.replica p).bqs.isQuorum l = cfg.quorumSystem.isQuorum l
  ready : ∀ p i rd, (i, rd) ∈ (s.replica p).ready →
    cfg.quorumSystem.isQuorum (rd.quorum.map Res.pid) = true

section Quorate

variable {cfg : Config} {s s' : Net} {p : Pid} {inp : Option (Pid × Message)}

theorem Quorate.init (cfg : Config) : Quorate cfg (Cluster.init cfg).net :=
  ⟨fun _ _ => rfl, fun _ _ _ h => by cases h⟩

theorem Effect.bqs {me : Pid} {used : CmdId → Prop} {x x' : Progress}
    {sends : List (Pid × Message)} (he : Effect cfg me used x inp x' sends) (l : List Pid) :
    x'.bqs.isQuorum l = x.bqs.isQuorum l := by
  cases he with
  | announce cmd bqs' targets hme hfresh ht =>
    show bqs'.isQuorum l = _
    rcases ht with ⟨-, rfl, -⟩ | ⟨-, rng, hrng⟩
    · rfl
    · rw [← QuorumSystem.isQuorum_chooseRandomQuorum x.bqs rng l, hrng]
  | _ => rfl

theorem Quorate.step (h : Quorate cfg s) (hproto : cfg.protocolType ≠ .wintermute)
    (hs : NetStep cfg s p inp s') : Quorate cfg s' := by
  obtain ⟨sends, rest, he, -⟩ := hs.effect
  refine ⟨fun q l => ?_, fun q i rd hrd => ?_⟩
  · by_cases hq : q = p
    · subst hq; rw [he.bqs l]; exact h.bqs q l
    · rw [hs.other hq]; exact h.bqs q l
  · by_cases hq : q = p
    · subst hq
      rcases he.ready_cases hrd with hrd | ⟨hc, -⟩
      · exact h.ready q i rd hrd
      · rw [← h.bqs q]
        rcases hc with ⟨-, -, -, -, -, -, -, hr⟩ | ⟨-, -, hr⟩
        · unfold Progress.isReady at hr
          split at hr
          · contradiction
          · exact hr
        · exact hr
    · rw [hs.other hq] at hrd
      exact h.ready q i rd hrd

end Quorate

/-! ## Usable replies -/

/-- A reply its coordinator can still use, or has used. -/
def Net.Usable (s : Net) (res : Res) : Prop :=
  s.Replied res ∧ (¬ s.HandedOver res.id ∨
    ∃ rd, (res.id, rd) ∈ (s.replica res.id.pid).ready ∧ res ∈ rd.quorum)

/-- The step is no reply, to a command that still collects replies, by a replica
that holds a same-key command as stable which is not stable everywhere. -/
def NetStep.NoEarlyPruning (cfg : Config) (s : Net) (p : Pid) (inp : Option (Pid × Message)) :
    Prop :=
  ∀ src b, inp = some (src, .announce (.req b)) → ((s.replica b.id.pid).pending b.id).isSome →
    ∀ q, ∀ a ∈ (s.replica q).announced, a.key = b.key → a.id ∈ (s.replica p).log.stable →
      ∀ r ∈ cfg.pool, a.id ∈ (s.replica r).log.stable

/-- A replica that answered both of two same-key commands in time reported one
of them, or one is stable everywhere before the other is executed. -/
def UsableOrder (cfg : Config) (s : Net) : Prop :=
  ∀ a b, s.Rivals a b → ∀ ra rb, s.Usable ra → s.Usable rb → ra.id = a.id → rb.id = b.id →
    ra.pid = rb.pid → b.id ∈ ra.conflicts ∨ a.id ∈ rb.conflicts ∨
      s.AllPrecede cfg a.id b.id ∨ s.AllPrecede cfg b.id a.id

section Usable

variable {cfg : Config} {s s' : Net} {p : Pid} {inp : Option (Pid × Message)}

/-- A usable reply was usable before, or is the answer to the open command whose
request is consumed. -/
theorem NetStep.usable_cases (hF : Flow cfg s) (hs : NetStep cfg s p inp s') {res : Res}
    (h : s'.Usable res) : s.Usable res ∨ ¬ s.HandedOver res.id ∧
      ∃ src cmd, inp = some (src, .announce (.req cmd)) ∧
        res = ⟨p, cmd.id, ((s.replica p).log.submit cmd).2⟩ := by
  obtain ⟨hrep, hopen⟩ := h
  obtain ⟨i₀, hnew⟩ := hs.handedOver_new
  rcases hopen with hopen | ⟨rd, hrd, hmem⟩
  · have hopen' : ¬ s.HandedOver res.id := fun h' => hopen (hs.handedOver_mono h')
    rcases hs.replied_cases hrep with h' | h'
    · exact .inl ⟨h', .inl hopen'⟩
    · exact .inr ⟨hopen', h'⟩
  · rcases hnew res.id rd hrd with hold | ⟨-, -, hc⟩
    · exact .inl ⟨hF.ready_sent _ _ rd hold res hmem, .inr ⟨rd, hold, hmem⟩⟩
    · obtain ⟨hnot, hq⟩ := hF.replied_of_completes hs hc
      exact .inl ⟨(hq res hmem).1, .inl hnot⟩

/-- The answer to an open command reports an earlier rival, or the rival is
stable everywhere. -/
theorem Flow.usable_new (hF : Flow cfg s) (hs : NetStep cfg s p inp s')
    (hok : NetStep.NoEarlyPruning cfg s p inp) {a b : Command} (hab : s.Rivals a b)
    (hb : ¬ s.HandedOver b.id) {ra : Res} (hra : s.Replied ra) (hida : ra.id = a.id)
    (hpa : ra.pid = p) {src : Pid} {cmd : Command} (hinp : inp = some (src, .announce (.req cmd)))
    (hcmd : cmd.id = b.id) :
    a.id ∈ ((s.replica p).log.submit cmd).2 ∨ s'.AllPrecede cfg a.id b.id := by
  rcases hF.new_reply hs hab hb hra hida hpa hinp hcmd with h | h
  · exact .inl h
  · have hreq := (hF.req _ (hF.in_sent (hs.consumed_mem hinp)) cmd rfl).2
    have hcb : cmd = b := hab.right _ cmd hreq hcmd
    have hpend : ((s.replica cmd.id.pid).pending cmd.id).isSome :=
      ((hF.sound cmd.id.pid).open_or_ready cmd.id ⟨cmd, hreq, rfl⟩).resolve_right (hcmd ▸ hb)
    have hann := hF.submit_call _ a (hF.submit_of_named hra hab.left hida)
    have hst := hok src cmd hinp hpend _ a hann (hcb ▸ hab.key) h
    exact .inr (Net.AllPrecede.step hF hs fun r hr => hF.precedes (hst r hr) hb)

/-- **A step without early pruning keeps the order of usable replies.** -/
theorem UsableOrder.step (h : UsableOrder cfg s) (hF : Flow cfg s) (hs : NetStep cfg s p inp s')
    (hok : NetStep.NoEarlyPruning cfg s p inp) : UsableOrder cfg s' := by
  intro a b hab ra rb hra hrb hida hidb hpid
  have hab' := hs.rivals hab
  rcases hs.usable_cases hF hra with hra | ⟨hna, src, cmd, hinp, rfl⟩ <;>
    rcases hs.usable_cases hF hrb with hrb | ⟨hnb, src', cmd', hinp', rfl⟩
  · rcases h a b hab' ra rb hra hrb hida hidb hpid with h' | h' | h' | h'
    · exact .inl h'
    · exact .inr (.inl h')
    · exact .inr (.inr (.inl (h'.step hF hs)))
    · exact .inr (.inr (.inr (h'.step hF hs)))
  · have hnb' : ¬ s.HandedOver b.id := by
      rw [← hidb]; exact hnb
    rcases hF.usable_new hs hok hab' hnb' hra.1 hida hpid hinp' hidb with h' | h'
    · exact .inr (.inl h')
    · exact .inr (.inr (.inl h'))
  · have hna' : ¬ s.HandedOver a.id := by
      rw [← hida]; exact hna
    rcases hF.usable_new hs hok hab'.symm hna' hrb.1 hidb hpid.symm hinp hida with h' | h'
    · exact .inl h'
    · exact .inr (.inr (.inr h'))
  · rw [hinp] at hinp'
    cases hinp'
    exact absurd (hida.symm.trans hidb) hab.ne

end Usable

/-! ## Two quorums share a replica -/

/-- The configurations whose announce quorums intersect: EPaxos on `3f + 1`
replicas, or 3Jane on a grid. -/
def Config.Partial (cfg : Config) : Prop :=
  (cfg.Dissemination .epaxos ∧ cfg.pool.length % 3 = 1) ∨
    ∃ k grid, 1 ≤ k ∧ cfg.WitnessingGrid k grid

theorem Config.Partial.not_wintermute {cfg : Config} (h : cfg.Partial) :
    cfg.protocolType ≠ .wintermute := by
  rcases h with ⟨h, -⟩ | ⟨k, grid, -, h⟩ <;> rw [h.protocolType] <;> simp

theorem Config.Dissemination.share {cfg : Config} {protocol : BLSMRProtocol}
    (h : cfg.Dissemination protocol) (hn : cfg.pool.length % 3 = 1) {as bs : List Pid}
    (has : MemberSet cfg.pool as) (hbs : MemberSet cfg.pool bs)
    (ha : cfg.quorumSystem.isQuorum as = true) (hb : cfg.quorumSystem.isQuorum bs = true) :
    ∃ r, r ∈ as ∧ r ∈ bs := by
  rw [h.quorumSystem] at ha hb
  have hov := (overlap_length_iff h.pool_nodup (isQuorum_newDissemination cfg.pool)
    (isQuorum_newDissemination cfg.pool) (t := 1) (by omega) (by omega) (by omega)).mpr (by omega)
    as bs has hbs ha hb
  obtain ⟨r, hr⟩ := List.exists_mem_of_length_pos hov
  rw [List.mem_filter, decide_eq_true_iff] at hr
  exact ⟨r, hr⟩

theorem Config.WitnessingGrid.share {cfg : Config} {k : ℕ} {grid : Grid.QuorumSystem}
    (h : cfg.WitnessingGrid k grid) (hk : 1 ≤ k) {as bs : List Pid}
    (ha : cfg.quorumSystem.isQuorum as = true) (hb : cfg.quorumSystem.isQuorum bs = true) :
    ∃ r, r ∈ as ∧ r ∈ bs := by
  obtain ⟨sqrtCeil, faults, hb'⟩ := h.built
  obtain ⟨g, hg, hpids, hside, -⟩ :=
    Grid.QuorumSystem.withFaults_spec h.pool_length faults
  rw [hb', Option.some.injEq] at hg
  subst hg
  rw [h.quorumSystem] at ha hb
  have hov := Grid.QuorumSystem.isQuorum_overlap (hpids ▸ h.pool_nodup) (hside ▸ h.enough) ha hb
  obtain ⟨r, hr⟩ := List.exists_mem_of_length_pos (by omega : 0 < (grid.common as bs).length)
  have := (List.mem_filter.mp hr).2
  exact ⟨r, by simpa using this⟩

/-! ## The condition on runs -/

/-- No replica answers the request of a command that still collects replies while
it holds as stable a same-key command that some replica does not hold as stable. -/
def NoEarlyPruning (cfg : Config) (c : Cluster) (act : Action) : Prop :=
  NetStep.NoEarlyPruning cfg c.net act.label.1 act.label.2

/-- **Agreement with partial announce quorums**, in every run in which no reply
leaves out a stable command too early. -/
theorem partial_quorums_agree (cfg : Config) (hcfg : cfg.Partial) (c : Cluster)
    (h : Cluster.ReachableBy cfg (NoEarlyPruning cfg) c) (a b : Command) (p q : Pid)
    (ha : a ∈ (c.replicas p).announced) (hb : b ∈ (c.replicas q).announced) (hab : a ≠ b)
    (hkey : a.key = b.key) : SameOrder cfg c a.id b.id := by
  have hF := Flow.of_reachable h
  have hQ : Quorate cfg c.net := net_invariant (Quorate.init cfg)
    (fun _ _ _ _ _ hI hs => hI.step hcfg.not_wintermute hs) h
  have hU : UsableOrder cfg c.net := net_invariant (I := UsableOrder cfg)
    (fun _ _ _ _ _ hra => by obtain ⟨⟨pkt, hpkt, -⟩, -⟩ := hra; cases hpkt)
    (fun _ _ _ hr hok hI hs => hI.step (Flow.of_reachable hr) hs hok) h
  have hne : a.id ≠ b.id := fun hid => hab (hF.named hb p a ha hid)
  intro r hr r' hr' hea heb hea' heb'
  -- both were decided, so both quorums were handed over; they share a replica
  have handed : ∀ i, i ∈ (c.net.replica r).log.executed →
      ∃ rd, (i, rd) ∈ (c.net.replica i.pid).ready := fun i hi =>
    (hF.sound i.pid).handedOver_of_decided (hF.decided_of_stable ((hF.mem_executed r).mp hi))
  obtain ⟨rda, hrda⟩ := handed a.id hea
  obtain ⟨rdb, hrdb⟩ := handed b.id heb
  obtain ⟨t, hta, htb⟩ : ∃ t, t ∈ rda.quorum.map Res.pid ∧ t ∈ rdb.quorum.map Res.pid := by
    have hqa := hQ.ready _ _ rda hrda
    have hqb := hQ.ready _ _ rdb hrdb
    rcases hcfg with ⟨hd, hn⟩ | ⟨k, grid, hk, hg⟩
    · have hO := Once.of_reachable (by rw [hd.protocolType]; simp) hd.pool_nodup h
      exact hd.share hn ⟨hO.ready_nodup _ _ rda hrda, hO.ready_sub _ _ rda hrda⟩
        ⟨hO.ready_nodup _ _ rdb hrdb, hO.ready_sub _ _ rdb hrdb⟩ hqa hqb
    · exact hg.share hk hqa hqb
  obtain ⟨ra, hra, rfl⟩ := List.mem_map.mp hta
  obtain ⟨rb, hrb, hpid⟩ := List.mem_map.mp htb
  have hida := ((hF.sound _).ready_ids _ rda hrda).2 ra hra
  have hidb := ((hF.sound _).ready_ids _ rdb hrdb).2 rb hrb
  have hua : c.net.Usable ra :=
    ⟨hF.ready_sent _ _ rda hrda ra hra, .inr ⟨rda, by rw [hida]; exact hrda, hra⟩⟩
  have hub : c.net.Usable rb :=
    ⟨hF.ready_sent _ _ rdb hrdb rb hrb, .inr ⟨rdb, by rw [hidb]; exact hrdb, hrb⟩⟩
  refine hF.sameOrder hne ?_ r hr r' hr' hea heb hea' heb'
  rcases hU a b ⟨hF.named ha, hF.named hb, hne, hkey⟩ ra rb hua hub hida hidb hpid.symm with
    h' | h' | h' | h'
  · exact .inl ⟨rda, hrda, ra, hra, h'⟩
  · exact .inr (.inl ⟨rdb, hrdb, rb, hrb, h'⟩)
  · exact .inr (.inr (.inl h'))
  · exact .inr (.inr (.inr h'))

/-- Does the step answer no open command with a stable command left out that some
replica does not hold as stable? -/
def Cluster.answersInTime (cfg : Config) (c : Cluster) (act : Action) : Bool :=
  match act.label.2 with
  | some (_, .announce (.req b)) =>
    ((c.net.replica b.id.pid).pending b.id).isNone ||
      (c.replicas act.label.1).dds.log.stable.all fun i =>
        cfg.pool.all fun r => i ∈ (c.replicas r).dds.log.stable
  | _ => true

theorem NoEarlyPruning.of_answersInTime {cfg : Config} {c : Cluster} {act : Action}
    (h : c.answersInTime cfg act = true) : NoEarlyPruning cfg c act := by
  intro src b hinp hopen q a _ _ hst r hr
  unfold Cluster.answersInTime at h
  rw [hinp] at h
  rcases (Bool.or_eq_true _ _).mp h with hnone | hall
  · rw [Option.isNone_iff_eq_none] at hnone
    rw [hnone] at hopen
    cases hopen
  · exact of_decide_eq_true (List.all_eq_true.mp (List.all_eq_true.mp hall a.id hst) r hr)

/-- Four EPaxos replicas and quorums of three replies. Replicas 1 and 2 report `a` when
they answer `b`; replica 0, where `a` is stable first, answers `b` too late. Replicas 1
and 3 learn of `b` before they learn of `a`. -/
theorem partial_quorums_agree_four :
    let cfg : Config := .standard .epaxos [0, 1, 2, 3]
    let a : Command := ⟨⟨0, 2⟩, 7⟩
    let b : Command := ⟨⟨3, 3⟩, 7⟩
    ∃ c, Cluster.ReachableBy cfg (NoEarlyPruning cfg) c ∧
      ((c.replicas 0).ready ++ (c.replicas 3).ready).map (fun rd => rd.2.quorum.map Res.pid) =
        [[0, 1, 2], [1, 2, 3]] ∧
      (c.replicas 1).dds.log.executed = [a.id, b.id] ∧
      (c.replicas 3).dds.log.executed = [a.id, b.id] ∧ SameOrder cfg c a.id b.id := by
  intro cfg a b
  let run : List Action := [.start 0 (.counting 0), .start 3 (.counting 1),
    .timer 0 1 (.counting 2), .timer 3 3 (.counting 3), .recv 4 0 0 (.req a), .recv 5 0 1 (.req a),
    .recv 6 0 2 (.req a), .recv 7 3 1 (.req b), .recv 8 3 2 (.req b), .recv 9 3 3 (.req b),
    .recv 10 0 0 (.res 0 a []), .recv 11 1 0 (.res 1 a []), .recv 12 2 0 (.res 2 a []),
    .recv 13 1 3 (.res 1 b [a.id]), .recv 14 2 3 (.res 2 b [a.id]), .recv 15 3 3 (.res 3 b []),
    .recv 16 0 0 (.request a []), .recv 17 0 1 (.request a []), .recv 18 0 2 (.request a []),
    .recv 19 0 3 (.request a []), .recv 20 0 0 (.response a []), .recv 21 1 0 (.response a []),
    .recv 22 2 0 (.response a []), .recv 23 3 0 (.response a []), .recv 24 3 0 (.req b),
    .recv 25 3 0 (.request b [a.id]), .recv 26 3 1 (.request b [a.id]),
    .recv 27 3 2 (.request b [a.id]), .recv 28 3 3 (.request b [a.id]),
    .recv 29 0 3 (.response b [a.id]), .recv 30 1 3 (.response b [a.id]),
    .recv 31 2 3 (.response b [a.id]), .recv 32 3 3 (.response b [a.id]),
    .recv 33 3 1 (.commit b [a.id]), .recv 34 0 1 (.commit a []), .recv 35 0 3 (.req a),
    .recv 36 0 3 (.commit a [])]
  have hrun : (Cluster.execute cfg (Cluster.answersInTime cfg) run).any (fun c =>
      decide (a ∈ (c.replicas 0).announced ∧ b ∈ (c.replicas 3).announced ∧
        ((c.replicas 0).ready ++ (c.replicas 3).ready).map (fun rd => rd.2.quorum.map Res.pid) =
          [[0, 1, 2], [1, 2, 3]] ∧
        (c.replicas 1).dds.log.executed = [a.id, b.id] ∧
        (c.replicas 3).dds.log.executed = [a.id, b.id])) = true := by decide +kernel
  obtain ⟨c, hc, hd⟩ := (Option.any_eq_true _ _).mp hrun
  obtain ⟨ha, hb, hq, h1, h3⟩ := of_decide_eq_true hd
  have hreach := Cluster.reachable_execute (fun _ _ => NoEarlyPruning.of_answersInTime) hc
  exact ⟨c, hreach, hq, h1, h3, partial_quorums_agree cfg
    (.inl ⟨⟨rfl, by decide, rfl⟩, by decide⟩) c hreach a b 0 3 ha hb (by decide) rfl⟩

/-- Four EPaxos replicas. Command `a` is decided from the replies of 0, 1 and 2
and is stable at 1 and 2 when these answer `b`; replica 3, which knows nothing of
`a`, executes `b` first, and replica 1 executes `a` first. -/
theorem partial_quorums_disagree :
    ¬ ∀ cfg : Config, cfg.Partial → ∀ c, Cluster.Reachable cfg c → ∀ (a b : Command) (p q : Pid),
      a ∈ (c.replicas p).announced → b ∈ (c.replicas q).announced → a ≠ b → a.key = b.key →
        SameOrder cfg c a.id b.id := by
  intro h
  let cfg : Config := .standard .epaxos [0, 1, 2, 3]
  let a : Command := ⟨⟨0, 2⟩, 7⟩
  let b : Command := ⟨⟨3, 22⟩, 7⟩
  let run : List Action := decidedByThree a ++
    [.recv 17 0 1 (.commit a []), .recv 18 0 2 (.commit a []), .timer 3 3 (.counting 22),
     .recv 23 3 1 (.req b), .recv 24 3 2 (.req b), .recv 25 3 3 (.req b),
     .recv 26 1 3 (.res 1 b []), .recv 27 2 3 (.res 2 b []), .recv 28 3 3 (.res 3 b []),
     .recv 29 3 0 (.request b []), .recv 30 3 1 (.request b []), .recv 31 3 2 (.request b []),
     .recv 32 3 3 (.request b []), .recv 33 0 3 (.response b []), .recv 34 1 3 (.response b []),
     .recv 35 2 3 (.response b []), .recv 36 3 3 (.response b []), .recv 37 0 3 (.commit a []),
     .recv 38 3 1 (.commit b [])]
  have hrun : (Cluster.execute cfg (fun _ _ => true) run).any (fun c =>
      decide (a ∈ (c.replicas 0).announced ∧ b ∈ (c.replicas 3).announced ∧
        (c.replicas 1).dds.log.executed = [a.id, b.id] ∧
        (c.replicas 3).dds.log.executed = [b.id, a.id])) = true := by decide +kernel
  obtain ⟨c, hc, hd⟩ := (Option.any_eq_true _ _).mp hrun
  obtain ⟨ha, hb, h1, h3⟩ := of_decide_eq_true hd
  have hsame := h cfg (.inl ⟨⟨rfl, by decide, rfl⟩, by decide⟩) c
    (Cluster.reachable_execute (fun _ _ _ => trivial) hc) a b 0 3 ha hb (by decide) rfl
    1 (by decide) 3 (by decide)
  rw [h1, h3] at hsame
  exact absurd (hsame (by decide) (by decide) (by decide) (by decide)) (by decide)

end Blsmr
