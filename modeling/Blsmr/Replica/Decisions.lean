import Blsmr.Replica.Cluster

/-!
# Decisions of the slow path

One `Quorum` is handed proposals and messages with any contents from any sender. What it
keeps of a command follows from the events since the proposal (`Tracked`), and it decides
the command with the response that completes the committee (`decided_iff_completed`).
-/

namespace Blsmr

namespace Quorum

/-- What a `Quorum` is handed. -/
inductive Event where
  | propose (cmdId : CmdId) (deps : List CmdId)
  | message (src : Pid) (msg : QuorumMsg)
  deriving DecidableEq

def handle (cfg : Config) (self : Quorum) : Event → Quorum × QuorumStatus
  | .propose cmdId deps => ((self.propose cfg cmdId deps).1, .doNothing)
  | .message src msg => ((self.onMessage src msg).1, (self.onMessage src msg).2.1)

/-- The state after some events. -/
def after (cfg : Config) (events : List Event) : Quorum :=
  events.foldl (fun self e => (self.handle cfg e).1) .default

/-- The commands proposed, in order. -/
def proposed (events : List Event) : List CmdId :=
  events.filterMap fun
    | .propose cmdId _ => some cmdId
    | .message _ _ => none

/-- Every member of the committee has answered with these dependencies. -/
def Answered (cfg : Config) (cmdId : CmdId) (deps : List CmdId) (since : List Event) : Prop :=
  ∀ p ∈ replicas cfg cmdId, .message p (.response cmdId deps) ∈ since

/-- The whole committee has answered the proposal since it was made. -/
def Completed (cfg : Config) (events : List Event) (cmdId : CmdId) (deps : List CmdId) : Prop :=
  ∃ pre since, events = pre ++ .propose cmdId deps :: since ∧ Answered cfg cmdId deps since

variable {cfg : Config} {events since : List Event} {cmdId : CmdId} {deps : List CmdId}
  {e : Event}

theorem after_snoc (cfg : Config) (events : List Event) (e : Event) :
    after cfg (events ++ [e]) = ((after cfg events).handle cfg e).1 := by
  unfold after
  rw [List.foldl_append, List.foldl_cons, List.foldl_nil]

theorem mem_proposed : cmdId ∈ proposed events ↔ ∃ deps, .propose cmdId deps ∈ events := by
  unfold proposed
  rw [List.mem_filterMap]
  constructor
  · rintro ⟨e, he, hid⟩
    cases e with
    | propose i deps =>
      cases hid
      exact ⟨deps, he⟩
    | message src msg => cases hid
  · rintro ⟨deps, h⟩
    exact ⟨_, h, rfl⟩

theorem proposed_append (as bs : List Event) : proposed (as ++ bs) = proposed as ++ proposed bs :=
  List.filterMap_append

theorem proposal_unique {pre pre' since' : List Event} {deps' : List CmdId}
    (honce : (proposed events).Nodup) (h : events = pre ++ .propose cmdId deps :: since)
    (h' : events = pre' ++ .propose cmdId deps' :: since') : deps = deps' ∧ since = since' := by
  have hin : ∀ {as bs : List Event} {ds ds' : List CmdId},
      (proposed (as ++ .propose cmdId ds :: bs)).Nodup → .propose cmdId ds' ∉ as := by
    intro as bs ds ds' hnd hmem
    rw [proposed_append] at hnd
    exact (List.nodup_append.mp hnd).2.2 _ (mem_proposed.mpr ⟨ds', hmem⟩) _
      (mem_proposed.mpr ⟨ds, List.mem_cons_self⟩) rfl
  have hnot : .propose cmdId deps' ∉ pre := hin (h ▸ honce)
  have hnot' : .propose cmdId deps ∉ pre' := hin (h' ▸ honce)
  subst h
  -- the proposal that comes first would stand before the other one
  rcases List.append_eq_append_iff.mp h' with ⟨mid, rfl, hmid⟩ | ⟨mid, rfl, hmid⟩
  · cases mid with
    | nil =>
      cases hmid
      exact ⟨rfl, rfl⟩
    | cons x mid =>
      cases hmid
      exact absurd (List.mem_append_right _ List.mem_cons_self) hnot'
  · cases mid with
    | nil =>
      cases hmid
      exact ⟨rfl, rfl⟩
    | cons x mid =>
      cases hmid
      exact absurd (List.mem_append_right _ List.mem_cons_self) hnot

theorem replicas_nodup (hpool : cfg.pool.Nodup) (cmdId : CmdId) :
    (replicas cfg cmdId).Nodup := by
  unfold replicas
  split
  · exact hpool
  · exact ((List.perm_insertionSort _ _).nodup_iff.mpr hpool).sublist (List.take_sublist _ _)

/-! ## What is kept of a command -/

/-- The instance of a proposal holds the members that answered since. -/
structure Holds (cfg : Config) (cmdId : CmdId) (deps : List CmdId) (since : List Event)
    (inst : Instance) : Prop where
  proposal : inst.deps = deps
  committee : inst.replicas = replicas cfg cmdId
  nodup : inst.responses.Nodup
  mem : ∀ p, p ∈ inst.responses ↔
    p ∈ replicas cfg cmdId ∧ .message p (.response cmdId deps) ∈ since

theorem Holds.new (cfg : Config) (cmdId : CmdId) (deps : List CmdId) :
    Holds cfg cmdId deps [] (.new deps (replicas cfg cmdId)) :=
  ⟨rfl, rfl, List.nodup_nil, fun p => by simp [Instance.new]⟩

theorem Holds.other {inst : Instance} (h : Holds cfg cmdId deps since inst)
    (he : ∀ p ∈ replicas cfg cmdId, e ≠ .message p (.response cmdId deps)) :
    Holds cfg cmdId deps (since ++ [e]) inst :=
  ⟨h.proposal, h.committee, h.nodup, fun p => (h.mem p).trans <| and_congr_right fun hp => by
    rw [List.mem_append, List.mem_singleton]
    exact ⟨.inl, fun hor => hor.resolve_right fun heq => he p hp heq.symm⟩⟩

theorem Holds.accept {inst : Instance} (h : Holds cfg cmdId deps since inst) {src : Pid}
    (hsrc : src ∈ replicas cfg cmdId) :
    Holds cfg cmdId deps (since ++ [.message src (.response cmdId deps)])
      { inst with responses := inst.responses.insert src } :=
  ⟨h.proposal, h.committee, h.nodup.insert, fun p => by
    rw [List.mem_insert_iff, h.mem, List.mem_append, List.mem_singleton]
    constructor
    · rintro (rfl | ⟨hp, hmem⟩)
      · exact ⟨hsrc, .inr rfl⟩
      · exact ⟨hp, .inl hmem⟩
    · rintro ⟨hp, hmem | heq⟩
      · exact .inr ⟨hp, hmem⟩
      · cases heq
        exact .inl rfl⟩

theorem Holds.length_eq_iff {inst : Instance} (h : Holds cfg cmdId deps since inst)
    (hpool : cfg.pool.Nodup) :
    inst.responses.length = inst.replicas.length ↔ Answered cfg cmdId deps since := by
  rw [h.committee]
  have hsub : inst.responses ⊆ replicas cfg cmdId := fun p hp => ((h.mem p).mp hp).1
  constructor
  · intro hlen p hp
    have hperm := (h.nodup.subperm hsub).perm_of_length_le hlen.ge
    exact ((h.mem p).mp (hperm.mem_iff.mpr hp)).2
  · intro hall
    refine ((List.perm_ext_iff_of_nodup h.nodup (replicas_nodup hpool cmdId)).mpr
      fun p => ⟨fun hp => hsub hp, fun hp => (h.mem p).mpr ⟨hp, hall p hp⟩⟩).length_eq

/-- **What is kept of a command** after some events. -/
def Tracked (cfg : Config) (events : List Event) (cmdId : CmdId) (entry : Option Instance) :
    Prop :=
  cmdId ∉ proposed events ∧ entry = none ∨
    ∃ deps pre since, events = pre ++ .propose cmdId deps :: since ∧
      ((∃ inst, entry = some inst ∧ Holds cfg cmdId deps since inst ∧
          (replicas cfg cmdId ≠ [] → ¬ Answered cfg cmdId deps since)) ∨
        entry = none ∧ Answered cfg cmdId deps since)

/-- An event that neither proposes the command nor answers its proposal. -/
structure Event.Apart (cmdId : CmdId) (e : Event) : Prop where
  propose : ∀ deps, e ≠ .propose cmdId deps
  response : ∀ src deps, e ≠ .message src (.response cmdId deps)

theorem answered_snoc (he : ∀ p ∈ replicas cfg cmdId, e ≠ .message p (.response cmdId deps)) :
    Answered cfg cmdId deps (since ++ [e]) ↔ Answered cfg cmdId deps since :=
  forall₂_congr fun p hp => by
    rw [List.mem_append, List.mem_singleton]
    exact ⟨fun hor => hor.resolve_right fun heq => he p hp heq.symm, .inl⟩

theorem answered_mono (h : Answered cfg cmdId deps since) :
    Answered cfg cmdId deps (since ++ [e]) := fun p hp => List.mem_append_left _ (h p hp)

theorem snoc_proposal {pre : List Event} (h : events = pre ++ .propose cmdId deps :: since) :
    events ++ [e] = pre ++ .propose cmdId deps :: (since ++ [e]) := by
  rw [h, List.append_assoc, List.cons_append]

theorem completed_iff {pre : List Event} {deps' : List CmdId} (honce : (proposed events).Nodup)
    (h : events = pre ++ .propose cmdId deps :: since) :
    Completed cfg events cmdId deps' ↔ deps' = deps ∧ Answered cfg cmdId deps since := by
  constructor
  · rintro ⟨pre', since', h', hall⟩
    obtain ⟨rfl, rfl⟩ := proposal_unique honce h' h
    exact ⟨rfl, hall⟩
  · rintro ⟨rfl, hall⟩
    exact ⟨pre, since, h, hall⟩

theorem not_completed (h : cmdId ∉ proposed events) : ¬ Completed cfg events cmdId deps := by
  rintro ⟨pre, since, rfl, -⟩
  exact h (mem_proposed.mpr ⟨deps, by simp⟩)

theorem Event.Apart.notMem_proposed (he : e.Apart cmdId) (h : cmdId ∉ proposed events) :
    cmdId ∉ proposed (events ++ [e]) := by
  rw [mem_proposed] at h ⊢
  rintro ⟨deps, hmem⟩
  rcases List.mem_append.mp hmem with hmem | hmem
  · exact h ⟨deps, hmem⟩
  · exact he.propose deps (List.mem_singleton.mp hmem).symm

theorem Tracked.apart {entry : Option Instance} (he : e.Apart cmdId)
    (h : Tracked cfg events cmdId entry) : Tracked cfg (events ++ [e]) cmdId entry := by
  rcases h with ⟨hnot, hnone⟩ | ⟨deps, pre, since, hev, hcase⟩
  · exact .inl ⟨he.notMem_proposed hnot, hnone⟩
  · refine .inr ⟨deps, pre, since ++ [e], snoc_proposal hev, ?_⟩
    have hno : ∀ p ∈ replicas cfg cmdId, e ≠ .message p (.response cmdId deps) :=
      fun p _ => he.response p deps
    rcases hcase with ⟨inst, hsome, hH, hopen⟩ | ⟨hnone, hall⟩
    · exact .inl ⟨inst, hsome, hH.other hno, fun hne => (answered_snoc hno).not.mpr (hopen hne)⟩
    · exact .inr ⟨hnone, answered_mono hall⟩

/-! ## The handlers -/

section

variable {self : Quorum} {src : Pid} {inst : Instance}

theorem onMessage_unknown (h : self.instances.lookup cmdId = none) :
    self.onMessage src (.response cmdId deps) = (self, .doNothing, []) := by
  unfold onMessage
  simp only [h]

theorem onMessage_refused (h : self.instances.lookup cmdId = some inst)
    (hno : ¬ (inst.deps = deps ∧ src ∈ inst.replicas)) :
    self.onMessage src (.response cmdId deps) =
      (⟨self.instances.insert cmdId inst⟩, .doNothing, []) := by
  have hacc : inst.accept src deps = (inst, false) := if_neg hno
  unfold onMessage
  simp only [h, hacc]
  rfl

theorem accept_member (hdeps : inst.deps = deps) (hsrc : src ∈ inst.replicas) :
    inst.accept src deps = ({ inst with responses := inst.responses.insert src },
      (inst.responses.insert src).length == inst.replicas.length) := if_pos ⟨hdeps, hsrc⟩

theorem onMessage_noted (h : self.instances.lookup cmdId = some inst) (hdeps : inst.deps = deps)
    (hsrc : src ∈ inst.replicas)
    (hlen : (inst.responses.insert src).length ≠ inst.replicas.length) :
    self.onMessage src (.response cmdId deps) =
      (⟨self.instances.insert cmdId { inst with responses := inst.responses.insert src }⟩,
        .doNothing, []) := by
  have hacc := accept_member hdeps hsrc
  rw [beq_eq_false_iff_ne.mpr hlen] at hacc
  unfold onMessage
  simp only [h, hacc]
  rfl

theorem onMessage_last (h : self.instances.lookup cmdId = some inst) (hdeps : inst.deps = deps)
    (hsrc : src ∈ inst.replicas)
    (hlen : (inst.responses.insert src).length = inst.replicas.length) :
    self.onMessage src (.response cmdId deps) =
      (⟨self.instances.erase cmdId⟩, .decided cmdId deps, []) := by
  have hacc := accept_member hdeps hsrc
  rw [beq_iff_eq.mpr hlen] at hacc
  unfold onMessage
  simp only [h, hacc, if_true, hdeps]

/-- An event apart from a command leaves what is kept of it, and decides another one at
most. -/
theorem handle_apart (he : e.Apart cmdId) :
    (self.handle cfg e).1.instances.lookup cmdId = self.instances.lookup cmdId ∧
      ∀ deps, (self.handle cfg e).2 ≠ .decided cmdId deps := by
  cases e with
  | propose i ds =>
    have hne : cmdId ≠ i := fun heq => he.propose ds (by rw [heq])
    exact ⟨AList.lookup_insert_ne hne, by rintro _ ⟨⟩⟩
  | message src msg =>
    cases msg with
    | request i ds => exact ⟨rfl, by rintro _ ⟨⟩⟩
    | response i ds =>
      have hne : cmdId ≠ i := fun heq => he.response src ds (by rw [heq])
      have hh : self.handle cfg (.message src (.response i ds)) =
          ((self.onMessage src (.response i ds)).1,
            (self.onMessage src (.response i ds)).2.1) := rfl
      rw [hh]
      cases hl : self.instances.lookup i with
      | none =>
        rw [onMessage_unknown hl]
        exact ⟨rfl, by rintro _ ⟨⟩⟩
      | some inst =>
        by_cases hok : inst.deps = ds ∧ src ∈ inst.replicas
        · by_cases hlen : (inst.responses.insert src).length = inst.replicas.length
          · rw [onMessage_last hl hok.1 hok.2 hlen]
            refine ⟨AList.lookup_erase_ne hne, fun deps heq => hne ?_⟩
            cases heq
            rfl
          · rw [onMessage_noted hl hok.1 hok.2 hlen]
            exact ⟨AList.lookup_insert_ne hne, by rintro _ ⟨⟩⟩
        · rw [onMessage_refused hl hok]
          exact ⟨AList.lookup_insert_ne hne, by rintro _ ⟨⟩⟩

end

theorem Event.apart_or (e : Event) (cmdId : CmdId) : e.Apart cmdId ∨
    (∃ deps, e = .propose cmdId deps) ∨ ∃ src deps, e = .message src (.response cmdId deps) := by
  by_cases hp : ∃ deps, e = .propose cmdId deps
  · exact .inr (.inl hp)
  · by_cases hr : ∃ src deps, e = .message src (.response cmdId deps)
    · exact .inr (.inr hr)
    · exact .inl ⟨fun deps h => hp ⟨deps, h⟩, fun src deps h => hr ⟨src, deps, h⟩⟩

theorem once_init (h : (proposed (events ++ [e])).Nodup) : (proposed events).Nodup := by
  rw [proposed_append] at h
  exact (List.nodup_append.mp h).1

theorem tracked_propose {self : Quorum} :
    Tracked cfg (events ++ [.propose cmdId deps]) cmdId
      ((self.handle cfg (.propose cmdId deps)).1.instances.lookup cmdId) := by
  refine .inr ⟨deps, events, [], rfl, .inl ⟨.new deps (replicas cfg cmdId),
    AList.lookup_insert _, .new cfg cmdId deps, fun hne hall => ?_⟩⟩
  obtain ⟨p, hp⟩ := List.exists_mem_of_ne_nil _ hne
  exact absurd (hall p hp) List.not_mem_nil

theorem not_newly_completed {pre : List Event} {deps' : List CmdId}
    (honce : (proposed (events ++ [e])).Nodup) (hev : events = pre ++ .propose cmdId deps :: since)
    (hold : Answered cfg cmdId deps (since ++ [e]) → Answered cfg cmdId deps since) :
    ¬ (Completed cfg (events ++ [e]) cmdId deps' ∧ ¬ Completed cfg events cmdId deps') := by
  rintro ⟨hyes, hno⟩
  obtain ⟨rfl, hall⟩ := (completed_iff honce (snoc_proposal hev)).mp hyes
  exact hno ((completed_iff (once_init honce) hev).mpr ⟨rfl, hold hall⟩)

/-- **One response** keeps what is known of its command, and decides it if and only if it
completes the committee. -/
theorem Tracked.response (hpool : cfg.pool.Nodup) {self : Quorum} {src : Pid}
    (honce : (proposed (events ++ [.message src (.response cmdId deps)])).Nodup)
    (h : Tracked cfg events cmdId (self.instances.lookup cmdId)) :
    Tracked cfg (events ++ [.message src (.response cmdId deps)]) cmdId
        ((self.onMessage src (.response cmdId deps)).1.instances.lookup cmdId) ∧
      ∀ deps', (self.onMessage src (.response cmdId deps)).2.1 = .decided cmdId deps' ↔
        Completed cfg (events ++ [.message src (.response cmdId deps)]) cmdId deps' ∧
          ¬ Completed cfg events cmdId deps' := by
  rcases h with ⟨hnot, hnone⟩ | ⟨ds, pre, since, hev, ⟨inst, hsome, hH, hopen⟩ | ⟨hnone, hall⟩⟩
  · have hnot' : cmdId ∉ proposed (events ++ [.message src (.response cmdId deps)]) := by
      rw [proposed_append]
      simpa [proposed] using hnot
    rw [onMessage_unknown hnone]
    refine ⟨.inl ⟨hnot', hnone⟩, fun deps' => iff_of_false (by rintro ⟨⟩) ?_⟩
    exact fun hc => not_completed hnot' hc.1
  · by_cases hok : inst.deps = deps ∧ src ∈ inst.replicas
    · obtain ⟨hdeps, hsrc⟩ := hok
      obtain rfl : ds = deps := hH.proposal.symm.trans hdeps
      have hmem : src ∈ replicas cfg cmdId := hH.committee ▸ hsrc
      have hH' := hH.accept hmem
      have hopen := hopen (List.ne_nil_of_mem hmem)
      by_cases hlen : (inst.responses.insert src).length = inst.replicas.length
      · have hall := (hH'.length_eq_iff hpool).mp hlen
        rw [onMessage_last hsome hdeps hsrc hlen]
        refine ⟨.inr ⟨ds, pre, _, snoc_proposal hev, .inr ⟨AList.lookup_erase _ _, hall⟩⟩,
          fun deps' => ?_⟩
        rw [completed_iff honce (snoc_proposal hev), completed_iff (once_init honce) hev]
        constructor
        · intro heq
          cases heq
          exact ⟨⟨rfl, hall⟩, fun hc => hopen hc.2⟩
        · rintro ⟨⟨rfl, -⟩, -⟩
          rfl
      · have hopen' := (hH'.length_eq_iff hpool).not.mp hlen
        rw [onMessage_noted hsome hdeps hsrc hlen]
        refine ⟨.inr ⟨ds, pre, _, snoc_proposal hev, .inl ⟨_, AList.lookup_insert _, hH',
          fun _ => hopen'⟩⟩, fun deps' => iff_of_false (by rintro ⟨⟩) ?_⟩
        exact not_newly_completed honce hev fun hall => absurd hall hopen'
    · have hno : ∀ p ∈ replicas cfg cmdId,
          Event.message src (.response cmdId deps) ≠ .message p (.response cmdId ds) :=
        fun p hp heq => hok (by
          cases heq
          exact ⟨hH.proposal, hH.committee ▸ hp⟩)
      rw [onMessage_refused hsome hok]
      refine ⟨.inr ⟨ds, pre, _, snoc_proposal hev, .inl ⟨inst, AList.lookup_insert _,
        hH.other hno, fun hne => (answered_snoc hno).not.mpr (hopen hne)⟩⟩,
        fun deps' => iff_of_false (by rintro ⟨⟩) ?_⟩
      exact not_newly_completed honce hev (answered_snoc hno).mp
  · rw [onMessage_unknown hnone]
    refine ⟨.inr ⟨ds, pre, _, snoc_proposal hev, .inr ⟨hnone, answered_mono hall⟩⟩,
      fun deps' => iff_of_false (by rintro ⟨⟩) ?_⟩
    exact not_newly_completed honce hev fun _ => hall

theorem tracked_after (hpool : cfg.pool.Nodup) (honce : (proposed events).Nodup) (cmdId : CmdId) :
    Tracked cfg events cmdId ((after cfg events).instances.lookup cmdId) := by
  induction events using List.reverseRecOn with
  | nil => exact .inl ⟨List.not_mem_nil, rfl⟩
  | append_singleton events e ih =>
    have ih := ih (once_init honce)
    rw [after_snoc]
    rcases e.apart_or cmdId with he | ⟨deps, rfl⟩ | ⟨src, deps, rfl⟩
    · rw [(handle_apart he).1]
      exact ih.apart he
    · exact tracked_propose
    · exact (ih.response hpool honce).1

theorem decided_iff_completed (hpool : cfg.pool.Nodup) (honce : (proposed events).Nodup)
    (src : Pid) (msg : QuorumMsg) (cmdId : CmdId) (deps : List CmdId) :
    ((after cfg events).onMessage src msg).2.1 = .decided cmdId deps ↔
      Completed cfg (events ++ [.message src msg]) cmdId deps ∧
        ¬ Completed cfg events cmdId deps := by
  have honce' : (proposed (events ++ [.message src msg])).Nodup := by
    rw [proposed_append]
    simpa [proposed] using honce
  have hT := tracked_after hpool honce cmdId
  rcases (Event.message src msg).apart_or cmdId with he | ⟨ds, hds⟩ | ⟨src', ds, heq⟩
  · have hne : ((after cfg events).handle cfg (.message src msg)).2 ≠ .decided cmdId deps :=
      (handle_apart he).2 deps
    refine iff_of_false hne ?_
    rcases hT with ⟨hnot, -⟩ | ⟨ds, pre, since, hev, -⟩
    · exact fun hc => not_completed (he.notMem_proposed hnot) hc.1
    · exact not_newly_completed honce' hev (answered_snoc fun p _ => he.response p ds).mp
  · cases hds
  · cases heq
    exact (hT.response hpool honce').2 deps

theorem Completed.mono (h : Completed cfg events cmdId deps) (later : List Event) :
    Completed cfg (events ++ later) cmdId deps := by
  obtain ⟨pre, since, rfl, hall⟩ := h
  exact ⟨pre, since ++ later, by simp, fun p hp => List.mem_append_left _ (hall p hp)⟩

/-- **The slow path decides what it proposed, once, on the whole committee.** -/
theorem decides_on_whole_committee (cfg : Config) (hpool : cfg.pool.Nodup) (events : List Event)
    (honce : (proposed events).Nodup) (src : Pid) (msg : QuorumMsg) (cmdId : CmdId)
    (deps : List CmdId) :
    (((after cfg events).onMessage src msg).2.1 = .decided cmdId deps ↔
      Completed cfg (events ++ [.message src msg]) cmdId deps ∧
        ¬ Completed cfg events cmdId deps) ∧
    (((after cfg events).onMessage src msg).2.1 = .decided cmdId deps →
      .propose cmdId deps ∈ events ∧
      ∀ later src' msg' deps', (proposed (events ++ .message src msg :: later)).Nodup →
        ((after cfg (events ++ .message src msg :: later)).onMessage src' msg').2.1 ≠
          .decided cmdId deps') := by
  have hiff := decided_iff_completed hpool honce src msg cmdId deps
  refine ⟨hiff, fun hdec => ⟨?_, fun later src' msg' deps' honce' hdec' => ?_⟩⟩
  · obtain ⟨pre, since, hev, -⟩ := (hiff.mp hdec).1
    have hmem : .propose cmdId deps ∈ events ++ [Event.message src msg] := by
      rw [hev]
      simp
    rcases List.mem_append.mp hmem with hmem | hmem
    · exact hmem
    · cases List.mem_singleton.mp hmem
  · have hdone := (hiff.mp hdec).1.mono later
    rw [List.append_assoc, List.singleton_append] at hdone
    obtain ⟨hyes, hno⟩ := (decided_iff_completed hpool honce' src' msg' cmdId deps').mp hdec'
    obtain ⟨pre, since, hev, -⟩ := hdone.mono [.message src' msg']
    obtain ⟨pre', since', hev', -⟩ := hyes
    have honce'' : (proposed (events ++ .message src msg :: later ++
        [.message src' msg'])).Nodup := by
      rw [proposed_append]
      simpa [proposed] using honce'
    obtain ⟨rfl, -⟩ := proposal_unique honce'' hev hev'
    exact hno hdone

/-- Before the third member answers, its early answer, other dependencies, a repeated answer
and one from outside have not counted. -/
theorem decides_on_whole_committee_three :
    let cfg : Config := .standard .epaxos [0, 1, 2]
    let events : List Event := [.message 1 (.response ⟨0, 0⟩ [⟨1, 0⟩]),
      .propose ⟨0, 0⟩ [⟨1, 0⟩], .message 0 (.response ⟨0, 0⟩ [⟨1, 0⟩]),
      .message 2 (.response ⟨0, 0⟩ []), .message 2 (.response ⟨0, 0⟩ [⟨1, 0⟩]),
      .message 2 (.response ⟨0, 0⟩ [⟨1, 0⟩]), .message 9 (.response ⟨0, 0⟩ [⟨1, 0⟩])]
    ((after cfg events).onMessage 1 (.response ⟨0, 0⟩ [⟨1, 0⟩])).2.1 =
      .decided ⟨0, 0⟩ [⟨1, 0⟩] := by
  intro cfg events
  have hiff := (decides_on_whole_committee cfg (by decide) events (by decide) 1
    (.response ⟨0, 0⟩ [⟨1, 0⟩]) ⟨0, 0⟩ [⟨1, 0⟩]).1
  have hevents : events = [.message 1 (.response ⟨0, 0⟩ [⟨1, 0⟩])] ++
      .propose ⟨0, 0⟩ [⟨1, 0⟩] :: events.drop 2 := rfl
  refine hiff.mpr ⟨⟨_, _, by rw [snoc_proposal hevents], ?_⟩, ?_⟩
  · show ∀ p ∈ replicas cfg ⟨0, 0⟩, _
    decide
  · rw [completed_iff (by decide) hevents]
    rintro ⟨-, hall⟩
    exact absurd (hall 1 (by decide)) (by decide)

end Quorum

end Blsmr
