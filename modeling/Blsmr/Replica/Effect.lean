import Blsmr.Replica.Cluster

/-!
# The effect of a step

`Progress` is the part of a replica's state that the protocol is about, with the
two hash maps as functions; submit counters and timers are left out. `Effect`
lists everything one step can do to it: which message it consumes, the new
progress and the messages sent. `Net` is the cluster seen this way and `NetStep`
its step relation. `step_net` shows that every step of the cluster is one, so the
invariants below are proved by cases on `Effect` and carried to the cluster by
`net_invariant`.
-/

namespace Blsmr

open Blsmr.Transition

structure Progress where
  log : CmdLog
  calls : List LogCall
  bqs : QuorumSystem
  pending : CmdId → Option (List Res)
  instances : CmdId → Option Instance
  announced : List Command
  ready : List (CmdId × QuorumReady)
  decided : List (CmdId × List CmdId)

def BLSMR.progress (b : BLSMR) : Progress where
  log := b.dds.log
  calls := b.dds.calls
  bqs := b.dds.bqs
  pending id := b.dds.pendingAnnounceQuorums.lookup id
  instances id := b.quorum.instances.lookup id
  announced := b.announced
  ready := b.ready
  decided := b.decided

namespace Progress

/-- Whether a reply completes the quorum. -/
def isReady (cfg : Config) (x : Progress) (quorum : List Res) : Bool :=
  match cfg.protocolType with
  | .wintermute => quorum.length == cfg.pool.length
  | _ => x.bqs.isQuorum (quorum.map Res.pid)

/-- The collected replies are about the command they are collected for. -/
def PendingIds (x : Progress) : Prop := ∀ i l, x.pending i = some l → ∀ r ∈ l, r.id = i

/-- A call on the log, recorded. -/
def logged (x : Progress) (c : LogCall) (log' : CmdLog) : Progress :=
  { x with log := log', calls := x.calls ++ [c] }

/-- The replies collected for `i`. -/
def setPending (x : Progress) (i : CmdId) (l : Option (List Res)) : Progress :=
  { x with pending := Function.update x.pending i l }

/-- The slow-path instance of `i`. -/
def setInstance (x : Progress) (i : CmdId) (inst : Option Instance) : Progress :=
  { x with instances := Function.update x.instances i inst }

/-- A new command, with no replies yet. -/
def announce (x : Progress) (cmd : Command) (bqs' : QuorumSystem) : Progress :=
  { (x.logged (.recordCreation cmd.id) (x.log.recordCreation cmd.id)).setPending cmd.id (some [])
    with bqs := bqs', announced := x.announced ++ [cmd] }

/-- The quorum `q` for `i` is handed over. -/
def hand (x : Progress) (i : CmdId) (q : List Res) (fast : Bool) : Progress :=
  { x.setPending i none with ready := x.ready ++ [(i, ⟨q, fast⟩)] }

/-- The decision on `i`, committed in the log. -/
def decide (x : Progress) (hash : HashOrder) (i : CmdId) (deps : List CmdId) (log' : CmdLog) :
    Progress :=
  { x.logged (.commit hash i deps) log' with decided := x.decided ++ [(i, deps)] }

section Fields

variable (x : Progress)

@[simp] theorem setPending_self (i : CmdId) (l : Option (List Res)) :
    (x.setPending i l).pending i = l := Function.update_self ..

theorem setPending_of_ne {i j : CmdId} (h : j ≠ i) (l : Option (List Res)) :
    (x.setPending i l).pending j = x.pending j := Function.update_of_ne h ..

@[simp] theorem setInstance_self (i : CmdId) (inst : Option Instance) :
    (x.setInstance i inst).instances i = inst := Function.update_self ..

theorem setInstance_of_ne {i j : CmdId} (h : j ≠ i) (inst : Option Instance) :
    (x.setInstance i inst).instances j = x.instances j := Function.update_of_ne h ..

@[simp] theorem setInstance_pending (i : CmdId) (inst : Option Instance) :
    (x.setInstance i inst).pending = x.pending := rfl

@[simp] theorem announce_pending_self (cmd : Command) (bqs' : QuorumSystem) :
    (x.announce cmd bqs').pending cmd.id = some [] := Function.update_self ..

theorem announce_pending_of_ne {cmd : Command} {j : CmdId} (h : j ≠ cmd.id)
    (bqs' : QuorumSystem) : (x.announce cmd bqs').pending j = x.pending j :=
  Function.update_of_ne h ..

@[simp] theorem hand_pending_self (i : CmdId) (q : List Res) (fast : Bool) :
    (x.hand i q fast).pending i = none := Function.update_self ..

@[simp] theorem decide_pending (hash : HashOrder) (i : CmdId) (deps : List CmdId)
    (log' : CmdLog) : (x.decide hash i deps log').pending = x.pending := rfl

@[simp] theorem decide_instances (hash : HashOrder) (i : CmdId) (deps : List CmdId)
    (log' : CmdLog) : (x.decide hash i deps log').instances = x.instances := rfl

end Fields

end Progress

/-- The quorum `q` for `i` is complete, on a reply or on a timer. -/
def Completes (cfg : Config) (x : Progress) (inp : Option (Pid × Message)) (i : CmdId)
    (q : List Res) : Prop :=
  (∃ src res l, inp = some (src, .announce (.res res)) ∧ i = res.id ∧ x.pending i = some l ∧
    q = l ++ [res] ∧ x.isReady cfg q = true) ∨
  (inp = none ∧ x.pending i = some q ∧ x.bqs.isQuorum (q.map Res.pid) = true)

theorem Completes.reply {cfg : Config} {x : Progress} {inp : Option (Pid × Message)} {i : CmdId}
    {q : List Res} (hc : Completes cfg x inp i q) {src : Pid} {msg : Message}
    (hi : inp = some (src, msg)) : ∃ res, msg = .announce (.res res) ∧ i = res.id := by
  rcases hc with ⟨_, res, _, rfl, rfl, -⟩ | ⟨rfl, -⟩
  · cases hi
    exact ⟨res, rfl, rfl⟩
  · cases hi

/-- Whom a command is announced to. -/
def Targets (cfg : Config) (bqs bqs' : QuorumSystem) (targets : List Pid) : Prop :=
  (cfg.protocolType ≠ .threeJane ∧ bqs' = bqs ∧ targets = cfg.pool) ∨
  (cfg.protocolType = .threeJane ∧ ∃ rng, bqs.chooseRandomQuorum rng = (bqs', targets))

/-- The messages of `decide`. -/
def commitSends (cfg : Config) (me : Pid) (i : CmdId) (deps : List CmdId) : List (Pid × Message) :=
  (cfg.pool.filter (· ≠ me)).map fun pid => (pid, .announce (.commit i deps))

/-- The messages of `propose`. -/
def requestSends (cfg : Config) (i : CmdId) (deps : List CmdId) : List (Pid × Message) :=
  (Quorum.replicas cfg i).map fun pid => (pid, .quorum (.request i deps))

/-- **What one step of replica `me` can do**, where `used` are the identifiers
announced so far: the message consumed, the new progress, the messages sent. -/
inductive Effect (cfg : Config) (me : Pid) (used : CmdId → Prop) (x : Progress) :
    Option (Pid × Message) → Progress → List (Pid × Message) → Prop
  | silent : Effect cfg me used x none x []
  | announce (cmd : Command) (bqs' : QuorumSystem) (targets : List Pid) (hme : cmd.id.pid = me)
      (hfresh : ¬ used cmd.id) (ht : Targets cfg x.bqs bqs' targets) :
      Effect cfg me used x none (x.announce cmd bqs')
        (targets.map fun pid => (pid, .announce (.req cmd)))
  | submit (src : Pid) (cmd : Command) :
      Effect cfg me used x (some (src, .announce (.req cmd)))
        (x.logged (.submit cmd) (x.log.submit cmd).1)
        [(src, .announce (.res ⟨me, cmd.id, (x.log.submit cmd).2⟩))]
  | commit (src : Pid) (i : CmdId) (deps : List CmdId) (hash : HashOrder) (log' : CmdLog)
      (h : x.log.commit hash i deps = some log') :
      Effect cfg me used x (some (src, .announce (.commit i deps)))
        (x.logged (.commit hash i deps) log') []
  | stale (src : Pid) (res : Res) (h : x.pending res.id = none) :
      Effect cfg me used x (some (src, .announce (.res res))) x []
  | collect (src : Pid) (res : Res) (l : List Res) (h : x.pending res.id = some l)
      (hr : x.isReady cfg (l ++ [res]) = false) :
      Effect cfg me used x (some (src, .announce (.res res)))
        (x.setPending res.id (some (l ++ [res]))) []
  | fast (inp : Option (Pid × Message)) (i : CmdId) (q : List Res) (hash : HashOrder)
      (log' : CmdLog) (hc : Completes cfg x inp i q) (hq : q ≠ [])
      (hf : DDS.allowFastpath cfg q = some true)
      (h : x.log.commit hash i (unionDeps q) = some log') :
      Effect cfg me used x inp ((x.hand i q true).decide hash i (unionDeps q) log')
        (commitSends cfg me i (unionDeps q))
  | slow (inp : Option (Pid × Message)) (i : CmdId) (q : List Res) (hc : Completes cfg x inp i q)
      (hq : q ≠ []) (hf : DDS.allowFastpath cfg q = some false) :
      Effect cfg me used x inp
        ((x.hand i q false).setInstance i (some (.new (unionDeps q) (Quorum.replicas cfg i))))
        (requestSends cfg i (unionDeps q))
  | request (src : Pid) (i : CmdId) (deps : List CmdId) :
      Effect cfg me used x (some (src, .quorum (.request i deps))) x
        [(src, .quorum (.response i deps))]
  | ignored (src : Pid) (i : CmdId) (deps : List CmdId)
      (h : ∀ inst, x.instances i = some inst → ¬ (inst.deps = deps ∧ src ∈ inst.replicas)) :
      Effect cfg me used x (some (src, .quorum (.response i deps))) x []
  | accepted (src : Pid) (i : CmdId) (inst : Instance) (h : x.instances i = some inst)
      (hm : src ∈ inst.replicas)
      (hlen : (inst.responses.insert src).length ≠ inst.replicas.length) :
      Effect cfg me used x (some (src, .quorum (.response i inst.deps)))
        (x.setInstance i (some { inst with responses := inst.responses.insert src })) []
  | complete (src : Pid) (i : CmdId) (inst : Instance) (hash : HashOrder) (log' : CmdLog)
      (hi : x.instances i = some inst) (hm : src ∈ inst.replicas)
      (hlen : (inst.responses.insert src).length = inst.replicas.length)
      (h : x.log.commit hash i inst.deps = some log') :
      Effect cfg me used x (some (src, .quorum (.response i inst.deps)))
        ((x.setInstance i none).decide hash i inst.deps log') (commitSends cfg me i inst.deps)

/-! ## The handlers have these effects -/

section Handlers

variable {cfg : Config} {me : Pid} {env : Env} {used : CmdId → Prop} {b : BLSMR}

theorem lookup_insert_eq_update {α : Type*} (m : AList fun _ : CmdId => α) (i : CmdId) (a : α) :
    (fun j => (m.insert i a).lookup j) = Function.update (fun j => m.lookup j) i (some a) := by
  funext j
  by_cases h : j = i
  · subst h; simp
  · simp [AList.lookup_insert_ne h, h]

theorem lookup_erase_eq_update {α : Type*} (m : AList fun _ : CmdId => α) (i : CmdId) :
    (fun j => (m.erase i).lookup j) = Function.update (fun j => m.lookup j) i none := by
  funext j
  by_cases h : j = i
  · subst h; simp
  · simp [AList.lookup_erase_ne h, h]

/-! What an update of a hash map does to the progress. -/

theorem progress_insertPending (b : BLSMR) (i : CmdId) (l : List Res) :
    BLSMR.progress { b with dds := { b.dds with
      pendingAnnounceQuorums := b.dds.pendingAnnounceQuorums.insert i l } } =
      b.progress.setPending i (some l) := by
  show Progress.mk _ _ _ (fun j => (b.dds.pendingAnnounceQuorums.insert i l).lookup j) _ _ _ _ = _
  rw [lookup_insert_eq_update]
  rfl

theorem progress_erasePending (b : BLSMR) (i : CmdId) :
    BLSMR.progress { b with dds := { b.dds with
      pendingAnnounceQuorums := b.dds.pendingAnnounceQuorums.erase i } } =
      b.progress.setPending i none := by
  show Progress.mk _ _ _ (fun j => (b.dds.pendingAnnounceQuorums.erase i).lookup j) _ _ _ _ = _
  rw [lookup_erase_eq_update]
  rfl

theorem progress_insertInstance (b : BLSMR) (i : CmdId) (inst : Instance) :
    BLSMR.progress { b with quorum := ⟨b.quorum.instances.insert i inst⟩ } =
      b.progress.setInstance i (some inst) := by
  show Progress.mk _ _ _ _ (fun j => (b.quorum.instances.insert i inst).lookup j) _ _ _ = _
  rw [lookup_insert_eq_update]
  rfl

theorem progress_eraseInstance (b : BLSMR) (i : CmdId) :
    BLSMR.progress { b with quorum := ⟨b.quorum.instances.erase i⟩ } =
      b.progress.setInstance i none := by
  show Progress.mk _ _ _ _ (fun j => (b.quorum.instances.erase i).lookup j) _ _ _ = _
  rw [lookup_erase_eq_update]
  rfl

theorem decide_effect {i : CmdId} {deps : List CmdId} {out : Outcome}
    (h : b.decide cfg me env i deps = some out) :
    ∃ log', b.progress.log.commit env.hash i deps = some log' ∧
      out.state.progress = b.progress.decide env.hash i deps log' ∧
      out.sends = commitSends cfg me i deps := by
  obtain ⟨dds, hdds, rfl⟩ := Option.map_eq_some_iff.mp h
  obtain ⟨log', hlog, rfl⟩ := Option.map_eq_some_iff.mp hdds
  exact ⟨log', hlog, rfl, rfl⟩

theorem handleAnnounceStatus_effect {inp : Option (Pid × Message)} {x : Progress} {i : CmdId}
    {q : List Res} {fast : Bool} {out : Outcome} (hc : Completes cfg x inp i q)
    (hids : ∀ r ∈ q, r.id = i) (hf : DDS.allowFastpath cfg q = some fast)
    (hb : b.progress = x.setPending i none)
    (h : b.handleAnnounceStatus cfg me env (.quorumReady ⟨q, fast⟩) = some out) :
    Effect cfg me used x inp out.state.progress out.sends := by
  cases q with
  | nil => cases h
  | cons first rest =>
    obtain rfl : first.id = i := hids first List.mem_cons_self
    have hand : BLSMR.progress { b with
        ready := b.ready ++ [(first.id, ⟨first :: rest, fast⟩)] } =
        x.hand first.id (first :: rest) fast := by
      have hr : b.ready = x.ready := congrArg Progress.ready hb
      rw [Progress.hand, ← hb, ← hr]
      rfl
    simp only [BLSMR.handleAnnounceStatus] at h
    cases fast with
    | true =>
      rw [if_pos rfl] at h
      obtain ⟨log', hlog, hst, hs⟩ := decide_effect h
      rw [hand] at hlog hst
      rw [hst, hs]
      exact .fast inp first.id _ env.hash log' hc (by simp) hf hlog
    | false =>
      rw [if_neg (by simp), Option.some.injEq] at h
      subst h
      have he := @Effect.slow cfg me used _ inp _ _ hc (by simp) hf
      convert he using 1
      · rw [← hand, ← progress_insertInstance]
        rfl
      · simp [Quorum.propose, requestSends, List.map_map]

theorem onRes_effect {src : Pid} {res : Res} {out : Outcome} (hids : b.progress.PendingIds)
    (h : b.onMessage cfg me env src (.announce (.res res)) = some out) :
    Effect cfg me used b.progress (some (src, .announce (.res res))) out.state.progress
      out.sends := by
  obtain ⟨⟨dds, status, sends⟩, hd, h⟩ := Option.bind_eq_some_iff.mp h
  obtain ⟨out', ho, h⟩ := Option.bind_eq_some_iff.mp h
  cases h
  simp only [DDS.onMessage] at hd
  cases hl : b.dds.pendingAnnounceQuorums.lookup res.id with
  | none =>
    rw [hl] at hd
    cases hd
    cases ho
    exact .stale src res hl
  | some l =>
    simp only [hl] at hd
    by_cases hr : b.dds.isReady cfg (l ++ [res])
    · rw [if_pos hr] at hd
      obtain ⟨fast, hf, hd⟩ := Option.map_eq_some_iff.mp hd
      cases hd
      refine handleAnnounceStatus_effect (i := res.id) (q := l ++ [res])
        (.inl ⟨src, res, l, rfl, rfl, hl, rfl, hr⟩) (fun r hrm => ?_) hf
        (progress_erasePending b res.id) ho
      rcases List.mem_append.mp hrm with hrm | hrm
      · exact hids res.id l hl r hrm
      · rw [List.mem_singleton.mp hrm]
    · rw [if_neg hr] at hd
      cases hd
      cases ho
      have he := @Effect.collect cfg me used b.progress src res l hl (Bool.eq_false_iff.mpr hr)
      rwa [← progress_insertPending] at he

theorem onResponse_effect {src : Pid} {i : CmdId} {deps : List CmdId} {out : Outcome}
    (h : b.onMessage cfg me env src (.quorum (.response i deps)) = some out) :
    Effect cfg me used b.progress (some (src, .quorum (.response i deps))) out.state.progress
      out.sends := by
  obtain ⟨out', ho, h⟩ := Option.bind_eq_some_iff.mp h
  cases h
  simp only at ho ⊢
  cases hl : b.quorum.instances.lookup i with
  | none =>
    rw [hl] at ho
    cases ho
    refine .ignored src i deps fun inst hi => ?_
    rw [show b.progress.instances i = none from hl] at hi
    cases hi
  | some inst =>
    have hpi : b.progress.instances i = some inst := hl
    simp only [hl] at ho
    by_cases hacc : inst.deps = deps ∧ src ∈ inst.replicas
    swap
    · have ha : inst.accept src deps = (inst, false) := by rw [Instance.accept, if_neg hacc]
      simp only [ha, Bool.false_eq_true, if_false] at ho
      cases ho
      simp only [ha, Bool.false_eq_true, if_false, List.map_nil, List.append_nil]
      have he := @Effect.ignored cfg me used b.progress src i deps fun inst' hi => by
        rw [hpi, Option.some.injEq] at hi
        exact hi ▸ hacc
      rwa [progress_insertInstance, Progress.setInstance, ← hpi, Function.update_eq_self]
    obtain ⟨rfl, hm⟩ := hacc
    have ha : inst.accept src inst.deps =
        ({ inst with responses := inst.responses.insert src },
          (inst.responses.insert src).length == inst.replicas.length) := by
      rw [Instance.accept, if_pos ⟨rfl, hm⟩]
    rw [ha] at ho
    by_cases hlen : (inst.responses.insert src).length = inst.replicas.length
    · simp only [hlen, beq_self_eq_true, if_true] at ho
      obtain ⟨log', hlog, hst, hs⟩ := decide_effect ho
      rw [progress_eraseInstance] at hlog hst
      simp only [ha, hlen, beq_self_eq_true, if_true, List.map_nil, List.nil_append]
      rw [hst, hs]
      exact .complete src i inst env.hash log' hpi hm hlen hlog
    · have hne : ((inst.responses.insert src).length == inst.replicas.length) = false := by
        simpa using hlen
      simp only [hne, Bool.false_eq_true, if_false] at ho
      cases ho
      simp only [ha, hne, Bool.false_eq_true, if_false, List.map_nil, List.append_nil]
      have he := @Effect.accepted cfg me used b.progress src i inst hpi hm hlen
      rwa [← progress_insertInstance] at he

theorem onMessage_effect {src : Pid} {msg : Message} {out : Outcome}
    (hids : b.progress.PendingIds) (h : b.onMessage cfg me env src msg = some out) :
    Effect cfg me used b.progress (some (src, msg)) out.state.progress out.sends := by
  cases msg with
  | announce m =>
    cases m with
    | req cmd => cases h; exact .submit src cmd
    | res res => exact onRes_effect hids h
    | commit i deps =>
      obtain ⟨⟨dds, status, sends⟩, hd, h⟩ := Option.bind_eq_some_iff.mp h
      obtain ⟨out', ho, h⟩ := Option.bind_eq_some_iff.mp h
      cases h
      obtain ⟨dds', hc, hd⟩ := Option.map_eq_some_iff.mp hd
      cases hd
      cases ho
      obtain ⟨log', hlog, rfl⟩ := Option.map_eq_some_iff.mp hc
      exact .commit src i deps env.hash log' hlog
  | quorum m =>
    cases m with
    | request i deps => cases h; exact .request src i deps
    | response i deps => exact onResponse_effect h

theorem onStart_effect : Effect cfg me used b.progress none
    (b.onStart cfg env).state.progress (b.onStart cfg env).sends := by
  unfold BLSMR.onStart
  split <;> exact .silent

theorem onSubmitTimer_effect (hfresh : ¬ used ⟨me, env.uid⟩) :
    Effect cfg me used b.progress none
      (b.onSubmitTimer cfg me env).state.progress (b.onSubmitTimer cfg me env).sends := by
  obtain ⟨bqs', targets, ht, hs, hp⟩ : ∃ bqs' targets, Targets cfg b.dds.bqs bqs' targets ∧
      (b.onSubmitTimer cfg me env).sends =
        (targets.map fun pid => (pid, .announce (.req ⟨⟨me, env.uid⟩, env.key⟩))) ∧
      (b.onSubmitTimer cfg me env).state.progress =
        b.progress.announce ⟨⟨me, env.uid⟩, env.key⟩ bqs' := by
    have hpend : ∀ (m : AList fun _ : CmdId => List Res) (i : CmdId),
        (fun j => (m.insert i []).lookup j) = Function.update (fun j => m.lookup j) i (some []) :=
      fun m i => lookup_insert_eq_update m i []
    cases hp : cfg.protocolType with
    | threeJane =>
      refine ⟨(b.dds.bqs.chooseRandomQuorum env.rng).1, (b.dds.bqs.chooseRandomQuorum env.rng).2,
        .inr ⟨hp, env.rng, rfl⟩, ?_, ?_⟩ <;>
      by_cases hl : b.submitted + 1 < cfg.submitLimit <;>
        simp [BLSMR.onSubmitTimer, DDS.announce, DDS.prepareAnnounce, DDS.sendAnnounce, hp, hl,
          BLSMR.progress, BLSMR.schedSubmit, Progress.announce, Progress.setPending,
          Progress.logged, hpend]
    | _ =>
      refine ⟨b.dds.bqs, cfg.pool, .inl ⟨by simp [hp], rfl, rfl⟩, ?_, ?_⟩ <;>
      by_cases hl : b.submitted + 1 < cfg.submitLimit <;>
        simp [BLSMR.onSubmitTimer, DDS.announce, DDS.prepareAnnounce, DDS.sendAnnounce, hp, hl,
          BLSMR.progress, BLSMR.schedSubmit, Progress.announce, Progress.setPending,
          Progress.logged, hpend]
  rw [hs, hp]
  exact .announce _ bqs' targets rfl hfresh ht

theorem onTimer_effect {id : TimerId} {out : Outcome} (hids : b.progress.PendingIds)
    (hfresh : ¬ used ⟨me, env.uid⟩) (h : b.onTimer cfg me env id = some out) :
    Effect cfg me used b.progress none out.state.progress out.sends := by
  unfold BLSMR.onTimer at h
  by_cases hmine : b.dds.isMyTimer id
  · rw [if_pos hmine] at h
    obtain ⟨⟨dds, status⟩, hd, h⟩ := Option.bind_eq_some_iff.mp h
    obtain ⟨i, hi, hd⟩ := Option.bind_eq_some_iff.mp hd
    simp only at hd
    cases hl : b.dds.pendingAnnounceQuorums.lookup i with
    | none =>
      simp only [hl] at hd
      cases hd
      cases h
      exact .silent
    | some q =>
      simp only [hl] at hd
      by_cases hq : b.dds.isQuorum q
      · have hq' : DDS.isQuorum { b.dds with
            announceForceTimers := b.dds.announceForceTimers.erase id } q = true := hq
        rw [if_pos hq'] at hd
        obtain ⟨fast, hf, hd⟩ := Option.bind_eq_some_iff.mp hd
        cases hd
        refine handleAnnounceStatus_effect (i := i) (.inr ⟨rfl, hl, hq⟩) (hids i q hl) hf ?_ h
        exact progress_erasePending b i
      · have hq' : ¬ DDS.isQuorum { b.dds with
            announceForceTimers := b.dds.announceForceTimers.erase id } q = true := hq
        rw [if_neg hq'] at hd
        cases hd
        cases h
        exact .silent
  · rw [if_neg hmine] at h
    by_cases hid : id = b.currentSubmitTimerId
    · rw [if_pos hid, Option.some.injEq] at h
      rw [← h]
      exact onSubmitTimer_effect hfresh
    · rw [if_neg hid] at h
      cases h

end Handlers

/-! ## The cluster as a network of progresses -/

structure Net where
  replica : Pid → Progress
  network : List Packet
  sent : List Packet

def Cluster.net (c : Cluster) : Net where
  replica p := (c.replicas p).progress
  network := c.network
  sent := c.sent

/-- The identifiers announced so far. -/
def Net.used (s : Net) (i : CmdId) : Prop := ∃ p cmd, cmd ∈ (s.replica p).announced ∧ cmd.id = i

/-- The messages of replica `p` on the wire. -/
def packets (p : Pid) (sends : List (Pid × Message)) : List Packet :=
  sends.map fun (dst, msg) => { src := p, dst, msg }

/-- The message replica `p` consumes. -/
def consumed (p : Pid) (inp : Option (Pid × Message)) : List Packet :=
  inp.toList.map fun (src, msg) => { src, dst := p, msg }

/-- One step of replica `p`. -/
def NetStep (cfg : Config) (s : Net) (p : Pid) (inp : Option (Pid × Message)) (s' : Net) : Prop :=
  ∃ x' sends rest, Effect cfg p s.used (s.replica p) inp x' sends ∧
    s.network.Perm (consumed p inp ++ rest) ∧
    s' = { replica := Function.update s.replica p x'
           network := rest ++ packets p sends
           sent := s.sent ++ packets p sends }

/-- The replica of an action and the message it consumes. -/
def Action.label : Action → Pid × Option (Pid × Message)
  | .start p _ => (p, none)
  | .deliver packet _ => (packet.dst, some (packet.src, packet.msg))
  | .timer p _ _ => (p, none)

theorem mem_packets {p : Pid} {sends : List (Pid × Message)} {pkt : Packet} :
    pkt ∈ packets p sends ↔ pkt.src = p ∧ (pkt.dst, pkt.msg) ∈ sends := by
  unfold packets
  rw [List.mem_map]
  constructor
  · rintro ⟨⟨dst, msg⟩, h, rfl⟩
    exact ⟨rfl, h⟩
  · rintro ⟨rfl, h⟩
    exact ⟨_, h, rfl⟩

/-! ## Every step of the cluster is a step of the network -/

/-- The identifiers of announced commands were handed out. -/
def Cluster.UidsOk (c : Cluster) : Prop :=
  ∀ p cmd, cmd ∈ (c.replicas p).announced → cmd.id.id ∈ c.uids

theorem Effect.pendingIds {cfg : Config} {me : Pid} {used : CmdId → Prop} {x x' : Progress}
    {inp : Option (Pid × Message)} {sends : List (Pid × Message)}
    (he : Effect cfg me used x inp x' sends) (h : x.PendingIds) : x'.PendingIds := by
  have hset : ∀ i l, (∀ r ∈ l, r.id = i) → (x.setPending i (some l)).PendingIds := by
    intro i l hl j l' hj
    by_cases hji : j = i
    · subst hji
      rw [Progress.setPending_self] at hj
      cases hj
      exact hl
    · rw [x.setPending_of_ne hji] at hj
      exact h j l' hj
  have hnone : ∀ i, (x.setPending i none).PendingIds := by
    intro i j l' hj
    by_cases hji : j = i
    · subst hji
      rw [Progress.setPending_self] at hj
      cases hj
    · rw [x.setPending_of_ne hji] at hj
      exact h j l' hj
  cases he with
  | announce cmd => exact hset cmd.id [] (by simp)
  | collect src res l hl =>
    refine hset res.id _ fun r hr => ?_
    rcases List.mem_append.mp hr with hr | hr
    · exact h res.id l hl r hr
    · rw [List.mem_singleton.mp hr]
  | fast _ i => exact hnone i
  | slow _ i => exact hnone i
  | _ => exact h

theorem Effect.announced {cfg : Config} {me : Pid} {used : CmdId → Prop} {x x' : Progress}
    {inp : Option (Pid × Message)} {sends : List (Pid × Message)}
    (he : Effect cfg me used x inp x' sends) : ∀ cmd ∈ x'.announced, cmd ∈ x.announced ∨
      cmd.id.pid = me ∧ ¬ used cmd.id ∧ x'.announced = x.announced ++ [cmd] := by
  intro cmd hcmd
  cases he with
  | announce cmd' bqs' targets hme hfresh =>
    rcases List.mem_append.mp hcmd with h | h
    · exact .inl h
    · obtain rfl := List.mem_singleton.mp h
      exact .inr ⟨hme, hfresh, rfl⟩
  | _ => exact .inl hcmd

section Simulation

variable {cfg : Config} {ok : Cluster → Action → Prop} {c c' : Cluster} {a : Action}

/-- What the simulation needs to know of a cluster. -/
structure Cluster.Regular (c : Cluster) : Prop where
  pendingIds : ∀ p, (c.replicas p).progress.PendingIds
  uids : c.UidsOk

/-- Every step is the update of one replica, whose outcome is an effect whatever
identifiers were used, as long as the one handed out was not. -/
theorem step_cases (hids : ∀ p, (c.replicas p).progress.PendingIds)
    (hs : Cluster.step cfg c a = some c') :
    c.Fresh a.env ∧ ∃ (out : Outcome) (d : Cluster),
      c' = d.update a.label.1 a.env out ∧ d.replicas = c.replicas ∧
      d.sent = c.sent ∧ d.uids = c.uids ∧
      c.network.Perm (consumed a.label.1 a.label.2 ++ d.network) ∧
      ∀ used : CmdId → Prop, ¬ used ⟨a.label.1, a.env.uid⟩ →
        Effect cfg a.label.1 used (c.replicas a.label.1).progress a.label.2
          out.state.progress out.sends := by
  unfold Cluster.step at hs
  by_cases hfr : c.Fresh a.env
  · rw [if_pos hfr] at hs
    refine ⟨hfr, ?_⟩
    cases a with
    | start p env =>
      simp only at hs
      split at hs
      · cases hs
        exact ⟨_, _, rfl, rfl, rfl, rfl, List.Perm.refl _, fun used _ => onStart_effect⟩
      · cases hs
    | deliver packet env =>
      simp only at hs
      split at hs
      · rename_i hmem
        obtain ⟨out, hout, rfl⟩ := Option.map_eq_some_iff.mp hs
        exact ⟨out, _, rfl, rfl, rfl, rfl, List.perm_cons_erase hmem,
          fun used _ => onMessage_effect (hids _) hout⟩
      · cases hs
    | timer p id env =>
      simp only at hs
      split at hs
      · obtain ⟨out, hout, rfl⟩ := Option.map_eq_some_iff.mp hs
        exact ⟨out, _, rfl, rfl, rfl, rfl, List.Perm.refl _,
          fun used hu => onTimer_effect (hids _) hu hout⟩
      · cases hs
  · rw [if_neg hfr] at hs
    cases hs

/-- **Every step of the cluster is a step of the network.** -/
theorem step_net (hR : c.Regular) (hs : Cluster.step cfg c a = some c') :
    NetStep cfg c.net a.label.1 a.label.2 c'.net ∧ c'.Regular := by
  obtain ⟨hfr, out, d, rfl, hd, hsent, huid, hperm, he⟩ := step_cases hR.pendingIds hs
  have hused : ¬ c.net.used ⟨a.label.1, a.env.uid⟩ := by
    rintro ⟨q, cmd, hcmd, hid⟩
    refine hfr.1 ?_
    have := hR.uids q cmd hcmd
    rwa [hid] at this
  have hother : ∀ q, q ≠ a.label.1 → (d.update a.label.1 a.env out).replicas q = c.replicas q :=
    fun q hq => by simp [Cluster.update, hd, hq]
  have hself : (d.update a.label.1 a.env out).replicas a.label.1 = out.state := by
    simp [Cluster.update]
  refine ⟨⟨_, _, d.network, he _ hused, hperm, ?_⟩, fun q => ?_, fun q cmd hcmd => ?_⟩
  · have hrep : (fun q => ((d.update a.label.1 a.env out).replicas q).progress) =
        Function.update (fun q => (c.replicas q).progress) a.label.1 out.state.progress := by
      funext q
      by_cases hq : q = a.label.1
      · subst hq; rw [hself, Function.update_self]
      · rw [hother q hq, Function.update_of_ne hq]
    unfold Cluster.net
    rw [hrep, ← hsent]
    rfl
  · by_cases hq : q = a.label.1
    · subst hq
      rw [hself]
      exact (he _ hused).pendingIds (hR.pendingIds _)
    · rw [hother q hq]
      exact hR.pendingIds q
  · show cmd.id.id ∈ a.env.uid :: d.uids
    rw [huid, List.mem_cons]
    by_cases hq : q = a.label.1
    · subst hq
      rw [hself] at hcmd
      rcases (he (· ≠ ⟨a.label.1, a.env.uid⟩) (by simp)).announced cmd hcmd with h | ⟨-, h, -⟩
      · exact .inr (hR.uids _ cmd h)
      · exact .inl (by rw [not_not.mp h])
    · rw [hother q hq] at hcmd
      exact .inr (hR.uids q cmd hcmd)

theorem regular_init (cfg : Config) : (Cluster.init cfg).Regular :=
  ⟨fun p i l h => (by cases h), fun p cmd h => (by cases h)⟩

theorem regular_of_reachable (h : Cluster.ReachableBy cfg ok c) : c.Regular :=
  h.invariant (regular_init cfg) fun _ _ _ _ _ hR hs => (step_net hR hs).2

/-- **Invariants of the network** hold of every reachable cluster. -/
theorem net_invariant {I : Net → Prop} (h₀ : I (Cluster.init cfg).net)
    (hstep : ∀ (c : Cluster) (a : Action) (c' : Cluster),
      Cluster.ReachableBy cfg ok c → ok c a → I c.net →
      NetStep cfg c.net a.label.1 a.label.2 c'.net → I c'.net)
    (h : Cluster.ReachableBy cfg ok c) : I c.net :=
  h.invariant (I := fun c => I c.net) h₀ fun c a c' hr hok hi hs =>
    hstep c a c' hr hok hi (step_net (regular_of_reachable hr) hs).1

end Simulation

end Blsmr
