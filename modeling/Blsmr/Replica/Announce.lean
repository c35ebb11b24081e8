import Blsmr.Replica.Cluster

/-!
# Collecting replies

A coordinator's `DDS` on its own: it announces commands, is handed messages with any
contents from any sender, and its force timers fire. `handle_cases` says what an event does
to the replies that are collected, and `Collecting` follows the replies to one command.
-/

namespace Blsmr

open Blsmr.Transition

namespace DDS

/-- What a coordinator does or is handed. -/
inductive Event where
  | announce (env : Env) (cmd : Command)
  | deliver (env : Env) (src : Pid) (msg : Announce)
  | timer (id : TimerId)

/-- One event and what it returns; `none` if it panics. -/
def handle (cfg : Config) (me : Pid) (self : DDS) : Event → Option (DDS × AnnounceStatus)
  | .announce env cmd => some ((self.announce cfg env cmd).1, .doNothing)
  | .deliver env src msg =>
    (self.onMessage cfg me env src msg).map fun (dds, status, _) => (dds, status)
  | .timer id => self.onTimer cfg id

def step (cfg : Config) (me : Pid) (self : DDS) (e : Event) : Option DDS :=
  (self.handle cfg me e).map Prod.fst

/-- The force timer of the command is still to fire. -/
def Timed (self : DDS) (cmdId : CmdId) : Prop :=
  ∃ e ∈ self.announceForceTimers.entries, e.2 = cmdId

instance (self : DDS) (cmdId : CmdId) : Decidable (self.Timed cmdId) := by
  unfold Timed
  infer_instance

section

variable {cfg : Config} {me : Pid} {d d' : DDS} {cmdId : CmdId} {status : AnnounceStatus}
  {env : Env} {src : Pid}

theorem timed_iff : d.Timed cmdId ↔ ∃ id, d.announceForceTimers.lookup id = some cmdId := by
  unfold Timed
  constructor
  · rintro ⟨⟨id, cmd⟩, he, rfl⟩
    exact ⟨id, AList.mem_lookup_iff.mpr he⟩
  · rintro ⟨id, h⟩
    exact ⟨⟨id, cmdId⟩, AList.mem_lookup_iff.mp h, rfl⟩

/-! ## What an event does -/

theorem announce_pending (cmd : Command) : (d.announce cfg env cmd).1.pendingAnnounceQuorums =
    d.pendingAnnounceQuorums.insert cmd.id [] := by
  unfold announce sendAnnounce prepareAnnounce
  cases cfg.protocolType <;> rfl

theorem announce_isQuorum (cmd : Command) (pids : List Pid) :
    (d.announce cfg env cmd).1.bqs.isQuorum pids = d.bqs.isQuorum pids := by
  unfold announce sendAnnounce prepareAnnounce
  cases cfg.protocolType with
  | threeJane => exact QuorumSystem.isQuorum_chooseRandomQuorum _ _ _
  | _ => rfl

theorem announce_timers (hw : cfg.protocolType = .wintermute) (cmd : Command) :
    (d.announce cfg env cmd).1.announceForceTimers =
      d.announceForceTimers.insert env.forceTimer cmd.id := by
  unfold announce sendAnnounce prepareAnnounce
  rw [hw]

theorem handle_other {msg : Announce} (hmsg : ∀ res, msg ≠ .res res)
    (h : d.handle cfg me (.deliver env src msg) = some (d', status)) :
    d'.pendingAnnounceQuorums = d.pendingAnnounceQuorums ∧
      d'.announceForceTimers = d.announceForceTimers ∧ d'.bqs = d.bqs ∧ status = .doNothing := by
  cases msg with
  | res res => exact absurd rfl (hmsg res)
  | req cmd =>
    simp only [handle, onMessage, Option.map_some, Option.some.injEq, Prod.mk.injEq] at h
    obtain ⟨rfl, rfl⟩ := h
    exact ⟨rfl, rfl, rfl, rfl⟩
  | commit i deps =>
    simp only [handle, onMessage, DDS.commit, Option.map_map, Option.map_eq_some_iff,
      Function.comp_apply, Prod.mk.injEq] at h
    obtain ⟨log, -, rfl, rfl⟩ := h
    exact ⟨rfl, rfl, rfl, rfl⟩

theorem handle_straggler {res : Res} (hq : d.pendingAnnounceQuorums.lookup res.id = none) :
    d.handle cfg me (.deliver env src (.res res)) = some (d, .doNothing) := by
  unfold handle onMessage
  simp only
  rw [hq]
  rfl

theorem handle_kept {res : Res} {quorum : List Res}
    (hq : d.pendingAnnounceQuorums.lookup res.id = some quorum)
    (hr : d.isReady cfg (quorum ++ [res]) = false) :
    d.handle cfg me (.deliver env src (.res res)) = some ({ d with
      pendingAnnounceQuorums := d.pendingAnnounceQuorums.insert res.id (quorum ++ [res]) },
      .doNothing) := by
  unfold handle onMessage
  simp only
  rw [hq]
  simp only [hr]
  rfl

theorem handle_ready {res : Res} {quorum : List Res}
    (hq : d.pendingAnnounceQuorums.lookup res.id = some quorum)
    (hr : d.isReady cfg (quorum ++ [res]) = true) :
    d.handle cfg me (.deliver env src (.res res)) =
      (allowFastpath cfg (quorum ++ [res])).map fun fast => ({ d with
        pendingAnnounceQuorums := d.pendingAnnounceQuorums.erase res.id },
        .quorumReady ⟨quorum ++ [res], fast⟩) := by
  unfold handle onMessage
  simp only
  rw [hq]
  simp only [hr, if_true, Option.map_map]
  rfl

theorem handle_timer {id : TimerId} (h : d.handle cfg me (.timer id) = some (d', status)) :
    ∃ cmdId, d.announceForceTimers.lookup id = some cmdId ∧
      d'.announceForceTimers = d.announceForceTimers.erase id ∧ d'.bqs = d.bqs ∧
      (d.pendingAnnounceQuorums.lookup cmdId = none ∧ status = .doNothing ∧
          d'.pendingAnnounceQuorums = d.pendingAnnounceQuorums ∨
        ∃ quorum, d.pendingAnnounceQuorums.lookup cmdId = some quorum ∧
          (d.isQuorum quorum = false ∧ status = .doNothing ∧
              d'.pendingAnnounceQuorums = d.pendingAnnounceQuorums ∨
            d.isQuorum quorum = true ∧
              d'.pendingAnnounceQuorums = d.pendingAnnounceQuorums.erase cmdId ∧
              ∃ fast, status = .quorumReady ⟨quorum, fast⟩)) := by
  simp only [handle, onTimer, Option.bind_eq_bind, Option.bind_eq_some_iff] at h
  obtain ⟨cmdId, hid, h⟩ := h
  cases hq : d.pendingAnnounceQuorums.lookup cmdId with
  | none =>
    rw [hq] at h
    cases h
    exact ⟨cmdId, hid, rfl, rfl, .inl ⟨hq, rfl, rfl⟩⟩
  | some quorum =>
    rw [hq] at h
    simp only at h
    rw [show isQuorum { d with announceForceTimers := d.announceForceTimers.erase id } quorum =
      d.isQuorum quorum from rfl] at h
    cases hQ : d.isQuorum quorum with
    | true =>
      rw [if_pos hQ, Option.bind_eq_some_iff] at h
      obtain ⟨fast, -, h⟩ := h
      cases h
      exact ⟨cmdId, hid, rfl, rfl, .inr ⟨quorum, hq, .inr ⟨hQ, rfl, fast, rfl⟩⟩⟩
    | false =>
      rw [if_neg (ne_true_of_eq_false hQ)] at h
      cases h
      exact ⟨cmdId, hid, rfl, rfl, .inr ⟨quorum, hq, .inl ⟨hQ, rfl, rfl⟩⟩⟩

/-- **What an event does** to the replies that are collected. -/
theorem handle_cases {e : Event} (h : d.handle cfg me e = some (d', status)) :
    (∃ env cmd, e = .announce env cmd ∧ status = .doNothing ∧
      d'.pendingAnnounceQuorums = d.pendingAnnounceQuorums.insert cmd.id []) ∨
    (status = .doNothing ∧ d'.pendingAnnounceQuorums = d.pendingAnnounceQuorums ∧
      (∀ env cmd, e ≠ .announce env cmd) ∧
      ∀ env src res, e = .deliver env src (.res res) →
        d.pendingAnnounceQuorums.lookup res.id = none) ∨
    (∃ env src res quorum, e = .deliver env src (.res res) ∧
      d.pendingAnnounceQuorums.lookup res.id = some quorum ∧
      (d.isReady cfg (quorum ++ [res]) = false ∧ status = .doNothing ∧
          d'.pendingAnnounceQuorums = d.pendingAnnounceQuorums.insert res.id (quorum ++ [res]) ∨
        d.isReady cfg (quorum ++ [res]) = true ∧
          d'.pendingAnnounceQuorums = d.pendingAnnounceQuorums.erase res.id ∧
          ∃ fast, allowFastpath cfg (quorum ++ [res]) = some fast ∧
            status = .quorumReady ⟨quorum ++ [res], fast⟩)) ∨
    (∃ id cmdId quorum, e = .timer id ∧ d.announceForceTimers.lookup id = some cmdId ∧
      d.pendingAnnounceQuorums.lookup cmdId = some quorum ∧ d.isQuorum quorum = true ∧
      d'.pendingAnnounceQuorums = d.pendingAnnounceQuorums.erase cmdId ∧
      ∃ fast, status = .quorumReady ⟨quorum, fast⟩) := by
  cases e with
  | announce env cmd =>
    simp only [handle, Option.some.injEq, Prod.mk.injEq] at h
    obtain ⟨rfl, rfl⟩ := h
    exact .inl ⟨env, cmd, rfl, rfl, announce_pending cmd⟩
  | timer id =>
    obtain ⟨cmdId, hid, -, -, hcase⟩ := handle_timer h
    rcases hcase with ⟨-, rfl, hp⟩ | ⟨quorum, hq, ⟨-, rfl, hp⟩ | ⟨hQ, hp, fast, rfl⟩⟩
    · exact .inr (.inl ⟨rfl, hp, by rintro _ _ ⟨⟩, by rintro _ _ _ ⟨⟩⟩)
    · exact .inr (.inl ⟨rfl, hp, by rintro _ _ ⟨⟩, by rintro _ _ _ ⟨⟩⟩)
    · exact .inr (.inr (.inr ⟨id, cmdId, quorum, rfl, hid, hq, hQ, hp, fast, rfl⟩))
  | deliver env src msg =>
    by_cases hmsg : ∃ res, msg = .res res
    · obtain ⟨res, rfl⟩ := hmsg
      cases hq : d.pendingAnnounceQuorums.lookup res.id with
      | none =>
        rw [handle_straggler hq] at h
        cases h
        refine .inr (.inl ⟨rfl, rfl, ?_, ?_⟩)
        · rintro _ _ ⟨⟩
        · rintro _ _ _ ⟨⟩
          exact hq
      | some quorum =>
        refine .inr (.inr (.inl ⟨env, src, res, quorum, rfl, hq, ?_⟩))
        cases hr : d.isReady cfg (quorum ++ [res]) with
        | false =>
          rw [handle_kept hq hr] at h
          cases h
          exact .inl ⟨rfl, rfl, rfl⟩
        | true =>
          rw [handle_ready hq hr] at h
          obtain ⟨fast, hfast, h⟩ := Option.map_eq_some_iff.mp h
          cases h
          exact .inr ⟨rfl, rfl, fast, hfast, rfl⟩
    · obtain ⟨hp, -, -, hst⟩ := handle_other (fun res heq => hmsg ⟨res, heq⟩) h
      refine .inr (.inl ⟨hst, hp, ?_, ?_⟩)
      · rintro _ _ ⟨⟩
      · rintro _ _ res ⟨⟩
        exact absurd ⟨res, rfl⟩ hmsg

end

/-! ## Following one command -/

/-- The reply to the command that an event brings. -/
def Event.replies (cmdId : CmdId) : Event → List Res
  | .deliver _ _ (.res res) => if res.id = cmdId then [res] else []
  | _ => []

/-- What is handed over for the command: the replies name it. -/
def readyFor (cmdId : CmdId) : AnnounceStatus → List QuorumReady
  | .doNothing => []
  | .quorumReady ready => if ready.quorum.head?.map Res.id = some cmdId then [ready] else []

/-- The event announces no command under this identifier, and is not its force timer while
fewer than `n` replies came. -/
def Event.Awaits (cfg : Config) (self : DDS) (cmdId : CmdId) (replies : List Res) : Event → Prop
  | .announce _ cmd => cmd.id ≠ cmdId
  | .timer id => self.announceForceTimers.lookup id = some cmdId →
      cfg.pool.length ≤ replies.length
  | .deliver .. => True

/-- A coordinator after some events: the replies to the command that came, and what was
handed over for it. -/
inductive Collecting (cfg : Config) (me : Pid) (cmdId : CmdId) (start : DDS) :
    List Res → List QuorumReady → DDS → Prop
  | start : Collecting cfg me cmdId start [] [] start
  | event {d d' : DDS} {e : Event} {status : AnnounceStatus} {replies : List Res}
      {out : List QuorumReady} (h : Collecting cfg me cmdId start replies out d)
      (haw : e.Awaits cfg d cmdId replies) (hs : d.handle cfg me e = some (d', status)) :
      Collecting cfg me cmdId start (replies ++ e.replies cmdId)
        (out ++ readyFor cmdId status) d'

/-- Replies are kept under the identifier they name. -/
def Keyed (self : DDS) : Prop :=
  ∀ cmdId quorum, self.pendingAnnounceQuorums.lookup cmdId = some quorum →
    ∀ res ∈ quorum, res.id = cmdId

section

variable {cfg : Config} {me : Pid} {d d' : DDS} {e : Event} {status : AnnounceStatus}
  {cmdId : CmdId} {replies : List Res} {out : List QuorumReady} {env : Env} {src : Pid}

theorem Keyed.insert (h : d.Keyed) {quorum : List Res} (hq : ∀ res ∈ quorum, res.id = cmdId)
    (hp : d'.pendingAnnounceQuorums = d.pendingAnnounceQuorums.insert cmdId quorum) :
    d'.Keyed := by
  intro id quorum' hq'
  rw [hp] at hq'
  rcases lookup_of_insert hq' with ⟨rfl, rfl⟩ | ⟨-, hq'⟩
  · exact hq
  · exact h id quorum' hq'

theorem Keyed.erase (h : d.Keyed)
    (hp : d'.pendingAnnounceQuorums = d.pendingAnnounceQuorums.erase cmdId) : d'.Keyed := by
  intro id quorum' hq'
  rw [hp] at hq'
  exact h id quorum' (lookup_of_erase hq').2

theorem Keyed.handle (h : d.Keyed) (hs : d.handle cfg me e = some (d', status)) : d'.Keyed := by
  rcases handle_cases hs with ⟨env, cmd, -, -, hp⟩ | ⟨-, hp, -, -⟩ |
    ⟨env, src, res, quorum, -, hq, ⟨-, -, hp⟩ | ⟨-, hp, -⟩⟩ | ⟨id, i, quorum, -, -, -, -, hp, -⟩
  · exact h.insert (by simp) hp
  · unfold Keyed
    rwa [hp]
  · refine h.insert (fun res' hres' => ?_) hp
    rcases List.mem_append.mp hres' with hres' | hres'
    · exact h res.id quorum hq res' hres'
    · rw [List.mem_singleton.mp hres']
  · exact h.erase hp
  · exact h.erase hp

theorem keyed_of_reachable
    (h : Transition.Reachable (DDS.step cfg me) (.default cfg) (fun _ _ => True) d) : d.Keyed := by
  refine h.invariant (fun _ _ hq => by cases hq) fun d e d' _ _ hd hs => ?_
  obtain ⟨⟨d'', status⟩, hh, rfl⟩ := Option.map_eq_some_iff.mp hs
  exact hd.handle hh

theorem Collecting.keyed {start : DDS} (hstart : start.Keyed)
    (h : Collecting cfg me cmdId start replies out d) : d.Keyed := by
  induction h with
  | start => exact hstart
  | event _ _ hs ih => exact ih.handle hs

theorem readyFor_other {i : CmdId} (hi : i ≠ cmdId) {ready : QuorumReady}
    (h : ∀ res ∈ ready.quorum, res.id = i) : readyFor cmdId (.quorumReady ready) = [] := by
  unfold readyFor
  refine if_neg fun hhead => ?_
  obtain ⟨res, hres, hid⟩ := Option.map_eq_some_iff.mp hhead
  exact hi ((h res (List.mem_of_mem_head? hres)).symm.trans hid)

/-- Replies are collected until they are `full`, and then handed over; what comes later is
ignored. -/
def UntilFull (cfg : Config) (full : List Res → Bool) (cmdId : CmdId) (replies : List Res)
    (out : List QuorumReady) (d : DDS) : Prop :=
  (∀ pre, pre ≠ [] → pre <+: replies → full pre = false) ∧
      d.pendingAnnounceQuorums.lookup cmdId = some replies ∧ out = [] ∨
    ∃ pre res post fast, replies = pre ++ res :: post ∧ full (pre ++ [res]) = true ∧
      (∀ pre', pre' ≠ [] → pre' <+: pre → full pre' = false) ∧
      d.pendingAnnounceQuorums.lookup cmdId = none ∧
      allowFastpath cfg (pre ++ [res]) = some fast ∧ out = [⟨pre ++ [res], fast⟩]

theorem UntilFull.straggler {full : List Res → Bool} (h : UntilFull cfg full cmdId replies out d)
    (hnone : d.pendingAnnounceQuorums.lookup cmdId = none)
    (hp : d'.pendingAnnounceQuorums = d.pendingAnnounceQuorums) (res : Res) :
    UntilFull cfg full cmdId (replies ++ [res]) out d' := by
  rcases h with ⟨-, hsome, -⟩ | ⟨pre, last, post, fast, rfl, hrest⟩
  · rw [hnone] at hsome
    cases hsome
  · refine .inr ⟨pre, last, post ++ [res], fast, by simp, ?_⟩
    rw [hp]
    exact hrest

theorem UntilFull.reply {full : List Res → Bool} {res : Res} {quorum : List Res}
    (h : UntilFull cfg full res.id replies out d)
    (hq : d.pendingAnnounceQuorums.lookup res.id = some quorum)
    (hids : ∀ r ∈ quorum ++ [res], r.id = res.id)
    (hcase : full (quorum ++ [res]) = false ∧ status = .doNothing ∧
        d'.pendingAnnounceQuorums = d.pendingAnnounceQuorums.insert res.id (quorum ++ [res]) ∨
      full (quorum ++ [res]) = true ∧
        d'.pendingAnnounceQuorums = d.pendingAnnounceQuorums.erase res.id ∧
        ∃ fast, allowFastpath cfg (quorum ++ [res]) = some fast ∧
          status = .quorumReady ⟨quorum ++ [res], fast⟩) :
    UntilFull cfg full res.id (replies ++ [res]) (out ++ readyFor res.id status) d' := by
  rcases h with ⟨hnot, hsome, rfl⟩ | ⟨-, -, -, -, -, -, -, hnone, -⟩
  · obtain rfl : replies = quorum := Option.some.inj (hsome.symm.trans hq)
    rcases hcase with ⟨hr, rfl, hp⟩ | ⟨hr, hp, fast, hfast, rfl⟩
    · refine .inl ⟨fun pre hne hpre => ?_, by rw [hp, AList.lookup_insert], rfl⟩
      rcases List.prefix_concat_iff.mp hpre with rfl | hpre
      · exact hr
      · exact hnot pre hne hpre
    · refine .inr ⟨replies, res, [], fast, rfl, hr, hnot, by rw [hp, AList.lookup_erase], hfast,
        if_pos ?_⟩
      cases hhead : (replies ++ [res]).head? with
      | none => simp at hhead
      | some r => exact congrArg some (hids r (List.mem_of_mem_head? hhead))
  · rw [hnone] at hq
    cases hq

/-- **The replies to one command** are handed over once, with the first that makes them
full. -/
theorem Collecting.untilFull {start : DDS} {full : List Res → Bool} (hstart : start.Keyed)
    (hpending : start.pendingAnnounceQuorums.lookup cmdId = some [])
    (hfull : ∀ replies out d quorum, Collecting cfg me cmdId start replies out d →
      d.isReady cfg quorum = full quorum)
    (htimer : ∀ replies out d id, Collecting cfg me cmdId start replies out d →
      Event.Awaits cfg d cmdId replies (.timer id) →
      d.announceForceTimers.lookup id = some cmdId →
      ∃ pre, pre ≠ [] ∧ pre <+: replies ∧ full pre = true)
    (h : Collecting cfg me cmdId start replies out d) :
    UntilFull cfg full cmdId replies out d := by
  induction h with
  | start =>
    exact .inl ⟨fun pre hne hpre => absurd (List.prefix_nil.mp hpre) hne, hpending, rfl⟩
  | @event d d' e status replies out h haw hs ih =>
    have hK := h.keyed hstart
    have hsame : e.replies cmdId = [] → readyFor cmdId status = [] →
        d'.pendingAnnounceQuorums.lookup cmdId = d.pendingAnnounceQuorums.lookup cmdId →
        UntilFull cfg full cmdId (replies ++ e.replies cmdId) (out ++ readyFor cmdId status) d' :=
      fun hr ho hp => by
        unfold UntilFull
        rw [hr, ho, hp, List.append_nil, List.append_nil]
        exact ih
    rcases handle_cases hs with ⟨env, cmd, rfl, rfl, hp⟩ | ⟨rfl, hp, -, hnone⟩ |
      ⟨env, src, res, quorum, rfl, hq, hcase⟩ | ⟨id, i, quorum, rfl, hid, hq, -, hp, fast, rfl⟩
    · exact hsame rfl rfl (by rw [hp, AList.lookup_insert_ne (Ne.symm haw)])
    · by_cases hr : ∃ env src res, e = .deliver env src (.res res) ∧ res.id = cmdId
      · obtain ⟨env, src, res, rfl, rfl⟩ := hr
        rw [show Event.replies res.id (.deliver env src (.res res)) = [res] from if_pos rfl,
          show readyFor res.id .doNothing = [] from rfl, List.append_nil]
        exact ih.straggler (hnone env src res rfl) hp res
      · refine hsame ?_ rfl (by rw [hp])
        cases e with
        | deliver env src msg =>
          cases msg with
          | res res => exact if_neg fun hid => hr ⟨env, src, res, rfl, hid⟩
          | _ => rfl
        | _ => rfl
    · have hids : ∀ r ∈ quorum ++ [res], r.id = res.id := fun r hr => by
        rcases List.mem_append.mp hr with hr | hr
        · exact hK res.id quorum hq r hr
        · rw [List.mem_singleton.mp hr]
      by_cases hid : res.id = cmdId
      · subst hid
        rw [show Event.replies res.id (.deliver env src (.res res)) = [res] from if_pos rfl]
        rw [hfull _ _ _ _ h] at hcase
        exact ih.reply hq hids hcase
      · refine hsame (if_neg hid) ?_ ?_
        · rcases hcase with ⟨-, rfl, -⟩ | ⟨-, -, fast, -, rfl⟩
          · rfl
          · exact readyFor_other hid hids
        · rcases hcase with ⟨-, -, hp⟩ | ⟨-, hp, -⟩
          · rw [hp, AList.lookup_insert_ne (Ne.symm hid)]
          · rw [hp, AList.lookup_erase_ne (Ne.symm hid)]
    · by_cases hi : i = cmdId
      · subst hi
        rcases ih with ⟨hnot, -, -⟩ | ⟨-, -, -, -, -, -, -, hnone, -⟩
        · obtain ⟨pre, hne, hpre, hyes⟩ := htimer _ _ _ _ h haw hid
          rw [hnot pre hne hpre] at hyes
          cases hyes
        · rw [hnone] at hq
          cases hq
      · exact hsame rfl (readyFor_other hi (hK i quorum hq))
          (by rw [hp, AList.lookup_erase_ne (Ne.symm hi)])

theorem allowFastpath_isSome {quorum : List Res} (h : quorum ≠ []) :
    (allowFastpath cfg quorum).isSome := by
  unfold allowFastpath
  by_cases hlen : quorum.length ≠ cfg.pool.length
  · rw [if_pos hlen]
    rfl
  · rw [if_neg hlen]
    cases quorum with
    | nil => exact absurd rfl h
    | cons first rest => rfl

theorem handle_reply_isSome {res : Res} :
    (d.handle cfg me (.deliver env src (.res res))).isSome := by
  cases hq : d.pendingAnnounceQuorums.lookup res.id with
  | none =>
    rw [handle_straggler hq]
    rfl
  | some quorum =>
    cases hr : d.isReady cfg (quorum ++ [res]) with
    | false =>
      rw [handle_kept hq hr]
      rfl
    | true =>
      rw [handle_ready hq hr, Option.isSome_map]
      exact allowFastpath_isSome (by simp)

end

end DDS

end Blsmr
