import Blsmr.Replica.Announce

/-!
# Commands left waiting

The force timer of a Wintermute command fires once. After it, only the last of all replies
is tested, so that a quorum completed by an earlier one goes unnoticed: `InTime` is the
condition under which no command is left waiting with a quorum (`not_left_waiting`).
-/

namespace Blsmr

open Blsmr.Transition

namespace DDS

/-- `schedule_timer_after` hands out a timer that is not in use. -/
def Event.Fresh (self : DDS) : Event → Prop
  | .announce env _ => env.forceTimer ∉ self.announceForceTimers
  | _ => True

/-- A command goes on waiting after its force timer although its replies are a quorum. -/
def LeftWaiting (self : DDS) : Prop :=
  ∃ cmdId quorum, self.pendingAnnounceQuorums.lookup cmdId = some quorum ∧
    ¬ self.Timed cmdId ∧ self.isQuorum quorum = true

/-- A reply that comes after the force timer and completes a quorum is the last of all. -/
def InTime (cfg : Config) (self : DDS) : Event → Prop
  | .deliver _ _ (.res res) => ∀ quorum ∈ self.pendingAnnounceQuorums.lookup res.id,
      ¬ self.Timed res.id → self.isQuorum (quorum ++ [res]) = true →
      quorum.length + 1 = cfg.pool.length
  | _ => True

instance (self : DDS) : ∀ e : Event, Decidable (e.Fresh self)
  | .announce env _ => inferInstanceAs (Decidable (env.forceTimer ∉ self.announceForceTimers))
  | .deliver .. => .isTrue trivial
  | .timer _ => .isTrue trivial

instance (cfg : Config) (self : DDS) : ∀ e : Event, Decidable (self.InTime cfg e)
  | .deliver _ _ (.res res) => inferInstanceAs (Decidable (∀ quorum ∈
      self.pendingAnnounceQuorums.lookup res.id, ¬ self.Timed res.id →
      self.isQuorum (quorum ++ [res]) = true → quorum.length + 1 = cfg.pool.length))
  | .deliver _ _ (.req _) => .isTrue trivial
  | .deliver _ _ (.commit _ _) => .isTrue trivial
  | .announce .. => .isTrue trivial
  | .timer _ => .isTrue trivial

section

variable {cfg : Config} {me : Pid} {d d' : DDS} {status : AnnounceStatus}

/-- Nothing is left waiting that was not before, as long as what is pending and untimed has
been so before. -/
theorem not_leftWaiting_of_sub (hd : ¬ d.LeftWaiting) (hbqs : d'.bqs = d.bqs)
    (hsub : ∀ cmdId quorum, d'.pendingAnnounceQuorums.lookup cmdId = some quorum →
      ¬ d'.Timed cmdId → d'.isQuorum quorum = true →
      d.pendingAnnounceQuorums.lookup cmdId = some quorum ∧ ¬ d.Timed cmdId) :
    ¬ d'.LeftWaiting := by
  rintro ⟨cmdId, quorum, hq, ht, hQ⟩
  obtain ⟨hq', ht'⟩ := hsub cmdId quorum hq ht hQ
  refine hd ⟨cmdId, quorum, hq', ht', ?_⟩
  unfold isQuorum at hQ ⊢
  rwa [hbqs] at hQ

theorem not_leftWaiting_announce (hw : cfg.protocolType = .wintermute) (hd : ¬ d.LeftWaiting)
    {env : Env} (cmd : Command) (hf : env.forceTimer ∉ d.announceForceTimers) :
    ¬ (d.announce cfg env cmd).1.LeftWaiting := by
  have htimers : (d.announce cfg env cmd).1.announceForceTimers =
      d.announceForceTimers.insert env.forceTimer cmd.id := announce_timers hw cmd
  have hbqs : (d.announce cfg env cmd).1.bqs = d.bqs := by
    unfold announce sendAnnounce prepareAnnounce
    rw [hw]
  refine not_leftWaiting_of_sub hd hbqs fun cmdId quorum hq ht _ => ?_
  rw [timed_iff, htimers] at ht
  rw [announce_pending] at hq
  rcases lookup_of_insert hq with ⟨rfl, -⟩ | ⟨-, hq⟩
  · exact absurd ⟨env.forceTimer, AList.lookup_insert _⟩ ht
  · refine ⟨hq, fun ht' => ?_⟩
    obtain ⟨id, hid⟩ := timed_iff.mp ht'
    refine ht ⟨id, (AList.lookup_insert_ne fun heq => hf ?_).trans hid⟩
    exact heq ▸ AList.lookup_isSome.mp (by rw [hid]; rfl)

theorem not_leftWaiting_timer (hd : ¬ d.LeftWaiting) {id : TimerId}
    (h : d.handle cfg me (.timer id) = some (d', status)) : ¬ d'.LeftWaiting := by
  obtain ⟨cmdId, hid, htimers, hbqs, hcase⟩ := handle_timer h
  refine not_leftWaiting_of_sub hd hbqs fun cmdId' quorum' hq ht hQ => ?_
  rw [timed_iff, htimers] at ht
  have hsame : cmdId' ≠ cmdId → ¬ d.Timed cmdId' := fun hne ht' => by
    obtain ⟨id', hid'⟩ := timed_iff.mp ht'
    refine ht ⟨id', (AList.lookup_erase_ne fun heq => hne ?_).trans hid'⟩
    rw [heq, hid] at hid'
    exact (Option.some.inj hid').symm
  rcases hcase with ⟨hnone, -, hp⟩ | ⟨quorum, hsome, ⟨hno, -, hp⟩ | ⟨-, hp, -⟩⟩ <;> rw [hp] at hq
  · refine ⟨hq, hsame fun heq => ?_⟩
    rw [heq, hnone] at hq
    cases hq
  · refine ⟨hq, hsame fun heq => ?_⟩
    rw [heq, hsome] at hq
    cases hq
    unfold isQuorum at hno hQ
    rw [hbqs, hno] at hQ
    cases hQ
  · obtain ⟨hne, hq⟩ := lookup_of_erase hq
    exact ⟨hq, hsame hne⟩

/-- A reply leaves its command waiting if it comes after the timer, completes the quorum and
is not the last one. -/
theorem leftWaiting_reply (hw : cfg.protocolType = .wintermute) (hd : ¬ d.LeftWaiting)
    {env : Env} {src : Pid} {res : Res}
    (h : d.handle cfg me (.deliver env src (.res res)) = some (d', status)) :
    d'.LeftWaiting ↔ ¬ d.InTime cfg (.deliver env src (.res res)) := by
  cases hq : d.pendingAnnounceQuorums.lookup res.id with
  | none =>
    rw [handle_straggler hq] at h
    cases h
    refine iff_of_false hd (not_not_intro fun quorum h => ?_)
    rw [hq] at h
    exact absurd h (Option.not_mem_none quorum)
  | some quorum =>
    have htime : d.InTime cfg (.deliver env src (.res res)) ↔ (¬ d.Timed res.id →
        d.isQuorum (quorum ++ [res]) = true → quorum.length + 1 = cfg.pool.length) := by
      unfold InTime
      simp only [hq, Option.mem_some_iff, forall_eq']
    have hready : d.isReady cfg (quorum ++ [res]) = true ↔
        quorum.length + 1 = cfg.pool.length := by
      unfold isReady
      rw [hw]
      simp
    rw [htime]
    cases hr : d.isReady cfg (quorum ++ [res]) with
    | true =>
      rw [handle_ready hq hr] at h
      obtain ⟨fast, -, h⟩ := Option.map_eq_some_iff.mp h
      cases h
      refine iff_of_false ?_ (not_not_intro fun _ _ => hready.mp hr)
      exact not_leftWaiting_of_sub hd rfl fun cmdId quorum' hq' ht _ =>
        ⟨(lookup_of_erase hq').2, ht⟩
    | false =>
      rw [handle_kept hq hr] at h
      cases h
      constructor
      · rintro ⟨cmdId, quorum', hq', ht, hQ⟩ hin
        rcases lookup_of_insert hq' with ⟨rfl, rfl⟩ | ⟨-, hq'⟩
        · rw [hready.mpr (hin ht hQ)] at hr
          cases hr
        · exact hd ⟨cmdId, quorum', hq', ht, hQ⟩
      · intro hnot
        simp only [Classical.not_imp] at hnot
        exact ⟨res.id, quorum ++ [res], AList.lookup_insert _, hnot.1, hnot.2.1⟩

/-- **One event** leaves a command waiting if and only if it is a reply that is not in time. -/
theorem leftWaiting_step (hw : cfg.protocolType = .wintermute) (hd : ¬ d.LeftWaiting)
    {e : Event} (hf : e.Fresh d) (hs : d.step cfg me e = some d') :
    d'.LeftWaiting ↔ ¬ d.InTime cfg e := by
  obtain ⟨⟨d'', status⟩, hh, rfl⟩ := Option.map_eq_some_iff.mp hs
  cases e with
  | announce env cmd =>
    simp only [handle, Option.some.injEq, Prod.mk.injEq] at hh
    obtain ⟨rfl, -⟩ := hh
    exact iff_of_false (not_leftWaiting_announce hw hd cmd hf) (not_not_intro trivial)
  | timer id => exact iff_of_false (not_leftWaiting_timer hd hh) (not_not_intro trivial)
  | deliver env src msg =>
    by_cases hmsg : ∃ res, msg = .res res
    · obtain ⟨res, rfl⟩ := hmsg
      exact leftWaiting_reply hw hd hh
    · have hmsg : ∀ res, msg ≠ .res res := fun res h => hmsg ⟨res, h⟩
      obtain ⟨hp, ht, hb, -⟩ := handle_other hmsg hh
      refine iff_of_false (not_leftWaiting_of_sub hd hb fun cmdId quorum hq hnt _ => ?_) ?_
      · unfold Timed at hnt ⊢
        rw [ht] at hnt
        exact ⟨hp ▸ hq, hnt⟩
      · cases msg with
        | res res => exact absurd rfl (hmsg res)
        | _ => exact not_not_intro trivial

end

/-- **No Wintermute command is left waiting with a quorum** in a run whose replies are in
time, and a run that leaves one waiting does so with the first reply that is not. -/
theorem not_left_waiting (cfg : Config) (hw : cfg.protocolType = .wintermute) (me : Pid) (d : DDS)
    (h : Transition.Reachable (DDS.step cfg me) (.default cfg)
      (fun d e => e.Fresh d ∧ d.InTime cfg e) d) :
    ¬ d.LeftWaiting ∧ ∀ e d', e.Fresh d → d.step cfg me e = some d' →
      (d'.LeftWaiting ↔ ¬ d.InTime cfg e) := by
  have hd : ¬ d.LeftWaiting := by
    refine h.invariant (I := fun d => ¬ d.LeftWaiting) ?_ fun d e d' _ hok hd hs => ?_
    · rintro ⟨cmdId, quorum, hq, -⟩
      rw [show (DDS.default cfg).pendingAnnounceQuorums.lookup cmdId = none from rfl] at hq
      cases hq
    · exact fun hd' => (leftWaiting_step hw hd hok.1 hs).mp hd' hok.2
  exact ⟨hd, fun e d' hf hs => leftWaiting_step hw hd hf hs⟩

/-- Three of four replies come before the force timer. -/
theorem not_left_waiting_four :
    let cfg : Config := .standard .wintermute [0, 1, 2, 3]
    let cmd : Command := ⟨⟨0, 0⟩, 7⟩
    let reply (p : Pid) : Event := .deliver (.counting 9) p (.res ⟨p, cmd.id, []⟩)
    ∃ d, Transition.exec (DDS.step cfg 0) (fun d e => decide (e.Fresh d ∧ d.InTime cfg e))
      (.default cfg) [.announce (.counting 1) cmd, reply 0, reply 1, reply 2, .timer 2, reply 3] =
        some d ∧ ¬ d.LeftWaiting := by
  intro cfg cmd reply
  have hrun : (Transition.exec (DDS.step cfg 0) (fun d e => decide (e.Fresh d ∧ d.InTime cfg e))
      (.default cfg) [.announce (.counting 1) cmd, reply 0, reply 1, reply 2, .timer 2,
        reply 3]).isSome = true := by decide +kernel
  obtain ⟨d, hd⟩ := Option.isSome_iff_exists.mp hrun
  exact ⟨d, hd, (not_left_waiting cfg rfl 0 d
    (Reachable.exec (fun _ _ => of_decide_eq_true) .init hd)).1⟩

/-- The force timer fires after two of four replies, and the third reply, which makes a
quorum, leaves the command waiting. -/
theorem third_reply_left_waiting :
    ∃ d, Transition.Reachable (DDS.step (.standard .wintermute [0, 1, 2, 3]) 0)
      (.default (.standard .wintermute [0, 1, 2, 3])) (fun d e => e.Fresh d) d ∧
      d.LeftWaiting := by
  let cfg : Config := .standard .wintermute [0, 1, 2, 3]
  let cmd : Command := ⟨⟨0, 0⟩, 7⟩
  let reply (p : Pid) : Event := .deliver (.counting 9) p (.res ⟨p, cmd.id, []⟩)
  let quorum : List Res := [⟨0, cmd.id, []⟩, ⟨1, cmd.id, []⟩, ⟨2, cmd.id, []⟩]
  have hrun : (Transition.exec (DDS.step cfg 0) (fun d e => decide (e.Fresh d)) (.default cfg)
      [.announce (.counting 1) cmd, reply 0, reply 1, .timer 2, reply 2]).any (fun d =>
        decide (d.pendingAnnounceQuorums.lookup cmd.id = some quorum ∧ ¬ d.Timed cmd.id ∧
          d.isQuorum quorum = true)) = true := by decide +kernel
  obtain ⟨d, hd, h⟩ := (Option.any_eq_true _ _).mp hrun
  exact ⟨d, Reachable.exec (fun _ _ => of_decide_eq_true) .init hd, cmd.id, quorum,
    of_decide_eq_true h⟩

end DDS

end Blsmr
