import Blsmr.Lib.Merged
import Blsmr.Log.Latency

/-!
# The latencies of several logs

The logs of all replicas share the latencies. A `Meter` takes the calls on them in the order
in which they are made, each at its time. `history` and `stabilised` list the calls and the
commands that became stable; the code keeps no such lists. `Metered` says that no more than
these two are needed to tell the latencies: one for each command of each log, from the first
call about it to the call that made it stable.
-/

namespace Blsmr

/-- A call on the log of `pid`. -/
structure LoggedCall where
  pid : Pid
  time : Jiffies
  call : LogCall

/-- The command `cmdId` became stable at `pid`. -/
structure Stabilised where
  pid : Pid
  cmdId : CmdId
  time : Jiffies
  deriving DecidableEq, Repr

def Stabilised.command (x : Stabilised) : Pid × CmdId := (x.pid, x.cmdId)

/-- The commands that become stable while `log` becomes `log'`. -/
def stabilisedBy (log log' : CmdLog) : List CmdId :=
  (log'.stable.take (log'.stable.length - log.stable.length)).reverse

/-- The calls on the log of `pid`. -/
def callsOf (history : List LoggedCall) (pid : Pid) : List LogCall :=
  (history.filter fun e => e.pid = pid).map LoggedCall.call

/-- The first call about `cmdId` on the log of `pid`. -/
def firstCall (history : List LoggedCall) (pid : Pid) (cmdId : CmdId) : Option LoggedCall :=
  history.find? fun e => e.pid = pid ∧ e.call.cmdId = cmdId

structure Meter where
  logs : Pid → TimedLog
  latencies : Latencies
  history : List LoggedCall
  stabilised : List Stabilised

namespace Meter

def init : Meter := ⟨fun _ => .empty, .init, [], []⟩

/-- The meter after a call that leads to `log`. -/
def after (self : Meter) (e : LoggedCall) (log : TimedLog) (latencies : Latencies) : Meter where
  logs := Function.update self.logs e.pid log
  latencies := latencies
  history := self.history ++ [e]
  stabilised := self.stabilised ++
    (stabilisedBy (self.logs e.pid).log log.log).map fun id => ⟨e.pid, id, e.time⟩

/-- One call on one of the logs. -/
def call (self : Meter) (e : LoggedCall) : Option Meter :=
  (TimedLog.call e.pid e.time (self.logs e.pid, self.latencies) e.call).map fun (log, latencies) =>
    self.after e log latencies

/-- How long a command was in the log. -/
def waited (self : Meter) (x : Stabilised) : Jiffies :=
  x.time - ((firstCall self.history x.pid x.cmdId).map LoggedCall.time).getD 0

end Meter

/-! ## The history -/

section History

variable {history : List LoggedCall} {e : LoggedCall} {p : Pid} {id : CmdId}

theorem callsOf_snoc : callsOf (history ++ [e]) p =
    callsOf history p ++ if e.pid = p then [e.call] else [] := by
  rw [callsOf, List.filter_append, List.map_append]
  by_cases hp : e.pid = p <;> simp [callsOf, hp]

theorem firstCall_snoc : firstCall (history ++ [e]) p id =
    (firstCall history p id).or (if e.pid = p ∧ e.call.cmdId = id then some e else none) := by
  rw [firstCall, List.find?_append]
  congr 1
  by_cases h : e.pid = p ∧ e.call.cmdId = id <;> simp [h]

theorem firstCall_kept {first : LoggedCall} (h : firstCall history p id = some first) :
    firstCall (history ++ [e]) p id = some first := by
  rw [firstCall_snoc, h, Option.some_or]

theorem firstCall_mem (h : firstCall history p id = some e) :
    e.pid = p ∧ e.call.cmdId = id ∧ e.call ∈ callsOf history p := by
  have hmem := List.mem_of_find?_eq_some h
  obtain ⟨hp, hid⟩ := of_decide_eq_true (List.find?_some
    (p := fun e : LoggedCall => decide (e.pid = p ∧ e.call.cmdId = id)) h)
  exact ⟨hp, hid, List.mem_map_of_mem (List.mem_filter.mpr ⟨hmem, decide_eq_true hp⟩)⟩

theorem map_firstCall (history : List LoggedCall) (p : Pid) (id : CmdId) :
    (firstCall history p id).map LoggedCall.call =
      (callsOf history p).find? fun c => c.cmdId = id := by
  rw [callsOf, List.find?_map, List.find?_filter, firstCall]
  congr 2
  funext e
  simp

theorem firstCall_created (hfresh : CreatesFresh (callsOf history p))
    (hcreate : .recordCreation id ∈ callsOf history p) (h : firstCall history p id = some e) :
    e.call = .recordCreation id := by
  obtain ⟨pre, post, hsplit⟩ := List.append_of_mem hcreate
  have hnone : (pre.find? fun c => decide (c.cmdId = id)) = none := by
    refine List.find?_eq_none.mpr fun c hc hid => hfresh pre id post hsplit ?_
    exact List.mem_map.mpr ⟨c, hc, of_decide_eq_true hid⟩
  have hfirst := map_firstCall history p id
  rw [h, hsplit, List.find?_append, hnone, Option.none_or,
    List.find?_cons_of_pos (by simp [LogCall.cmdId])] at hfirst
  exact Option.some.inj hfirst

end History

/-! ## What the meter shows -/

/-- **The latencies are those of the commands stable so far**, up to the time `now`. -/
structure Metered (now : Jiffies) (m : Meter) : Prop where
  run : ∀ p, CmdLog.run (callsOf m.history p) = some (m.logs p).log
  fresh : ∀ p, CreatesFresh (callsOf m.history p)
  stamped : ∀ p, TimedLog.Stamped now (m.logs p)
  since : ∀ p id since, (m.logs p).submittedAt.lookup id = some since →
    (firstCall m.history p id).map LoggedCall.time = some since
  known : ∀ p id, (firstCall m.history p id).isSome →
    id ∈ (m.logs p).log.stable ∨ ((m.logs p).submittedAt.lookup id).isSome
  stable : Merged Prod.fst (fun p => (m.logs p).log.stable.reverse.map (Prod.mk p))
    (m.stabilised.map Stabilised.command)
  waits : ∀ x ∈ m.stabilised, ∃ e, firstCall m.history x.pid x.cmdId = some e ∧ e.time ≤ x.time
  latencies : m.latencies = Latencies.init.recordAll
    (m.stabilised.map fun x => (m.waited x, x.cmdId.pid == x.pid))

namespace Metered

variable {now now' : Jiffies} {m m' : Meter} {e : LoggedCall} {id : CmdId}

theorem init (now : Jiffies) : Metered now .init where
  run _ := rfl
  fresh _ := CreatesFresh.of_none fun _ => List.not_mem_nil
  stamped _ := ⟨fun _ => iff_of_false (by simp [Meter.init, TimedLog.empty, CmdLog.entryAt,
    CmdLog.empty]) (by simp [Meter.init, TimedLog.empty]), fun _ _ h => by cases h⟩
  since _ _ _ h := by cases h
  known _ _ h := by cases h
  stable := .nil fun _ => rfl
  waits _ h := by cases h
  latencies := rfl

theorem mono (h : Metered now m) (hle : now ≤ now') : Metered now' m :=
  { h with stamped := fun p => ⟨(h.stamped p).entry, fun id since hs =>
      ((h.stamped p).past id since hs).trans hle⟩ }

theorem first_touched (h : Metered e.time m) {since : Jiffies}
    (hs : ((m.logs e.pid).touched e.time e.call.cmdId).lookup id = some since) :
    (firstCall (m.history ++ [e]) e.pid id).map LoggedCall.time = some since := by
  have hold : (m.logs e.pid).submittedAt.lookup id = some since →
      (firstCall (m.history ++ [e]) e.pid id).map LoggedCall.time = some since := fun hs => by
    obtain ⟨first, hfirst, ht⟩ := Option.map_eq_some_iff.mp (h.since _ _ _ hs)
    rw [firstCall_kept hfirst, Option.map_some, ht]
  unfold TimedLog.touched at hs
  split at hs
  · exact hold hs
  · rename_i hst
    rw [TimedLog.lookup_stamp, Option.or_eq_some_iff] at hs
    rcases hs with hs | ⟨hnone, hs⟩
    · exact hold hs
    · obtain ⟨rfl, hs⟩ := Option.ite_none_right_eq_some.mp hs
      have hno : firstCall m.history e.pid e.call.cmdId = none := by
        by_contra hne
        rcases h.known _ _ (Option.isSome_iff_ne_none.mpr hne) with hk | hk
        · exact hst hk
        · rw [hnone] at hk
          cases hk
      rw [if_pos rfl] at hs
      rw [firstCall_snoc, hno, Option.none_or, if_pos ⟨rfl, rfl⟩, Option.map_some]
      exact hs

theorem shows (h : Metered now m) : m.latencies.count = m.stabilised.length ∧
    m.latencies.sum = (m.stabilised.map m.waited).sum ∧
    m.latencies.samples =
      (m.stabilised.filter fun x => x.cmdId.pid = x.pid).map m.waited := by
  obtain ⟨hsum, hcount, hsamples⟩ := Latencies.init.recordAll_spec
    (m.stabilised.map fun x => (m.waited x, x.cmdId.pid == x.pid))
  rw [h.latencies]
  refine ⟨?_, ?_, ?_⟩
  · rw [hcount, List.length_map, Latencies.init, Nat.zero_add]
  · rw [hsum, List.map_map, Latencies.init, Nat.zero_add]
    rfl
  · rw [hsamples, List.filter_map, List.map_map, Latencies.init, List.nil_append]
    rfl

/-! What the fields of `Metered` say after a call that stabilises `ids`. -/

section After

variable {t : TimedLog} {l : Latencies} {ids : List CmdId}

theorem stabilised_after (hM : TimedLog.Measured e.pid e.time e.call.cmdId ids (m.logs e.pid)
    m.latencies t l) : (m.after e t l).stabilised =
      m.stabilised ++ ids.map fun id => ⟨e.pid, id, e.time⟩ := by
  have hids : stabilisedBy (m.logs e.pid).log t.log = ids := by
    rw [stabilisedBy, hM.stable, List.length_append, Nat.add_sub_cancel, List.take_left,
      List.reverse_reverse]
  rw [Meter.after, hids]

theorem since_after (h : Metered e.time m) (hM : TimedLog.Measured e.pid e.time e.call.cmdId ids
      (m.logs e.pid) m.latencies t l) (p : Pid) (id : CmdId) (since : Jiffies)
    (hs : ((m.after e t l).logs p).submittedAt.lookup id = some since) :
    (firstCall (m.after e t l).history p id).map LoggedCall.time = some since := by
  simp only [Meter.after] at hs ⊢
  by_cases hp : p = e.pid
  · subst hp
    rw [Function.update_self, hM.submittedAt] at hs
    exact h.first_touched (Option.ite_none_left_eq_some.mp hs).2
  · rw [Function.update_of_ne hp] at hs
    obtain ⟨first, hfirst, ht⟩ := Option.map_eq_some_iff.mp (h.since p id since hs)
    rw [firstCall_kept hfirst, Option.map_some, ht]

theorem known_after (h : Metered e.time m) (hM : TimedLog.Measured e.pid e.time e.call.cmdId ids
      (m.logs e.pid) m.latencies t l) (p : Pid) (id : CmdId)
    (hs : (firstCall (m.after e t l).history p id).isSome) :
    id ∈ ((m.after e t l).logs p).log.stable ∨
      (((m.after e t l).logs p).submittedAt.lookup id).isSome := by
  simp only [Meter.after] at hs ⊢
  rw [firstCall_snoc, Option.isSome_or, Bool.or_eq_true] at hs
  by_cases hp : p = e.pid
  · subst hp
    rw [Function.update_self, hM.stable, hM.submittedAt, List.mem_append, List.mem_reverse]
    by_cases hid : id ∈ ids
    · exact .inl (.inl hid)
    by_cases hst : id ∈ (m.logs e.pid).log.stable
    · exact .inl (.inr hst)
    rw [if_neg hid]
    refine .inr ?_
    have htouched : ((m.logs e.pid).submittedAt.lookup id).isSome ∨ e.call.cmdId = id := by
      refine hs.imp (fun hs => (h.known _ _ hs).resolve_left hst) fun hs => ?_
      by_contra hne
      rw [if_neg fun h => hne h.2] at hs
      cases hs
    unfold TimedLog.touched
    rcases htouched with ht | rfl
    · split
      · exact ht
      · rw [TimedLog.lookup_stamp, Option.isSome_or, ht]
        rfl
    · rw [if_neg hst, TimedLog.lookup_stamp, if_pos rfl, Option.isSome_or, Option.isSome_some,
        Bool.or_true]
  · rw [Function.update_of_ne hp]
    refine h.known p id (hs.resolve_right fun hs => ?_)
    rw [if_neg fun h => hp h.1.symm] at hs
    cases hs

theorem waited_after (h : Metered e.time m) {x : Stabilised} (hx : x ∈ m.stabilised) :
    (m.after e t l).waited x = m.waited x := by
  obtain ⟨first, hfirst, -⟩ := h.waits x hx
  unfold Meter.waited
  simp only [Meter.after]
  rw [firstCall_kept hfirst, hfirst]

theorem waits_after (h : Metered e.time m) (hM : TimedLog.Measured e.pid e.time e.call.cmdId ids
      (m.logs e.pid) m.latencies t l) (hS : TimedLog.Stamped e.time (m.logs e.pid))
    (x : Stabilised) (hx : x ∈ (m.after e t l).stabilised) :
    ∃ first, firstCall (m.after e t l).history x.pid x.cmdId = some first ∧
      first.time ≤ x.time := by
  rw [stabilised_after hM] at hx
  simp only [Meter.after]
  rcases List.mem_append.mp hx with hx | hx
  · obtain ⟨first, hfirst, hle⟩ := h.waits x hx
    exact ⟨first, firstCall_kept hfirst, hle⟩
  · obtain ⟨id, hid, rfl⟩ := List.mem_map.mp hx
    obtain ⟨since, hs⟩ := Option.isSome_iff_exists.mp (hM.since id hid)
    obtain ⟨first, hfirst, rfl⟩ := Option.map_eq_some_iff.mp (h.first_touched hs)
    exact ⟨first, hfirst, hS.touched_le hs⟩

theorem latencies_after (h : Metered e.time m) (hM : TimedLog.Measured e.pid e.time e.call.cmdId
      ids (m.logs e.pid) m.latencies t l) :
    (m.after e t l).latencies = Latencies.init.recordAll ((m.after e t l).stabilised.map fun x =>
      ((m.after e t l).waited x, x.cmdId.pid == x.pid)) := by
  have hold : (m.stabilised.map fun x => ((m.after e t l).waited x, x.cmdId.pid == x.pid)) =
      m.stabilised.map fun x => (m.waited x, x.cmdId.pid == x.pid) :=
    List.map_congr_left fun x hx => by rw [h.waited_after hx]
  have hnew : ids.map (fun id => ((m.after e t l).waited ⟨e.pid, id, e.time⟩, id.pid == e.pid)) =
      ids.map fun id => TimedLog.record e.pid e.time
        ((((m.logs e.pid).touched e.time e.call.cmdId).lookup id).getD 0) id := by
    refine List.map_congr_left fun id hid => ?_
    obtain ⟨since, hs⟩ := Option.isSome_iff_exists.mp (hM.since id hid)
    have hfirst := h.first_touched hs
    simp only [Meter.waited, Meter.after, TimedLog.record, hs, hfirst]
  show l = _
  rw [stabilised_after hM, List.map_append, hold, Latencies.recordAll_append,
    ← h.latencies, List.map_map]
  exact hM.latencies.trans (congrArg _ hnew.symm)

end After

/-- **A call keeps the meter exact.** -/
theorem call (h : Metered e.time m)
    (hfresh : CreatesFresh (callsOf m.history e.pid ++ [e.call])) :
    ∃ m', m.call e = some m' ∧ Metered e.time m' ∧ m'.history = m.history ++ [e] := by
  obtain ⟨hI, hknown⟩ := CmdLog.run_inv (h.fresh e.pid) (h.run e.pid)
  obtain ⟨t, l, ids, hcall, hlog, hM⟩ := @TimedLog.call_spec e.pid e.time (m.logs e.pid)
    m.latencies hI (h.stamped e.pid) e.call fun id hc hst => by
      rw [hc] at hfresh
      exact hfresh.last (hknown id (.inl hst))
  have hrun : CmdLog.run (callsOf m.history e.pid ++ [e.call]) = some t.log := by
    rw [CmdLog.run_snoc, h.run, Option.bind_some, hlog]
  have hstable : t.log.stable.reverse = (m.logs e.pid).log.stable.reverse ++ ids := by
    rw [hM.stable, List.reverse_append, List.reverse_reverse]
  have hnd := (CmdLog.run_inv hfresh hrun).1.stable_nodup
  refine ⟨m.after e t l, by rw [Meter.call, hcall, Option.map_some], ⟨fun p => ?_, fun p => ?_,
    fun p => ?_, h.since_after hM, h.known_after hM, ?_, h.waits_after hM (h.stamped _),
    h.latencies_after hM⟩, rfl⟩
  · simp only [Meter.after, callsOf_snoc]
    by_cases hp : p = e.pid
    · subst hp
      rw [if_pos rfl, Function.update_self, hrun]
    · rw [if_neg (Ne.symm hp), List.append_nil, Function.update_of_ne hp, h.run]
  · simp only [Meter.after, callsOf_snoc]
    by_cases hp : p = e.pid
    · subst hp
      rwa [if_pos rfl]
    · rw [if_neg (Ne.symm hp), List.append_nil]
      exact h.fresh p
  · simp only [Meter.after]
    by_cases hp : p = e.pid
    · subst hp
      rw [Function.update_self]
      exact hM.stamped
    · rw [Function.update_of_ne hp]
      exact h.stamped p
  · rw [stabilised_after hM, List.map_append, List.map_map]
    simp only [Meter.after]
    refine h.stable.step (i := e.pid) ?_ (fun p hp => ?_) (fun x hx => ?_) ?_
    · rw [Function.update_self, hstable, List.map_append]
      rfl
    · rw [Function.update_of_ne hp]
    · obtain ⟨id, -, rfl⟩ := List.mem_map.mp hx
      rfl
    · rw [Function.update_self]
      exact (List.nodup_reverse.mpr hnd).map fun _ _ h => (Prod.mk.inj h).2

end Metered

end Blsmr
