import Blsmr.Log.Runs
import Mathlib.Algebra.Ring.Nat

/-!
# Commit latencies (`submitted_at` and `record_latency` of `crates/blsmr/src/log.rs`)

An entry carries the time at which it was made. When its command becomes stable, the time
that has passed is added to the average that all replicas share, and at the replica that
submitted the command it is kept as a sample. `TimedLog` is a `CmdLog` with the times of its
entries; a call does to the log what it does without them (`TimedLog.call_spec`).
-/

namespace Blsmr

/-- A time, and the difference of two. -/
abbrev Jiffies := ℕ

/-- `KEY_AVG_COMMIT_LATENCY` and `KEY_COMMIT_LATENCIES`. -/
structure Latencies where
  sum : ℕ
  count : ℕ
  samples : List Jiffies

namespace Latencies

def init : Latencies := ⟨0, 0, []⟩

/-- `record_latency`. -/
def record (latencies : Latencies) (latency : Jiffies) (recordSample : Bool) : Latencies :=
  { sum := latencies.sum + latency
    count := latencies.count + 1
    samples := if recordSample then latencies.samples ++ [latency] else latencies.samples }

/-- What is recorded one after the other. -/
def recordAll (latencies : Latencies) (entries : List (Jiffies × Bool)) : Latencies :=
  entries.foldl (fun latencies e => latencies.record e.1 e.2) latencies

theorem recordAll_append (latencies : Latencies) (l l' : List (Jiffies × Bool)) :
    latencies.recordAll (l ++ l') = (latencies.recordAll l).recordAll l' := List.foldl_append

theorem recordAll_spec (latencies : Latencies) (entries : List (Jiffies × Bool)) :
    (latencies.recordAll entries).sum = latencies.sum + (entries.map Prod.fst).sum ∧
    (latencies.recordAll entries).count = latencies.count + entries.length ∧
    (latencies.recordAll entries).samples =
      latencies.samples ++ (entries.filter Prod.snd).map Prod.fst := by
  induction entries generalizing latencies with
  | nil => exact ⟨rfl, rfl, (List.append_nil _).symm⟩
  | cons e entries ih =>
    obtain ⟨latency, recordSample⟩ := e
    obtain ⟨hsum, hcount, hsamples⟩ := ih (latencies.record latency recordSample)
    refine ⟨hsum.trans (Nat.add_assoc ..), hcount.trans (Nat.add_right_comm ..),
      hsamples.trans ?_⟩
    cases recordSample <;> simp [record]

end Latencies

/-- A log with the field `submitted_at` of its entries. -/
structure TimedLog where
  log : CmdLog
  submittedAt : AList fun _ : CmdId => Jiffies

namespace TimedLog

def empty : TimedLog := ⟨.empty, ∅⟩

/-- The times after `entry(id).or_insert_with(..)`. -/
def stamp (self : TimedLog) (now : Jiffies) (id : CmdId) : AList fun _ : CmdId => Jiffies :=
  if (self.submittedAt.lookup id).isSome then self.submittedAt else self.submittedAt.insert id now

def recordCreationAt (self : TimedLog) (cmdId : CmdId) (submittedAt : Jiffies) : TimedLog :=
  ⟨self.log.recordCreation cmdId, self.stamp submittedAt cmdId⟩

def recordCreation (now : Jiffies) (self : TimedLog) (cmdId : CmdId) : TimedLog :=
  self.recordCreationAt cmdId now

def submit (now : Jiffies) (self : TimedLog) (cmd : Command) : TimedLog × List CmdId :=
  if cmd.id ∈ self.log.stable then (self, [])
  else
    let (log, conflicts) := self.log.submit cmd
    (⟨log, self.stamp now cmd.id⟩, conflicts)

/-- One round of the promotion loop at replica `me`; a missing entry and a time in the
future panic. -/
def promoteOne (me : Pid) (now : Jiffies) (self : TimedLog × Latencies) (id : CmdId) :
    Option (TimedLog × Latencies) := do
  let submittedAt ← self.1.submittedAt.lookup id
  if submittedAt ≤ now then
    let latencies := self.2.record (now - submittedAt) (id.pid == me)
    let log ← self.1.log.promoteOne id
    return (⟨log, self.1.submittedAt.erase id⟩, latencies)
  else none

def promoteStable (me : Pid) (now : Jiffies) (hash : HashOrder) (self : TimedLog × Latencies) :
    Option (TimedLog × Latencies) := do
  let ids ← self.1.log.newlyStable (hash.order self.1.log.pendingCommit)
  ids.foldlM (promoteOne me now) self

def commit (me : Pid) (now : Jiffies) (hash : HashOrder) (self : TimedLog × Latencies)
    (cmdId : CmdId) (deps : List CmdId) : Option (TimedLog × Latencies) :=
  if cmdId ∈ self.1.log.stable then some self
  else
    let log := self.1.log.markCommitted cmdId deps
    promoteStable me now hash (⟨log, self.1.stamp now cmdId⟩, self.2)

/-- One call at time `now`; only `commit` records latencies. -/
def call (me : Pid) (now : Jiffies) (self : TimedLog × Latencies) :
    LogCall → Option (TimedLog × Latencies)
  | .recordCreation id => some (self.1.recordCreation now id, self.2)
  | .submit cmd => some ((self.1.submit now cmd).1, self.2)
  | .commit hash id deps => commit me now hash self id deps

/-! ## What a call does -/

variable {me : Pid} {now : Jiffies} {t : TimedLog} {l : Latencies} {log' : CmdLog}
  {ids : List CmdId}

/-- What is recorded for a command made at `since`. -/
def record (me : Pid) (now since : Jiffies) (id : CmdId) : Jiffies × Bool :=
  (now - since, id.pid == me)

/-- Every entry has a time, none of them in the future. -/
structure Stamped (now : Jiffies) (t : TimedLog) : Prop where
  entry : ∀ id, (t.log.entryAt id).isSome ↔ (t.submittedAt.lookup id).isSome
  past : ∀ id since, t.submittedAt.lookup id = some since → since ≤ now

theorem promote_loop (hnd : ids.Nodup)
    (hpast : ∀ id ∈ ids, ∃ since, t.submittedAt.lookup id = some since ∧ since ≤ now)
    (hrun : ids.foldlM CmdLog.promoteOne t.log = some log') :
    ids.foldlM (promoteOne me now) (t, l) =
      some (⟨log', ids.foldl (fun m id => m.erase id) t.submittedAt⟩,
        l.recordAll (ids.map fun id => record me now ((t.submittedAt.lookup id).getD 0) id)) := by
  induction ids generalizing t l with
  | nil =>
    cases hrun
    rfl
  | cons id ids ih =>
    obtain ⟨hnew, hnd⟩ := List.nodup_cons.mp hnd
    obtain ⟨since, hsince, hle⟩ := hpast id List.mem_cons_self
    obtain ⟨log₁, hone, hrest⟩ := Option.bind_eq_some_iff.mp hrun
    have hkept : ∀ x ∈ ids, (t.submittedAt.erase id).lookup x = t.submittedAt.lookup x :=
      fun x hx => AList.lookup_erase_ne fun h => hnew (h ▸ hx)
    have hstep : promoteOne me now (t, l) id =
        some (⟨log₁, t.submittedAt.erase id⟩, l.record (now - since) (id.pid == me)) := by
      simp only [promoteOne, hsince, Option.bind_eq_bind, Option.bind_some, if_pos hle, hone]
      rfl
    have hgo := @ih ⟨log₁, t.submittedAt.erase id⟩ (l.record (now - since) (id.pid == me)) hnd
      (fun x hx => by
        obtain ⟨s, hs, hle⟩ := hpast x (List.mem_cons_of_mem _ hx)
        exact ⟨s, (hkept x hx).trans hs, hle⟩) hrest
    have hrecords : (ids.map fun x =>
        record me now (((t.submittedAt.erase id).lookup x).getD 0) x) =
        ids.map fun x => record me now ((t.submittedAt.lookup x).getD 0) x :=
      List.map_congr_left fun x hx => by rw [hkept x hx]
    simp only [List.foldlM_cons, hstep, Option.bind_eq_bind, Option.bind_some, hgo, hrecords,
      List.map_cons, hsince, Option.getD_some]
    rfl

theorem promoteStable_ids {log : CmdLog} (hC : log.Core) (hash : HashOrder) :
    ∃ ids log', log.newlyStable (hash.order log.pendingCommit) = some ids ∧
      ids.foldlM CmdLog.promoteOne log = some log' ∧ ids.Nodup ∧
      (∀ id ∈ ids, (log.entryAt id).isSome) ∧ log'.stable = ids.reverse ++ log.stable ∧
      ∀ x, (log'.entryAt x).isSome ↔ x ∉ ids ∧ (log.entryAt x).isSome := by
  have hperm := hash.perm log.pendingCommit
  have hns := @CmdLog.newlyStable_spec log (hash.order log.pendingCommit) fun id hid => by
    obtain ⟨e, he, -⟩ := (hC.pending_iff id).mp (hperm.mem_iff.mp hid)
    simp [he]
  set ids := (hash.order log.pendingCommit).filter
    fun id => log.isDepsClosureCommitted (log.depsOf id) with hids
  have hnd : ids.Nodup := (hperm.nodup_iff.mpr hC.pending_nodup).filter _
  have hB : CmdLog.Batch log ids := hC.batch hnd fun id => by
    rw [hids, List.mem_filter, hperm.mem_iff, CmdLog.isDepsClosureCommitted_iff]
  obtain ⟨log', new, hrun, P⟩ :=
    CmdLog.promote_loop hC hB (List.nil_append ids).symm (CmdLog.Promoting.start log ids)
  refine ⟨ids, log', hns, hrun, hnd, fun id hid => ?_, P.stable, fun x => ?_⟩
  · obtain ⟨e, he, -⟩ := hB.committed id hid
    rw [he]
    rfl
  · rw [P.entry x]
    by_cases hx : x ∈ ids <;> simp [hx]

/-- The times of the entries before anything is promoted in a call. -/
def touched (t : TimedLog) (now : Jiffies) (id : CmdId) : AList fun _ : CmdId => Jiffies :=
  if id ∈ t.log.stable then t.submittedAt else t.stamp now id

/-- **What a call does**: the log changes as without times, the entry of its identifier gets
the present time if it is new, and for each command that becomes stable the age of its entry
is recorded. -/
structure Measured (me : Pid) (now : Jiffies) (id : CmdId) (ids : List CmdId) (t : TimedLog)
    (l : Latencies) (t' : TimedLog) (l' : Latencies) : Prop where
  stable : t'.log.stable = ids.reverse ++ t.log.stable
  latencies : l' = l.recordAll
    (ids.map fun x => record me now (((t.touched now id).lookup x).getD 0) x)
  since : ∀ x ∈ ids, ((t.touched now id).lookup x).isSome
  submittedAt : ∀ x, t'.submittedAt.lookup x =
    if x ∈ ids then none else (t.touched now id).lookup x
  stamped : Stamped now t'

theorem lookup_stamp (t : TimedLog) (now : Jiffies) (id x : CmdId) :
    (t.stamp now id).lookup x =
      (t.submittedAt.lookup x).or (if x = id then some now else none) := by
  unfold stamp
  by_cases hs : (t.submittedAt.lookup id).isSome
  · rw [if_pos hs]
    by_cases hx : x = id
    · subst hx
      rw [Option.or_of_isSome hs]
    · rw [if_neg hx, Option.or_none]
  · rw [if_neg hs]
    have hnone : t.submittedAt.lookup id = none := by simpa using hs
    by_cases hx : x = id
    · subst hx
      rw [AList.lookup_insert, hnone, if_pos rfl]
      rfl
    · rw [AList.lookup_insert_ne hx, if_neg hx, Option.or_none]

theorem Stamped.touched_le (hS : Stamped now t) {id x : CmdId} {since : Jiffies}
    (h : (t.touched now id).lookup x = some since) : since ≤ now := by
  unfold touched at h
  split at h
  · exact hS.past x since h
  · rw [lookup_stamp, Option.or_eq_some_iff] at h
    rcases h with h | ⟨-, h⟩
    · exact hS.past x since h
    · exact (Option.some.inj (Option.ite_none_right_eq_some.mp h).2).ge

theorem Stamped.stamp {log : CmdLog} (hS : Stamped now t) (id : CmdId)
    (hlog : ∀ x, (log.entryAt x).isSome ↔ x = id ∨ (t.log.entryAt x).isSome) :
    Stamped now ⟨log, t.stamp now id⟩ := by
  refine ⟨fun x => ?_, fun x since h => ?_⟩
  · show _ ↔ ((t.stamp now id).lookup x).isSome
    rw [hlog, hS.entry, lookup_stamp, Option.isSome_or]
    by_cases hx : x = id <;> simp [hx]
  · have h : (t.stamp now id).lookup x = some since := h
    rw [lookup_stamp, Option.or_eq_some_iff] at h
    rcases h with h | ⟨-, h⟩
    · exact hS.past x since h
    · split at h
      · exact (Option.some.inj h).ge
      · cases h

theorem Stamped.measured {log : CmdLog} (hS : Stamped now t) {id : CmdId}
    (hnew : id ∉ t.log.stable) (hstable : log.stable = t.log.stable)
    (hlog : ∀ x, (log.entryAt x).isSome ↔ x = id ∨ (t.log.entryAt x).isSome) :
    Measured me now id [] t l ⟨log, t.stamp now id⟩ l := by
  refine ⟨by rw [hstable]; rfl, rfl, fun x hx => (by cases hx), fun x => ?_, hS.stamp id hlog⟩
  rw [if_neg List.not_mem_nil, touched, if_neg hnew]

theorem Stamped.unchanged (hS : Stamped now t) {id : CmdId} (hst : id ∈ t.log.stable) :
    Measured me now id [] t l t l := by
  refine ⟨rfl, rfl, fun x hx => (by cases hx), fun x => ?_, hS⟩
  rw [if_neg List.not_mem_nil, touched, if_pos hst]

theorem lookup_foldl_erase' {m : AList fun _ : CmdId => Jiffies} {x : CmdId} :
    (ids.foldl (fun m id => m.erase id) m).lookup x = if x ∈ ids then none else m.lookup x := by
  induction ids generalizing m with
  | nil => simp
  | cons id ids ih =>
    rw [List.foldl_cons, ih]
    by_cases hx : x ∈ ids
    · rw [if_pos hx, if_pos (List.mem_cons_of_mem _ hx)]
    · rw [if_neg hx]
      by_cases hid : x = id
      · subst hid
        rw [AList.lookup_erase, if_pos List.mem_cons_self]
      · rw [AList.lookup_erase_ne hid, if_neg (by simpa [hid] using hx)]

theorem commit_spec (hI : t.log.Inv) (hS : Stamped now t) (hash : HashOrder) (id : CmdId)
    (deps : List CmdId) (hst : id ∉ t.log.stable) :
    ∃ t' l' ids, commit me now hash (t, l) id deps = some (t', l') ∧
      t.log.commit hash id deps = some t'.log ∧ Measured me now id ids t l t' l' := by
  have hC := hI.toCore.markCommitted hst deps
  obtain ⟨ids, log', hns, hrun, hnd, hentry, hstable, hkept⟩ := promoteStable_ids hC hash
  have hlog : ∀ x, ((t.log.markCommitted id deps).entryAt x).isSome ↔
      x = id ∨ (t.log.entryAt x).isSome := by
    intro x
    rw [CmdLog.entryAt_markCommitted]
    by_cases hx : x = id <;> simp [hx]
  have hS' := hS.stamp id hlog
  have hsince : ∀ x ∈ ids, ((t.stamp now id).lookup x).isSome := fun x hx =>
    (hS'.entry x).mp (hentry x hx)
  have hloop := @promote_loop me now ⟨t.log.markCommitted id deps, t.stamp now id⟩ l log' ids hnd
    (fun x hx => by
      obtain ⟨since, hs⟩ := Option.isSome_iff_exists.mp (hsince x hx)
      exact ⟨since, hs, hS'.past x since hs⟩) hrun
  refine ⟨⟨log', ids.foldl (fun m id => m.erase id) (t.stamp now id)⟩,
    l.recordAll (ids.map fun x => record me now (((t.stamp now id).lookup x).getD 0) x), ids,
    ?_, ?_, ?_⟩
  · rw [commit, if_neg hst, promoteStable, hns]
    exact hloop
  · rw [CmdLog.commit_eq hst, CmdLog.promoteStable, hns]
    exact hrun
  · refine ⟨hstable, ?_, fun x hx => ?_, fun x => ?_, fun x => ?_, fun x since h => ?_⟩
    · rw [touched, if_neg hst]
    · rw [touched, if_neg hst]
      exact hsince x hx
    · rw [touched, if_neg hst]
      exact lookup_foldl_erase'
    · show _ ↔ ((ids.foldl (fun m id => m.erase id) (t.stamp now id)).lookup x).isSome
      rw [hkept, lookup_foldl_erase', hS'.entry]
      by_cases hx : x ∈ ids <;> simp [hx]
    · have h : (ids.foldl (fun m id => m.erase id) (t.stamp now id)).lookup x = some since := h
      rw [lookup_foldl_erase'] at h
      split at h
      · cases h
      · exact hS'.past x since h

/-- **One call with a clock.** -/
theorem call_spec (hI : t.log.Inv) (hS : Stamped now t) {c : LogCall}
    (hfresh : ∀ id, c = .recordCreation id → id ∉ t.log.stable) :
    ∃ t' l' ids, call me now (t, l) c = some (t', l') ∧ t.log.call c = some t'.log ∧
      Measured me now c.cmdId ids t l t' l' := by
  cases c with
  | recordCreation id =>
    refine ⟨_, l, [], rfl, rfl, hS.measured (hfresh id rfl) rfl fun x => ?_⟩
    rw [CmdLog.recordCreation, CmdLog.entryAt_setEntry]
    by_cases hx : x = id <;> simp [hx, LogCall.cmdId]
  | submit cmd =>
    by_cases hst : cmd.id ∈ t.log.stable
    · refine ⟨t, l, [], ?_, ?_, hS.unchanged hst⟩
      · simp only [call, submit, if_pos hst]
      · simp only [CmdLog.call, CmdLog.submit_stable hst]
    · refine ⟨⟨(t.log.submit cmd).1, t.stamp now cmd.id⟩, l, [], ?_, rfl,
        hS.measured hst (CmdLog.submit_fields t.log cmd).2.1 fun x => ?_⟩
      · simp only [call, submit, if_neg hst]
      · rw [(CmdLog.submit_spec hst).1]
        by_cases hx : x = cmd.id <;> simp [hx, LogCall.cmdId]
  | commit hash id deps =>
    by_cases hst : id ∈ t.log.stable
    · refine ⟨t, l, [], ?_, CmdLog.commit_stable hst, hS.unchanged hst⟩
      simp only [call, commit, if_pos hst]
    · exact commit_spec hI hS hash id deps hst

end TimedLog

end Blsmr
