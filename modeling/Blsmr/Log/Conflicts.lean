import Blsmr.Client
import Mathlib.Data.Finset.Card
import Mathlib.Data.List.TakeWhile
import Mathlib.Tactic.IntervalCases

/-!
# The conflict tracker (`crates/blsmr/src/log.rs`)

The replicas share one `ConflictTracker`, which counts the commands that have been
executed and those that met an unexecuted command of the same key. It forgets a command
when the last replica has executed it. `Conflicted` says which commands are to be counted,
by what happened before their first execution (`counts_each_once`). The paths and
dependencies that the tracker keeps for reports are left out, and so are percentages.
-/

namespace Blsmr

structure TrackedCommand where
  key : Key
  executors : Finset Pid

structure ConflictTracker where
  replicaCount : ℕ
  commands : AList fun _ : CmdId => TrackedCommand
  conflictingCommands : ℕ
  executedCommands : ℕ

namespace ConflictTracker

/-- `ConflictTracker::new`. -/
def new (replicaCount : ℕ) : ConflictTracker := ⟨replicaCount, ∅, 0, 0⟩

/-- `commands.entry(cmd_id).or_insert_with(..)`. -/
def entry (self : ConflictTracker) (cmdId : CmdId) (key : Key) : TrackedCommand :=
  (self.commands.lookup cmdId).getD ⟨key, ∅⟩

def recordArrival (cmdId : CmdId) (key : Key) (self : ConflictTracker) : ConflictTracker :=
  { self with commands := self.commands.insert cmdId (self.entry cmdId key) }

/-- The command has not been executed before. -/
def firstExecution (self : ConflictTracker) (cmdId : CmdId) : Bool :=
  (self.commands.lookup cmdId).all fun command => command.executors = ∅

/-- Another command of the key has not been executed by all replicas. -/
def hasConflict (self : ConflictTracker) (cmdId : CmdId) (key : Key) : Bool :=
  self.commands.entries.any fun other =>
    other.1 ≠ cmdId ∧ other.2.key = key ∧ other.2.executors.card < self.replicaCount

def recordExecution (pid : Pid) (cmdId : CmdId) (key : Key) (self : ConflictTracker) :
    ConflictTracker :=
  let self := if self.firstExecution cmdId then
      { self with
        executedCommands := self.executedCommands + 1
        conflictingCommands := self.conflictingCommands + (self.hasConflict cmdId key).toNat }
    else self
  let command := { self.entry cmdId key with
    executors := insert pid (self.entry cmdId key).executors }
  let commands := self.commands.insert cmdId command
  { self with
    commands := if command.executors.card = self.replicaCount then commands.erase cmdId
      else commands }

end ConflictTracker

/-! ## What has happened -/

inductive TrackerEvent where
  | arrival (cmdId : CmdId) (key : Key)
  | execution (pid : Pid) (cmdId : CmdId) (key : Key)
  deriving DecidableEq

namespace TrackerEvent

def cmdId : TrackerEvent → CmdId
  | arrival cmdId _ => cmdId
  | execution _ cmdId _ => cmdId

def key : TrackerEvent → Key
  | arrival _ key => key
  | execution _ _ key => key

/-- Who executes what. -/
def executes : TrackerEvent → Option (Pid × CmdId)
  | arrival _ _ => none
  | execution pid cmdId _ => some (pid, cmdId)

/-- The event is an execution of the command. -/
def isExecutionOf (cmdId : CmdId) (event : TrackerEvent) : Bool :=
  event.executes.any fun x => x.2 = cmdId

/-- The tracker is told. -/
def record (self : ConflictTracker) : TrackerEvent → ConflictTracker
  | arrival cmdId key => self.recordArrival cmdId key
  | execution pid cmdId key => self.recordExecution pid cmdId key

end TrackerEvent

open TrackerEvent

/-- The tracker of so many replicas after the events. -/
def ConflictTracker.after (replicaCount : ℕ) (events : List TrackerEvent) : ConflictTracker :=
  events.foldl record (new replicaCount)

/-- The replicas that have executed a command. -/
def executors (events : List TrackerEvent) (id : CmdId) : Finset Pid :=
  (((events.filterMap executes).filter fun x => x.2 = id).map Prod.fst).toFinset

/-- The commands that some replica has executed. -/
def executedIds (events : List TrackerEvent) : Finset CmdId :=
  ((events.filterMap executes).map Prod.snd).toFinset

/-- **At its first execution the command met another one of its key**, which had arrived or
been executed, and had not been executed by all replicas. -/
def Conflicted (replicas : Finset Pid) (events : List TrackerEvent) (id : CmdId) : Prop :=
  ∃ first ∈ events.find? (isExecutionOf id),
    ∃ other ∈ events.takeWhile fun event => !event.isExecutionOf id,
      other.cmdId ≠ id ∧ other.key = first.key ∧
        executors (events.takeWhile fun event => !event.isExecutionOf id) other.cmdId ≠ replicas

instance (replicas : Finset Pid) (events : List TrackerEvent) :
    DecidablePred (Conflicted replicas events) := fun _ => by
  unfold Conflicted
  infer_instance

/-- What the replicas tell the tracker. -/
structure Regular (replicas : Finset Pid) (events : List TrackerEvent) : Prop where
  keys : ∀ x ∈ events, ∀ y ∈ events, x.cmdId = y.cmdId → x.key = y.key
  members : ∀ x ∈ events.filterMap executes, x.1 ∈ replicas
  once : (events.filterMap executes).Nodup
  inTime : ∀ i id key, events[i]? = some (.arrival id key) →
    executors (events.take i) id ≠ replicas

section

variable {replicas : Finset Pid} {events : List TrackerEvent} {event : TrackerEvent} {id j : CmdId}
  {p : Pid} {key : Key} {t t' : ConflictTracker}

theorem mem_executes : (p, id) ∈ events.filterMap executes ↔
    ∃ key, .execution p id key ∈ events := by
  rw [List.mem_filterMap]
  constructor
  · rintro ⟨x, hx, he⟩
    cases x with
    | arrival => cases he
    | execution q i key =>
      cases he
      exact ⟨key, hx⟩
  · rintro ⟨key, hx⟩
    exact ⟨_, hx, rfl⟩

theorem mem_executors : p ∈ executors events id ↔ (p, id) ∈ events.filterMap executes := by
  unfold executors
  rw [List.mem_toFinset, List.mem_map]
  constructor
  · rintro ⟨⟨q, i⟩, hx, rfl⟩
    obtain ⟨hmem, hi⟩ := List.mem_filter.mp hx
    cases of_decide_eq_true hi
    exact hmem
  · exact fun h => ⟨(p, id), List.mem_filter.mpr ⟨h, decide_eq_true rfl⟩, rfl⟩

theorem mem_executedIds : id ∈ executedIds events ↔ ∃ p, p ∈ executors events id := by
  unfold executedIds
  rw [List.mem_toFinset, List.mem_map]
  simp only [mem_executors]
  constructor
  · rintro ⟨⟨q, i⟩, hx, rfl⟩
    exact ⟨q, hx⟩
  · exact fun ⟨q, hx⟩ => ⟨(q, id), hx, rfl⟩

theorem mem_executedIds_iff : id ∈ executedIds events ↔
    ∃ event ∈ events, event.isExecutionOf id = true := by
  simp only [mem_executedIds, mem_executors, mem_executes]
  constructor
  · rintro ⟨q, key, hx⟩
    exact ⟨_, hx, decide_eq_true rfl⟩
  · rintro ⟨x, hx, he⟩
    cases x with
    | arrival => cases he
    | execution q i key =>
      cases of_decide_eq_true he
      exact ⟨q, key, hx⟩

theorem executors_arrival : executors (events ++ [.arrival id key]) j = executors events j := by
  ext q
  simp only [mem_executors, List.filterMap_append, List.mem_append]
  exact or_iff_left List.not_mem_nil

theorem executors_execution : executors (events ++ [.execution p id key]) j =
    if j = id then insert p (executors events j) else executors events j := by
  ext q
  rw [mem_executors, List.filterMap_append, List.mem_append, ← mem_executors]
  have hone : (q, j) ∈ [TrackerEvent.execution p id key].filterMap executes ↔ q = p ∧ j = id :=
    List.mem_singleton.trans Prod.mk_inj
  rw [hone]
  split
  · rename_i hj
    rw [Finset.mem_insert, and_iff_left hj, or_comm]
  · rename_i hj
    exact or_iff_left fun h => hj h.2

theorem executedIds_arrival : executedIds (events ++ [.arrival id key]) = executedIds events := by
  ext j
  simp only [mem_executedIds, executors_arrival]

theorem executedIds_execution :
    executedIds (events ++ [.execution p id key]) = insert id (executedIds events) := by
  ext j
  rw [Finset.mem_insert, mem_executedIds, mem_executedIds, executors_execution]
  by_cases hj : j = id
  · rw [if_pos hj]
    exact iff_of_true ⟨p, Finset.mem_insert_self _ _⟩ (.inl hj)
  · rw [if_neg hj]
    exact (or_iff_right hj).symm

/-! ## What comes later does not matter -/

theorem conflicted_append (h : id ∈ executedIds events) (rest : List TrackerEvent) :
    Conflicted replicas (events ++ rest) id ↔ Conflicted replicas events id := by
  obtain ⟨x, hx, he⟩ := mem_executedIds_iff.mp h
  have hfind : (events ++ rest).find? (isExecutionOf id) = events.find? (isExecutionOf id) := by
    obtain ⟨y, hy⟩ := Option.isSome_iff_exists.mp (List.find?_isSome.mpr ⟨x, hx, he⟩)
    rw [List.find?_append, hy, Option.some_or]
  have htake : (events ++ rest).takeWhile (fun event => !event.isExecutionOf id) =
      events.takeWhile fun event => !event.isExecutionOf id := by
    rw [List.takeWhile_append, if_neg]
    intro hlen
    have hall := List.takeWhile_eq_self_iff.mp ((List.takeWhile_prefix _).eq_of_length hlen) x hx
    rw [he] at hall
    cases hall
  unfold Conflicted
  rw [hfind, htake]

theorem conflicted_first (h : id ∉ executedIds events) :
    Conflicted replicas (events ++ [.execution p id key]) id ↔
      ∃ other ∈ events, other.cmdId ≠ id ∧ other.key = key ∧
        executors events other.cmdId ≠ replicas := by
  have hno : ∀ x ∈ events, (!x.isExecutionOf id) = true := fun x hx => by
    rw [Bool.not_eq_true', ← Bool.not_eq_true]
    exact fun he => h (mem_executedIds_iff.mpr ⟨x, hx, he⟩)
  have hself : (TrackerEvent.execution p id key).isExecutionOf id = true := decide_eq_true rfl
  have hfind : (events ++ [execution p id key]).find? (isExecutionOf id) =
      some (execution p id key) := by
    rw [List.find?_append, List.find?_eq_none.mpr fun x hx => by simpa using hno x hx,
      Option.none_or, List.find?_cons_of_pos hself]
  have htake : (events ++ [execution p id key]).takeWhile
      (fun event => !event.isExecutionOf id) = events := by
    rw [List.takeWhile_append_of_pos hno, List.takeWhile_cons_of_neg (by rw [hself]; decide),
      List.append_nil]
  unfold Conflicted
  rw [hfind, htake]
  simp only [Option.mem_some_iff, exists_eq_left']
  rfl

/-! ## Regular events -/

theorem Regular.init (h : Regular replicas (events ++ [event])) : Regular replicas events where
  keys x hx y hy := h.keys x (List.mem_append_left _ hx) y (List.mem_append_left _ hy)
  members x hx := h.members x (by
    rw [List.filterMap_append]
    exact List.mem_append_left _ hx)
  once := by
    have hnd := h.once
    rw [List.filterMap_append] at hnd
    exact hnd.of_append_left
  inTime i id key hi := by
    have hlt : i < events.length := (List.getElem?_eq_some_iff.mp hi).1
    have := h.inTime i id key (by rw [List.getElem?_append_left hlt]; exact hi)
    rwa [List.take_append_of_le_length hlt.le] at this

theorem Regular.executors_subset (h : Regular replicas events) (id : CmdId) :
    executors events id ⊆ replicas := fun _ hp => h.members _ (mem_executors.mp hp)

theorem Regular.fresh (h : Regular replicas (events ++ [.execution p id key])) :
    p ∉ executors events id ∧ p ∈ replicas := by
  have hnd := h.once
  rw [List.filterMap_append] at hnd
  refine ⟨fun hp => ?_, h.members (p, id) ?_⟩
  · exact List.disjoint_of_nodup_append hnd (mem_executors.mp hp) List.mem_cons_self
  · rw [List.filterMap_append]
    exact List.mem_append_right _ List.mem_cons_self

/-- **No command comes back** once all replicas have executed it. -/
theorem Regular.unfinished (h : Regular replicas (events ++ [event])) :
    executors events event.cmdId ≠ replicas := by
  cases event with
  | arrival id key =>
    have := h.inTime events.length id key (by rw [List.getElem?_concat_length])
    rwa [List.take_left] at this
  | execution p id key => exact fun heq => h.fresh.1 (heq ▸ h.fresh.2)

/-! ## The tracker -/

/-- **The tracker knows what has happened.** -/
structure Tracks (replicas : Finset Pid) (events : List TrackerEvent) (t : ConflictTracker) :
    Prop where
  replicaCount : t.replicaCount = replicas.card
  lookup : ∀ id command, t.commands.lookup id = some command ↔
    (∃ event ∈ events, event.cmdId = id ∧ event.key = command.key) ∧
      command.executors = executors events id ∧ executors events id ≠ replicas
  executed : t.executedCommands = (executedIds events).card
  conflicting : t.conflictingCommands =
    ((executedIds events).filter (Conflicted replicas events)).card

theorem Tracks.entry_eq (hT : Tracks replicas events t)
    (h : Regular replicas (events ++ [event])) :
    t.entry event.cmdId event.key = ⟨event.key, executors events event.cmdId⟩ := by
  have hlast : event ∈ events ++ [event] := List.mem_append_right _ (List.mem_singleton_self _)
  unfold ConflictTracker.entry
  cases hl : t.commands.lookup event.cmdId with
  | some command =>
    obtain ⟨⟨x, hx, hid, hkey⟩, hexec, -⟩ := (hT.lookup _ _).mp hl
    obtain ⟨key, execs⟩ := command
    have hk : x.key = event.key := h.keys x (List.mem_append_left _ hx) event hlast hid
    simp only at hkey hexec
    rw [Option.getD_some, ← hkey, hk, hexec]
  | none =>
    have hempty : executors events event.cmdId = ∅ := by
      refine Finset.eq_empty_of_forall_notMem fun q hq => ?_
      obtain ⟨key, hx⟩ := mem_executes.mp (mem_executors.mp hq)
      have hsome := (hT.lookup event.cmdId ⟨key, _⟩).mpr ⟨⟨_, hx, rfl, rfl⟩, rfl, h.unfinished⟩
      rw [hl] at hsome
      cases hsome
    rw [Option.getD_none, hempty]

theorem Tracks.firstExecution_iff (hT : Tracks replicas events t)
    (h : Regular replicas (events ++ [.execution p id key])) :
    t.firstExecution id = true ↔ id ∉ executedIds events := by
  have hiff : id ∉ executedIds events ↔ executors events id = ∅ := by
    rw [mem_executedIds, ← Finset.Nonempty, Finset.not_nonempty_iff_eq_empty]
  have hentry := hT.entry_eq h
  unfold ConflictTracker.entry at hentry
  unfold ConflictTracker.firstExecution
  rw [hiff]
  simp only [TrackerEvent.cmdId, TrackerEvent.key] at hentry
  cases hl : t.commands.lookup id with
  | some command =>
    rw [hl, Option.getD_some] at hentry
    rw [Option.all_some, hentry, decide_eq_true_iff]
  | none =>
    rw [hl, Option.getD_none, TrackedCommand.mk.injEq] at hentry
    exact iff_of_true rfl hentry.2.symm

theorem Tracks.hasConflict_iff (hT : Tracks replicas events t) (h : Regular replicas events) :
    t.hasConflict id key = true ↔ ∃ other ∈ events, other.cmdId ≠ id ∧ other.key = key ∧
      executors events other.cmdId ≠ replicas := by
  unfold ConflictTracker.hasConflict
  simp only [List.any_eq_true, decide_eq_true_eq]
  constructor
  · rintro ⟨⟨j, command⟩, hmem, hne, hkey, -⟩
    obtain ⟨⟨x, hx, hid, hk⟩, -, hall⟩ := (hT.lookup j command).mp (AList.mem_lookup_iff.mpr hmem)
    exact ⟨x, hx, hid ▸ hne, hk.trans hkey, hid ▸ hall⟩
  · rintro ⟨x, hx, hne, hkey, hall⟩
    have hl := (hT.lookup x.cmdId ⟨x.key, _⟩).mpr ⟨⟨x, hx, rfl, rfl⟩, rfl, hall⟩
    refine ⟨_, AList.mem_lookup_iff.mp hl, hne, hkey, ?_⟩
    rw [hT.replicaCount]
    exact Finset.card_lt_card ((h.executors_subset _).ssubset_of_ne hall)

theorem Tracks.lookup_step (hT : Tracks replicas events t)
    (h : Regular replicas (events ++ [event])) (id : CmdId) (key : Key)
    (hid : event.cmdId = id) (hkey : event.key = key)
    (hothers : ∀ j ≠ id, executors (events ++ [event]) j = executors events j)
    (hlookup : ∀ j, t'.commands.lookup j = if j = id then
      if executors (events ++ [event]) id = replicas then none
      else some ⟨key, executors (events ++ [event]) id⟩ else t.commands.lookup j)
    (j : CmdId) (command : TrackedCommand) : t'.commands.lookup j = some command ↔
      (∃ x ∈ events ++ [event], x.cmdId = j ∧ x.key = command.key) ∧
        command.executors = executors (events ++ [event]) j ∧
        executors (events ++ [event]) j ≠ replicas := by
  have hlast : event ∈ events ++ [event] := List.mem_append_right _ (List.mem_singleton_self _)
  obtain ⟨k, execs⟩ := command
  rw [hlookup]
  by_cases hj : j = id
  · subst hj
    rw [if_pos rfl, Option.ite_none_left_eq_some, Option.some.injEq, TrackedCommand.mk.injEq]
    constructor
    · rintro ⟨hall, rfl, rfl⟩
      exact ⟨⟨event, hlast, hid, hkey⟩, rfl, hall⟩
    · rintro ⟨⟨x, hx, hxid, hk⟩, hexec, hall⟩
      have := h.keys x hx event hlast (hxid.trans hid.symm)
      exact ⟨hall, (this.trans hkey).symm.trans hk, hexec.symm⟩
  · rw [if_neg hj, hT.lookup, hothers j hj]
    refine and_congr_left fun _ => ⟨fun ⟨x, hx, hx'⟩ => ⟨x, List.mem_append_left _ hx, hx'⟩, ?_⟩
    rintro ⟨x, hx, hxid, hk⟩
    rcases List.mem_append.mp hx with hx | hx
    · exact ⟨x, hx, hxid, hk⟩
    · cases List.mem_singleton.mp hx
      exact absurd (hxid.symm.trans hid) hj

theorem Tracks.arrival (hT : Tracks replicas events t)
    (h : Regular replicas (events ++ [.arrival id key])) :
    Tracks replicas (events ++ [.arrival id key]) (t.recordArrival id key) where
  replicaCount := hT.replicaCount
  lookup := by
    refine hT.lookup_step h id key rfl rfl (fun j _ => executors_arrival) fun j => ?_
    have hentry : t.entry id key = ⟨key, executors events id⟩ := hT.entry_eq h
    have hall : executors events id ≠ replicas := h.unfinished
    unfold ConflictTracker.recordArrival
    rw [executors_arrival, if_neg hall, hentry]
    split
    · rename_i hj
      rw [hj, AList.lookup_insert]
    · rename_i hj
      exact AList.lookup_insert_ne hj
  executed := by
    rw [executedIds_arrival]
    exact hT.executed
  conflicting := by
    rw [executedIds_arrival, Finset.filter_congr fun j hj => conflicted_append hj _]
    exact hT.conflicting

theorem Tracks.counters (hT : Tracks replicas events t)
    (h : Regular replicas (events ++ [.execution p id key])) :
    (t.recordExecution p id key).executedCommands =
        (executedIds (events ++ [.execution p id key])).card ∧
      (t.recordExecution p id key).conflictingCommands =
        ((executedIds (events ++ [.execution p id key])).filter
          (Conflicted replicas (events ++ [.execution p id key]))).card := by
  have hold : (executedIds events).filter (Conflicted replicas (events ++ [.execution p id key])) =
      (executedIds events).filter (Conflicted replicas events) :=
    Finset.filter_congr fun j hj => conflicted_append hj _
  unfold ConflictTracker.recordExecution
  rw [executedIds_execution]
  cases hfirst : t.firstExecution id with
  | true =>
    have hnew := (hT.firstExecution_iff h).mp hfirst
    have hconf : Conflicted replicas (events ++ [.execution p id key]) id ↔
        t.hasConflict id key = true :=
      (conflicted_first hnew).trans (hT.hasConflict_iff h.init).symm
    rw [Finset.card_insert_of_notMem hnew, Finset.filter_insert, hold]
    refine ⟨congrArg (· + 1) hT.executed, ?_⟩
    simp only [if_true]
    split
    · rename_i hc
      rw [hconf.mp hc, Finset.card_insert_of_notMem fun hj => hnew (Finset.mem_filter.mp hj).1,
        hT.conflicting]
      rfl
    · rename_i hc
      rw [Bool.eq_false_iff.mpr fun hb => hc (hconf.mpr hb), hT.conflicting]
      rfl
  | false =>
    have hin : id ∈ executedIds events := by
      by_contra hnew
      rw [(hT.firstExecution_iff h).mpr hnew] at hfirst
      cases hfirst
    rw [Finset.insert_eq_of_mem hin, hold]
    exact ⟨hT.executed, hT.conflicting⟩

theorem Tracks.execution (hT : Tracks replicas events t)
    (h : Regular replicas (events ++ [.execution p id key])) :
    Tracks replicas (events ++ [.execution p id key]) (t.recordExecution p id key) := by
  let command : TrackedCommand :=
    { t.entry id key with executors := insert p (t.entry id key).executors }
  have hcommand : command = ⟨key, executors (events ++ [.execution p id key]) id⟩ := by
    have hentry : t.entry id key = ⟨key, executors events id⟩ := hT.entry_eq h
    simp only [command, hentry, executors_execution, if_true]
  have hcard : command.executors.card = t.replicaCount ↔
      executors (events ++ [.execution p id key]) id = replicas := by
    rw [hcommand, hT.replicaCount]
    exact ⟨fun heq => Finset.eq_of_subset_of_card_le (h.executors_subset id) heq.ge,
      congrArg Finset.card⟩
  have hcount : (t.recordExecution p id key).replicaCount = t.replicaCount := by
    unfold ConflictTracker.recordExecution
    cases t.firstExecution id <;> rfl
  have hcommands : (t.recordExecution p id key).commands =
      if command.executors.card = t.replicaCount then (t.commands.insert id command).erase id
      else t.commands.insert id command := by
    unfold ConflictTracker.recordExecution
    cases t.firstExecution id <;> rfl
  refine ⟨hcount.trans hT.replicaCount, hT.lookup_step h id key rfl rfl (fun j hj => ?_)
    fun j => ?_, (hT.counters h).1, (hT.counters h).2⟩
  · rw [executors_execution, if_neg hj]
  · rw [hcommands]
    simp only [hcard]
    rw [hcommand]
    by_cases hj : j = id
    · rw [if_pos hj, hj]
      split
      · exact AList.lookup_erase _ _
      · exact AList.lookup_insert _
    · rw [if_neg hj]
      split
      · rw [AList.lookup_erase_ne hj, AList.lookup_insert_ne hj]
      · exact AList.lookup_insert_ne hj

/-- **The tracker keeps up with regular events.** -/
theorem tracks_after (h : Regular replicas events) :
    Tracks replicas events (.after replicas.card events) := by
  induction events using List.reverseRecOn with
  | nil =>
    refine ⟨rfl, fun id command => ?_, rfl, rfl⟩
    exact iff_of_false (fun h => nomatch h) fun ⟨⟨_, hx, _⟩, _⟩ => List.not_mem_nil hx
  | append_singleton events event ih =>
    have hT := ih h.init
    unfold ConflictTracker.after at hT ⊢
    rw [List.foldl_append]
    cases event with
    | arrival id key => exact hT.arrival h
    | execution p id key => exact hT.execution h

end

/-- **Each command is counted once, and against the right commands**, in every order of
arrivals and executions. -/
theorem counts_each_once (replicas : Finset Pid) (events : List TrackerEvent)
    (h : Regular replicas events) :
    (ConflictTracker.after replicas.card events).executedCommands = (executedIds events).card ∧
      (ConflictTracker.after replicas.card events).conflictingCommands =
        ((executedIds events).filter (Conflicted replicas events)).card ∧
      ∀ id, id ∈ (ConflictTracker.after replicas.card events).commands ↔
        (∃ event ∈ events, event.cmdId = id) ∧ executors events id ≠ replicas := by
  have hT := tracks_after h
  refine ⟨hT.executed, hT.conflicting, fun id => ?_⟩
  rw [← AList.lookup_isSome, Option.isSome_iff_exists]
  constructor
  · rintro ⟨command, hl⟩
    obtain ⟨⟨x, hx, hid, -⟩, -, hall⟩ := (hT.lookup id command).mp hl
    exact ⟨⟨x, hx, hid⟩, hall⟩
  · rintro ⟨⟨x, hx, hid⟩, hall⟩
    exact ⟨_, (hT.lookup id ⟨x.key, _⟩).mpr ⟨⟨x, hx, hid, rfl⟩, rfl, hall⟩⟩

/-- The first command meets the second, which then meets none; the third, which did not
arrive before, meets the second. -/
theorem counts_each_once_two :
    let cmd : ℕ → CmdId := fun i => ⟨i, 0⟩
    let events : List TrackerEvent := [.arrival (cmd 1) 7, .arrival (cmd 2) 7,
      .execution 0 (cmd 1) 7, .execution 1 (cmd 1) 7, .execution 0 (cmd 2) 7,
      .execution 1 (cmd 3) 7]
    (ConflictTracker.after 2 events).executedCommands = 3 ∧
      (ConflictTracker.after 2 events).conflictingCommands = 2 ∧
      cmd 1 ∉ (ConflictTracker.after 2 events).commands := by
  intro cmd events
  have hR : Regular {0, 1} events := by
    refine ⟨by decide, by decide, by decide, fun i id key hi => ?_⟩
    have hlt : i < 6 := (List.getElem?_eq_some_iff.mp hi).1
    interval_cases i <;> simp only [events, List.getElem?_cons_zero, List.getElem?_cons_succ,
      Option.some.injEq, TrackerEvent.arrival.injEq, reduceCtorEq] at hi
    · exact hi.1 ▸ by decide
    · exact hi.1 ▸ by decide
  obtain ⟨hexec, hconf, hmem⟩ := counts_each_once {0, 1} events hR
  exact ⟨hexec.trans (by decide), hconf.trans (by decide), fun h => ((hmem _).mp h).2 (by decide)⟩

end Blsmr
