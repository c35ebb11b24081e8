import Blsmr.Log.Conflicts
import Mathlib.Data.List.Sort

/-!
# What the tracker keeps for reports (`crates/blsmr/src/log.rs`)

Beside its counters the `ConflictTracker` keeps, for every command whose announce quorum was
handed over, whether it took the fast path, and, for every command decided, the
dependencies; `path_records` lists them by identifier. Both maps hold what they were told,
as long as they are told it once (`lookup_paths`, `lookup_dependencies`).
-/

namespace Blsmr

structure PathRecord where
  cmdId : CmdId
  fast : Bool
  deps : Option (List CmdId)
  deriving DecidableEq

/-- `ConflictTracker` with all its fields. -/
structure Tracker extends ConflictTracker where
  paths : AList fun _ : CmdId => Bool
  dependencies : AList fun _ : CmdId => List CmdId

/-- A call on the tracker. -/
inductive TrackerCall where
  | event (event : TrackerEvent)
  | path (cmdId : CmdId) (fast : Bool)
  | decision (cmdId : CmdId) (deps : List CmdId)
  deriving DecidableEq

namespace Tracker

/-- `ConflictTracker::new`. -/
def new (replicaCount : ℕ) : Tracker := { ConflictTracker.new replicaCount with
  paths := ∅, dependencies := ∅ }

def recordPath (cmdId : CmdId) (fast : Bool) (self : Tracker) : Tracker :=
  { self with paths := self.paths.insert cmdId fast }

def recordDecision (cmdId : CmdId) (deps : List CmdId) (self : Tracker) : Tracker :=
  { self with dependencies := self.dependencies.insert cmdId deps }

/-- The tracker is told. -/
def record (self : Tracker) : TrackerCall → Tracker
  | .event event => { self with toConflictTracker := event.record self.toConflictTracker }
  | .path cmdId fast => self.recordPath cmdId fast
  | .decision cmdId deps => self.recordDecision cmdId deps

/-- The tracker of so many replicas after the calls. -/
def after (replicaCount : ℕ) (calls : List TrackerCall) : Tracker :=
  calls.foldl record (new replicaCount)

def pathRecords (self : Tracker) : List PathRecord :=
  (self.paths.entries.map fun path =>
    { cmdId := path.1, fast := path.2, deps := self.dependencies.lookup path.1 }).insertionSort
      fun record other => record.cmdId ≤ other.cmdId

end Tracker

namespace TrackerCall

def event? : TrackerCall → Option TrackerEvent
  | .event e => some e
  | _ => none

def path? : TrackerCall → Option (CmdId × Bool)
  | .path cmdId fast => some (cmdId, fast)
  | _ => none

def decision? : TrackerCall → Option (CmdId × List CmdId)
  | .decision cmdId deps => some (cmdId, deps)
  | _ => none

end TrackerCall

namespace Tracker

open TrackerCall

variable {n : ℕ} {calls : List TrackerCall} {id : CmdId}

theorem after_snoc (call : TrackerCall) :
    after n (calls ++ [call]) = (after n calls).record call := by
  rw [after, List.foldl_append]
  rfl

theorem after_toConflictTracker :
    (after n calls).toConflictTracker = .after n (calls.filterMap event?) := by
  induction calls using List.reverseRecOn with
  | nil => rfl
  | append_singleton calls call ih =>
    rw [after_snoc, List.filterMap_append, ConflictTracker.after, List.foldl_append]
    cases call with
    | event e => exact congrArg (TrackerEvent.record · e) ih
    | path => exact ih
    | decision => exact ih

theorem lookup_of_told {α : Type*} {m m' : AList fun _ : CmdId => α} {told : List (CmdId × α)}
    {i : CmdId} {a : α} (hm : ∀ j b, m.lookup j = some b ↔ (j, b) ∈ told)
    (hm' : m' = m.insert i a) (hnew : ∀ b, (i, b) ∉ told) (j : CmdId) (b : α) :
    m'.lookup j = some b ↔ (j, b) ∈ told ++ [(i, a)] := by
  subst hm'
  rw [List.mem_append, List.mem_singleton, Prod.mk.injEq]
  by_cases hj : j = i
  · subst hj
    rw [AList.lookup_insert, Option.some.injEq]
    exact ⟨fun h => .inr ⟨rfl, h.symm⟩, fun h => (h.resolve_left (hnew b)).2.symm⟩
  · rw [AList.lookup_insert_ne hj, hm]
    exact ⟨.inl, fun h => h.resolve_right fun h' => hj h'.1⟩

theorem not_mem_of_nodup {α : Type*} {told : List (CmdId × α)} {i : CmdId} {a b : α}
    (h : ((told ++ [(i, a)]).map Prod.fst).Nodup) : (i, b) ∉ told := fun hb => by
  rw [List.map_append, List.nodup_append] at h
  exact h.2.2 i (List.mem_map_of_mem hb) i (by simp) rfl

theorem lookup_paths (h : ((calls.filterMap path?).map Prod.fst).Nodup) (fast : Bool) :
    (after n calls).paths.lookup id = some fast ↔ (id, fast) ∈ calls.filterMap path? := by
  induction calls using List.reverseRecOn generalizing id fast with
  | nil => exact iff_of_false (fun h => nomatch h) List.not_mem_nil
  | append_singleton calls call ih =>
    rw [List.filterMap_append] at h ⊢
    have ih := fun j b => @ih j (h.sublist ((List.sublist_append_left _ _).map _)) b
    rw [after_snoc]
    cases call with
    | path i a => exact lookup_of_told ih rfl (fun b => not_mem_of_nodup h) id fast
    | event => simpa [path?, record] using ih id fast
    | decision => simpa [path?, record, recordDecision] using ih id fast

theorem lookup_dependencies (h : ((calls.filterMap decision?).map Prod.fst).Nodup)
    (deps : List CmdId) : (after n calls).dependencies.lookup id = some deps ↔
      (id, deps) ∈ calls.filterMap decision? := by
  induction calls using List.reverseRecOn generalizing id deps with
  | nil => exact iff_of_false (fun h => nomatch h) List.not_mem_nil
  | append_singleton calls call ih =>
    rw [List.filterMap_append] at h ⊢
    have ih := fun j b => @ih j (h.sublist ((List.sublist_append_left _ _).map _)) b
    rw [after_snoc]
    cases call with
    | decision i a => exact lookup_of_told ih rfl (fun b => not_mem_of_nodup h) id deps
    | event => simpa [decision?, record] using ih id deps
    | path => simpa [decision?, record, recordPath] using ih id deps

/-! ## The records -/

theorem mem_pathRecords {self : Tracker} {r : PathRecord} : r ∈ self.pathRecords ↔
    self.paths.lookup r.cmdId = some r.fast ∧ r.deps = self.dependencies.lookup r.cmdId := by
  unfold pathRecords
  rw [List.mem_insertionSort, List.mem_map]
  constructor
  · rintro ⟨⟨i, fast⟩, hmem, rfl⟩
    exact ⟨AList.mem_lookup_iff.mpr hmem, rfl⟩
  · rintro ⟨hl, hd⟩
    refine ⟨⟨r.cmdId, r.fast⟩, AList.mem_lookup_iff.mp hl, ?_⟩
    rw [← hd]

theorem pathRecords_pairwise (self : Tracker) :
    self.pathRecords.Pairwise fun r r' => r.cmdId < r'.cmdId := by
  have hle : self.pathRecords.Pairwise fun r r' => r.cmdId ≤ r'.cmdId := by
    have : Std.Total fun r r' : PathRecord => r.cmdId ≤ r'.cmdId :=
      ⟨fun r r' => le_total r.cmdId r'.cmdId⟩
    have : IsTrans PathRecord fun r r' => r.cmdId ≤ r'.cmdId := ⟨fun _ _ _ => le_trans⟩
    exact List.pairwise_insertionSort _ _
  have hnd : (self.pathRecords.map PathRecord.cmdId).Nodup := by
    have hperm := (List.perm_insertionSort (fun r r' : PathRecord => r.cmdId ≤ r'.cmdId)
      (self.paths.entries.map fun path => (⟨path.1, path.2, self.dependencies.lookup path.1⟩ :
        PathRecord))).map PathRecord.cmdId
    refine hperm.nodup_iff.mpr ?_
    rw [List.map_map]
    exact self.paths.nodupKeys
  refine (hle.and (List.pairwise_map.mp hnd)).imp fun {r r'} h => lt_of_le_of_ne h.1 h.2

end Tracker

end Blsmr
