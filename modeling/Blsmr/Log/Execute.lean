import Blsmr.Log.CmdLog

/-!
# Execution of a pending closure

Lookup lemmas for the log's operations, the meaning of its graph searches
(`isDepsClosureCommitted_iff`, `collectPendingClosure_spec`, `components_of_nodes`) and
the effect of `tryExecute`: it sets the executed flag of the sorted components of the
unexecuted commands that the root depends on (`tryExecute_spec`).
-/

namespace Blsmr

open Blsmr.Graph Blsmr.Tarjan

namespace CmdLog

variable {log : CmdLog} {id d : CmdId} {e : Entry}

/-! ## Lookups -/

theorem entryAt_setEntry (log : CmdLog) (id : CmdId) (e : Entry) (x : CmdId) :
    (log.setEntry id e).entryAt x = if x = id then some e else log.entryAt x := by
  by_cases h : x = id
  · subst h; simp [entryAt, setEntry]
  · simp [entryAt, setEntry, AList.lookup_insert_ne h, h]

@[simp] theorem entryAt_setEntry_self (log : CmdLog) (id : CmdId) (e : Entry) :
    (log.setEntry id e).entryAt id = some e := by simp [entryAt_setEntry]

@[simp] theorem setEntry_stable (log : CmdLog) (id : CmdId) (e : Entry) :
    (log.setEntry id e).stable = log.stable := rfl
@[simp] theorem setEntry_pendingCommit (log : CmdLog) (id : CmdId) (e : Entry) :
    (log.setEntry id e).pendingCommit = log.pendingCommit := rfl
@[simp] theorem setEntry_executions (log : CmdLog) (id : CmdId) (e : Entry) :
    (log.setEntry id e).executions = log.executions := rfl
@[simp] theorem setEntry_byKey (log : CmdLog) (id : CmdId) (e : Entry) :
    (log.setEntry id e).byKey = log.byKey := rfl
@[simp] theorem setEntry_bucket (log : CmdLog) (id : CmdId) (e : Entry) (k : Key) :
    (log.setEntry id e).bucket k = log.bucket k := rfl

theorem depsOf_of_entry (h : log.entryAt id = some e) : log.depsOf id = e.depList := by
  simp [depsOf, h]

theorem depsOf_of_none (h : log.entryAt id = none) : log.depsOf id = [] := by
  simp [depsOf, h]

theorem mem_keys_of_entry (h : log.entryAt id = some e) : id ∈ log.entries.keys := by
  have : (log.entries.lookup id).isSome := by
    show (log.entryAt id).isSome
    simp [h]
  exact AList.lookup_isSome.mp this

/-! ## The committed closure -/

/-- Every command reachable from `deps` through stable and committed commands is
itself stable or committed. -/
def ClosureCommitted (log : CmdLog) (deps : List CmdId) : Prop :=
  ∀ d ∈ deps, ∀ x, Reach (follow log.expandCommitted) d x → (log.expandCommitted x).isSome

theorem expandCommitted_isSome :
    (log.expandCommitted id).isSome ↔ id ∈ log.stable ∨
      ∃ e, log.entryAt id = some e ∧ (e.phase = .commit ∨ e.phase = .stable) := by
  unfold expandCommitted
  by_cases hs : id ∈ log.stable
  · simp [hs]
  · cases he : log.entryAt id with
    | none => simp [hs]
    | some e => by_cases hp : e.phase = .commit ∨ e.phase = .stable <;> simp [hs, hp]

theorem follow_stable (h : id ∈ log.stable) : follow log.expandCommitted id = [] := by
  simp [follow, expandCommitted, h]

theorem follow_committed (h : id ∉ log.stable) (he : log.entryAt id = some e)
    (hp : e.phase = .commit) : follow log.expandCommitted id = e.depList := by
  simp [follow, expandCommitted, h, he, hp]

theorem isDepsClosureCommitted_iff {deps : List CmdId} :
    log.isDepsClosureCommitted deps = true ↔ log.ClosureCommitted deps := by
  unfold isDepsClosureCommitted ClosureCommitted
  rw [@search_isSome_iff _ _ _ (log.stable.toFinset ∪ log.entries.keys.toFinset)]
  · simp
  · intro s _ x _ hx
    rcases expandCommitted_isSome.mp hx with h | ⟨e, he, -⟩
    · simp [h]
    · simp [mem_keys_of_entry he]
  · refine (Finset.card_union_le _ _).trans (Nat.add_le_add ?_ ?_) <;>
      exact List.toFinset_card_le _

theorem ClosureCommitted.of_mem {deps : List CmdId} (h : log.ClosureCommitted deps) (hd : d ∈ deps)
    (hs : d ∉ log.stable) :
    ∃ e, log.entryAt d = some e ∧ (e.phase = .commit ∨ e.phase = .stable) ∧
      log.ClosureCommitted e.depList := by
  rcases expandCommitted_isSome.mp (h d hd d (Reach.refl _ _)) with h' | ⟨e, he, hp⟩
  · exact absurd h' hs
  · refine ⟨e, he, hp, fun x hx y hy => h d hd y (Reach.head ?_ hy)⟩
    simpa [follow, expandCommitted, hs, he, hp] using hx

/-! ## The pending closure -/

theorem mem_pendingDeps {x y : CmdId} :
    y ∈ log.pendingDeps x ↔
      y ∈ log.depsOf x ∧ ∃ e, log.entryAt y = some e ∧ e.executed = false := by
  unfold pendingDeps
  rw [List.mem_filter]
  cases log.entryAt y <;> simp

/-- `collect_pending_closure` returns, sorted, exactly what the root reaches
through unexecuted entries. -/
theorem collectPendingClosure_spec {root : CmdId} (he : log.entryAt root = some e) :
    ∃ nodes, log.collectPendingClosure root = some nodes ∧
      ∀ x, x ∈ nodes ↔ Reach log.pendingDeps root x := by
  have huniv : ∀ x, Reach log.pendingDeps root x → x ∈ log.entries.keys.toFinset := by
    intro x hx
    induction hx with
    | refl => simpa using mem_keys_of_entry he
    | tail _ hy _ =>
      obtain ⟨-, e', he', -⟩ := mem_pendingDeps.mp hy
      simpa using mem_keys_of_entry he'
  obtain ⟨found, hf, -, hmem⟩ := search_total huniv
    ((List.toFinset_card_le _).trans (Nat.le_succ log.entries.keys.length))
  refine ⟨found.insertionSort (· ≤ ·), by simp [collectPendingClosure, hf], fun x => ?_⟩
  rw [List.mem_insertionSort, hmem]

/-! ## Setting the executed flags -/

/-- Execute the commands of a list in order. -/
def executeAll (log : CmdLog) (ids : List CmdId) : CmdLog := ids.foldl executeEntry log

theorem executeEntry_fields (log : CmdLog) (id : CmdId) :
    (log.executeEntry id).byKey = log.byKey ∧
      (log.executeEntry id).pendingCommit = log.pendingCommit ∧
      (log.executeEntry id).stable = log.stable := by
  unfold executeEntry
  cases log.entryAt id with
  | none => exact ⟨rfl, rfl, rfl⟩
  | some e => by_cases h : e.executed <;> simp [h]

theorem executeAll_fields (ids : List CmdId) :
    ∀ log : CmdLog, (log.executeAll ids).byKey = log.byKey ∧
      (log.executeAll ids).pendingCommit = log.pendingCommit ∧
      (log.executeAll ids).stable = log.stable := by
  induction ids with
  | nil => exact fun log => ⟨rfl, rfl, rfl⟩
  | cons id ids ih =>
    intro log
    obtain ⟨h1, h2, h3⟩ := ih (log.executeEntry id)
    obtain ⟨g1, g2, g3⟩ := executeEntry_fields log id
    exact ⟨h1.trans g1, h2.trans g2, h3.trans g3⟩

/-- The execution of `id` with the command its entry holds. -/
def executionOf (log : CmdLog) (id : CmdId) : Execution := ⟨id, (log.entryAt id).bind Entry.cmd⟩

/-- An entry after the commands of `ids` were executed. -/
def markIf (ids : List CmdId) (id : CmdId) (e : Entry) : Entry :=
  if id ∈ ids then { e with executed := true } else e

@[simp] theorem markIf_cmd (ids : List CmdId) (id : CmdId) (e : Entry) :
    (markIf ids id e).cmd = e.cmd := by unfold markIf; split <;> rfl
@[simp] theorem markIf_phase (ids : List CmdId) (id : CmdId) (e : Entry) :
    (markIf ids id e).phase = e.phase := by unfold markIf; split <;> rfl
@[simp] theorem markIf_depList (ids : List CmdId) (id : CmdId) (e : Entry) :
    (markIf ids id e).depList = e.depList := by unfold markIf; split <;> rfl

theorem markIf_executed (ids : List CmdId) (id : CmdId) (e : Entry) :
    (markIf ids id e).executed = (decide (id ∈ ids) || e.executed) := by
  unfold markIf; split <;> simp [*]

theorem executeAll_spec :
    ∀ {ids : List CmdId} {log : CmdLog}, ids.Nodup →
      (∀ x ∈ ids, ∃ e, log.entryAt x = some e ∧ e.executed = false) →
      (∀ x, (log.executeAll ids).entryAt x = (log.entryAt x).map (markIf ids x)) ∧
        (log.executeAll ids).executions = log.executions ++ ids.map log.executionOf := by
  intro ids
  induction ids with
  | nil =>
    intro log _ _
    refine ⟨fun x => ?_, by simp [executeAll]⟩
    show log.entryAt x = (log.entryAt x).map (markIf [] x)
    cases log.entryAt x <;> simp [markIf]
  | cons id ids ih =>
    intro log hnd hex
    obtain ⟨hid, hnd'⟩ := List.nodup_cons.mp hnd
    obtain ⟨e, he, hne⟩ := hex id List.mem_cons_self
    have hstep : log.executeEntry id = { log.setEntry id { e with executed := true } with
        executions := log.executions ++ [log.executionOf id] } := by
      simp [executeEntry, he, hne, executionOf]
    have hlook : ∀ x, (log.executeEntry id).entryAt x =
        if x = id then some { e with executed := true } else log.entryAt x := fun x => by
      rw [hstep]
      exact entryAt_setEntry log id _ x
    have hother : ∀ x ∈ ids, (log.executeEntry id).entryAt x = log.entryAt x := fun x hx => by
      have hxid : x ≠ id := fun h => hid (h ▸ hx)
      rw [hlook x, if_neg hxid]
    obtain ⟨h1, h2⟩ := @ih (log.executeEntry id) hnd' fun x hx => by
      rw [hother x hx]
      exact hex x (List.mem_cons_of_mem _ hx)
    have hall : log.executeAll (id :: ids) = (log.executeEntry id).executeAll ids := rfl
    refine ⟨fun x => ?_, ?_⟩
    · rw [hall, h1 x, hlook x]
      by_cases hx : x = id
      · subst hx
        simp [he, markIf, hid]
      · cases log.entryAt x <;> simp [hx, markIf]
    · rw [hall, h2]
      have hmap : ids.map (log.executeEntry id).executionOf = ids.map log.executionOf :=
        List.map_congr_left fun x hx => by simp [executionOf, hother x hx]
      rw [hmap, hstep]
      simp

theorem foldl_components (sccs : List (List CmdId)) :
    ∀ log : CmdLog, sccs.foldl
      (fun log scc => (scc.insertionSort (· ≤ ·)).foldl executeEntry log) log =
      log.executeAll (DepFirst.flatSort sccs) := by
  induction sccs with
  | nil => exact fun _ => rfl
  | cons scc sccs ih =>
    intro log
    rw [List.foldl_cons, ih]
    simp [executeAll, DepFirst.flatSort, List.foldl_append]

/-! ## Components -/

theorem tarjanSccs_spec (log : CmdLog) (nodes : List CmdId) :
    ∃ sccs, log.tarjanSccs nodes = some sccs ∧ SccsOk (within nodes log.depsOf) sccs ∧
      ∀ x, x ∈ sccs.flatten ↔ x ∈ nodes :=
  components_spec log.depsOf nodes

/-- **The components of any list of nodes**: each node is in one of them, once; the nodes
of one component reach each other inside the list; what they depend on comes earlier. -/
theorem components_of_nodes (log : CmdLog) (nodes : List CmdId) :
    ∃ sccs, log.tarjanSccs nodes = some sccs ∧
      (∀ scc ∈ sccs, ∀ x ∈ scc, x ∈ nodes) ∧
      (∀ x ∈ nodes, sccs.flatten.count x = 1) ∧
      (∀ x ∈ nodes, ∀ y ∈ nodes, (∃ scc ∈ sccs, x ∈ scc ∧ y ∈ scc) ↔
        Reach (within nodes log.depsOf) x y ∧ Reach (within nodes log.depsOf) y x) ∧
      ∀ (i j : ℕ) (c d : List CmdId), sccs[i]? = some c → sccs[j]? = some d → i ≠ j →
        ∀ x ∈ c, ∀ y ∈ d, y ∈ log.depsOf x → j < i := by
  obtain ⟨sccs, hs, hok, hflat⟩ := log.tarjanSccs_spec nodes
  have hin : ∀ scc ∈ sccs, ∀ x ∈ scc, x ∈ nodes := fun scc hscc x hx =>
    (hflat x).mp (List.mem_flatten.mpr ⟨scc, hscc, hx⟩)
  refine ⟨sccs, hs, hin, fun x hx => ?_, fun x hx y hy => ⟨?_, fun hxy => ?_⟩, ?_⟩
  · exact List.count_eq_one_of_mem hok.nodup ((hflat x).mpr hx)
  · rintro ⟨scc, hscc, hx, hy⟩
    exact (hok.same_iff hscc hx).mp hy
  · obtain ⟨scc, hscc, hx⟩ := List.mem_flatten.mp ((hflat x).mpr hx)
    exact ⟨scc, hscc, hx, (hok.same_iff hscc hx).mpr hxy⟩
  · intro i j c d hi hj hij x hx y hy hdep
    exact hok.index_lt hi hj hij hx hy
      (mem_within.mpr ⟨hdep, hin d (List.mem_of_getElem? hj) y hy⟩)

/-- **What `try_execute` executes.** -/
theorem tryExecute_spec {root : CmdId} (he : log.entryAt root = some e) (hne : e.executed = false) :
    ∃ nodes sccs, log.tryExecute root = some (log.executeAll (DepFirst.flatSort sccs)) ∧
      SccsOk (within nodes log.depsOf) sccs ∧ (∀ x, x ∈ sccs.flatten ↔ x ∈ nodes) ∧
      ∀ x, x ∈ nodes ↔ Reach log.pendingDeps root x := by
  obtain ⟨nodes, hn, hmem⟩ := collectPendingClosure_spec he
  obtain ⟨sccs, hs, hok, hflat⟩ := log.tarjanSccs_spec nodes
  refine ⟨nodes, sccs, ?_, hok, hflat, hmem⟩
  rw [tryExecute, he, if_neg (by simp [hne]), hn]
  simp only [Option.bind_eq_bind, Option.bind_some, hs, foldl_components]
  rfl

theorem tryExecute_executed {root : CmdId} (he : log.entryAt root = some e)
    (hex : e.executed = true) : log.tryExecute root = some log := by
  simp [tryExecute, he, hex]

end CmdLog

end Blsmr
