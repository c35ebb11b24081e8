import Blsmr.Log.Promote

/-!
# The three calls

`record_creation`, `submit` and `commit`, each with its effect on the log
(`submit_spec`, `commit_spec`) and each keeping `Inv`. `payload` is the command a
log holds for an identifier, in its entry or, once executed, in the execution:
a submit of an identifier that is neither stable nor paid for sets it, and
nothing else changes it.
-/

namespace Blsmr

open Blsmr.Graph Blsmr.Tarjan

/-- What a committed entry lets a search pass to. -/
def Entry.committedDeps (e : Entry) : Option (List CmdId) :=
  if e.phase = .commit ∨ e.phase = .stable then some e.depList else none

/-- An entry after a submit of `cmd`. -/
def Entry.pay (e : Entry) (cmd : Command) : Entry := { e with cmd := e.cmd.or (some cmd) }

namespace CmdLog

variable {log log' : CmdLog} {id : CmdId} {cmd : Command} {deps ids : List CmdId} {hash : HashOrder}
  {new : List Execution}

theorem Inv.empty : Inv CmdLog.empty := by
  refine ⟨⟨?_, ?_, ?_, ?_, ?_, ?_, ?_, ?_⟩, ?_⟩ <;>
    simp [CmdLog.empty, entryAt, bucket, CmdLog.executed]

theorem expandCommitted_eq (log : CmdLog) (id : CmdId) : log.expandCommitted id =
    if id ∈ log.stable then some [] else (log.entryAt id).bind Entry.committedDeps := by
  unfold expandCommitted Entry.committedDeps
  cases log.entryAt id <;> rfl

theorem Core.entryOrNew (hC : Core log) (id : CmdId) :
    (log.entryAt id = some (log.entryOrNew id) ∨
      log.entryAt id = none ∧ log.entryOrNew id = Entry.new) ∧
      (log.entryOrNew id).executed = false ∧ (log.entryOrNew id).phase ≠ .stable ∧
      ∀ c, (log.entryOrNew id).cmd = some c → c.id = id := by
  cases he : log.entryAt id with
  | none =>
    have h : log.entryOrNew id = Entry.new := by simp [CmdLog.entryOrNew, he]
    simp [h, Entry.new]
  | some e =>
    have h : log.entryOrNew id = e := by simp [CmdLog.entryOrNew, he]
    obtain ⟨-, h2, h3⟩ := hC.fresh id e he
    rw [h]
    exact ⟨.inl rfl, h2, h3, fun c hc => hC.cmd_id id e c he hc⟩

theorem Core.depList_upsert (hC : Core log) {e : Entry}
    (hdeps : e.deps = (log.entryOrNew id).deps) : e.depList = log.depsOf id := by
  rw [Entry.depList, hdeps]
  rcases (hC.entryOrNew id).1 with h | ⟨h, h'⟩
  · rw [depsOf_of_entry h, Entry.depList]
  · rw [depsOf_of_none h, h']
    rfl

theorem Core.expandCommitted_upsert (hC : Core log) {e : Entry}
    (hlook : ∀ x, log'.entryAt x = if x = id then some e else log.entryAt x)
    (hdeps : e.deps = (log.entryOrNew id).deps) (hphase : e.phase = (log.entryOrNew id).phase)
    (hstab : log'.stable = log.stable) : log'.expandCommitted = log.expandCommitted := by
  funext x
  rw [expandCommitted_eq, expandCommitted_eq, hstab, hlook]
  by_cases hxi : x = id
  · subst hxi
    rw [if_pos rfl]
    rcases (hC.entryOrNew x).1 with h | ⟨h, h'⟩
    · rw [h]
      simp [Entry.committedDeps, hphase, hC.depList_upsert hdeps, depsOf_of_entry h]
    · simp [h, Entry.committedDeps, hphase, h', Entry.new]
  · rw [if_neg hxi]

/-- Writing an entry that differs from the old one in its command only keeps
the invariant, as long as the key index follows. -/
theorem Inv.upsert (hI : Inv log) (hs : id ∉ log.stable) {e : Entry}
    (hlook : ∀ x, log'.entryAt x = if x = id then some e else log.entryAt x)
    (hdeps : e.deps = (log.entryOrNew id).deps) (hphase : e.phase = (log.entryOrNew id).phase)
    (hexec : e.executed = (log.entryOrNew id).executed)
    (hcmd : ∀ c, e.cmd = some c → c.id = id) (hpend : log'.pendingCommit = log.pendingCommit)
    (hstab : log'.stable = log.stable) (hexs : log'.executions = log.executions)
    (hnodup : ∀ k, (log'.bucket k).Nodup)
    (hbucket : ∀ k x, x ∈ log'.bucket k ↔
      if x = id then ∃ c, e.cmd = some c ∧ c.key = k else x ∈ log.bucket k) : Inv log' := by
  obtain ⟨hent, hex, hph, -⟩ := hI.toCore.entryOrNew id
  have hself : log'.entryAt id = some e := by rw [hlook, if_pos rfl]
  have hother : ∀ x, x ≠ id → log'.entryAt x = log.entryAt x := fun x hx => by rw [hlook, if_neg hx]
  have hC : Core log' := by
    refine ⟨fun x e' hx => ?_, fun x e' c hx hc => ?_, fun x => ?_, hpend ▸ hI.pending_nodup,
      hstab ▸ hI.stable_nodup, hnodup, fun k x => ?_, ?_⟩
    · rw [hstab]
      by_cases hxi : x = id
      · subst hxi
        rw [hself] at hx
        cases hx
        exact ⟨hs, hexec.trans hex, hphase ▸ hph⟩
      · exact hI.fresh x e' (hother x hxi ▸ hx)
    · by_cases hxi : x = id
      · subst hxi
        rw [hself] at hx
        cases hx
        exact hcmd c hc
      · exact hI.cmd_id x e' c (hother x hxi ▸ hx) hc
    · rw [hpend, hI.pending_iff]
      by_cases hxi : x = id
      · subst hxi
        rw [hself]
        rcases hent with h | ⟨h, h'⟩
        · simp [h, hphase]
        · simp [h, hphase, h', Entry.new]
      · rw [hother x hxi]
    · rw [hbucket]
      by_cases hxi : x = id
      · subst hxi
        simp [hself]
      · rw [if_neg hxi, hother x hxi]
        exact hI.bucket_iff k x
    · rw [hstab, CmdLog.executed, hexs]
      exact hI.executed_perm
  have hexp := hI.toCore.expandCommitted_upsert hlook hdeps hphase hstab
  refine ⟨hC, fun x hxp hcl => ?_⟩
  have hdx : log'.depsOf x = log.depsOf x := by
    by_cases hxi : x = id
    · subst hxi
      rw [depsOf_of_entry hself, hI.toCore.depList_upsert hdeps]
    · simp [depsOf, hother x hxi]
  rw [ClosureCommitted, hexp, hdx] at hcl
  exact hI.blocked x (hpend ▸ hxp) hcl

theorem Core.mem_bucket_self (hC : Core log) (k : Key) (id : CmdId) :
    id ∈ log.bucket k ↔ ∃ c, (log.entryOrNew id).cmd = some c ∧ c.key = k := by
  rw [hC.bucket_iff]
  rcases (hC.entryOrNew id).1 with h | ⟨h, h'⟩
  · simp [h]
  · simp [h, h', Entry.new]

theorem Inv.recordCreation (hI : Inv log) (hs : id ∉ log.stable) : Inv (log.recordCreation id) := by
  refine hI.upsert hs (entryAt_setEntry log id _) rfl rfl rfl (hI.toCore.entryOrNew id).2.2.2 rfl
    rfl
    rfl hI.bucket_nodup fun k x => ?_
  show x ∈ log.bucket k ↔ _
  by_cases hx : x = id
  · subst hx
    rw [if_pos rfl, hI.mem_bucket_self]
  · rw [if_neg hx]

/-! ## `submit` -/

theorem submit_stable (h : cmd.id ∈ log.stable) : log.submit cmd = (log, []) := by
  simp [submit, h]

theorem submit_fields (log : CmdLog) (cmd : Command) :
    (log.submit cmd).1.pendingCommit = log.pendingCommit ∧
      (log.submit cmd).1.stable = log.stable ∧
      (log.submit cmd).1.executions = log.executions := by
  by_cases h : cmd.id ∈ log.stable
  · simp [submit, h]
  · by_cases hc : (log.entryOrNew cmd.id).cmd.isNone <;> simp [submit, h, hc]

/-- **What `submit` does** to an identifier that is not stable. -/
theorem submit_spec (h : cmd.id ∉ log.stable) :
    (∀ x, (log.submit cmd).1.entryAt x =
      if x = cmd.id then some ((log.entryOrNew cmd.id).pay cmd) else log.entryAt x) ∧
    (∀ k, (log.submit cmd).1.bucket k =
      if (log.entryOrNew cmd.id).cmd = none ∧ k = cmd.key then log.bucket k ++ [cmd.id]
      else log.bucket k) ∧
    (log.submit cmd).2 = log.conflicts cmd.key := by
  set e := log.entryOrNew cmd.id with he
  cases hc : e.cmd with
  | none =>
    have hrun : log.submit cmd = ({ log.setEntry cmd.id { e with cmd := some cmd } with
        byKey := log.byKey.insert cmd.key (log.bucket cmd.key ++ [cmd.id]) },
        log.conflicts cmd.key) := by
      simp [submit, h, ← he, hc]
    have hpay : e.pay cmd = { e with cmd := some cmd } := by simp [Entry.pay, hc]
    rw [hrun, hpay]
    refine ⟨entryAt_setEntry log cmd.id _, fun k => ?_, rfl⟩
    by_cases hk : k = cmd.key
    · subst hk; simp [bucket]
    · simp [bucket, AList.lookup_insert_ne hk, hk]
  | some c =>
    have hrun : log.submit cmd = (log.setEntry cmd.id e, log.conflicts cmd.key) := by
      simp [submit, h, ← he, hc]
    have hpay : e.pay cmd = e := by
      rw [Entry.pay, hc, Option.some_or, ← hc]
    rw [hrun, hpay]
    exact ⟨entryAt_setEntry log cmd.id e, fun k => by simp, rfl⟩

theorem Inv.submit (hI : Inv log) (cmd : Command) : Inv (log.submit cmd).1 := by
  by_cases hs : cmd.id ∈ log.stable
  · rw [submit_stable hs]; exact hI
  obtain ⟨hent, hex, hph, hcid⟩ := hI.toCore.entryOrNew cmd.id
  obtain ⟨hlook, hbk, -⟩ := submit_spec hs
  obtain ⟨hpc, hst, hxs⟩ := submit_fields log cmd
  refine hI.upsert hs hlook rfl rfl rfl (fun c hc => ?_) hpc hst hxs (fun k => ?_) fun k x => ?_
  · cases h : (log.entryOrNew cmd.id).cmd with
    | none => simp only [Entry.pay, h, Option.none_or, Option.some.injEq] at hc; rw [hc]
    | some c' => exact hcid c (by simpa [Entry.pay, h] using hc)
  · rw [hbk k]
    split
    · rename_i h
      refine List.nodup_append.mpr ⟨hI.bucket_nodup k, List.nodup_singleton _, ?_⟩
      rintro x hx y hy rfl
      obtain rfl := List.mem_singleton.mp hy
      obtain ⟨c, hc, -⟩ := (hI.mem_bucket_self k _).mp hx
      rw [h.1] at hc
      cases hc
    · exact hI.bucket_nodup k
  · rw [hbk k]
    by_cases hxi : x = cmd.id
    · subst hxi
      rw [if_pos rfl]
      cases hn : (log.entryOrNew cmd.id).cmd with
      | none =>
        by_cases hk : k = cmd.key
        · simp [hk, Entry.pay, hn]
        · simp [hk, Entry.pay, hn, hI.mem_bucket_self, Ne.symm hk]
      | some c => simp [Entry.pay, hn, hI.mem_bucket_self]
    · rw [if_neg hxi]
      split <;> simp [hxi]

theorem Core.mem_conflicts (hC : Core log) {k : Key} :
    id ∈ log.conflicts k ↔ ∃ e c, log.entryAt id = some e ∧ e.cmd = some c ∧ c.key = k := by
  unfold conflicts
  simp only [List.mem_filterMap, List.mem_filter, Option.map_eq_some_iff]
  constructor
  · rintro ⟨e, ⟨⟨x, hx, he⟩, -⟩, c, hc, rfl⟩
    obtain ⟨e', c', he', hc', hk⟩ := (hC.bucket_iff k x).mp hx
    rw [he] at he'
    cases he'
    rw [hc] at hc'
    cases hc'
    exact ⟨e, c, by rw [hC.cmd_id x e c he hc]; exact he, hc, hk⟩
  · rintro ⟨e, c, he, hc, hk⟩
    refine ⟨e, ⟨⟨id, (hC.bucket_iff k id).mpr ⟨e, c, he, hc, hk⟩, he⟩, ?_⟩, c, hc,
      hC.cmd_id id e c he hc⟩
    simpa using (hC.fresh id e he).2.2

/-! ## `commit` -/

/-- The log that `commit` hands to `promote_stable`. -/
def markCommitted (log : CmdLog) (id : CmdId) (deps : List CmdId) : CmdLog :=
  { log.setEntry id { log.entryOrNew id with
      deps := if deps.isEmpty then none else some deps, phase := .commit } with
    pendingCommit := log.pendingCommit.insert id }

theorem commit_stable (h : id ∈ log.stable) : log.commit hash id deps = some log := by
  simp [commit, h]

theorem commit_eq (h : id ∉ log.stable) :
    log.commit hash id deps = (log.markCommitted id deps).promoteStable hash := by
  simp [commit, h, markCommitted]

theorem entryAt_markCommitted (log : CmdLog) (id : CmdId) (deps : List CmdId) (x : CmdId) :
    (log.markCommitted id deps).entryAt x = if x = id then some { log.entryOrNew id with
      deps := if deps.isEmpty then none else some deps, phase := .commit } else log.entryAt x :=
  entryAt_setEntry log id _ x

theorem depsOf_markCommitted (log : CmdLog) (id : CmdId) (deps : List CmdId) (x : CmdId) :
    (log.markCommitted id deps).depsOf x = if x = id then deps else log.depsOf x := by
  unfold depsOf
  rw [entryAt_markCommitted]
  by_cases hx : x = id
  · simp only [if_pos hx, Entry.depList]
    cases deps <;> rfl
  · simp only [if_neg hx]

theorem Core.markCommitted (hC : Core log) (hs : id ∉ log.stable) (deps : List CmdId) :
    Core (log.markCommitted id deps) := by
  obtain ⟨hent, hex, hph, hcid⟩ := hC.entryOrNew id
  have hlook := entryAt_markCommitted log id deps
  have hother : ∀ x, x ≠ id → (log.markCommitted id deps).entryAt x = log.entryAt x :=
    fun x hx => by rw [hlook, if_neg hx]
  refine ⟨fun x e hx => ?_, fun x e c hx hc => ?_, fun x => ?_, ?_, hC.stable_nodup,
    hC.bucket_nodup, fun k x => ?_, hC.executed_perm⟩
  · show x ∉ log.stable ∧ _
    by_cases hxi : x = id
    · subst hxi
      rw [hlook, if_pos rfl] at hx
      cases hx
      exact ⟨hs, hex, by simp⟩
    · exact hC.fresh x e (hother x hxi ▸ hx)
  · by_cases hxi : x = id
    · subst hxi
      rw [hlook, if_pos rfl] at hx
      cases hx
      exact hcid c hc
    · exact hC.cmd_id x e c (hother x hxi ▸ hx) hc
  · show x ∈ log.pendingCommit.insert id ↔ _
    rw [List.mem_insert_iff]
    by_cases hxi : x = id
    · subst hxi
      simp [hlook]
    · rw [hother x hxi, hC.pending_iff]
      simp [hxi]
  · exact hC.pending_nodup.insert
  · show x ∈ log.bucket k ↔ _
    by_cases hxi : x = id
    · subst hxi
      rw [hC.mem_bucket_self, hlook]
      simp
    · rw [hother x hxi]
      exact hC.bucket_iff k x

/-- **What `commit` does**: it marks the command and promotes a batch. -/
theorem commit_spec (hC : Core log) (hs : id ∉ log.stable) (hash : HashOrder) (deps : List CmdId) :
    ∃ log' ids new, log.commit hash id deps = some log' ∧
      Promoted (log.markCommitted id deps) ids log' new ∧ Batch (log.markCommitted id deps) ids ∧
      Inv log' := by
  have hC' := hC.markCommitted hs deps
  obtain ⟨log', ids, new, hrun, P, hB, hmem⟩ := promoteStable_spec hC' hash
  exact ⟨log', ids, new, by rw [commit_eq hs, hrun], P, hB, P.inv hC' hB hmem⟩

theorem Inv.commit (hI : Inv log) (hash : HashOrder) (id : CmdId) (deps : List CmdId) :
    ∃ log', log.commit hash id deps = some log' ∧ Inv log' := by
  by_cases hs : id ∈ log.stable
  · exact ⟨log, commit_stable hs, hI⟩
  · obtain ⟨log', -, -, hrun, -, -, hI'⟩ := commit_spec hI.toCore hs hash deps
    exact ⟨log', hrun, hI'⟩

/-! ## The command held for an identifier -/

/-- The command held for `id`: by its execution if there is one, else by its entry. -/
def payload (log : CmdLog) (id : CmdId) : Option Command :=
  match log.executions.find? (·.id = id) with
  | some x => x.cmd
  | none => (log.entryAt id).bind Entry.cmd

theorem payload_of_executed (hnd : log.executed.Nodup) {x : Execution} (hx : x ∈ log.executions) :
    log.payload x.id = x.cmd := by
  have hfind : log.executions.find? (·.id = x.id) = some x := by
    refine List.find?_eq_some_iff_append.mpr ⟨by simp, ?_⟩
    obtain ⟨pre, post, hsplit⟩ := List.append_of_mem hx
    refine ⟨pre, post, hsplit, fun y hy => ?_⟩
    rw [CmdLog.executed, hsplit, List.map_append, List.map_cons, List.nodup_append] at hnd
    simpa using hnd.2.2 y.id (List.mem_map_of_mem hy) x.id List.mem_cons_self
  rw [payload, hfind]

theorem payload_of_not_executed (h : id ∉ log.executed) :
    log.payload id = (log.entryAt id).bind Entry.cmd := by
  have hfind : log.executions.find? (·.id = id) = none :=
    List.find?_eq_none.mpr fun x hx hxi => h (List.mem_map.mpr ⟨x, hx, by simpa using hxi⟩)
  rw [payload, hfind]

theorem Core.not_executed (hC : Core log) (h : id ∉ log.stable) : id ∉ log.executed :=
  fun h' => h (hC.executed_perm.mem_iff.mp h')

theorem Core.payload_of_not_stable (hC : Core log) (h : id ∉ log.stable) :
    log.payload id = (log.entryOrNew id).cmd := by
  rw [payload_of_not_executed (hC.not_executed h), CmdLog.entryOrNew]
  cases log.entryAt id <;> rfl

theorem payload_congr (hx : log'.executions = log.executions)
    (he : (log'.entryAt id).bind Entry.cmd = (log.entryAt id).bind Entry.cmd) :
    log'.payload id = log.payload id := by
  rw [payload, payload, hx, he]

theorem payload_recordCreation (log : CmdLog) (i id : CmdId) :
    (log.recordCreation i).payload id = log.payload id := by
  refine payload_congr rfl ?_
  rw [recordCreation, entryAt_setEntry]
  by_cases h : id = i
  · subst h
    rw [if_pos rfl, CmdLog.entryOrNew]
    cases log.entryAt id <;> rfl
  · rw [if_neg h]

/-- **Only a submit pays**, and only for an identifier that is not stable. -/
theorem Core.payload_submit (hC : Core log) (cmd : Command) (id : CmdId) :
    (log.submit cmd).1.payload id =
      if cmd.id = id ∧ id ∉ log.stable then (log.payload id).or (some cmd) else log.payload id := by
  by_cases hs : cmd.id ∈ log.stable
  · rw [submit_stable hs, if_neg]
    rintro ⟨rfl, h⟩
    exact h hs
  obtain ⟨hlook, -, -⟩ := submit_spec hs
  obtain ⟨-, -, hxs⟩ := submit_fields log cmd
  by_cases hid : cmd.id = id
  · subst hid
    have hnx : cmd.id ∉ (log.submit cmd).1.executed := by
      rw [CmdLog.executed, hxs]
      exact hC.not_executed hs
    rw [if_pos ⟨rfl, hs⟩, payload_of_not_executed hnx, hlook, if_pos rfl,
      hC.payload_of_not_stable hs]
    rfl
  · rw [if_neg fun h => hid h.1]
    exact payload_congr hxs (by rw [hlook, if_neg (Ne.symm hid)])

theorem payload_markCommitted (log : CmdLog) (i : CmdId) (deps : List CmdId) (id : CmdId) :
    (log.markCommitted i deps).payload id = log.payload id := by
  refine payload_congr rfl ?_
  rw [entryAt_markCommitted]
  by_cases h : id = i
  · subst h
    rw [if_pos rfl, CmdLog.entryOrNew]
    cases log.entryAt id <;> rfl
  · rw [if_neg h]

theorem Promoted.payload (hC : Core log) (hB : Batch log ids) (P : Promoted log ids log' new)
    (id : CmdId) : log'.payload id = log.payload id := by
  have hnd' : log'.executed.Nodup :=
    (P.core hC hB).executed_perm.nodup_iff.mpr (P.core hC hB).stable_nodup
  have hnd : log.executed.Nodup := hC.executed_perm.nodup_iff.mpr hC.stable_nodup
  by_cases hold : id ∈ log.executed
  · obtain ⟨x, hx, rfl⟩ := List.mem_map.mp hold
    rw [payload_of_executed hnd hx,
      payload_of_executed hnd' (by rw [P.executions]; exact List.mem_append_left _ hx)]
  by_cases hid : id ∈ ids
  · obtain ⟨x, hx, rfl⟩ := List.mem_map.mp (P.new_perm.mem_iff.mpr hid)
    rw [payload_of_executed hnd' (by rw [P.executions]; exact List.mem_append_right _ hx),
      payload_of_not_executed hold, P.new_cmd x hx]
    rfl
  · have hnew : id ∉ log'.executed := by
      rw [P.executed, List.mem_append, P.new_perm.mem_iff]
      exact fun h => h.elim hold hid
    rw [payload_of_not_executed hnew, payload_of_not_executed hold, P.entry, if_neg hid]

theorem Core.payload_commit (hC : Core log) (hrun : log.commit hash id deps = some log')
    (x : CmdId) : log'.payload x = log.payload x := by
  by_cases hs : id ∈ log.stable
  · rw [commit_stable hs, Option.some.injEq] at hrun
    rw [hrun]
  · obtain ⟨log'', ids, new, hrun', P, hB, -⟩ := commit_spec hC hs hash deps
    rw [hrun, Option.some.injEq] at hrun'
    subst hrun'
    rw [P.payload (hC.markCommitted hs deps) hB, payload_markCommitted]

end CmdLog

end Blsmr
