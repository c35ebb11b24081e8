import Blsmr.Log.Execute

/-!
# Promotion

`Core` is what holds of a log whenever no promotion is running, `Inv` adds that
every pending command is blocked by an uncommitted dependency. `Promoted`
describes one run of `promote_stable` as a whole: a batch `ids` of pending
commands, closed under dependencies up to stable ones, leaves `entries`,
`pending_commit` and the key index, joins `stable`, and is executed
dependencies first. `promoteStable_spec` proves that this is what happens, for
every hash order, by following the loop with `Promoting`.
-/

namespace Blsmr

open Blsmr.Graph Blsmr.Tarjan

namespace CmdLog

variable {log : CmdLog}

/-- The log between calls, up to pending commands that could be promoted. -/
structure Core (log : CmdLog) : Prop where
  fresh : ∀ id e, log.entryAt id = some e →
    id ∉ log.stable ∧ e.executed = false ∧ e.phase ≠ .stable
  cmd_id : ∀ id e c, log.entryAt id = some e → e.cmd = some c → c.id = id
  pending_iff : ∀ id, id ∈ log.pendingCommit ↔ ∃ e, log.entryAt id = some e ∧ e.phase = .commit
  pending_nodup : log.pendingCommit.Nodup
  stable_nodup : log.stable.Nodup
  bucket_nodup : ∀ k, (log.bucket k).Nodup
  bucket_iff : ∀ k id, id ∈ log.bucket k ↔
    ∃ e c, log.entryAt id = some e ∧ e.cmd = some c ∧ c.key = k
  executed_perm : log.executed.Perm log.stable

/-- The log between calls. -/
structure Inv (log : CmdLog) : Prop extends Core log where
  blocked : ∀ id ∈ log.pendingCommit, ¬ log.ClosureCommitted (log.depsOf id)

/-- A batch that may be promoted together. -/
structure Batch (log : CmdLog) (ids : List CmdId) : Prop where
  nodup : ids.Nodup
  committed : ∀ id ∈ ids, ∃ e, log.entryAt id = some e ∧ e.phase = .commit
  closed : ∀ id ∈ ids, ∀ d ∈ log.depsOf id, d ∈ ids ∨ d ∈ log.stable

/-- One run of `promote_stable` over the batch `ids`. -/
structure Promoted (log : CmdLog) (ids : List CmdId) (log' : CmdLog) (new : List Execution) :
    Prop where
  entry : ∀ x, log'.entryAt x = if x ∈ ids then none else log.entryAt x
  pending : log'.pendingCommit = log.pendingCommit.filter (· ∉ ids)
  stable : log'.stable = ids.reverse ++ log.stable
  bucket : ∀ k, log'.bucket k = (log.bucket k).filter (· ∉ ids)
  executions : log'.executions = log.executions ++ new
  new_perm : (new.map Execution.id).Perm ids
  new_cmd : ∀ x ∈ new, x = log.executionOf x.id
  ordered : DepFirst (within ids log.depsOf) (new.map Execution.id)

/-- The promotion loop after the prefix `done` of `ids`, with `new` executed so far. -/
structure Promoting (log : CmdLog) (ids done : List CmdId) (t : CmdLog) (new : List Execution) :
    Prop where
  entry : ∀ x, t.entryAt x =
    if x ∈ done then none else (log.entryAt x).map (markIf (new.map Execution.id) x)
  pending : t.pendingCommit = log.pendingCommit.filter (· ∉ done)
  stable : t.stable = done.reverse ++ log.stable
  bucket : ∀ k, t.bucket k = (log.bucket k).filter (· ∉ done)
  executions : t.executions = log.executions ++ new
  done_sub : ∀ x ∈ done, x ∈ new.map Execution.id
  new_sub : ∀ x ∈ new.map Execution.id, x ∈ ids
  new_cmd : ∀ x ∈ new, x = log.executionOf x.id
  ordered : DepFirst (within ids log.depsOf) (new.map Execution.id)

theorem Promoting.start (log : CmdLog) (ids : List CmdId) : Promoting log ids [] log [] := by
  refine ⟨fun x => ?_, by simp, by simp, by simp, by simp, by simp, by simp, by simp,
    DepFirst.nil _⟩
  cases log.entryAt x <;> simp [markIf]

/-! ## Buckets -/

theorem bucket_congr {log log' : CmdLog} (h : log.byKey = log'.byKey) (k : Key) :
    log.bucket k = log'.bucket k := by
  rw [bucket, h]
  rfl

theorem bucket_retain (log : CmdLog) (key : Key) (id : CmdId) (k : Key) :
    (log.retainInBucket key id).bucket k =
      if k = key then (log.bucket k).filter (· ≠ id) else log.bucket k := by
  unfold retainInBucket
  cases hb : log.byKey.lookup key with
  | none =>
    by_cases hk : k = key
    · subst hk; simp [bucket, hb]
    · simp [hk]
  | some b =>
    by_cases hk : k = key
    · subst hk; simp [bucket, hb]
    · simp [bucket, AList.lookup_insert_ne hk, hk]

theorem retain_fields (log : CmdLog) (key : Key) (id : CmdId) :
    (log.retainInBucket key id).entries = log.entries ∧
      (log.retainInBucket key id).pendingCommit = log.pendingCommit ∧
      (log.retainInBucket key id).stable = log.stable ∧
      (log.retainInBucket key id).executions = log.executions := by
  unfold retainInBucket
  cases log.byKey.lookup key <;> exact ⟨rfl, rfl, rfl, rfl⟩

/-! ## One round -/

theorem promoteOne_eq {t v : CmdLog} {id : CmdId} {e : Entry} (he : t.entryAt id = some e)
    (hv : (({ t with pendingCommit := t.pendingCommit.erase id } : CmdLog).setEntry id
      { e with phase := .stable }).tryExecute id = some v) :
    t.promoteOne id =
      let w := match e.cmd with
        | some cmd => v.retainInBucket cmd.key id
        | none => v
      some { w with entries := w.entries.erase id, stable := id :: w.stable } := by
  have he' : ({ t with pendingCommit := t.pendingCommit.erase id } : CmdLog).entryAt id =
      some e := he
  simp only [promoteOne, he', Option.bind_eq_bind, Option.bind_some, hv]
  rfl

section Round

variable {ids done : List CmdId} {t : CmdLog} {new : List Execution} {id : CmdId}

theorem Promoting.entry_of_mem (hB : Batch log ids) (P : Promoting log ids done t new)
    (hid : id ∈ ids) (hnd : id ∉ done) :
    ∃ e, log.entryAt id = some e ∧ e.phase = .commit ∧
      t.entryAt id = some (markIf (new.map Execution.id) id e) := by
  obtain ⟨e, he, hp⟩ := hB.committed id hid
  exact ⟨e, he, hp, by rw [P.entry id, if_neg hnd, he]; rfl⟩

/-- The log `u` in which the command `id` of the batch is about to be executed. -/
structure Starting (log t u : CmdLog) (new : List Execution) (id : CmdId) (e : Entry) : Prop where
  entry : ∀ x, u.entryAt x = if x = id then some e else t.entryAt x
  executions : u.executions = t.executions
  depList : e.depList = log.depsOf id
  cmd : e.cmd = (log.executionOf id).cmd
  executed : e.executed = decide (id ∈ new.map Execution.id)

/-- The log `v` in which the command `id` of the batch has been executed. -/
structure Finished (log : CmdLog) (ids done : List CmdId) (u v : CmdLog)
    (new new' : List Execution) (id : CmdId) : Prop where
  pending : v.pendingCommit = u.pendingCommit
  stable : v.stable = u.stable
  byKey : v.byKey = u.byKey
  entry : ∀ x, x ≠ id → v.entryAt x =
    if x ∈ done then none else (log.entryAt x).map (markIf (new'.map Execution.id) x)
  executions : v.executions = log.executions ++ new'
  id_mem : id ∈ new'.map Execution.id
  new_mono : ∀ x ∈ new.map Execution.id, x ∈ new'.map Execution.id
  new_sub : ∀ x ∈ new'.map Execution.id, x ∈ ids
  new_cmd : ∀ x ∈ new', x = log.executionOf x.id
  ordered : DepFirst (within ids log.depsOf) (new'.map Execution.id)

section Execute

variable {u : CmdLog} {e : Entry}

theorem Promoting.waiting (hC : Core log) (hB : Batch log ids)
    (P : Promoting log ids done t new) (U : Starting log t u new id e) {x : CmdId}
    (hx : x ∈ ids) (hxn : x ∉ new.map Execution.id) :
    ∃ e', u.entryAt x = some e' ∧ e'.executed = false ∧ e'.depList = log.depsOf x ∧
      e'.cmd = (log.executionOf x).cmd := by
  by_cases hxi : x = id
  · subst hxi
    exact ⟨e, by rw [U.entry, if_pos rfl], by simpa [hxn] using U.executed, U.depList, U.cmd⟩
  · obtain ⟨e', he', -, hte⟩ := P.entry_of_mem hB hx fun h => hxn (P.done_sub x h)
    have hm : markIf (new.map Execution.id) x e' = e' := by rw [markIf, if_neg hxn]
    rw [hm] at hte
    exact ⟨e', by rw [U.entry, if_neg hxi, hte], (hC.fresh x e' he').2.1,
      (depsOf_of_entry he').symm, by simp [executionOf, he']⟩

/-- What the pending closure of a command of the batch finds: commands of the
batch that are not executed yet. -/
theorem Promoting.reach_pending (hC : Core log) (hB : Batch log ids)
    (P : Promoting log ids done t new) (U : Starting log t u new id e) (hid : id ∈ ids)
    (hnew : id ∉ new.map Execution.id) {x : CmdId} (hx : Reach u.pendingDeps id x) :
    x ∈ ids ∧ x ∉ new.map Execution.id := by
  induction hx with
  | refl => exact ⟨hid, hnew⟩
  | @tail y z _ hyz ih =>
    obtain ⟨hz, e', he', hne⟩ := mem_pendingDeps.mp hyz
    have hzl : z ∈ log.depsOf y := by
      obtain ⟨ey, hey, -, hdy, -⟩ := P.waiting hC hB U ih.1 ih.2
      rwa [depsOf_of_entry hey, hdy] at hz
    by_cases hzi : z = id
    · exact ⟨hzi ▸ hid, hzi ▸ hnew⟩
    · rw [U.entry, if_neg hzi, P.entry z] at he'
      by_cases hzd : z ∈ done
      · simp [hzd] at he'
      · rw [if_neg hzd, Option.map_eq_some_iff] at he'
        obtain ⟨e'', he'', rfl⟩ := he'
        refine ⟨(hB.closed y ih.1 z hzl).resolve_right (hC.fresh z e'' he'').1, fun hzn => ?_⟩
        simp [markIf, hzn] at hne

theorem Promoting.ordered_append (hC : Core log) (hB : Batch log ids)
    (P : Promoting log ids done t new) (U : Starting log t u new id e) {nodes : List CmdId}
    {sccs : List (List CmdId)} (hok : SccsOk (within nodes u.depsOf) sccs)
    (hL : ∀ x, x ∈ DepFirst.flatSort sccs ↔ x ∈ nodes)
    (hnodes : ∀ x, x ∈ nodes ↔ Reach u.pendingDeps id x)
    (hreach : ∀ x ∈ nodes, x ∈ ids ∧ x ∉ new.map Execution.id) :
    DepFirst (within ids log.depsOf) (new.map Execution.id ++ DepFirst.flatSort sccs) := by
  refine P.ordered.append (fun x hx => (hreach x ((hL x).mp hx)).2) (fun x hx y hy => ?_) ?_
  · obtain ⟨hyd, hys⟩ := mem_within.mp hy
    by_cases hyn : y ∈ new.map Execution.id
    · exact .inr hyn
    · have hxn := hreach x ((hL x).mp hx)
      obtain ⟨e', he', -, hde, -⟩ := P.waiting hC hB U hxn.1 hxn.2
      obtain ⟨ey, hey, hney, -⟩ := P.waiting hC hB U hys hyn
      refine .inl ((hL y).mpr ((hnodes y).mpr (((hnodes x).mp ((hL x).mp hx)).tail ?_)))
      exact mem_pendingDeps.mpr ⟨by rw [depsOf_of_entry he', hde]; exact hyd, ey, hey, hney⟩
  · refine (DepFirst.of_components hok).congr fun x hx y => ?_
    have hxn := hreach x ((hL x).mp hx)
    obtain ⟨e', he', -, hde, -⟩ := P.waiting hC hB U hxn.1 hxn.2
    simp only [mem_within, hL, depsOf_of_entry he', hde]
    exact ⟨fun h => ⟨h.1.1, h.2⟩, fun h => ⟨⟨h.1, (hreach y h.2).1⟩, h.2⟩⟩

/-- **Executing a command of the batch** appends what it still waits for. -/
theorem Promoting.execute (hC : Core log) (hB : Batch log ids) (P : Promoting log ids done t new)
    (U : Starting log t u new id e) (hid : id ∈ ids) :
    ∃ v new', u.tryExecute id = some v ∧ Finished log ids done u v new new' id := by
  have huid : u.entryAt id = some e := by rw [U.entry, if_pos rfl]
  by_cases hin : id ∈ new.map Execution.id
  · refine ⟨u, new, tryExecute_executed huid (by simp [U.executed, hin]), rfl, rfl, rfl,
      fun x hx => ?_, by rw [U.executions, P.executions], hin, fun _ h => h, P.new_sub, P.new_cmd,
      P.ordered⟩
    rw [U.entry, if_neg hx, P.entry x]
  obtain ⟨nodes, sccs, hrun, hok, hflat, hnodes⟩ := tryExecute_spec huid (by simp [U.executed, hin])
  have hreach : ∀ x ∈ nodes, x ∈ ids ∧ x ∉ new.map Execution.id := fun x hx =>
    P.reach_pending hC hB U hid hin ((hnodes x).mp hx)
  have hL : ∀ x, x ∈ DepFirst.flatSort sccs ↔ x ∈ nodes := fun x =>
    DepFirst.mem_flatSort.trans (hflat x)
  have hent : ∀ x ∈ DepFirst.flatSort sccs, ∃ e', u.entryAt x = some e' ∧ e'.executed = false ∧
      e'.depList = log.depsOf x ∧ e'.cmd = (log.executionOf x).cmd := fun x hx =>
    P.waiting hC hB U (hreach x ((hL x).mp hx)).1 (hreach x ((hL x).mp hx)).2
  have hndL : (DepFirst.flatSort sccs).Nodup :=
    (DepFirst.flatSort_perm sccs).nodup_iff.mpr hok.nodup
  obtain ⟨hentry, hexec⟩ := executeAll_spec hndL fun x hx => by
    obtain ⟨e', he', hne, -⟩ := hent x hx
    exact ⟨e', he', hne⟩
  obtain ⟨hbk, hpc, hst⟩ := executeAll_fields (DepFirst.flatSort sccs) u
  have hmapid : ((DepFirst.flatSort sccs).map u.executionOf).map Execution.id =
      DepFirst.flatSort sccs := by
    rw [List.map_map]
    exact List.map_id _
  refine ⟨_, new ++ (DepFirst.flatSort sccs).map u.executionOf, hrun, hpc, hst, hbk,
    fun x hx => ?_, ?_, ?_, ?_, ?_, ?_, ?_⟩
  · rw [hentry x, U.entry, if_neg hx, P.entry x]
    by_cases hxd : x ∈ done
    · simp [hxd]
    · simp only [if_neg hxd, Option.map_map, List.map_append, hmapid]
      congr 1
      funext e'
      simp only [Function.comp, markIf, List.mem_append]
      by_cases h1 : x ∈ new.map Execution.id <;> by_cases h2 : x ∈ DepFirst.flatSort sccs <;>
        simp [h1, h2]
  · rw [hexec, U.executions, P.executions, List.append_assoc]
  · rw [List.map_append, hmapid, List.mem_append, hL]
    exact .inr ((hnodes id).mpr (Reach.refl _ _))
  · intro x hx
    rw [List.map_append]
    exact List.mem_append_left _ hx
  · intro x hx
    rw [List.map_append, hmapid, List.mem_append] at hx
    exact hx.elim (P.new_sub x) fun h => (hreach x ((hL x).mp h)).1
  · intro x hx
    rcases List.mem_append.mp hx with hx | hx
    · exact P.new_cmd x hx
    · obtain ⟨y, hy, rfl⟩ := List.mem_map.mp hx
      obtain ⟨e', he', -, -, hce⟩ := hent y hy
      simp only [executionOf, he', Option.bind_some, hce]
  · rw [List.map_append, hmapid]
    exact P.ordered_append hC hB U hok hL hnodes hreach

end Execute

theorem Promoting.retain (hC : Core log) (P : Promoting log ids done t new) {v : CmdLog}
    {e : Entry} (he : log.entryAt id = some e) (hvb : v.byKey = t.byKey) :
    ∃ w : CmdLog, w = (match e.cmd with
      | some cmd => v.retainInBucket cmd.key id
      | none => v) ∧ w.entries = v.entries ∧ w.pendingCommit = v.pendingCommit ∧
      w.stable = v.stable ∧ w.executions = v.executions ∧
      ∀ k, w.bucket k = (v.bucket k).filter (· ≠ id) := by
  have hkeep : ∀ k, (∀ c, e.cmd = some c → c.key ≠ k) →
      (v.bucket k).filter (· ≠ id) = v.bucket k := by
    intro k hk
    refine List.filter_eq_self.mpr fun x hx => ?_
    rw [bucket_congr hvb k, P.bucket k] at hx
    obtain ⟨e', c, he', hc, hck⟩ := (hC.bucket_iff k x).mp (List.mem_of_mem_filter hx)
    by_contra hxi
    have hxi : x = id := by simpa using hxi
    subst hxi
    rw [he] at he'
    cases he'
    exact hk c hc hck
  cases hc : e.cmd with
  | none => exact ⟨v, rfl, rfl, rfl, rfl, rfl, fun k => (hkeep k (by simp [hc])).symm⟩
  | some cmd =>
    obtain ⟨h1, h2, h3, h4⟩ := retain_fields v cmd.key id
    refine ⟨_, rfl, h1, h2, h3, h4, fun k => ?_⟩
    rw [bucket_retain]
    by_cases hk : k = cmd.key
    · rw [if_pos hk]
    · rw [if_neg hk, hkeep k fun c hc' => by
        rw [hc] at hc'
        cases hc'
        exact Ne.symm hk]

/-- **One round of the loop** promotes `id`. -/
theorem Promoting.step (hC : Core log) (hB : Batch log ids) (P : Promoting log ids done t new)
    (hid : id ∈ ids) (hnd : id ∉ done) :
    ∃ t' new', t.promoteOne id = some t' ∧ Promoting log ids (done ++ [id]) t' new' := by
  obtain ⟨e, he, hp, hte⟩ := P.entry_of_mem hB hid hnd
  let u : CmdLog := ({ t with pendingCommit := t.pendingCommit.erase id }).setEntry id
    { markIf (new.map Execution.id) id e with phase := .stable }
  have U : Starting log t u new id { markIf (new.map Execution.id) id e with phase := .stable } :=
    { entry := fun x => entryAt_setEntry _ id _ x
      executions := rfl
      depList := by rw [depsOf_of_entry he, ← markIf_depList (new.map Execution.id) id e]; rfl
      cmd := by simp [executionOf, he]
      executed := by simp [markIf_executed, (hC.fresh id e he).2.1] }
  obtain ⟨v, new', hv, V⟩ := P.execute hC hB U hid
  obtain ⟨w, hw, hwe, hwp, hws, hwx, hwb⟩ := P.retain hC he V.byKey
  have hrun : t.promoteOne id =
      some { w with entries := w.entries.erase id, stable := id :: w.stable } := by
    rw [hw, promoteOne_eq hte hv, markIf_cmd]
  have hmem : ∀ x, (x ∈ done ++ [id]) = (x ∈ done ∨ x = id) := fun x => by simp
  refine ⟨_, new', hrun, ⟨fun x => ?_, ?_, ?_, fun k => ?_, ?_, ?_, V.new_sub, V.new_cmd,
    V.ordered⟩⟩
  · by_cases hx : x = id
    · subst hx
      simp [entryAt, hwe]
    · have h1 : CmdLog.entryAt
          { w with entries := w.entries.erase id, stable := id :: w.stable } x = v.entryAt x := by
        simp [entryAt, hwe, AList.lookup_erase_ne hx]
      rw [h1, V.entry x hx]
      simp [hx]
  · show w.pendingCommit = _
    rw [hwp, V.pending]
    show t.pendingCommit.erase id = _
    rw [P.pending, (hC.pending_nodup.filter _).erase_eq_filter, List.filter_filter]
    refine List.filter_congr fun x _ => ?_
    by_cases h1 : x ∈ done <;> by_cases h2 : x = id <;> simp [h1, h2]
  · show id :: w.stable = _
    rw [hws, V.stable]
    show id :: t.stable = _
    rw [P.stable]
    simp
  · show w.bucket k = _
    have hvk : v.bucket k = t.bucket k := bucket_congr V.byKey k
    rw [hwb k, hvk, P.bucket k, List.filter_filter]
    refine List.filter_congr fun x _ => ?_
    by_cases h1 : x ∈ done <;> by_cases h2 : x = id <;> simp [h1, h2]
  · show w.executions = _
    rw [hwx, V.executions]
  · intro x hx
    rw [hmem] at hx
    rcases hx with hx | rfl
    · exact V.new_mono x (P.done_sub x hx)
    · exact V.id_mem

end Round

/-- **The whole loop.** -/
theorem promote_loop (hC : Core log) {ids : List CmdId} (hB : Batch log ids) :
    ∀ {todo done : List CmdId} {t : CmdLog} {new : List Execution}, ids = done ++ todo →
      Promoting log ids done t new →
      ∃ t' new', todo.foldlM promoteOne t = some t' ∧ Promoting log ids ids t' new' := by
  intro todo
  induction todo with
  | nil =>
    intro done t new he P
    rw [List.append_nil] at he
    exact ⟨t, new, rfl, he ▸ P⟩
  | cons id todo ih =>
    intro done t new he P
    have hnd := hB.nodup
    rw [he, List.nodup_append] at hnd
    have hidn : id ∉ done := fun h => hnd.2.2 id h id List.mem_cons_self rfl
    obtain ⟨t', new', ht', P'⟩ := P.step hC hB (show id ∈ ids by simp [he]) hidn
    obtain ⟨t'', new'', ht'', P''⟩ := ih (by simp [he]) P'
    refine ⟨t'', new'', ?_, P''⟩
    simp only [List.foldlM_cons, ht', Option.bind_eq_bind, Option.bind_some, ht'']

theorem newlyStable_spec :
    ∀ {l : List CmdId}, (∀ id ∈ l, (log.entryAt id).isSome) →
      log.newlyStable l = some (l.filter fun id => log.isDepsClosureCommitted (log.depsOf id)) := by
  intro l
  induction l with
  | nil => exact fun _ => rfl
  | cons id l ih =>
    intro h
    obtain ⟨e, he⟩ := Option.isSome_iff_exists.mp (h id List.mem_cons_self)
    have hih := ih fun x hx => h x (List.mem_cons_of_mem _ hx)
    simp only [newlyStable, he, hih, Option.bind_eq_bind, Option.bind_some, List.filter_cons,
      depsOf_of_entry he]
    by_cases hc : log.isDepsClosureCommitted e.depList <;> simp [hc]

theorem Core.batch (hC : Core log) {ids : List CmdId} (hnd : ids.Nodup)
    (hmem : ∀ id, id ∈ ids ↔ id ∈ log.pendingCommit ∧ log.ClosureCommitted (log.depsOf id)) :
    Batch log ids := by
  refine ⟨hnd, fun id hid => (hC.pending_iff id).mp ((hmem id).mp hid).1, fun id hid d hd => ?_⟩
  by_cases hs : d ∈ log.stable
  · exact .inr hs
  · obtain ⟨e, he, hp, hcl⟩ := ((hmem id).mp hid).2.of_mem hd hs
    have hpc : e.phase = .commit := hp.resolve_right (hC.fresh d e he).2.2
    refine .inl ((hmem d).mpr ⟨(hC.pending_iff d).mpr ⟨e, he, hpc⟩, ?_⟩)
    rwa [depsOf_of_entry he]

/-- **`promote_stable`** promotes exactly the pending commands whose
dependencies are all committed, whatever the hash order. -/
theorem promoteStable_spec (hC : Core log) (hash : HashOrder) :
    ∃ log' ids new, log.promoteStable hash = some log' ∧ Promoted log ids log' new ∧
      Batch log ids ∧
      ∀ id, id ∈ ids ↔ id ∈ log.pendingCommit ∧ log.ClosureCommitted (log.depsOf id) := by
  have hperm := hash.perm log.pendingCommit
  have hns := @newlyStable_spec log (hash.order log.pendingCommit) fun id hid => by
    obtain ⟨e, he, -⟩ := (hC.pending_iff id).mp (hperm.mem_iff.mp hid)
    simp [he]
  set ids := (hash.order log.pendingCommit).filter
    fun id => log.isDepsClosureCommitted (log.depsOf id) with hids
  have hmem : ∀ id, id ∈ ids ↔ id ∈ log.pendingCommit ∧ log.ClosureCommitted (log.depsOf id) := by
    intro id
    rw [hids, List.mem_filter, hperm.mem_iff, isDepsClosureCommitted_iff]
  have hB : Batch log ids := hC.batch ((hperm.nodup_iff.mpr hC.pending_nodup).filter _) hmem
  obtain ⟨log', new, hrun, P⟩ :=
    promote_loop hC hB (List.nil_append ids).symm (Promoting.start log ids)
  refine ⟨log', ids, new, ?_, ⟨fun x => ?_, P.pending, P.stable, P.bucket, P.executions, ?_,
    P.new_cmd, P.ordered⟩, hB, hmem⟩
  · simp only [promoteStable, hns, Option.bind_eq_bind, Option.bind_some, hrun]
  · rw [P.entry x]
    by_cases hx : x ∈ ids
    · rw [if_pos hx, if_pos hx]
    · have hxn : x ∉ new.map Execution.id := fun h => hx (P.new_sub x h)
      rw [if_neg hx, if_neg hx]
      cases log.entryAt x <;> simp [markIf, hxn]
  · exact (List.perm_ext_iff_of_nodup P.ordered.nodup hB.nodup).mpr
      fun x => ⟨P.new_sub x, P.done_sub x⟩

/-! ## Promotion keeps the invariant -/

namespace Promoted

variable {ids : List CmdId} {log' : CmdLog} {new : List Execution}

theorem executed (P : Promoted log ids log' new) :
    log'.executed = log.executed ++ new.map Execution.id := by
  simp [CmdLog.executed, P.executions]

theorem mem_stable (P : Promoted log ids log' new) {x : CmdId} :
    x ∈ log'.stable ↔ x ∈ ids ∨ x ∈ log.stable := by
  simp [P.stable]

theorem core (hC : Core log) (hB : Batch log ids) (P : Promoted log ids log' new) : Core log' := by
  have hent : ∀ x e, log'.entryAt x = some e ↔ x ∉ ids ∧ log.entryAt x = some e := by
    intro x e
    rw [P.entry x]
    by_cases hx : x ∈ ids <;> simp [hx]
  refine ⟨fun x e he => ?_, fun x e c he hc => hC.cmd_id x e c ((hent x e).mp he).2 hc,
    fun x => ?_, ?_, ?_, fun k => ?_, fun k x => ?_, ?_⟩
  · obtain ⟨hx, he⟩ := (hent x e).mp he
    obtain ⟨h1, h2⟩ := hC.fresh x e he
    exact ⟨fun h => (P.mem_stable.mp h).elim hx h1, h2⟩
  · rw [P.pending, List.mem_filter, hC.pending_iff]
    constructor
    · rintro ⟨⟨e, he, hp⟩, hx⟩
      exact ⟨e, (hent x e).mpr ⟨by simpa using hx, he⟩, hp⟩
    · rintro ⟨e, he, hp⟩
      obtain ⟨hx, he⟩ := (hent x e).mp he
      exact ⟨⟨e, he, hp⟩, by simpa using hx⟩
  · rw [P.pending]; exact hC.pending_nodup.filter _
  · rw [P.stable, List.nodup_append]
    refine ⟨List.nodup_reverse.mpr hB.nodup, hC.stable_nodup, fun x hx y hy hxy => ?_⟩
    obtain ⟨e, he, -⟩ := hB.committed x (List.mem_reverse.mp hx)
    exact (hC.fresh x e he).1 (hxy ▸ hy)
  · rw [P.bucket k]; exact (hC.bucket_nodup k).filter _
  · rw [P.bucket k, List.mem_filter, hC.bucket_iff]
    constructor
    · rintro ⟨⟨e, c, he, hc⟩, hx⟩
      exact ⟨e, c, (hent x e).mpr ⟨by simpa using hx, he⟩, hc⟩
    · rintro ⟨e, c, he, hc⟩
      obtain ⟨hx, he⟩ := (hent x e).mp he
      exact ⟨⟨e, c, he, hc⟩, by simpa using hx⟩
  · rw [P.executed, P.stable]
    refine (hC.executed_perm.append (P.new_perm.trans ids.reverse_perm.symm)).trans ?_
    exact List.perm_append_comm

theorem inv (hC : Core log) (hB : Batch log ids) (P : Promoted log ids log' new)
    (hmem : ∀ id, id ∈ ids ↔ id ∈ log.pendingCommit ∧ log.ClosureCommitted (log.depsOf id)) :
    Inv log' := by
  refine ⟨P.core hC hB, fun id hid hcl => ?_⟩
  rw [P.pending, List.mem_filter] at hid
  have hidn : id ∉ ids := by simpa using hid.2
  have hdeps : log'.depsOf id = log.depsOf id := by simp [depsOf, P.entry id, hidn]
  rw [hdeps] at hcl
  refine hidn ((hmem id).mpr ⟨hid.1, fun d hd x hx => ?_⟩)
  by_contra hbad
  -- follow the path to `x`; the first batch command on it would make `x` expandable
  have hnone : log.expandCommitted x = none := Option.not_isSome_iff_eq_none.mp hbad
  have havoid : ∀ y, Reach (follow log.expandCommitted) y x → y ∉ ids ∧ y ∉ log.stable := by
    intro y hy
    refine ⟨fun hyi => ?_, fun hys => ?_⟩
    · obtain ⟨hyp, hyc⟩ := (hmem y).mp hyi
      obtain ⟨e, he, hp⟩ := (hC.pending_iff y).mp hyp
      rcases hy.cases_head with rfl | ⟨z, hz, hzx⟩
      · exact hbad (expandCommitted_isSome.mpr (.inr ⟨e, he, .inl hp⟩))
      · rw [follow_committed (hC.fresh y e he).1 he hp] at hz
        exact hbad (hyc z (by rwa [depsOf_of_entry he]) x hzx)
    · rcases hy.cases_head with rfl | ⟨z, hz, -⟩
      · exact hbad (expandCommitted_isSome.mpr (.inl hys))
      · simp [follow_stable hys] at hz
  have hsame : ∀ y, y ∉ ids → y ∉ log.stable → log'.expandCommitted y = log.expandCommitted y := by
    intro y hyi hys
    have hys' : y ∉ log'.stable := fun h => (P.mem_stable.mp h).elim hyi hys
    simp [expandCommitted, hys, hys', P.entry y, hyi]
  have hx' : Reach (follow log'.expandCommitted) d x := by
    refine hx.transfer (S := fun y => y ∉ ids ∧ y ∉ log.stable) (fun y _ hyx => havoid y hyx) ?_
    intro y z hy _ hyz
    simpa [follow, hsame y hy.1 hy.2] using hyz
  have hxs := havoid x (Reach.refl _ _)
  have := hcl d hd x hx'
  rw [hsame x hxs.1 hxs.2, hnone] at this
  simp at this

end Promoted

end CmdLog

end Blsmr
