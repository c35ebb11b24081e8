import Blsmr.Log.Runs

/-!
# Reading a log off its calls

Which commands a log reports as conflicts (`mem_submit_iff`), which it holds as
committed (`committed_iff`), when nothing is left pending (`pendingCommit_eq_nil`), and
which commands are stable (`stable_iff_closure_committed`).
-/

namespace Blsmr

open Blsmr.Graph Blsmr.Tarjan

namespace CmdLog

variable {log log' : CmdLog} {calls : List LogCall} {id : CmdId} {cmd : Command}

/-- Committed: promoted already, or in the commit phase. -/
def Committed (log : CmdLog) (id : CmdId) : Prop := (log.expandCommitted id).isSome

/-! ## Conflicts -/

theorem PaidInTime.mem (h : PaidInTime calls cmd) : .submit cmd ∈ calls := by
  obtain ⟨pre, post, -, rfl, -⟩ := h
  simp

theorem entry_of_submit (hfresh : CreatesFresh calls) (hrun : run calls = some log)
    (hsub : .submit cmd ∈ calls) (hs : cmd.id ∉ log.stable)
    (huniq : ∀ c, .submit c ∈ calls → c.id = cmd.id → c = cmd) :
    ∃ e, log.entryAt cmd.id = some e ∧ e.cmd = some cmd := by
  have hP := run_paid hfresh hrun
  have hI := (run_inv hfresh hrun).1
  cases hp : log.payload cmd.id with
  | none => exact absurd rfl (hP.open_ cmd.id hs hp cmd hsub)
  | some c =>
    have hid := hP.cmd_id cmd.id c hp
    have hc : PaidInTime calls c := (hP.paid_iff c).mp (hid ▸ hp)
    obtain rfl := huniq c hc.mem hid
    rw [payload_of_not_executed (hI.toCore.not_executed hs)] at hp
    exact Option.bind_eq_some_iff.mp hp

/-- **The conflicts reported** are the same-key commands submitted before and not
stable. -/
theorem mem_submit_iff (hfresh : CreatesFresh calls) (hrun : run calls = some log)
    (huniq : ∀ c c', .submit c ∈ calls → .submit c' ∈ calls → c.id = c'.id → c = c')
    (hs : cmd.id ∉ log.stable) : id ∈ (log.submit cmd).2 ↔
      ∃ c, .submit c ∈ calls ∧ c.id = id ∧ c.key = cmd.key ∧ id ∉ log.stable := by
  have hI := (run_inv hfresh hrun).1
  rw [(submit_spec hs).2.2, hI.toCore.mem_conflicts]
  constructor
  · rintro ⟨e, c, he, hc, hk⟩
    have hns := (hI.fresh id e he).1
    have hp : log.payload id = some c := by
      rw [payload_of_not_executed (hI.toCore.not_executed hns), he]
      exact hc
    have hid := (run_paid hfresh hrun).cmd_id id c hp
    exact ⟨c, ((run_paid hfresh hrun).paid_iff c |>.mp (hid ▸ hp)).mem, hid, hk, hns⟩
  · rintro ⟨c, hc, rfl, hk, hns⟩
    obtain ⟨e, he, hec⟩ := entry_of_submit hfresh hrun hc hns fun c' hc' => huniq c' c hc' hc
    exact ⟨e, c, he, hec, hk⟩

theorem submitted_of_mem (hfresh : CreatesFresh calls) (hrun : run calls = some log)
    (h : id ∈ (log.submit cmd).2) : ∃ c, .submit c ∈ calls ∧ c.id = id := by
  have hI := (run_inv hfresh hrun).1
  by_cases hs : cmd.id ∈ log.stable
  · simp [submit_stable hs] at h
  rw [(submit_spec hs).2.2, hI.toCore.mem_conflicts] at h
  obtain ⟨e, c, he, hc, -⟩ := h
  have hns := (hI.fresh id e he).1
  have hp : log.payload id = some c := by
    rw [payload_of_not_executed (hI.toCore.not_executed hns), he]
    exact hc
  have hid := (run_paid hfresh hrun).cmd_id id c hp
  exact ⟨c, ((run_paid hfresh hrun).paid_iff c |>.mp (hid ▸ hp)).mem, hid⟩

/-! ## Committed commands -/

theorem committed_recordCreation (hI : Inv log) (x : CmdId) :
    Committed (log.recordCreation id) x ↔ Committed log x := by
  have hexp : (log.recordCreation id).expandCommitted = log.expandCommitted :=
    hI.toCore.expandCommitted_upsert (entryAt_setEntry log id _) rfl rfl rfl
  rw [Committed, Committed, hexp]

theorem committed_submit (hI : Inv log) (x : CmdId) :
    Committed (log.submit cmd).1 x ↔ Committed log x := by
  by_cases hs : cmd.id ∈ log.stable
  · rw [submit_stable hs]
  · unfold Committed
    rw [hI.toCore.expandCommitted_upsert (submit_spec hs).1 rfl rfl (submit_fields log cmd).2.1]

theorem committed_markCommitted (log : CmdLog) (id : CmdId) (deps : List CmdId) (x : CmdId) :
    Committed (log.markCommitted id deps) x ↔ Committed log x ∨ x = id := by
  unfold Committed
  rw [expandCommitted_isSome, expandCommitted_isSome, entryAt_markCommitted]
  by_cases hx : x = id
  · simp [hx]
  · simp [hx, markCommitted]

theorem Promoted.committed {ids : List CmdId} {new : List Execution} (hB : Batch log ids)
    (P : Promoted log ids log' new) (x : CmdId) : Committed log' x ↔ Committed log x := by
  unfold Committed
  rw [expandCommitted_isSome, expandCommitted_isSome, P.mem_stable, P.entry]
  by_cases hx : x ∈ ids
  · obtain ⟨e, he, hp⟩ := hB.committed x hx
    simp [hx, he, hp]
  · simp [hx]

theorem committed_commit {hash : HashOrder} {deps : List CmdId} (hI : Inv log)
    (hrun : log.commit hash id deps = some log') (x : CmdId) :
    Committed log' x ↔ Committed log x ∨ x = id := by
  by_cases hs : id ∈ log.stable
  · rw [commit_stable hs, Option.some.injEq] at hrun
    subst hrun
    refine ⟨.inl, fun h => h.elim (fun h => h) ?_⟩
    rintro rfl
    exact expandCommitted_isSome.mpr (.inl hs)
  · obtain ⟨log'', ids, new, hrun', P, hB, -⟩ := commit_spec hI.toCore hs hash deps
    rw [hrun, Option.some.injEq] at hrun'
    subst hrun'
    rw [P.committed hB, committed_markCommitted]

/-- **A log holds as committed** exactly what was committed. -/
theorem committed_iff (hfresh : CreatesFresh calls) (hrun : run calls = some log) :
    Committed log id ↔ ∃ hash deps, .commit hash id deps ∈ calls := by
  induction calls using List.reverseRecOn generalizing log with
  | nil =>
    obtain rfl : empty = log := by simpa [run] using hrun
    simp [Committed, expandCommitted_isSome, empty, entryAt]
  | append_singleton calls c ih =>
    obtain ⟨log₀, h₀, hI, hcall, -⟩ := run_init hfresh hrun
    have hih := ih hfresh.init h₀
    cases c with
    | recordCreation i =>
      cases hcall
      rw [committed_recordCreation hI, hih]
      simp
    | submit cmd =>
      cases hcall
      rw [committed_submit hI, hih]
      simp
    | commit hash i deps =>
      rw [committed_commit hI hcall, hih]
      constructor
      · rintro (⟨hash', deps', h⟩ | rfl)
        · exact ⟨hash', deps', List.mem_append_left _ h⟩
        · exact ⟨hash, deps, by simp⟩
      · rintro ⟨hash', deps', h⟩
        rcases List.mem_append.mp h with h | h
        · exact .inl ⟨hash', deps', h⟩
        · simp only [List.mem_singleton, LogCall.commit.injEq] at h
          exact .inr h.2.1

theorem stable_committed (h : id ∈ log.stable) : Committed log id :=
  expandCommitted_isSome.mpr (.inl h)

theorem Core.stable_or_pending (hC : Core log) (h : Committed log id) :
    id ∈ log.stable ∨ id ∈ log.pendingCommit := by
  rcases expandCommitted_isSome.mp h with h | ⟨e, he, hp⟩
  · exact .inl h
  · exact .inr ((hC.pending_iff id).mpr ⟨e, he, hp.resolve_right (hC.fresh id e he).2.2⟩)

/-- **Nothing is left pending** if every dependency of a committed command, in a
set closed under them, is committed. -/
theorem pendingCommit_eq_nil {D : CmdId → List CmdId} (hI : Inv log) (hF : Follows D log)
    (hcl : ∀ x, Committed log x → ∀ y ∈ D x, Committed log y) : log.pendingCommit = [] := by
  refine List.eq_nil_iff_forall_not_mem.mpr fun id hid => hI.blocked id hid ?_
  obtain ⟨e, he, hp⟩ := (hI.pending_iff id).mp hid
  have hdeps : log.depsOf id = D id := by rw [depsOf_of_entry he, hF.deps id e he hp]
  have hidc : Committed log id := expandCommitted_isSome.mpr (.inr ⟨e, he, .inl hp⟩)
  intro d hd x hx
  rw [hdeps] at hd
  induction hx with
  | refl => exact hcl id hidc d hd
  | @tail y z _ hyz ih =>
    have ihc : Committed log y := ih
    by_cases hys : y ∈ log.stable
    · rw [follow_stable hys] at hyz
      cases hyz
    · obtain ⟨e', he', hp'⟩ := (hI.pending_iff y).mp
        ((hI.toCore.stable_or_pending ihc).resolve_left hys)
      rw [follow_committed hys he' hp', hF.deps y e' he' hp'] at hyz
      exact hcl y ihc z hyz

/-! ## Stable commands -/

/-- The calls commit `id`. -/
def CommittedIn (calls : List LogCall) (id : CmdId) : Prop :=
  ∃ hash deps, .commit hash id deps ∈ calls

/-- The calls commit `id` with a list that contains `dep`. -/
def DependsIn (calls : List LogCall) (id dep : CmdId) : Prop :=
  ∃ hash deps, .commit hash id deps ∈ calls ∧ dep ∈ deps

theorem Follows.follow_subset {D : CmdId → List CmdId} (hI : Inv log) (hF : Follows D log)
    (x : CmdId) : follow log.expandCommitted x ⊆ D x := by
  by_cases hc : Committed log x
  · by_cases hs : x ∈ log.stable
    · rw [follow_stable hs]
      exact List.nil_subset _
    · obtain ⟨e, he, hp⟩ := (hI.pending_iff x).mp
        ((hI.toCore.stable_or_pending hc).resolve_left hs)
      rw [follow_committed hs he hp, hF.deps x e he hp]
      exact List.Subset.refl _
  · rw [follow, Option.not_isSome_iff_eq_none.mp hc]
    exact List.nil_subset _

theorem Follows.stable_iff {D : CmdId → List CmdId} (hI : Inv log) (hF : Follows D log) :
    id ∈ log.stable ↔ ∀ x, Reach D id x → Committed log x := by
  constructor
  · intro hs x hx
    exact stable_committed (hI.executed_perm.mem_iff.mp
      (hF.order.mem_of_reach (hI.executed_perm.mem_iff.mpr hs) hx))
  · intro hall
    refine (hI.toCore.stable_or_pending (hall id (.refl _ _))).resolve_right fun hp => ?_
    obtain ⟨e, he, hphase⟩ := (hI.pending_iff id).mp hp
    refine hI.blocked id hp fun d hd x hx => hall x (.head ?_ (hx.mono (hF.follow_subset hI)))
    rwa [depsOf_of_entry he, hF.deps id e he hphase] at hd

/-- **Stability.** After every call the stable commands are those that have been committed
and depend on committed commands only, and a run with the same commits in another order ends
with the same ones. No call panics. -/
theorem stable_iff_closure_committed (D : CmdId → List CmdId) (calls : List LogCall)
    (hfresh : CreatesFresh calls) (hD : CommitsAs D calls) :
    ∃ log, run calls = some log ∧
      (∀ id, id ∈ log.stable ↔ CommittedIn calls id ∧
        ∀ x, Relation.ReflTransGen (DependsIn calls) id x → CommittedIn calls x) ∧
      ∀ calls' log', CreatesFresh calls' → CommitsAs D calls' → run calls' = some log' →
        (∀ id, CommittedIn calls' id ↔ CommittedIn calls id) →
        ∀ id, id ∈ log'.stable ↔ id ∈ log.stable := by
  obtain ⟨log, hrun, hI, -⟩ := run_spec hfresh
  have hstable : ∀ id, id ∈ log.stable ↔ ∀ x, Reach D id x → CommittedIn calls x := fun id => by
    rw [(run_follows hfresh hD hrun).stable_iff hI]
    exact forall₂_congr fun x _ => committed_iff hfresh hrun
  have hdep : ∀ a b, DependsIn calls a b ↔ CommittedIn calls a ∧ b ∈ D a := fun a b => by
    constructor
    · rintro ⟨hash, deps, hm, hb⟩
      exact ⟨⟨hash, deps, hm⟩, hD hash a deps hm ▸ hb⟩
    · rintro ⟨⟨hash, deps, hm⟩, hb⟩
      exact ⟨hash, deps, hm, hD hash a deps hm ▸ hb⟩
  refine ⟨log, hrun, fun id => ?_, fun calls' log' hfresh' hD' hrun' hsame id => ?_⟩
  · rw [hstable]
    constructor
    · intro hall
      refine ⟨hall id (.refl _ _), fun x hx => hall x ?_⟩
      exact Relation.ReflTransGen.mono (fun a b hab => ((hdep a b).mp hab).2) _ _ hx
    · rintro ⟨-, hall⟩ x hx
      refine hall x ?_
      induction hx with
      | refl => exact .refl
      | @tail y z _ hyz ih => exact ih.tail ((hdep y z).mpr ⟨hall y ih, hyz⟩)
  · rw [hstable, (run_follows hfresh' hD' hrun').stable_iff (run_inv hfresh' hrun').1]
    exact forall₂_congr fun x _ => (committed_iff hfresh' hrun').trans (hsame x)

/-- Two commands that depend on each other become stable together. -/
theorem stable_iff_closure_committed_cycle :
    let a : CmdId := ⟨0, 0⟩
    let b : CmdId := ⟨1, 1⟩
    let calls : List LogCall := [.commit .insertion b [a], .commit .insertion a [b]]
    ∃ log, run calls = some log ∧ a ∈ log.stable := by
  intro a b calls
  let D : CmdId → List CmdId := fun id => if id = a then [b] else [a]
  have hD : CommitsAs D calls := fun hash id deps hm => by
    simp only [calls, List.mem_cons, LogCall.commit.injEq, List.not_mem_nil, or_false] at hm
    rcases hm with ⟨-, rfl, rfl⟩ | ⟨-, rfl, rfl⟩ <;> decide
  obtain ⟨log, hrun, h, -⟩ := stable_iff_closure_committed D calls
    (.of_none (by simp [calls])) hD
  have ha : CommittedIn calls a := ⟨.insertion, [b], by simp [calls]⟩
  have hb : CommittedIn calls b := ⟨.insertion, [a], by simp [calls]⟩
  refine ⟨log, hrun, (h a).mpr ⟨ha, fun x hx => ?_⟩⟩
  rcases Relation.ReflTransGen.cases_tail hx with rfl | ⟨y, -, hash, deps, hm, hx⟩
  · exact ha
  · simp only [calls, List.mem_cons, LogCall.commit.injEq, List.not_mem_nil, or_false] at hm
    rcases hm with ⟨-, -, rfl⟩ | ⟨-, -, rfl⟩
    · exact List.mem_singleton.mp hx ▸ ha
    · exact List.mem_singleton.mp hx ▸ hb

/-! ## Growth -/

theorem Inv.call_extends (hI : Inv log) {c : LogCall} (h : log.call c = some log') :
    (∃ new, log'.executed = log.executed ++ new) ∧ log.stable ⊆ log'.stable := by
  cases c with
  | recordCreation i => cases h; exact ⟨⟨[], by simp [CmdLog.executed, CmdLog.recordCreation]⟩,
      List.Subset.refl _⟩
  | submit cmd =>
    cases h
    obtain ⟨-, hst, hex⟩ := submit_fields log cmd
    exact ⟨⟨[], by simp [CmdLog.executed, hex]⟩, by rw [hst]; exact List.Subset.refl _⟩
  | commit hash i deps =>
    refine ⟨?_, stable_mono_commit hI h⟩
    by_cases hs : i ∈ log.stable
    · rw [show log.call (.commit hash i deps) = some log from commit_stable hs,
        Option.some.injEq] at h
      exact ⟨[], by rw [h, List.append_nil]⟩
    · obtain ⟨log'', ids, new, hrun', P, -⟩ := commit_spec hI.toCore hs hash deps
      rw [show log.call (.commit hash i deps) = some log'' from hrun', Option.some.injEq] at h
      subst h
      exact ⟨_, P.executed⟩

end CmdLog

end Blsmr
