import Blsmr.Log.History

/-!
# The key index

A log describes its commands in four places: the entries, the buckets of the key
index, the pending and the stable identifiers. Between calls these agree, and a bucket
holds its commands in the order in which they were first submitted (`bucket_eq`), so
`submit` reports the conflicts in that order (`key_index_exact`).
-/

namespace Blsmr

open Blsmr.Graph

/-- The command a call submits. -/
def LogCall.submits : LogCall → Option Command
  | .submit cmd => some cmd
  | _ => none

/-- The commands submitted, each once, in the order of their first submits. -/
def submitted (calls : List LogCall) : List Command := (calls.filterMap LogCall.submits).eraseDups

/-- Every identifier is submitted with one command only. -/
def SubmitsOne (calls : List LogCall) : Prop :=
  ∀ c c', .submit c ∈ calls → .submit c' ∈ calls → c.id = c'.id → c = c'

theorem SubmitsOne.init {calls : List LogCall} {c : LogCall} (h : SubmitsOne (calls ++ [c])) :
    SubmitsOne calls := fun a b ha hb =>
  h a b (List.mem_append_left _ ha) (List.mem_append_left _ hb)

theorem mem_submitted {calls : List LogCall} {cmd : Command} :
    cmd ∈ submitted calls ↔ .submit cmd ∈ calls := by
  unfold submitted
  rw [List.mem_eraseDups, List.mem_filterMap]
  constructor
  · rintro ⟨c, hc, h⟩
    cases c with
    | submit cmd' => cases h; exact hc
    | _ => cases h
  · exact fun h => ⟨_, h, rfl⟩

theorem submitted_submit (calls : List LogCall) (cmd : Command) :
    submitted (calls ++ [.submit cmd]) =
      if cmd ∈ submitted calls then submitted calls else submitted calls ++ [cmd] := by
  have hmem : cmd ∈ submitted calls ↔ cmd ∈ calls.filterMap LogCall.submits := List.mem_eraseDups
  have happend : submitted (calls ++ [.submit cmd]) = submitted calls ++
      (List.removeAll [cmd] (calls.filterMap LogCall.submits)).eraseDups := by
    unfold submitted
    rw [List.filterMap_append, List.eraseDups_append]
    rfl
  rw [happend]
  unfold List.removeAll
  by_cases h : cmd ∈ submitted calls
  · rw [if_pos h, List.filter_cons_of_neg (by simpa using hmem.mp h)]
    exact List.append_nil _
  · rw [if_neg h, List.filter_cons_of_pos (by simpa using mt hmem.mpr h)]
    rfl

theorem submitted_other {c : LogCall} (hc : c.submits = none) (calls : List LogCall) :
    submitted (calls ++ [c]) = submitted calls := by
  unfold submitted
  rw [List.filterMap_append]
  simp [hc]

namespace CmdLog

variable {log log' : CmdLog} {calls : List LogCall} {cmd : Command}

theorem Core.conflicts_eq (hC : Core log) (k : Key) : log.conflicts k = log.bucket k := by
  have hall : ∀ id ∈ log.bucket k, ∃ e c, log.entryAt id = some e ∧ e.phase ≠ .stable ∧
      e.cmd = some c ∧ c.id = id := fun id hid => by
    obtain ⟨e, c, he, hc, -⟩ := (hC.bucket_iff k id).mp hid
    exact ⟨e, c, he, (hC.fresh id e he).2.2, hc, hC.cmd_id id e c he hc⟩
  unfold conflicts
  generalize log.bucket k = ids at hall
  induction ids with
  | nil => rfl
  | cons id ids ih =>
    obtain ⟨e, c, he, hp, hc, hid⟩ := hall id List.mem_cons_self
    have htail := ih fun x hx => hall x (List.mem_cons_of_mem _ hx)
    rw [List.filterMap_cons_some he, List.filter_cons_of_pos (by simpa using hp),
      List.filterMap_cons_some (by rw [hc]; rfl), htail, hid]

theorem entryOrNew_cmd_eq_none (hfresh : CreatesFresh calls) (hrun : run calls = some log)
    (hone : SubmitsOne (calls ++ [.submit cmd])) (hs : cmd.id ∉ log.stable) :
    (log.entryOrNew cmd.id).cmd = none ↔ cmd ∉ submitted calls := by
  have hP := run_paid hfresh hrun
  have hpay := (run_inv hfresh hrun).1.toCore.payload_of_not_stable hs
  rw [← hpay, mem_submitted]
  constructor
  · exact fun hn hsub => hP.open_ cmd.id hs hn cmd hsub rfl
  · intro hno
    refine hP.unsubmitted cmd.id fun c hc hid => hno ?_
    rwa [← hone c cmd (List.mem_append_left _ hc) (by simp) hid]

/-- **A bucket** holds the submitted commands of its key that are not stable, in the order
of their first submits. -/
theorem bucket_eq (hfresh : CreatesFresh calls) (hone : SubmitsOne calls)
    (hrun : run calls = some log) (k : Key) : log.bucket k =
      ((submitted calls).filter fun c => c.key = k ∧ c.id ∉ log.stable).map Command.id := by
  induction calls using List.reverseRecOn generalizing log with
  | nil =>
    obtain rfl : empty = log := by simpa [run] using hrun
    rfl
  | append_singleton calls c ih =>
    obtain ⟨log₀, h₀, hI, hcall, -⟩ := run_init hfresh hrun
    have hih := ih hfresh.init hone.init h₀
    cases c with
    | recordCreation id =>
      cases hcall
      rw [submitted_other rfl]
      exact hih
    | submit cmd =>
      cases hcall
      rw [submitted_submit]
      by_cases hs : cmd.id ∈ log₀.stable
      · rw [submit_stable hs, hih]
        split
        · rfl
        · simp [List.filter_append, hs]
      have hnone := entryOrNew_cmd_eq_none hfresh.init h₀ hone hs
      rw [(submit_fields log₀ cmd).2.1, (submit_spec hs).2.1, hih]
      by_cases hsub : cmd ∈ submitted calls
      · rw [if_pos hsub, if_neg fun h => hnone.mp h.1 hsub]
      · rw [if_neg hsub]
        by_cases hk : k = cmd.key
        · rw [if_pos ⟨hnone.mpr hsub, hk⟩]
          simp [List.filter_append, hk, hs]
        · rw [if_neg fun h => hk h.2]
          simp [List.filter_append, Ne.symm hk]
    | commit hash id deps =>
      rw [submitted_other rfl]
      by_cases hs : id ∈ log₀.stable
      · rw [show log₀.call (.commit hash id deps) = some log₀ from commit_stable hs,
          Option.some.injEq] at hcall
        rwa [← hcall]
      · obtain ⟨log', ids, new, hrun', P, -⟩ := commit_spec hI.toCore hs hash deps
        rw [show log₀.call (.commit hash id deps) = some log' from hrun',
          Option.some.injEq] at hcall
        subst hcall
        have hbucket : (log₀.markCommitted id deps).bucket k = log₀.bucket k := rfl
        rw [P.bucket, hbucket, hih, List.filter_map, List.filter_filter]
        refine congrArg _ (List.filter_congr fun c _ => ?_)
        simp only [Function.comp_apply, P.mem_stable, Bool.decide_and, decide_not]
        by_cases hin : c.id ∈ ids
        · simp [hin]
        · have hst : (log₀.markCommitted id deps).stable = log₀.stable := rfl
          simp [hin, hst]

/-- **The key index is exact** between calls, and a command that is submitted for the first
time is told the conflicts in the order of their first submits. -/
theorem key_index_exact (calls : List LogCall) (hfresh : CreatesFresh calls)
    (hone : SubmitsOne calls) : ∃ log, run calls = some log ∧
      (∀ id e, log.entryAt id = some e →
        id ∉ log.stable ∧ e.phase ≠ .stable ∧ e.executed = false) ∧
      (∀ id, id ∈ log.pendingCommit ↔ ∃ e, log.entryAt id = some e ∧ e.phase = .commit) ∧
      (∀ k, (log.bucket k).Nodup ∧ ∀ id, id ∈ log.bucket k ↔
        ∃ e c, log.entryAt id = some e ∧ e.cmd = some c ∧ c.key = k) ∧
      ∀ cmd, (cmd.id ∈ log.stable → log.submit cmd = (log, [])) ∧
        ((∀ c, .submit c ∈ calls → c.id ≠ cmd.id) → cmd.id ∉ log.stable →
          (log.submit cmd).2 = ((submitted calls).filter fun c =>
            c.conflictsWith cmd ∧ c.id ∉ log.stable).map Command.id ∧
          (log.submit cmd).2.Nodup ∧ cmd.id ∉ (log.submit cmd).2) := by
  obtain ⟨log, hrun, hI, -⟩ := run_spec hfresh
  have hC := hI.toCore
  refine ⟨log, hrun, fun id e he => ?_, hC.pending_iff,
    fun k => ⟨hC.bucket_nodup k, hC.bucket_iff k⟩, fun cmd => ⟨submit_stable, fun hnew hs => ?_⟩⟩
  · obtain ⟨hst, hex, hp⟩ := hC.fresh id e he
    exact ⟨hst, hp, hex⟩
  · rw [(submit_spec hs).2.2, hC.conflicts_eq]
    have heq := bucket_eq hfresh hone hrun cmd.key
    refine ⟨?_, hC.bucket_nodup _, fun hin => ?_⟩
    · simpa only [Command.conflictsWith, beq_iff_eq] using heq
    · rw [heq, List.mem_map] at hin
      obtain ⟨c, hc, hid⟩ := hin
      exact hnew c (mem_submitted.mp (List.mem_filter.mp hc).1) hid

/-- Of three commands with one key the second is stable, and a fourth is told the others. -/
theorem key_index_exact_three :
    let cmd : ℕ → Command := fun i => ⟨⟨i, i⟩, 7⟩
    let calls : List LogCall := [.submit (cmd 1), .submit (cmd 2), .submit (cmd 3),
      .submit (cmd 1), .commit .insertion (cmd 2).id []]
    ∃ log, run calls = some log ∧ (log.submit (cmd 4)).2 = [(cmd 1).id, (cmd 3).id] := by
  intro cmd calls
  have hone : SubmitsOne calls := fun c c' hc hc' => by
    simp only [calls, List.mem_cons, LogCall.submit.injEq, reduceCtorEq, List.not_mem_nil,
      or_false] at hc hc'
    rcases hc with rfl | rfl | rfl | rfl <;> rcases hc' with rfl | rfl | rfl | rfl <;> simp [cmd]
  obtain ⟨log, hrun, -, -, -, h⟩ := key_index_exact calls (.of_none (by simp [calls])) hone
  have hst : (run calls).all (fun log => log.stable = [(cmd 2).id]) = true := by decide
  rw [hrun] at hst
  have hst : log.stable = [(cmd 2).id] := by simpa using hst
  refine ⟨log, hrun, ((h (cmd 4)).2 (fun c hc => ?_) (by rw [hst]; decide)).1.trans ?_⟩
  · simp only [calls, List.mem_cons, LogCall.submit.injEq, reduceCtorEq, List.not_mem_nil,
      or_false] at hc
    rcases hc with rfl | rfl | rfl | rfl <;> simp [cmd]
  · rw [hst]
    decide

end CmdLog

end Blsmr
