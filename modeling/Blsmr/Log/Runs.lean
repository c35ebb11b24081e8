import Blsmr.Log.Calls

/-!
# Runs of a log

A run is a sequence of `record_creation`, `submit` and `commit` calls on an
empty log, each commit with the hash order its promotion meets. Every run with
fresh creations goes through without a panic (`run_spec`). If in addition every
identifier is always committed with the same dependencies, the execution order
follows the dependency graph (`execution_follows_deps`). Whether a stable
command was executed with its payload depends on its first submit alone
(`recorded_once_iff`).
-/

namespace Blsmr

open Blsmr.Graph Blsmr.Tarjan

inductive LogCall where
  | recordCreation (id : CmdId)
  | submit (cmd : Command)
  | commit (hash : HashOrder) (id : CmdId) (deps : List CmdId)

/-- The identifier a call is about. -/
def LogCall.cmdId : LogCall → CmdId
  | .recordCreation id => id
  | .submit cmd => cmd.id
  | .commit _ id _ => id

/-- `record_creation` is only called on an identifier not seen before. -/
def CreatesFresh (calls : List LogCall) : Prop :=
  ∀ pre id post, calls = pre ++ .recordCreation id :: post → id ∉ pre.map LogCall.cmdId

/-- Every identifier is committed with the dependencies `D` gives it. -/
def CommitsAs (D : CmdId → List CmdId) (calls : List LogCall) : Prop :=
  ∀ hash id deps, .commit hash id deps ∈ calls → deps = D id

theorem split_snoc {α : Type*} {l pre post : List α} {x y : α} (h : l ++ [x] = pre ++ y :: post) :
    (pre = l ∧ y = x ∧ post = []) ∨ ∃ post', post = post' ++ [x] ∧ l = pre ++ y :: post' := by
  rcases List.eq_nil_or_concat post with rfl | ⟨post', z, rfl⟩
  · obtain ⟨h1, h2⟩ := List.append_inj' h rfl
    exact .inl ⟨h1.symm, (List.cons.inj h2).1.symm, rfl⟩
  · have h' : l ++ [x] = (pre ++ y :: post') ++ [z] := by simpa using h
    obtain ⟨h1, h2⟩ := List.append_inj' h' rfl
    obtain rfl := (List.cons.inj h2).1
    exact .inr ⟨post', by simp, h1⟩

theorem CreatesFresh.init {calls : List LogCall} {c : LogCall} (h : CreatesFresh (calls ++ [c])) :
    CreatesFresh calls := fun pre id post he => h pre id (post ++ [c]) (by simp [he])

theorem CreatesFresh.last {calls : List LogCall} {id : CmdId}
    (h : CreatesFresh (calls ++ [.recordCreation id])) : id ∉ calls.map LogCall.cmdId :=
  h calls id [] rfl

theorem CreatesFresh.of_none {calls : List LogCall} (h : ∀ id, .recordCreation id ∉ calls) :
    CreatesFresh calls := fun pre id post he => absurd (by simp [he]) (h id)

theorem CommitsAs.init {D : CmdId → List CmdId} {calls : List LogCall} {c : LogCall}
    (h : CommitsAs D (calls ++ [c])) : CommitsAs D calls :=
  fun hash id deps hm => h hash id deps (List.mem_append_left _ hm)

namespace CmdLog

variable {log log' : CmdLog} {calls : List LogCall} {D : CmdId → List CmdId}

def call (log : CmdLog) : LogCall → Option CmdLog
  | .recordCreation id => some (log.recordCreation id)
  | .submit cmd => some (log.submit cmd).1
  | .commit hash id deps => log.commit hash id deps

/-- The log after a sequence of calls; `none` if one of them panics. -/
def run (calls : List LogCall) : Option CmdLog := calls.foldlM call empty

theorem run_snoc (calls : List LogCall) (c : LogCall) :
    run (calls ++ [c]) = (run calls).bind fun log => log.call c := by
  simp [run]

/-! ## Every run goes through -/

/-- The identifiers a log knows. -/
def Known (log : CmdLog) (id : CmdId) : Prop := id ∈ log.stable ∨ (log.entryAt id).isSome

/-- **One call** keeps the invariant and makes only its identifier known. -/
theorem Inv.call (hI : Inv log) {c : LogCall}
    (hfresh : ∀ id, c = .recordCreation id → id ∉ log.stable) :
    ∃ log', log.call c = some log' ∧ Inv log' ∧ ∀ x, Known log' x → Known log x ∨ x = c.cmdId := by
  cases c with
  | recordCreation id =>
    refine ⟨_, rfl, hI.recordCreation (hfresh id rfl), fun x hx => ?_⟩
    by_cases hxi : x = id
    · exact .inr hxi
    · rw [Known, CmdLog.recordCreation, entryAt_setEntry, if_neg hxi] at hx
      exact .inl hx
  | submit cmd =>
    refine ⟨_, rfl, hI.submit cmd, fun x hx => ?_⟩
    by_cases hs : cmd.id ∈ log.stable
    · rw [submit_stable hs] at hx
      exact .inl hx
    by_cases hxi : x = cmd.id
    · exact .inr hxi
    · rw [Known, (submit_fields log cmd).2.1, (submit_spec hs).1, if_neg hxi] at hx
      exact .inl hx
  | commit hash id deps =>
    by_cases hs : id ∈ log.stable
    · exact ⟨log, commit_stable hs, hI, fun x hx => .inl hx⟩
    obtain ⟨log', ids, new, hrun, P, hB, hI'⟩ := commit_spec hI.toCore hs hash deps
    refine ⟨log', hrun, hI', fun x hx => ?_⟩
    by_cases hxi : x = id
    · exact .inr hxi
    have hent : (log.markCommitted id deps).entryAt x = log.entryAt x := by
      rw [entryAt_markCommitted, if_neg hxi]
    refine .inl ?_
    rcases hx with hx | hx
    · rcases P.mem_stable.mp hx with h | h
      · obtain ⟨e, he, -⟩ := hB.committed x h
        exact .inr (by rw [← hent, he]; rfl)
      · exact .inl h
    · rw [P.entry] at hx
      by_cases hxs : x ∈ ids
      · simp [hxs] at hx
      · rw [if_neg hxs, hent] at hx
        exact .inr hx

/-- **Every run goes through** and knows only what its calls named. -/
theorem run_spec (hfresh : CreatesFresh calls) :
    ∃ log, run calls = some log ∧ Inv log ∧
      ∀ x, Known log x → x ∈ calls.map LogCall.cmdId := by
  induction calls using List.reverseRecOn with
  | nil => exact ⟨empty, rfl, Inv.empty, fun x hx => by simp [Known, empty, entryAt] at hx⟩
  | append_singleton calls c ih =>
    obtain ⟨log, hrun, hI, hk⟩ := ih hfresh.init
    have hc : ∀ id, c = .recordCreation id → id ∉ log.stable := by
      rintro id rfl hs
      exact hfresh.last (hk id (.inl hs))
    obtain ⟨log', hcall, hI', hk'⟩ := hI.call hc
    refine ⟨log', by rw [run_snoc, hrun, Option.bind_some, hcall], hI', fun x hx => ?_⟩
    rw [List.map_append, List.mem_append]
    rcases hk' x hx with h | h
    · exact .inl (hk x h)
    · exact .inr (by simp [h])

theorem run_inv (hfresh : CreatesFresh calls) (hrun : run calls = some log) :
    Inv log ∧ ∀ x, Known log x → x ∈ calls.map LogCall.cmdId := by
  obtain ⟨log', hrun', h⟩ := run_spec hfresh
  rw [hrun, Option.some.injEq] at hrun'
  rw [hrun']
  exact h

theorem run_init {c : LogCall} (hfresh : CreatesFresh (calls ++ [c]))
    (hrun : run (calls ++ [c]) = some log') :
    ∃ log, run calls = some log ∧ Inv log ∧ log.call c = some log' ∧
      (∀ x, Known log x → x ∈ calls.map LogCall.cmdId) := by
  obtain ⟨log, h, hI, hk⟩ := run_spec hfresh.init
  rw [run_snoc, h, Option.bind_some] at hrun
  exact ⟨log, h, hI, hrun, hk⟩

/-! ## The execution order -/

/-- The committed entries carry `D`, and the executions follow `D`. -/
structure Follows (D : CmdId → List CmdId) (log : CmdLog) : Prop where
  deps : ∀ id e, log.entryAt id = some e → e.phase = .commit → e.depList = D id
  order : DepFirst D log.executed

/-- **Promotion appends a batch dependencies first.** -/
theorem Promoted.follows {ids : List CmdId} {new : List Execution} (hC : Core log)
    (hB : Batch log ids) (P : Promoted log ids log' new) (hF : Follows D log) : Follows D log' := by
  have hdep : ∀ x ∈ ids, log.depsOf x = D x := fun x hx => by
    obtain ⟨e, he, hp⟩ := hB.committed x hx
    rw [depsOf_of_entry he, hF.deps x e he hp]
  have hmem : ∀ x, x ∈ new.map Execution.id ↔ x ∈ ids := fun x => P.new_perm.mem_iff
  refine ⟨fun x e he hp => ?_, ?_⟩
  · rw [P.entry] at he
    by_cases hx : x ∈ ids
    · simp [hx] at he
    · exact hF.deps x e (by rwa [if_neg hx] at he) hp
  · rw [P.executed]
    refine hF.order.append (fun x hx => ?_) (fun x hx y hy => ?_) ?_
    · obtain ⟨e, he, -⟩ := hB.committed x ((hmem x).mp hx)
      exact hC.not_executed (hC.fresh x e he).1
    · rw [hmem] at hx ⊢
      rw [hC.executed_perm.mem_iff]
      exact hB.closed x hx y (by rwa [hdep x hx])
    · refine P.ordered.congr fun x hx y => ?_
      rw [hmem] at hx
      simp only [mem_within, hmem, hdep x hx]

theorem Follows.commit {hash : HashOrder} {id : CmdId} (hI : Inv log) (hF : Follows D log)
    (hrun : log.commit hash id (D id) = some log') : Follows D log' := by
  by_cases hs : id ∈ log.stable
  · rw [commit_stable hs, Option.some.injEq] at hrun
    rwa [← hrun]
  obtain ⟨log'', ids, new, hrun', P, hB, -⟩ := commit_spec hI.toCore hs hash (D id)
  rw [hrun, Option.some.injEq] at hrun'
  subst hrun'
  refine P.follows (hI.toCore.markCommitted hs (D id)) hB ⟨fun x e he hp => ?_, hF.order⟩
  by_cases hx : x = id
  · rw [← depsOf_of_entry he, depsOf_markCommitted, if_pos hx, hx]
  · rw [entryAt_markCommitted, if_neg hx] at he
    exact hF.deps x e he hp

theorem Follows.recordCreation {id : CmdId} (hF : Follows D log) :
    Follows D (log.recordCreation id) := by
  refine ⟨fun x e he hp => ?_, hF.order⟩
  rw [CmdLog.recordCreation, entryAt_setEntry] at he
  by_cases hx : x = id
  · subst hx
    rw [if_pos rfl, Option.some.injEq, entryOrNew] at he
    cases h : log.entryAt x with
    | none => rw [h] at he; subst he; simp [Entry.new] at hp
    | some e' => rw [h] at he; subst he; exact hF.deps x e' h hp
  · rw [if_neg hx] at he
    exact hF.deps x e he hp

theorem Follows.submit {cmd : Command} (hF : Follows D log) : Follows D (log.submit cmd).1 := by
  by_cases hs : cmd.id ∈ log.stable
  · rwa [submit_stable hs]
  refine ⟨fun x e he hp => ?_, ?_⟩
  · rw [(submit_spec hs).1] at he
    by_cases hx : x = cmd.id
    · subst hx
      rw [if_pos rfl, Option.some.injEq, entryOrNew] at he
      cases h : log.entryAt cmd.id with
      | none => rw [h] at he; subst he; simp [Entry.new, Entry.pay] at hp
      | some e' => rw [h] at he; subst he; exact hF.deps _ e' h hp
    · rw [if_neg hx] at he
      exact hF.deps x e he hp
  · rw [CmdLog.executed, (submit_fields log cmd).2.2]
    exact hF.order

theorem run_follows (hfresh : CreatesFresh calls) (hD : CommitsAs D calls)
    (hrun : run calls = some log) : Follows D log := by
  induction calls using List.reverseRecOn generalizing log with
  | nil =>
    obtain rfl : empty = log := by simpa [run] using hrun
    exact ⟨fun x e he => by simp [empty, entryAt] at he, DepFirst.nil D⟩
  | append_singleton calls c ih =>
    obtain ⟨log₀, h₀, hI, hcall, -⟩ := run_init hfresh hrun
    have hF := ih hfresh.init hD.init h₀
    cases c with
    | recordCreation id => cases hcall; exact hF.recordCreation
    | submit cmd => cases hcall; exact hF.submit
    | commit hash id deps =>
      obtain rfl : deps = D id := hD hash id deps (by simp)
      exact hF.commit hI hcall

/-- **The execution order is decided by the dependency graph.** -/
theorem execution_follows_deps (D : CmdId → List CmdId) (calls : List LogCall)
    (hfresh : CreatesFresh calls) (hD : CommitsAs D calls) :
    ∃ log, run calls = some log ∧
      (∀ a b, b ∈ log.executed → Reach D b a → a ∈ log.executed ∧
        (¬ Reach D a b → Before log.executed a b) ∧
        (Reach D a b → a < b → Before log.executed a b)) ∧
      ∀ calls' log', CreatesFresh calls' → CommitsAs D calls' → run calls' = some log' →
        ∀ a b, Reach D a b ∨ Reach D b a → a ∈ log.executed → b ∈ log.executed →
          a ∈ log'.executed → b ∈ log'.executed →
          (Before log.executed a b ↔ Before log'.executed a b) := by
  obtain ⟨log, hrun, -⟩ := run_spec hfresh
  have hF := (run_follows hfresh hD hrun).order
  refine ⟨log, hrun, fun a b hb hr => ⟨hF.mem_of_reach hb hr, hF.before_of_acyclic hb hr,
    fun _ => hF.before_of_lt hb hr⟩, fun calls' log' hfresh' hD' hrun' a b hc _ hb _ hb' => ?_⟩
  exact hF.agree (run_follows hfresh' hD' hrun').order hb hb' hc

/-- Two commands that depend on each other, committed in either order. -/
theorem execution_follows_deps_cycle :
    let a : CmdId := ⟨0, 0⟩
    let b : CmdId := ⟨1, 1⟩
    let calls : List LogCall := [.submit ⟨b, 7⟩, .submit ⟨a, 7⟩, .commit .insertion b [a],
      .commit .insertion a [b]]
    ∃ log, run calls = some log ∧ (b ∈ log.executed → Before log.executed a b) := by
  intro a b calls
  let D : CmdId → List CmdId := fun id => if id = a then [b] else [a]
  obtain ⟨log, hrun, h, -⟩ := execution_follows_deps D calls
    (CreatesFresh.of_none (by simp [calls]))
    (fun hash id deps hm => by
      simp only [calls, List.mem_cons, reduceCtorEq, LogCall.commit.injEq, false_or,
        List.not_mem_nil, or_false] at hm
      rcases hm with ⟨-, rfl, rfl⟩ | ⟨-, rfl, rfl⟩ <;> decide)
  refine ⟨log, hrun, fun hb => (h a b hb ?_).2.2 ?_ (by decide)⟩
  · exact Reach.single (by decide)
  · exact Reach.single (by decide)

/-! ## Execution with the payload -/

/-- The first submit of `cmd.id` carries `cmd`, and the identifier is not stable
when it is made. -/
def PaidInTime (calls : List LogCall) (cmd : Command) : Prop :=
  ∃ pre post log, calls = pre ++ .submit cmd :: post ∧
    (∀ c, .submit c ∈ pre → c.id ≠ cmd.id) ∧ run pre = some log ∧ cmd.id ∉ log.stable

/-- What the calls so far say about the commands the log holds. -/
structure Paid (calls : List LogCall) (log : CmdLog) : Prop where
  unsubmitted : ∀ id, (∀ c, .submit c ∈ calls → c.id ≠ id) → log.payload id = none
  open_ : ∀ id, id ∉ log.stable → log.payload id = none → ∀ c, .submit c ∈ calls → c.id ≠ id
  cmd_id : ∀ id c, log.payload id = some c → c.id = id
  paid_iff : ∀ cmd, log.payload cmd.id = some cmd ↔ PaidInTime calls cmd

theorem Paid.other {c : LogCall} (h : Paid calls log) (hc : ∀ cmd, c ≠ .submit cmd)
    (hp : ∀ x, log'.payload x = log.payload x) (hs : ∀ x ∈ log.stable, x ∈ log'.stable) :
    Paid (calls ++ [c]) log' := by
  have hsub : ∀ cmd, .submit cmd ∈ calls ++ [c] ↔ .submit cmd ∈ calls := fun cmd => by
    simp [(hc cmd).symm]
  refine ⟨fun id hid => ?_, fun id hid hn cmd hm => ?_, fun id cmd hcmd => ?_, fun cmd => ?_⟩
  · rw [hp]
    exact h.unsubmitted id fun cmd hm => hid cmd ((hsub cmd).mpr hm)
  · exact h.open_ id (fun h' => hid (hs id h')) (hp id ▸ hn) cmd ((hsub cmd).mp hm)
  · exact h.cmd_id id cmd (hp id ▸ hcmd)
  · rw [hp, h.paid_iff]
    constructor
    · rintro ⟨pre, post, l, rfl, h1, h2⟩
      exact ⟨pre, post ++ [c], l, by simp, h1, h2⟩
    · rintro ⟨pre, post, l, he, h1, h2⟩
      rcases split_snoc he with ⟨-, hq, -⟩ | ⟨post', -, he'⟩
      · exact absurd hq.symm (hc cmd)
      · exact ⟨pre, post', l, he', h1, h2⟩

theorem Paid.submit {cmd : Command} (hC : Core log) (hrun : run calls = some log)
    (h : Paid calls log) : Paid (calls ++ [.submit cmd]) (log.submit cmd).1 := by
  have hpay := hC.payload_submit cmd
  have hst := (submit_fields log cmd).2.1
  refine ⟨fun id hid => ?_, fun id hid hn c hm => ?_, fun id c hc => ?_, fun c => ?_⟩
  · rw [hpay, if_neg fun hh => hid cmd (by simp) hh.1]
    exact h.unsubmitted id fun c hm => hid c (List.mem_append_left _ hm)
  · rw [hst] at hid
    rw [hpay] at hn
    by_cases hci : cmd.id = id
    · rw [if_pos ⟨hci, hid⟩] at hn
      simp at hn
    · rw [if_neg fun hh => hci hh.1] at hn
      rcases List.mem_append.mp hm with hm | hm
      · exact h.open_ id hid hn c hm
      · obtain rfl : c = cmd := by simpa using hm
        exact hci
  · rw [hpay] at hc
    by_cases hcond : cmd.id = id ∧ id ∉ log.stable
    · rw [if_pos hcond, Option.or_eq_some_iff] at hc
      rcases hc with hc | ⟨-, hc⟩
      · exact h.cmd_id id c hc
      · rw [← hcond.1, Option.some.inj hc]
    · rw [if_neg hcond] at hc
      exact h.cmd_id id c hc
  · have hkeep : PaidInTime calls c → PaidInTime (calls ++ [.submit cmd]) c := by
      rintro ⟨pre, post, l, rfl, h1, h2⟩
      exact ⟨pre, post ++ [.submit cmd], l, by simp, h1, h2⟩
    have hsplit : PaidInTime (calls ++ [.submit cmd]) c → PaidInTime calls c ∨
        c = cmd ∧ (∀ c', .submit c' ∈ calls → c'.id ≠ cmd.id) ∧ cmd.id ∉ log.stable := by
      rintro ⟨pre, post, l, he, h1, h2, h3⟩
      rcases split_snoc he with ⟨rfl, hq, -⟩ | ⟨post', -, he'⟩
      · obtain rfl : c = cmd := by simpa using hq
        rw [hrun, Option.some.injEq] at h2
        exact .inr ⟨rfl, h1, h2 ▸ h3⟩
      · exact .inl ⟨pre, post', l, he', h1, h2, h3⟩
    rw [hpay]
    by_cases hcond : cmd.id = c.id ∧ c.id ∉ log.stable
    · rw [if_pos hcond]
      constructor
      · intro hc
        rcases Option.or_eq_some_iff.mp hc with hc | ⟨hn, hc⟩
        · exact hkeep ((h.paid_iff c).mp hc)
        · obtain rfl := Option.some.inj hc
          exact ⟨calls, [], log, rfl, h.open_ _ hcond.2 hn, hrun, hcond.2⟩
      · intro hp
        rcases hsplit hp with hp | ⟨rfl, hnone, -⟩
        · rw [(h.paid_iff c).mpr hp]
          rfl
        · rw [h.unsubmitted _ hnone]
          rfl
    · rw [if_neg hcond, h.paid_iff]
      refine ⟨hkeep, fun hp => (hsplit hp).resolve_right ?_⟩
      rintro ⟨rfl, -, hs⟩
      exact hcond ⟨rfl, hs⟩

theorem stable_mono_commit {hash : HashOrder} {id : CmdId} {deps : List CmdId} (hI : Inv log)
    (hrun : log.commit hash id deps = some log') : ∀ x ∈ log.stable, x ∈ log'.stable := by
  intro x hx
  by_cases hs : id ∈ log.stable
  · rw [commit_stable hs, Option.some.injEq] at hrun
    rwa [← hrun]
  · obtain ⟨log'', ids, new, hrun', P, -⟩ := commit_spec hI.toCore hs hash deps
    rw [hrun, Option.some.injEq] at hrun'
    subst hrun'
    exact P.mem_stable.mpr (.inr hx)

theorem run_paid (hfresh : CreatesFresh calls) (hrun : run calls = some log) : Paid calls log := by
  induction calls using List.reverseRecOn generalizing log with
  | nil =>
    obtain rfl : empty = log := by simpa [run] using hrun
    have hnone : ∀ id, empty.payload id = none := fun id => rfl
    refine ⟨fun id _ => hnone id, by simp, by simp [hnone], fun cmd => ?_⟩
    simp [hnone, PaidInTime]
  | append_singleton calls c ih =>
    obtain ⟨log₀, h₀, hI, hcall, -⟩ := run_init hfresh hrun
    have hP := ih hfresh.init h₀
    cases c with
    | recordCreation id =>
      cases hcall
      exact hP.other (by simp) (payload_recordCreation log₀ id) fun _ h => h
    | submit cmd => cases hcall; exact hP.submit hI.toCore h₀
    | commit hash id deps =>
      exact hP.other (by simp) (hI.payload_commit hcall) (stable_mono_commit hI hcall)

theorem recorded_sublist (h : ∀ x ∈ log.executions, ∀ c, x.cmd = some c → c.id = x.id) :
    (log.recorded.map Command.id).Sublist log.executed := by
  unfold recorded CmdLog.executed
  generalize log.executions = l at h
  induction l with
  | nil => exact List.Sublist.refl _
  | cons x l ih =>
    have hl := ih fun y hy => h y (List.mem_cons_of_mem _ hy)
    cases hc : x.cmd with
    | none => simpa [hc] using hl.cons x.id
    | some c =>
      have hid := h x List.mem_cons_self c hc
      simpa [hc, hid] using hl

/-- **When a stable command is executed with its payload.** It is recorded
exactly once if its first submit came before it was stable, and never otherwise. -/
theorem recorded_once_iff (calls : List LogCall) (cmd : Command) (log : CmdLog)
    (hfresh : CreatesFresh calls) (hrun : run calls = some log) (hst : cmd.id ∈ log.stable) :
    log.recorded.count cmd = 1 ↔ PaidInTime calls cmd := by
  have hI := (run_inv hfresh hrun).1
  have hP := run_paid hfresh hrun
  have hnd : log.executed.Nodup := hI.executed_perm.nodup_iff.mpr hI.stable_nodup
  obtain ⟨x, hx, hxid⟩ := List.mem_map.mp (hI.executed_perm.mem_iff.mpr hst)
  have hpay : log.payload cmd.id = x.cmd := hxid ▸ payload_of_executed hnd hx
  have hids : ∀ y ∈ log.executions, ∀ c, y.cmd = some c → c.id = y.id := fun y hy c hc =>
    hP.cmd_id y.id c (by rw [payload_of_executed hnd hy, hc])
  have hrnd : log.recorded.Nodup := ((recorded_sublist hids).nodup hnd).of_map
  rw [← hP.paid_iff, hpay]
  constructor
  · intro hcount
    have hmem : cmd ∈ log.recorded := List.count_pos_iff.mp (by omega)
    obtain ⟨y, hy, hyc⟩ := List.mem_filterMap.mp hmem
    rw [← hpay, hids y hy cmd hyc, payload_of_executed hnd hy, hyc]
  · intro hxc
    exact List.count_eq_one_of_mem hrnd (List.mem_filterMap.mpr ⟨x, hx, hxc⟩)

/-- Submit, then commit. -/
theorem recorded_once_iff_submit_first :
    let cmd : Command := ⟨⟨0, 0⟩, 7⟩
    ∃ log, run [.submit cmd, .commit .insertion cmd.id []] = some log ∧
      log.recorded.count cmd = 1 := by
  intro cmd
  have hfresh : CreatesFresh [.submit cmd, .commit .insertion cmd.id []] :=
    CreatesFresh.of_none (by simp)
  obtain ⟨log, hrun, -⟩ := run_spec hfresh
  refine ⟨log, hrun, (recorded_once_iff _ cmd log hfresh hrun ?_).mpr ?_⟩
  · have : (run [.submit cmd, .commit .insertion cmd.id []]).any (cmd.id ∈ ·.stable) = true := by
      decide
    rw [hrun] at this
    simpa using this
  · exact ⟨[], _, empty, rfl, by simp, rfl, by simp [empty]⟩

/-- A commit that overtakes the submit: the command is stable and executed, the
submit is ignored, and no execution is ever recorded. -/
theorem commit_overtakes_submit :
    ¬ ∀ (calls : List LogCall) (cmd : Command) (log : CmdLog), CreatesFresh calls →
      .submit cmd ∈ calls → (∃ hash deps, .commit hash cmd.id deps ∈ calls) →
      run calls = some log → cmd.id ∈ log.stable → log.recorded.count cmd = 1 := by
  intro h
  let cmd : Command := ⟨⟨0, 0⟩, 7⟩
  let calls : List LogCall := [.commit .insertion cmd.id [], .submit cmd]
  have hfresh : CreatesFresh calls := CreatesFresh.of_none (by simp [calls])
  obtain ⟨log, hrun, -⟩ := run_spec hfresh
  have hst : (run calls).all (cmd.id ∈ ·.stable) = true := by decide
  have hcount : (run calls).all (·.recorded.count cmd = 0) = true := by decide
  rw [hrun] at hst hcount
  have hone := h calls cmd log hfresh (by simp [calls]) ⟨.insertion, [], by simp [calls]⟩ hrun
    (by simpa using hst)
  have hzero : log.recorded.count cmd = 0 := by simpa using hcount
  omega

end CmdLog

end Blsmr
