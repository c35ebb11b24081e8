import Blsmr.Replica.Replies

/-!
# What fixes the order of two commands

The order in which a replica executes two commands is fixed in one of two ways:
one of them depends on the other (`Net.DependsOn`), and then the dependency graph
orders them alike everywhere (`order_of_dependsOn`); or one is stable at every
replica before the other is executed anywhere (`Net.AllPrecede`). A replica that
answers a request either reports an earlier same-key command or holds it as
stable (`Flow.reports`).
-/

namespace Blsmr

open Blsmr.Graph Blsmr.Transition

namespace Net

variable (cfg : Config) (s : Net)

/-- The reply `res` was sent. -/
def Replied (res : Res) : Prop := ∃ pkt ∈ s.sent, pkt.msg = .announce (.res res)

/-- The coordinator of `i` has handed over a quorum for it. -/
def HandedOver (i : CmdId) : Prop := (s.replica i.pid).HandedOver i

/-- A reply in the quorum handed over for `i` reports `j`. -/
def DependsOn (i j : CmdId) : Prop :=
  ∃ rd, (i, rd) ∈ (s.replica i.pid).ready ∧ ∃ res ∈ rd.quorum, j ∈ res.conflicts

/-- Replica `r` holds `i` as stable, and has not executed `j` before it. -/
def Precedes (r : Pid) (i j : CmdId) : Prop :=
  i ∈ (s.replica r).log.stable ∧
    (j ∈ (s.replica r).log.executed → Before (s.replica r).log.executed i j)

def AllPrecede (i j : CmdId) : Prop := ∀ r ∈ cfg.pool, s.Precedes r i j

end Net

section Steps

variable {cfg : Config} {s s' : Net} {p : Pid} {inp : Option (Pid × Message)} {i j : CmdId}

theorem Flow.log_inv (hF : Flow cfg s) (q : Pid) : (s.replica q).log.Inv :=
  (CmdLog.run_inv (hF.creates q) (hF.run q)).1

theorem Flow.mem_executed (hF : Flow cfg s) (q : Pid) :
    i ∈ (s.replica q).log.executed ↔ i ∈ (s.replica q).log.stable :=
  (hF.log_inv q).executed_perm.mem_iff

theorem Flow.command_unique (hF : Flow cfg s) {a b : Command}
    (ha : a ∈ (s.replica a.id.pid).announced) (hb : b ∈ (s.replica b.id.pid).announced)
    (hab : a.id = b.id) : a = b :=
  (hF.sound a.id.pid).announced_unique ha (by rw [hab]; exact hb) hab

theorem Flow.decided_of_stable (hF : Flow cfg s) {r : Pid}
    (h : i ∈ (s.replica r).log.stable) : ∃ deps, (i, deps) ∈ (s.replica i.pid).decided := by
  obtain ⟨hash, deps, hc⟩ :=
    (CmdLog.committed_iff (hF.creates r) (hF.run r)).mp (CmdLog.stable_committed h)
  exact ⟨deps, hF.commit_call r hash i deps hc⟩

theorem Flow.not_stable (hF : Flow cfg s) (h : ¬ s.HandedOver i) (r : Pid) :
    i ∉ (s.replica r).log.stable := fun hst =>
  h ((hF.sound i.pid).handedOver_of_decided (hF.decided_of_stable hst))

theorem Flow.precedes (hF : Flow cfg s) {r : Pid} (hi : i ∈ (s.replica r).log.stable)
    (hj : ¬ s.HandedOver j) : s.Precedes r i j :=
  ⟨hi, fun h => absurd ((hF.mem_executed r).mp h) (hF.not_stable hj r)⟩

theorem NetStep.log_extends (hF : Flow cfg s) (hs : NetStep cfg s p inp s') (q : Pid) :
    (∃ new, (s'.replica q).log.executed = (s.replica q).log.executed ++ new) ∧
      (s.replica q).log.stable ⊆ (s'.replica q).log.stable := by
  by_cases hq : q = p
  · subst hq
    obtain ⟨sends, rest, he, -⟩ := hs.effect
    rcases he.calls_cases with ⟨-, h⟩ | ⟨c, -, h, -⟩
    · rw [h]; exact ⟨⟨[], by simp⟩, List.Subset.refl _⟩
    · exact (hF.log_inv q).call_extends h
  · rw [hs.other hq]; exact ⟨⟨[], by simp⟩, List.Subset.refl _⟩

theorem Net.Precedes.step (hF : Flow cfg s) (hs : NetStep cfg s p inp s') {r : Pid}
    (h : s.Precedes r i j) : s'.Precedes r i j := by
  obtain ⟨⟨new, hnew⟩, hst⟩ := hs.log_extends hF r
  refine ⟨hst h.1, fun hj => ?_⟩
  rw [hnew] at hj ⊢
  by_cases hold : j ∈ (s.replica r).log.executed
  · exact (h.2 hold).append new
  · exact before_append_of_mem ((hF.mem_executed r).mpr h.1)
      ((List.mem_append.mp hj).resolve_left hold) hold

theorem Net.AllPrecede.step (hF : Flow cfg s) (hs : NetStep cfg s p inp s')
    (h : s.AllPrecede cfg i j) : s'.AllPrecede cfg i j := fun r hr => (h r hr).step hF hs

theorem Net.DependsOn.step (hs : NetStep cfg s p inp s') (h : s.DependsOn i j) :
    s'.DependsOn i j := by
  obtain ⟨rd, hrd, res, hres, hj⟩ := h
  exact ⟨rd, (hs.grows _).ready hrd, res, hres, hj⟩

theorem NetStep.handedOver_mono (hs : NetStep cfg s p inp s') (h : s.HandedOver i) :
    s'.HandedOver i := by
  obtain ⟨rd, hrd⟩ := h
  exact ⟨rd, (hs.grows _).ready hrd⟩

theorem NetStep.handedOver_new (hs : NetStep cfg s p inp s') :
    ∃ i₀, ∀ i rd, (i, rd) ∈ (s'.replica i.pid).ready → (i, rd) ∈ (s.replica i.pid).ready ∨
      i = i₀ ∧ i.pid = p ∧ Completes cfg (s.replica p) inp i rd.quorum := by
  obtain ⟨sends, rest, he, -⟩ := hs.effect
  obtain ⟨i₀, h₀⟩ := he.ready_new
  refine ⟨i₀, fun i rd h => ?_⟩
  by_cases hp : i.pid = p
  · rw [hp] at h ⊢
    exact (h₀ i rd h).imp id fun ⟨h1, h2⟩ => ⟨h1, rfl, h2⟩
  · rw [hs.other hp] at h
    exact .inl h

theorem NetStep.replied_cases (hs : NetStep cfg s p inp s') {res : Res} (h : s'.Replied res) :
    s.Replied res ∨ ∃ src cmd, inp = some (src, .announce (.req cmd)) ∧
      res = ⟨p, cmd.id, ((s.replica p).log.submit cmd).2⟩ := by
  obtain ⟨pkt, hpkt, hm⟩ := h
  rcases hs.sent_cases hpkt with hpkt | ⟨-, ⟨c, -, hcm, -⟩ | ⟨c, hcm, hi, -⟩ | ⟨i, d, hcm, -⟩ |
    ⟨i, d, hcm⟩ | ⟨i, d, hcm⟩⟩
  · exact .inl ⟨pkt, hpkt, hm⟩
  rotate_left
  · rw [hm] at hcm
    cases hcm
    exact .inr ⟨_, c, hi, rfl⟩
  all_goals rw [hm] at hcm; cases hcm

/-- **A reply reports** every earlier same-key command that is not stable. -/
theorem Flow.reports (hF : Flow cfg s) {r : Pid} {a b : Command}
    (ha : .submit a ∈ (s.replica r).calls) (hb : ¬ s.HandedOver b.id) (hkey : a.key = b.key)
    (hst : a.id ∉ (s.replica r).log.stable) : a.id ∈ ((s.replica r).log.submit b).2 := by
  refine (CmdLog.mem_submit_iff (hF.creates r) (hF.run r) (fun c c' hc hc' hid => ?_)
    (hF.not_stable hb r)).mpr ⟨a, ha, rfl, hkey, hst⟩
  exact hF.command_unique (hF.submit_call r c hc) (hF.submit_call r c' hc') hid

theorem Flow.exists_deps (hF : Flow cfg s) : ∃ D : CmdId → List CmdId,
    (∀ i deps, (i, deps) ∈ (s.replica i.pid).decided → deps = D i) ∧
      ∀ q, CommitsAs D (s.replica q).calls := by
  classical
  let D : CmdId → List CmdId := fun i =>
    if h : ∃ deps, (i, deps) ∈ (s.replica i.pid).decided then h.choose else []
  have hD : ∀ i deps, (i, deps) ∈ (s.replica i.pid).decided → deps = D i := by
    intro i deps hd
    have hex : ∃ deps, (i, deps) ∈ (s.replica i.pid).decided := ⟨deps, hd⟩
    show deps = dite _ _ _
    rw [dif_pos hex]
    exact (hF.sound i.pid).decided_unique hd hex.choose_spec
  exact ⟨D, hD, fun q hash i deps hc => hD i deps (hF.commit_call q hash i deps hc)⟩

/-- **A dependency fixes the order**: all replicas execute the two alike. -/
theorem Flow.order_of_dependsOn (hF : Flow cfg s) (h : s.DependsOn i j) {q q' : Pid}
    (hi : i ∈ (s.replica q).log.executed) (hj : j ∈ (s.replica q).log.executed)
    (hj' : j ∈ (s.replica q').log.executed) :
    Before (s.replica q).log.executed i j ↔ Before (s.replica q').log.executed i j := by
  obtain ⟨D, hD, hcom⟩ := hF.exists_deps
  obtain ⟨rd, hrd, res, hres, hc⟩ := h
  obtain ⟨deps, hd⟩ := hF.decided_of_stable ((hF.mem_executed q).mp hi)
  obtain ⟨rd', hrd', rfl⟩ := (hF.sound i.pid).decided_ready i deps hd
  obtain rfl := (hF.sound i.pid).ready_unique hrd hrd'
  have hedge : j ∈ D i := by
    rw [← hD i _ hd, mem_unionDeps]
    exact ⟨res, hres, hc⟩
  exact (CmdLog.run_follows (hF.creates q) (hcom q) (hF.run q)).order.agree
    (CmdLog.run_follows (hF.creates q') (hcom q') (hF.run q')).order hj hj'
    (.inl (Reach.single hedge))

end Steps

/-- Every two replicas of the pool that have executed `a` and `b` executed them in
the same order. -/
def SameOrder (cfg : Config) (c : Cluster) (a b : CmdId) : Prop :=
  ∀ p ∈ cfg.pool, ∀ q ∈ cfg.pool,
    a ∈ (c.replicas p).dds.log.executed → b ∈ (c.replicas p).dds.log.executed →
    a ∈ (c.replicas q).dds.log.executed → b ∈ (c.replicas q).dds.log.executed →
    (Before (c.replicas p).dds.log.executed a b ↔ Before (c.replicas q).dds.log.executed a b)

theorem SameOrder.symm {cfg : Config} {c : Cluster} {a b : CmdId} (hab : a ≠ b)
    (h : SameOrder cfg c a b) : SameOrder cfg c b a := by
  have hflip : ∀ l : List CmdId, a ∈ l → b ∈ l → (Before l b a ↔ ¬ Before l a b) := by
    intro l ha hb
    exact ⟨Before.asymm, fun hn => (before_total ha hb hab).resolve_left hn⟩
  intro p hp q hq hb ha hb' ha'
  rw [hflip _ ha hb, hflip _ ha' hb', h p hp q hq ha hb ha' hb']

theorem Flow.sameOrder {cfg : Config} {c : Cluster} (hF : Flow cfg c.net) {a b : CmdId}
    (hab : a ≠ b) (h : c.net.DependsOn a b ∨ c.net.DependsOn b a ∨ c.net.AllPrecede cfg a b ∨
      c.net.AllPrecede cfg b a) : SameOrder cfg c a b := by
  have hprec : ∀ {a b}, c.net.AllPrecede cfg a b → SameOrder cfg c a b :=
    fun h p hp q hq _ hb _ hb' => iff_of_true ((h p hp).2 hb) ((h q hq).2 hb')
  rcases h with h | h | h | h
  · exact fun p _ q _ ha hb _ hb' => hF.order_of_dependsOn h ha hb hb'
  · refine SameOrder.symm hab.symm fun p _ q _ hb ha _ ha' => hF.order_of_dependsOn h hb ha ha'
  · exact hprec h
  · exact SameOrder.symm hab.symm (hprec h)

end Blsmr
