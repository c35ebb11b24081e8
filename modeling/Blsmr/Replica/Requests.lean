import Blsmr.Replica.Ledger

/-!
# Requests

A command is announced to distinct members of the pool, so a replica gets one request for it:
as long as the request is in flight the replica has not submitted the command to its log
(`Asked`).
-/

namespace Blsmr

open Blsmr.Transition

/-- The command whose arrival a message is. -/
def Message.arrived : Message → List Command
  | .announce (.req cmd) => [cmd]
  | _ => []

theorem Message.mem_arrived {msg : Message} {cmd : Command} :
    cmd ∈ msg.arrived ↔ msg = .announce (.req cmd) := by
  unfold Message.arrived
  split
  · simp [eq_comm]
  · rename_i hno
    exact iff_of_false List.not_mem_nil (hno cmd)

/-- A request for `i` on its way to `q`. -/
def asks (q : Pid) (i : CmdId) (pkt : Packet) : Bool :=
  pkt.dst = q ∧ i ∈ pkt.msg.arrived.map Command.id

/-- The command `i` is submitted to a log. -/
def submits (i : CmdId) (call : LogCall) : Bool :=
  match call with
  | .submit cmd => cmd.id = i
  | _ => false

/-- **A replica gets one request** for a command, and is in the pool. -/
structure Asked (cfg : Config) (s : Net) : Prop where
  once : ∀ q i, s.network.countP (asks q i) + (s.replica q).calls.countP (submits i) ≤ 1
  member : ∀ pkt ∈ s.network, pkt.msg.arrived ≠ [] → pkt.dst ∈ cfg.pool
  submitter : ∀ q cmd, .submit cmd ∈ (s.replica q).calls → q ∈ cfg.pool

section

variable {cfg : Config} {me : Pid} {used : CmdId → Prop} {x x' : Progress}
  {inp : Option (Pid × Message)} {sends : List (Pid × Message)}

theorem Targets.distinct (hcfg : cfg.Live) {bqs bqs' : QuorumSystem} {targets : List Pid}
    {earlier : List QuorumSystem.Randomness} (h : bqs = cfg.quorumSystem.after earlier)
    (ht : Targets cfg bqs bqs' targets) : targets.Nodup ∧ targets ⊆ cfg.pool := by
  rcases ht with ⟨hp, -, rfl⟩ | ⟨hp, rng, hrng⟩
  · exact ⟨hcfg.pool_nodup, List.Subset.refl _⟩
  · rcases hcfg with ⟨hd, -⟩ | ⟨k, grid, hk, hg⟩
    · rcases hd with hd | hd <;> (rw [hd.protocolType] at hp; cases hp)
    obtain ⟨hn, -, hx, hperm, -⟩ := hg.spec hk
    obtain ⟨sqrtCeil, faults, hbuilt⟩ := hg.built
    obtain ⟨g, hgrid, hflat, -⟩ := Grid.QuorumSystem.withFaults_spec hg.pool_length faults
    rw [hbuilt, Option.some.injEq] at hgrid
    subst hgrid
    obtain ⟨rows, cols, hr, hc, -, -, he⟩ :=
      QuorumSystem.chosen_crossCells grid earlier rng hperm (hn ▸ hx)
    rw [← hg.quorumSystem, ← h, hrng] at he
    rw [show targets = _ from he]
    refine ⟨Grid.QuorumSystem.nodup_crossCells (hflat ▸ hg.pool_nodup) hr hc, fun p hp => ?_⟩
    obtain ⟨r, c, -, rfl⟩ := Grid.QuorumSystem.mem_crossCells.mp hp
    exact hflat ▸ Grid.QuorumSystem.cell_mem r c

theorem arrived_packets (h : ∀ m ∈ sends, m.2.arrived = []) :
    ∀ pkt ∈ packets me sends, pkt.msg.arrived = [] := by
  intro pkt hp
  obtain ⟨m, hm, rfl⟩ := List.mem_map.mp hp
  exact h m hm

theorem arrived_commitSends (i : CmdId) (deps : List CmdId) :
    ∀ m ∈ commitSends cfg me i deps, m.2.arrived = [] := by
  intro m hm
  obtain ⟨pid, -, rfl⟩ := List.mem_map.mp hm
  rfl

theorem Completes.not_asked {i : CmdId} {q : List Res} (hc : Completes cfg x inp i q) (j : CmdId) :
    (consumed me inp).countP (asks me j) = 0 := by
  rcases hc with ⟨src, res, l, rfl, -⟩ | ⟨rfl, -⟩
  · simp [consumed, asks, Message.arrived]
  · rfl

theorem Effect.asked (he : Effect cfg me used x inp x' sends) :
    (∃ cmd bqs' targets, inp = none ∧ ¬ used cmd.id ∧ Targets cfg x.bqs bqs' targets ∧
        x' = x.announce cmd bqs' ∧ sends = targets.map fun pid => (pid, .announce (.req cmd))) ∨
      (∀ pkt ∈ packets me sends, pkt.msg.arrived = []) ∧
        ∀ i, x'.calls.countP (submits i) =
          x.calls.countP (submits i) + (consumed me inp).countP (asks me i) := by
  cases he with
  | announce cmd bqs' targets hme hfresh ht =>
    exact .inl ⟨cmd, bqs', targets, rfl, hfresh, ht, rfl, rfl⟩
  | submit src cmd =>
    refine .inr ⟨arrived_packets (by simp [Message.arrived]), fun i => ?_⟩
    simp [Progress.logged, consumed, asks, submits, Message.arrived, List.countP_append,
      List.countP_cons, eq_comm]
  | fast inp i q hash log' hc =>
    refine .inr ⟨arrived_packets (arrived_commitSends i _), fun j => ?_⟩
    simp [Progress.decide, Progress.logged, Progress.hand, Progress.setPending, hc.not_asked,
      List.countP_append, submits]
  | slow inp i q hc =>
    refine .inr ⟨arrived_packets (by simp [requestSends, Message.arrived]), fun j => ?_⟩
    simp [Progress.hand, Progress.setPending, Progress.setInstance, hc.not_asked]
  | complete src i inst hash log' hi hm hlen h =>
    refine .inr ⟨arrived_packets (arrived_commitSends i _), fun j => ?_⟩
    simp [Progress.decide, Progress.logged, Progress.setInstance, consumed, asks,
      Message.arrived, List.countP_append, submits]
  | commit src i deps hash log' h =>
    refine .inr ⟨arrived_packets (by simp), fun j => ?_⟩
    simp [Progress.logged, consumed, asks, Message.arrived, List.countP_append, submits]
  | _ =>
    refine .inr ⟨arrived_packets (by simp [Message.arrived]), fun j => ?_⟩
    simp [Progress.setPending, Progress.setInstance, consumed, asks, Message.arrived]

end

namespace Asked

variable {cfg : Config} {s s' : Net} {p : Pid} {inp : Option (Pid × Message)}

theorem init (cfg : Config) : Asked cfg (Cluster.init cfg).net := by
  refine ⟨fun q i => ?_, fun pkt hp => ?_, fun q cmd hc => ?_⟩
  · simp [Cluster.init, Cluster.net, BLSMR.default, BLSMR.progress, DDS.default]
  · cases hp
  · cases hc

theorem not_asked (hF : Flow cfg s) {i : CmdId} (hi : ¬ s.used i) (q : Pid) :
    s.network.countP (asks q i) = 0 ∧ (s.replica q).calls.countP (submits i) = 0 := by
  rw [List.countP_eq_zero, List.countP_eq_zero]
  refine ⟨fun pkt hp hask => hi ?_, fun call hc hsub => hi ?_⟩
  · obtain ⟨-, cmd, hcmd, rfl⟩ := by simpa [asks] using hask
    exact ⟨_, cmd, (hF.req pkt (hF.in_sent hp) cmd (Message.mem_arrived.mp hcmd)).2, rfl⟩
  · cases call with
    | submit cmd =>
      obtain rfl : cmd.id = i := by simpa [submits] using hsub
      exact ⟨_, cmd, hF.submit_call q cmd hc, rfl⟩
    | _ => cases hsub

theorem once_step (h : Asked cfg s) (hcfg : cfg.Live) (hD : Drawn cfg s) (hF : Flow cfg s)
    (hs : NetStep cfg s p inp s') (q : Pid) (i : CmdId) :
    s'.network.countP (asks q i) + (s'.replica q).calls.countP (submits i) ≤ 1 := by
  have hother : q ≠ p → (s'.replica q).calls = (s.replica q).calls := fun hq => by rw [hs.other hq]
  obtain ⟨sends, rest, he, hperm, hnet, -⟩ := hs.effect
  have hold := h.once q i
  rw [hperm.countP_eq, List.countP_append] at hold
  rw [hnet, List.countP_append]
  rcases he.asked with ⟨cmd, bqs', targets, rfl, hfresh, ht, hx, rfl⟩ | ⟨hsend, hcalls⟩
  · have hsame : (s'.replica q).calls.countP (submits i) =
        (s.replica q).calls.countP (submits i) := by
      by_cases hq : q = p
      · subst hq
        simp [hx, Progress.announce, Progress.logged, Progress.setPending, submits]
      · rw [hother hq]
    have hcount : (packets p (targets.map fun pid => (pid, .announce (.req cmd)))).countP
        (asks q i) = if i = cmd.id then targets.count q else 0 := by
      unfold packets
      rw [List.map_map, List.countP_map]
      by_cases hi : i = cmd.id
      · rw [if_pos hi, List.count]
        refine List.countP_congr fun pid _ => ?_
        simp [asks, Message.arrived, hi]
      · rw [if_neg hi, List.countP_eq_zero]
        intro pid _
        simp [asks, Message.arrived, hi]
    rw [hsame, hcount]
    by_cases hi : i = cmd.id
    · subst hi
      obtain ⟨earlier, hb⟩ := hD p
      obtain ⟨h0, h1⟩ := not_asked hF hfresh q
      rw [hperm.countP_eq, List.countP_append] at h0
      have := List.nodup_iff_count_le_one.mp (ht.distinct hcfg hb).1 q
      rw [if_pos rfl]
      omega
    · rw [if_neg hi]
      omega
  · have hnone : (packets p sends).countP (asks q i) = 0 := by
      rw [List.countP_eq_zero]
      intro pkt hp
      simp [asks, hsend pkt hp]
    rw [hnone]
    by_cases hq : q = p
    · subst hq
      rw [hcalls i]
      omega
    · rw [hother hq]
      omega

/-- **A step keeps the requests single.** -/
theorem step (h : Asked cfg s) (hcfg : cfg.Live) (hD : Drawn cfg s) (hF : Flow cfg s)
    (hs : NetStep cfg s p inp s') : Asked cfg s' := by
  refine ⟨h.once_step hcfg hD hF hs, fun pkt hp harr => ?_, fun q cmd hc => ?_⟩
  · obtain ⟨sends, rest, he, hperm, hnet, -⟩ := hs.effect
    rw [hnet] at hp
    rcases List.mem_append.mp hp with hp | hp
    · exact h.member pkt (hperm.mem_iff.mpr (List.mem_append_right _ hp)) harr
    · rcases he.asked with ⟨cmd, bqs', targets, -, -, ht, -, rfl⟩ | ⟨hsend, -⟩
      · obtain ⟨earlier, hb⟩ := hD p
        obtain ⟨m, hm, rfl⟩ := List.mem_map.mp hp
        obtain ⟨pid, hpid, rfl⟩ := List.mem_map.mp hm
        exact (ht.distinct hcfg hb).2 hpid
      · exact absurd (hsend pkt hp) harr
  · rcases hs.call_cases hc with hc | ⟨_, -, heq, -⟩ | ⟨src, cmd', heq, hi⟩ | ⟨_, _, _, heq, -⟩
    · exact h.submitter q cmd hc
    · cases heq
    · cases heq
      exact h.member _ hi (by simp [Message.arrived])
    · cases heq

theorem of_reachable (hcfg : cfg.Live) {c : Cluster} (h : Cluster.Reachable cfg c) :
    Asked cfg c.net :=
  (net_invariant (I := fun s => Flow cfg s ∧ Drawn cfg s ∧ Asked cfg s)
    ⟨Flow.init cfg, fun _ => ⟨[], rfl⟩, init cfg⟩
    (fun _ _ _ _ _ hI hs => ⟨hI.1.step hs, hI.2.1.step hs, hI.2.2.step hcfg hI.2.1 hI.1 hs⟩) h).2.2

theorem not_submitted (h : Asked cfg s) {src : Pid} {cmd : Command}
    (hp : ⟨src, p, .announce (.req cmd)⟩ ∈ s.network) {cmd' : Command} (hid : cmd'.id = cmd.id) :
    .submit cmd' ∉ (s.replica p).calls := fun hc => by
  have hpos : 0 < s.network.countP (asks p cmd.id) :=
    List.countP_pos_iff.mpr ⟨_, hp, by simp [asks, Message.arrived]⟩
  have hpos' : 0 < (s.replica p).calls.countP (submits cmd.id) :=
    List.countP_pos_iff.mpr ⟨_, hc, by simp [submits, hid]⟩
  have := h.once p cmd.id
  omega

end Asked

end Blsmr
