import Blsmr.Replica.Effect

/-!
# The life of a command at its coordinator

At its coordinator an announced command collects replies until its quorum is
handed over; then it is decided at once or has a slow-path instance until it is
decided. `Sound` states that it is never in two of these stages: replies are no
longer collected for a command handed over, and an instance exists for no decided
command. So a command is handed over once and decided once, whatever races with
what.
-/

namespace Blsmr

namespace Progress

/-- The command `i` was announced here. -/
def Announced (x : Progress) (i : CmdId) : Prop := ∃ cmd ∈ x.announced, cmd.id = i

/-- A quorum for `i` was handed over. -/
def HandedOver (x : Progress) (i : CmdId) : Prop := ∃ r, (i, r) ∈ x.ready

/-- The command `i` was decided here. -/
def Decided (x : Progress) (i : CmdId) : Prop := ∃ deps, (i, deps) ∈ x.decided

end Progress

/-- The stages of the commands of replica `p`. -/
structure Sound (cfg : Config) (p : Pid) (x : Progress) : Prop where
  announced_pid : ∀ cmd ∈ x.announced, cmd.id.pid = p
  announced_nodup : (x.announced.map Command.id).Nodup
  pending_ids : x.PendingIds
  pending_open : ∀ i l, x.pending i = some l → x.Announced i ∧ ¬ x.HandedOver i
  open_or_ready : ∀ i, x.Announced i → (x.pending i).isSome ∨ x.HandedOver i
  ready_announced : ∀ i, x.HandedOver i → x.Announced i
  ready_nodup : (x.ready.map Prod.fst).Nodup
  ready_ids : ∀ i r, (i, r) ∈ x.ready → r.quorum ≠ [] ∧ ∀ res ∈ r.quorum, res.id = i
  instance_ready : ∀ i inst, x.instances i = some inst →
    (∃ r, (i, r) ∈ x.ready ∧ inst.deps = unionDeps r.quorum) ∧ ¬ x.Decided i
  instance_ok : ∀ i inst, x.instances i = some inst →
    inst.replicas = Quorum.replicas cfg i ∧ inst.responses.Nodup ∧
      inst.responses ⊆ inst.replicas ∧
      (inst.responses = [] ∨ inst.responses.length ≠ inst.replicas.length)
  decided_ready : ∀ i deps, (i, deps) ∈ x.decided →
    ∃ r, (i, r) ∈ x.ready ∧ deps = unionDeps r.quorum
  decided_nodup : (x.decided.map Prod.fst).Nodup

namespace Sound

variable {cfg : Config} {p : Pid} {x : Progress} {i : CmdId}

theorem init (cfg : Config) (p : Pid) : Sound cfg p (BLSMR.default cfg).progress := by
  refine ⟨?_, ?_, ?_, ?_, ?_, ?_, ?_, ?_, ?_, ?_, ?_, ?_⟩ <;>
    simp [BLSMR.default, BLSMR.progress, DDS.default, Quorum.default, Progress.PendingIds,
      Progress.Announced, Progress.HandedOver]

theorem pid_of_announced (h : Sound cfg p x) (hi : x.Announced i) : i.pid = p := by
  obtain ⟨cmd, hcmd, rfl⟩ := hi
  exact h.announced_pid cmd hcmd

theorem handedOver_of_decided (h : Sound cfg p x) (hi : x.Decided i) : x.HandedOver i := by
  obtain ⟨deps, hd⟩ := hi
  obtain ⟨r, hr, -⟩ := h.decided_ready i deps hd
  exact ⟨r, hr⟩

theorem pid_of_decided (h : Sound cfg p x) (hi : x.Decided i) : i.pid = p :=
  h.pid_of_announced (h.ready_announced i (h.handedOver_of_decided hi))

theorem decided_unique (h : Sound cfg p x) {deps deps' : List CmdId} (h₁ : (i, deps) ∈ x.decided)
    (h₂ : (i, deps') ∈ x.decided) : deps = deps' :=
  congrArg Prod.snd (List.inj_on_of_nodup_map h.decided_nodup h₁ h₂ rfl)

theorem ready_unique (h : Sound cfg p x) {r r' : QuorumReady} (h₁ : (i, r) ∈ x.ready)
    (h₂ : (i, r') ∈ x.ready) : r = r' :=
  congrArg Prod.snd (List.inj_on_of_nodup_map h.ready_nodup h₁ h₂ rfl)

theorem announced_unique (h : Sound cfg p x) {a b : Command} (ha : a ∈ x.announced)
    (hb : b ∈ x.announced) (hab : a.id = b.id) : a = b :=
  List.inj_on_of_nodup_map h.announced_nodup ha hb hab

/-! ## The parts of a step -/

theorem logged (h : Sound cfg p x) (c : LogCall) (log' : CmdLog) : Sound cfg p (x.logged c log') :=
  ⟨h.announced_pid, h.announced_nodup, h.pending_ids, h.pending_open, h.open_or_ready,
    h.ready_announced, h.ready_nodup, h.ready_ids, h.instance_ready, h.instance_ok,
    h.decided_ready, h.decided_nodup⟩

theorem announce (h : Sound cfg p x) {cmd : Command} (hme : cmd.id.pid = p)
    (hnew : ¬ x.Announced cmd.id) (bqs' : QuorumSystem) : Sound cfg p (x.announce cmd bqs') := by
  have hann : ∀ i, (x.announce cmd bqs').Announced i ↔ x.Announced i ∨ i = cmd.id := by
    intro i
    simp only [Progress.Announced, Progress.announce, List.mem_append, List.mem_singleton]
    constructor
    · rintro ⟨c, hc | rfl, rfl⟩
      · exact .inl ⟨c, hc, rfl⟩
      · exact .inr rfl
    · rintro (⟨c, hc, rfl⟩ | rfl)
      · exact ⟨c, .inl hc, rfl⟩
      · exact ⟨cmd, .inr rfl, rfl⟩
  have hpend : ∀ i, i ≠ cmd.id → (x.announce cmd bqs').pending i = x.pending i :=
    fun i hi => Progress.setPending_of_ne _ hi _
  have hself : (x.announce cmd bqs').pending cmd.id = some [] := Progress.setPending_self _ _ _
  refine ⟨fun c hc => ?_, ?_, fun i l hl => ?_, fun i l hl => ?_, fun i hi => ?_, fun i hi => ?_,
    h.ready_nodup, h.ready_ids, h.instance_ready, h.instance_ok, h.decided_ready, h.decided_nodup⟩
  · rcases List.mem_append.mp hc with hc | hc
    · exact h.announced_pid c hc
    · rw [List.mem_singleton.mp hc]; exact hme
  · show ((x.announced ++ [cmd]).map Command.id).Nodup
    rw [List.map_append, List.nodup_append]
    refine ⟨h.announced_nodup, List.nodup_singleton _, fun i hi j hj hij => hnew ?_⟩
    obtain ⟨c, hc, rfl⟩ := List.mem_map.mp hi
    rw [List.map_singleton, List.mem_singleton] at hj
    exact ⟨c, hc, hij.trans hj⟩
  · by_cases hi : i = cmd.id
    · subst hi
      rw [hself] at hl
      cases hl
      simp
    · exact h.pending_ids i l (hpend i hi ▸ hl)
  · rw [hann]
    by_cases hi : i = cmd.id
    · subst hi
      exact ⟨.inr rfl, fun hr => hnew (h.ready_announced _ hr)⟩
    · obtain ⟨h1, h2⟩ := h.pending_open i l (hpend i hi ▸ hl)
      exact ⟨.inl h1, h2⟩
  · by_cases hi' : i = cmd.id
    · subst hi'; simp [hself]
    · rw [hpend i hi']
      exact h.open_or_ready i (((hann i).mp hi).resolve_right hi')
  · exact (hann i).mpr (.inl (h.ready_announced i hi))

theorem collect (h : Sound cfg p x) {l l' : List Res} (hl : x.pending i = some l)
    (hids : ∀ r ∈ l', r.id = i) : Sound cfg p (x.setPending i (some l')) := by
  have hpend : ∀ j k, (x.setPending i (some l')).pending j = some k →
      (x.pending j).isSome ∧ ∀ r ∈ k, r.id = j := by
    intro j k hk
    by_cases hj : j = i
    · subst hj
      rw [Progress.setPending_self] at hk
      cases hk
      exact ⟨by simp [hl], hids⟩
    · rw [Progress.setPending_of_ne _ hj] at hk
      exact ⟨by simp [hk], h.pending_ids j k hk⟩
  refine ⟨h.announced_pid, h.announced_nodup, fun j k hk => (hpend j k hk).2, fun j k hk => ?_,
    fun j hj => ?_, h.ready_announced, h.ready_nodup, h.ready_ids, h.instance_ready, h.instance_ok,
    h.decided_ready, h.decided_nodup⟩
  · obtain ⟨k', hk'⟩ := Option.isSome_iff_exists.mp (hpend j k hk).1
    exact h.pending_open j k' hk'
  · by_cases hji : j = i
    · subst hji; simp
    · rw [Progress.setPending_of_ne _ hji]
      exact h.open_or_ready j hj

theorem hand (h : Sound cfg p x) {l q : List Res} (hl : x.pending i = some l) (hq : q ≠ [])
    (hids : ∀ r ∈ q, r.id = i) (fast : Bool) : Sound cfg p (x.hand i q fast) := by
  obtain ⟨hann, hnr⟩ := h.pending_open i l hl
  have hrdy : ∀ j, (x.hand i q fast).HandedOver j ↔ x.HandedOver j ∨ j = i := by
    intro j
    simp only [Progress.HandedOver, Progress.hand, List.mem_append, List.mem_singleton,
      Prod.mk.injEq, exists_or]
    constructor
    · rintro (h | ⟨r, rfl, -⟩)
      · exact .inl h
      · exact .inr rfl
    · rintro (h | rfl)
      · exact .inl h
      · exact .inr ⟨_, rfl, rfl⟩
  have hmem : ∀ j r, (j, r) ∈ (x.hand i q fast).ready ↔
      (j, r) ∈ x.ready ∨ j = i ∧ r = ⟨q, fast⟩ := by
    intro j r
    simp [Progress.hand]
  have hpend : ∀ j, j ≠ i → (x.hand i q fast).pending j = x.pending j :=
    fun j hj => Progress.setPending_of_ne _ hj _
  have hself : (x.hand i q fast).pending i = none := Progress.setPending_self _ _ _
  refine ⟨h.announced_pid, h.announced_nodup, fun j k hk => ?_, fun j k hk => ?_, fun j hj => ?_,
    fun j hj => ?_, ?_, fun j r hr => ?_, fun j inst hi => ?_, h.instance_ok, fun j deps hd => ?_,
    h.decided_nodup⟩
  · by_cases hj : j = i
    · subst hj; rw [hself] at hk; cases hk
    · exact h.pending_ids j k (hpend j hj ▸ hk)
  · by_cases hj : j = i
    · subst hj; rw [hself] at hk; cases hk
    · obtain ⟨h1, h2⟩ := h.pending_open j k (hpend j hj ▸ hk)
      exact ⟨h1, fun h' => ((hrdy j).mp h').elim h2 hj⟩
  · by_cases hji : j = i
    · exact .inr ((hrdy j).mpr (.inr hji))
    · rw [hpend j hji, hrdy]
      exact (h.open_or_ready j hj).imp id .inl
  · rcases (hrdy j).mp hj with h' | rfl
    · exact h.ready_announced j h'
    · exact hann
  · show ((x.ready ++ [(i, (⟨q, fast⟩ : QuorumReady))]).map Prod.fst).Nodup
    rw [List.map_append, List.nodup_append]
    refine ⟨h.ready_nodup, List.nodup_singleton _, fun j hj k hk hjk => hnr ?_⟩
    obtain ⟨⟨j', r⟩, hr, rfl⟩ := List.mem_map.mp hj
    rw [List.map_singleton, List.mem_singleton] at hk
    obtain rfl : j' = i := hjk.trans hk
    exact ⟨r, hr⟩
  · rcases (hmem j r).mp hr with h' | ⟨rfl, rfl⟩
    · exact h.ready_ids j r h'
    · exact ⟨hq, hids⟩
  · obtain ⟨⟨r, hr, hd⟩, hnd⟩ := h.instance_ready j inst hi
    exact ⟨⟨r, (hmem j r).mpr (.inl hr), hd⟩, hnd⟩
  · obtain ⟨r, hr, hd⟩ := h.decided_ready j deps hd
    exact ⟨r, (hmem j r).mpr (.inl hr), hd⟩

theorem idle_of_pending (h : Sound cfg p x) {l : List Res} (hl : x.pending i = some l) :
    x.instances i = none ∧ ¬ x.Decided i := by
  have hnr := (h.pending_open i l hl).2
  refine ⟨?_, fun hd => hnr (h.handedOver_of_decided hd)⟩
  cases hi : x.instances i with
  | none => rfl
  | some inst =>
    obtain ⟨⟨r, hr, -⟩, -⟩ := h.instance_ready i inst hi
    exact absurd ⟨r, hr⟩ hnr

theorem setInstance (h : Sound cfg p x) {inst : Instance} {r : QuorumReady}
    (hr : (i, r) ∈ x.ready) (hd : inst.deps = unionDeps r.quorum) (hnd : ¬ x.Decided i)
    (hok : inst.replicas = Quorum.replicas cfg i ∧ inst.responses.Nodup ∧
      inst.responses ⊆ inst.replicas ∧
      (inst.responses = [] ∨ inst.responses.length ≠ inst.replicas.length)) :
    Sound cfg p (x.setInstance i (some inst)) := by
  refine ⟨h.announced_pid, h.announced_nodup, h.pending_ids, h.pending_open, h.open_or_ready,
    h.ready_announced, h.ready_nodup, h.ready_ids, fun j inst' hj => ?_, fun j inst' hj => ?_,
    h.decided_ready, h.decided_nodup⟩ <;>
  by_cases hji : j = i
  · subst hji
    rw [Progress.setInstance_self, Option.some.injEq] at hj
    exact hj ▸ ⟨⟨r, hr, hd⟩, hnd⟩
  · rw [Progress.setInstance_of_ne _ hji] at hj
    exact h.instance_ready j inst' hj
  · subst hji
    rw [Progress.setInstance_self, Option.some.injEq] at hj
    exact hj ▸ hok
  · rw [Progress.setInstance_of_ne _ hji] at hj
    exact h.instance_ok j inst' hj

theorem dropInstance (h : Sound cfg p x) (i : CmdId) : Sound cfg p (x.setInstance i none) := by
  have hsub : ∀ j inst, (x.setInstance i none).instances j = some inst →
      x.instances j = some inst := by
    intro j inst hj
    by_cases hji : j = i
    · subst hji; simp at hj
    · rwa [Progress.setInstance_of_ne _ hji] at hj
  exact ⟨h.announced_pid, h.announced_nodup, h.pending_ids, h.pending_open, h.open_or_ready,
    h.ready_announced, h.ready_nodup, h.ready_ids,
    fun j inst hj => h.instance_ready j inst (hsub j inst hj),
    fun j inst hj => h.instance_ok j inst (hsub j inst hj), h.decided_ready, h.decided_nodup⟩

theorem decide (h : Sound cfg p x) {r : QuorumReady} (hr : (i, r) ∈ x.ready)
    (hni : x.instances i = none) (hnd : ¬ x.Decided i) (hash : HashOrder) (log' : CmdLog) :
    Sound cfg p (x.decide hash i (unionDeps r.quorum) log') := by
  have hmem : ∀ j deps, (j, deps) ∈ (x.decide hash i (unionDeps r.quorum) log').decided ↔
      (j, deps) ∈ x.decided ∨ j = i ∧ deps = unionDeps r.quorum := by
    intro j deps
    simp [Progress.decide]
  refine ⟨h.announced_pid, h.announced_nodup, h.pending_ids, h.pending_open, h.open_or_ready,
    h.ready_announced, h.ready_nodup, h.ready_ids, fun j inst hj => ?_, h.instance_ok,
    fun j deps hd => ?_, ?_⟩
  · obtain ⟨h1, h2⟩ := h.instance_ready j inst hj
    refine ⟨h1, ?_⟩
    rintro ⟨deps, hd⟩
    rcases (hmem j deps).mp hd with h' | ⟨rfl, -⟩
    · exact h2 ⟨deps, h'⟩
    · rw [show x.instances j = some inst from hj] at hni
      cases hni
  · rcases (hmem j deps).mp hd with h' | ⟨rfl, rfl⟩
    · exact h.decided_ready j deps h'
    · exact ⟨r, hr, rfl⟩
  · show ((x.decided ++ [(i, unionDeps r.quorum)]).map Prod.fst).Nodup
    rw [List.map_append, List.nodup_append]
    refine ⟨h.decided_nodup, List.nodup_singleton _, fun j hj k hk hjk => hnd ?_⟩
    obtain ⟨⟨j', deps⟩, hd, rfl⟩ := List.mem_map.mp hj
    rw [List.map_singleton, List.mem_singleton] at hk
    obtain rfl : j' = i := hjk.trans hk
    exact ⟨deps, hd⟩

end Sound

/-! ## A step -/

theorem Completes.pending {cfg : Config} {x : Progress} {inp : Option (Pid × Message)} {i : CmdId}
    {q : List Res} (hc : Completes cfg x inp i q) :
    ∃ l, x.pending i = some l ∧ ∀ r ∈ q, r ∈ l ∨ r.id = i ∧
      ∃ src, inp = some (src, .announce (.res r)) := by
  rcases hc with ⟨src, res, l, rfl, rfl, hl, rfl, -⟩ | ⟨-, hl, -⟩
  · refine ⟨l, hl, fun r hr => ?_⟩
    rcases List.mem_append.mp hr with hr | hr
    · exact .inl hr
    · obtain rfl := List.mem_singleton.mp hr
      exact .inr ⟨rfl, src, rfl⟩
  · exact ⟨q, hl, fun r hr => .inl hr⟩

/-- **A step keeps the stages apart.** -/
theorem Sound.step {cfg : Config} {p : Pid} {used : CmdId → Prop} {x x' : Progress}
    {inp : Option (Pid × Message)} {sends : List (Pid × Message)}
    (he : Effect cfg p used x inp x' sends) (hused : ∀ i, x.Announced i → used i)
    (h : Sound cfg p x) : Sound cfg p x' := by
  have hand : ∀ {i q} (fast : Bool), Completes cfg x inp i q → q ≠ [] →
      Sound cfg p (x.hand i q fast) ∧ (i, ⟨q, fast⟩) ∈ (x.hand i q fast).ready ∧
        (x.hand i q fast).instances i = none ∧ ¬ (x.hand i q fast).Decided i := by
    intro i q fast hc hq
    obtain ⟨l, hl, hsub⟩ := hc.pending
    have hids : ∀ r ∈ q, r.id = i := fun r hr =>
      (hsub r hr).elim (h.pending_ids i l hl r) And.left
    exact ⟨h.hand hl hq hids fast, List.mem_append_right _ (List.mem_singleton.mpr rfl),
      h.idle_of_pending hl⟩
  cases he with
  | silent => exact h
  | announce cmd bqs' targets hme hfresh =>
    exact h.announce hme (fun ha => hfresh (hused _ ha)) bqs'
  | submit src cmd => exact h.logged _ _
  | commit src i deps hash log' => exact h.logged _ _
  | stale => exact h
  | collect src res l hl =>
    refine h.collect hl fun r hr => ?_
    rcases List.mem_append.mp hr with hr | hr
    · exact h.pending_ids res.id l hl r hr
    · rw [List.mem_singleton.mp hr]
  | fast inp i q hash log' hc hq =>
    obtain ⟨hs, hr, hni, hnd⟩ := hand true hc hq
    exact hs.decide hr hni hnd hash log'
  | slow inp i q hc hq =>
    obtain ⟨hs, hr, -, hnd⟩ := hand false hc hq
    exact hs.setInstance hr rfl hnd ⟨rfl, List.nodup_nil, List.nil_subset _, .inl rfl⟩
  | request => exact h
  | ignored => exact h
  | accepted src i inst hi hm hlen =>
    obtain ⟨⟨r, hr, hd⟩, hnd⟩ := h.instance_ready i inst hi
    obtain ⟨hrep, hnodup, hsub, -⟩ := h.instance_ok i inst hi
    refine h.setInstance hr hd hnd ⟨hrep, hnodup.insert, fun q hq => ?_, .inr hlen⟩
    rcases List.mem_insert_iff.mp hq with rfl | hq
    · exact hm
    · exact hsub hq
  | complete src i inst hash log' hi =>
    obtain ⟨⟨r, hr, hd⟩, hnd⟩ := h.instance_ready i inst hi
    rw [hd]
    exact (h.dropInstance i).decide hr (Progress.setInstance_self _ _ _) hnd hash log'

end Blsmr
