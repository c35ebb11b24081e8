import Blsmr.Replica.Liveness

/-!
# The timers of a replica

A replica has at most one submit timer, which is pending as long as it has
commands left to announce, and a force timer for some of the commands announced
(`Timely`). So `on_timer` is never called with a timer it does not know, and as no
message makes a replica panic either, nothing does (`no_panic`).
-/

namespace Blsmr

open Blsmr.Transition

/-! ## When the wire is empty -/

theorem Live.stable {cfg : Config} {s : Net} {i : CmdId} (hcfg : cfg.Live) (hL : Live cfg s)
    (hF : Flow cfg s) (hO : cfg.protocolType ≠ .threeJane → Once cfg s) (hq : s.network = [])
    (hi : s.used i) {q : Pid} (hqp : q ∈ cfg.pool) : i ∈ (s.replica q).log.stable := by
  refine ((hF.log_inv q).toCore.stable_or_pending
    (hL.committed hcfg hF hO hq hi hqp)).resolve_right fun hpend => ?_
  rw [hL.pendingCommit hcfg hF hO hq hqp] at hpend
  cases hpend

/-! ## What the handlers do to the timers -/

/-- The two states have the same timers and have announced the same commands. -/
structure BLSMR.SameTimers (b b' : BLSMR) : Prop where
  force : b'.dds.announceForceTimers = b.dds.announceForceTimers
  current : b'.currentSubmitTimerId = b.currentSubmitTimerId
  submitted : b'.submitted = b.submitted
  announced : b'.announced = b.announced

section Handlers

variable {cfg : Config} {me src : Pid} {env : Env} {b : BLSMR} {out : Outcome}

theorem decide_timers {i : CmdId} {deps : List CmdId} (h : b.decide cfg me env i deps = some out) :
    b.SameTimers out.state ∧ out.timers = [] := by
  obtain ⟨dds, hdds, rfl⟩ := Option.map_eq_some_iff.mp h
  obtain ⟨log', -, rfl⟩ := Option.map_eq_some_iff.mp hdds
  exact ⟨⟨rfl, rfl, rfl, rfl⟩, rfl⟩

theorem handleAnnounceStatus_timers {status : AnnounceStatus}
    (h : b.handleAnnounceStatus cfg me env status = some out) :
    b.SameTimers out.state ∧ out.timers = [] := by
  cases status with
  | doNothing => cases h; exact ⟨⟨rfl, rfl, rfl, rfl⟩, rfl⟩
  | quorumReady ready =>
    obtain ⟨quorum, fast⟩ := ready
    cases quorum with
    | nil => cases h
    | cons first rest =>
      cases fast with
      | true =>
        obtain ⟨hs, ht⟩ := decide_timers (b := { b with
          ready := b.ready ++ [(first.id, ⟨first :: rest, true⟩)] }) h
        exact ⟨⟨hs.force, hs.current, hs.submitted, hs.announced⟩, ht⟩
      | false => cases h; exact ⟨⟨rfl, rfl, rfl, rfl⟩, rfl⟩

theorem handleQuorumStatus_timers {status : QuorumStatus}
    (h : b.handleQuorumStatus cfg me env status = some out) :
    b.SameTimers out.state ∧ out.timers = [] := by
  cases status with
  | doNothing => cases h; exact ⟨⟨rfl, rfl, rfl, rfl⟩, rfl⟩
  | decided i deps => exact decide_timers h

theorem dds_onMessage_timers {d d' : DDS} {m : Announce} {status : AnnounceStatus}
    {sends : List (Pid × Announce)} (h : d.onMessage cfg me env src m = some (d', status, sends)) :
    d'.announceForceTimers = d.announceForceTimers := by
  cases m with
  | req cmd => cases h; rfl
  | commit i deps =>
    obtain ⟨d'', hd, h⟩ := Option.map_eq_some_iff.mp h
    cases h
    obtain ⟨log', -, rfl⟩ := Option.map_eq_some_iff.mp hd
    rfl
  | res res =>
    simp only [DDS.onMessage] at h
    split at h
    · cases h; rfl
    · split at h
      · obtain ⟨fast, -, h⟩ := Option.map_eq_some_iff.mp h
        cases h
        rfl
      · cases h; rfl

theorem onMessage_timers {msg : Message} (h : b.onMessage cfg me env src msg = some out) :
    b.SameTimers out.state ∧ out.timers = [] := by
  cases msg with
  | announce m =>
    obtain ⟨⟨dds, status, sends⟩, hd, h⟩ := Option.bind_eq_some_iff.mp h
    obtain ⟨out', ho, h⟩ := Option.bind_eq_some_iff.mp h
    cases h
    obtain ⟨hs, ht⟩ := handleAnnounceStatus_timers ho
    exact ⟨⟨hs.force.trans (dds_onMessage_timers hd), hs.current, hs.submitted, hs.announced⟩, ht⟩
  | quorum m =>
    obtain ⟨out', ho, h⟩ := Option.bind_eq_some_iff.mp h
    cases h
    obtain ⟨hs, ht⟩ := handleQuorumStatus_timers ho
    exact ⟨⟨hs.force, hs.current, hs.submitted, hs.announced⟩, ht⟩

theorem onTimer_cases {id : TimerId} (h : b.onTimer cfg me env id = some out) :
    ((b.dds.announceForceTimers.lookup id).isSome ∧
      out.state.dds.announceForceTimers = b.dds.announceForceTimers.erase id ∧
      out.state.currentSubmitTimerId = b.currentSubmitTimerId ∧
      out.state.submitted = b.submitted ∧ out.state.announced = b.announced ∧ out.timers = []) ∨
    b.dds.announceForceTimers.lookup id = none ∧ id = b.currentSubmitTimerId ∧
      out = b.onSubmitTimer cfg me env := by
  unfold BLSMR.onTimer at h
  by_cases hmine : b.dds.isMyTimer id
  · rw [if_pos hmine] at h
    obtain ⟨⟨dds, status⟩, hd, h⟩ := Option.bind_eq_some_iff.mp h
    obtain ⟨i, hi, hd⟩ := Option.bind_eq_some_iff.mp hd
    obtain ⟨hs, ht⟩ := handleAnnounceStatus_timers h
    have hforce : dds.announceForceTimers = b.dds.announceForceTimers.erase id := by
      simp only at hd
      split at hd
      · cases hd; rfl
      · split at hd
        · obtain ⟨fast, -, hd⟩ := Option.bind_eq_some_iff.mp hd
          cases hd
          rfl
        · cases hd; rfl
    exact .inl ⟨hmine, hs.force.trans hforce, hs.current, hs.submitted, hs.announced, ht⟩
  · rw [if_neg hmine] at h
    have hnone : b.dds.announceForceTimers.lookup id = none := by
      simpa [DDS.isMyTimer] using hmine
    by_cases hid : id = b.currentSubmitTimerId
    · rw [if_pos hid, Option.some.injEq] at h
      exact .inr ⟨hnone, hid, h.symm⟩
    · rw [if_neg hid] at h
      cases h

variable (cfg me env b)

theorem onSubmitTimer_submitted :
    (b.onSubmitTimer cfg me env).state.submitted = b.submitted + 1 := by
  by_cases hl : b.submitted + 1 < cfg.submitLimit <;>
    simp [BLSMR.onSubmitTimer, hl, BLSMR.schedSubmit]

theorem onSubmitTimer_announced : (b.onSubmitTimer cfg me env).state.announced =
    b.announced ++ [⟨⟨me, env.uid⟩, env.key⟩] := by
  by_cases hl : b.submitted + 1 < cfg.submitLimit <;>
    simp [BLSMR.onSubmitTimer, hl, BLSMR.schedSubmit]

theorem onSubmitTimer_current : (b.onSubmitTimer cfg me env).state.currentSubmitTimerId =
    if b.submitted + 1 < cfg.submitLimit then env.submitTimer else b.currentSubmitTimerId := by
  by_cases hl : b.submitted + 1 < cfg.submitLimit <;>
    simp [BLSMR.onSubmitTimer, hl, BLSMR.schedSubmit]

theorem onSubmitTimer_timers : (b.onSubmitTimer cfg me env).timers =
    DDS.announceTimers cfg env ++
      if b.submitted + 1 < cfg.submitLimit then [env.submitTimer] else [] := by
  by_cases hl : b.submitted + 1 < cfg.submitLimit <;> simp [BLSMR.onSubmitTimer, hl]

theorem announce_force (d : DDS) (cmd : Command) : (d.announce cfg env cmd).1.announceForceTimers =
    if cfg.protocolType = .wintermute then d.announceForceTimers.insert env.forceTimer cmd.id
    else d.announceForceTimers := by
  unfold DDS.announce DDS.prepareAnnounce DDS.sendAnnounce
  cases cfg.protocolType <;> rfl

theorem onSubmitTimer_force : (b.onSubmitTimer cfg me env).state.dds.announceForceTimers =
    if cfg.protocolType = .wintermute then
      b.dds.announceForceTimers.insert env.forceTimer ⟨me, env.uid⟩
    else b.dds.announceForceTimers := by
  rw [← announce_force cfg env b.dds ⟨⟨me, env.uid⟩, env.key⟩]
  by_cases hl : b.submitted + 1 < cfg.submitLimit <;>
    simp [BLSMR.onSubmitTimer, hl, BLSMR.schedSubmit]

end Handlers

/-! ## The timers of a replica -/

/-- What a replica knows of its pending timers `ts`; `used` are all identifiers
handed out so far. -/
structure BLSMR.Timely (limit : ℕ) (b : BLSMR) (started : Prop) (ts used : TimerId → Prop) :
    Prop where
  pending : ∀ id, ts id → started ∧ used id ∧ ((b.dds.announceForceTimers.lookup id).isSome ∨
    id = b.currentSubmitTimerId ∧ b.submitted < limit)
  force_used : ∀ id, (b.dds.announceForceTimers.lookup id).isSome → used id
  submit : started → b.submitted < limit →
    ts b.currentSubmitTimerId ∧ b.dds.announceForceTimers.lookup b.currentSubmitTimerId = none
  submitted : b.submitted = b.announced.length
  le_limit : b.submitted ≤ limit
  idle : ¬ started → b.announced = []

namespace BLSMR.Timely

variable {cfg : Config} {limit : ℕ} {me : Pid} {env : Env} {b b' : BLSMR} {started started' : Prop}
  {ts ts' used used' : TimerId → Prop} {id : TimerId}

theorem force_none (h : b.Timely limit started ts used) (hid : ¬ used id) :
    b.dds.announceForceTimers.lookup id = none := by
  by_contra hl
  exact hid (h.force_used id (Option.ne_none_iff_isSome.mp hl))

theorem congr (h : b.Timely limit started ts used) (hs : b.SameTimers b')
    (hst : started' ↔ started) (ht : ∀ id, ts' id ↔ ts id) (hu : ∀ id, used id → used' id) :
    b'.Timely limit started' ts' used' := by
  refine ⟨fun id hid => ?_, fun id hid => ?_, fun hst' hlt => ?_, ?_, ?_, fun hn => ?_⟩
  · obtain ⟨h1, h2, h3⟩ := h.pending id ((ht id).mp hid)
    rw [hs.force, hs.current, hs.submitted]
    exact ⟨hst.mpr h1, hu id h2, h3⟩
  · rw [hs.force] at hid
    exact hu id (h.force_used id hid)
  · rw [hs.submitted] at hlt
    rw [ht, hs.force, hs.current]
    exact h.submit (hst.mp hst') hlt
  · rw [hs.submitted, hs.announced]
    exact h.submitted
  · rw [hs.submitted]
    exact h.le_limit
  · rw [hs.announced]
    exact h.idle fun h' => hn (hst.mpr h')

theorem start (h : b.Timely cfg.submitLimit started ts used) (hn : ¬ started)
    (hfresh : ¬ used env.submitTimer)
    (ht : ∀ id, ts' id ↔ ts id ∨ id ∈ (b.onStart cfg env).timers)
    (hu : ∀ id, used id ∨ id = env.submitTimer → used' id) :
    (b.onStart cfg env).state.Timely cfg.submitLimit True ts' used' := by
  have hno : ∀ id, ¬ ts id := fun id hid => hn (h.pending id hid).1
  have hz : b.submitted = 0 := by rw [h.submitted, h.idle hn, List.length_nil]
  unfold BLSMR.onStart at ht ⊢
  by_cases hl : cfg.submitLimit ≠ 0
  · simp only [if_pos hl, List.mem_singleton] at ht ⊢
    refine ⟨fun id hid => ?_, fun id hid => hu id (.inl (h.force_used id hid)),
      fun _ _ => ⟨(ht _).mpr (.inr rfl), h.force_none hfresh⟩, h.submitted, h.le_limit,
      fun hn' => absurd trivial hn'⟩
    obtain rfl := ((ht id).mp hid).resolve_left (hno id)
    exact ⟨trivial, hu _ (.inr rfl), .inr ⟨rfl, by rw [schedSubmit, hz]; omega⟩⟩
  · simp only [if_neg hl, List.not_mem_nil, or_false] at ht ⊢
    exact ⟨fun id hid => absurd ((ht id).mp hid) (hno id),
      fun id hid => hu id (.inl (h.force_used id hid)), fun _ hlt => by omega, h.submitted,
      h.le_limit, fun hn' => absurd trivial hn'⟩

theorem force (h : b.Timely limit started ts used)
    (hid : (b.dds.announceForceTimers.lookup id).isSome)
    (hf : b'.dds.announceForceTimers = b.dds.announceForceTimers.erase id)
    (hc : b'.currentSubmitTimerId = b.currentSubmitTimerId) (hs : b'.submitted = b.submitted)
    (ha : b'.announced = b.announced) (ht : ∀ x, ts' x ↔ ts x ∧ x ≠ id)
    (hu : ∀ x, used x → used' x) : b'.Timely limit started ts' used' := by
  have hlook : ∀ x, x ≠ id → b'.dds.announceForceTimers.lookup x =
      b.dds.announceForceTimers.lookup x := fun x hx => by rw [hf, AList.lookup_erase_ne hx]
  refine ⟨fun x hx => ?_, fun x hx => ?_, fun hst hlt => ?_, ?_, ?_, fun hn => ?_⟩
  · obtain ⟨hx, hne⟩ := (ht x).mp hx
    obtain ⟨h1, h2, h3⟩ := h.pending x hx
    rw [hlook x hne, hc, hs]
    exact ⟨h1, hu x h2, h3⟩
  · by_cases hx' : x = id
    · subst hx'
      rw [hf, AList.lookup_erase] at hx
      cases hx
    · rw [hlook x hx'] at hx
      exact hu x (h.force_used x hx)
  · rw [hs] at hlt
    obtain ⟨h1, h2⟩ := h.submit hst hlt
    have hne : b.currentSubmitTimerId ≠ id := by
      rintro rfl
      rw [h2] at hid
      cases hid
    rw [hc, ht, hlook _ hne]
    exact ⟨⟨h1, hne⟩, h2⟩
  · rw [hs, ha]
    exact h.submitted
  · rw [hs]
    exact h.le_limit
  · rw [ha]
    exact h.idle hn

theorem submitTimer (h : b.Timely cfg.submitLimit started ts used) (hts : ts id)
    (hnone : b.dds.announceForceTimers.lookup id = none) (hcur : id = b.currentSubmitTimerId)
    (hff : ¬ used env.forceTimer) (hfs : ¬ used env.submitTimer)
    (hne : env.forceTimer ≠ env.submitTimer)
    (ht : ∀ x, ts' x ↔ ts x ∧ x ≠ id ∨ x ∈ (b.onSubmitTimer cfg me env).timers)
    (hu : ∀ x, used x ∨ x = env.forceTimer ∨ x = env.submitTimer → used' x) :
    (b.onSubmitTimer cfg me env).state.Timely cfg.submitLimit started ts' used' := by
  obtain ⟨hst, -, hlt⟩ := h.pending id hts
  replace hlt : b.submitted < cfg.submitLimit := by
    rcases hlt with hlt | ⟨-, hlt⟩
    · rw [hnone] at hlt
      cases hlt
    · exact hlt
  have hforce := onSubmitTimer_force cfg me env b
  have hsub := onSubmitTimer_submitted cfg me env b
  have hann := onSubmitTimer_announced cfg me env b
  have hcur' := onSubmitTimer_current cfg me env b
  rw [onSubmitTimer_timers] at ht
  have hold : ∀ x, x ≠ env.forceTimer →
      (b.onSubmitTimer cfg me env).state.dds.announceForceTimers.lookup x =
        b.dds.announceForceTimers.lookup x := by
    intro x hx
    rw [hforce]
    split
    · rw [AList.lookup_insert_ne hx]
    · rfl
  refine ⟨fun x hx => ?_, fun x hx => ?_, fun _ hlt' => ?_, ?_, ?_, fun hn => absurd hst hn⟩
  · rcases (ht x).mp hx with ⟨hx, hxid⟩ | hx
    · obtain ⟨-, hxu, hx'⟩ := h.pending x hx
      have hxf : (b.dds.announceForceTimers.lookup x).isSome :=
        hx'.resolve_right fun h' => hxid (h'.1.trans hcur.symm)
      rw [hold x fun he => hff (he ▸ hxu)]
      exact ⟨hst, hu x (.inl hxu), .inl hxf⟩
    rcases List.mem_append.mp hx with hx | hx
    · unfold DDS.announceTimers at hx
      split at hx
      · rename_i hw
        obtain rfl := List.mem_singleton.mp hx
        rw [hforce, if_pos hw, AList.lookup_insert]
        exact ⟨hst, hu _ (.inr (.inl rfl)), .inl rfl⟩
      · cases hx
    · split at hx
      · rename_i hlt'
        obtain rfl := List.mem_singleton.mp hx
        rw [hcur', if_pos hlt', hsub]
        exact ⟨hst, hu _ (.inr (.inr rfl)), .inr ⟨rfl, hlt'⟩⟩
      · cases hx
  · by_cases hxf : x = env.forceTimer
    · exact hu x (.inr (.inl hxf))
    · rw [hold x hxf] at hx
      exact hu x (.inl (h.force_used x hx))
  · rw [hsub] at hlt'
    rw [hcur', if_pos hlt', hold _ hne.symm, ht, if_pos hlt']
    exact ⟨.inr (by simp), h.force_none hfs⟩
  · rw [hsub, hann, h.submitted, List.length_append, List.length_singleton]
  · rw [hsub]
    omega

end BLSMR.Timely

/-! ## The timers of a cluster -/

section Cases

variable {cfg : Config} {c c' : Cluster} {p : Pid} {env : Env}

theorem step_start (hs : Cluster.step cfg c (.start p env) = some c') :
    c.Fresh env ∧ p ∈ cfg.pool ∧ p ∉ c.started ∧
      c' = { c with started := p :: c.started }.update p env ((c.replicas p).onStart cfg env) := by
  obtain ⟨hf, hs⟩ := Option.ite_none_right_eq_some.mp hs
  obtain ⟨hp, hs⟩ := Option.ite_none_right_eq_some.mp hs
  exact ⟨hf, hp.1, hp.2, (Option.some.inj hs).symm⟩

theorem step_deliver {packet : Packet} (hs : Cluster.step cfg c (.deliver packet env) = some c') :
    c.Fresh env ∧ packet ∈ c.network ∧ ∃ out, (c.replicas packet.dst).onMessage cfg packet.dst env
        packet.src packet.msg = some out ∧
      c' = { c with network := c.network.erase packet }.update packet.dst env out := by
  obtain ⟨hf, hs⟩ := Option.ite_none_right_eq_some.mp hs
  obtain ⟨hp, hs⟩ := Option.ite_none_right_eq_some.mp hs
  obtain ⟨out, hout, rfl⟩ := Option.map_eq_some_iff.mp hs
  exact ⟨hf, hp, out, hout, rfl⟩

theorem step_timer {id : TimerId} (hs : Cluster.step cfg c (.timer p id env) = some c') :
    c.Fresh env ∧ (p, id) ∈ c.timers ∧ ∃ out, (c.replicas p).onTimer cfg p env id = some out ∧
      c' = { c with timers := c.timers.erase (p, id) }.update p env out := by
  obtain ⟨hf, hs⟩ := Option.ite_none_right_eq_some.mp hs
  obtain ⟨hp, hs⟩ := Option.ite_none_right_eq_some.mp hs
  obtain ⟨out, hout, rfl⟩ := Option.map_eq_some_iff.mp hs
  exact ⟨hf, hp, out, hout, rfl⟩

end Cases

structure Timely (cfg : Config) (c : Cluster) : Prop where
  started_pool : c.started ⊆ cfg.pool
  started_nodup : c.started.Nodup
  timers_nodup : c.timers.Nodup
  replica : ∀ p, (c.replicas p).Timely cfg.submitLimit (p ∈ c.started)
    (fun id => (p, id) ∈ c.timers) (· ∈ c.timerIds)

namespace Timely

variable {cfg : Config} {c c' : Cluster} {a : Action}

theorem init (cfg : Config) : Timely cfg (Cluster.init cfg) := by
  refine ⟨by simp [Cluster.init], by simp [Cluster.init], by simp [Cluster.init], fun p => ?_⟩
  constructor <;> simp [Cluster.init, BLSMR.default, DDS.default]

theorem update {d : Cluster} {p : Pid} {env : Env} {out : Outcome} (h : Timely cfg c)
    (hf : c.Fresh env) (hrep : d.replicas = c.replicas) (hids : d.timerIds = c.timerIds)
    (hpool : d.started ⊆ cfg.pool) (hnd : d.started.Nodup)
    (hst : ∀ q, q ≠ p → (q ∈ d.started ↔ q ∈ c.started)) (hsub : d.timers.Sublist c.timers)
    (hts : ∀ q id, q ≠ p → ((q, id) ∈ d.timers ↔ (q, id) ∈ c.timers))
    (hnew : out.timers.Nodup ∧ ∀ id ∈ out.timers, id = env.forceTimer ∨ id = env.submitTimer)
    (hself : out.state.Timely cfg.submitLimit (p ∈ d.started)
      (fun id => (p, id) ∈ d.timers ∨ id ∈ out.timers)
      (fun id => id ∈ c.timerIds ∨ id = env.forceTimer ∨ id = env.submitTimer)) :
    Timely cfg (d.update p env out) := by
  have htimers : ∀ q id, (q, id) ∈ (d.update p env out).timers ↔
      (q, id) ∈ d.timers ∨ q = p ∧ id ∈ out.timers := by
    intro q id
    simp only [Cluster.update, List.mem_append, List.mem_map, Prod.mk.injEq]
    constructor
    · rintro (h' | ⟨x, hx, rfl, rfl⟩)
      · exact .inl h'
      · exact .inr ⟨rfl, hx⟩
    · rintro (h' | ⟨rfl, hx⟩)
      · exact .inl h'
      · exact .inr ⟨id, hx, rfl, rfl⟩
  have hused : ∀ id, id ∈ (d.update p env out).timerIds ↔
      id ∈ c.timerIds ∨ id = env.forceTimer ∨ id = env.submitTimer := by
    intro id
    simp only [Cluster.update, List.mem_cons, hids]
    tauto
  refine ⟨hpool, hnd, ?_, fun q => ?_⟩
  · show (d.timers ++ out.timers.map fun id => (p, id)).Nodup
    refine List.nodup_append.mpr ⟨h.timers_nodup.sublist hsub,
      hnew.1.map fun x y hxy => (Prod.mk.inj hxy).2, fun t ht t' ht' heq => ?_⟩
    obtain ⟨id, hid, rfl⟩ := List.mem_map.mp ht'
    subst heq
    have hmem := ((h.replica p).pending id (hsub.subset ht)).2.1
    rcases hnew.2 id hid with rfl | rfl
    · exact hf.2.1 hmem
    · exact hf.2.2.1 hmem
  · by_cases hq : q = p
    · subst hq
      have hrq : (d.update q env out).replicas q = out.state := by simp [Cluster.update]
      rw [hrq]
      exact hself.congr ⟨rfl, rfl, rfl, rfl⟩ Iff.rfl (fun id => by simp [htimers])
        fun id hid => (hused id).mpr hid
    · have hrq : (d.update p env out).replicas q = c.replicas q := by
        simp [Cluster.update, hq, hrep]
      rw [hrq]
      exact (h.replica q).congr ⟨rfl, rfl, rfl, rfl⟩ (hst q hq)
        (fun id => by simp [htimers, hq, hts q id hq]) fun id hid => (hused id).mpr (.inl hid)

theorem step (h : Timely cfg c) (hs : Cluster.step cfg c a = some c') : Timely cfg c' := by
  cases a with
  | start p env =>
    obtain ⟨hf, hp, hn, rfl⟩ := step_start hs
    have hnew : ((c.replicas p).onStart cfg env).timers.Nodup ∧
        ∀ id ∈ ((c.replicas p).onStart cfg env).timers, id = env.forceTimer ∨
          id = env.submitTimer := by
      unfold BLSMR.onStart
      split <;> simp
    refine h.update hf rfl rfl (List.cons_subset.mpr ⟨hp, h.started_pool⟩)
      (List.nodup_cons.mpr ⟨hn, h.started_nodup⟩) (fun q hq => by simp [hq])
      (List.Sublist.refl _) (fun _ _ _ => Iff.rfl) hnew ?_
    refine ((h.replica p).start hn hf.2.2.1 (fun id => Iff.rfl) fun x hx => ?_).congr
      ⟨rfl, rfl, rfl, rfl⟩ (by simp) (fun _ => Iff.rfl) fun _ hx => hx
    exact hx.imp id fun h' => .inr h'
  | deliver packet env =>
    obtain ⟨hf, -, out, hout, rfl⟩ := step_deliver hs
    obtain ⟨hsame, ht⟩ := onMessage_timers hout
    refine h.update hf rfl rfl h.started_pool h.started_nodup (fun _ _ => Iff.rfl)
      (List.Sublist.refl _) (fun _ _ _ => Iff.rfl) (by simp [ht]) ?_
    exact (h.replica packet.dst).congr hsame Iff.rfl (fun id => by simp [ht])
      fun id hid => .inl hid
  | timer p id env =>
    obtain ⟨hf, hmem, out, hout, rfl⟩ := step_timer hs
    have herase : ∀ q x, (q, x) ∈ c.timers.erase (p, id) ↔ (q, x) ∈ c.timers ∧ (q, x) ≠ (p, id) :=
      fun q x => by rw [h.timers_nodup.mem_erase_iff, and_comm]
    have hother : ∀ q x, q ≠ p → ((q, x) ∈ c.timers.erase (p, id) ↔ (q, x) ∈ c.timers) :=
      fun q x hq => by simp [herase, hq]
    have hupd := fun hnew => @update cfg c { c with timers := c.timers.erase (p, id) } p env out
      h hf rfl rfl h.started_pool h.started_nodup (fun _ _ => Iff.rfl) List.erase_sublist
      hother hnew
    rcases onTimer_cases hout with ⟨hsome, hforce, hcur, hsub, hann, ht⟩ | ⟨hnone, hcur, rfl⟩
    · refine hupd (by simp [ht]) ?_
      exact (h.replica p).force hsome hforce hcur hsub hann (fun x => by simp [ht, herase])
        fun x hx => .inl hx
    · refine hupd ?_ ?_
      · rw [onSubmitTimer_timers]
        unfold DDS.announceTimers
        split <;> split <;> simp [hf.2.2.2]
      · exact (h.replica p).submitTimer hmem hnone hcur hf.2.1 hf.2.2.1 hf.2.2.2
          (fun x => by simp [herase]) fun x hx => hx

theorem of_reachable {ok : Cluster → Action → Prop} (h : Cluster.ReachableBy cfg ok c) :
    Timely cfg c :=
  h.invariant (init cfg) fun _ _ _ _ _ hI hs => hI.step hs

end Timely

/-! ## Nothing panics -/

theorem Config.Live.isQuorum_nil {cfg : Config} (h : cfg.Live) :
    cfg.quorumSystem.isQuorum [] = false := by
  by_cases hw : cfg.protocolType = .wintermute
  · rcases h with ⟨hd | hd, -⟩ | ⟨k, grid, -, hg⟩
    · rw [hd.protocolType] at hw
      cases hw
    · refine Bool.eq_false_iff.mpr fun hq => ?_
      have := (hd.isQuorum_iff []).mp hq
      simp at this
    · rw [hg.protocolType] at hw
      cases hw
  · have := h.enough_nil
    unfold Config.enough at this
    split at this
    · contradiction
    · exact this

section Timer

variable {cfg : Config} {me : Pid} {env : Env} {b : BLSMR} {id : TimerId}

theorem dds_onTimer_isSome {d : DDS} (hq : d.bqs.isQuorum [] = false)
    (hid : (d.announceForceTimers.lookup id).isSome) :
    ∃ out, d.onTimer cfg id = some out ∧ out.1.log = d.log ∧
      ∀ rd, out.2 = .quorumReady rd → rd.quorum ≠ [] := by
  obtain ⟨i, hi⟩ := Option.isSome_iff_exists.mp hid
  unfold DDS.onTimer
  rw [hi]
  simp only [Option.pure_def, Option.bind_eq_bind, Option.bind_some]
  cases hl : d.pendingAnnounceQuorums.lookup i with
  | none => exact ⟨_, rfl, rfl, fun rd hrd => by cases hrd⟩
  | some quorum =>
    simp only
    split
    · rename_i hquo
      have hne : quorum ≠ [] := by
        rintro rfl
        exact absurd (hq.symm.trans hquo) (by simp)
      obtain ⟨init, last, rfl⟩ : ∃ init last, quorum = init ++ [last] :=
        ⟨quorum.dropLast, quorum.getLast hne, (List.dropLast_append_getLast hne).symm⟩
      obtain ⟨fast, hf⟩ := @allowFastpath_isSome cfg init last
      rw [hf]
      exact ⟨_, rfl, rfl, fun rd hrd => by cases hrd; exact hne⟩
    · exact ⟨_, rfl, rfl, fun rd hrd => by cases hrd⟩

/-- **No timer makes a replica panic** that it has set. -/
theorem onTimer_isSome (hI : b.dds.log.Inv) (hq : b.dds.bqs.isQuorum [] = false)
    (hid : (b.dds.announceForceTimers.lookup id).isSome ∨ id = b.currentSubmitTimerId) :
    (b.onTimer cfg me env id).isSome := by
  unfold BLSMR.onTimer
  by_cases hmine : b.dds.isMyTimer id
  · rw [if_pos hmine]
    obtain ⟨⟨dds, status⟩, hd, hlog, hne⟩ := @dds_onTimer_isSome cfg id b.dds hq hmine
    have hI' : ({ b with dds } : BLSMR).dds.log.Inv := by
      show dds.log.Inv
      rwa [show dds.log = b.dds.log from hlog]
    obtain ⟨out, ho⟩ := Option.isSome_iff_exists.mp
      (@handleAnnounceStatus_isSome cfg me env { b with dds } hI' status hne)
    simp [hd, ho]
  · have hcur : id = b.currentSubmitTimerId := hid.resolve_left hmine
    rw [if_neg hmine, if_pos hcur]
    rfl

end Timer

section Enabled

variable {cfg : Config} {c : Cluster} {p : Pid} {id : TimerId} {env : Env}

theorem timer_enabled (hcfg : cfg.Live) (h : Cluster.Reachable cfg c) (hid : (p, id) ∈ c.timers)
    (hf : c.Fresh env) : (Cluster.step cfg c (.timer p id env)).isSome := by
  have hq : (c.replicas p).dds.bqs.isQuorum [] = false :=
    (((Live.of_reachable hcfg h).draws p).isQuorum []).trans hcfg.isQuorum_nil
  have hknown := (((Timely.of_reachable h).replica p).pending id hid).2.2
  unfold Cluster.step
  rw [if_pos (show c.Fresh (Action.timer p id env).env from hf)]
  simp only [if_pos hid, Option.isSome_map]
  exact onTimer_isSome ((Flow.of_reachable h).log_inv p) hq
    (hknown.imp (fun h => h) fun h => h.1)

theorem start_enabled (hp : p ∈ cfg.pool) (hn : p ∉ c.started) (hf : c.Fresh env) :
    (Cluster.step cfg c (.start p env)).isSome := by
  unfold Cluster.step
  rw [if_pos (show c.Fresh (Action.start p env).env from hf)]
  simp [hp, hn]

end Enabled

/-- **Nothing panics.** In every reachable cluster every message in flight can be
delivered, every pending timer can fire and every replica that has not started can
start. -/
theorem no_panic (cfg : Config) (hcfg : cfg.Live) (c : Cluster) (h : Cluster.Reachable cfg c)
    (env : Env) (hf : c.Fresh env) :
    (∀ packet ∈ c.network, (Cluster.step cfg c (.deliver packet env)).isSome) ∧
    (∀ p id, (p, id) ∈ c.timers → (Cluster.step cfg c (.timer p id env)).isSome) ∧
    ∀ p ∈ cfg.pool, p ∉ c.started → (Cluster.step cfg c (.start p env)).isSome :=
  ⟨fun _ hp => deliverable h hp hf, fun _ _ hid => timer_enabled hcfg h hid hf,
    fun _ hp hn => start_enabled hp hn hf⟩

/-- Two Wintermute replicas, the second not yet started: a request, a reply and the force timer
of the first are on their way. -/
theorem no_panic_two :
    let cfg : Config := .standard .wintermute [0, 1]
    let a : Command := ⟨⟨0, 1⟩, 7⟩
    ∃ c, Cluster.Reachable cfg c ∧
      c.network = [⟨0, 1, .announce (.req a)⟩, ⟨0, 0, .announce (.res ⟨0, a.id, []⟩)⟩] ∧
      (∀ packet ∈ c.network, (Cluster.step cfg c (.deliver packet (.counting 3))).isSome) ∧
      (Cluster.step cfg c (.timer 0 2 (.counting 3))).isSome ∧
      (Cluster.step cfg c (.start 1 (.counting 3))).isSome := by
  intro cfg a
  let run : List Action := [.start 0 (.counting 0), .timer 0 1 (.counting 1), .recv 2 0 0 (.req a)]
  have hrun : (Cluster.execute cfg (fun _ _ => true) run).any (fun c =>
      decide (c.network = [⟨0, 1, .announce (.req a)⟩, ⟨0, 0, .announce (.res ⟨0, a.id, []⟩)⟩] ∧
        (0, 2) ∈ c.timers ∧ 1 ∉ c.started ∧ c.Fresh (.counting 3))) = true := by decide +kernel
  obtain ⟨c, hc, hd⟩ := (Option.any_eq_true _ _).mp hrun
  obtain ⟨hnet, ht, hst, hf⟩ := of_decide_eq_true hd
  have hreach := Cluster.reachable_execute (fun (_ : Cluster) (_ : Action) _ => True.intro) hc
  obtain ⟨hdeliver, htimer, hstart⟩ :=
    no_panic cfg (.inl ⟨.inr ⟨rfl, by decide, rfl⟩, by decide⟩) c hreach _ hf
  exact ⟨c, hreach, hnet, hdeliver, htimer 0 2 ht, hstart 1 (by decide) hst⟩

end Blsmr
