import Blsmr.Bullshark.Lookups

/-!
# Which steps panic

Three things make a replica panic: a genesis vertex that is handed out after the bound has
risen, a vertex of round 1 that is handed out before any genesis vertex, and an edge that
is looked up at the bound and leads to a vertex that was thrown away and that nobody else
holds. In a run without these (`OnTime`) no step panics (`never_panics`).
-/

namespace Blsmr.Bullshark

open Blsmr.Transition Blsmr.Graph RoundBasedDAG
open Broadcast (Packet)

/-- The action can be taken. -/
def Enabled (cfg : Config) (c : System) : Action → Prop
  | .start pid _ => pid ∈ cfg.pool ∧ pid ∉ c.started
  | .deliver index _ => ∃ packet, c.network[index]? = some packet ∧ packet.dst ∈ c.started
  | .submit index => ∃ s, c.submits[index]? = some s ∧ s.1 ∈ c.started
  | .timer index _ => ∃ t, c.timers[index]? = some t

/-- What the consistent broadcast hands out comes in time: a genesis vertex before the
bound of the replica rises, and any other vertex so that it and the vertices in the buffer
are timely. -/
def OnTime (cfg : Config) (c : System) : Action → Prop
  | .deliver index _ => ∀ packet message, c.network[index]? = some packet →
      ((c.replicas packet.dst).rbcast.onMessage cfg.pool packet.dst packet.src
        packet.msg).returned = some message →
      match message with
      | .genesis _ => (c.replicas packet.dst).dag.gcOffset = 0
      | .vertex vertex => ∀ v, v = vertex ∨ v ∈ (c.replicas packet.dst).buffer →
          Timely (c.elsewhere cfg packet.dst) (c.replicas packet.dst) v
  | _ => True

/-- **Between two steps of a run without panics.** -/
structure Tidy (cfg : Config) (c : System) : Prop where
  steady : ∀ p ∈ c.started, Steady cfg p (c.work p)
  told : ∀ v ∈ c.shared.created, ∃ b ∈ c.shared.broadcasts, b.2.content = v
  handed : ∀ r ∈ c.returned, r.2.2.content ∈ (c.replicas r.1).history.received
  clock : c.shared.nextTimer ≠ 0 ∧ ∀ t ∈ c.timers, t.2 ≠ 0

section

variable {cfg : Config} {p me : Pid} {c c' base : System} {w w' : Work}

/-! ## Timers -/

theorem Move.clock (h : Move cfg me w w')
    (hc : w.shared.nextTimer ≠ 0 ∧ ∀ id ∈ w.timers, id ≠ 0) :
    w'.shared.nextTimer ≠ 0 ∧ ∀ id ∈ w'.timers, id ≠ 0 := by
  cases h with
  | idle _ _ _ _ _ _ hnext htimers =>
    have hpos := Nat.pos_of_ne_zero hc.1
    refine ⟨(hpos.trans_le hnext).ne', fun id hid => ?_⟩
    rcases htimers id hid with hid | hid
    · exact hc.2 id hid
    · exact (hpos.trans_le hid).ne'
  | _ => exact hc

theorem Moves.clock (h : Moves cfg me w w')
    (hc : w.shared.nextTimer ≠ 0 ∧ ∀ id ∈ w.timers, id ≠ 0) :
    w'.shared.nextTimer ≠ 0 ∧ ∀ id ∈ w'.timers, id ≠ 0 := by
  induction h with
  | refl => exact hc
  | tail _ hm ih => exact hm.clock ih

/-! ## Steps -/

theorem Steady.congr (hS : Steady cfg me w) (hstate : w'.state = w.state)
    (hshared : w'.shared = w.shared) : Steady cfg me w' := by
  obtain ⟨⟨hlt, hV, hs⟩, hfloor, htop, hfull, hclock⟩ := hS
  refine ⟨⟨hlt, hshared ▸ hV, ?_⟩, ?_, ?_, ?_, ?_⟩ <;> rw [hstate]
  · rw [hshared]
    exact hs
  · exact hfloor
  · exact htop
  · exact hfull
  · exact hclock

theorem Tidy.after (hT : Tidy cfg c) (hO : Opening cfg p base w) (hm : Moves cfg p w w')
    (hS : Steady cfg p w') (hreplicas : base.replicas = c.replicas)
    (hstarted : ∀ q ∈ base.started, q ≠ p → q ∈ c.started)
    (htold : ∀ v ∈ w'.shared.created, ∃ b ∈ w'.shared.broadcasts, b.2.content = v)
    (hreceived : (c.replicas p).history.received ⊆ w'.state.history.received)
    (hhanded : ∀ r ∈ base.returned, r ∈ c.returned ∨
      r.1 = p ∧ r.2.2.content ∈ w'.state.history.received)
    (htimers : base.timers ⊆ c.timers)
    (hclock : w.shared.nextTimer ≠ 0 ∧ ∀ id ∈ w.timers, id ≠ 0) :
    Tidy cfg (base.update p w') where
  steady q hq := by
    have hI := hO.invariant hm
    have hgood := hI.good hq
    by_cases hqp : q = p
    · subst hqp
      refine hS.congr ?_ rfl
      exact Function.update_self _ _ _
    · have hold := hT.steady q (hstarted q hq hqp)
      have hstate : ((base.update p w').work q).state = (c.work q).state := by
        refine (Function.update_of_ne hqp _ _).trans ?_
        rw [hreplicas]
        rfl
      refine ⟨hgood, ?_, ?_, ?_, ?_⟩ <;> rw [hstate]
      · exact hold.floor
      · exact hold.top
      · exact hold.full
      · exact hold.clock
  told := htold
  handed r hr := by
    by_cases hrp : r.1 = p
    · have hstate : (base.update p w').replicas r.1 = w'.state := by
        rw [hrp]
        exact Function.update_self _ _ _
      rw [hstate]
      rcases hhanded r hr with hr | ⟨-, hr⟩
      · exact hreceived (hrp ▸ hT.handed r hr)
      · exact hr
    · have hstate : (base.update p w').replicas r.1 = c.replicas r.1 :=
        (Function.update_of_ne hrp _ _).trans (hreplicas ▸ rfl)
      rw [hstate]
      exact hT.handed r ((hhanded r hr).resolve_right fun h => hrp h.1)
  clock := by
    obtain ⟨hnext, hids⟩ := hm.clock hclock
    refine ⟨hnext, fun t ht => ?_⟩
    rcases List.mem_append.mp ht with ht | ht
    · obtain ⟨id, hid, rfl⟩ := List.mem_map.mp ht
      exact hids id hid
    · exact hT.clock.2 t (htimers ht)

theorem Tidy.still_told (hT : Tidy cfg c) (hcreated : w.shared.created = c.shared.created)
    (hbroadcasts : c.shared.broadcasts ⊆ w'.shared.broadcasts) (ht : Told w w') :
    ∀ v ∈ w'.shared.created, ∃ b ∈ w'.shared.broadcasts, b.2.content = v := by
  intro v hv
  rcases ht v hv with hv | hb
  · obtain ⟨b, hb, heq⟩ := hT.told v (hcreated ▸ hv)
    exact ⟨b, hbroadcasts hb, heq⟩
  · exact hb

/-- **Nothing is lost on the way to a replica**: what has been created is held by a message
or by the consistent broadcast until it is handed out. -/
theorem Tidy.found (hT : Tidy cfg c) (hr : c.Reachable cfg) {packet : Packet VertexMessage}
    {vertex : Vertex} (hp : p ∈ c.started)
    {out : ByzantineConsistentBroadcast.Outcome VertexMessage}
    (hout : out = (c.replicas p).rbcast.onMessage cfg.pool p packet.src packet.msg)
    (hb : (packet.msg.id, VertexMessage.vertex vertex) ∈ c.shared.broadcasts)
    {sends : List (Pid × BCBMessage VertexMessage)} {u : Vertex} (hu : u ∈ c.shared.created) :
    Found (fun x => c.elsewhere cfg p x || sameVertex x vertex)
      { c.work p with state := { c.replicas p with rbcast := out.state }, sends } u := by
  have hI := Invariant.of_reachable hr
  have hC := Broadcast.Correct.of_reachable List.nodup_range hI.bcb
  obtain ⟨⟨id, message⟩, hbu, rfl⟩ := hT.told u hu
  have hpool : p ∈ cfg.pool := mem_pool.mpr (hI.started p hp)
  have hslot := hC.slot p id
  rcases List.mem_append.mp (hC.sending.initiates _ hbu p hpool) with hnet | hdel
  · refine .inl ?_
    simp only [System.elsewhere, Bool.or_eq_true, List.any_eq_true]
    exact .inl (.inr ⟨_, hnet, sameVertex_self _⟩)
  have hini : c.bcb.Initiated p id := ⟨_, hdel, rfl, message, rfl⟩
  by_cases hcert : c.bcb.Certified p id
  · have hret := (hslot.returned message).mpr ⟨hbu, hcert, .inr hini⟩
    have hrec := hT.handed _ hret
    rcases ((Received.of_reachable hr p).received _ hrec).2 with h | h | h
    · exact .inr (.inr (.inl h))
    · exact .inr (.inr (.inr (.inl h)))
    · exact .inr (.inr (.inr (.inr h)))
  · by_cases hid : id = packet.msg.id
    · subst hid
      have hm : message = .vertex vertex := hC.sending.message_unique hbu hb
      subst hm
      refine .inl ?_
      simp only [Bool.or_eq_true]
      exact .inr (sameVertex_self _)
    · have hstored : ∃ count, (c.replicas p).rbcast.messages.lookup id = some (message, count) := by
        by_cases hpid : p = id.processId
        · exact ⟨_, (hslot.stored message _).mpr ⟨hbu, hcert, .inl ⟨hpid, rfl⟩⟩⟩
        · exact ⟨0, (hslot.stored message 0).mpr ⟨hbu, hcert, .inr ⟨hpid, hini, rfl⟩⟩⟩
      obtain ⟨count, hcount⟩ := hstored
      have hh := Broadcast.onMessage_handled cfg.pool p packet.src
        (c.replicas p).rbcast packet.msg
      refine .inr (.inl ⟨id, message, count, ?_, rfl, hI.contents.uids _ hbu⟩)
      rw [hout]
      exact (hh.other hid).1.trans hcount

theorem onMessage_eq (env : Env) (sender : Pid) (message : BCBMessage VertexMessage) (w : Work)
    (out : ByzantineConsistentBroadcast.Outcome VertexMessage)
    (hout : w.state.rbcast.onMessage env.cfg.pool env.me sender message = out) :
    onMessage env sender message w =
      let w := { w with
        state := { w.state with rbcast := out.state }, sends := out.sends ++ w.sends }
      match out.returned with
      | none => some w
      | some (.genesis vertex) => onGenesis (env.holding vertex) vertex w
      | some (.vertex vertex) =>
        if w.state.badVertex vertex sender then some w
        else onVertex (env.holding vertex) vertex w := by
  subst hout
  rfl

theorem Invariant.not_bad (hI : Invariant cfg c) {index : ℕ} {packet : Packet VertexMessage}
    {vertex : Vertex} (hk : c.network[index]? = some packet) (hs : packet.dst ∈ c.started)
    (hret : ((c.replicas packet.dst).rbcast.onMessage cfg.pool packet.dst packet.src
      packet.msg).returned = some (.vertex vertex)) :
    (c.replicas packet.dst).badVertex vertex packet.src = false := by
  obtain ⟨hmem, hfits⟩ := hI.handed_out hk hs hret
  have hsrc : packet.src = vertex.source := by
    rw [Broadcast.handed_out_src List.nodup_range hI.bcb (List.mem_of_getElem? hk)
      (Broadcast.onMessage_handled cfg.pool packet.dst packet.src
        (c.replicas packet.dst).rbcast packet.msg) (by rw [hret]; exact Option.some_ne_none _)]
    exact (hI.contents.source _ (hI.handed_out_broadcast hk hs hret)).symm
  have hq := hI.vertices.quorum vertex hmem hfits
  unfold Bullshark.badVertex
  rw [(hI.sound _ hs).procNum, hsrc, bne_self_eq_false, Bool.or_false]
  exact decide_eq_false (Nat.not_lt_of_le hq)

theorem Tidy.takes (hT : Tidy cfg c) (hr : c.Reachable cfg) {index : ℕ} {drain : Hotstuff.Drain}
    {packet : Packet VertexMessage} {message : VertexMessage}
    {out : ByzantineConsistentBroadcast.Outcome VertexMessage}
    (hk : c.network[index]? = some packet) (hs : packet.dst ∈ c.started)
    (hout : (c.replicas packet.dst).rbcast.onMessage cfg.pool packet.dst packet.src
      packet.msg = out)
    (hret : out.returned = some message) (ht : OnTime cfg c (.deliver index drain))
    (hw : w = { c.work packet.dst with
      state := { c.replicas packet.dst with rbcast := out.state }, sends := out.sends ++ [] })
    (hS : Steady cfg packet.dst w) :
    ∃ w', onMessage (c.env cfg packet.dst drain) packet.src packet.msg (c.work packet.dst) =
        some w' ∧ Moves cfg packet.dst w w' ∧ Steady cfg packet.dst w' ∧ Told w w' ∧
        message.content ∈ w'.state.history.received := by
  have hI := Invariant.of_reachable hr
  have he := onMessage_eq (c.env cfg packet.dst drain) packet.src packet.msg (c.work packet.dst)
    out hout
  rw [hret] at he
  subst hw
  subst hout
  obtain ⟨hmem, hfits⟩ := hI.handed_out hk hs hret
  have htime := ht packet message hk hret
  cases message with
  | genesis vertex =>
    let env := (c.env cfg packet.dst drain).holding vertex
    obtain ⟨w', hw', hD, hrec⟩ : ∃ w', onGenesis env vertex _ = some w' ∧ Done env _ w' ∧
        vertex ∈ w'.state.history.received := Steady.onGenesis hS hmem hfits htime
    exact ⟨w', he.trans hw', onGenesis_moves hS.good hmem hfits hw', hD.steady, hD.told, hrec⟩
  | vertex vertex =>
    have hb := hI.handed_out_broadcast hk hs hret
    have helse : ∀ x, c.elsewhere cfg packet.dst x = true →
        ((c.env cfg packet.dst drain).holding vertex).elsewhere x = true := fun x hx => by
      simp only [Env.holding, System.env]
      rw [hx, Bool.true_or]
    have hrcv := Received.of_reachable hr packet.dst
    let env := (c.env cfg packet.dst drain).holding vertex
    obtain ⟨w', hw', hD, hrec⟩ : ∃ w', onVertex env vertex _ = some w' ∧ Done env _ w' ∧
        vertex ∈ w'.state.history.received := Beginning.onVertex
      ⟨hS, ⟨hrcv.received, hrcv.thrown⟩, fun u hu => hT.found hr hs rfl hb hu⟩ hmem hfits
      fun u hu => Timely.congr (s := c.replicas packet.dst) helse rfl rfl rfl (htime u hu)
    refine ⟨w', ?_, onVertex_moves hS.good hmem hfits hw', hD.steady, hD.told, hrec⟩
    rw [he]
    simp only
    rw [if_neg (by rw [Bool.not_eq_true]; exact hI.not_bad hk hs hret)]
    exact hw'

theorem Tidy.deliver (hT : Tidy cfg c) (hr : c.Reachable cfg) {index : ℕ} {drain : Hotstuff.Drain}
    {packet : Packet VertexMessage} (hk : c.network[index]? = some packet)
    (hs : packet.dst ∈ c.started) (ht : OnTime cfg c (.deliver index drain)) :
    ∃ c', System.step cfg c (.deliver index drain) = some c' ∧ Tidy cfg c' := by
  have hI := Invariant.of_reachable hr
  let out := (c.replicas packet.dst).rbcast.onMessage cfg.pool packet.dst packet.src packet.msg
  have hO := hI.opening_deliver hk hs rfl
  let w : Work := { c.work packet.dst with
    state := { c.replicas packet.dst with rbcast := out.state }, sends := out.sends ++ [] }
  have hold := hT.steady packet.dst hs
  have hS : Steady cfg packet.dst w := ⟨hO.good, hold.floor, hold.top, hold.full, hold.clock⟩
  have hstep : System.step cfg c (.deliver index drain) =
      (onMessage (c.env cfg packet.dst drain) packet.src packet.msg (c.work packet.dst)).map
        ((c.deliver cfg index packet).update packet.dst) := by
    simp only [System.step]
    rw [hk]
    simp only
    rw [if_pos hs]
  have hhanded : ∀ r ∈ (c.deliver cfg index packet).returned,
      out.returned = some r.2.2 ∧ r.1 = packet.dst ∨ r ∈ c.returned := fun r hr => by
    rcases List.mem_append.mp hr with hr | hr
    · obtain ⟨m, hm, rfl⟩ := List.mem_map.mp hr
      exact .inl ⟨Option.mem_toList.mp hm, rfl⟩
    · exact .inr hr
  have hclock : w.shared.nextTimer ≠ 0 ∧ ∀ id ∈ w.timers, id ≠ 0 :=
    ⟨hT.clock.1, List.forall_mem_nil _⟩
  rw [hstep]
  cases hret : out.returned with
  | none =>
    have he := onMessage_eq (c.env cfg packet.dst drain) packet.src packet.msg
      (c.work packet.dst) out rfl
    rw [hret] at he
    rw [he]
    refine ⟨_, rfl, hT.after hO .refl hS rfl (fun q hq _ => hq) hT.told (List.Subset.refl _)
      (fun r hr => .inl ?_) (List.Subset.refl _) hclock⟩
    refine (hhanded r hr).resolve_left fun h => ?_
    rw [hret] at h
    cases h.1
  | some message =>
    obtain ⟨w', hw', hm, hS', ht', hrec⟩ := hT.takes hr hk hs rfl hret ht rfl hS
    rw [hw']
    refine ⟨_, rfl, hT.after hO hm hS' rfl (fun q hq _ => hq)
      (hT.still_told (w := w) rfl hm.broadcasts ht') hm.received (fun r hr => ?_)
      (List.Subset.refl _) hclock⟩
    rcases hhanded r hr with ⟨h, hdst⟩ | hr
    · rw [hret] at h
      obtain rfl := Option.some.inj h
      exact .inr ⟨hdst, hrec⟩
    · exact .inl hr

theorem Invariant.steady_setUp (hI : Invariant cfg c) (hp : p ∈ cfg.pool) (hs : p ∉ c.started)
    (drain : Hotstuff.Drain) : Steady cfg p (setUp (c.env cfg p drain) (c.work p)) := by
  have hnew := hI.setUp_new hs drain
  obtain ⟨timer, hstate⟩ := setUp_state (c.env cfg p drain) (c.work p)
  have hidle : (c.work p).state = Bullshark.default := hI.idle p hs
  rw [hidle] at hstate
  refine ⟨(hI.opening_start hp hs drain).good, .inl ?_, .inl ?_, fun r hf => ?_, fun _ => ?_⟩
  · rw [hnew.dag]
    rfl
  · rw [hstate]
    rfl
  · rw [hnew.dag] at hf
    obtain ⟨vs, -, hq, hvs⟩ := hf
    have hpos := quorumSize_pos cfg.procNum
    obtain ⟨v, hv⟩ := List.exists_mem_of_length_pos (by omega : 0 < vs.length)
    have hin := (causal_default cfg.procNum c.shared.created).within (hvs v hv).1
    exact absurd hin.2.1 (Nat.not_lt_zero _)
  · rw [hstate]
    rfl

theorem setUp_broadcasts (env : Env) (w : Work) :
    (setUp env w).shared.broadcasts = w.shared.broadcasts := by
  unfold setUp
  split <;> rfl

theorem setUp_clock (env : Env) {w : Work} (hnext : w.shared.nextTimer ≠ 0)
    (hw : w.timers = []) :
    (setUp env w).shared.nextTimer ≠ 0 ∧ ∀ id ∈ (setUp env w).timers, id ≠ 0 := by
  unfold setUp
  split
  · refine ⟨Nat.succ_ne_zero _, fun id hid => ?_⟩
    rcases List.mem_cons.mp hid with rfl | hid
    · exact hnext
    · rw [hw] at hid
      cases hid
  · refine ⟨hnext, fun id hid => ?_⟩
    have hid : id ∈ w.timers := hid
    rw [hw] at hid
    cases hid

theorem Tidy.start (hT : Tidy cfg c) (hr : c.Reachable cfg) {drain : Hotstuff.Drain}
    (hp : p ∈ cfg.pool) (hs : p ∉ c.started) :
    ∃ c', System.step cfg c (.start p drain) = some c' ∧ Tidy cfg c' := by
  have hI := Invariant.of_reachable hr
  have hS := hI.steady_setUp hp hs drain
  have hmem : genesis (c.env cfg p drain) (c.work p) ∈
      (setUp (c.env cfg p drain) (c.work p)).shared.created := by
    rw [setUp_created]
    exact List.mem_cons_self
  have hm : Move cfg p (setUp (c.env cfg p drain) (c.work p))
      (onStart (c.env cfg p drain) (c.work p)) :=
    @Move.send cfg p _ _ (.genesis _) rfl rfl hmem rfl rfl
  refine ⟨_, if_pos ⟨hp, hs⟩, hT.after (hI.opening_start hp hs drain) (.single hm)
    ⟨hS.good.move hm, hS.floor, hS.top, hS.full, hS.clock⟩ rfl
    (fun q hq hqp => (List.mem_cons.mp hq).resolve_left hqp) (fun v hv => ?_) ?_
    (fun r hr => .inl hr) (List.Subset.refl _) (setUp_clock _ hT.clock.1 rfl)⟩
  · have hv : v ∈ (setUp (c.env cfg p drain) (c.work p)).shared.created := hv
    rw [setUp_created] at hv
    rcases List.mem_cons.mp hv with rfl | hv
    · exact ⟨_, List.mem_cons_self, rfl⟩
    · obtain ⟨b, hb, heq⟩ := hT.told v hv
      have hb : b ∈ (setUp (c.env cfg p drain) (c.work p)).shared.broadcasts := by
        rw [setUp_broadcasts]
        exact hb
      exact ⟨b, List.mem_cons_of_mem _ hb, heq⟩
  · rw [hI.idle p hs]
    exact List.nil_subset _

theorem Tidy.submit (hT : Tidy cfg c) (hr : c.Reachable cfg) {index : ℕ} {command : Command}
    (hk : c.submits[index]? = some (p, command)) (hs : p ∈ c.started) :
    ∃ c', System.step cfg c (.submit index) = some c' ∧ Tidy cfg c' := by
  have hI := Invariant.of_reachable hr
  have hO := hI.opening (.submit hk hs)
  have hold := hT.steady p hs
  have hpending : ∃ pendingCommands, onSubmit command (c.replicas p) =
      { c.replicas p with pendingCommands } := by
    unfold onSubmit
    split <;> exact ⟨_, rfl⟩
  obtain ⟨pending, hsub⟩ := hpending
  have hS : Steady cfg p { c.work p with state := onSubmit command (c.replicas p) } := by
    refine ⟨hO.good, ?_, ?_, ?_, ?_⟩ <;> simp only [hsub]
    · exact hold.floor
    · exact hold.top
    · exact hold.full
    · exact hold.clock
  refine ⟨_, ?_, hT.after hO .refl hS rfl (fun q hq _ => hq) hT.told ?_ (fun r hr => .inl hr)
    (List.Subset.refl _) ⟨hT.clock.1, List.forall_mem_nil _⟩⟩
  · simp only [System.step]
    rw [hk]
    simp only
    rw [if_pos hs]
    rfl
  · simp only [hsub]
    exact List.Subset.refl _

/-- The round timer advances the round without a panic: it has been started, so the
replica is past round 0. -/
theorem Tidy.fires (hT : Tidy cfg c) (hp : p ∈ c.started) {id : TimerId}
    (hin : (p, id) ∈ c.timers) (htimer : id = (c.replicas p).timer) (drain : Hotstuff.Drain) :
    ∃ w', tryAdvanceRound (c.env cfg p drain)
        { c.work p with state := { (c.work p).state with wait := false } } = some w' ∧
      Moves cfg p (c.work p) w' ∧ Steady cfg p w' ∧ Told (c.work p) w' := by
  have hold := hT.steady p hp
  have hround : (c.replicas p).round ≠ 0 := fun h0 =>
    hT.clock.2 _ hin (htimer.trans (hold.clock h0))
  let w : Work := { c.work p with state := { (c.work p).state with wait := false } }
  have hm : Move cfg p (c.work p) w := stopWaiting_move (c.work p) cfg p
  have hS : Steady cfg p w :=
    ⟨hold.good.move hm, hold.floor, hold.top, hold.full, hold.clock⟩
  obtain ⟨w', he, hS', hm', ht'⟩ := @Steady.tryAdvanceRound (c.env cfg p drain) w hS
    (hold.top.resolve_left hround)
  exact ⟨w', he, .head hm hm', hS', ht'⟩

theorem Tidy.timer (hT : Tidy cfg c) (hr : c.Reachable cfg) {index : ℕ} {drain : Hotstuff.Drain}
    {id : TimerId} (hk : c.timers[index]? = some (p, id)) :
    ∃ c', System.step cfg c (.timer index drain) = some c' ∧ Tidy cfg c' := by
  have hI := Invariant.of_reachable hr
  have hin := List.mem_of_getElem? hk
  have hs := hI.timers _ hin
  have hold := hT.steady p hs
  have hstep : System.step cfg c (.timer index drain) =
      (onTimer (c.env cfg p drain) id (c.work p)).map
        ({ c with timers := c.timers.eraseIdx index }.update p) := by
    simp only [System.step]
    rw [hk]
  have hrest : c.timers.eraseIdx index ⊆ c.timers := fun t ht => List.mem_of_mem_eraseIdx ht
  have hnone : c.shared.nextTimer ≠ 0 ∧ ∀ id ∈ (c.work p).timers, id ≠ 0 :=
    ⟨hT.clock.1, List.forall_mem_nil _⟩
  rw [hstep]
  unfold onTimer
  by_cases hsub : id = (c.replicas p).submitTimer
  · rw [if_pos (show id = (c.work p).state.submitTimer from hsub)]
    have hO := hI.opening (@Begins.request cfg c index drain p id hk hsub)
    have hS : Steady cfg p (Bullshark.submit (c.env cfg p drain) (c.work p)) :=
      ⟨hO.good, hold.floor, hold.top, hold.full, hold.clock⟩
    have hm := scheduleSubmit_move (Bullshark.submit (c.env cfg p drain) (c.work p)) cfg p
    refine ⟨_, rfl, ?_⟩
    split
    · exact hT.after hO (.single hm) ⟨hS.good.move hm, hS.floor, hS.top, hS.full, hS.clock⟩ rfl
        (fun q hq _ => hq) hT.told (List.Subset.refl _) (fun r hr => .inl hr) hrest hnone
    · exact hT.after hO .refl hS rfl (fun q hq _ => hq) hT.told (List.Subset.refl _)
        (fun r hr => .inl hr) hrest hnone
  rw [if_neg (show ¬ id = (c.work p).state.submitTimer from hsub)]
  have hO := hI.opening (@Begins.fire cfg c index drain p id hk hsub)
  by_cases htimer : id = (c.replicas p).timer
  · rw [if_pos (show id = (c.work p).state.timer from htimer)]
    obtain ⟨w', he, hm, hS, ht⟩ := hT.fires hs hin htimer drain
    rw [he]
    exact ⟨_, rfl, hT.after hO hm hS rfl (fun q hq _ => hq)
      (hT.still_told (w := c.work p) rfl (Moves.broadcasts hm) ht) (Moves.received hm)
      (fun r hr => .inl hr) hrest hnone⟩
  · rw [if_neg (show ¬ id = (c.work p).state.timer from htimer)]
    exact ⟨_, rfl, hT.after hO .refl hold rfl (fun q hq _ => hq) hT.told (List.Subset.refl _)
      (fun r hr => .inl hr) hrest hnone⟩

theorem Tidy.step (hT : Tidy cfg c) (hr : c.Reachable cfg) {a : Action} (he : Enabled cfg c a)
    (ht : OnTime cfg c a) : ∃ c', System.step cfg c a = some c' ∧ Tidy cfg c' := by
  cases a with
  | start pid drain => exact hT.start hr he.1 he.2
  | deliver index drain =>
    obtain ⟨packet, hk, hs⟩ := he
    exact hT.deliver hr hk hs ht
  | submit index =>
    obtain ⟨s, hk, hs⟩ := he
    exact hT.submit hr hk hs
  | timer index drain =>
    obtain ⟨t, hk⟩ := he
    exact hT.timer hr hk

theorem Enabled.of_step {a : Action} (h : System.step cfg c a = some c') : Enabled cfg c a := by
  cases a with
  | start pid drain =>
    simp only [System.step, Option.ite_none_right_eq_some] at h
    exact h.1
  | deliver index drain =>
    simp only [System.step] at h
    split at h
    · cases h
    · rename_i packet hk
      rw [Option.ite_none_right_eq_some] at h
      exact ⟨packet, hk, h.1⟩
  | submit index =>
    simp only [System.step] at h
    split at h
    · cases h
    · rename_i pid command hk
      rw [Option.ite_none_right_eq_some] at h
      exact ⟨_, hk, h.1⟩
  | timer index drain =>
    simp only [System.step] at h
    split at h
    · cases h
    · rename_i pid id hk
      exact ⟨_, hk⟩

theorem Tidy.init (cfg : Config) : Tidy cfg System.init where
  steady _ hp := absurd hp List.not_mem_nil
  told _ hv := absurd hv List.not_mem_nil
  handed _ hr := absurd hr List.not_mem_nil
  clock := ⟨Nat.one_ne_zero, List.forall_mem_nil _⟩

theorem Tidy.of_reachable
    (h : Transition.Reachable (System.step cfg) System.init (OnTime cfg) c) : Tidy cfg c := by
  refine h.invariant (.init cfg) fun c a c' hr ht hT hs => ?_
  obtain ⟨c'', hs', hT'⟩ := hT.step (hr.weaken fun _ _ _ => trivial) (.of_step hs) ht
  rw [hs] at hs'
  cases hs'
  exact hT'

end

/-- **No step panics** in a run in which what the consistent broadcast hands out comes in
time. -/
theorem never_panics (cfg : Config) (c : System)
    (h : Transition.Reachable (System.step cfg) System.init (OnTime cfg) c) (a : Action)
    (he : Enabled cfg c a) (ht : OnTime cfg c a) : (System.step cfg c a).isSome = true := by
  obtain ⟨c', hs, -⟩ := (Tidy.of_reachable h).step (h.weaken fun _ _ _ => trivial) he ht
  rw [hs]
  rfl

/-! ## Runs with and without panics -/

/-- What the consistent broadcast hands out when the message is delivered. -/
def System.handed (cfg : Config) (c : System) (packet : Packet VertexMessage) :
    Option VertexMessage :=
  ((c.replicas packet.dst).rbcast.onMessage cfg.pool packet.dst packet.src packet.msg).returned

/-- A check that is enough for `OnTime`: no vertex is of the round above the bound, or the
row below is there and no vertex is in the buffer or was thrown away. -/
def prompt (cfg : Config) (c : System) : Action → Bool
  | .deliver index _ => (c.network[index]?).all fun packet =>
    let s := c.replicas packet.dst
    (c.handed cfg packet).all fun
      | .genesis _ => s.dag.gcOffset == 0
      | .vertex vertex => (vertex :: s.buffer).all fun v => v.round != s.dag.gcOffset + 1 ||
        !s.dag.matrix.isEmpty && s.history.thrown.isEmpty && s.buffer.isEmpty
  | _ => true

theorem onTime_of_prompt {cfg : Config} {c : System} {a : Action} (h : prompt cfg c a = true) :
    OnTime cfg c a := by
  cases a with
  | deliver index drain =>
    intro packet message hk hr
    simp only [prompt, hk, Option.all_some] at h
    have hh : c.handed cfg packet = some message := hr
    rw [hh, Option.all_some] at h
    cases message with
    | genesis vertex => exact eq_of_beq h
    | vertex vertex =>
      intro v hv hround
      have hcheck := List.all_eq_true.mp h v (List.mem_cons.mpr hv)
      simp only [hround, bne_self_eq_false, Bool.false_or, Bool.and_eq_true,
        Bool.not_eq_true', List.isEmpty_eq_false_iff, List.isEmpty_iff] at hcheck
      obtain ⟨⟨hrows, hthrown⟩, hbuffer⟩ := hcheck
      refine ⟨hrows, fun u _ hu => ?_⟩
      rw [hthrown, hbuffer] at hu
      rcases hu with hu | hu <;> cases hu
  | _ => trivial

/-- The replicas start, and the oldest message is delivered while that is prompt. -/
def punctual (cfg : Config) (c : System) : Option Action :=
  ((Phase.start cfg).next c <|> (Phase.deliver (fun _ => true) 0).next c).filter (prompt cfg c)

theorem never_panics_four : ∃ c : System, 2 ≤ (c.replicas 0).dag.gcOffset ∧
    ∃ index, (System.step ⟨4, 0⟩ c (.deliver index inOrder)).isSome = true := by
  let cfg : Config := ⟨4, 0⟩
  have hrun : (follow (System.step cfg) (punctual cfg) 300 System.init).any (fun c =>
      decide (2 ≤ (c.replicas 0).dag.gcOffset) && prompt cfg c (.deliver 0 inOrder) &&
        (c.network[0]?).any fun packet => c.started.elem packet.dst) = true := by
    decide +kernel
  obtain ⟨c, hc, hd⟩ := (Option.any_eq_true _ _).mp hrun
  simp only [Bool.and_eq_true, decide_eq_true_eq] at hd
  obtain ⟨⟨hround, hprompt⟩, hany⟩ := hd
  obtain ⟨packet, hk, hs⟩ := (Option.any_eq_true _ _).mp hany
  have hreach : Transition.Reachable (System.step cfg) System.init (OnTime cfg) c :=
    Transition.Reachable.init.follow (fun _ _ hnext =>
      onTime_of_prompt (Option.filter_eq_some_iff.mp hnext).2) hc
  exact ⟨c, hround, 0, never_panics cfg c hreach _ ⟨packet, hk, List.elem_iff.mp hs⟩
    (onTime_of_prompt hprompt)⟩

/-- The delivery of the message makes its receiver panic. -/
def System.PanicsOn (cfg : Config) (c : System) (packet : Packet VertexMessage) : Prop :=
  packet.dst ∈ c.started ∧ ∃ index, c.network[index]? = some packet ∧
    System.step cfg c (.deliver index inOrder) = none

def isSignature : BCBMessage VertexMessage → Bool
  | .signature _ => true
  | _ => false

/-- The oldest of these messages makes its receiver panic after the phases, and the check
holds of it. -/
def panicking (cfg : Config) (phases : List Phase) (which : Packet VertexMessage → Bool)
    (check : System → Packet VertexMessage → Bool) : Bool :=
  (run cfg phases System.init).any fun c => (oldest which c.network).any fun index =>
    (c.network[index]?).any fun packet => c.started.elem packet.dst && check c packet &&
      (System.step cfg c (.deliver index inOrder)).isNone

theorem panicsOn_of_panicking {cfg : Config} {phases : List Phase}
    {which : Packet VertexMessage → Bool} {check : System → Packet VertexMessage → Bool}
    (h : panicking cfg phases which check = true) :
    ∃ c : System, c.Reachable cfg ∧ ∃ packet, c.PanicsOn cfg packet ∧ check c packet = true := by
  obtain ⟨c, hc, h⟩ := (Option.any_eq_true _ _).mp h
  obtain ⟨index, -, h⟩ := (Option.any_eq_true _ _).mp h
  obtain ⟨packet, hk, h⟩ := (Option.any_eq_true _ _).mp h
  rw [Bool.and_eq_true, Bool.and_eq_true, Option.isNone_iff_eq_none] at h
  obtain ⟨⟨hs, hcheck⟩, hstep⟩ := h
  exact ⟨c, reachable_run .init hc, packet, ⟨List.elem_iff.mp hs, index, hk, hstep⟩, hcheck⟩

/-- **Three panics.** The genesis vertex of replica 0 reaches replica 1 after its bound has
risen; a vertex of round 1 reaches replica 0 before any genesis vertex has; and a vertex in
the buffer of replica 1 is tried again when nothing holds the end of its first edge. -/
theorem deliveries_panic :
    (∃ c : System, c.Reachable ⟨4, 0⟩ ∧ ∃ packet, c.PanicsOn ⟨4, 0⟩ packet ∧
      ∃ v, c.handed ⟨4, 0⟩ packet = some (.genesis v) ∧
        v.round < (c.replicas packet.dst).dag.gcOffset) ∧
    (∃ c : System, c.Reachable ⟨4, 0⟩ ∧ ∃ packet, c.PanicsOn ⟨4, 0⟩ packet ∧
      ∃ v, c.handed ⟨4, 0⟩ packet = some (.vertex v) ∧ v.round = 1 ∧
        (c.replicas packet.dst).dag.matrix = []) ∧
    ∃ c : System, c.Reachable ⟨4, 0⟩ ∧ ∃ packet, c.PanicsOn ⟨4, 0⟩ packet ∧
      ∃ v ∈ (c.replicas packet.dst).buffer, ∃ u ∈ v.strongEdges,
        (c.replicas packet.dst).alive (c.env ⟨4, 0⟩ packet.dst inOrder) u = false := by
  let cfg : Config := ⟨4, 0⟩
  have hgenesis : panicking cfg [.start cfg,
      (Phase.deliver (fun x => x.src != 0 && x.dst != 0) 400).until fun c =>
        2 ≤ (c.replicas 1).dag.gcOffset,
      .deliver (fun x => x.dst == 1 && x.msg.id == ⟨0, 0⟩) 1,
      .deliver (fun x => x.dst != 1 && x.msg.id == ⟨0, 0⟩) 400]
      (fun x => x.dst == 1 && x.msg.id == ⟨0, 0⟩)
      (fun c packet => (c.handed cfg packet).any fun
        | .genesis v => decide (v.round < (c.replicas packet.dst).dag.gcOffset)
        | .vertex _ => false) = true := by decide +kernel
  have hvertex : panicking cfg [.start cfg,
      (Phase.deliver (fun x => x.src != 0 && x.dst != 0) 400).until fun c =>
        1 ≤ (c.replicas 1).round,
      .deliver (fun x => x.msg.id == ⟨1, 6⟩ && (x.dst == 1 || x.dst == 2 || x.dst == 3)) 400,
      .deliver (fun x => x.dst == 0 && x.msg.id == ⟨1, 6⟩) 1]
      (fun x => x.dst == 0 && x.msg.id == ⟨1, 6⟩)
      (fun c packet => (c.handed cfg packet).any fun
        | .genesis _ => false
        | .vertex v => v.round == 1 && (c.replicas packet.dst).dag.matrix.isEmpty) = true := by
    decide +kernel
  have hedge : panicking cfg (overtaken cfg ++
      [.deliver (fun x => x.dst == 1 && x.msg.id == ⟨0, 15⟩) 2,
        (Phase.deliver (fun x => x.dst != 1 || isSignature x.msg) 600).until fun c =>
          [0, 2, 3].all fun p => 4 ≤ (c.replicas p).dag.gcOffset])
      (fun x => x.dst == 1 && x.msg.id != ⟨0, 0⟩)
      (fun c packet => (c.replicas packet.dst).buffer.any fun v => v.strongEdges.any fun u =>
        !(c.replicas packet.dst).alive (c.env cfg packet.dst inOrder) u) = true := by
    decide +kernel
  refine ⟨?_, ?_, ?_⟩
  · obtain ⟨c, hreach, packet, hpanics, hcheck⟩ := panicsOn_of_panicking hgenesis
    obtain ⟨message, hm, hcheck⟩ := (Option.any_eq_true _ _).mp hcheck
    cases message with
    | genesis v => exact ⟨c, hreach, packet, hpanics, v, hm, of_decide_eq_true hcheck⟩
    | vertex => cases hcheck
  · obtain ⟨c, hreach, packet, hpanics, hcheck⟩ := panicsOn_of_panicking hvertex
    obtain ⟨message, hm, hcheck⟩ := (Option.any_eq_true _ _).mp hcheck
    cases message with
    | genesis => cases hcheck
    | vertex v =>
      rw [Bool.and_eq_true, beq_iff_eq, List.isEmpty_iff] at hcheck
      exact ⟨c, hreach, packet, hpanics, v, hm, hcheck⟩
  · obtain ⟨c, hreach, packet, hpanics, hcheck⟩ := panicsOn_of_panicking hedge
    obtain ⟨v, hv, hcheck⟩ := List.any_eq_true.mp hcheck
    obtain ⟨u, hu, hdead⟩ := List.any_eq_true.mp hcheck
    exact ⟨c, hreach, packet, hpanics, v, hv, u, hu, (Bool.not_eq_true' _).mp hdead⟩

end Blsmr.Bullshark
