import Blsmr.Broadcast.Crashes
import Blsmr.Bullshark.Steps

/-!
# Every vertex reaches every replica

Most of what a handler does is `Quiet`: it creates, broadcasts and schedules nothing. The
call that creates a vertex sets a timer and broadcasts the vertex (`broadcastVertex_speaks`),
and so `Speaks` says what any handler does. Every vertex has been broadcast, and what the
consistent broadcast hands out is received (`Spread`), so with nothing in flight every replica
has received every vertex (`Spread.received`).
-/

namespace Blsmr.Bullshark

open Blsmr.Transition Blsmr.Graph RoundBasedDAG
open Broadcast (Packet)

/-! ## What a handler does besides -/

/-- What a replica has to do with timers: those it has scheduled, the next one, its own two,
and what it waits for. -/
structure Clock where
  timers : List TimerId
  nextTimer : TimerId
  submitTimer : TimerId
  timer : TimerId
  round : ℕ
  wait : Bool

def Work.clock (w : Work) : Clock where
  timers := w.timers
  nextTimer := w.shared.nextTimer
  submitTimer := w.state.submitTimer
  timer := w.state.timer
  round := w.state.round
  wait := w.state.wait

/-- Nothing is created, broadcast or scheduled, and nothing received is forgotten. -/
structure Quiet (w w' : Work) : Prop where
  created : w'.shared.created = w.shared.created
  broadcasts : w'.shared.broadcasts = w.shared.broadcasts
  clock : w'.clock = w.clock
  received : w.state.history.received ⊆ w'.state.history.received

/-- The replica has entered a round, with a vertex and a timer for it. -/
structure Opens (me : Pid) (nextTimer : TimerId) (w : Work) : Prop where
  own : ∃ v ∈ w.shared.created, v.source = me ∧ v.round = w.state.round
  timer : w.state.timer ∈ w.timers
  fresh : nextTimer ≤ w.state.timer ∧ w.state.timer < w.shared.nextTimer

/-- What has been created since has been broadcast, and nothing is forgotten. -/
structure Tells (w w' : Work) : Prop where
  told : Told w w'
  created : w.shared.created ⊆ w'.shared.created
  broadcasts : w.shared.broadcasts ⊆ w'.shared.broadcasts
  received : w.state.history.received ⊆ w'.state.history.received

/-- And the replica is in the round it was in, or has opened another one. -/
structure Speaks (me : Pid) (w w' : Work) : Prop extends Tells w w' where
  timers : w.timers ⊆ w'.timers
  nextTimer : w.shared.nextTimer ≤ w'.shared.nextTimer
  submitTimer : w'.state.submitTimer = w.state.submitTimer
  round : w'.state.timer = w.state.timer ∧ w'.state.round = w.state.round ∧
      w'.state.wait = w.state.wait ∨
    Opens me w.shared.nextTimer w'

/-- A relation that quiet steps do not leave. -/
structure Chains (R : Work → Work → Prop) : Prop where
  quiet : ∀ {w w'}, Quiet w w' → R w w'
  trans : ∀ {w w' w''}, R w w' → R w' w'' → R w w''

/-- What `broadcast_vertex` does when the replica enters a round. -/
def Enacts (R : Work → Work → Prop) (f : ℕ → Work → Option Work) : Prop :=
  ∀ round w w', f round (startTimer { w with state := { w.state with round } }) = some w' → R w w'

section

variable {env : Env} {me : Pid} {w w' w'' : Work} {vertex : Vertex} {R : Work → Work → Prop}
  {f : ℕ → Work → Option Work}

theorem Quiet.refl (w : Work) : Quiet w w := ⟨rfl, rfl, rfl, List.Subset.refl _⟩

theorem Quiet.chains : Chains Quiet where
  quiet h := h
  trans h h' := ⟨h'.created.trans h.created, h'.broadcasts.trans h.broadcasts,
    h'.clock.trans h.clock, List.Subset.trans h.received h'.received⟩

theorem Work.clock_eq (h : w'.clock = w.clock) : w'.timers = w.timers ∧
    w'.shared.nextTimer = w.shared.nextTimer ∧ w'.state.submitTimer = w.state.submitTimer ∧
    w'.state.timer = w.state.timer ∧ w'.state.round = w.state.round ∧
    w'.state.wait = w.state.wait := Clock.mk.inj h

theorem Quiet.speaks (h : Quiet w w') : Speaks me w w' := by
  obtain ⟨htimers, hnext, hsubmit, hclock⟩ := Work.clock_eq h.clock
  exact ⟨⟨.of_created h.created, h.created ▸ List.Subset.refl _,
    h.broadcasts ▸ List.Subset.refl _, h.received⟩, htimers ▸ List.Subset.refl _, hnext.ge,
    hsubmit, .inl hclock⟩

theorem Tells.trans (h : Tells w w') (h' : Tells w' w'') : Tells w w'' where
  told v hv := by
    rcases h'.told v hv with hv | hb
    · exact (h.told v hv).imp_right fun ⟨b, hb, he⟩ => ⟨b, h'.broadcasts hb, he⟩
    · exact .inr hb
  created := List.Subset.trans h.created h'.created
  broadcasts := List.Subset.trans h.broadcasts h'.broadcasts
  received := List.Subset.trans h.received h'.received

theorem Speaks.trans (h : Speaks me w w') (h' : Speaks me w' w'') : Speaks me w w'' where
  toTells := h.toTells.trans h'.toTells
  timers := List.Subset.trans h.timers h'.timers
  nextTimer := h.nextTimer.trans h'.nextTimer
  submitTimer := h'.submitTimer.trans h.submitTimer
  round := by
    rcases h'.round with ⟨htimer, hround, hwait⟩ | hO
    · rcases h.round with ⟨htimer₁, hround₁, hwait₁⟩ | ⟨⟨v, hv, hs, hr⟩, htimer₁, hfresh⟩
      · exact .inl ⟨htimer.trans htimer₁, hround.trans hround₁, hwait.trans hwait₁⟩
      · refine .inr ⟨⟨v, h'.created hv, hs, hr.trans hround.symm⟩, ?_, ?_⟩ <;> rw [htimer]
        · exact h'.timers htimer₁
        · exact ⟨hfresh.1, hfresh.2.trans_le h'.nextTimer⟩
    · exact .inr ⟨hO.own, hO.timer, h.nextTimer.trans hO.fresh.1, hO.fresh.2⟩

theorem Speaks.chains : Chains (Speaks me) := ⟨Quiet.speaks, Speaks.trans⟩

theorem Speaks.refl (me : Pid) (w : Work) : Speaks me w w := (Quiet.refl w).speaks

/-! ## The parts of a handler -/

theorem walk_received {alive : Vertex → Bool} {round : ℕ} {anchor : Vertex} {s s' : Bullshark}
    (h : walk alive round anchor s = some s') : s'.history.received = s.history.received ∧
      (s'.submitTimer = s.submitTimer ∧ s'.timer = s.timer ∧ s'.round = s.round ∧
        s'.wait = s.wait) := by
  fun_induction walk alive round anchor s with
  | case1 => cases h; exact ⟨rfl, rfl, rfl, rfl, rfl⟩
  | case2 => cases h
  | case3 => cases h; exact ⟨rfl, rfl, rfl, rfl, rfl⟩
  | case4 anchor s round hlt ih₁ ih₂ =>
    obtain ⟨o, -, h⟩ := Option.bind_eq_some_iff.mp h
    cases o with
    | none => exact ih₁ h
    | some previous =>
      obtain ⟨⟨linked, dag⟩, -, h⟩ := Option.bind_eq_some_iff.mp h
      exact ih₂ _ _ _ h
  | case5 => cases h; exact ⟨rfl, rfl, rfl, rfl, rfl⟩

theorem orderAnchors_quiet (h : orderAnchors env vertex w = some w') : Quiet w w' := by
  obtain ⟨s, hs, h⟩ := Option.bind_eq_some_iff.mp h
  obtain ⟨x, -, h⟩ := Option.bind_eq_some_iff.mp h
  cases h
  obtain ⟨hreceived, hsubmit, htimer, hround, hwait⟩ := walk_received hs
  refine ⟨rfl, rfl, ?_, hreceived ▸ List.Subset.refl _⟩
  unfold Work.clock
  simp only [hsubmit, htimer, hround, hwait]

theorem tryOrdering_quiet (h : tryOrdering env vertex w = some w') : Quiet w w' := by
  unfold tryOrdering at h
  split at h
  · cases h
    exact .refl _
  · obtain ⟨o, -, h⟩ := Option.bind_eq_some_iff.mp h
    cases o with
    | none => cases h; exact .refl _
    | some anchor =>
      obtain ⟨edges, -, h⟩ := Option.bind_eq_some_iff.mp h
      simp only at h
      split at h
      · have hQ := orderAnchors_quiet h
        exact ⟨hQ.created, hQ.broadcasts, hQ.clock, hQ.received⟩
      · cases h
        exact ⟨rfl, rfl, rfl, List.Subset.refl _⟩

theorem Chains.place (hR : Chains R) (hf : Enacts R f) (h : place f env vertex w = some w') :
    R w w' := by
  obtain ⟨dag, -, h⟩ := Option.bind_eq_some_iff.mp h
  obtain ⟨w₂, hcatch, h⟩ := Option.bind_eq_some_iff.mp h
  have h₁ : R w { w with state := { w.state with dag } } :=
    hR.quiet ⟨rfl, rfl, rfl, List.Subset.refl _⟩
  have h₂ : R w w₂ := by
    obtain ⟨reached, -, hcatch⟩ := Option.bind_eq_some_iff.mp hcatch
    split at hcatch
    · exact hR.trans h₁ (hf _ _ _ hcatch)
    · cases hcatch
      exact h₁
  have h₃ : R w { w₂ with state := { w₂.state with
      buffer := bufferRemove vertex w₂.state.buffer } } :=
    hR.trans h₂ (hR.quiet ⟨rfl, rfl, rfl, List.Subset.refl _⟩)
  simp only at h
  split at h
  · exact hR.trans h₃ (hR.quiet (tryOrdering_quiet h))
  · cases h
    exact h₃

theorem Chains.tryAddWith (hR : Chains R) (hf : Enacts R f) {added : Bool}
    (h : tryAddWith f env vertex w = some (added, w')) : R w w' := by
  unfold Bullshark.tryAddWith at h
  split at h
  · cases h
    exact hR.quiet ⟨rfl, rfl, rfl, List.Subset.refl _⟩
  · split at h
    · cases h
      exact hR.quiet (.refl _)
    · obtain ⟨known, -, h⟩ := Option.bind_eq_some_iff.mp h
      split at h
      · obtain ⟨w₁, hplace, h⟩ := Option.bind_eq_some_iff.mp h
        cases h
        exact hR.place hf hplace
      · cases h
        exact hR.quiet (.refl _)

/-- **A new vertex is broadcast** by the call that creates it. -/
theorem broadcastVertex_speaks : Enacts (Speaks env.me) (broadcastVertex env) := by
  intro round w w' h
  obtain ⟨⟨v, w₁⟩, hcreate, h⟩ := Option.bind_eq_some_iff.mp h
  obtain ⟨⟨added, w₂⟩, hadd, h⟩ := Option.bind_eq_some_iff.mp h
  cases h
  obtain ⟨-, hcreate⟩ := Option.ite_none_left_eq_some.mp hcreate
  obtain ⟨row, -, hcreate⟩ := Option.bind_eq_some_iff.mp hcreate
  cases hcreate
  have hQ := Quiet.chains.tryAddWith (fun _ _ _ h => by cases h) hadd
  obtain ⟨htimers, hnext, hsubmit, htimer, hround, hwait⟩ := Work.clock_eq hQ.clock
  have hcreated : ∀ {u}, u ∈ w₂.shared.created ↔ u = _ ∨ u ∈ w.shared.created := fun {u} => by
    rw [hQ.created]
    exact List.mem_cons
  have hbroadcasts : w₂.shared.broadcasts = w.shared.broadcasts := hQ.broadcasts
  refine ⟨⟨fun u hu => ?_, fun u hu => hcreated.mpr (.inr hu), fun b hb => ?_, hQ.received⟩,
    fun id hid => ?_, ?_, hsubmit, .inr ⟨⟨_, hcreated.mpr (.inl rfl), rfl, hround.symm⟩, ?_, ?_⟩⟩
  · rcases hcreated.mp hu with rfl | hu
    · exact .inr ⟨_, List.mem_cons_self, rfl⟩
    · exact .inl hu
  · exact List.mem_cons_of_mem _ (hbroadcasts ▸ hb)
  · exact htimers ▸ List.mem_cons_of_mem _ hid
  · exact (Nat.le_succ _).trans hnext.ge
  · show w₂.state.timer ∈ w₂.timers
    rw [htimer, htimers]
    exact List.mem_cons_self
  · show w.shared.nextTimer ≤ w₂.state.timer ∧ w₂.state.timer < w₂.shared.nextTimer
    rw [htimer, hnext]
    exact ⟨Nat.le_refl _, Nat.lt_succ_self _⟩

theorem tryAddToDag_speaks {added : Bool} (h : tryAddToDag env vertex w = some (added, w')) :
    Speaks env.me w w' := Speaks.chains.tryAddWith broadcastVertex_speaks h

theorem tryAdvanceRound_speaks (h : tryAdvanceRound env w = some w') : Speaks env.me w w' := by
  obtain ⟨reached, -, h⟩ := Option.bind_eq_some_iff.mp h
  split at h
  · exact broadcastVertex_speaks _ _ _ h
  · cases h
    exact .refl _ _

theorem tryAll_speaks {vertices : List Vertex} (h : tryAll env vertices w = some w') :
    Speaks env.me w w' := by
  induction vertices generalizing w with
  | nil => cases h; exact .refl _ _
  | cons v vertices ih =>
    obtain ⟨⟨added, w₁⟩, hadd, h⟩ := Option.bind_eq_some_iff.mp h
    exact (tryAddToDag_speaks hadd).trans (ih h)

theorem onGenesis_speaks (h : onGenesis env vertex w = some w') :
    Speaks env.me w w' ∧ vertex ∈ w'.state.history.received := by
  obtain ⟨dag, -, h⟩ := Option.bind_eq_some_iff.mp h
  have hQ : Quiet w (receive vertex { w with state := { w.state with dag } }) :=
    ⟨rfl, rfl, rfl, List.subset_cons_self _ _⟩
  have hS := tryAdvanceRound_speaks h
  exact ⟨hQ.speaks.trans hS, hS.received List.mem_cons_self⟩

theorem onVertex_speaks (h : onVertex env vertex w = some w') :
    Speaks env.me w w' ∧ vertex ∈ w'.state.history.received := by
  obtain ⟨w₂, added, w₃, htry, hadd, hgo⟩ := onVertex_parts h
  have hforget : Quiet w (forgetCommands vertex w) := ⟨rfl, rfl, rfl, List.Subset.refl _⟩
  have hkeep : Quiet w₃ (receive vertex (keepInBuffer vertex added w₃)) := by
    cases added <;> exact ⟨rfl, rfl, rfl, List.subset_cons_self _ _⟩
  have h₁ := (hforget.speaks.trans (tryAll_speaks htry)).trans
    ((tryAddToDag_speaks hadd).trans hkeep.speaks)
  have h₂ : Speaks env.me (receive vertex (keepInBuffer vertex added w₃)) w' := by
    unfold goOn at hgo
    split at hgo
    · cases hgo
      exact .refl _ _
    · obtain ⟨may, -, hgo⟩ := Option.bind_eq_some_iff.mp hgo
      split at hgo
      · exact tryAdvanceRound_speaks hgo
      · cases hgo
        exact .refl _ _
  exact ⟨h₁.trans h₂, h₂.received List.mem_cons_self⟩

theorem onStart_tells (env : Env) (w : Work) : Tells w (onStart env w) := by
  have hbroadcasts := setUp_broadcasts env w
  have hstate : (setUp env w).state.history = w.state.history := by
    obtain ⟨timer, h⟩ := setUp_state env w
    rw [h]
  have hcreated : ∀ {v}, v ∈ (onStart env w).shared.created ↔
      v = genesis env w ∨ v ∈ w.shared.created := fun {v} => by
    show v ∈ (setUp env w).shared.created ↔ _
    rw [setUp_created, List.mem_cons]
  refine ⟨fun v hv => ?_, fun v hv => hcreated.mpr (.inr hv),
    fun b hb => List.mem_cons_of_mem _ (hbroadcasts ▸ hb), ?_⟩
  · rcases hcreated.mp hv with rfl | hv
    · exact .inr ⟨_, List.mem_cons_self, rfl⟩
    · exact .inl hv
  · show w.state.history.received ⊆ (setUp env w).state.history.received
    rw [hstate]
    exact List.Subset.refl _

theorem onSubmit_history (command : Command) (s : Bullshark) :
    (onSubmit command s).history = s.history := by
  unfold onSubmit
  split <;> rfl

end

/-! ## Steps -/

/-- **What a step makes of the work of a replica.** -/
inductive Works (cfg : Config) (c : System) : Pid → System → Work → Prop
  | start {p : Pid} {drain : Hotstuff.Drain} (hp : p ∈ cfg.pool) (hs : p ∉ c.started) :
      Works cfg c p { c with started := p :: c.started } (onStart (c.env cfg p drain) (c.work p))
  | deliver {index : ℕ} {packet : Packet VertexMessage} {w' : Work}
      (hk : c.network[index]? = some packet) (hs : packet.dst ∈ c.started)
      (h : Speaks packet.dst (c.work packet.dst) w') (hreceived : ∀ message,
        c.handed cfg packet = some message → message.content ∈ w'.state.history.received) :
      Works cfg c packet.dst (c.deliver cfg index packet) w'
  | submit {index : ℕ} {p : Pid} {command : Command} (hs : p ∈ c.started) :
      Works cfg c p { c with submits := c.submits.eraseIdx index }
        { c.work p with state := onSubmit command (c.replicas p) }
  | request {index : ℕ} {p : Pid} {env : Env} {w' : Work}
      (hk : c.timers[index]? = some (p, (c.replicas p).submitTimer))
      (h : w' = submit env (c.work p) ∨ w' = scheduleSubmit (submit env (c.work p))) :
      Works cfg c p { c with timers := c.timers.eraseIdx index } w'
  | fire {index : ℕ} {p : Pid} {drain : Hotstuff.Drain} {w' : Work}
      (hk : c.timers[index]? = some (p, (c.replicas p).timer))
      (h : tryAdvanceRound (c.env cfg p drain)
        { c.work p with state := { c.replicas p with wait := false } } = some w') :
      Works cfg c p { c with timers := c.timers.eraseIdx index } w'
  | stale {index : ℕ} {p : Pid} {id : TimerId} (hk : c.timers[index]? = some (p, id))
      (hne : id ≠ (c.replicas p).timer) :
      Works cfg c p { c with timers := c.timers.eraseIdx index } (c.work p)

/-- Every vertex has been broadcast, and what was handed out has been received. -/
structure Spread (c : System) : Prop where
  told : ∀ v ∈ c.shared.created, ∃ b ∈ c.shared.broadcasts, b.2.content = v
  handed : ∀ r ∈ c.returned, r.2.2.content ∈ (c.replicas r.1).history.received

section

variable {cfg : Config} {c c' base : System} {p : Pid} {w w' : Work} {a : Action}

theorem Invariant.deliver_speaks (hI : Invariant cfg c) {index : ℕ} {drain : Hotstuff.Drain}
    {packet : Packet VertexMessage} (hk : c.network[index]? = some packet)
    (hs : packet.dst ∈ c.started)
    (h : onMessage (c.env cfg packet.dst drain) packet.src packet.msg (c.work packet.dst) =
      some w') : Speaks packet.dst (c.work packet.dst) w' ∧ ∀ message,
      c.handed cfg packet = some message → message.content ∈ w'.state.history.received := by
  rw [onMessage_eq _ _ _ _ _ rfl] at h
  let w : Work := { c.work packet.dst with
    state := { c.replicas packet.dst with
      rbcast := ((c.replicas packet.dst).rbcast.onMessage cfg.pool packet.dst packet.src
        packet.msg).state }
    sends := ((c.replicas packet.dst).rbcast.onMessage cfg.pool packet.dst packet.src
        packet.msg).sends ++ [] }
  have hQ : Speaks packet.dst (c.work packet.dst) w :=
    Quiet.speaks ⟨rfl, rfl, rfl, List.Subset.refl _⟩
  cases hret : c.handed cfg packet with
  | none =>
    have hret' : ((c.work packet.dst).state.rbcast.onMessage (c.env cfg packet.dst drain).cfg.pool
        (c.env cfg packet.dst drain).me packet.src packet.msg).returned = none := hret
    rw [hret'] at h
    cases h
    exact ⟨hQ, fun _ h => by cases h⟩
  | some message =>
    have hret' : ((c.work packet.dst).state.rbcast.onMessage (c.env cfg packet.dst drain).cfg.pool
        (c.env cfg packet.dst drain).me packet.src packet.msg).returned = some message := hret
    rw [hret'] at h
    have hdone : Speaks packet.dst w w' ∧ message.content ∈ w'.state.history.received := by
      cases message with
      | genesis vertex => exact onGenesis_speaks h
      | vertex vertex =>
        simp only at h
        rw [if_neg (by rw [Bool.not_eq_true]; exact hI.not_bad hk hs hret)] at h
        exact onVertex_speaks h
    refine ⟨hQ.trans hdone.1, fun message' h => ?_⟩
    cases h
    exact hdone.2

theorem Invariant.works (hI : Invariant cfg c) (h : System.step cfg c a = some c') :
    ∃ p base w', c' = base.update p w' ∧ Works cfg c p base w' := by
  cases a with
  | start pid drain =>
    simp only [System.step, Option.ite_none_right_eq_some] at h
    obtain ⟨⟨hp, hs⟩, h⟩ := h
    cases h
    exact ⟨pid, _, _, rfl, .start hp hs⟩
  | deliver index drain =>
    simp only [System.step] at h
    split at h
    · cases h
    · rename_i packet hk
      rw [Option.ite_none_right_eq_some] at h
      obtain ⟨hs, h⟩ := h
      obtain ⟨w', hw', rfl⟩ := Option.map_eq_some_iff.mp h
      obtain ⟨hS, hreceived⟩ := hI.deliver_speaks hk hs hw'
      exact ⟨packet.dst, _, w', rfl, .deliver hk hs hS hreceived⟩
  | submit index =>
    simp only [System.step] at h
    split at h
    · cases h
    · rename_i pid command hk
      obtain ⟨hs, h⟩ := Option.ite_none_right_eq_some.mp h
      cases h
      have hW : Works cfg c pid { c with submits := c.submits.eraseIdx index }
        { c.work pid with state := onSubmit command (c.replicas pid) } := .submit hs
      exact ⟨pid, _, _, rfl, hW⟩
  | timer index drain =>
    simp only [System.step] at h
    split at h
    · cases h
    · rename_i pid id hk
      obtain ⟨w', hw', rfl⟩ := Option.map_eq_some_iff.mp h
      refine ⟨pid, _, w', rfl, ?_⟩
      unfold onTimer at hw'
      split at hw'
      · rename_i hsubmit
        cases hw'
        let submitted := submit (c.env cfg pid drain) (c.work pid)
        refine .request (hsubmit ▸ hk) (?_ : _ = submitted ∨ _ = scheduleSubmit submitted)
        split
        · exact .inr rfl
        · exact .inl rfl
      · split at hw'
        · rename_i htimer
          exact .fire (htimer ▸ hk) hw'
        · cases hw'
          exact .stale hk ‹_›

theorem Works.tells {base : System} (h : Works cfg c p base w') : Tells (c.work p) w' := by
  cases h with
  | start => exact onStart_tells _ _
  | deliver _ _ h _ => exact h.toTells
  | submit =>
    refine ⟨.of_created rfl, List.Subset.refl _, List.Subset.refl _, ?_⟩
    rw [onSubmit_history]
    exact List.Subset.refl _
  | request _ h =>
    rcases h with rfl | rfl <;>
      exact ⟨.of_created rfl, List.Subset.refl _, List.Subset.refl _, List.Subset.refl _⟩
  | fire _ h =>
    have hT := (tryAdvanceRound_speaks h).toTells
    exact ⟨hT.told, hT.created, hT.broadcasts, hT.received⟩
  | stale => exact (Speaks.refl p _).toTells

theorem Works.replicas {base : System} (h : Works cfg c p base w') :
    base.replicas = c.replicas := by
  cases h <;> rfl

/-! ## What is broadcast arrives -/

namespace Spread

theorem init : Spread System.init :=
  ⟨fun _ hv => absurd hv List.not_mem_nil, fun _ hr => absurd hr List.not_mem_nil⟩

theorem step (hS : Spread c) (hI : Invariant cfg c) (h : System.step cfg c a = some c') :
    Spread c' := by
  obtain ⟨p, base, w', rfl, hw⟩ := hI.works h
  have hT := hw.tells
  refine ⟨fun v hv => ?_, fun r hr => ?_⟩
  · rcases hT.told v hv with hv | hb
    · obtain ⟨b, hb, he⟩ := hS.told v hv
      exact ⟨b, hT.broadcasts hb, he⟩
    · exact hb
  · have hhanded : r ∈ c.returned ∨ r.1 = p ∧ r.2.2.content ∈ w'.state.history.received := by
      cases hw with
      | deliver _ _ _ hreceived =>
        rcases List.mem_append.mp hr with hr | hr
        · obtain ⟨m, hm, rfl⟩ := List.mem_map.mp hr
          exact .inr ⟨rfl, hreceived m (Option.mem_toList.mp hm)⟩
        · exact .inl hr
      | _ => exact .inl hr
    obtain ⟨hstate, hothers⟩ := System.update_replicas hw.replicas p w'
    by_cases hrp : r.1 = p
    · rw [hrp, hstate]
      refine hhanded.elim (fun hr => hT.received ?_) fun hr => hr.2
      exact hrp ▸ hS.handed r hr
    · rw [hothers r.1 hrp]
      exact hS.handed r (hhanded.resolve_right fun h => hrp h.1)

theorem of_reachable (h : c.Reachable cfg) : Spread c :=
  h.invariant init fun _ _ _ hr _ hS hs => hS.step (Invariant.of_reachable hr) hs

theorem received (hS : Spread c) (hI : Invariant cfg c) (hquiet : c.network = [])
    (hp : p ∈ cfg.pool) {v : Vertex} (hv : v ∈ c.shared.created) :
    v ∈ (c.replicas p).history.received := by
  obtain ⟨b, hb, rfl⟩ := hS.told v hv
  have hC := Broadcast.Correct.of_reachable List.nodup_range hI.bcb
  have hquorum := hC.quorum_reached List.nodup_range hquiet hb (List.length_pos_of_mem hp)
  have hnone : c.bcb.QuietFor cfg.pool := fun packet hin => by
    rw [show c.bcb.network = [] from hquiet] at hin
    cases hin
  exact hS.handed _ (hC.returned_of_quorum hnone (List.Subset.refl _) hb hquorum hp)

end Spread

end

end Blsmr.Bullshark
