import Blsmr.Broadcast.Delivery
import Blsmr.Bullshark.Handlers
import Blsmr.Bullshark.System

/-!
# Runs of the system

A step begins with a change to one replica (`Begins`) and goes on with moves
(`Invariant.step`). The messages of the replicas are those of the consistent broadcast
(`bcb`), so what it hands out has been created. `Invariant` holds in every reachable
state, and `Invariant.replicas` is the rule for further invariants of single replicas.
-/

namespace Blsmr.Bullshark

open Blsmr.Transition Blsmr.Graph RoundBasedDAG
open Broadcast (Packet)

/-! ## The consistent broadcast in the system -/

/-- The consistent broadcast of the replicas. -/
def System.bcb (c : System) : Broadcast.System VertexMessage where
  processes p := (c.replicas p).rbcast
  started := c.started
  network := c.network
  delivered := c.delivered
  broadcasts := c.shared.broadcasts
  returned := c.returned
  uids := c.shared.broadcasts.map fun b => b.1.messageId

/-- All replicas follow the protocol. -/
def Config.broadcast (cfg : Config) : Broadcast.Config := ⟨cfg.pool, []⟩

/-- What has been broadcast are created vertices, under identifiers handed out. -/
structure Contents (shared : Shared) : Prop where
  created : ∀ b ∈ shared.broadcasts, b.2.content ∈ shared.created
  fits : ∀ b ∈ shared.broadcasts, b.2.Fits
  source : ∀ b ∈ shared.broadcasts, b.2.content.source = b.1.processId
  uids : ∀ b ∈ shared.broadcasts, b.1.messageId < shared.nextUid

section

variable {cfg : Config} {me : Pid} {c : System} {w w' : Work}

theorem Contents.move (hC : Contents w.shared) (h : Move cfg me w w') : Contents w'.shared := by
  cases h with
  | advance =>
    exact ⟨fun b hb => List.mem_cons_of_mem _ (hC.created b hb), hC.fits, hC.source, hC.uids⟩
  | send _ henv hmem hround hsource =>
    refine ⟨List.forall_mem_cons.mpr ⟨hmem, hC.created⟩,
      List.forall_mem_cons.mpr ⟨hround, hC.fits⟩,
      List.forall_mem_cons.mpr ⟨hsource.trans henv.symm, hC.source⟩,
      List.forall_mem_cons.mpr ⟨Nat.lt_succ_self _, fun b hb => ?_⟩⟩
    exact (hC.uids b hb).trans (Nat.lt_succ_self _)
  | idle => exact ⟨hC.created, hC.fits, hC.source, hC.uids⟩
  | order => exact ⟨hC.created, hC.fits, hC.source, hC.uids⟩
  | _ => exact hC

theorem Contents.moves (hC : Contents w.shared) (h : Moves cfg me w w') : Contents w'.shared := by
  induction h with
  | refl => exact hC
  | tail _ hm ih => exact ih.move hm

theorem bcb_move (hC : Contents w.shared) (hme : me ∈ c.started)
    (hr : (c.update me w).bcb.Reachable cfg.broadcast) (h : Move cfg me w w') :
    (c.update me w').bcb.Reachable cfg.broadcast := by
  have hsame : w'.state.rbcast = w.state.rbcast → w'.sends = w.sends →
      w'.shared.broadcasts = w.shared.broadcasts → (c.update me w').bcb = (c.update me w).bcb := by
    intro h₁ h₂ h₃
    unfold System.bcb System.update
    simp only [h₂, h₃, Broadcast.System.mk.injEq, and_self, and_true]
    funext p
    by_cases hp : p = me
    · subst hp
      simp [h₁]
    · simp [hp]
  cases h with
  | @send env message hcfg henv hmem _ _ =>
    subst hcfg henv
    have hfresh : w.shared.nextUid ∉ (c.update env.me w).bcb.uids := fun hu => by
      obtain ⟨b, hb, heq⟩ := List.mem_map.mp hu
      exact Nat.lt_irrefl _ (heq ▸ hC.uids b hb)
    refine hr.step (a := .broadcast env.me w.shared.nextUid message) trivial ?_
    simp only [Broadcast.System.step]
    rw [if_pos ⟨hme, List.not_mem_nil, hfresh⟩]
    congr 1
    unfold System.bcb System.update reliablyBroadcast Config.broadcast
      ByzantineConsistentBroadcast.reliablyBroadcast Broadcast.packets
    simp only [Broadcast.System.mk.injEq, List.map_append, List.append_assoc, List.map_cons,
      Function.update_self, and_self, and_true]
    funext p
    by_cases hp : p = env.me
    · subst hp
      simp
    · simp [hp]
  | _ => rw [hsame rfl rfl rfl]; exact hr

theorem bcb_moves (hC : Contents w.shared) (hme : me ∈ c.started)
    (hr : (c.update me w).bcb.Reachable cfg.broadcast) (h : Moves cfg me w w') :
    (c.update me w').bcb.Reachable cfg.broadcast := by
  induction h with
  | refl => exact hr
  | tail hm hmove ih => exact bcb_move (hC.moves hm) hme ih hmove

end

/-! ## How a step begins -/

/-- **How a step begins**: the replica, the system without what is handled, and what the
replica works on before its first move. -/
inductive Begins (cfg : Config) (c : System) : Action → Pid → System → Work → Prop
  | start {pid : Pid} {drain : Hotstuff.Drain} (hp : pid ∈ cfg.pool) (hs : pid ∉ c.started) :
      Begins cfg c (.start pid drain) pid { c with started := pid :: c.started }
        (setUp (c.env cfg pid drain) (c.work pid))
  | deliver {index : ℕ} {drain : Hotstuff.Drain} {packet : Packet VertexMessage}
      {out : ByzantineConsistentBroadcast.Outcome VertexMessage}
      (hk : c.network[index]? = some packet) (hs : packet.dst ∈ c.started)
      (hout : out = (c.replicas packet.dst).rbcast.onMessage cfg.pool packet.dst packet.src
        packet.msg) :
      Begins cfg c (.deliver index drain) packet.dst (c.deliver cfg index packet)
        { c.work packet.dst with
          state := { c.replicas packet.dst with rbcast := out.state }
          sends := out.sends ++ [] }
  | submit {index : ℕ} {pid : Pid} {command : Command}
      (hk : c.submits[index]? = some (pid, command)) (hs : pid ∈ c.started) :
      Begins cfg c (.submit index) pid { c with submits := c.submits.eraseIdx index }
        { c.work pid with state := onSubmit command (c.replicas pid) }
  | fire {index : ℕ} {drain : Hotstuff.Drain} {pid : Pid} {id : TimerId}
      (hk : c.timers[index]? = some (pid, id)) (hs : id ≠ (c.replicas pid).submitTimer) :
      Begins cfg c (.timer index drain) pid { c with timers := c.timers.eraseIdx index }
        (c.work pid)
  | request {index : ℕ} {drain : Hotstuff.Drain} {pid : Pid} {id : TimerId}
      (hk : c.timers[index]? = some (pid, id)) (hs : id = (c.replicas pid).submitTimer) :
      Begins cfg c (.timer index drain) pid { c with timers := c.timers.eraseIdx index }
        (submit (c.env cfg pid drain) (c.work pid))

/-- **What holds in every reachable state.** -/
structure Invariant (cfg : Config) (c : System) : Prop where
  vertices : Vertices cfg.procNum c.shared.created
  sound : ∀ p ∈ c.started, Sound cfg.procNum p c.shared.created (c.replicas p)
  idle : ∀ p, p ∉ c.started → c.replicas p = Bullshark.default
  started : ∀ p ∈ c.started, p < cfg.procNum
  present : ∀ v ∈ c.shared.created, v.source ∈ c.started
  contents : Contents c.shared
  timers : ∀ t ∈ c.timers, t.1 ∈ c.started
  bcb : c.bcb.Reachable cfg.broadcast

section

variable {cfg : Config} {me : Pid} {c c' base : System} {w w' : Work} {a : Action}

theorem mem_pool {p : Pid} : p ∈ cfg.pool ↔ p < cfg.procNum := List.mem_range

theorem pool_length (cfg : Config) : cfg.pool.length = cfg.procNum := List.length_range

theorem Move.created_own (h : Move cfg me w w') {v : Vertex} (hv : v ∈ w'.shared.created) :
    v ∈ w.shared.created ∨ v.source = me := by
  cases h with
  | advance _ _ _ hsource =>
    rcases List.mem_cons.mp hv with rfl | hv
    · exact .inr hsource
    · exact .inl hv
  | _ => exact .inl hv

theorem Moves.created_own (h : Moves cfg me w w') {v : Vertex} (hv : v ∈ w'.shared.created) :
    v ∈ w.shared.created ∨ v.source = me := by
  induction h with
  | refl => exact .inl hv
  | tail _ hm ih => exact (hm.created_own hv).elim ih .inr

namespace Invariant

theorem init (cfg : Config) : Invariant cfg System.init where
  vertices := .nil _
  sound _ hp := absurd hp List.not_mem_nil
  idle _ _ := rfl
  started _ hp := absurd hp List.not_mem_nil
  present _ hv := absurd hv List.not_mem_nil
  contents := ⟨List.forall_mem_nil _, List.forall_mem_nil _,
    List.forall_mem_nil _,
    List.forall_mem_nil _⟩
  timers _ ht := absurd ht List.not_mem_nil
  bcb := .init

theorem good (hI : Invariant cfg c) {p : Pid} (hp : p ∈ c.started) : Good cfg p (c.work p) :=
  ⟨hI.started p hp, hI.vertices, hI.sound p hp⟩

end Invariant

/-- What holds when a replica begins. -/
structure Opening (cfg : Config) (me : Pid) (base : System) (w : Work) : Prop where
  good : Good cfg me w
  me_mem : me ∈ base.started
  others : ∀ q ∈ base.started, q ≠ me → Sound cfg.procNum q w.shared.created (base.replicas q)
  idle : ∀ p, p ∉ base.started → base.replicas p = Bullshark.default
  started : ∀ p ∈ base.started, p < cfg.procNum
  present : ∀ v ∈ w.shared.created, v.source ∈ base.started
  contents : Contents w.shared
  timers : ∀ t ∈ base.timers, t.1 ∈ base.started
  bcb : (base.update me w).bcb.Reachable cfg.broadcast

theorem Sound.grow {n : ℕ} {p : Pid} {created created' : List Vertex} {s : Bullshark}
    (hS : Sound n p created s) (h : created ⊆ created')
    (hown : ∀ v ∈ created', v ∈ created ∨ v.source ≠ p) : Sound n p created' s :=
  { hS.toReady.mono h with
    buffered := fun v hv => ⟨h (hS.buffered v hv).1, (hS.buffered v hv).2⟩
    own := fun v hv hs => hS.own v ((hown v hv).resolve_right fun hne => hne hs) hs }

theorem Opening.invariant (hO : Opening cfg me base w) (h : Moves cfg me w w') :
    Invariant cfg (base.update me w') where
  vertices := (hO.good.moves h).vertices
  sound p hp := by
    unfold System.update
    simp only
    by_cases hpm : p = me
    · subst hpm
      rw [Function.update_self]
      exact (hO.good.moves h).sound
    · rw [Function.update_of_ne hpm]
      refine (hO.others p hp hpm).grow h.created fun v hv => ?_
      exact (h.created_own hv).imp_right fun hs heq => hpm (heq.symm.trans hs)
  idle p hp := by
    unfold System.update
    simp only
    have hne : p ≠ me := fun hpm => hp (hpm.symm ▸ hO.me_mem)
    rw [Function.update_of_ne hne]
    exact hO.idle p hp
  started := hO.started
  present v hv := by
    rcases h.created_own hv with hv | hs
    · exact hO.present v hv
    · exact hs ▸ hO.me_mem
  contents := hO.contents.moves h
  timers t ht := by
    rcases List.mem_append.mp ht with ht | ht
    · obtain ⟨id, -, rfl⟩ := List.mem_map.mp ht
      exact hO.me_mem
    · exact hO.timers t ht
  bcb := bcb_moves hO.contents hO.me_mem hO.bcb h

theorem setUp_state (env : Env) (w : Work) : ∃ submitTimer, (setUp env w).state = { w.state with
    submitTimer
    procNum := env.cfg.pool.length
    dag := w.state.dag.setRoundSize env.cfg.pool.length
    rbcast := w.state.rbcast.onStart env.cfg.pool.length } := by
  unfold setUp
  split <;> exact ⟨_, rfl⟩

theorem setUp_created (env : Env) (w : Work) :
    (setUp env w).shared.created = genesis env w :: w.shared.created := by
  unfold setUp
  split <;> rfl

theorem RoundBasedDAG.causal_default (n : ℕ) (created : List Vertex) :
    Causal n created (RoundBasedDAG.default.setRoundSize n) := by
  have hnone : ∀ r p, (RoundBasedDAG.default.setRoundSize n).vertexAt r p = none := fun r p => by
    unfold vertexAt
    rw [slot_of_le (d := RoundBasedDAG.default.setRoundSize n) (Nat.zero_le r)]
    rfl
  refine ⟨⟨rfl, ?_, ?_, ?_, rfl, rfl⟩, fun r p v hv => ?_, fun v hv => ?_⟩
  · exact List.forall_mem_nil _
  · exact List.forall_mem_nil _
  · exact List.forall_mem_nil _
  · rw [hnone] at hv
    cases hv
  · unfold Has at hv
    rw [hnone] at hv
    cases hv

/-- A replica that has just been set up. -/
structure New (n : ℕ) (s : Bullshark) : Prop where
  procNum : s.procNum = n
  dag : s.dag = RoundBasedDAG.default.setRoundSize n
  buffer : s.buffer = []
  lastOrderedRound : s.lastOrderedRound = 0
  orderedAnchors : s.orderedAnchors = []
  history : s.history = ⟨[], [], [], [], [], []⟩

theorem New.ready {n : ℕ} {created : List Vertex} {s : Bullshark} (hN : New n s) :
    Ready n created s where
  procNum := hN.procNum
  dag := hN.dag ▸ causal_default n created
  offset := by rw [hN.lastOrderedRound, hN.dag]; rfl
  even := by rw [hN.dag]; rfl
  stack := hN.orderedAnchors
  marks k _ := by
    have hdone : (RoundBasedDAG.default.setRoundSize n).done k = false := by
      rw [done_of_le (d := RoundBasedDAG.default.setRoundSize n) (Nat.zero_le k.1)]
      rfl
    rw [hN.dag, hdone, hN.history]
    simp
  output v hv := by
    rw [hN.history] at hv
    cases hv
  replay := by
    rw [hN.history]
    exact .nil

namespace Invariant

variable (hI : Invariant cfg c)

include hI

theorem setUp_new {pid : Pid} (hs : pid ∉ c.started) (drain : Hotstuff.Drain) :
    New cfg.procNum (setUp (c.env cfg pid drain) (c.work pid)).state := by
  obtain ⟨t, h⟩ := setUp_state (c.env cfg pid drain) (c.work pid)
  have hidle : (c.work pid).state = Bullshark.default := hI.idle pid hs
  have hlen : (c.env cfg pid drain).cfg.pool.length = cfg.procNum := pool_length cfg
  rw [h, hidle, hlen]
  exact ⟨rfl, rfl, rfl, rfl, rfl, rfl⟩

theorem opening_start {pid : Pid} (hp : pid ∈ cfg.pool) (hs : pid ∉ c.started)
    (drain : Hotstuff.Drain) : Opening cfg pid { c with started := pid :: c.started }
      (setUp (c.env cfg pid drain) (c.work pid)) := by
  have hlt := mem_pool.mp hp
  have habsent : ∀ v ∈ c.shared.created, v.source ≠ pid := fun v hv heq =>
    hs (heq ▸ hI.present v hv)
  have hV : Vertices cfg.procNum (setUp (c.env cfg pid drain) (c.work pid)).shared.created := by
    rw [setUp_created]
    refine hI.vertices.cons rfl (fun u hu hsrc => absurd hsrc (habsent u hu)) hlt
      (List.forall_mem_nil _) List.nodup_nil fun h0 => absurd rfl h0
  have hnew := hI.setUp_new hs drain
  refine ⟨⟨hlt, hV, { hnew.ready with buffered := ?_, own := ?_ }⟩, List.mem_cons_self, ?_, ?_, ?_,
    ?_, ?_, ?_, ?_⟩
  · rw [hnew.buffer]
    exact List.forall_mem_nil _
  · rw [setUp_created]
    intro v hv hsrc
    rcases List.mem_cons.mp hv with rfl | hv
    · exact Nat.zero_le _
    · exact absurd hsrc (habsent v hv)
  · intro q hq hne
    rw [setUp_created]
    have hq := (List.mem_cons.mp hq).resolve_left hne
    refine (hI.sound q hq).grow (List.subset_cons_self _ _) fun v hv => ?_
    rcases List.mem_cons.mp hv with rfl | hv
    · exact .inr (Ne.symm hne)
    · exact .inl hv
  · exact fun p hp => hI.idle p fun h => hp (List.mem_cons_of_mem _ h)
  · exact List.forall_mem_cons.mpr ⟨hlt, hI.started⟩
  · rw [setUp_created]
    exact List.forall_mem_cons.mpr ⟨List.mem_cons_self, fun v hv =>
      List.mem_cons_of_mem _ (hI.present v hv)⟩
  · have hC := hI.contents
    unfold setUp
    split <;>
    exact ⟨fun b hb => List.mem_cons_of_mem _ (hC.created b hb), hC.fits, hC.source, hC.uids⟩
  · exact fun t ht => List.mem_cons_of_mem _ (hI.timers t ht)
  · refine hI.bcb.step (a := .start pid) trivial ?_
    simp only [Broadcast.System.step]
    rw [if_pos ⟨hp, hs⟩]
    congr 1
    obtain ⟨t, hst⟩ := setUp_state (c.env cfg pid drain) (c.work pid)
    have hsends : (setUp (c.env cfg pid drain) (c.work pid)).sends = [] := by
      unfold setUp
      split <;> rfl
    have hbc : (setUp (c.env cfg pid drain) (c.work pid)).shared.broadcasts =
        c.shared.broadcasts := by
      unfold setUp
      split <;> rfl
    unfold System.bcb System.update Config.broadcast
    simp only [hsends, hbc, Broadcast.System.mk.injEq, and_self, and_true]
    refine ⟨?_, trivial, rfl⟩
    funext p
    by_cases hpp : p = pid
    · subst hpp
      simp only [Function.update_self, hst]
      rfl
    · simp [hpp]

theorem opening_same {p : Pid} (hp : p ∈ c.started) {base : System} {w : Work}
    (hstarted : base.started = c.started) (hreplicas : base.replicas = c.replicas)
    (htimers : ∀ t ∈ base.timers, t ∈ c.timers) (hcreated : w.shared.created = c.shared.created)
    (hcontents : Contents w.shared) (hsound : Sound cfg.procNum p c.shared.created w.state)
    (hbcb : (base.update p w).bcb.Reachable cfg.broadcast) : Opening cfg p base w where
  good := ⟨hI.started p hp, hcreated ▸ hI.vertices, hcreated ▸ hsound⟩
  me_mem := hstarted ▸ hp
  others q hq _ := by
    rw [hcreated, hreplicas]
    exact hI.sound q (hstarted ▸ hq)
  idle q hq := hreplicas ▸ hI.idle q (hstarted ▸ hq)
  started := hstarted ▸ hI.started
  present := hcreated ▸ hstarted ▸ hI.present
  contents := hcontents
  timers t ht := hstarted ▸ hI.timers t (htimers t ht)
  bcb := hbcb

theorem bcb_same {p : Pid} {base : System} {w : Work} (hstarted : base.started = c.started)
    (hreplicas : base.replicas = c.replicas) (hnetwork : base.network = c.network)
    (hdelivered : base.delivered = c.delivered) (hreturned : base.returned = c.returned)
    (hrbcast : w.state.rbcast = (c.replicas p).rbcast) (hsends : w.sends = [])
    (hbroadcasts : w.shared.broadcasts = c.shared.broadcasts) :
    (base.update p w).bcb.Reachable cfg.broadcast := by
  have heq : (base.update p w).bcb = c.bcb := by
    unfold System.bcb System.update
    simp only [hstarted, hreplicas, hnetwork, hdelivered, hreturned, hsends, hbroadcasts,
      Broadcast.System.mk.injEq, and_self, and_true]
    refine ⟨?_, trivial, rfl⟩
    funext q
    by_cases hq : q = p
    · subst hq
      rw [Function.update_self, hrbcast]
    · rw [Function.update_of_ne hq]
  rw [heq]
  exact hI.bcb

theorem opening_deliver {index : ℕ} {packet : Packet VertexMessage}
    {out : ByzantineConsistentBroadcast.Outcome VertexMessage}
    (hk : c.network[index]? = some packet) (hs : packet.dst ∈ c.started)
    (hout : out = (c.replicas packet.dst).rbcast.onMessage cfg.pool packet.dst packet.src
      packet.msg) :
    Opening cfg packet.dst (c.deliver cfg index packet)
      { c.work packet.dst with
        state := { c.replicas packet.dst with rbcast := out.state }
        sends := out.sends ++ [] } := by
  have hS := hI.sound packet.dst hs
  refine hI.opening_same hs rfl rfl (fun t ht => ht) rfl hI.contents { hS with } ?_
  refine hI.bcb.step (a := .deliver index) trivial ?_
  simp only [Broadcast.System.step]
  have hk' : c.bcb.network[index]? = some packet := hk
  rw [hk']
  simp only
  rw [if_neg (show packet.dst ∉ cfg.broadcast.faulty from List.not_mem_nil),
    if_pos (show packet.dst ∈ c.bcb.started from hs)]
  congr 1
  subst hout
  unfold System.bcb System.update System.deliver Broadcast.System.handle Config.broadcast
  simp only [Broadcast.System.mk.injEq, List.append_nil]
  refine ⟨?_, trivial, trivial, trivial, rfl, rfl, rfl⟩
  funext q
  by_cases hq : q = packet.dst
  · subst hq
    rw [Function.update_self, Function.update_self]
  · rw [Function.update_of_ne hq, Function.update_of_ne hq]

/-- **What holds when a step begins.** -/
theorem opening (hb : Begins cfg c a me base w) : Opening cfg me base w := by
  cases hb with
  | start hp hs => exact hI.opening_start hp hs _
  | deliver hk hs hout => exact hI.opening_deliver hk hs hout
  | @submit index pid command hk hs =>
    have hS := hI.sound me hs
    have hsub : Sound cfg.procNum me c.shared.created (onSubmit command (c.replicas me)) := by
      unfold onSubmit
      split
      · exact hS
      · exact { hS with }
    have hrb : (onSubmit command (c.replicas me)).rbcast = (c.replicas me).rbcast := by
      unfold onSubmit
      split <;> rfl
    exact hI.opening_same hs rfl rfl (fun t ht => ht) rfl hI.contents hsub
      (hI.bcb_same rfl rfl rfl rfl rfl hrb rfl rfl)
  | fire hk _ =>
    have hs := hI.timers _ (List.mem_of_getElem? hk)
    exact hI.opening_same hs rfl rfl (fun t ht => List.mem_of_mem_eraseIdx ht) rfl hI.contents
      (hI.sound _ hs) (hI.bcb_same rfl rfl rfl rfl rfl rfl rfl rfl)
  | request hk _ =>
    have hs := hI.timers _ (List.mem_of_getElem? hk)
    have hS := hI.sound _ hs
    refine hI.opening_same hs rfl rfl (fun t ht => List.mem_of_mem_eraseIdx ht) rfl ?_ { hS with }
      (hI.bcb_same rfl rfl rfl rfl rfl rfl rfl rfl)
    exact ⟨hI.contents.created, hI.contents.fits, hI.contents.source,
      fun b hb => (hI.contents.uids b hb).trans (Nat.lt_succ_self _)⟩

/-! ## Steps -/

theorem handed_out_broadcast {index : ℕ} {packet : Packet VertexMessage} {message : VertexMessage}
    (hk : c.network[index]? = some packet) (hs : packet.dst ∈ c.started)
    (hret : ((c.replicas packet.dst).rbcast.onMessage cfg.pool packet.dst packet.src
      packet.msg).returned = some message) :
    (packet.msg.id, message) ∈ c.shared.broadcasts := by
  have hO := hI.opening_deliver hk hs rfl
  have hC := Broadcast.Correct.of_reachable List.nodup_range hO.bcb
  have hmem : (packet.dst, packet.msg.id, message) ∈ (c.deliver cfg index packet).returned := by
    unfold System.deliver Broadcast.entries
    rw [hret]
    exact List.mem_cons_self
  exact (((hC.slot _ _).returned _).mp hmem).1

theorem handed_out {index : ℕ} {packet : Packet VertexMessage} {message : VertexMessage}
    (hk : c.network[index]? = some packet) (hs : packet.dst ∈ c.started)
    (hret : ((c.replicas packet.dst).rbcast.onMessage cfg.pool packet.dst packet.src
      packet.msg).returned = some message) :
    message.content ∈ c.shared.created ∧ message.Fits := by
  have hb := hI.handed_out_broadcast hk hs hret
  exact ⟨hI.contents.created _ hb, hI.contents.fits _ hb⟩

theorem onMessage_moves {index : ℕ} {drain : Hotstuff.Drain} {packet : Packet VertexMessage}
    (hk : c.network[index]? = some packet) (hs : packet.dst ∈ c.started)
    (h : onMessage (c.env cfg packet.dst drain) packet.src packet.msg (c.work packet.dst) =
      some w') :
    ∃ w, Begins cfg c (.deliver index drain) packet.dst (c.deliver cfg index packet) w ∧
      Moves cfg packet.dst w w' := by
  refine ⟨_, .deliver hk hs rfl, ?_⟩
  have hG := (hI.opening_deliver hk hs rfl).good
  unfold onMessage at h
  simp only at h
  split at h
  · cases h
    exact .refl
  · rename_i vertex hret
    obtain ⟨hmem, h0⟩ := hI.handed_out hk hs hret
    exact onGenesis_moves hG hmem h0 h
  · rename_i vertex hret
    obtain ⟨hmem, h0⟩ := hI.handed_out hk hs hret
    split at h
    · cases h
      exact .refl
    · exact onVertex_moves hG hmem h0 h

theorem onTimer_moves {index : ℕ} {drain : Hotstuff.Drain} {p : Pid} {id : TimerId}
    (hk : c.timers[index]? = some (p, id))
    (h : onTimer (c.env cfg p drain) id (c.work p) = some w') :
    ∃ w, Begins cfg c (.timer index drain) p { c with timers := c.timers.eraseIdx index } w ∧
      Moves cfg p w w' := by
  have hG := hI.good (hI.timers _ (List.mem_of_getElem? hk))
  unfold onTimer at h
  split at h
  · refine ⟨_, .request hk ‹_›, ?_⟩
    cases h
    split
    · exact .single (scheduleSubmit_move _ _ _)
    · exact .refl
  · refine ⟨_, .fire hk ‹_›, ?_⟩
    split at h
    · have hm := stopWaiting_move (c.work p) cfg p
      exact .head hm (tryAdvanceRound_moves (hG.move hm) h)
    · cases h
      exact .refl

/-- **A step begins and goes on with moves.** -/
theorem step (h : System.step cfg c a = some c') : ∃ me base w w',
    Begins cfg c a me base w ∧ Moves cfg me w w' ∧ c' = base.update me w' := by
  cases a with
  | start pid drain =>
    simp only [System.step, Option.ite_none_right_eq_some] at h
    obtain ⟨⟨hp, hs⟩, h⟩ := h
    cases h
    have hmem : genesis (c.env cfg pid drain) (c.work pid) ∈
        (setUp (c.env cfg pid drain) (c.work pid)).shared.created := by
      rw [setUp_created]
      exact List.mem_cons_self
    have hround : (genesis (c.env cfg pid drain) (c.work pid)).round = 0 := rfl
    have hm : Move cfg pid (setUp (c.env cfg pid drain) (c.work pid))
        (onStart (c.env cfg pid drain) (c.work pid)) :=
      @Move.send cfg pid _ _ (.genesis _) rfl rfl hmem hround rfl
    exact ⟨pid, _, _, _, .start hp hs, .single hm, rfl⟩
  | deliver index drain =>
    simp only [System.step] at h
    split at h
    · cases h
    · rename_i packet hk
      rw [Option.ite_none_right_eq_some] at h
      obtain ⟨hs, h⟩ := h
      obtain ⟨w', hw', h⟩ := Option.map_eq_some_iff.mp h
      obtain ⟨w, hb, hm⟩ := hI.onMessage_moves hk hs hw'
      exact ⟨_, _, w, w', hb, hm, h.symm⟩
  | submit index =>
    simp only [System.step] at h
    split at h
    · cases h
    · rename_i pid command hk
      rw [Option.ite_none_right_eq_some] at h
      obtain ⟨hs, h⟩ := h
      cases h
      exact ⟨pid, _, _, _, .submit hk hs, .refl, rfl⟩
  | timer index drain =>
    simp only [System.step] at h
    split at h
    · cases h
    · rename_i pid id hk
      obtain ⟨w', hw', h⟩ := Option.map_eq_some_iff.mp h
      obtain ⟨w, hb, hm⟩ := hI.onTimer_moves hk hw'
      exact ⟨_, _, w, w', hb, hm, h.symm⟩

end Invariant

theorem Invariant.of_reachable (h : c.Reachable cfg) : Invariant cfg c :=
  h.invariant (.init cfg) fun c a c' _ _ hI hs => by
    obtain ⟨me, base, w, w', hb, hm, rfl⟩ := hI.step hs
    exact (hI.opening hb).invariant hm

theorem Invariant.begins_state (hI : Invariant cfg c) (hb : Begins cfg c a me base w) :
    me ∈ c.started ∧ (w.state.dag = (c.replicas me).dag ∧
        w.state.history = (c.replicas me).history ∧ w.state.buffer = (c.replicas me).buffer ∧
        w.state.round = (c.replicas me).round ∧
        w.state.lastOrderedRound = (c.replicas me).lastOrderedRound) ∨
      New cfg.procNum w.state := by
  cases hb with
  | start _ hs => exact .inr (hI.setUp_new hs _)
  | deliver _ hs _ => exact .inl ⟨hs, rfl, rfl, rfl, rfl, rfl⟩
  | submit hk hs =>
    refine .inl ⟨hs, ?_⟩
    simp only
    unfold onSubmit
    split <;> exact ⟨rfl, rfl, rfl, rfl, rfl⟩
  | fire hk _ => exact .inl ⟨hI.timers _ (List.mem_of_getElem? hk), rfl, rfl, rfl, rfl, rfl⟩
  | request hk _ => exact .inl ⟨hI.timers _ (List.mem_of_getElem? hk), rfl, rfl, rfl, rfl, rfl⟩

theorem Invariant.begins_bound (hI : Invariant cfg c) (hb : Begins cfg c a me base w) :
    w.state.dag.gcOffset = (c.replicas me).dag.gcOffset ∧
      w.state.history = (c.replicas me).history := by
  cases hb with
  | start _ hs =>
    have hnew := hI.setUp_new hs ‹_›
    rw [hnew.dag, hnew.history, hI.idle me hs]
    exact ⟨rfl, rfl⟩
  | submit =>
    simp only
    unfold onSubmit
    split <;> exact ⟨rfl, rfl⟩
  | _ => exact ⟨rfl, rfl⟩

theorem begins_created (hb : Begins cfg c a me base w) :
    c.shared.created ⊆ w.shared.created := by
  cases hb with
  | start =>
    rw [setUp_created]
    exact List.subset_cons_self _ _
  | _ => exact List.Subset.refl _

theorem Invariant.begins_base (hI : Invariant cfg c) (hb : Begins cfg c a me base w) :
    base.replicas = c.replicas ∧ ∀ p, p ∈ base.started ↔ p = me ∨ p ∈ c.started := by
  have hme : me ∈ base.started := (hI.opening hb).me_mem
  have hiff : base.started = c.started →
      ∀ p, p ∈ base.started ↔ p = me ∨ p ∈ c.started := fun heq p =>
    ⟨fun hp => .inr (heq ▸ hp), fun hp => hp.elim (fun hp => hp ▸ hme) fun hp => heq ▸ hp⟩
  cases hb with
  | start => exact ⟨rfl, fun p => List.mem_cons⟩
  | deliver => exact ⟨rfl, hiff rfl⟩
  | submit => exact ⟨rfl, hiff rfl⟩
  | fire => exact ⟨rfl, hiff rfl⟩
  | request => exact ⟨rfl, hiff rfl⟩

/-- **The rule for the invariants of single replicas**: it is enough to check the moves. -/
theorem Invariant.replicas {P : Pid → List Vertex → Bullshark → Prop}
    (hmono : ∀ {p created created' s}, created ⊆ created' → P p created s → P p created' s)
    (hcongr : ∀ {p created s s'}, s'.dag = s.dag → s'.history = s.history →
      s'.buffer = s.buffer → s'.round = s.round → P p created s → P p created s')
    (hnew : ∀ {p created s}, New cfg.procNum s → P p created s)
    (hmove : ∀ {p w w'}, Good cfg p w → Move cfg p w w' → P p w.shared.created w.state →
      P p w'.shared.created w'.state)
    (h : c.Reachable cfg) : ∀ p ∈ c.started, P p c.shared.created (c.replicas p) := by
  refine h.invariant (I := fun c => ∀ p ∈ c.started, P p c.shared.created (c.replicas p))
    (List.forall_mem_nil _) fun c a c' hr _ ih hs => ?_
  have hI := Invariant.of_reachable hr
  obtain ⟨me, base, w, w', hb, hm, rfl⟩ := hI.step hs
  have hO := hI.opening hb
  have hbegin : P me w.shared.created w.state := by
    rcases hI.begins_state hb with ⟨hme, hd, hh, hbuf, hround, -⟩ | hN
    · exact hmono (begins_created hb) (hcongr hd hh hbuf hround (ih me hme))
    · exact hnew hN
  have hend : P me w'.shared.created w'.state := by
    clear hs
    induction hm with
    | refl => exact hbegin
    | tail hms hmv ih => exact hmove (hO.good.moves hms) hmv ih
  obtain ⟨hreplicas, hstarted⟩ := hI.begins_base hb
  intro p hp
  unfold System.update
  simp only
  by_cases hpm : p = me
  · subst hpm
    rw [Function.update_self]
    exact hend
  · rw [Function.update_of_ne hpm, hreplicas]
    have hp := ((hstarted p).mp hp).resolve_left hpm
    exact hmono (List.Subset.trans (begins_created hb) hm.created) (ih p hp)

end

end Blsmr.Bullshark
