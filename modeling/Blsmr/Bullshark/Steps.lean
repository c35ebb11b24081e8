import Blsmr.Bullshark.Panics

/-!
# What an action makes a replica do

An action makes one replica do one thing (`Does`): it starts, a handed out vertex is
handled, the round timer fires, or nothing happens to its DAG and its buffer. The other
replicas stay as they are (`Invariant.does`).
-/

namespace Blsmr.Bullshark

open Blsmr.Transition Blsmr.Graph RoundBasedDAG
open Broadcast (Packet)

/-- What an action makes the consistent broadcast of a replica hand out. -/
def System.handsOut (cfg : Config) (c : System) : Action → Option (Pid × VertexMessage)
  | .deliver index _ => (c.network[index]?).bind fun packet =>
    (c.handed cfg packet).map fun message => (packet.dst, message)
  | _ => none

/-- Nothing has happened to the DAG, the buffer and what has been noted down. -/
structure Still (s s' : Bullshark) : Prop where
  dag : s'.dag = s.dag
  buffer : s'.buffer = s.buffer
  round : s'.round = s.round
  wait : s'.wait = s.wait
  timer : s'.timer = s.timer
  history : s'.history = s.history

/-- **What an action makes a replica do**, on its own state `s`. The vertex that is handed
out, and the vertices of the replica, have been created. -/
inductive Does (cfg : Config) (p : Pid) (s : Bullshark) :
    Option (Pid × VertexMessage) → Work → Prop
  | start {w' : Work} (hnew : New cfg.procNum w'.state) (hround : w'.state.round = 0)
      (htimer : w'.state.timer = 0) : Does cfg p s none w'
  | idle {w' : Work} (hstill : Still s w'.state) : Does cfg p s none w'
  | timeout {env : Env} {w w' : Work} (hcfg : env.cfg = cfg) (hme : env.me = p)
      (hG : Good cfg p w) (hstate : w.state = { s with wait := false })
      (h : tryAdvanceRound env w = some w') : Does cfg p s none w'
  | genesis {env : Env} {w w' : Work} {vertex : Vertex} (hcfg : env.cfg = cfg) (hme : env.me = p)
      (hG : Good cfg p w) (hstill : Still s w.state) (hmem : vertex ∈ w.shared.created)
      (h0 : vertex.round = 0) (h : onGenesis env vertex w = some w') :
      Does cfg p s (some (p, .genesis vertex)) w'
  | vertex {env : Env} {w w' : Work} {vertex : Vertex} (hcfg : env.cfg = cfg) (hme : env.me = p)
      (hG : Good cfg p w) (hstill : Still s w.state) (hmem : vertex ∈ w.shared.created)
      (h0 : vertex.round ≠ 0) (h : onVertex env vertex w = some w') :
      Does cfg p s (some (p, .vertex vertex)) w'

section

variable {cfg : Config} {c c' : System} {a : Action}

theorem Still.refl (s : Bullshark) : Still s s := ⟨rfl, rfl, rfl, rfl, rfl, rfl⟩

theorem Does.out_eq {p q : Pid} {s : Bullshark} {out : Option (Pid × VertexMessage)} {w' : Work}
    {message : VertexMessage} (hd : Does cfg p s out w') (hout : out = some (q, message)) :
    p = q := by
  subst hout
  cases hd <;> rfl

theorem Invariant.does_deliver (hI : Invariant cfg c) {index : ℕ} {drain : Hotstuff.Drain}
    {packet : Packet VertexMessage} {w' : Work} (hk : c.network[index]? = some packet)
    (hs : packet.dst ∈ c.started)
    (h : onMessage (c.env cfg packet.dst drain) packet.src packet.msg (c.work packet.dst) =
      some w') :
    Does cfg packet.dst (c.replicas packet.dst) (c.handsOut cfg (.deliver index drain)) w' := by
  have hG := (hI.opening_deliver hk hs rfl).good
  have hout : c.handsOut cfg (.deliver index drain) =
      (c.handed cfg packet).map fun message => (packet.dst, message) := by
    have hnext : c.handsOut cfg (.deliver index drain) = (c.network[index]?).bind fun packet =>
        (c.handed cfg packet).map fun message => (packet.dst, message) := rfl
    rw [hnext, hk, Option.bind_some]
  rw [onMessage_eq _ _ _ _ _ rfl] at h
  cases hret : c.handed cfg packet with
  | none =>
    have hret' : ((c.work packet.dst).state.rbcast.onMessage (c.env cfg packet.dst drain).cfg.pool
        (c.env cfg packet.dst drain).me packet.src packet.msg).returned = none := hret
    rw [hret'] at h
    rw [hout, hret]
    cases h
    exact .idle ⟨rfl, rfl, rfl, rfl, rfl, rfl⟩
  | some message =>
    have hret' : ((c.work packet.dst).state.rbcast.onMessage (c.env cfg packet.dst drain).cfg.pool
        (c.env cfg packet.dst drain).me packet.src packet.msg).returned = some message := hret
    rw [hret'] at h
    rw [hout, hret]
    obtain ⟨hmem, hfits⟩ := hI.handed_out hk hs hret
    cases message with
    | genesis vertex => exact .genesis rfl rfl hG ⟨rfl, rfl, rfl, rfl, rfl, rfl⟩ hmem hfits h
    | vertex vertex =>
      simp only at h
      rw [if_neg (by rw [Bool.not_eq_true]; exact hI.not_bad hk hs hret)] at h
      exact .vertex rfl rfl hG ⟨rfl, rfl, rfl, rfl, rfl, rfl⟩ hmem hfits h

theorem Invariant.does_timer (hI : Invariant cfg c) {index : ℕ} {drain : Hotstuff.Drain}
    {p : Pid} {id : TimerId} {w' : Work} (hk : c.timers[index]? = some (p, id))
    (h : onTimer (c.env cfg p drain) id (c.work p) = some w') :
    Does cfg p (c.replicas p) none w' := by
  have hG := hI.good (hI.timers _ (List.mem_of_getElem? hk))
  unfold onTimer at h
  split at h
  · cases h
    split <;> exact .idle ⟨rfl, rfl, rfl, rfl, rfl, rfl⟩
  · split at h
    · have hm := stopWaiting_move (c.work p) cfg p
      exact .timeout rfl rfl (hG.move hm) rfl h
    · cases h
      exact .idle (.refl _)

theorem System.update_replicas {base : System} (hbase : base.replicas = c.replicas) (p : Pid)
    (w : Work) : (base.update p w).replicas p = w.state ∧
      ∀ q, q ≠ p → (base.update p w).replicas q = c.replicas q :=
  ⟨Function.update_self _ _ _, fun _ hq => (Function.update_of_ne hq _ _).trans (hbase ▸ rfl)⟩

/-- **What a step does**: one replica does something. -/
theorem Invariant.does (hI : Invariant cfg c) (h : System.step cfg c a = some c') :
    ∃ p w', (c'.replicas p = w'.state ∧ ∀ q, q ≠ p → c'.replicas q = c.replicas q) ∧
      Does cfg p (c.replicas p) (c.handsOut cfg a) w' := by
  cases a with
  | start pid drain =>
    simp only [System.step, Option.ite_none_right_eq_some] at h
    obtain ⟨⟨hp, hs⟩, h⟩ := h
    cases h
    have hnew := hI.setUp_new hs drain
    obtain ⟨timer, hstate⟩ := setUp_state (c.env cfg pid drain) (c.work pid)
    have hidle : (c.work pid).state = Bullshark.default := hI.idle pid hs
    rw [hidle] at hstate
    have hreplicas : ({ c with started := pid :: c.started } : System).replicas = c.replicas := rfl
    refine ⟨pid, _, System.update_replicas hreplicas _ _,
      .start ⟨hnew.procNum, hnew.dag, hnew.buffer, hnew.lastOrderedRound, hnew.orderedAnchors,
        hnew.history⟩ ?_ ?_⟩
    · exact (congrArg Bullshark.round hstate).trans rfl
    · exact (congrArg Bullshark.timer hstate).trans rfl
  | deliver index drain =>
    simp only [System.step] at h
    split at h
    · cases h
    · rename_i packet hk
      rw [Option.ite_none_right_eq_some] at h
      obtain ⟨hs, h⟩ := h
      obtain ⟨w', hw', rfl⟩ := Option.map_eq_some_iff.mp h
      exact ⟨packet.dst, w', System.update_replicas rfl _ _, hI.does_deliver hk hs hw'⟩
  | submit index =>
    simp only [System.step] at h
    split at h
    · cases h
    · rename_i pid command hk
      rw [Option.ite_none_right_eq_some] at h
      obtain ⟨hs, h⟩ := h
      cases h
      refine ⟨pid, { c.work pid with state := onSubmit command (c.replicas pid) },
        ⟨Function.update_self _ _ _, fun q hq => Function.update_of_ne hq _ _⟩, .idle ?_⟩
      unfold onSubmit
      split <;> exact ⟨rfl, rfl, rfl, rfl, rfl, rfl⟩
  | timer index drain =>
    simp only [System.step] at h
    split at h
    · cases h
    · rename_i pid id hk
      obtain ⟨w', hw', rfl⟩ := Option.map_eq_some_iff.mp h
      exact ⟨pid, w', System.update_replicas rfl _ _, hI.does_timer hk hw'⟩

end

/-! ## Runs that end with a vertex -/

/-- After the phases the oldest of these messages hands out a vertex, and the check holds
then. -/
def handing (cfg : Config) (phases : List Phase) (which : Packet VertexMessage → Bool)
    (check : Pid → Vertex → System → Bool) : Bool :=
  (run cfg phases System.init).any fun c => (oldest which c.network).any fun index =>
    (c.handsOut cfg (.deliver index inOrder)).any fun
      | (p, .vertex v) => (System.step cfg c (.deliver index inOrder)).any (check p v)
      | (_, .genesis _) => false

theorem of_handing {cfg : Config} {phases : List Phase} {which : Packet VertexMessage → Bool}
    {check : Pid → Vertex → System → Bool} (h : handing cfg phases which check = true) :
    ∃ c c' : System, c.Reachable cfg ∧ ∃ index p v,
      System.step cfg c (.deliver index inOrder) = some c' ∧
      c.handsOut cfg (.deliver index inOrder) = some (p, .vertex v) ∧ check p v c' = true := by
  obtain ⟨c, hc, h⟩ := (Option.any_eq_true _ _).mp h
  obtain ⟨index, -, h⟩ := (Option.any_eq_true _ _).mp h
  obtain ⟨⟨p, message⟩, hout, h⟩ := (Option.any_eq_true _ _).mp h
  cases message with
  | genesis v => cases h
  | vertex v =>
    obtain ⟨c', hs, h⟩ := (Option.any_eq_true _ _).mp h
    exact ⟨c, c', reachable_run .init hc, index, p, v, hs, hout, h⟩

end Blsmr.Bullshark
