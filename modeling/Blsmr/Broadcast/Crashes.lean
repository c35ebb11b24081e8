import Blsmr.Broadcast.Delivery

/-!
# Processes that crash

A process that has crashed takes no more messages, so what is in flight to it stays there.
The broadcaster needs the signatures of `quorumSize` processes, its own among them, and the
certificate goes to all processes in one step. When nothing is in flight to the processes
that are left, each message has been returned by all of them or by nobody, and by all if its
broadcaster is left and enough others are (`all_or_none`).
-/

namespace Blsmr.Broadcast

open Blsmr.Transition ByzantineConsistentBroadcast

variable {α : Type} {cfg : Config} {c : System α} {live : List Pid}

/-- Nothing is in flight to the processes that are left. -/
def System.QuietFor (c : System α) (live : List Pid) : Prop :=
  ∀ packet ∈ c.network, packet.dst ∉ live

theorem System.QuietFor.delivered (hq : c.QuietFor live) {packet : Packet α}
    (hs : packet ∈ c.sent) (hd : packet.dst ∈ live) : packet ∈ c.delivered :=
  (List.mem_append.mp hs).resolve_left fun hin => hq packet hin hd

theorem Sending.initiated (hS : Sending cfg c) (hq : c.QuietFor live) (hsub : live ⊆ cfg.pool)
    {b : MessageId × α} (hb : b ∈ c.broadcasts) {p : Pid} (hp : p ∈ live) :
    c.Initiated p b.1 :=
  ⟨_, hq.delivered (hS.initiates b hb p (hsub hp)) hp, rfl, b.2, rfl⟩

/-- **A quorum of signatures reaches a live broadcaster**, if that many processes are left. -/
theorem Sending.quorum_reached (hS : Sending cfg c) (hq : c.QuietFor live)
    (hsub : live ⊆ cfg.pool) (hnd : live.Nodup)
    (hsize : quorumSize cfg.pool.length ≤ live.length) {b : MessageId × α}
    (hb : b ∈ c.broadcasts) (hsrc : b.1.processId ∈ live) :
    quorumSize cfg.pool.length ≤ c.signatures b.1 := by
  by_contra hlow
  have hsigned : live ⊆ c.delivered.filterMap (signer b.1) := by
    intro p hp
    have hsign := (hS.signs p b.1 (hS.initiated hq hsub hb hp)).resolve_left hlow
    exact List.mem_filterMap.mpr
      ⟨_, hq.delivered hsign hsrc, signer_eq_some.mpr ⟨rfl, rfl⟩⟩
  exact hlow (hsize.trans (hnd.subperm hsigned).length_le)

/-- **A message with its quorum is returned** by every live process. -/
theorem Correct.returned_of_quorum (hC : Correct cfg c) (hq : c.QuietFor live)
    (hsub : live ⊆ cfg.pool) {b : MessageId × α} (hb : b ∈ c.broadcasts)
    (hquorum : quorumSize cfg.pool.length ≤ c.signatures b.1) {p : Pid} (hp : p ∈ live) :
    (p, b) ∈ c.returned := by
  obtain ⟨packet, hin, rfl, hv⟩ := hC.sending.certifies b hb hquorum p (hsub hp)
  exact ((hC.slot packet.dst b.1).returned b.2).mpr
    ⟨hb, ⟨packet, hq.delivered hin hp, rfl, hv⟩, .inr (hC.sending.initiated hq hsub hb hp)⟩

/-- **All or none.** Let processes that follow the protocol crash at any moments, and `live`
be those that are left. When nothing is in flight to them, every message broadcast has been
returned by all of them or by no process at all; and with `quorumSize` of them left they have
returned every message that one of them broadcast. -/
theorem all_or_none (pool live : List Pid) (hpool : pool.Nodup) (hsub : live ⊆ pool)
    (hnd : live.Nodup) (c : System α) (h : System.Reachable ⟨pool, []⟩ c)
    (hquiet : ∀ packet ∈ c.network, packet.dst ∉ live) :
    (∀ b ∈ c.broadcasts, (∀ p ∈ live, (p, b) ∈ c.returned) ∨ ∀ p, (p, b) ∉ c.returned) ∧
    (quorumSize pool.length ≤ live.length → ∀ b ∈ c.broadcasts, b.1.processId ∈ live →
      ∀ p ∈ live, (p, b) ∈ c.returned) := by
  have hC := Correct.of_reachable hpool h
  refine ⟨fun b hb => ?_, fun hsize b hb hsrc p hp => ?_⟩
  · by_cases hret : ∃ p, (p, b) ∈ c.returned
    · obtain ⟨p, hp⟩ := hret
      obtain ⟨-, hcert, -⟩ := ((hC.slot p b.1).returned b.2).mp hp
      have hquorum := (hC.sending.certified_spec hcert).1
      exact .inl fun q hq => hC.returned_of_quorum hquiet hsub hb hquorum hq
    · exact .inr fun p hp => hret ⟨p, hp⟩
  · have hquorum := hC.sending.quorum_reached hquiet hsub hnd hsize hb hsrc
    exact hC.returned_of_quorum hquiet hsub hb hquorum hp

/-- Four processes, of which process 3 crashes before it starts. The number that process 0
broadcasts is returned by the other three. -/
theorem all_or_none_four :
    ∃ c : System ℕ, System.Reachable ⟨[0, 1, 2, 3], []⟩ c ∧
      (∀ packet ∈ c.network, packet.dst ∉ [0, 1, 2]) ∧ c.broadcasts = [(⟨0, 7⟩, 5)] ∧
      ∀ p ∈ [0, 1, 2], (p, ⟨0, 7⟩, 5) ∈ c.returned := by
  let run : List (Action ℕ) := [.start 0, .start 1, .start 2, .broadcast 0 7 5,
    .deliver 0, .deliver 1, .deliver 2, .deliver 0, .deliver 0, .deliver 0,
    .deliver 0, .deliver 0, .deliver 0]
  have hrun : (System.execute ⟨[0, 1, 2, 3], []⟩ run).any (fun c =>
      c.network.all (fun packet => decide (packet.dst ∉ [0, 1, 2])) &&
        decide (c.broadcasts = [(⟨0, 7⟩, 5)])) = true := by decide +kernel
  obtain ⟨c, hc, hd⟩ := (Option.any_eq_true _ _).mp hrun
  rw [Bool.and_eq_true, List.all_eq_true] at hd
  obtain ⟨hall, hd⟩ := hd
  have hquiet := fun packet hp => of_decide_eq_true (hall packet hp)
  have hb := of_decide_eq_true hd
  have hreach := System.reachable_execute hc
  have hdone := all_or_none [0, 1, 2, 3] [0, 1, 2] (by decide) (by decide) (by decide) c hreach
    hquiet
  exact ⟨c, hreach, hquiet, hb, fun p hp =>
    hdone.2 (by decide) (⟨0, 7⟩, 5) (hb ▸ List.mem_cons_self) (by decide) p hp⟩

end Blsmr.Broadcast
