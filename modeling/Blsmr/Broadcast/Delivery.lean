import Blsmr.Broadcast.Cases

/-!
# Correct processes deliver every message exactly once

Without faulty processes, a process gets one `Initiate` and at most one
`Certificate` for an identifier. What it knows of the identifier follows from which
of the two it has received (`Slot`): a process between the two stores the message or
the certificate, a process past both has handed the message out. The broadcaster
has counted the signatures delivered to it until its certificate comes, and every
process signs unless a certificate has been sent, so the quorum is reached.
-/

namespace Blsmr.Broadcast

open Blsmr.Transition ByzantineConsistentBroadcast

variable {α : Type} {cfg : Config} {c c' : System α} {packet : Packet α} {out : Outcome α}

/-! ## What has been delivered -/

/-- The `Initiate` of the message has reached process `p`. -/
def System.Initiated (c : System α) (p : Pid) (id : MessageId) : Prop :=
  ∃ packet ∈ c.delivered, packet.dst = p ∧ ∃ message, packet.msg = .initiate id message

/-- A `Certificate` for the message has reached process `p`. -/
def System.Certified (c : System α) (p : Pid) (id : MessageId) : Prop :=
  ∃ packet ∈ c.delivered, packet.dst = p ∧ ∃ validators, packet.msg = .certificate validators id

/-- How many signatures for the message have been delivered. -/
def System.signatures (c : System α) (id : MessageId) : ℕ :=
  (c.delivered.filterMap (signer id)).length

theorem Delivered.initiated_iff (hs : Delivered cfg c packet out c') {p : Pid} {id : MessageId} :
    c'.Initiated p id ↔
      packet.dst = p ∧ (∃ message, packet.msg = .initiate id message) ∨ c.Initiated p id := by
  unfold System.Initiated
  rw [hs.delivered, List.exists_mem_cons_iff]

theorem Delivered.certified_iff (hs : Delivered cfg c packet out c') {p : Pid} {id : MessageId} :
    c'.Certified p id ↔
      packet.dst = p ∧ (∃ validators, packet.msg = .certificate validators id) ∨
        c.Certified p id := by
  unfold System.Certified
  rw [hs.delivered, List.exists_mem_cons_iff]

section

variable {p : Pid} {id : MessageId}

theorem Delivered.initiated_of_ne (hs : Delivered cfg c packet out c')
    (hm : ∀ message, packet.msg ≠ .initiate id message) :
    c'.Initiated p id ↔ c.Initiated p id := by
  rw [hs.initiated_iff]
  exact or_iff_right fun ⟨_, message, h⟩ => hm message h

theorem Delivered.certified_of_ne (hs : Delivered cfg c packet out c')
    (hm : ∀ validators, packet.msg ≠ .certificate validators id) :
    c'.Certified p id ↔ c.Certified p id := by
  rw [hs.certified_iff]
  exact or_iff_right fun ⟨_, validators, h⟩ => hm validators h

theorem initiated_congr (hd : c'.delivered = c.delivered) :
    c'.Initiated p id ↔ c.Initiated p id := by
  unfold System.Initiated
  rw [hd]

theorem certified_congr (hd : c'.delivered = c.delivered) :
    c'.Certified p id ↔ c.Certified p id := by
  unfold System.Certified
  rw [hd]

theorem signatures_congr (hd : c'.delivered = c.delivered) :
    c'.signatures id = c.signatures id := by
  unfold System.signatures
  rw [hd]

end

theorem signer_eq_some {id : MessageId} {p : Pid} :
    signer id packet = some p ↔ packet.msg = .signature id ∧ packet.src = p := by
  obtain ⟨src, dst, msg⟩ := packet
  cases msg <;> simp [signer]

theorem Delivered.signatures_of_eq (hs : Delivered cfg c packet out c') {id : MessageId}
    (hm : packet.msg = .signature id) : c'.signatures id = c.signatures id + 1 := by
  unfold System.signatures
  rw [hs.delivered, List.filterMap_cons_some (signer_eq_some.mpr ⟨hm, rfl⟩), List.length_cons]

theorem Delivered.signatures_of_ne (hs : Delivered cfg c packet out c') {id : MessageId}
    (hm : packet.msg ≠ .signature id) : c'.signatures id = c.signatures id := by
  unfold System.signatures
  rw [hs.delivered, List.filterMap_cons_none]
  exact Option.eq_none_iff_forall_ne_some.mpr fun p h => hm (signer_eq_some.mp h).1

theorem Delivered.signatures_le (hs : Delivered cfg c packet out c') (id : MessageId) :
    c.signatures id ≤ c'.signatures id := by
  by_cases hm : packet.msg = .signature id
  · rw [hs.signatures_of_eq hm]
    exact Nat.le_succ _
  · rw [hs.signatures_of_ne hm]

theorem Delivered.state_dst (hs : Delivered cfg c packet out c') :
    c'.processes packet.dst = out.state := by
  rw [hs.processes, Function.update_self]

/-! ## What is sent -/

/-- The kind of a message, its identifier, and for whom or from whom it is. -/
def key (packet : Packet α) : ℕ × MessageId × Pid :=
  match packet.msg with
  | .initiate id _ => (0, id, packet.dst)
  | .signature id => (1, id, packet.src)
  | .certificate _ id => (2, id, packet.dst)

section

variable {id : MessageId} {p : Pid}

theorem key_initiate :
    key packet = (0, id, p) ↔ (∃ message, packet.msg = .initiate id message) ∧ packet.dst = p := by
  obtain ⟨src, dst, msg⟩ := packet
  cases msg <;> simp [key]

theorem key_signature : key packet = (1, id, p) ↔ packet.msg = .signature id ∧ packet.src = p := by
  obtain ⟨src, dst, msg⟩ := packet
  cases msg <;> simp [key]

theorem key_certificate : key packet = (2, id, p) ↔
    (∃ validators, packet.msg = .certificate validators id) ∧ packet.dst = p := by
  obtain ⟨src, dst, msg⟩ := packet
  cases msg <;> simp [key]

end

theorem keys_broadcast (pool : List Pid) (p : Pid) (msg : BCBMessage α) :
    (packets p (ByzantineConsistentBroadcast.broadcast pool msg)).map key =
      pool.map fun q => key ⟨p, q, msg⟩ := by
  simp [packets, ByzantineConsistentBroadcast.broadcast]

/-- Without faulty processes, every message is sent for a reason and only once. -/
structure Sending (cfg : Config) (c : System α) : Prop where
  started : c.started ⊆ cfg.pool
  procNum : ∀ p ∈ c.started, (c.processes p).procNum = cfg.pool.length
  used : ∀ b ∈ c.broadcasts, b.1.messageId ∈ c.uids ∧ b.1.processId ∈ c.started
  ids_nodup : (c.broadcasts.map Prod.fst).Nodup
  once : (c.sent.map key).Nodup
  initiate : ∀ packet ∈ c.sent, ∀ id message, packet.msg = .initiate id message →
    (id, message) ∈ c.broadcasts ∧ packet.src = id.processId ∧ packet.dst ∈ cfg.pool
  initiates : ∀ b ∈ c.broadcasts, ∀ p ∈ cfg.pool,
    (⟨b.1.processId, p, .initiate b.1 b.2⟩ : Packet α) ∈ c.sent
  signature : ∀ packet ∈ c.sent, ∀ id, packet.msg = .signature id →
    packet.dst = id.processId ∧ c.Initiated packet.src id
  signs : ∀ p id, c.Initiated p id → quorumSize cfg.pool.length ≤ c.signatures id ∨
    (⟨p, id.processId, .signature id⟩ : Packet α) ∈ c.sent
  certificate : ∀ packet ∈ c.sent, ∀ validators id, packet.msg = .certificate validators id →
    quorumSize cfg.pool.length ≤ c.signatures id ∧ packet.dst ∈ cfg.pool ∧
      ∃ message, (id, message) ∈ c.broadcasts
  certifies : ∀ b ∈ c.broadcasts, quorumSize cfg.pool.length ≤ c.signatures b.1 →
    ∀ p ∈ cfg.pool, ∃ packet ∈ c.sent, packet.dst = p ∧
      ∃ validators, packet.msg = .certificate validators b.1

/-- What process `p` knows of an identifier, and whether it has handed the message out. -/
structure Slot (c : System α) (p : Pid) (id : MessageId) : Prop where
  stored : ∀ message count, (c.processes p).messages.lookup id = some (message, count) ↔
    (id, message) ∈ c.broadcasts ∧ ¬ c.Certified p id ∧
      (p = id.processId ∧ count = c.signatures id ∨
        p ≠ id.processId ∧ c.Initiated p id ∧ count = 0)
  waiting : id ∈ (c.processes p).waitingCertificates ↔
    p ≠ id.processId ∧ c.Certified p id ∧ ¬ c.Initiated p id
  returned : ∀ message, (p, id, message) ∈ c.returned ↔
    (id, message) ∈ c.broadcasts ∧ c.Certified p id ∧ (p = id.processId ∨ c.Initiated p id)

/-- **Correct processes between two steps.** -/
structure Correct (cfg : Config) (c : System α) : Prop where
  sending : Sending cfg c
  slot : ∀ p id, Slot c p id
  waiting_nodup : ∀ p, (c.processes p).waitingCertificates.Nodup
  returned_nodup : (c.returned.map fun r => (r.1, r.2.1)).Nodup

theorem mem_sent_of_network (h : packet ∈ c.network) : packet ∈ c.sent :=
  List.mem_append_left _ h

theorem mem_sent_of_delivered (h : packet ∈ c.delivered) : packet ∈ c.sent :=
  List.mem_append_right _ h

namespace Sending

theorem initiated_spec (hS : Sending cfg c) {p : Pid} {id : MessageId} (h : c.Initiated p id) :
    ∃ message, (id, message) ∈ c.broadcasts := by
  obtain ⟨pkt, hin, -, message, hm⟩ := h
  exact ⟨message, (hS.initiate pkt (mem_sent_of_delivered hin) id message hm).1⟩

theorem certified_spec (hS : Sending cfg c) {p : Pid} {id : MessageId} (h : c.Certified p id) :
    quorumSize cfg.pool.length ≤ c.signatures id ∧ ∃ message, (id, message) ∈ c.broadcasts := by
  obtain ⟨pkt, hin, -, validators, hm⟩ := h
  obtain ⟨hq, -, hb⟩ := hS.certificate pkt (mem_sent_of_delivered hin) validators id hm
  exact ⟨hq, hb⟩

theorem fresh (hS : Sending cfg c) (pid : Pid) {uid : ℕ} (hu : uid ∉ c.uids) :
    (∀ message, ((⟨pid, uid⟩ : MessageId), message) ∉ c.broadcasts) ∧
      (∀ p, ¬ c.Initiated p ⟨pid, uid⟩) ∧ (∀ p, ¬ c.Certified p ⟨pid, uid⟩) ∧
      c.signatures ⟨pid, uid⟩ = 0 := by
  have hb : ∀ message, ((⟨pid, uid⟩ : MessageId), message) ∉ c.broadcasts :=
    fun message h => hu (hS.used _ h).1
  have hi : ∀ p, ¬ c.Initiated p ⟨pid, uid⟩ := by
    intro p h
    obtain ⟨message, h⟩ := hS.initiated_spec h
    exact hb message h
  refine ⟨hb, hi, fun p h => ?_, ?_⟩
  · obtain ⟨-, message, h⟩ := hS.certified_spec h
    exact hb message h
  · refine List.length_eq_zero_iff.mpr (List.filterMap_eq_nil_iff.mpr fun pkt hin => ?_)
    refine Option.eq_none_iff_forall_ne_some.mpr fun p h => ?_
    obtain ⟨hm, rfl⟩ := signer_eq_some.mp h
    exact hi _ (hS.signature pkt (mem_sent_of_delivered hin) _ hm).2

theorem not_delivered (hS : Sending cfg c) (hin : packet ∈ c.network) {pkt : Packet α}
    (hdel : pkt ∈ c.delivered) : key pkt ≠ key packet := by
  have hnd := hS.once
  unfold System.sent at hnd
  rw [List.map_append] at hnd
  intro heq
  exact List.disjoint_of_nodup_append hnd (List.mem_map_of_mem hin)
    (heq ▸ List.mem_map_of_mem hdel)

theorem not_initiated (hS : Sending cfg c) (hin : packet ∈ c.network) {id : MessageId}
    {message : α} (hm : packet.msg = .initiate id message) : ¬ c.Initiated packet.dst id := by
  rintro ⟨pkt, hpkt, hdst, m, hm'⟩
  refine hS.not_delivered hin hpkt ?_
  rw [key_initiate.mpr ⟨⟨m, hm'⟩, hdst⟩, key_initiate.mpr ⟨⟨message, hm⟩, rfl⟩]

theorem not_certified (hS : Sending cfg c) (hin : packet ∈ c.network) {id : MessageId}
    {validators : ℕ} (hm : packet.msg = .certificate validators id) :
    ¬ c.Certified packet.dst id := by
  rintro ⟨pkt, hpkt, hdst, v, hv⟩
  refine hS.not_delivered hin hpkt ?_
  rw [key_certificate.mpr ⟨⟨v, hv⟩, hdst⟩, key_certificate.mpr ⟨⟨validators, hm⟩, rfl⟩]

theorem message_unique (hS : Sending cfg c) {id : MessageId} {m m' : α}
    (h : (id, m) ∈ c.broadcasts) (h' : (id, m') ∈ c.broadcasts) : m = m' :=
  congrArg Prod.snd (List.inj_on_of_nodup_map hS.ids_nodup h h' rfl)

end Sending

/-! ## Steps -/

theorem Slot.congr {p : Pid} {id : MessageId} (hs : Slot c p id)
    (hm : (c'.processes p).messages.lookup id = (c.processes p).messages.lookup id)
    (hw : id ∈ (c'.processes p).waitingCertificates ↔ id ∈ (c.processes p).waitingCertificates)
    (hb : ∀ m, (id, m) ∈ c'.broadcasts ↔ (id, m) ∈ c.broadcasts)
    (hi : c'.Initiated p id ↔ c.Initiated p id) (hc : c'.Certified p id ↔ c.Certified p id)
    (hg : p = id.processId → c'.signatures id = c.signatures id)
    (hr : ∀ m, (p, id, m) ∈ c'.returned ↔ (p, id, m) ∈ c.returned) : Slot c' p id := by
  refine ⟨fun m k => ?_, ?_, fun m => ?_⟩
  · rw [hm, hb, hi, hc, hs.stored]
    have hcount : (p = id.processId ∧ k = c'.signatures id) ↔
        (p = id.processId ∧ k = c.signatures id) :=
      and_congr_right fun hp => by rw [hg hp]
    rw [hcount]
  · rw [hw, hi, hc, hs.waiting]
  · rw [hr, hb, hi, hc, hs.returned]

/-- **A process starts.** -/
theorem Correct.start (hC : Correct cfg c) {pid : Pid} (hs : Started cfg c pid c') :
    Correct cfg c' := by
  have hS := hC.sending
  have hini : ∀ p id, c'.Initiated p id ↔ c.Initiated p id :=
    fun _ _ => initiated_congr hs.delivered
  have hcert : ∀ p id, c'.Certified p id ↔ c.Certified p id :=
    fun _ _ => certified_congr hs.delivered
  have hsig : ∀ id, c'.signatures id = c.signatures id := fun _ => signatures_congr hs.delivered
  refine ⟨⟨?_, fun q hq => ?_, fun b hb => ?_, ?_, ?_, ?_, ?_, ?_, ?_, ?_, ?_⟩,
    fun p id => (hC.slot p id).congr (by rw [hs.messages]) (by rw [hs.waiting])
      (fun m => by rw [hs.broadcasts]) (hini p id) (hcert p id) (fun _ => hsig id)
      (fun m => by rw [hs.returned]), fun p => ?_, ?_⟩
  · rw [hs.started]
    exact List.cons_subset.mpr ⟨hs.mem, hS.started⟩
  · rw [hs.procNum]
    split
    · rfl
    · rename_i hne
      rw [hs.started] at hq
      exact hS.procNum q ((List.mem_cons.mp hq).resolve_left hne)
  · rw [hs.broadcasts] at hb
    rw [hs.uids, hs.started]
    exact ⟨(hS.used b hb).1, List.mem_cons_of_mem _ (hS.used b hb).2⟩
  · rw [hs.broadcasts]
    exact hS.ids_nodup
  · rw [hs.sent]
    exact hS.once
  · rw [hs.sent, hs.broadcasts]
    exact hS.initiate
  · rw [hs.sent, hs.broadcasts]
    exact hS.initiates
  · simp only [hs.sent, hini]
    exact hS.signature
  · simp only [hs.sent, hini, hsig]
    exact hS.signs
  · simp only [hs.sent, hs.broadcasts, hsig]
    exact hS.certificate
  · simp only [hs.sent, hs.broadcasts, hsig]
    exact hS.certifies
  · rw [hs.waiting]
    exact hC.waiting_nodup p
  · rw [hs.returned]
    exact hC.returned_nodup

theorem quorumSize_pos (n : ℕ) : 0 < quorumSize n := Nat.succ_pos _

section

variable {pid : Pid} {uid : ℕ} {message : α}

theorem Announced.mem_sent (hs : Announced cfg c pid uid message c') {packet : Packet α} :
    packet ∈ c'.sent ↔ (packet.src = pid ∧ packet.dst ∈ cfg.pool ∧
      packet.msg = .initiate ⟨pid, uid⟩ message) ∨ packet ∈ c.sent := by
  rw [hs.sent, List.mem_append, mem_packets_broadcast]

theorem Announced.keys_nodup (hs : Announced cfg c pid uid message c') (hS : Sending cfg c)
    (hpool : cfg.pool.Nodup) : (c'.sent.map key).Nodup := by
  obtain ⟨hnb, -⟩ := hS.fresh pid hs.fresh
  rw [hs.sent, List.map_append, List.nodup_append]
  refine ⟨?_, hS.once, ?_⟩
  · rw [keys_broadcast]
    exact hpool.map fun a b h => by simpa [key] using h
  · rintro k hk k' hk' rfl
    obtain ⟨pkt, hpkt, rfl⟩ := List.mem_map.mp hk
    obtain ⟨pkt', hpkt', he⟩ := List.mem_map.mp hk'
    obtain ⟨-, -, hmsg⟩ := mem_packets_broadcast.mp hpkt
    rw [key_initiate.mpr ⟨⟨message, hmsg⟩, rfl⟩] at he
    obtain ⟨⟨m, hm⟩, -⟩ := key_initiate.mp he
    exact hnb m (hS.initiate pkt' hpkt' _ m hm).1

theorem Sending.announce (hS : Sending cfg c) (hpool : cfg.pool.Nodup)
    (hs : Announced cfg c pid uid message c') : Sending cfg c' := by
  obtain ⟨-, -, -, hns⟩ := hS.fresh pid hs.fresh
  have hini : ∀ p id, c'.Initiated p id ↔ c.Initiated p id :=
    fun _ _ => initiated_congr hs.delivered
  have hsig : ∀ id, c'.signatures id = c.signatures id := fun _ => signatures_congr hs.delivered
  refine ⟨by rw [hs.started]; exact hS.started, fun q hq => ?_, fun b hb => ?_, ?_,
    hs.keys_nodup hS hpool, fun packet hp i m hm => ?_, fun b hb p hp => ?_,
    fun packet hp i hm => ?_, fun p i hi => ?_, fun packet hp v i hm => ?_,
    fun b hb hq p hp => ?_⟩
  · rw [hs.started] at hq
    rw [hs.processes]
    by_cases hqp : q = pid
    · subst hqp
      rw [Function.update_self]
      exact hS.procNum q hq
    · rw [Function.update_of_ne hqp]
      exact hS.procNum q hq
  · rw [hs.uids, hs.started]
    rw [hs.broadcasts] at hb
    rcases List.mem_cons.mp hb with rfl | hb
    · exact ⟨List.mem_cons_self, hs.started_pid⟩
    · exact ⟨List.mem_cons_of_mem _ (hS.used b hb).1, (hS.used b hb).2⟩
  · rw [hs.broadcasts, List.map_cons, List.nodup_cons]
    refine ⟨fun h => ?_, hS.ids_nodup⟩
    obtain ⟨⟨i, m⟩, hb, rfl⟩ := List.mem_map.mp h
    exact (hS.fresh pid hs.fresh).1 m hb
  · rw [hs.broadcasts]
    rcases hs.mem_sent.mp hp with ⟨hsrc, hdst, hmsg⟩ | hp
    · rw [hmsg] at hm
      cases hm
      exact ⟨List.mem_cons_self, hsrc, hdst⟩
    · obtain ⟨h₁, h₂⟩ := hS.initiate packet hp i m hm
      exact ⟨List.mem_cons_of_mem _ h₁, h₂⟩
  · rw [hs.broadcasts] at hb
    rcases List.mem_cons.mp hb with rfl | hb
    · exact hs.mem_sent.mpr (.inl ⟨rfl, hp, rfl⟩)
    · exact hs.mem_sent.mpr (.inr (hS.initiates b hb p hp))
  · rcases hs.mem_sent.mp hp with ⟨-, -, hmsg⟩ | hp
    · rw [hmsg] at hm
      cases hm
    · rw [hini]
      exact hS.signature packet hp i hm
  · rw [hsig]
    exact (hS.signs p i ((hini p i).mp hi)).imp_right fun h => hs.mem_sent.mpr (.inr h)
  · rcases hs.mem_sent.mp hp with ⟨-, -, hmsg⟩ | hp
    · rw [hmsg] at hm
      cases hm
    · obtain ⟨h₁, h₂, m, h₃⟩ := hS.certificate packet hp v i hm
      rw [hsig, hs.broadcasts]
      exact ⟨h₁, h₂, m, List.mem_cons_of_mem _ h₃⟩
  · rw [hsig] at hq
    rw [hs.broadcasts] at hb
    rcases List.mem_cons.mp hb with rfl | hb
    · exact absurd hq (by rw [hns]; exact Nat.not_le.mpr (quorumSize_pos _))
    · obtain ⟨pkt, h₁, h₂⟩ := hS.certifies b hb hq p hp
      exact ⟨pkt, hs.mem_sent.mpr (.inr h₁), h₂⟩

theorem Announced.waiting (hs : Announced cfg c pid uid message c') (q : Pid) :
    (c'.processes q).waitingCertificates = (c.processes q).waitingCertificates := by
  rw [hs.processes]
  by_cases hq : q = pid
  · subst hq
    rw [Function.update_self]
  · rw [Function.update_of_ne hq]

theorem Slot.announced (hC : Correct cfg c) (hs : Announced cfg c pid uid message c') (q : Pid) :
    Slot c' q ⟨pid, uid⟩ := by
  obtain ⟨hnb, hni, hnc, hns⟩ := hC.sending.fresh pid hs.fresh
  have hini : c'.Initiated q ⟨pid, uid⟩ ↔ c.Initiated q ⟨pid, uid⟩ :=
    initiated_congr hs.delivered
  have hcert : c'.Certified q ⟨pid, uid⟩ ↔ c.Certified q ⟨pid, uid⟩ :=
    certified_congr hs.delivered
  refine ⟨fun m k => ?_, ?_, fun m => ?_⟩
  · rw [hini, hcert, signatures_congr hs.delivered, hs.broadcasts, hs.processes, hns]
    have hnew : ((⟨pid, uid⟩ : MessageId), m) ∈ (⟨pid, uid⟩, message) :: c.broadcasts ↔
        m = message := by
      rw [List.mem_cons, or_iff_left (hnb m)]
      simp
    rw [hnew]
    by_cases hq : q = pid
    · subst hq
      rw [Function.update_self, AList.lookup_insert]
      simp [hnc, eq_comm]
    · rw [Function.update_of_ne hq]
      refine iff_of_false (fun h => hnb m (((hC.slot q _).stored m k).mp h).1) ?_
      rintro ⟨-, -, ⟨h, -⟩ | ⟨-, h, -⟩⟩
      · exact hq h
      · exact hni q h
  · rw [hs.waiting, hini, hcert]
    exact (hC.slot q _).waiting
  · rw [hs.returned, hini, hcert]
    exact iff_of_false (fun h => hnb m (((hC.slot q _).returned m).mp h).1)
      fun h => hnc q h.2.1

theorem Slot.not_announced (hC : Correct cfg c) (hs : Announced cfg c pid uid message c') {q : Pid}
    {id : MessageId} (hid : id ≠ ⟨pid, uid⟩) : Slot c' q id := by
  refine (hC.slot q id).congr ?_ (by rw [hs.waiting]) (fun m => ?_)
    (initiated_congr hs.delivered) (certified_congr hs.delivered)
    (fun _ => signatures_congr hs.delivered) fun m => by rw [hs.returned]
  · rw [hs.processes]
    by_cases hq : q = pid
    · subst hq
      rw [Function.update_self]
      exact AList.lookup_insert_ne hid
    · rw [Function.update_of_ne hq]
  · rw [hs.broadcasts, List.mem_cons, Prod.mk.injEq]
    exact or_iff_right fun h => hid h.1

/-- **A process broadcasts.** -/
theorem Correct.announce (hC : Correct cfg c) (hpool : cfg.pool.Nodup)
    (hs : Announced cfg c pid uid message c') : Correct cfg c' where
  sending := hC.sending.announce hpool hs
  slot q id := by
    by_cases hid : id = ⟨pid, uid⟩
    · subst hid
      exact Slot.announced hC hs q
    · exact Slot.not_announced hC hs hid
  waiting_nodup q := by
    rw [hs.waiting]
    exact hC.waiting_nodup q
  returned_nodup := by
    rw [hs.returned]
    exact hC.returned_nodup

end

theorem Handled.sends_cases {pool : List Pid} {me sender : Pid}
    {self : ByzantineConsistentBroadcast α} {msg : BCBMessage α}
    (h : Handled pool me sender self msg out) : out.sends = [] ∨
      (∃ id m, msg = .initiate id m ∧ out.sends = [(sender, .signature id)]) ∨
      ∃ id m k, msg = .signature id ∧ self.messages.lookup id = some (m, k) ∧
        k + 1 = quorumSize self.procNum ∧
        out.sends = ByzantineConsistentBroadcast.broadcast pool (.certificate self.procNum id) := by
  cases h with
  | own id m => exact .inr (.inl ⟨id, m, rfl, rfl⟩)
  | stored id m => exact .inr (.inl ⟨id, m, rfl, rfl⟩)
  | certified id m k hm hq => exact .inr (.inr ⟨id, m, k, rfl, hm, hq, rfl⟩)
  | _ => exact .inl rfl

theorem Handled.signs {pool : List Pid} {me sender : Pid}
    {self : ByzantineConsistentBroadcast α} {id : MessageId} {m : α}
    (h : Handled pool me sender self (.initiate id m) out) :
    (sender, .signature id) ∈ out.sends ∨ id.processId ≠ me ∧ id ∈ self.waitingCertificates := by
  cases h with
  | late _ _ hid hw => exact .inr ⟨hid, hw⟩
  | own => exact .inl List.mem_cons_self
  | stored => exact .inl List.mem_cons_self

theorem Handled.certifies {pool : List Pid} {me sender : Pid}
    {self : ByzantineConsistentBroadcast α} {id : MessageId} {m : α} {k : ℕ}
    (h : Handled pool me sender self (.signature id) out)
    (hm : self.messages.lookup id = some (m, k)) (hq : k + 1 = quorumSize self.procNum) :
    out.sends = ByzantineConsistentBroadcast.broadcast pool (.certificate self.procNum id) := by
  cases h with
  | ignored _ hm' =>
    rw [hm] at hm'
    cases hm'
  | counted _ _ _ hm' hq' =>
    rw [hm, Option.some.injEq, Prod.mk.injEq] at hm'
    exact absurd (hm'.2 ▸ hq) hq'
  | certified => rfl

section

variable {pool : List Pid} {me sender q : Pid} {self : ByzantineConsistentBroadcast α}
  {msg : BCBMessage α} {id : MessageId}

theorem Handled.not_initiate (h : Handled pool me sender self msg out) {m : α} :
    (q, .initiate id m) ∉ out.sends := by
  intro hin
  rcases h.sends_cases with hs | ⟨_, _, -, hs⟩ | ⟨_, _, _, -, -, -, hs⟩ <;> rw [hs] at hin
  · cases hin
  · cases (Prod.mk.inj (List.mem_singleton.mp hin)).2
  · obtain ⟨_, -, he⟩ := List.mem_map.mp hin
    cases he

theorem Handled.sends_signature (h : Handled pool me sender self msg out)
    (hin : (q, .signature id) ∈ out.sends) : q = sender ∧ ∃ m, msg = .initiate id m := by
  rcases h.sends_cases with hs | ⟨_, m, hm, hs⟩ | ⟨_, _, _, -, -, -, hs⟩ <;> rw [hs] at hin
  · cases hin
  · obtain ⟨hq, hid⟩ := Prod.mk.inj (List.mem_singleton.mp hin)
    obtain rfl := BCBMessage.signature.inj hid
    exact ⟨hq, m, hm⟩
  · obtain ⟨_, -, he⟩ := List.mem_map.mp hin
    cases he

theorem Handled.sends_certificate (h : Handled pool me sender self msg out) {validators : ℕ}
    (hin : (q, .certificate validators id) ∈ out.sends) : q ∈ pool ∧ msg = .signature id ∧
      ∃ m k, self.messages.lookup id = some (m, k) ∧ k + 1 = quorumSize self.procNum := by
  rcases h.sends_cases with hs | ⟨_, _, -, hs⟩ | ⟨_, m, k, hm, hl, hk, hs⟩ <;> rw [hs] at hin
  · cases hin
  · cases (Prod.mk.inj (List.mem_singleton.mp hin)).2
  · obtain ⟨_, hq, he⟩ := List.mem_map.mp hin
    cases he
    exact ⟨hq, hm, m, k, hl, hk⟩

end

theorem Delivered.mem_sent (hs : Delivered cfg c packet out c') {pkt : Packet α} :
    pkt ∈ c'.sent ↔
      (pkt.src = packet.dst ∧ (pkt.dst, pkt.msg) ∈ out.sends) ∨ pkt ∈ c.sent := by
  rw [hs.perm.mem_iff, List.mem_append, mem_packets]

section

variable (hS : Sending cfg c) (hslot : ∀ p id, Slot c p id) (hs : Delivered cfg c packet out c')

include hS hslot hs

theorem Delivered.completes {id : MessageId} (hm : packet.msg = .signature id) {m : α} {k : ℕ}
    (hl : (c.processes packet.dst).messages.lookup id = some (m, k)) :
    (id, m) ∈ c.broadcasts ∧ packet.dst = id.processId ∧ k = c.signatures id := by
  obtain ⟨hdst, -⟩ := hS.signature packet (mem_sent_of_network hs.mem) id hm
  obtain ⟨hb, -, ⟨-, hk⟩ | ⟨hne, -⟩⟩ := ((hslot _ _).stored m k).mp hl
  · exact ⟨hb, hdst, hk⟩
  · exact absurd hdst hne

theorem Delivered.keys_nodup (hpool : cfg.pool.Nodup) : (c'.sent.map key).Nodup := by
  rw [(hs.perm.map key).nodup_iff, List.map_append, List.nodup_append]
  rcases hs.handled.sends_cases with hnil | ⟨id, m, hm, hsend⟩ | ⟨id, m, k, hm, hl, hq, hsend⟩
  · rw [hnil]
    exact ⟨List.nodup_nil, hS.once, fun _ h => by cases h⟩
  · rw [hsend]
    refine ⟨List.nodup_singleton _, hS.once, ?_⟩
    rintro _ hk _ hk' rfl
    obtain rfl := List.mem_singleton.mp hk
    obtain ⟨pkt, hpkt, he⟩ := List.mem_map.mp hk'
    -- an earlier signature would answer an earlier copy of this message
    obtain ⟨hmsg, hsrc⟩ := key_signature.mp (he : key pkt = (1, id, packet.dst))
    obtain ⟨old, hold, hdst, m', hm'⟩ := (hS.signature pkt hpkt id hmsg).2
    exact hS.not_initiated hs.mem hm ⟨old, hold, hdst.trans hsrc, m', hm'⟩
  · rw [hsend]
    obtain ⟨-, -, hk⟩ := hs.completes hS hslot hm hl
    rw [keys_broadcast]
    refine ⟨hpool.map fun a b h => by simpa [key] using h, hS.once, ?_⟩
    rintro _ hk _ hk' rfl
    obtain ⟨q, -, rfl⟩ := List.mem_map.mp hk
    obtain ⟨pkt, hpkt, he⟩ := List.mem_map.mp hk'
    obtain ⟨⟨v, hv⟩, -⟩ := key_certificate.mp he
    have hlow := (hS.certificate pkt hpkt v id hv).1
    rw [hS.procNum _ hs.started_dst] at hq
    omega

theorem Delivered.signs {p : Pid} {id : MessageId} (hi : c'.Initiated p id) :
    quorumSize cfg.pool.length ≤ c'.signatures id ∨
      (⟨p, id.processId, .signature id⟩ : Packet α) ∈ c'.sent := by
  rcases hs.initiated_iff.mp hi with ⟨rfl, m, hm⟩ | hi
  · have hin := mem_sent_of_network hs.mem
    have hh := hs.handled
    rw [hm] at hh
    rcases hh.signs with hsend | ⟨-, hw⟩
    · rw [(hS.initiate packet hin id m hm).2.1] at hsend
      exact .inr (hs.mem_sent.mpr (.inl ⟨rfl, hsend⟩))
    · obtain ⟨-, hcert, -⟩ := (hslot _ id).waiting.mp hw
      exact .inl ((hS.certified_spec hcert).1.trans (hs.signatures_le id))
  · exact (hS.signs p id hi).imp (fun h => h.trans (hs.signatures_le id))
      fun h => hs.mem_sent.mpr (.inr h)

theorem Delivered.certificate {pkt : Packet α} (hp : pkt ∈ c'.sent) {validators : ℕ}
    {id : MessageId} (hm : pkt.msg = .certificate validators id) :
    quorumSize cfg.pool.length ≤ c'.signatures id ∧ pkt.dst ∈ cfg.pool ∧
      ∃ message, (id, message) ∈ c.broadcasts := by
  rcases hs.mem_sent.mp hp with ⟨-, hsend⟩ | hp
  · rw [hm] at hsend
    obtain ⟨hq, hmsg, m, k, hl, hk⟩ := hs.handled.sends_certificate hsend
    obtain ⟨hb, -, hcount⟩ := hs.completes hS hslot hmsg hl
    rw [hs.signatures_of_eq hmsg, ← hcount, hk, hS.procNum _ hs.started_dst]
    exact ⟨le_rfl, hq, m, hb⟩
  · obtain ⟨h₁, h₂⟩ := hS.certificate pkt hp validators id hm
    exact ⟨h₁.trans (hs.signatures_le id), h₂⟩

theorem Delivered.certified_of_ignored {b : MessageId × α} (hb : b ∈ c.broadcasts)
    (hm : packet.msg = .signature b.1)
    (hl : (c.processes packet.dst).messages.lookup b.1 = none) : c.Certified packet.dst b.1 := by
  have hdst := (hS.signature packet (mem_sent_of_network hs.mem) b.1 hm).1
  by_contra hno
  have hst := ((hslot packet.dst b.1).stored b.2 (c.signatures b.1)).mpr
    ⟨hb, hno, .inl ⟨hdst, rfl⟩⟩
  rw [hl] at hst
  cases hst

theorem Delivered.certifies {b : MessageId × α} (hb : b ∈ c.broadcasts)
    (hq : quorumSize cfg.pool.length ≤ c'.signatures b.1) {p : Pid} (hp : p ∈ cfg.pool) :
    ∃ pkt ∈ c'.sent, pkt.dst = p ∧ ∃ validators, pkt.msg = .certificate validators b.1 := by
  have hold : quorumSize cfg.pool.length ≤ c.signatures b.1 → ∃ pkt ∈ c'.sent,
      pkt.dst = p ∧ ∃ validators, pkt.msg = .certificate validators b.1 := fun h => by
    obtain ⟨pkt, h₁, h₂⟩ := hS.certifies b hb h p hp
    exact ⟨pkt, hs.mem_sent.mpr (.inr h₁), h₂⟩
  by_cases hm : packet.msg = .signature b.1
  · cases hl : (c.processes packet.dst).messages.lookup b.1 with
    | none =>
      have hcert := hs.certified_of_ignored hS hslot hb hm hl
      exact hold (hS.certified_spec hcert).1
    | some e =>
      obtain ⟨-, -, hk⟩ := hs.completes hS hslot hm hl
      rw [hs.signatures_of_eq hm] at hq
      by_cases hfull : e.2 + 1 = quorumSize (c.processes packet.dst).procNum
      · have hh := hs.handled
        rw [hm] at hh
        refine ⟨⟨packet.dst, p, .certificate (c.processes packet.dst).procNum b.1⟩,
          hs.mem_sent.mpr (.inl ⟨rfl, ?_⟩), rfl, _, rfl⟩
        rw [hh.certifies hl hfull]
        exact List.mem_map.mpr ⟨p, hp, rfl⟩
      · rw [hS.procNum _ hs.started_dst] at hfull
        exact hold (by omega)
  · rw [hs.signatures_of_ne hm] at hq
    exact hold hq

theorem Sending.deliver (hpool : cfg.pool.Nodup) : Sending cfg c' := by
  have hin := mem_sent_of_network hs.mem
  refine ⟨by rw [hs.started]; exact hS.started, fun q hq => ?_, fun b hb => ?_, ?_,
    hs.keys_nodup hS hslot hpool, fun pkt hp i m hm => ?_, fun b hb p hp => ?_,
    fun pkt hp i hm => ?_, fun p i hi => hs.signs hS hslot hi, fun pkt hp v i hm => ?_,
    fun b hb hq p hp => hs.certifies hS hslot (hs.broadcasts ▸ hb) hq hp⟩
  · rw [hs.started] at hq
    rw [hs.processes]
    by_cases hqp : q = packet.dst
    · subst hqp
      rw [Function.update_self, hs.handled.procNum]
      exact hS.procNum _ hs.started_dst
    · rw [Function.update_of_ne hqp]
      exact hS.procNum q hq
  · rw [hs.uids, hs.started]
    exact hS.used b (hs.broadcasts ▸ hb)
  · rw [hs.broadcasts]
    exact hS.ids_nodup
  · rw [hs.broadcasts]
    rcases hs.mem_sent.mp hp with ⟨-, hsend⟩ | hp
    · rw [hm] at hsend
      exact absurd hsend hs.handled.not_initiate
    · exact hS.initiate pkt hp i m hm
  · exact hs.mem_sent.mpr (.inr (hS.initiates b (hs.broadcasts ▸ hb) p hp))
  · rw [hs.initiated_iff]
    rcases hs.mem_sent.mp hp with ⟨hsrc, hsend⟩ | hp
    · rw [hm] at hsend
      obtain ⟨hdst, m, hmsg⟩ := hs.handled.sends_signature hsend
      rw [hdst]
      exact ⟨(hS.initiate packet hin _ m hmsg).2.1, .inl ⟨hsrc.symm, m, hmsg⟩⟩
    · obtain ⟨h₁, h₂⟩ := hS.signature pkt hp i hm
      exact ⟨h₁, .inr h₂⟩
  · rw [hs.broadcasts]
    exact hs.certificate hS hslot hp hm

theorem Slot.other {p : Pid} {id : MessageId} (hne : ¬ (p = packet.dst ∧ id = packet.msg.id)) :
    Slot c' p id := by
  have hini : c'.Initiated p id ↔ c.Initiated p id := by
    rw [hs.initiated_iff]
    refine or_iff_right ?_
    rintro ⟨hp, m, hm⟩
    exact hne ⟨hp.symm, by rw [hm]; rfl⟩
  have hcert : c'.Certified p id ↔ c.Certified p id := by
    rw [hs.certified_iff]
    refine or_iff_right ?_
    rintro ⟨hp, v, hv⟩
    exact hne ⟨hp.symm, by rw [hv]; rfl⟩
  have hsig : p = id.processId → c'.signatures id = c.signatures id := by
    intro hp
    refine hs.signatures_of_ne fun hm => hne ⟨?_, by rw [hm]; rfl⟩
    rw [hp]
    exact (hS.signature packet (mem_sent_of_network hs.mem) id hm).1.symm
  have hret : ∀ m, (p, id, m) ∈ c'.returned ↔ (p, id, m) ∈ c.returned := by
    intro m
    rw [hs.returned, List.mem_append]
    refine or_iff_right fun h => hne ?_
    obtain ⟨m', -, he⟩ := List.mem_map.mp h
    cases he
    exact ⟨rfl, rfl⟩
  by_cases hp : p = packet.dst
  · subst hp
    have hid : id ≠ packet.msg.id := fun h => hne ⟨rfl, h⟩
    obtain ⟨hm, hw⟩ := hs.handled.other hid
    refine (hslot _ id).congr ?_ ?_ (fun m => by rw [hs.broadcasts]) hini hcert hsig hret
    · rw [hs.processes, Function.update_self, hm]
    · rw [hs.processes, Function.update_self, hw]
  · refine (hslot p id).congr ?_ ?_ (fun m => by rw [hs.broadcasts]) hini hcert hsig hret
    · rw [hs.processes, Function.update_of_ne hp]
    · rw [hs.processes, Function.update_of_ne hp]

theorem Slot.certificate {validators : ℕ} {id : MessageId}
    (hm : packet.msg = .certificate validators id) : Slot c' packet.dst id := by
  have hin := mem_sent_of_network hs.mem
  obtain ⟨-, -, message, hb⟩ := hS.certificate packet hin validators id hm
  have hold := hslot packet.dst id
  have hncert := hS.not_certified hs.mem hm
  have hcert : c'.Certified packet.dst id := hs.certified_iff.mpr (.inl ⟨rfl, validators, hm⟩)
  have hini : c'.Initiated packet.dst id ↔ c.Initiated packet.dst id :=
    hs.initiated_of_ne fun _ h => by
      rw [hm] at h
      cases h
  have hret : ∀ m, (packet.dst, id, m) ∈ c.returned → False :=
    fun m h => hncert ((hold.returned m).mp h).2.1
  have hh := hs.handled
  rw [hm] at hh
  have hentries : entries packet out = out.returned.toList.map fun m => (packet.dst, id, m) := by
    unfold entries
    rw [hm]
    rfl
  have hiff : ∀ {P Q : Prop}, ¬ (P ∧ ¬ c'.Certified packet.dst id ∧ Q) := fun h => h.2.1 hcert
  cases hh with
  | early _ _ hl =>
    have hno : ¬ (packet.dst = id.processId ∨ c.Initiated packet.dst id) := by
      intro h
      have hst : ∃ k, (c.processes packet.dst).messages.lookup id = some (message, k) := by
        by_cases hdst : packet.dst = id.processId
        · exact ⟨_, (hold.stored _ _).mpr ⟨hb, hncert, .inl ⟨hdst, rfl⟩⟩⟩
        · exact ⟨_, (hold.stored _ _).mpr
            ⟨hb, hncert, .inr ⟨hdst, h.resolve_left hdst, rfl⟩⟩⟩
      obtain ⟨k, hk⟩ := hst
      rw [hl] at hk
      cases hk
    rw [not_or] at hno
    refine ⟨fun m k => ?_, ?_, fun m => ?_⟩
    · rw [hs.state_dst]
      refine iff_of_false (fun h => ?_) hiff
      rw [hl] at h
      cases h
    · rw [hs.state_dst, hini]
      exact iff_of_true (List.mem_insert_iff.mpr (.inl rfl)) ⟨hno.1, hcert, hno.2⟩
    · rw [hs.returned, hentries, hini]
      exact iff_of_false (hret m) fun h => not_or.mpr hno h.2.2
  | released _ _ m₀ k₀ hl =>
    obtain ⟨hb₀, -, hwhy⟩ := (hold.stored m₀ k₀).mp hl
    have hyes : packet.dst = id.processId ∨ c.Initiated packet.dst id :=
      hwhy.imp (fun h => h.1) fun h => h.2.1
    refine ⟨fun m k => ?_, ?_, fun m => ?_⟩
    · rw [hs.state_dst]
      refine iff_of_false (fun h => ?_) hiff
      rw [AList.lookup_erase] at h
      cases h
    · rw [hs.state_dst, hini]
      refine iff_of_false (fun h => hncert (hold.waiting.mp h).2.1) ?_
      rintro ⟨hne, -, hno⟩
      exact hyes.elim hne hno
    · rw [hs.returned, hentries, hini, hs.broadcasts]
      constructor
      · intro h
        rcases List.mem_cons.mp h with h | h
        · cases h
          exact ⟨hb₀, hcert, hyes⟩
        · exact (hret m h).elim
      · rintro ⟨hbm, -, -⟩
        rw [hS.message_unique hbm hb₀]
        exact List.mem_cons_self

theorem Slot.initiate (hnd : ∀ p, (c.processes p).waitingCertificates.Nodup) {id : MessageId}
    {message : α} (hm : packet.msg = .initiate id message) : Slot c' packet.dst id := by
  have hin := mem_sent_of_network hs.mem
  obtain ⟨hb, -⟩ := hS.initiate packet hin id message hm
  have hold := hslot packet.dst id
  have hnini := hS.not_initiated hs.mem hm
  have hini : c'.Initiated packet.dst id := hs.initiated_iff.mpr (.inl ⟨rfl, message, hm⟩)
  have hcert : c'.Certified packet.dst id ↔ c.Certified packet.dst id :=
    hs.certified_of_ne fun _ h => by
      rw [hm] at h
      cases h
  have hsig : c'.signatures id = c.signatures id := by
    refine hs.signatures_of_ne fun h => ?_
    rw [hm] at h
    cases h
  have hh := hs.handled
  rw [hm] at hh
  have hentries : entries packet out = out.returned.toList.map fun m => (packet.dst, id, m) := by
    unfold entries
    rw [hm]
    rfl
  cases hh with
  | own _ _ hid =>
    refine ⟨fun m k => ?_, ?_, fun m => ?_⟩
    · rw [hs.state_dst, hs.broadcasts, hcert, hsig, hold.stored]
      simp [hid.symm]
    · rw [hs.state_dst, hcert, hold.waiting]
      simp [hid.symm]
    · rw [hs.returned, hentries, hs.broadcasts, hcert]
      show (packet.dst, id, m) ∈ c.returned ↔ _
      rw [hold.returned]
      simp [hid.symm]
  | late _ _ hid hw =>
    obtain ⟨hne, hc, -⟩ := hold.waiting.mp hw
    refine ⟨fun m k => ?_, ?_, fun m => ?_⟩
    · rw [hs.state_dst, hs.broadcasts, hcert]
      exact iff_of_false (fun h => ((hold.stored m k).mp h).2.1 hc) fun h => h.2.1 hc
    · rw [hs.state_dst, hcert]
      exact iff_of_false (hnd packet.dst).not_mem_erase fun h => h.2.2 hini
    · rw [hs.returned, hentries, hs.broadcasts, hcert]
      constructor
      · intro h
        rcases List.mem_cons.mp h with h | h
        · cases h
          exact ⟨hb, hc, .inr hini⟩
        · exact absurd ((hold.returned m).mp h).2.2 (not_or.mpr ⟨hne, hnini⟩)
      · rintro ⟨hbm, -, -⟩
        rw [hS.message_unique hbm hb]
        exact List.mem_cons_self
  | stored _ _ hid hw =>
    have hne : packet.dst ≠ id.processId := fun h => hid h.symm
    have hnc : ¬ c.Certified packet.dst id := fun h => hw (hold.waiting.mpr ⟨hne, h, hnini⟩)
    refine ⟨fun m k => ?_, ?_, fun m => ?_⟩
    · rw [hs.state_dst, hs.broadcasts, hcert]
      show ((c.processes packet.dst).messages.insert id (message, 0)).lookup id = _ ↔ _
      rw [AList.lookup_insert, Option.some.injEq, Prod.mk.injEq]
      constructor
      · rintro ⟨rfl, rfl⟩
        exact ⟨hb, hnc, .inr ⟨hne, hini, rfl⟩⟩
      · rintro ⟨hbm, -, ⟨h, -⟩ | ⟨-, -, hk⟩⟩
        · exact absurd h hne
        · exact ⟨hS.message_unique hb hbm, hk.symm⟩
    · rw [hs.state_dst, hcert]
      exact iff_of_false hw fun h => hnc h.2.1
    · rw [hs.returned, hentries, hcert]
      exact iff_of_false (fun h => hnc ((hold.returned m).mp h).2.1) fun h => hnc h.2.1

theorem Slot.signature {id : MessageId} (hm : packet.msg = .signature id) :
    Slot c' packet.dst id := by
  have hin := mem_sent_of_network hs.mem
  obtain ⟨hdst, hi⟩ := hS.signature packet hin id hm
  obtain ⟨message, hb⟩ := hS.initiated_spec hi
  have hold := hslot packet.dst id
  have hini : c'.Initiated packet.dst id ↔ c.Initiated packet.dst id :=
    hs.initiated_of_ne fun _ h => by
      rw [hm] at h
      cases h
  have hcert : c'.Certified packet.dst id ↔ c.Certified packet.dst id :=
    hs.certified_of_ne fun _ h => by
      rw [hm] at h
      cases h
  have hsig := hs.signatures_of_eq hm
  have hh := hs.handled
  rw [hm] at hh
  have hwait : out.state.waitingCertificates =
      (c.processes packet.dst).waitingCertificates := by cases hh <;> rfl
  have hret : c'.returned = c.returned := by
    rw [hs.returned]
    cases hh <;> rfl
  refine ⟨fun m k => ?_, ?_, fun m => ?_⟩
  · rw [hs.state_dst, hs.broadcasts, hcert, hsig]
    have hgo : ∀ m₀ k₀, (c.processes packet.dst).messages.lookup id = some (m₀, k₀) →
        (((c.processes packet.dst).messages.insert id (m₀, k₀ + 1)).lookup id = some (m, k) ↔
          (id, m) ∈ c.broadcasts ∧ ¬ c.Certified packet.dst id ∧
            (packet.dst = id.processId ∧ k = c.signatures id + 1 ∨
              packet.dst ≠ id.processId ∧ c'.Initiated packet.dst id ∧ k = 0)) := by
      intro m₀ k₀ hl
      obtain ⟨hb₀, hnc, -⟩ := (hold.stored m₀ k₀).mp hl
      obtain ⟨-, -, hk₀⟩ := hs.completes hS hslot hm hl
      rw [AList.lookup_insert, Option.some.injEq, Prod.mk.injEq]
      constructor
      · rintro ⟨rfl, rfl⟩
        exact ⟨hb₀, hnc, .inl ⟨hdst, by rw [hk₀]⟩⟩
      · rintro ⟨hbm, -, ⟨-, hk⟩ | ⟨hne, -⟩⟩
        · exact ⟨hS.message_unique hb₀ hbm, by rw [hk₀, hk]⟩
        · exact absurd hdst hne
    cases hh with
    | ignored _ hl =>
      refine iff_of_false (fun h => by rw [hl] at h; cases h) ?_
      rintro ⟨hbm, hnc, -⟩
      have hst := (hold.stored m (c.signatures id)).mpr ⟨hbm, hnc, .inl ⟨hdst, rfl⟩⟩
      rw [hl] at hst
      cases hst
    | counted _ m₀ k₀ hl hq => exact hgo m₀ k₀ hl
    | certified _ m₀ k₀ hl hq => exact hgo m₀ k₀ hl
  · rw [hs.state_dst, hwait, hini, hcert]
    exact hold.waiting
  · rw [hret, hs.broadcasts, hini, hcert]
    exact hold.returned m

end

theorem Correct.waiting_deliver (hC : Correct cfg c) (hs : Delivered cfg c packet out c')
    (p : Pid) : (c'.processes p).waitingCertificates.Nodup := by
  rw [hs.processes]
  by_cases hp : p = packet.dst
  · subst hp
    rw [Function.update_self]
    have hnd := hC.waiting_nodup packet.dst
    have hh := hs.handled
    cases hm : packet.msg with
    | initiate i m =>
      rw [hm] at hh
      cases hh with
      | late => exact hnd.erase _
      | own => exact hnd
      | stored => exact hnd
    | signature i =>
      rw [hm] at hh
      cases hh <;> exact hnd
    | certificate v i =>
      rw [hm] at hh
      cases hh with
      | early => exact hnd.insert
      | released => exact hnd
  · rw [Function.update_of_ne hp]
    exact hC.waiting_nodup p

theorem Correct.not_returned (hC : Correct cfg c) (hs : Delivered cfg c packet out c')
    (hr : out.returned ≠ none) (m : α) : (packet.dst, packet.msg.id, m) ∉ c.returned := by
  intro h
  obtain ⟨-, hcert, hwhy⟩ := ((hC.slot _ _).returned m).mp h
  have hh := hs.handled
  cases hm : packet.msg with
  | initiate i m =>
    rw [hm] at hh hcert hwhy
    cases hh with
    | late _ _ hid =>
      exact hC.sending.not_initiated hs.mem hm (hwhy.resolve_left fun h => hid h.symm)
    | own => exact hr rfl
    | stored => exact hr rfl
  | signature i =>
    rw [hm] at hh
    cases hh <;> exact hr rfl
  | certificate v i =>
    rw [hm] at hcert
    exact hC.sending.not_certified hs.mem hm hcert

/-- **A process handles a message.** -/
theorem Correct.deliver (hC : Correct cfg c) (hpool : cfg.pool.Nodup)
    (hs : Delivered cfg c packet out c') : Correct cfg c' := by
  refine ⟨hC.sending.deliver hC.slot hs hpool, fun p id => ?_, hC.waiting_deliver hs, ?_⟩
  · by_cases hpid : p = packet.dst ∧ id = packet.msg.id
    · obtain ⟨rfl, rfl⟩ := hpid
      cases hm : packet.msg with
      | initiate i m => exact Slot.initiate hC.sending hC.slot hs hC.waiting_nodup hm
      | signature i => exact Slot.signature hC.sending hC.slot hs hm
      | certificate v i => exact Slot.certificate hC.sending hC.slot hs hm
    · exact Slot.other hC.sending hC.slot hs hpid
  · rw [hs.returned, List.map_append]
    cases hr : out.returned with
    | none =>
      unfold entries
      rw [hr]
      exact hC.returned_nodup
    | some m =>
      unfold entries
      rw [hr]
      refine List.nodup_cons.mpr ⟨fun h => ?_, hC.returned_nodup⟩
      obtain ⟨⟨p, id, m'⟩, hin, he⟩ := List.mem_map.mp h
      cases he
      exact hC.not_returned hs (by rw [hr]; exact Option.some_ne_none m) m' hin

/-! ## Every run -/

theorem Correct.init (cfg : Config) : Correct cfg (System.init : System α) := by
  have hslot : ∀ p id, Slot (System.init : System α) p id := by
    refine fun p id => ⟨fun m k => iff_of_false (fun h => ?_) ?_, iff_of_false ?_ ?_,
      fun m => iff_of_false ?_ ?_⟩
    · have h : (∅ : AList fun _ : MessageId => α × ℕ).lookup id = some (m, k) := h
      rw [AList.lookup_empty] at h
      cases h
    · rintro ⟨h, -⟩
      cases h
    · exact List.not_mem_nil
    · rintro ⟨-, ⟨_, h, -⟩, -⟩
      cases h
    · exact List.not_mem_nil
    · rintro ⟨h, -⟩
      cases h
  refine ⟨⟨?_, ?_, ?_, ?_, ?_, ?_, ?_, ?_, ?_, ?_, ?_⟩, hslot, fun p => List.nodup_nil,
    List.nodup_nil⟩ <;> simp [System.init, System.sent, System.Initiated]

theorem Correct.of_reachable {pool : List Pid} (hpool : pool.Nodup)
    (h : System.Reachable ⟨pool, []⟩ c) : Correct ⟨pool, []⟩ c :=
  h.invariant (Correct.init _) fun c a c' _ _ hC hstep => by
    cases a with
    | start pid => exact hC.start (step_start hstep)
    | broadcast pid uid message => exact hC.announce hpool (step_broadcast hstep)
    | deliver index =>
      obtain ⟨packet, ⟨hf, -⟩ | ⟨out, hs⟩⟩ := step_deliver hstep
      · cases hf
      · exact hC.deliver hpool hs
    | inject packet =>
      simp only [System.step, Option.ite_none_right_eq_some] at hstep
      cases hstep.1.1

theorem certificate_src {pool : List Pid} (hpool : pool.Nodup)
    (h : System.Reachable ⟨pool, []⟩ c) : ∀ packet ∈ c.sent, ∀ validators id,
      packet.msg = .certificate validators id → packet.src = id.processId := by
  refine h.invariant (I := fun c => ∀ packet ∈ c.sent, ∀ validators id,
    packet.msg = .certificate validators id → packet.src = id.processId)
    (List.forall_mem_nil _) fun c a c' hr _ ih hstep => ?_
  have hC := Correct.of_reachable hpool hr
  cases a with
  | start pid =>
    rw [(step_start hstep).sent]
    exact ih
  | broadcast pid uid message =>
    rw [(step_broadcast hstep).sent]
    refine List.forall_mem_append.mpr ⟨fun packet hp validators id hm => ?_, ih⟩
    rw [(mem_packets_broadcast.mp hp).2.2] at hm
    cases hm
  | inject packet =>
    simp only [System.step, Option.ite_none_right_eq_some] at hstep
    cases hstep.1.1
  | deliver index =>
    obtain ⟨pkt, ⟨hf, -⟩ | ⟨out, hs⟩⟩ := step_deliver hstep
    · cases hf
    intro packet hp
    rcases hs.mem_sent.mp hp with ⟨hsrc, hsend⟩ | hp
    · intro validators id hm
      rw [hm] at hsend
      obtain ⟨-, hsig, -⟩ := hs.handled.sends_certificate hsend
      rw [hsrc]
      exact (hC.sending.signature pkt (mem_sent_of_network hs.mem) id hsig).1
    · exact ih packet hp

theorem handed_out_src {pool : List Pid} (hpool : pool.Nodup)
    (h : System.Reachable ⟨pool, []⟩ c) {packet : Packet α} (hp : packet ∈ c.network)
    {out : Outcome α} {self : ByzantineConsistentBroadcast α}
    (hh : Handled pool packet.dst packet.src self packet.msg out) (hr : out.returned ≠ none) :
    packet.src = packet.msg.id.processId := by
  have hsent := mem_sent_of_network hp
  cases hm : packet.msg with
  | certificate v id => exact certificate_src hpool h packet hsent v id hm
  | initiate id m =>
    exact ((Correct.of_reachable hpool h).sending.initiate packet hsent id m hm).2.1
  | signature id =>
    rw [hm] at hh
    cases hh <;> exact absurd rfl hr

theorem quorumSize_le {n : ℕ} (hn : 0 < n) : quorumSize n ≤ n := by
  unfold quorumSize
  omega

theorem Correct.quorum_reached (hC : Correct cfg c) (hpool : cfg.pool.Nodup)
    (hquiet : c.network = []) {b : MessageId × α} (hb : b ∈ c.broadcasts)
    (hpos : 0 < cfg.pool.length) : quorumSize cfg.pool.length ≤ c.signatures b.1 := by
  have hS := hC.sending
  have hsent : c.sent = c.delivered := by
    unfold System.sent
    rw [hquiet, List.nil_append]
  by_contra hlow
  have hsub : cfg.pool ⊆ c.delivered.filterMap (signer b.1) := by
    intro q hq
    have hini : c.Initiated q b.1 := ⟨_, hsent ▸ hS.initiates b hb q hq, rfl, b.2, rfl⟩
    have hsign := (hS.signs q b.1 hini).resolve_left hlow
    rw [hsent] at hsign
    exact List.mem_filterMap.mpr ⟨_, hsign, signer_eq_some.mpr ⟨rfl, rfl⟩⟩
  exact hlow ((quorumSize_le hpos).trans (hpool.subperm hsub).length_le)

/-- **The broadcast delivers exactly once.** Among processes that follow the
protocol none returns a message twice for one identifier, what is returned is
what was passed to `reliably_broadcast` under the identifier, and with nothing in
flight every process has returned every message. -/
theorem delivers_exactly_once (pool : List Pid) (hpool : pool.Nodup) (c : System α)
    (h : System.Reachable ⟨pool, []⟩ c) :
    (c.returned.map fun r => (r.1, r.2.1)).Nodup ∧
    ((c.broadcasts.map Prod.fst).Nodup ∧ ∀ p b, (p, b) ∈ c.returned → b ∈ c.broadcasts) ∧
    (c.network = [] → ∀ b ∈ c.broadcasts, ∀ p ∈ pool, (p, b) ∈ c.returned) := by
  have hC := Correct.of_reachable hpool h
  have hS := hC.sending
  refine ⟨hC.returned_nodup,
    ⟨hS.ids_nodup, fun p b hr => (((hC.slot p b.1).returned b.2).mp hr).1⟩,
    fun hquiet b hb p hp => ?_⟩
  have hsent : c.sent = c.delivered := by
    unfold System.sent
    rw [hquiet, List.nil_append]
  have hquorum := hC.quorum_reached hpool hquiet hb (List.length_pos_of_mem hp)
  obtain ⟨packet, hin, hdst, v, hv⟩ := hS.certifies b hb hquorum p hp
  have hini : c.Initiated p b.1 := ⟨_, hsent ▸ hS.initiates b hb p hp, rfl, b.2, rfl⟩
  exact ((hC.slot p b.1).returned b.2).mpr
    ⟨hb, ⟨packet, hsent ▸ hin, hdst, v, hv⟩, .inr hini⟩

/-- Four processes, of which process 0 broadcasts a number. Process 3 gets the
certificate before the message. -/
theorem delivers_exactly_once_four :
    ∃ c : System ℕ, System.Reachable ⟨[0, 1, 2, 3], []⟩ c ∧ c.network = [] ∧
      c.broadcasts = [(⟨0, 7⟩, 5)] ∧ (3, ⟨0, 7⟩, 5) ∈ c.returned := by
  let run : List (Action ℕ) := [.start 0, .start 1, .start 2, .start 3, .broadcast 0 7 5,
    .deliver 0, .deliver 1, .deliver 2, .deliver 0, .deliver 0, .deliver 0,
    .deliver 3, .deliver 3, .deliver 0, .deliver 0, .deliver 0]
  have hrun : (System.execute ⟨[0, 1, 2, 3], []⟩ run).any (fun c =>
      c.network.isEmpty && decide (c.broadcasts = [(⟨0, 7⟩, 5)])) = true := by decide +kernel
  obtain ⟨c, hc, hd⟩ := (Option.any_eq_true _ _).mp hrun
  rw [Bool.and_eq_true, List.isEmpty_iff] at hd
  obtain ⟨hquiet, hd⟩ := hd
  have hb := of_decide_eq_true hd
  have hreach := System.reachable_execute hc
  have honce := delivers_exactly_once [0, 1, 2, 3] (by decide) c hreach
  exact ⟨c, hreach, hquiet, hb,
    honce.2.2 hquiet (⟨0, 7⟩, 5) (hb ▸ List.mem_cons_self) 3 (by decide)⟩

end Blsmr.Broadcast
