import Blsmr.Broadcast.System

/-!
# What a process does with a message

`Handled` lists what `on_message` can do, and `Delivered` describes the step in
which a correct process handles a message in flight.
-/

namespace Blsmr.Broadcast

open Blsmr.Transition ByzantineConsistentBroadcast

variable {α : Type}

/-- **What a process does with a message.** -/
inductive Handled (pool : List Pid) (me sender : Pid) (self : ByzantineConsistentBroadcast α) :
    BCBMessage α → Outcome α → Prop
  | early (validators : ℕ) (id : MessageId) (hm : self.messages.lookup id = none) :
      Handled pool me sender self (.certificate validators id)
        ⟨{ self with waitingCertificates := self.waitingCertificates.insert id }, none, []⟩
  | released (validators : ℕ) (id : MessageId) (message : α) (count : ℕ)
      (hm : self.messages.lookup id = some (message, count)) :
      Handled pool me sender self (.certificate validators id)
        ⟨{ self with messages := self.messages.erase id }, some message, []⟩
  | own (id : MessageId) (message : α) (hid : id.processId = me) :
      Handled pool me sender self (.initiate id message) ⟨self, none, [(sender, .signature id)]⟩
  | late (id : MessageId) (message : α) (hid : id.processId ≠ me)
      (hw : id ∈ self.waitingCertificates) :
      Handled pool me sender self (.initiate id message)
        ⟨{ self with waitingCertificates := self.waitingCertificates.erase id }, some message, []⟩
  | stored (id : MessageId) (message : α) (hid : id.processId ≠ me)
      (hw : id ∉ self.waitingCertificates) :
      Handled pool me sender self (.initiate id message)
        ⟨{ self with messages := self.messages.insert id (message, 0) }, none,
          [(sender, .signature id)]⟩
  | ignored (id : MessageId) (hm : self.messages.lookup id = none) :
      Handled pool me sender self (.signature id) ⟨self, none, []⟩
  | counted (id : MessageId) (message : α) (count : ℕ)
      (hm : self.messages.lookup id = some (message, count))
      (hq : count + 1 ≠ quorumSize self.procNum) :
      Handled pool me sender self (.signature id)
        ⟨{ self with messages := self.messages.insert id (message, count + 1) }, none, []⟩
  | certified (id : MessageId) (message : α) (count : ℕ)
      (hm : self.messages.lookup id = some (message, count))
      (hq : count + 1 = quorumSize self.procNum) :
      Handled pool me sender self (.signature id)
        ⟨{ self with messages := self.messages.insert id (message, count + 1) }, none,
          ByzantineConsistentBroadcast.broadcast pool (.certificate self.procNum id)⟩

theorem onMessage_handled (pool : List Pid) (me sender : Pid)
    (self : ByzantineConsistentBroadcast α) (msg : BCBMessage α) :
    Handled pool me sender self msg (self.onMessage pool me sender msg) := by
  cases msg with
  | certificate validators id =>
    cases hm : self.messages.lookup id with
    | none =>
      simp only [onMessage, hm]
      exact .early validators id hm
    | some e =>
      simp only [onMessage, hm]
      exact .released validators id e.1 e.2 hm
  | initiate id message =>
    simp only [onMessage]
    by_cases hid : id.processId = me
    · rw [if_neg (not_not.mpr hid)]
      exact .own id message hid
    · rw [if_pos hid]
      by_cases hw : id ∈ self.waitingCertificates
      · rw [if_pos hw]
        exact .late id message hid hw
      · rw [if_neg hw]
        exact .stored id message hid hw
  | signature id =>
    cases hm : self.messages.lookup id with
    | none =>
      simp only [onMessage, hm]
      exact .ignored id hm
    | some e =>
      simp only [onMessage, hm]
      by_cases hq : e.2 + 1 = quorumSize self.procNum
      · rw [if_pos hq]
        exact .certified id e.1 e.2 hm hq
      · rw [if_neg hq]
        exact .counted id e.1 e.2 hm hq

theorem Handled.other {pool : List Pid} {me sender : Pid} {self : ByzantineConsistentBroadcast α}
    {msg : BCBMessage α} {out : Outcome α} (h : Handled pool me sender self msg out)
    {i : MessageId} (hi : i ≠ msg.id) :
    out.state.messages.lookup i = self.messages.lookup i ∧
      (i ∈ out.state.waitingCertificates ↔ i ∈ self.waitingCertificates) := by
  cases h with
  | early => exact ⟨rfl, List.mem_insert_iff.trans (or_iff_right hi)⟩
  | released => exact ⟨AList.lookup_erase_ne hi, Iff.rfl⟩
  | late => exact ⟨rfl, List.mem_erase_of_ne hi⟩
  | stored => exact ⟨AList.lookup_insert_ne hi, Iff.rfl⟩
  | counted => exact ⟨AList.lookup_insert_ne hi, Iff.rfl⟩
  | certified => exact ⟨AList.lookup_insert_ne hi, Iff.rfl⟩
  | _ => exact ⟨rfl, Iff.rfl⟩

theorem Handled.procNum {pool : List Pid} {me sender : Pid}
    {self : ByzantineConsistentBroadcast α} {msg : BCBMessage α} {out : Outcome α}
    (h : Handled pool me sender self msg out) : out.state.procNum = self.procNum := by
  cases h <;> rfl

/-- What is handed out belongs to the identifier of the message. -/
def entries (packet : Packet α) (out : Outcome α) : List (Pid × MessageId × α) :=
  out.returned.toList.map fun m => (packet.dst, packet.msg.id, m)

/-- The step in which a correct process handles a message in flight. -/
structure Delivered (cfg : Config) (c : System α) (packet : Packet α) (out : Outcome α)
    (c' : System α) : Prop where
  mem : packet ∈ c.network
  started_dst : packet.dst ∈ c.started
  correct : packet.dst ∉ cfg.faulty
  handled : Handled cfg.pool packet.dst packet.src (c.processes packet.dst) packet.msg out
  processes : c'.processes = Function.update c.processes packet.dst out.state
  started : c'.started = c.started
  perm : c'.sent.Perm (packets packet.dst out.sends ++ c.sent)
  network : ∃ rest, c.network.Perm (packet :: rest) ∧
    c'.network = packets packet.dst out.sends ++ rest
  delivered : c'.delivered = packet :: c.delivered
  broadcasts : c'.broadcasts = c.broadcasts
  returned : c'.returned = entries packet out ++ c.returned
  uids : c'.uids = c.uids

theorem mem_packets {p : Pid} {sends : List (Pid × BCBMessage α)} {packet : Packet α} :
    packet ∈ packets p sends ↔ packet.src = p ∧ (packet.dst, packet.msg) ∈ sends := by
  unfold packets
  rw [List.mem_map]
  constructor
  · rintro ⟨⟨dst, msg⟩, h, rfl⟩
    exact ⟨rfl, h⟩
  · rintro ⟨rfl, h⟩
    exact ⟨_, h, rfl⟩

theorem mem_packets_broadcast {pool : List Pid} {p : Pid} {msg : BCBMessage α}
    {packet : Packet α} :
    packet ∈ packets p (ByzantineConsistentBroadcast.broadcast pool msg) ↔
      packet.src = p ∧ packet.dst ∈ pool ∧ packet.msg = msg := by
  unfold ByzantineConsistentBroadcast.broadcast
  rw [mem_packets, List.mem_map]
  refine and_congr_right fun _ => ?_
  constructor
  · rintro ⟨q, hq, he⟩
    exact ⟨(Prod.mk.inj he).1 ▸ hq, (Prod.mk.inj he).2.symm⟩
  · rintro ⟨hq, hm⟩
    exact ⟨packet.dst, hq, by rw [hm]⟩

/-- **What a delivery is**: the receiver handles the message, or is faulty. -/
theorem step_deliver {cfg : Config} {c c' : System α} {index : ℕ}
    (h : System.step cfg c (.deliver index) = some c') : ∃ packet,
      (packet.dst ∈ cfg.faulty ∧ packet ∈ c.network ∧ c'.processes = c.processes ∧
        c'.sent.Perm c.sent ∧ c'.delivered = packet :: c.delivered ∧
        c'.broadcasts = c.broadcasts ∧ c'.returned = c.returned) ∨
      ∃ out, Delivered cfg c packet out c' := by
  simp only [System.step] at h
  cases hk : c.network[index]? with
  | none =>
    rw [hk] at h
    cases h
  | some packet =>
    obtain ⟨hlt, hget⟩ := List.getElem?_eq_some_iff.mp hk
    have hmem : packet ∈ c.network := hget ▸ List.getElem_mem hlt
    have hperm : c.network.Perm (packet :: c.network.eraseIdx index) :=
      hget ▸ (List.getElem_cons_eraseIdx_perm hlt).symm
    have hsent : (c.network.eraseIdx index ++ packet :: c.delivered).Perm c.sent :=
      List.perm_middle.trans (hperm.symm.append_right c.delivered)
    simp only [hk] at h
    refine ⟨packet, ?_⟩
    by_cases hf : packet.dst ∈ cfg.faulty
    · rw [if_pos hf] at h
      cases h
      exact .inl ⟨hf, hmem, rfl, hsent, rfl, rfl, rfl⟩
    · rw [if_neg hf, Option.ite_none_right_eq_some] at h
      obtain ⟨hst, h⟩ := h
      cases h
      refine .inr ⟨_, hmem, hst, hf, onMessage_handled .., rfl, rfl, ?_, ⟨_, hperm, rfl⟩, rfl,
        rfl, rfl, rfl⟩
      unfold System.sent System.handle
      rw [List.append_assoc]
      exact hsent.append_left _

/-- The step in which a process starts. -/
structure Started (cfg : Config) (c : System α) (pid : Pid) (c' : System α) : Prop where
  mem : pid ∈ cfg.pool
  started : c'.started = pid :: c.started
  procNum : ∀ q, (c'.processes q).procNum =
    if q = pid then cfg.pool.length else (c.processes q).procNum
  messages : ∀ q, (c'.processes q).messages = (c.processes q).messages
  waiting : ∀ q, (c'.processes q).waitingCertificates = (c.processes q).waitingCertificates
  sent : c'.sent = c.sent
  delivered : c'.delivered = c.delivered
  broadcasts : c'.broadcasts = c.broadcasts
  returned : c'.returned = c.returned
  uids : c'.uids = c.uids

theorem step_start {cfg : Config} {c c' : System α} {pid : Pid}
    (h : System.step cfg c (.start pid) = some c') : Started cfg c pid c' := by
  simp only [System.step, Option.ite_none_right_eq_some] at h
  obtain ⟨⟨hp, -⟩, h⟩ := h
  cases h
  refine ⟨hp, rfl, fun q => ?_, fun q => ?_, fun q => ?_, rfl, rfl, rfl, rfl, rfl⟩ <;>
  · by_cases hq : q = pid
    · subst hq
      simp [onStart]
    · simp [hq]

/-- The step in which a correct process calls `reliably_broadcast`. -/
structure Announced (cfg : Config) (c : System α) (pid : Pid) (uid : ℕ) (message : α)
    (c' : System α) : Prop where
  started_pid : pid ∈ c.started
  correct : pid ∉ cfg.faulty
  fresh : uid ∉ c.uids
  processes : c'.processes = Function.update c.processes pid { c.processes pid with
    messages := (c.processes pid).messages.insert ⟨pid, uid⟩ (message, 0) }
  started : c'.started = c.started
  sent : c'.sent = packets pid
    (ByzantineConsistentBroadcast.broadcast cfg.pool (.initiate ⟨pid, uid⟩ message)) ++ c.sent
  delivered : c'.delivered = c.delivered
  broadcasts : c'.broadcasts = (⟨pid, uid⟩, message) :: c.broadcasts
  returned : c'.returned = c.returned
  uids : c'.uids = uid :: c.uids

theorem step_broadcast {cfg : Config} {c c' : System α} {pid : Pid} {uid : ℕ} {message : α}
    (h : System.step cfg c (.broadcast pid uid message) = some c') :
    Announced cfg c pid uid message c' := by
  simp only [System.step, Option.ite_none_right_eq_some] at h
  obtain ⟨⟨hp, hf, hu⟩, h⟩ := h
  cases h
  exact ⟨hp, hf, hu, rfl, rfl, List.append_assoc .., rfl, rfl, rfl, rfl⟩

end Blsmr.Broadcast
