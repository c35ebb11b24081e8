import Blsmr.Broadcast.Delivery

/-!
# What a certificate vouches for

A signature vouches for an identifier and not for a message, and a later
`Initiate` overwrites what a process has stored. So a sender that gives correct
processes different messages under one identifier collects its signatures for
all of them, and one certificate hands out all the messages. Whatever the faulty
processes send, a correct process returns a message it was offered under the
identifier, after a certificate. Where the offers to the processes that get the
certificate agree, they return the same message (`returns_agree`).
-/

namespace Blsmr.Broadcast

open Blsmr.Transition ByzantineConsistentBroadcast

variable {α : Type} {cfg : Config} {c c' : System α} {packet : Packet α} {out : Outcome α}

/-- Process `p` was offered the message under the identifier: it broadcast the
message itself, or an `Initiate` of another process has reached it. -/
def System.Offered (c : System α) (p : Pid) (id : MessageId) (message : α) : Prop :=
  p = id.processId ∧ (id, message) ∈ c.broadcasts ∨
    p ≠ id.processId ∧
      ∃ packet ∈ c.delivered, packet.dst = p ∧ packet.msg = .initiate id message

/-- A correct process holds and returns what it was offered. -/
structure Accounted (cfg : Config) (c : System α) : Prop where
  stored : ∀ p id message count, (c.processes p).messages.lookup id = some (message, count) →
    c.Offered p id message
  waiting : ∀ p, ∀ id ∈ (c.processes p).waitingCertificates, c.Certified p id
  returned : ∀ p id message, (p, id, message) ∈ c.returned →
    p ∉ cfg.faulty ∧ c.Offered p id message ∧ c.Certified p id

theorem System.Offered.mono {p : Pid} {id : MessageId} {message : α}
    (h : c.Offered p id message) (hb : c.broadcasts ⊆ c'.broadcasts)
    (hd : c.delivered ⊆ c'.delivered) : c'.Offered p id message := by
  rcases h with ⟨hp, h⟩ | ⟨hp, pkt, hin, h⟩
  · exact .inl ⟨hp, hb h⟩
  · exact .inr ⟨hp, pkt, hd hin, h⟩

theorem System.Certified.mono {p : Pid} {id : MessageId} (h : c.Certified p id)
    (hd : c.delivered ⊆ c'.delivered) : c'.Certified p id := by
  obtain ⟨pkt, hin, h⟩ := h
  exact ⟨pkt, hd hin, h⟩

theorem Handled.stored_cases {pool : List Pid} {me sender : Pid}
    {self : ByzantineConsistentBroadcast α} {msg : BCBMessage α}
    (h : Handled pool me sender self msg out) {id : MessageId} {message : α} {count : ℕ}
    (hl : out.state.messages.lookup id = some (message, count)) :
    (∃ k, self.messages.lookup id = some (message, k)) ∨
      id.processId ≠ me ∧ msg = .initiate id message := by
  by_cases hid : id = msg.id
  · cases h with
    | stored i m hne =>
      obtain rfl : id = i := hid
      have hl : (self.messages.insert id (m, 0)).lookup id = some (message, count) := hl
      rw [AList.lookup_insert, Option.some.injEq] at hl
      cases hl
      exact .inr ⟨hne, rfl⟩
    | released v i m k hm =>
      obtain rfl : id = i := hid
      have hl : (self.messages.erase id).lookup id = some (message, count) := hl
      rw [AList.lookup_erase] at hl
      cases hl
    | counted i m k hm =>
      obtain rfl : id = i := hid
      have hl : (self.messages.insert id (m, k + 1)).lookup id = some (message, count) := hl
      rw [AList.lookup_insert, Option.some.injEq] at hl
      cases hl
      exact .inl ⟨k, hm⟩
    | certified i m k hm =>
      obtain rfl : id = i := hid
      have hl : (self.messages.insert id (m, k + 1)).lookup id = some (message, count) := hl
      rw [AList.lookup_insert, Option.some.injEq] at hl
      cases hl
      exact .inl ⟨k, hm⟩
    | _ => exact .inl ⟨count, hl⟩
  · rw [(h.other hid).1] at hl
    exact .inl ⟨count, hl⟩

theorem Handled.waiting_cases {pool : List Pid} {me sender : Pid}
    {self : ByzantineConsistentBroadcast α} {msg : BCBMessage α}
    (h : Handled pool me sender self msg out) {id : MessageId}
    (hw : id ∈ out.state.waitingCertificates) :
    id ∈ self.waitingCertificates ∨ ∃ validators, msg = .certificate validators id := by
  cases h with
  | early v i =>
    rcases List.mem_insert_iff.mp hw with rfl | hw
    · exact .inr ⟨v, rfl⟩
    · exact .inl hw
  | late => exact .inl (List.mem_of_mem_erase hw)
  | _ => exact .inl hw

theorem Handled.returned_cases {pool : List Pid} {me sender : Pid}
    {self : ByzantineConsistentBroadcast α} {msg : BCBMessage α}
    (h : Handled pool me sender self msg out) {message : α} (hr : out.returned = some message) :
    (∃ validators k, msg = .certificate validators msg.id ∧
        self.messages.lookup msg.id = some (message, k)) ∨
      msg = .initiate msg.id message ∧ msg.id.processId ≠ me ∧
        msg.id ∈ self.waitingCertificates := by
  cases h with
  | released v i m k hm =>
    cases hr
    exact .inl ⟨v, k, rfl, hm⟩
  | late i m hid hw =>
    cases hr
    exact .inr ⟨rfl, hid, hw⟩
  | _ => cases hr

/-- **A correct process handles a message.** -/
theorem Accounted.deliver (hA : Accounted cfg c) (hs : Delivered cfg c packet out c') :
    Accounted cfg c' := by
  have hb : c.broadcasts ⊆ c'.broadcasts := by
    rw [hs.broadcasts]
    exact List.Subset.refl _
  have hd : c.delivered ⊆ c'.delivered := by
    rw [hs.delivered]
    exact List.subset_cons_self _ _
  have hin : packet ∈ c'.delivered := by
    rw [hs.delivered]
    exact List.mem_cons_self
  refine ⟨fun p id m k hl => ?_, fun p id hw => ?_, fun p id m hr => ?_⟩
  · rw [hs.processes] at hl
    by_cases hp : p = packet.dst
    · subst hp
      rw [Function.update_self] at hl
      rcases hs.handled.stored_cases hl with ⟨k', hl⟩ | ⟨hne, hm⟩
      · exact (hA.stored _ id m k' hl).mono hb hd
      · exact .inr ⟨fun h => hne h.symm, packet, hin, rfl, hm⟩
    · rw [Function.update_of_ne hp] at hl
      exact (hA.stored p id m k hl).mono hb hd
  · rw [hs.processes] at hw
    by_cases hp : p = packet.dst
    · subst hp
      rw [Function.update_self] at hw
      rcases hs.handled.waiting_cases hw with hw | ⟨v, hv⟩
      · exact (hA.waiting _ id hw).mono hd
      · exact ⟨packet, hin, rfl, v, hv⟩
    · rw [Function.update_of_ne hp] at hw
      exact (hA.waiting p id hw).mono hd
  · rw [hs.returned] at hr
    rcases List.mem_append.mp hr with hr | hr
    · obtain ⟨m', hm', he⟩ := List.mem_map.mp hr
      cases he
      rcases hs.handled.returned_cases (Option.mem_toList.mp hm') with
        ⟨v, k, hv, hl⟩ | ⟨hm, hne, hw⟩
      · exact ⟨hs.correct, (hA.stored _ _ m k hl).mono hb hd, packet, hin, rfl, v, hv⟩
      · exact ⟨hs.correct, .inr ⟨fun h => hne h.symm, packet, hin, rfl, hm⟩,
          (hA.waiting _ _ hw).mono hd⟩
    · obtain ⟨hp, h₁, h₂⟩ := hA.returned p id m hr
      exact ⟨hp, h₁.mono hb hd, h₂.mono hd⟩

theorem Accounted.announce (hA : Accounted cfg c) {pid : Pid} {uid : ℕ} {message : α}
    (hs : Announced cfg c pid uid message c') : Accounted cfg c' := by
  have hb : c.broadcasts ⊆ c'.broadcasts := by
    rw [hs.broadcasts]
    exact List.subset_cons_self _ _
  have hd : c.delivered ⊆ c'.delivered := by
    rw [hs.delivered]
    exact List.Subset.refl _
  refine ⟨fun p id m k hl => ?_, fun p id hw => ?_, fun p id m hr => ?_⟩
  · rw [hs.processes] at hl
    by_cases hp : p = pid
    · subst hp
      rw [Function.update_self] at hl
      by_cases hid : id = ⟨p, uid⟩
      · subst hid
        rw [AList.lookup_insert, Option.some.injEq] at hl
        cases hl
        exact .inl ⟨rfl, by rw [hs.broadcasts]; exact List.mem_cons_self⟩
      · rw [AList.lookup_insert_ne hid] at hl
        exact (hA.stored p id m k hl).mono hb hd
    · rw [Function.update_of_ne hp] at hl
      exact (hA.stored p id m k hl).mono hb hd
  · rw [hs.processes] at hw
    refine (hA.waiting p id ?_).mono hd
    by_cases hp : p = pid
    · subst hp
      rwa [Function.update_self] at hw
    · rwa [Function.update_of_ne hp] at hw
  · rw [hs.returned] at hr
    obtain ⟨hp, h₁, h₂⟩ := hA.returned p id m hr
    exact ⟨hp, h₁.mono hb hd, h₂.mono hd⟩

theorem Accounted.frame (hA : Accounted cfg c)
    (hm : ∀ p, (c'.processes p).messages = (c.processes p).messages)
    (hw : ∀ p, (c'.processes p).waitingCertificates = (c.processes p).waitingCertificates)
    (hb : c'.broadcasts = c.broadcasts) (hd : c.delivered ⊆ c'.delivered)
    (hr : c'.returned = c.returned) : Accounted cfg c' := by
  have hb' : c.broadcasts ⊆ c'.broadcasts := by
    rw [hb]
    exact List.Subset.refl _
  refine ⟨fun p id m k hl => ?_, fun p id h => ?_, fun p id m h => ?_⟩
  · exact (hA.stored p id m k (hm p ▸ hl)).mono hb' hd
  · exact (hA.waiting p id (hw p ▸ h)).mono hd
  · obtain ⟨hp, h₁, h₂⟩ := hA.returned p id m (hr ▸ h)
    exact ⟨hp, h₁.mono hb' hd, h₂.mono hd⟩

theorem Accounted.init (cfg : Config) : Accounted cfg (System.init : System α) := by
  refine ⟨fun p id m k h => ?_, fun p id h => ?_, fun p id m h => ?_⟩
  · have h : (∅ : AList fun _ : MessageId => α × ℕ).lookup id = some (m, k) := h
    rw [AList.lookup_empty] at h
    cases h
  · cases h
  · cases h

theorem Accounted.of_reachable (h : System.Reachable cfg c) : Accounted cfg c :=
  h.invariant (Accounted.init cfg) fun c a c' _ _ hA hstep => by
    cases a with
    | start pid =>
      have hs := step_start hstep
      exact hA.frame hs.messages hs.waiting hs.broadcasts
        (by rw [hs.delivered]; exact List.Subset.refl _) hs.returned
    | broadcast pid uid message => exact hA.announce (step_broadcast hstep)
    | deliver index =>
      obtain ⟨packet, ⟨-, -, hp, -, hd, hb, hr⟩ | ⟨out, hs⟩⟩ := step_deliver hstep
      · exact hA.frame (fun p => by rw [hp]) (fun p => by rw [hp]) hb
          (by rw [hd]; exact List.subset_cons_self _ _) hr
      · exact hA.deliver hs
    | inject packet =>
      simp only [System.step, Option.ite_none_right_eq_some] at hstep
      obtain ⟨-, hc⟩ := hstep
      cases hc
      exact hA.frame (fun _ => rfl) (fun _ => rfl) rfl (List.Subset.refl _) rfl

/-- **Correct processes return the same message** under an identifier whenever the
messages offered to those that got its certificate agree, whatever the faulty
processes send. -/
theorem returns_agree (cfg : Config) (c : System α) (h : System.Reachable cfg c)
    (hone : ∀ id p q, p ≠ q → p ∉ cfg.faulty → q ∉ cfg.faulty →
      c.Certified p id → c.Certified q id →
      ∀ m m', c.Offered p id m → c.Offered q id m' → m = m') :
    ∀ id p q m m', p ≠ q → p ∉ cfg.faulty → q ∉ cfg.faulty →
      (p, id, m) ∈ c.returned → (q, id, m') ∈ c.returned → m = m' := by
  intro id p q m m' hpq hp hq hm hm'
  have hA := Accounted.of_reachable h
  obtain ⟨-, hop, hcp⟩ := hA.returned p id m hm
  obtain ⟨-, hoq, hcq⟩ := hA.returned q id m' hm'
  exact hone id p q hpq hp hq hcp hcq m m' hop hoq

/-- Process 3 is faulty but offers one message only. -/
theorem returns_agree_four :
    let id : MessageId := ⟨3, 0⟩
    ∃ c : System ℕ, System.Reachable ⟨[0, 1, 2, 3], [3]⟩ c ∧ (0, id, 5) ∈ c.returned ∧
      ∀ m, (1, id, m) ∈ c.returned → 5 = m := by
  intro id
  let run : List (Action ℕ) := [.start 0, .start 1, .start 2,
    .inject ⟨3, 0, .initiate id 5⟩, .inject ⟨3, 1, .initiate id 5⟩, .inject ⟨3, 2, .initiate id 5⟩,
    .deliver 2, .deliver 2, .deliver 2,
    .inject ⟨3, 0, .certificate 4 id⟩, .inject ⟨3, 1, .certificate 4 id⟩, .deliver 0, .deliver 0]
  have hrun : (System.execute ⟨[0, 1, 2, 3], [3]⟩ run).any (fun c =>
      decide ((0, id, 5) ∈ c.returned) && c.broadcasts.isEmpty &&
        c.delivered.all fun packet => match packet.msg with
          | .initiate _ m => m == 5
          | _ => true) = true := by decide +kernel
  obtain ⟨c, hc, hd⟩ := (Option.any_eq_true _ _).mp hrun
  simp only [Bool.and_eq_true, List.isEmpty_iff, List.all_eq_true] at hd
  obtain ⟨⟨hret, hnone⟩, hall⟩ := hd
  have hreach := System.reachable_execute hc
  have hoffer : ∀ p i m, c.Offered p i m → m = 5 := by
    rintro p i m (⟨-, hb⟩ | ⟨-, packet, hin, -, hm⟩)
    · rw [hnone] at hb
      cases hb
    · have h5 := hall packet hin
      rw [hm] at h5
      exact beq_iff_eq.mp h5
  refine ⟨c, hreach, of_decide_eq_true hret, fun m hm => ?_⟩
  exact returns_agree _ c hreach
    (fun i p q _ _ _ _ _ m m' h h' => (hoffer p i m h).trans (hoffer q i m' h').symm)
    id 0 1 5 m (by decide) (by decide) (by decide) (of_decide_eq_true hret) hm

/-- **One certificate for two messages.** Of four processes process 3 is faulty. It
offers 1 to process 0 and 2 to processes 1 and 2, all of which sign the
identifier; with the certificate processes 0 and 1 return different messages. -/
theorem equivocation_succeeds :
    let id : MessageId := ⟨3, 0⟩
    ∃ c : System ℕ, System.Reachable ⟨[0, 1, 2, 3], [3]⟩ c ∧
      (0, id, 1) ∈ c.returned ∧ (1, id, 2) ∈ c.returned := by
  intro id
  let run : List (Action ℕ) := [.start 0, .start 1, .start 2,
    .inject ⟨3, 0, .initiate id 1⟩, .inject ⟨3, 1, .initiate id 2⟩, .inject ⟨3, 2, .initiate id 2⟩,
    .deliver 2, .deliver 2, .deliver 2,
    .inject ⟨3, 0, .certificate 4 id⟩, .inject ⟨3, 1, .certificate 4 id⟩, .deliver 0, .deliver 0]
  have hrun : (System.execute ⟨[0, 1, 2, 3], [3]⟩ run).any (fun c =>
      decide ((0, id, 1) ∈ c.returned ∧ (1, id, 2) ∈ c.returned)) = true := by decide +kernel
  obtain ⟨c, hc, hd⟩ := (Option.any_eq_true _ _).mp hrun
  exact ⟨c, System.reachable_execute hc, of_decide_eq_true hd⟩

end Blsmr.Broadcast
