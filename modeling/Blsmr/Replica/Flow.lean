import Blsmr.Log.History
import Blsmr.Replica.Sound

/-!
# Where messages and calls come from

`Flow` traces every message and every call on a log back to its cause: a request
to its announcement, a reply to a submit at the replier, a commit message and a
commit call to the decision of the coordinator. With `Sound` at every replica it
gives `one_decision`: a command is decided at most once in the whole system, and
everything that commits it carries the same dependencies.
-/

namespace Blsmr

open Blsmr.Transition

/-! ## What a step adds -/

/-- The histories only grow. -/
structure Progress.Grows (x x' : Progress) : Prop where
  announced : x.announced ⊆ x'.announced
  calls : x.calls ⊆ x'.calls
  ready : x.ready ⊆ x'.ready
  decided : x.decided ⊆ x'.decided

theorem Progress.Grows.refl (x : Progress) : x.Grows x :=
  ⟨List.Subset.refl _, List.Subset.refl _, List.Subset.refl _, List.Subset.refl _⟩

namespace Effect

variable {cfg : Config} {me : Pid} {used : CmdId → Prop} {x x' : Progress}
  {inp : Option (Pid × Message)} {sends : List (Pid × Message)}

theorem grows (he : Effect cfg me used x inp x' sends) : x.Grows x' := by
  have happ : ∀ {α : Type} (l l' : List α), l ⊆ l ++ l' := fun l l' => List.subset_append_left l l'
  cases he with
  | announce cmd => exact ⟨happ _ _, happ _ _, List.Subset.refl _, List.Subset.refl _⟩
  | submit => exact ⟨List.Subset.refl _, happ _ _, List.Subset.refl _, List.Subset.refl _⟩
  | commit => exact ⟨List.Subset.refl _, happ _ _, List.Subset.refl _, List.Subset.refl _⟩
  | fast => exact ⟨List.Subset.refl _, happ _ _, happ _ _, happ _ _⟩
  | slow => exact ⟨List.Subset.refl _, List.Subset.refl _, happ _ _, List.Subset.refl _⟩
  | complete => exact ⟨List.Subset.refl _, happ _ _, List.Subset.refl _, happ _ _⟩
  | _ =>
    exact ⟨List.Subset.refl _, List.Subset.refl _, List.Subset.refl _, List.Subset.refl _⟩

theorem calls_cases (he : Effect cfg me used x inp x' sends) :
    (x'.calls = x.calls ∧ x'.log = x.log) ∨
    ∃ c, x'.calls = x.calls ++ [c] ∧ x.log.call c = some x'.log ∧
      ((∃ cmd ∈ x'.announced, c = .recordCreation cmd.id ∧ ¬ used cmd.id) ∨
        (∃ src cmd, c = .submit cmd ∧ inp = some (src, .announce (.req cmd))) ∨
        ∃ hash i deps, c = .commit hash i deps ∧
          ((i, deps) ∈ x'.decided ∨ ∃ src, inp = some (src, .announce (.commit i deps)))) := by
  cases he with
  | announce cmd bqs' targets hme hfresh =>
    exact .inr ⟨_, rfl, rfl, .inl ⟨cmd, List.mem_append_right _ (List.mem_singleton.mpr rfl), rfl,
      hfresh⟩⟩
  | submit src cmd => exact .inr ⟨_, rfl, rfl, .inr (.inl ⟨src, cmd, rfl, rfl⟩)⟩
  | commit src i deps hash log' h =>
    exact .inr ⟨_, rfl, h, .inr (.inr ⟨hash, i, deps, rfl, .inr ⟨src, rfl⟩⟩)⟩
  | fast inp i q hash log' hc hq hf h =>
    exact .inr ⟨_, rfl, h, .inr (.inr ⟨hash, i, _, rfl,
      .inl (List.mem_append_right _ (List.mem_singleton.mpr rfl))⟩)⟩
  | complete src i inst hash log' hi hm hlen h =>
    exact .inr ⟨_, rfl, h, .inr (.inr ⟨hash, i, _, rfl,
      .inl (List.mem_append_right _ (List.mem_singleton.mpr rfl))⟩)⟩
  | _ => exact .inl ⟨rfl, rfl⟩

theorem sends_cases (he : Effect cfg me used x inp x' sends) {dst : Pid} {msg : Message}
    (h : (dst, msg) ∈ sends) :
    (∃ cmd ∈ x'.announced, msg = .announce (.req cmd) ∧ cmd.id.pid = me) ∨
    (∃ cmd, msg = .announce (.res ⟨me, cmd.id, (x.log.submit cmd).2⟩) ∧
      inp = some (dst, .announce (.req cmd)) ∧ .submit cmd ∈ x'.calls) ∨
    (∃ i deps, msg = .announce (.commit i deps) ∧ (i, deps) ∈ x'.decided) ∨
    (∃ i deps, msg = .quorum (.request i deps)) ∨
    ∃ i deps, msg = .quorum (.response i deps) := by
  have hlast : ∀ {α : Type} (l : List α) (a : α), a ∈ l ++ [a] :=
    fun l a => List.mem_append_right _ (List.mem_singleton.mpr rfl)
  cases he with
  | announce cmd bqs' targets hme =>
    obtain ⟨t, -, ht⟩ := List.mem_map.mp h
    cases ht
    exact .inl ⟨cmd, hlast _ _, rfl, hme⟩
  | submit src cmd =>
    cases List.mem_singleton.mp h
    exact .inr (.inl ⟨cmd, rfl, rfl, hlast _ _⟩)
  | fast inp i q hash log' =>
    obtain ⟨t, -, ht⟩ := List.mem_map.mp h
    cases ht
    exact .inr (.inr (.inl ⟨i, _, rfl, hlast _ _⟩))
  | complete src i inst hash log' =>
    obtain ⟨t, -, ht⟩ := List.mem_map.mp h
    cases ht
    exact .inr (.inr (.inl ⟨i, _, rfl, hlast _ _⟩))
  | slow inp i q =>
    obtain ⟨t, -, ht⟩ := List.mem_map.mp h
    cases ht
    exact .inr (.inr (.inr (.inl ⟨i, _, rfl⟩)))
  | request src i deps =>
    cases List.mem_singleton.mp h
    exact .inr (.inr (.inr (.inr ⟨i, deps, rfl⟩)))
  | _ => cases h

theorem decided_cases (he : Effect cfg me used x inp x' sends) {i : CmdId} {deps : List CmdId}
    (h : (i, deps) ∈ x'.decided) :
    (i, deps) ∈ x.decided ∨ ∃ hash, .commit hash i deps ∈ x'.calls := by
  have hlast : ∀ {α : Type} (l : List α) (a : α), a ∈ l ++ [a] :=
    fun l a => List.mem_append_right _ (List.mem_singleton.mpr rfl)
  cases he with
  | fast inp j q hash log' =>
    rcases List.mem_append.mp h with h | h
    · exact .inl h
    · cases List.mem_singleton.mp h
      exact .inr ⟨hash, hlast _ _⟩
  | complete src j inst hash log' =>
    rcases List.mem_append.mp h with h | h
    · exact .inl h
    · cases List.mem_singleton.mp h
      exact .inr ⟨hash, hlast _ _⟩
  | _ => exact .inl h

theorem pending_cases (he : Effect cfg me used x inp x' sends) {i : CmdId} {l : List Res}
    (h : x'.pending i = some l) {r : Res} (hr : r ∈ l) :
    (∃ l₀, x.pending i = some l₀ ∧ r ∈ l₀) ∨
      r.id = i ∧ ∃ src, inp = some (src, .announce (.res r)) := by
  have hset : ∀ {j k}, (x.setPending j (some k)).pending i = some l →
      i = j ∧ l = k ∨ x.pending i = some l := by
    intro j k hk
    by_cases hij : i = j
    · subst hij
      rw [Progress.setPending_self, Option.some.injEq] at hk
      exact .inl ⟨rfl, hk.symm⟩
    · rw [Progress.setPending_of_ne _ hij] at hk
      exact .inr hk
  have hnone : ∀ {j}, (x.setPending j none).pending i = some l → x.pending i = some l := by
    intro j hk
    by_cases hij : i = j
    · subst hij
      rw [Progress.setPending_self] at hk
      cases hk
    · rwa [Progress.setPending_of_ne _ hij] at hk
  cases he with
  | announce cmd =>
    rcases hset (j := cmd.id) (k := []) h with ⟨rfl, rfl⟩ | h
    · cases hr
    · exact .inl ⟨l, h, hr⟩
  | collect src res l₀ hl =>
    rcases hset h with ⟨rfl, rfl⟩ | h
    · rcases List.mem_append.mp hr with hr | hr
      · exact .inl ⟨l₀, hl, hr⟩
      · cases List.mem_singleton.mp hr
        exact .inr ⟨rfl, src, rfl⟩
    · exact .inl ⟨l, h, hr⟩
  | fast inp j q => exact .inl ⟨l, hnone (j := j) h, hr⟩
  | slow inp j q => exact .inl ⟨l, hnone (j := j) h, hr⟩
  | _ => exact .inl ⟨l, h, hr⟩

theorem ready_cases (he : Effect cfg me used x inp x' sends) {i : CmdId} {rd : QuorumReady}
    (h : (i, rd) ∈ x'.ready) :
    (i, rd) ∈ x.ready ∨ Completes cfg x inp i rd.quorum ∧
      DDS.allowFastpath cfg rd.quorum = some rd.allowFastpath ∧ x'.pending i = none := by
  cases he with
  | fast inp j q hash log' hc hq hf =>
    rcases List.mem_append.mp h with h | h
    · exact .inl h
    · cases List.mem_singleton.mp h
      exact .inr ⟨hc, hf, x.hand_pending_self i q true⟩
  | slow inp j q hc hq hf =>
    rcases List.mem_append.mp h with h | h
    · exact .inl h
    · cases List.mem_singleton.mp h
      exact .inr ⟨hc, hf, x.hand_pending_self i q false⟩
  | _ => exact .inl h

theorem ready_new (he : Effect cfg me used x inp x' sends) :
    ∃ i₀, ∀ i rd, (i, rd) ∈ x'.ready →
      (i, rd) ∈ x.ready ∨ i = i₀ ∧ Completes cfg x inp i rd.quorum := by
  cases he with
  | fast inp j q hash log' hc =>
    refine ⟨j, fun i rd h => ?_⟩
    rcases List.mem_append.mp h with h | h
    · exact .inl h
    · cases List.mem_singleton.mp h
      exact .inr ⟨rfl, hc⟩
  | slow inp j q hc =>
    refine ⟨j, fun i rd h => ?_⟩
    rcases List.mem_append.mp h with h | h
    · exact .inl h
    · cases List.mem_singleton.mp h
      exact .inr ⟨rfl, hc⟩
  | _ => exact ⟨⟨0, 0⟩, fun i rd h => .inl h⟩

end Effect

/-! ## Steps of the network -/

namespace NetStep

variable {cfg : Config} {s s' : Net} {p : Pid} {inp : Option (Pid × Message)}

theorem other (h : NetStep cfg s p inp s') {q : Pid} (hq : q ≠ p) :
    s'.replica q = s.replica q := by
  obtain ⟨x', sends, rest, -, -, rfl⟩ := h
  exact Function.update_of_ne hq ..

theorem effect (h : NetStep cfg s p inp s') :
    ∃ sends rest, Effect cfg p s.used (s.replica p) inp (s'.replica p) sends ∧
      s.network.Perm (consumed p inp ++ rest) ∧ s'.network = rest ++ packets p sends ∧
      s'.sent = s.sent ++ packets p sends := by
  obtain ⟨x', sends, rest, he, hperm, rfl⟩ := h
  exact ⟨sends, rest, by simpa using he, hperm, rfl, rfl⟩

theorem grows (h : NetStep cfg s p inp s') (q : Pid) : (s.replica q).Grows (s'.replica q) := by
  by_cases hq : q = p
  · subst hq
    obtain ⟨sends, rest, he, -⟩ := h.effect
    exact he.grows
  · rw [h.other hq]
    exact .refl _

theorem sent_mono (h : NetStep cfg s p inp s') : s.sent ⊆ s'.sent := by
  obtain ⟨sends, rest, -, -, -, hs⟩ := h.effect
  rw [hs]
  exact List.subset_append_left _ _

theorem used_mono (h : NetStep cfg s p inp s') {i : CmdId} (hi : s.used i) : s'.used i := by
  obtain ⟨q, cmd, hcmd, hid⟩ := hi
  exact ⟨q, cmd, (h.grows q).announced hcmd, hid⟩

theorem consumed_mem (h : NetStep cfg s p inp s') {src : Pid} {msg : Message}
    (hi : inp = some (src, msg)) : ⟨src, p, msg⟩ ∈ s.network := by
  obtain ⟨sends, rest, -, hperm, -⟩ := h.effect
  subst hi
  exact hperm.mem_iff.mpr (by simp [consumed])

theorem call_cases (h : NetStep cfg s p inp s') {q : Pid} {c : LogCall}
    (hc : c ∈ (s'.replica q).calls) : c ∈ (s.replica q).calls ∨
    (∃ cmd ∈ (s'.replica q).announced, c = .recordCreation cmd.id ∧ ¬ s.used cmd.id) ∨
    (∃ src cmd, c = .submit cmd ∧ ⟨src, q, .announce (.req cmd)⟩ ∈ s.network) ∨
    ∃ hash i deps, c = .commit hash i deps ∧ ((i, deps) ∈ (s'.replica q).decided ∨
      ∃ src, ⟨src, q, .announce (.commit i deps)⟩ ∈ s.network) := by
  by_cases hq : q = p
  swap
  · rw [h.other hq] at hc
    exact .inl hc
  subst hq
  obtain ⟨sends, rest, he, -⟩ := h.effect
  rcases he.calls_cases with ⟨heq, -⟩ | ⟨c', heq, -, hcause⟩
  · exact .inl (heq ▸ hc)
  rw [heq, List.mem_append, List.mem_singleton] at hc
  rcases hc with hc | rfl
  · exact .inl hc
  rcases hcause with hcr | ⟨src, cmd, hcs, hi⟩ | ⟨hash, i, deps, hcc, hd⟩
  · exact .inr (.inl hcr)
  · exact .inr (.inr (.inl ⟨src, cmd, hcs, h.consumed_mem hi⟩))
  · exact .inr (.inr (.inr ⟨hash, i, deps, hcc,
      hd.imp_right fun ⟨src, hi⟩ => ⟨src, h.consumed_mem hi⟩⟩))

theorem sent_cases (h : NetStep cfg s p inp s') {pkt : Packet} (hp : pkt ∈ s'.sent) :
    pkt ∈ s.sent ∨ pkt.src = p ∧
    ((∃ cmd ∈ (s'.replica p).announced, pkt.msg = .announce (.req cmd) ∧ cmd.id.pid = p) ∨
    (∃ cmd, pkt.msg = .announce (.res ⟨p, cmd.id, ((s.replica p).log.submit cmd).2⟩) ∧
      inp = some (pkt.dst, .announce (.req cmd)) ∧ .submit cmd ∈ (s'.replica p).calls) ∨
    (∃ i deps, pkt.msg = .announce (.commit i deps) ∧ (i, deps) ∈ (s'.replica p).decided) ∨
    (∃ i deps, pkt.msg = .quorum (.request i deps)) ∨
    ∃ i deps, pkt.msg = .quorum (.response i deps)) := by
  obtain ⟨sends, rest, he, -, -, hsent⟩ := h.effect
  rw [hsent, List.mem_append, mem_packets] at hp
  exact hp.imp_right fun ⟨hsrc, hp⟩ => ⟨hsrc, he.sends_cases hp⟩

end NetStep

/-! ## The flow of messages and calls -/

structure Flow (cfg : Config) (s : Net) : Prop where
  sound : ∀ p, Sound cfg p (s.replica p)
  run : ∀ p, CmdLog.run (s.replica p).calls = some (s.replica p).log
  creates : ∀ p, CreatesFresh (s.replica p).calls
  in_sent : s.network ⊆ s.sent
  req : ∀ pkt ∈ s.sent, ∀ cmd, pkt.msg = .announce (.req cmd) →
    pkt.src = cmd.id.pid ∧ cmd ∈ (s.replica cmd.id.pid).announced
  res : ∀ pkt ∈ s.sent, ∀ r, pkt.msg = .announce (.res r) → r.pid = pkt.src ∧
    pkt.dst = r.id.pid ∧ (∃ cmd, .submit cmd ∈ (s.replica r.pid).calls ∧ cmd.id = r.id) ∧
      ∀ d ∈ r.conflicts, s.used d
  commit : ∀ pkt ∈ s.sent, ∀ i deps, pkt.msg = .announce (.commit i deps) →
    (i, deps) ∈ (s.replica i.pid).decided
  create_call : ∀ p i, .recordCreation i ∈ (s.replica p).calls → s.used i
  submit_call : ∀ p cmd, .submit cmd ∈ (s.replica p).calls →
    cmd ∈ (s.replica cmd.id.pid).announced
  commit_call : ∀ p hash i deps, .commit hash i deps ∈ (s.replica p).calls →
    (i, deps) ∈ (s.replica i.pid).decided
  decided_call : ∀ p i deps, (i, deps) ∈ (s.replica p).decided →
    ∃ hash, .commit hash i deps ∈ (s.replica p).calls
  pending_sent : ∀ p i l, (s.replica p).pending i = some l → ∀ r ∈ l,
    ∃ pkt ∈ s.sent, pkt.msg = .announce (.res r)
  ready_sent : ∀ p i rd, (i, rd) ∈ (s.replica p).ready → ∀ r ∈ rd.quorum,
    ∃ pkt ∈ s.sent, pkt.msg = .announce (.res r)

namespace Flow

variable {cfg : Config} {s s' : Net} {p : Pid} {inp : Option (Pid × Message)}

theorem init (cfg : Config) : Flow cfg (Cluster.init cfg).net := by
  refine ⟨Sound.init cfg, fun _ => rfl, fun _ => CreatesFresh.of_none fun _ => List.not_mem_nil,
    ?_, ?_, ?_, ?_, ?_, ?_, ?_, ?_, ?_, ?_⟩ <;>
    simp [Cluster.init, Cluster.net, BLSMR.default, BLSMR.progress, DDS.default]

theorem used_of_call (h : Flow cfg s) {c : LogCall} (hc : c ∈ (s.replica p).calls) :
    s.used c.cmdId := by
  cases c with
  | recordCreation i => exact h.create_call p i hc
  | submit cmd => exact ⟨_, cmd, h.submit_call p cmd hc, rfl⟩
  | commit hash i deps =>
    obtain ⟨cmd, hcmd, hid⟩ := (h.sound i.pid).ready_announced i
      ((h.sound i.pid).handedOver_of_decided ⟨deps, h.commit_call p hash i deps hc⟩)
    exact ⟨_, cmd, hcmd, hid⟩

theorem used_iff (h : Flow cfg s) {i : CmdId} : s.used i ↔ (s.replica i.pid).Announced i := by
  constructor
  · rintro ⟨q, cmd, hcmd, rfl⟩
    exact ⟨cmd, by rwa [(h.sound q).announced_pid cmd hcmd], rfl⟩
  · rintro ⟨cmd, hcmd, hid⟩
    exact ⟨_, cmd, hcmd, hid⟩

theorem at_coordinator (hp : Sound cfg p (s.replica p)) {i : CmdId} {deps : List CmdId}
    (hd : (i, deps) ∈ (s.replica p).decided) : (i, deps) ∈ (s.replica i.pid).decided := by
  rw [hp.pid_of_decided ⟨deps, hd⟩]
  exact hd

section Step

variable (h : Flow cfg s) (hs : NetStep cfg s p inp s')

include h hs

theorem consumed_sent {src : Pid} {msg : Message} (hi : inp = some (src, msg)) :
    ⟨src, p, msg⟩ ∈ s.sent :=
  h.in_sent (hs.consumed_mem hi)

theorem sound_step (q : Pid) : Sound cfg q (s'.replica q) := by
  by_cases hq : q = p
  · subst hq
    obtain ⟨sends, rest, he, -⟩ := hs.effect
    refine Sound.step he (fun i hi => ?_) (h.sound q)
    obtain ⟨cmd, hc, hid⟩ := hi
    exact ⟨q, cmd, hc, hid⟩
  · rw [hs.other hq]
    exact h.sound q

theorem run_step (q : Pid) : CmdLog.run (s'.replica q).calls = some (s'.replica q).log := by
  by_cases hq : q = p
  · subst hq
    obtain ⟨sends, rest, he, -⟩ := hs.effect
    rcases he.calls_cases with ⟨hcalls, hlog⟩ | ⟨c, hcalls, hcall, -⟩
    · rw [hcalls, hlog]
      exact h.run q
    · rw [hcalls, CmdLog.run_snoc, h.run q, Option.bind_some, hcall]
  · rw [hs.other hq]
    exact h.run q

theorem creates_step (q : Pid) : CreatesFresh (s'.replica q).calls := by
  by_cases hq : q = p
  swap
  · rw [hs.other hq]
    exact h.creates q
  subst hq
  obtain ⟨sends, rest, he, -⟩ := hs.effect
  rcases he.calls_cases with ⟨hcalls, -⟩ | ⟨c, hcalls, -, hcause⟩
  · rw [hcalls]
    exact h.creates q
  rw [hcalls]
  intro pre i post hsplit hmem
  rcases split_snoc hsplit with ⟨rfl, rfl, -⟩ | ⟨post', -, hsplit'⟩
  swap
  · exact h.creates q pre i post' hsplit' hmem
  rcases hcause with ⟨cmd, -, hcm, hnu⟩ | ⟨_, _, hcm, -⟩ | ⟨_, _, _, hcm, -⟩
  · cases hcm
    obtain ⟨c', hc', hid⟩ := List.mem_map.mp hmem
    exact hnu (hid ▸ h.used_of_call hc')
  · cases hcm
  · cases hcm

theorem in_sent_step : s'.network ⊆ s'.sent := by
  obtain ⟨sends, rest, he, hperm, hnet, hsent⟩ := hs.effect
  rw [hnet, hsent]
  refine List.append_subset.mpr ⟨fun pkt hp => List.mem_append_left _ (h.in_sent ?_),
    List.subset_append_right _ _⟩
  exact hperm.mem_iff.mpr (List.mem_append_right _ hp)

theorem req_step {pkt : Packet} (hp : pkt ∈ s'.sent) {cmd : Command}
    (hm : pkt.msg = .announce (.req cmd)) :
    pkt.src = cmd.id.pid ∧ cmd ∈ (s'.replica cmd.id.pid).announced := by
  rcases hs.sent_cases hp with hp | ⟨rfl, ⟨c, hc, hcm, hpid⟩ | ⟨c, hcm, -⟩ | ⟨i, d, hcm, -⟩ |
    ⟨i, d, hcm⟩ | ⟨i, d, hcm⟩⟩
  · obtain ⟨hsrc, hann⟩ := h.req pkt hp cmd hm
    exact ⟨hsrc, (hs.grows _).announced hann⟩
  · rw [hm] at hcm
    cases hcm
    rw [hpid]
    exact ⟨rfl, hc⟩
  all_goals rw [hm] at hcm; cases hcm

theorem res_step {pkt : Packet} (hp : pkt ∈ s'.sent) {r : Res}
    (hm : pkt.msg = .announce (.res r)) : r.pid = pkt.src ∧ pkt.dst = r.id.pid ∧
      (∃ cmd, .submit cmd ∈ (s'.replica r.pid).calls ∧ cmd.id = r.id) ∧
      ∀ d ∈ r.conflicts, s'.used d := by
  rcases hs.sent_cases hp with hp | ⟨hsrc, ⟨c, hc, hcm, hpid⟩ | ⟨c, hcm, hi, hsub⟩ |
    ⟨i, d, hcm, -⟩ | ⟨i, d, hcm⟩ | ⟨i, d, hcm⟩⟩
  · obtain ⟨hpid, hdst, ⟨cmd, hsub, hid⟩, hd⟩ := h.res pkt hp r hm
    exact ⟨hpid, hdst, ⟨cmd, (hs.grows _).calls hsub, hid⟩, fun d hdr => hs.used_mono (hd d hdr)⟩
  rotate_left
  · rw [hm] at hcm
    cases hcm
    refine ⟨hsrc.symm, (h.req _ (consumed_sent h hs hi) c rfl).1, ⟨c, hsub, rfl⟩,
      fun d hd => ?_⟩
    obtain ⟨c', hc', hid⟩ := CmdLog.submitted_of_mem (h.creates p) (h.run p) hd
    exact hs.used_mono ⟨_, c', h.submit_call p c' hc', hid⟩
  all_goals rw [hm] at hcm; cases hcm

theorem commit_step {pkt : Packet} (hp : pkt ∈ s'.sent) {i : CmdId} {deps : List CmdId}
    (hm : pkt.msg = .announce (.commit i deps)) : (i, deps) ∈ (s'.replica i.pid).decided := by
  rcases hs.sent_cases hp with hp | ⟨-, ⟨c, hc, hcm, hpid⟩ | ⟨c, hcm, -⟩ | ⟨j, d, hcm, hd⟩ |
    ⟨j, d, hcm⟩ | ⟨j, d, hcm⟩⟩
  · exact (hs.grows _).decided (h.commit pkt hp i deps hm)
  rotate_left 2
  · rw [hm] at hcm
    cases hcm
    exact at_coordinator (sound_step h hs p) hd
  all_goals rw [hm] at hcm; cases hcm

theorem create_call_step {q : Pid} {i : CmdId} (hc : .recordCreation i ∈ (s'.replica q).calls) :
    s'.used i := by
  rcases hs.call_cases hc with hc | ⟨cmd, hcmd, heq, -⟩ | ⟨_, _, heq, -⟩ | ⟨_, _, _, heq, -⟩
  · exact hs.used_mono (h.create_call q i hc)
  · cases heq
    exact ⟨q, cmd, hcmd, rfl⟩
  · cases heq
  · cases heq

theorem submit_call_step {q : Pid} {cmd : Command} (hc : .submit cmd ∈ (s'.replica q).calls) :
    cmd ∈ (s'.replica cmd.id.pid).announced := by
  rcases hs.call_cases hc with hc | ⟨_, -, heq, -⟩ | ⟨src, _, heq, hi⟩ | ⟨_, _, _, heq, -⟩
  · exact (hs.grows _).announced (h.submit_call q cmd hc)
  · cases heq
  · cases heq
    exact (hs.grows _).announced (h.req _ (h.in_sent hi) cmd rfl).2
  · cases heq

theorem commit_call_step {q : Pid} {hash : HashOrder} {i : CmdId} {deps : List CmdId}
    (hc : .commit hash i deps ∈ (s'.replica q).calls) :
    (i, deps) ∈ (s'.replica i.pid).decided := by
  rcases hs.call_cases hc with hc | ⟨_, -, heq, -⟩ | ⟨_, _, heq, -⟩ | ⟨_, _, _, heq, hd⟩
  · exact (hs.grows _).decided (h.commit_call q hash i deps hc)
  · cases heq
  · cases heq
  · cases heq
    rcases hd with hd | ⟨src, hi⟩
    · exact at_coordinator (sound_step h hs q) hd
    · exact (hs.grows _).decided (h.commit _ (h.in_sent hi) i deps rfl)

theorem decided_call_step {q : Pid} {i : CmdId} {deps : List CmdId}
    (hd : (i, deps) ∈ (s'.replica q).decided) :
    ∃ hash, .commit hash i deps ∈ (s'.replica q).calls := by
  have hold : (i, deps) ∈ (s.replica q).decided →
      ∃ hash, .commit hash i deps ∈ (s'.replica q).calls := by
    intro hd
    obtain ⟨hash, hc⟩ := h.decided_call q i deps hd
    exact ⟨hash, (hs.grows q).calls hc⟩
  by_cases hq : q = p
  · subst hq
    obtain ⟨sends, rest, he, -⟩ := hs.effect
    exact (he.decided_cases hd).elim hold id
  · rw [hs.other hq] at hd
    exact hold hd

theorem pending_sent_step {q : Pid} {i : CmdId} {l : List Res}
    (hl : (s'.replica q).pending i = some l) {r : Res} (hr : r ∈ l) :
    ∃ pkt ∈ s'.sent, pkt.msg = .announce (.res r) := by
  have hold : ∀ l₀, (s.replica q).pending i = some l₀ → r ∈ l₀ →
      ∃ pkt ∈ s'.sent, pkt.msg = .announce (.res r) := by
    intro l₀ hl₀ hr₀
    obtain ⟨pkt, hp, hm⟩ := h.pending_sent q i l₀ hl₀ r hr₀
    exact ⟨pkt, hs.sent_mono hp, hm⟩
  by_cases hq : q = p
  · subst hq
    obtain ⟨sends, rest, he, -⟩ := hs.effect
    rcases he.pending_cases hl hr with ⟨l₀, hl₀, hr₀⟩ | ⟨-, src, hi⟩
    · exact hold l₀ hl₀ hr₀
    · exact ⟨_, hs.sent_mono (consumed_sent h hs hi), rfl⟩
  · rw [hs.other hq] at hl
    exact hold l hl hr

theorem ready_sent_step {q : Pid} {i : CmdId} {rd : QuorumReady}
    (hrd : (i, rd) ∈ (s'.replica q).ready) {r : Res} (hr : r ∈ rd.quorum) :
    ∃ pkt ∈ s'.sent, pkt.msg = .announce (.res r) := by
  have hold : (i, rd) ∈ (s.replica q).ready →
      ∃ pkt ∈ s'.sent, pkt.msg = .announce (.res r) := by
    intro hrd
    obtain ⟨pkt, hp, hm⟩ := h.ready_sent q i rd hrd r hr
    exact ⟨pkt, hs.sent_mono hp, hm⟩
  by_cases hq : q = p
  swap
  · rw [hs.other hq] at hrd
    exact hold hrd
  subst hq
  obtain ⟨sends, rest, he, -⟩ := hs.effect
  rcases he.ready_cases hrd with hrd | ⟨hc, -⟩
  · exact hold hrd
  -- the replies of a new quorum were collected before, but for the one that completes it
  obtain ⟨l, hl, hsub⟩ := hc.pending
  rcases hsub r hr with hr | ⟨-, src, hi⟩
  · obtain ⟨pkt, hp, hm⟩ := h.pending_sent q i l hl r hr
    exact ⟨pkt, hs.sent_mono hp, hm⟩
  · exact ⟨_, hs.sent_mono (consumed_sent h hs hi), rfl⟩

/-- **A step keeps the flow.** -/
theorem step : Flow cfg s' where
  sound := sound_step h hs
  run := run_step h hs
  creates := creates_step h hs
  in_sent := in_sent_step h hs
  req _ hp _ hm := req_step h hs hp hm
  res _ hp _ hm := res_step h hs hp hm
  commit _ hp _ _ hm := commit_step h hs hp hm
  create_call _ _ hc := create_call_step h hs hc
  submit_call _ _ hc := submit_call_step h hs hc
  commit_call _ _ _ _ hc := commit_call_step h hs hc
  decided_call _ _ _ hd := decided_call_step h hs hd
  pending_sent _ _ _ hl _ hr := pending_sent_step h hs hl hr
  ready_sent _ _ _ hrd _ hr := ready_sent_step h hs hrd hr

end Step

theorem of_reachable {ok : Cluster → Action → Prop} {c : Cluster}
    (h : Cluster.ReachableBy cfg ok c) : Flow cfg c.net :=
  net_invariant (init cfg) (fun _ _ _ _ _ hF hs => hF.step hs) h

end Flow

/-! ## One decision per command -/

/-- Something commits `i` with `deps`: a message sent or a call on a log. -/
def Carries (c : Cluster) (i : CmdId) (deps : List CmdId) : Prop :=
  (∃ pkt ∈ c.sent, pkt.msg = .announce (.commit i deps)) ∨
    ∃ p hash, .commit hash i deps ∈ (c.replicas p).dds.calls

/-- **One decision per command.** In every reachable cluster a replica has
decided each command at most once and handed over at most one quorum for it, it
has decided only commands it announced, and everything that commits a command
carries the same dependencies. -/
theorem one_decision (cfg : Config) (c : Cluster) (h : Cluster.Reachable cfg c) :
    (∀ p, ((c.replicas p).decided.map Prod.fst).Nodup ∧
      ((c.replicas p).ready.map Prod.fst).Nodup) ∧
    (∀ p i deps, (i, deps) ∈ (c.replicas p).decided →
      i.pid = p ∧ ∃ cmd ∈ (c.replicas p).announced, cmd.id = i) ∧
    ∀ i deps deps', Carries c i deps → Carries c i deps' → deps = deps' := by
  have hF := Flow.of_reachable h
  have hcarry : ∀ i deps, Carries c i deps → (i, deps) ∈ (c.net.replica i.pid).decided := by
    rintro i deps (⟨pkt, hp, hm⟩ | ⟨p, hash, hc⟩)
    · exact hF.commit pkt hp i deps hm
    · exact hF.commit_call p hash i deps hc
  refine ⟨fun p => ⟨(hF.sound p).decided_nodup, (hF.sound p).ready_nodup⟩, fun p i deps hd => ?_,
    fun i deps deps' h₁ h₂ => (hF.sound i.pid).decided_unique (hcarry i deps h₁)
      (hcarry i deps' h₂)⟩
  exact ⟨(hF.sound p).pid_of_decided ⟨deps, hd⟩, (hF.sound p).ready_announced i
    ((hF.sound p).handedOver_of_decided ⟨deps, hd⟩)⟩

/-- Two Wintermute replicas. The last reply hands the quorum over, the force timer fires
during the slow path, and the decision reaches the other replica in a Commit message. -/
theorem one_decision_two :
    let cfg : Config := .standard .wintermute [0, 1]
    let a : Command := ⟨⟨0, 2⟩, 7⟩
    let b : Command := ⟨⟨1, 3⟩, 7⟩
    ∃ c, Cluster.Reachable cfg c ∧ (c.replicas 0).decided = [(a.id, [b.id])] ∧
      ⟨0, 1, .announce (.commit a.id [b.id])⟩ ∈ c.sent ∧
      ∀ deps, Carries c a.id deps → deps = [b.id] := by
  intro cfg a b
  let run : List Action := [.start 0 (.counting 0), .start 1 (.counting 1),
    .timer 0 1 (.counting 2), .timer 1 3 (.counting 3), .recv 4 0 0 (.req a), .recv 5 1 1 (.req b),
    .recv 6 0 1 (.req a), .recv 7 0 0 (.res 0 a []), .recv 8 1 0 (.res 1 a [b.id]),
    .recv 9 0 0 (.request a [b.id]), .timer 0 4 (.counting 10), .recv 11 0 1 (.request a [b.id]),
    .recv 12 0 0 (.response a [b.id]), .recv 13 1 0 (.response a [b.id]),
    .recv 14 0 1 (.commit a [b.id])]
  have hrun : (Cluster.execute cfg (fun _ _ => true) run).any (fun c =>
      decide ((c.replicas 0).decided = [(a.id, [b.id])] ∧
        ⟨0, 1, .announce (.commit a.id [b.id])⟩ ∈ c.sent)) = true := by decide +kernel
  obtain ⟨c, hc, hd⟩ := (Option.any_eq_true _ _).mp hrun
  obtain ⟨hdec, hsent⟩ := of_decide_eq_true hd
  have hreach := Cluster.reachable_execute (fun (_ : Cluster) (_ : Action) _ => True.intro) hc
  exact ⟨c, hreach, hdec, hsent, fun deps hdeps =>
    (one_decision cfg c hreach).2.2 a.id deps [b.id] hdeps (.inl ⟨_, hsent, rfl⟩)⟩

end Blsmr
