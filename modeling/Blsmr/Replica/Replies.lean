import Blsmr.Replica.Flow

/-!
# One reply from each replica

When commands are announced to the whole pool, every member holds one slot for a
command: the request on its way, the reply on its way, or the reply collected.
The slots of a command are distinct members of the pool (`Once`), so a quorum
handed over consists of distinct repliers.
-/

namespace Blsmr

open Blsmr.Transition

/-- The member a packet holds a slot of command `i` for. -/
def slot (i : CmdId) (pkt : Packet) : Option Pid :=
  match pkt.msg with
  | .announce (.req cmd) => if cmd.id = i then some pkt.dst else none
  | .announce (.res r) => if r.id = i then some r.pid else none
  | _ => none

/-- The repliers collected for a command. -/
def collected (l : Option (List Res)) : List Pid := (l.getD []).map Res.pid

/-- The slots of command `i`. -/
def Net.slots (s : Net) (i : CmdId) : List Pid :=
  s.network.filterMap (slot i) ++ collected ((s.replica i.pid).pending i)

structure Once (cfg : Config) (s : Net) : Prop where
  slots_nodup : ∀ i, (s.slots i).Nodup
  slots_sub : ∀ i, s.slots i ⊆ cfg.pool
  ready_nodup : ∀ p i rd, (i, rd) ∈ (s.replica p).ready → (rd.quorum.map Res.pid).Nodup
  ready_sub : ∀ p i rd, (i, rd) ∈ (s.replica p).ready → rd.quorum.map Res.pid ⊆ cfg.pool

namespace Once

variable {cfg : Config} {s s' : Net} {p : Pid} {inp : Option (Pid × Message)}

theorem init (cfg : Config) : Once cfg (Cluster.init cfg).net := by
  refine ⟨?_, ?_, ?_, ?_⟩ <;>
    simp [Cluster.init, Cluster.net, BLSMR.default, BLSMR.progress, DDS.default, Net.slots,
      collected]

theorem nodup_of_subperm {l l' : List Pid} (h : l.Subperm l') (hnd : l'.Nodup) : l.Nodup := by
  obtain ⟨m, hm, hsub⟩ := h
  exact hm.nodup_iff.mp (hnd.sublist hsub)

theorem slots_of_sends {sends : List (Pid × Message)} {i : CmdId}
    (h : ∀ m ∈ sends, slot i ⟨p, m.1, m.2⟩ = none) : (packets p sends).filterMap (slot i) = [] := by
  refine List.filterMap_eq_nil_iff.mpr fun pkt hpkt => ?_
  obtain ⟨hsrc, hm⟩ := mem_packets.mp hpkt
  subst hsrc
  exact h _ hm

theorem slot_commitSends (i j : CmdId) (deps : List CmdId) :
    ∀ m ∈ commitSends cfg p j deps, slot i ⟨p, m.1, m.2⟩ = none := by
  intro m hm
  obtain ⟨q, -, rfl⟩ := List.mem_map.mp hm
  rfl

theorem slot_requestSends (i j : CmdId) (deps : List CmdId) :
    ∀ m ∈ requestSends cfg j deps, slot i ⟨p, m.1, m.2⟩ = none := by
  intro m hm
  obtain ⟨q, -, rfl⟩ := List.mem_map.mp hm
  rfl

theorem slots_perm {rest : List Packet} (hperm : s.network.Perm (consumed p inp ++ rest))
    (i : CmdId) : (s.slots i).Perm (rest.filterMap (slot i) ++
      ((consumed p inp).filterMap (slot i) ++ collected ((s.replica i.pid).pending i))) := by
  unfold Net.slots
  refine ((hperm.filterMap _).append_right _).trans ?_
  rw [List.filterMap_append, ← List.append_assoc]
  exact List.perm_append_comm.append_right _

theorem slots_reply {src : Pid} {res : Res} {l : List Res}
    (hl : (s.replica res.id.pid).pending res.id = some l) :
    (consumed p (some (src, .announce (.res res)))).filterMap (slot res.id) ++
      collected ((s.replica res.id.pid).pending res.id) = res.pid :: l.map Res.pid := by
  rw [hl]
  simp [consumed, slot, collected]

theorem perm_reply (l : List Res) (res : Res) :
    ((l ++ [res]).map Res.pid).Perm (res.pid :: l.map Res.pid) := by
  rw [List.map_append]
  exact List.perm_append_comm

section

variable {x' : Progress} {i : CmdId}

theorem pending_update (h : x'.pending i = (s.replica p).pending i) :
    (Function.update s.replica p x' i.pid).pending i = (s.replica i.pid).pending i := by
  by_cases hip : i.pid = p
  · rw [hip, Function.update_self, h]
  · rw [Function.update_of_ne hip]

theorem collected_sublist {j : CmdId}
    (hj : x'.pending = Function.update (s.replica p).pending j none) :
    (collected ((Function.update s.replica p x' i.pid).pending i)).Sublist
      (collected ((s.replica i.pid).pending i)) := by
  by_cases hip : i.pid = p
  · by_cases hij : i = j
    · subst hij
      rw [hip, Function.update_self, hj, Function.update_self]
      exact List.nil_sublist _
    · rw [pending_update (by rw [hj, Function.update_of_ne hij])]
  · rw [Function.update_of_ne hip]

theorem announce_ne {cmd : Command} {bqs' : QuorumSystem} {s' : Net}
    (hreplica : s'.replica = Function.update s.replica p ((s.replica p).announce cmd bqs'))
    (hfresh : ¬ s.used cmd.id) (hold : s.used i ∨ ¬ s'.used i) : i ≠ cmd.id := by
  rintro rfl
  rcases hold with h | h
  · exact hfresh h
  · refine h ⟨p, cmd, ?_, rfl⟩
    rw [hreplica, Function.update_self]
    exact List.mem_append_right _ (List.mem_singleton.mpr rfl)

end

theorem slots_subperm (hF : Flow cfg s) (hs : NetStep cfg s p inp s') (i : CmdId)
    (hold : s.used i ∨ ¬ s'.used i) : (s'.slots i).Subperm (s.slots i) := by
  have hin : ∀ {src res}, inp = some (src, .announce (.res res)) → res.id.pid = p := fun hi =>
    (hF.res _ (hF.in_sent (hs.consumed_mem hi)) _ rfl).2.1.symm
  obtain ⟨x', sends, rest, he, hperm, rfl⟩ := hs
  set old := collected ((s.replica i.pid).pending i) with hold'
  set new := collected ((Function.update s.replica p x' i.pid).pending i) with hnew
  suffices h : ((packets p sends).filterMap (slot i) ++ new).Subperm
      ((consumed p inp).filterMap (slot i) ++ old) by
    refine List.Subperm.trans ?_ (slots_perm hperm i).symm.subperm
    show ((rest ++ packets p sends).filterMap (slot i) ++ new).Subperm _
    rw [List.filterMap_append, List.append_assoc]
    exact (List.subperm_append_left _).mpr h
  have hsame : x'.pending i = (s.replica p).pending i → new = old := fun h =>
    congrArg collected (pending_update h)
  have hquiet : (∀ m ∈ sends, slot i ⟨p, m.1, m.2⟩ = none) → new.Sublist old →
      ((packets p sends).filterMap (slot i) ++ new).Subperm
        ((consumed p inp).filterMap (slot i) ++ old) := by
    intro h hsub
    rw [slots_of_sends h, List.nil_append]
    exact (hsub.trans (List.sublist_append_right _ _)).subperm
  cases he with
  | announce cmd bqs' targets hme hfresh ht =>
    have hi : i ≠ cmd.id := announce_ne rfl hfresh hold
    refine hquiet (fun m hm => ?_) ?_
    · obtain ⟨q, -, rfl⟩ := List.mem_map.mp hm
      simp [slot, hi.symm]
    · rw [hsame (Function.update_of_ne hi ..)]
  | submit src cmd =>
    have hnew' : new = old := hsame rfl
    rw [hnew']
    refine (List.Perm.append_right _ (List.Perm.of_eq ?_)).subperm
    by_cases hi : cmd.id = i <;> simp [packets, consumed, slot, hi]
  | collect src res l hl hr =>
    obtain rfl : res.id.pid = p := hin rfl
    by_cases hi : res.id = i
    · subst hi
      have hcollected : new = (l ++ [res]).map Res.pid := by
        rw [hnew, Function.update_self, Progress.setPending_self]
        rfl
      rw [hold', slots_reply hl, hcollected]
      exact (perm_reply l res).subperm
    · refine hquiet (by simp) ?_
      rw [hsame (Progress.setPending_of_ne _ (Ne.symm hi) _)]
  | fast inp j q hash log' =>
    exact hquiet (slot_commitSends i j _) (collected_sublist (j := j) rfl)
  | slow inp j q =>
    exact hquiet (slot_requestSends i j _) (collected_sublist (j := j) rfl)
  | complete src j inst hash log' =>
    exact hquiet (slot_commitSends i j _) (by rw [hsame rfl])
  | request src j deps =>
    exact hquiet (by simp [slot]) (by rw [hsame rfl])
  | _ => exact hquiet (by simp) (by rw [hsame rfl])

theorem slot_of_unused (hF : Flow cfg s) {i : CmdId} (hu : ¬ s.used i) :
    ∀ pkt ∈ s.network, slot i pkt = none := by
  intro pkt hpkt
  have hsent := hF.in_sent hpkt
  unfold slot
  split
  · rename_i cmd hm
    refine if_neg ?_
    rintro rfl
    exact hu ⟨_, cmd, (hF.req pkt hsent cmd hm).2, rfl⟩
  · rename_i r hm
    refine if_neg ?_
    rintro rfl
    obtain ⟨cmd, hc, hid⟩ := (hF.res pkt hsent r hm).2.2.1
    exact hu ⟨_, cmd, hF.submit_call _ cmd hc, hid⟩
  · rfl

theorem slots_announced (hF : Flow cfg s) (hs : NetStep cfg s p inp s')
    (hproto : cfg.protocolType ≠ .threeJane) {i : CmdId} (hu : ¬ s.used i) (hu' : s'.used i) :
    s'.slots i = cfg.pool := by
  have hnone := slot_of_unused hF hu
  obtain ⟨x', sends, rest, he, hperm, rfl⟩ := hs
  obtain ⟨q, cmd, hcmd, rfl⟩ := hu'
  have hq : q = p := by
    by_contra hq
    replace hcmd : cmd ∈ (Function.update s.replica p x' q).announced := hcmd
    rw [Function.update_of_ne hq] at hcmd
    exact hu ⟨q, cmd, hcmd, rfl⟩
  subst hq
  replace hcmd : cmd ∈ (Function.update s.replica q x' q).announced := hcmd
  rw [Function.update_self] at hcmd
  cases he with
  | announce cmd' bqs' targets hme hfresh ht =>
    rcases List.mem_append.mp hcmd with h | h
    · exact absurd ⟨q, cmd, h, rfl⟩ hu
    obtain rfl := List.mem_singleton.mp h
    have hrest : rest.filterMap (slot cmd.id) = [] :=
      List.filterMap_eq_nil_iff.mpr fun pkt hp =>
        hnone pkt (hperm.mem_iff.mpr (List.mem_append_right _ hp))
    have htargets : targets = cfg.pool := by
      rcases ht with ⟨-, -, h⟩ | ⟨h, -⟩
      · exact h
      · exact absurd h hproto
    subst htargets
    unfold Net.slots
    simp only [hme, Function.update_self, List.filterMap_append, hrest, List.nil_append]
    have hsends : (packets q (cfg.pool.map fun pid => (pid, .announce (.req cmd)))).filterMap
        (slot cmd.id) = cfg.pool := by
      simp [packets, slot, List.filterMap_map, Function.comp_def]
    rw [hsends, Progress.announce_pending_self]
    simp [collected]
  | _ => exact absurd ⟨q, cmd, hcmd, rfl⟩ hu

theorem quorum_subperm (hF : Flow cfg s) (hs : NetStep cfg s p inp s') {q : Pid} {i : CmdId}
    {rd : QuorumReady} (hrd : (i, rd) ∈ (s'.replica q).ready) :
    (i, rd) ∈ (s.replica q).ready ∨ (rd.quorum.map Res.pid).Subperm (s.slots i) := by
  by_cases hq : q = p
  swap
  · rw [hs.other hq] at hrd
    exact .inl hrd
  subst hq
  obtain ⟨sends, rest, he, hperm, -⟩ := hs.effect
  rcases he.ready_cases hrd with hrd | ⟨hc, -⟩
  · exact .inl hrd
  right
  rcases hc with ⟨src, res, l, rfl, rfl, hl, hql, -⟩ | ⟨rfl, hl, -⟩
  · have hpid : res.id.pid = q :=
      (hF.res _ (hF.in_sent (hs.consumed_mem rfl)) _ rfl).2.1.symm
    have hall := slots_perm hperm res.id
    rw [slots_reply (hpid.symm ▸ hl)] at hall
    rw [hql]
    refine List.Subperm.trans ?_ hall.symm.subperm
    exact (perm_reply l res).subperm.trans (List.sublist_append_right _ _).subperm
  · have hpid : i.pid = q :=
      (hF.sound q).pid_of_announced ((hF.sound q).pending_open i _ hl).1
    unfold Net.slots
    rw [hpid, hl]
    exact (List.sublist_append_right _ _).subperm

/-- **A step keeps one slot for each member.** -/
theorem step (hO : Once cfg s) (hF : Flow cfg s) (hproto : cfg.protocolType ≠ .threeJane)
    (hpool : cfg.pool.Nodup) (hs : NetStep cfg s p inp s') : Once cfg s' := by
  have hslots : ∀ i, s'.slots i = cfg.pool ∨ (s'.slots i).Subperm (s.slots i) := by
    intro i
    by_cases hu : s.used i
    · exact .inr (slots_subperm hF hs i (.inl hu))
    · by_cases hu' : s'.used i
      · exact .inl (slots_announced hF hs hproto hu hu')
      · exact .inr (slots_subperm hF hs i (.inr hu'))
  refine ⟨fun i => ?_, fun i => ?_, fun q i rd hrd => ?_, fun q i rd hrd => ?_⟩
  · rcases hslots i with h | h
    · rw [h]; exact hpool
    · exact nodup_of_subperm h (hO.slots_nodup i)
  · rcases hslots i with h | h
    · rw [h]; exact List.Subset.refl _
    · exact fun x hx => hO.slots_sub i (h.subset hx)
  · rcases quorum_subperm hF hs hrd with h | h
    · exact hO.ready_nodup q i rd h
    · exact nodup_of_subperm h (hO.slots_nodup i)
  · rcases quorum_subperm hF hs hrd with h | h
    · exact hO.ready_sub q i rd h
    · exact fun x hx => hO.slots_sub i (h.subset hx)

theorem of_reachable {ok : Cluster → Action → Prop} {c : Cluster}
    (hproto : cfg.protocolType ≠ .threeJane) (hpool : cfg.pool.Nodup)
    (h : Cluster.ReachableBy cfg ok c) : Once cfg c.net :=
  (net_invariant (I := fun s => Flow cfg s ∧ Once cfg s) ⟨Flow.init cfg, init cfg⟩
    (fun _ _ _ _ _ hI hs => ⟨hI.1.step hs, hI.2.step hI.1 hproto hpool hs⟩) h).2

end Once

end Blsmr
