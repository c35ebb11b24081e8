import Blsmr.Bullshark.Converge
import Blsmr.Bullshark.FullRounds
import Mathlib.Data.Finset.Max

/-!
# When the system stops

With nothing in flight only a round timer takes a replica on, and it does so if the row of its
round has a quorum. A replica that is not behind (`Behind`) holds every vertex above its bound,
so in the last round that all replicas have reached somebody's timer starts a new one. And
where no round timer is left nothing will ever be created again (`stops_only_behind`).
-/

namespace Blsmr.Bullshark

open Blsmr.Transition Blsmr.Graph RoundBasedDAG
open Broadcast (Packet)

/-- The replica has given up waiting, and a quorum of its round came to the DAG without a check. -/
def Missed (s : Bullshark) : Prop :=
  s.wait = false ∧ s.quorumReachedForRound s.round = some true

/-- The replica has left something behind: a vertex in its buffer, or its round. -/
def Behind (s : Bullshark) : Prop := (∃ u, Stranded s u) ∨ Missed s

/-- The replica has a vertex of its round, and while it waits there a timer. -/
structure Awake (c : System) (p : Pid) : Prop where
  own : ∃ v ∈ c.shared.created, v.source = p ∧ v.round = (c.replicas p).round
  submitTimer : (c.replicas p).submitTimer < c.shared.nextTimer
  timer : (c.replicas p).timer < c.shared.nextTimer
  apart : (c.replicas p).round ≠ 0 → (c.replicas p).submitTimer ≠ (c.replicas p).timer
  rings : (c.replicas p).round ≠ 0 → (c.replicas p).wait = true →
    (p, (c.replicas p).timer) ∈ c.timers

section

variable {cfg : Config} {c c' base : System} {p q : Pid} {w w' : Work} {a : Action}

theorem Awake.other (hA : Awake c q) (hq : q ≠ p) (hreplicas : base.replicas = c.replicas)
    (hcreated : c.shared.created ⊆ w'.shared.created)
    (hnext : c.shared.nextTimer ≤ w'.shared.nextTimer)
    (htimers : ∀ id, (q, id) ∈ c.timers → (q, id) ∈ base.timers) : Awake (base.update p w') q := by
  have hstate := (System.update_replicas hreplicas p w').2 q hq
  obtain ⟨⟨v, hv, hs, hr⟩, hsubmit, htimer, hapart, hrings⟩ := hA
  refine ⟨⟨v, hcreated hv, hs, ?_⟩, ?_, ?_, ?_, ?_⟩ <;> rw [hstate]
  · exact hr
  · exact hsubmit.trans_le hnext
  · exact htimer.trans_le hnext
  · exact hapart
  · exact fun h0 hwait => List.mem_append_right _ (htimers _ (hrings h0 hwait))

theorem Awake.after (hA : Awake c p) (hcreated : c.shared.created ⊆ w'.shared.created)
    (hnext : c.shared.nextTimer ≤ w'.shared.nextTimer)
    (h : (w'.state.submitTimer = (c.replicas p).submitTimer ∨
          c.shared.nextTimer ≤ w'.state.submitTimer ∧
            w'.state.submitTimer < w'.shared.nextTimer) ∧
        w'.state.timer = (c.replicas p).timer ∧ w'.state.round = (c.replicas p).round ∧
        ((c.replicas p).round ≠ 0 → w'.state.wait = true →
          (p, (c.replicas p).timer) ∈ base.timers) ∨
      w'.state.submitTimer = (c.replicas p).submitTimer ∧ Opens p c.shared.nextTimer w') :
    Awake (base.update p w') p := by
  have hstate : (base.update p w').replicas p = w'.state := Function.update_self _ _ _
  obtain ⟨⟨v, hv, hs, hr⟩, hbelow, htimer, hapart, -⟩ := hA
  rcases h with ⟨hsubmit, hsame, hround, hrings⟩ | ⟨hsubmit, hown, hin, hfresh⟩
  · refine ⟨⟨v, hcreated hv, hs, ?_⟩, ?_, ?_, ?_, ?_⟩ <;> rw [hstate]
    · exact hr.trans hround.symm
    · exact hsubmit.elim (fun h => h ▸ hbelow.trans_le hnext) And.right
    · exact hsame ▸ htimer.trans_le hnext
    · rw [hround, hsame]
      refine hsubmit.elim (fun h => h ▸ hapart) fun h _ => ?_
      exact (htimer.trans_le h.1).ne'
    · rw [hround, hsame]
      exact fun h0 hwait => List.mem_append_right _ (hrings h0 hwait)
  · refine ⟨?_, ?_, ?_, ?_, ?_⟩ <;> rw [hstate]
    · exact hown
    · exact hsubmit ▸ hbelow.trans_le hnext
    · exact hfresh.2
    · exact fun _ => hsubmit ▸ (hbelow.trans_le hfresh.1).ne
    · exact fun _ _ => List.mem_append_left _ (List.mem_map_of_mem hin)

theorem mem_eraseIdx_of_ne {α : Type} {l : List α} {k : ℕ} {x y : α} (hk : l[k]? = some y)
    (hne : x ≠ y) (h : x ∈ l) : x ∈ l.eraseIdx k := by
  obtain ⟨i, hi⟩ := List.mem_iff_getElem?.mp h
  refine List.mem_eraseIdx_iff_getElem?.mpr ⟨i, fun heq => hne ?_, hi⟩
  rw [← heq, hi] at hk
  exact Option.some.inj hk

theorem Awake.start (hpos : 0 < c.shared.nextTimer) (hidle : c.replicas p = Bullshark.default)
    (drain : Hotstuff.Drain) :
    Awake (base.update p (onStart (c.env cfg p drain) (c.work p))) p := by
  have hstate : (base.update p (onStart (c.env cfg p drain) (c.work p))).replicas p =
      (onStart (c.env cfg p drain) (c.work p)).state := Function.update_self _ _ _
  have hround : (onStart (c.env cfg p drain) (c.work p)).state.round = 0 := by
    obtain ⟨timer, h⟩ := setUp_state (c.env cfg p drain) (c.work p)
    exact (congrArg Bullshark.round h).trans (congrArg Bullshark.round hidle)
  have htimer : (onStart (c.env cfg p drain) (c.work p)).state.timer = 0 := by
    obtain ⟨timer, h⟩ := setUp_state (c.env cfg p drain) (c.work p)
    exact (congrArg Bullshark.timer h).trans (congrArg Bullshark.timer hidle)
  have hclock : (onStart (c.env cfg p drain) (c.work p)).state.submitTimer <
      (onStart (c.env cfg p drain) (c.work p)).shared.nextTimer ∧
      0 < (onStart (c.env cfg p drain) (c.work p)).shared.nextTimer := by
    show (setUp (c.env cfg p drain) (c.work p)).state.submitTimer <
      (setUp (c.env cfg p drain) (c.work p)).shared.nextTimer ∧
      0 < (setUp (c.env cfg p drain) (c.work p)).shared.nextTimer
    unfold setUp
    split
    · exact ⟨Nat.lt_succ_self _, Nat.succ_pos _⟩
    · have hsubmit : (c.work p).state.submitTimer = 0 := congrArg Bullshark.submitTimer hidle
      exact ⟨hsubmit ▸ hpos, hpos⟩
  refine ⟨⟨genesis (c.env cfg p drain) (c.work p), ?_, rfl, ?_⟩, ?_, ?_, ?_, ?_⟩
  · show _ ∈ (setUp (c.env cfg p drain) (c.work p)).shared.created
    rw [setUp_created]
    exact List.mem_cons_self
  · exact hstate ▸ hround.symm
  · exact hstate ▸ hclock.1
  · exact hstate ▸ htimer ▸ hclock.2
  · exact fun h0 => absurd (hstate ▸ hround) h0
  · exact fun h0 => absurd (hstate ▸ hround) h0

/-- Timers are numbered from 1, and every replica that has started is awake. -/
structure Watched (c : System) : Prop where
  pos : 0 < c.shared.nextTimer
  awake : ∀ p ∈ c.started, Awake c p

theorem Works.nextTimer (h : Works cfg c p base w') :
    c.shared.nextTimer ≤ w'.shared.nextTimer := by
  cases h with
  | @start p drain hp hs =>
    show _ ≤ (setUp (c.env cfg p drain) (c.work p)).shared.nextTimer
    unfold setUp
    split
    · exact Nat.le_succ _
    · exact Nat.le_refl _
  | deliver _ _ h _ => exact h.nextTimer
  | request _ h =>
    rcases h with rfl | rfl
    · exact Nat.le_refl _
    · exact Nat.le_succ _
  | fire _ h => exact (tryAdvanceRound_speaks h).nextTimer
  | _ => exact Nat.le_refl _

theorem Watched.step (hW : Watched c) (hI : Invariant cfg c) (h : System.step cfg c a = some c') :
    Watched c' := by
  obtain ⟨p, base, w', rfl, hw⟩ := hI.works h
  have hnext := hw.nextTimer
  refine ⟨hW.pos.trans_le hnext, fun q hq => ?_⟩
  by_cases hqp : q = p
  · subst hqp
    cases hw with
    | start hp hs => exact .start hW.pos (hI.idle _ hs) _
    | deliver hk hs h hreceived =>
      have hA := hW.awake _ hs
      refine hA.after h.created hnext ?_
      exact h.round.imp (fun hR => ⟨.inl h.submitTimer, hR.1, hR.2.1, fun h0 hwait => hA.rings h0
        (hR.2.2.symm.trans hwait)⟩) fun hO => ⟨h.submitTimer, hO⟩
    | @submit _ _ command hs =>
      refine (hW.awake _ hs).after (List.Subset.refl _) hnext (.inl ?_)
      have hrings := (hW.awake _ hs).rings
      unfold onSubmit
      split <;> exact ⟨.inl rfl, rfl, rfl, hrings⟩
    | request hk h =>
      have hA := hW.awake _ (hI.timers _ (List.mem_of_getElem? hk))
      have hrings : (c.replicas q).round ≠ 0 → (c.replicas q).wait = true →
          (q, (c.replicas q).timer) ∈ c.timers.eraseIdx _ := fun h0 hwait =>
        mem_eraseIdx_of_ne hk (fun heq => hA.apart h0 (congrArg Prod.snd heq).symm)
          (hA.rings h0 hwait)
      rcases h with rfl | rfl
      · exact hA.after (List.Subset.refl _) hnext (.inl ⟨.inl rfl, rfl, rfl, hrings⟩)
      · exact hA.after (List.Subset.refl _) hnext
          (.inl ⟨.inr ⟨Nat.le_refl _, Nat.lt_succ_self _⟩, rfl, rfl, hrings⟩)
    | fire hk h =>
      have hS := tryAdvanceRound_speaks h
      refine (hW.awake _ (hI.timers _ (List.mem_of_getElem? hk))).after hS.created hnext ?_
      refine hS.round.imp (fun hR => ⟨.inl hS.submitTimer, hR.1, hR.2.1, fun _ hwait => ?_⟩)
        fun hO => ⟨hS.submitTimer, hO⟩
      rw [hR.2.2] at hwait
      cases hwait
    | stale hk hne =>
      have hA := hW.awake _ (hI.timers _ (List.mem_of_getElem? hk))
      refine hA.after (List.Subset.refl _) hnext (.inl ⟨.inl rfl, rfl, rfl, fun h0 hwait => ?_⟩)
      exact mem_eraseIdx_of_ne hk (fun heq => hne (congrArg Prod.snd heq).symm)
        (hA.rings h0 hwait)
  · refine (hW.awake q ?_).other hqp hw.replicas hw.tells.created hnext fun id hid => ?_
    · cases hw with
      | start => exact (List.mem_cons.mp hq).resolve_left hqp
      | _ => exact hq
    · have hne : ∀ {x}, (q, id) ≠ (p, x) := fun heq => hqp (congrArg Prod.fst heq)
      cases hw with
      | request hk _ => exact mem_eraseIdx_of_ne hk hne hid
      | fire hk _ => exact mem_eraseIdx_of_ne hk hne hid
      | stale hk _ => exact mem_eraseIdx_of_ne hk hne hid
      | _ => exact hid

theorem Watched.of_reachable (h : c.Reachable cfg) : Watched c :=
  h.invariant ⟨Nat.one_pos, List.forall_mem_nil _⟩ fun _ _ _ hr _ hW hs =>
    hW.step (Invariant.of_reachable hr) hs

end

/-! ## Genesis vertices -/

section

variable {cfg : Config} {c : System} {p : Pid} {env : Env} {s : Bullshark} {w w' : Work}
  {v : Vertex} {n : ℕ}

/-- A replica leaves round 0 as soon as it has a quorum of genesis vertices. -/
def Rested (n : ℕ) (s : Bullshark) : Prop := s.round = 0 → ¬ Full n s.dag 0

theorem Good.tryAdvanceRound_rested (hG : Good env.cfg env.me w)
    (h : tryAdvanceRound env w = some w') : Rested env.cfg.procNum w'.state := by
  intro h0
  rcases tryAdvanceRound_cases hG h with ⟨hno, rfl⟩ | ⟨-, -, hE⟩
  · rwa [h0] at hno
  · have := hE.entered
    omega

theorem Steady.onVertex_rested (hS : Steady env.cfg env.me w) (hmem : v ∈ w.shared.created)
    (h0 : v.round ≠ 0) (h : onVertex env v w = some w') (hR : Rested env.cfg.procNum w.state) :
    Rested env.cfg.procNum w'.state := by
  obtain ⟨w₃, hS₃, hH, hends⟩ := hS.onVertex_handled hmem h0 h
  intro hround hfull
  rcases hends.round with ⟨hsame, hdag, -⟩ | ⟨hE, -⟩
  · have hround₃ : w₃.state.round = 0 := hsame.1.symm.trans hround
    have hround₀ : w.state.round = 0 := by
      rcases hH.round with hR | hE
      · exact hR.1.symm.trans hround₃
      · have := hE.later
        omega
    rw [hdag] at hfull
    obtain ⟨vs, hnd, hq, hvs⟩ := hfull
    refine hR hround₀ ⟨vs, hnd, hq, fun x hx => ?_⟩
    obtain ⟨hhas, hxr⟩ := hvs x hx
    refine ⟨?_, hxr⟩
    have hx₀ : x ∈ w.shared.created := by
      refine (hH.moves.created_later.2 x (hS₃.good.sound.dag.mem hhas)).resolve_right fun h => ?_
      have := h.2
      omega
    rcases hH.has x hx₀ hhas with hx | ⟨rfl, -⟩
    · cases hx with
      | held hhas => exact hhas
      | buffered _ hlt _ => omega
    · exact absurd hxr h0
  · have := hE.entered
    omega

theorem not_full_default (n k r : ℕ) : ¬ Full n (RoundBasedDAG.default.setRoundSize k) r := by
  rintro ⟨vs, -, hq, hvs⟩
  obtain ⟨x, hx⟩ := List.exists_mem_of_length_pos ((quorumSize_pos n).trans_le hq)
  exact absurd ((causal_default k []).mem (hvs x hx).1) List.not_mem_nil

theorem Does.rested {out : Option (Pid × VertexMessage)} (hd : Does cfg p s out w')
    (hL : Level cfg.procNum s) (hR : Rested cfg.procNum s) : Rested cfg.procNum w'.state := by
  cases hd with
  | start hnew _ _ => exact fun _ => hnew.dag ▸ not_full_default _ _ _
  | idle hstill =>
    unfold Rested
    rwa [hstill.round, hstill.dag]
  | @timeout env w _ hcfg hme hG hstate h =>
    subst hcfg hme
    exact hG.tryAdvanceRound_rested h
  | @genesis env w _ v hcfg hme hG hstill hmem h0 h =>
    subst hcfg hme
    have hS := (hL.congr hstill.dag hstill.round hstill.timer).steady hG
    obtain ⟨w₁, hS₁, h⟩ := hS.onGenesis_eq hmem h0 h
    exact hS₁.good.tryAdvanceRound_rested h
  | @vertex env w _ v hcfg hme hG hstill hmem h0 h =>
    subst hcfg hme
    have hS := (hL.congr hstill.dag hstill.round hstill.timer).steady hG
    refine hS.onVertex_rested hmem h0 h ?_
    unfold Rested
    rwa [hstill.round, hstill.dag]

theorem Rested.of_reachable (h : c.Reachable cfg) (p : Pid) :
    Rested cfg.procNum (c.replicas p) := by
  refine h.invariant (I := fun c => ∀ p, Rested cfg.procNum (c.replicas p))
    (fun p _ => not_full_default _ 0 _) (fun c a c' hr _ hR hs p => ?_) p
  obtain ⟨q, w', ⟨hstate, hothers⟩, hd⟩ := (Invariant.of_reachable hr).does hs
  by_cases hp : p = q
  · subst hp
    rw [hstate]
    exact hd.rested (Level.of_reachable hr p) (hR p)
  · rw [hothers p hp]
    exact hR p

end

/-! ## With nothing in flight -/

theorem quorum_of_all {n : ℕ} {P : Vertex → Prop} (hpos : 0 < n)
    (h : ∀ p < n, ∃ x, P x ∧ x.source = p) :
    ∃ vs : List Vertex, vs.Nodup ∧ quorumSize n ≤ vs.length ∧ ∀ x ∈ vs, P x := by
  have : Nonempty Vertex := ⟨(h 0 hpos).choose⟩
  choose! f hf using h
  have hsources : ((List.range n).map f).map Vertex.source = List.range n := by
    rw [List.map_map]
    refine (List.map_congr_left fun p hp => ?_).trans (List.map_id _)
    exact (hf p (List.mem_range.mp hp)).2
  refine ⟨(List.range n).map f, .of_map Vertex.source ?_, ?_, fun x hx => ?_⟩
  · rw [hsources]
    exact List.nodup_range
  · rw [List.length_map, List.length_range]
    unfold quorumSize adversaryThreshold
    omega
  · obtain ⟨p, hp, rfl⟩ := List.mem_map.mp hx
    exact (hf p (List.mem_range.mp hp)).1

section

variable {cfg : Config} {c : System} (h : c.Reachable cfg) (hquiet : c.network = [])
  (hstarted : ∀ p ∈ cfg.pool, p ∈ c.started)
  (hnone : ∀ p ∈ cfg.pool, ∀ u, ¬ Stranded (c.replicas p) u)

include h hquiet hstarted hnone

theorem drained_has {p : Pid} (hp : p ∈ cfg.pool) {v : Vertex} (hv : v ∈ c.shared.created)
    (hor : (c.replicas p).dag.gcOffset = 0 ∨ (c.replicas p).dag.gcOffset < v.round) :
    (c.replicas p).dag.Has v := by
  have hI := Invariant.of_reachable h
  have hR := Received.of_reachable h p
  have hall : ∀ u ∈ c.shared.created, u ∈ (c.replicas p).history.received := fun u hu =>
    (Spread.of_reachable h).received hI hquiet hp hu
  by_cases hlt : (c.replicas p).dag.gcOffset < v.round
  · exact (hR.has_iff hI.vertices (hI.sound p (hstarted p hp)).dag hall hv hlt).mpr
      fun u _ => hnone p hp u
  · rcases (hR.received v (hall v hv)).2 with hin | hthrown | hhas | hbelow
    · have := ((hI.sound p (hstarted p hp)).buffered v hin).2
      omega
    · have := (hR.thrown v hthrown).1
      omega
    · exact hhas
    · omega

/-- No replica is more than a round behind another one, and one that is a round behind has a
quorum of its own round. -/
theorem drained_below {p q : Pid} (hp : p ∈ cfg.pool) (hq : q ∈ cfg.pool)
    (hlt : (c.replicas q).round < (c.replicas p).round) :
    Full cfg.procNum (c.replicas q).dag (c.replicas q).round := by
  have hI := Invariant.of_reachable h
  have hL := Level.of_reachable h q
  obtain ⟨v, hv, -, hr⟩ := ((Watched.of_reachable h).awake p (hstarted p hp)).own
  have hfull : Full cfg.procNum (c.replicas q).dag (v.round - 1) := by
    refine ⟨v.strongEdges, .of_map _ (hI.vertices.distinct v hv),
      hI.vertices.quorum v hv (by omega), fun e he => ?_⟩
    obtain ⟨hmem, her⟩ := hI.vertices.edge v hv e he
    refine ⟨drained_has h hquiet hstarted hnone hq hmem ?_, by omega⟩
    have := hL.floor
    omega
  have hle := hL.full _ hfull
  rwa [show v.round - 1 = (c.replicas q).round by omega] at hfull

theorem drained_full (hpos : 0 < cfg.procNum) :
    ∃ p ∈ cfg.pool, Full cfg.procNum (c.replicas p).dag (c.replicas p).round := by
  obtain ⟨p, hp, hmax⟩ := Finset.exists_max_image (Finset.range cfg.procNum)
    (fun p => (c.replicas p).round) ⟨0, Finset.mem_range.mpr hpos⟩
  have hp : p ∈ cfg.pool := mem_pool.mpr (Finset.mem_range.mp hp)
  by_cases hall : ∀ q < cfg.procNum, (c.replicas q).round = (c.replicas p).round
  · refine ⟨p, hp, quorum_of_all hpos fun q hq => ?_⟩
    have hq' : q ∈ cfg.pool := mem_pool.mpr hq
    obtain ⟨v, hv, hs, hr⟩ := ((Watched.of_reachable h).awake q (hstarted q hq')).own
    refine ⟨v, ⟨drained_has h hquiet hstarted hnone hp hv ?_, hr.trans (hall q hq)⟩, hs⟩
    rw [hr, hall q hq]
    exact (Level.of_reachable h p).floor
  · push Not at hall
    obtain ⟨q, hq, hne⟩ := hall
    have hle := hmax q (Finset.mem_range.mpr hq)
    have hq : q ∈ cfg.pool := mem_pool.mpr hq
    exact ⟨q, hq, drained_below h hquiet hstarted hnone hp hq (lt_of_le_of_ne hle hne)⟩

end

/-! ## What a timer does then -/

section

variable {cfg : Config} {c c' base : System} {p : Pid} {w' : Work}

/-- **A replica goes on** when its timer fires and the row of its round has a quorum. -/
theorem timer_goes_on (h : c.Reachable cfg) (hs : p ∈ c.started)
    (hfull : Full cfg.procNum (c.replicas p).dag (c.replicas p).round)
    (hmissed : ¬ Missed (c.replicas p)) : ∃ index, ∀ drain, ∃ c',
      System.step cfg c (.timer index drain) = some c' ∧
        (c'.replicas p).round = (c.replicas p).round + 1 := by
  have hI := Invariant.of_reachable h
  have hA := (Watched.of_reachable h).awake p hs
  have hL := Level.of_reachable h p
  have h0 : (c.replicas p).round ≠ 0 := fun h0 =>
    Rested.of_reachable h p h0 (by rwa [h0] at hfull)
  have hwait : (c.replicas p).wait = true := by
    by_contra hno
    obtain ⟨row, hrow, hq⟩ := (hI.sound p hs).dag.row_of_full hfull
    refine hmissed ⟨Bool.eq_false_iff.mpr hno, ?_⟩
    rw [quorumReached_of_index hrow, (hI.sound p hs).procNum, decide_eq_true hq]
  obtain ⟨index, hk⟩ := List.mem_iff_getElem?.mp (hA.rings h0 hwait)
  refine ⟨index, fun drain => ?_⟩
  let w : Work := { c.work p with state := { c.replicas p with wait := false } }
  have hG : Good cfg p w := (hI.good hs).move (stopWaiting_move _ _ _)
  let env := c.env cfg p drain
  have hLw : Level cfg.procNum w.state := hL.congr rfl rfl rfl
  have hS : Steady env.cfg env.me w := hLw.steady hG
  obtain ⟨w', htry, -⟩ := hS.tryAdvanceRound (hL.top.resolve_left h0)
  have hround : w'.state.round = (c.replicas p).round + 1 := by
    rcases tryAdvanceRound_cases hS.good htry with ⟨hno, -⟩ | ⟨-, -, hE⟩
    · exact absurd hfull hno
    · exact hE.entered
  have hfires : onTimer env (c.replicas p).timer (c.work p) = some w' := by
    unfold onTimer
    rw [if_neg (show (c.replicas p).timer ≠ (c.work p).state.submitTimer from (hA.apart h0).symm),
      if_pos (show (c.replicas p).timer = (c.work p).state.timer from rfl)]
    exact htry
  refine ⟨({ c with timers := c.timers.eraseIdx index } : System).update p w', ?_, ?_⟩
  · simp only [System.step]
    rw [hk]
    simp only
    rw [hfires, Option.map_some]
  · rw [(System.update_replicas rfl p w').1]
    exact hround

/-- Nothing is in flight, and nobody's round timer is pending. -/
structure Halted (cfg : Config) (c : System) : Prop where
  started : ∀ p ∈ cfg.pool, p ∈ c.started
  network : c.network = []
  timers : ∀ p ∈ cfg.pool, (p, (c.replicas p).timer) ∉ c.timers

/-- The vertices and what the replicas have done with them are as they were. -/
structure Frozen (c c' : System) : Prop where
  created : c'.shared.created = c.shared.created
  still : ∀ p, Still (c.replicas p) (c'.replicas p)

theorem Frozen.refl (c : System) : Frozen c c := ⟨rfl, fun _ => .refl _⟩

theorem Frozen.trans {c'' : System} (h : Frozen c c') (h' : Frozen c' c'') : Frozen c c'' where
  created := h'.created.trans h.created
  still p :=
    have hs := h.still p
    have hs' := h'.still p
    ⟨hs'.dag.trans hs.dag, hs'.buffer.trans hs.buffer, hs'.round.trans hs.round,
      hs'.wait.trans hs.wait, hs'.timer.trans hs.timer, hs'.history.trans hs.history⟩

theorem Halted.works (hH : Halted cfg c) (hI : Invariant cfg c) (hw : Works cfg c p base w') :
    (base.started = c.started ∧ base.network = c.network ∧ base.timers ⊆ c.timers) ∧
      (w'.sends = [] ∧ w'.shared.created = c.shared.created ∧
        ∀ id ∈ w'.timers, id = c.shared.nextTimer) ∧
      Still (c.replicas p) w'.state := by
  have hold : ∀ index, c.timers.eraseIdx index ⊆ c.timers :=
    fun _ _ => List.mem_of_mem_eraseIdx
  cases hw with
  | start hp hns => exact absurd (hH.started _ hp) hns
  | deliver hk =>
    rw [hH.network] at hk
    cases hk
  | submit hs =>
    refine ⟨⟨rfl, rfl, List.Subset.refl _⟩, ⟨rfl, rfl, List.forall_mem_nil _⟩, ?_⟩
    unfold onSubmit
    split <;> exact ⟨rfl, rfl, rfl, rfl, rfl, rfl⟩
  | request hk h =>
    rcases h with rfl | rfl
    · exact ⟨⟨rfl, rfl, hold _⟩, ⟨rfl, rfl, List.forall_mem_nil _⟩,
        ⟨rfl, rfl, rfl, rfl, rfl, rfl⟩⟩
    · exact ⟨⟨rfl, rfl, hold _⟩, ⟨rfl, rfl, fun id hid => List.mem_singleton.mp hid⟩,
        ⟨rfl, rfl, rfl, rfl, rfl, rfl⟩⟩
  | fire hk =>
    have hin := List.mem_of_getElem? hk
    exact absurd hin (hH.timers p (mem_pool.mpr (hI.started _ (hI.timers _ hin))))
  | stale hk _ =>
    exact ⟨⟨rfl, rfl, hold _⟩, ⟨rfl, rfl, List.forall_mem_nil _⟩, .refl _⟩

/-- **A halted system stays halted.** -/
theorem Halted.step (hH : Halted cfg c) (h : c.Reachable cfg) {a : Action}
    (hs : System.step cfg c a = some c') : Halted cfg c' ∧ Frozen c c' := by
  have hI := Invariant.of_reachable h
  obtain ⟨p, base, w', rfl, hw⟩ := hI.works hs
  obtain ⟨⟨hstarted, hnetwork, hold⟩, ⟨hsends, hcreated, hnew⟩, hstill⟩ := hH.works hI hw
  obtain ⟨hstate, hothers⟩ := System.update_replicas hw.replicas p w'
  have hsame : ∀ q, Still (c.replicas q) ((base.update p w').replicas q) := by
    intro q
    by_cases hq : q = p
    · rw [hq, hstate]
      exact hstill
    · rw [hothers q hq]
      exact .refl _
  refine ⟨⟨fun q hq => ?_, ?_, fun q hq hin => ?_⟩, hcreated, hsame⟩
  · exact hstarted ▸ hH.started q hq
  · show Broadcast.packets p w'.sends ++ base.network = []
    rw [hsends, hnetwork, hH.network]
    rfl
  · rw [(hsame q).timer] at hin
    rcases List.mem_append.mp hin with hin | hin
    · obtain ⟨id, hid, heq⟩ := List.mem_map.mp hin
      have hlt := ((Watched.of_reachable h).awake q (hH.started q hq)).timer
      rw [← (Prod.mk.inj heq).2, hnew id hid] at hlt
      exact Nat.lt_irrefl _ hlt
    · exact hH.timers q hq (hold hin)

theorem Halted.frozen (hH : Halted cfg c) (h : c.Reachable cfg)
    (h' : Transition.Reachable (System.step cfg) c (fun _ _ => True) c') : Frozen c c' := by
  refine (h'.invariant (I := fun c' => Halted cfg c' ∧ Frozen c c') ⟨hH, .refl c⟩
    fun d a d' hd _ ih hs => ?_).2
  obtain ⟨hH', hF⟩ := ih.1.step (h.append hd) hs
  exact ⟨hH', ih.2.trans hF⟩

end

/-- **The system stops only behind.** When all replicas have started and nothing is in flight,
and no replica has left a vertex in its buffer or missed a quorum of its round, then a round
timer is pending with which a replica enters a new round. And if no round timer is pending,
whatever is submitted, nothing will ever be created, added or ordered again. -/
theorem stops_only_behind (cfg : Config) (hpos : 0 < cfg.procNum) (c : System)
    (h : c.Reachable cfg) (hstarted : ∀ p ∈ cfg.pool, p ∈ c.started) (hquiet : c.network = []) :
    ((∀ p ∈ cfg.pool, ¬ Behind (c.replicas p)) → ∃ p ∈ cfg.pool, ∃ index, ∀ drain, ∃ c',
      System.step cfg c (.timer index drain) = some c' ∧
        (c'.replicas p).round = (c.replicas p).round + 1) ∧
    ((∀ p ∈ cfg.pool, (p, (c.replicas p).timer) ∉ c.timers) →
      (∃ p ∈ cfg.pool, Behind (c.replicas p)) ∧
      ∀ c', Transition.Reachable (System.step cfg) c (fun _ _ => True) c' →
        c'.shared.created = c.shared.created ∧ ∀ p,
          (c'.replicas p).dag = (c.replicas p).dag ∧
          (c'.replicas p).history = (c.replicas p).history) := by
  have hgoes : (∀ p ∈ cfg.pool, ¬ Behind (c.replicas p)) → ∃ p ∈ cfg.pool, ∃ index, ∀ drain, ∃ c',
      System.step cfg c (.timer index drain) = some c' ∧
        (c'.replicas p).round = (c.replicas p).round + 1 := by
    intro hnone
    obtain ⟨p, hp, hfull⟩ := drained_full h hquiet hstarted
      (fun p hp u hu => hnone p hp (.inl ⟨u, hu⟩)) hpos
    exact ⟨p, hp, timer_goes_on h (hstarted p hp) hfull fun hm => hnone p hp (.inr hm)⟩
  refine ⟨hgoes, fun hn => ?_⟩
  have hH : Halted cfg c := ⟨hstarted, hquiet, hn⟩
  refine ⟨?_, fun c' h' => ?_⟩
  · by_contra hno
    obtain ⟨p, -, index, hstep⟩ := hgoes fun p hp hb => hno ⟨p, hp, hb⟩
    obtain ⟨c', hs, hround⟩ := hstep inOrder
    have := ((hH.step h hs).2.still p).round
    omega
  · have hF := hH.frozen h h'
    exact ⟨hF.created, fun p => ⟨(hF.still p).dag, (hF.still p).history⟩⟩

/-- **Four replicas that stop for good.** Each of them gets the genesis vertex of the next one
last, after the other vertices of round 1, which have an edge to it. Nothing tries these again,
so none of the commands submitted is ever ordered. -/
theorem stops_only_behind_four : ∃ c : System, c.Reachable ⟨4, 1⟩ ∧ c.submitted.length = 16 ∧
    (∃ p ∈ Config.pool ⟨4, 1⟩, Behind (c.replicas p)) ∧
    ∀ c', Transition.Reachable (System.step ⟨4, 1⟩) c (fun _ _ => True) c' →
      ∀ p ∈ Config.pool ⟨4, 1⟩, (c'.replicas p).history.output = [] := by
  let cfg : Config := ⟨4, 1⟩
  let last : Packet VertexMessage → Bool := fun x => x.msg.id == ⟨(x.dst + 1) % 4, (x.dst + 1) % 4⟩
  let phases : List Phase := [.start cfg, .timer (fun _ _ => true) 4, .submit (fun _ => true) 16,
    .deliver (fun x => !last x) 400, .deliver (fun _ => true) 400, .timeout 4 4]
  have hrun : (run cfg phases System.init).any (fun c =>
      c.network.isEmpty && c.timers.isEmpty && decide (c.submitted.length = 16) &&
        cfg.pool.all fun p => decide (p ∈ c.started) &&
          (c.replicas p).history.output.isEmpty) = true := by
    decide +kernel
  obtain ⟨c, hc, hd⟩ := (Option.any_eq_true _ _).mp hrun
  simp only [Bool.and_eq_true, List.isEmpty_iff, decide_eq_true_eq, List.all_eq_true] at hd
  obtain ⟨⟨⟨hquiet, htimers⟩, hsubmitted⟩, hall⟩ := hd
  have hreach := reachable_run .init hc
  obtain ⟨hbehind, hforever⟩ := (stops_only_behind cfg (by decide) c hreach
    (fun p hp => (hall p hp).1) hquiet).2 fun p _ => htimers ▸ List.not_mem_nil
  refine ⟨c, hreach, hsubmitted, hbehind, fun c' h' p hp => ?_⟩
  rw [((hforever c' h').2 p).2]
  exact (hall p hp).2

end Blsmr.Bullshark
