import Blsmr.Log.Index
import Blsmr.Replica.Announce

/-!
# The fast path of Wintermute

`allow_fastpath` compares every reply with the first by length and one-sided membership.
Replies of `CmdLog::submit` have no duplicates, so that this is equality of sets and does
not depend on which reply came first; the list of `union_deps` depends on the sets alone.
-/

namespace Blsmr

/-! ## The list of dependencies -/

theorem dedup_pairwise : ∀ {l : List CmdId}, l.Pairwise (· ≤ ·) → (dedup l).Pairwise (· < ·)
  | [], _ => .nil
  | [_], _ => List.pairwise_singleton _ _
  | x :: y :: rest, h => by
    have hrest := dedup_pairwise (List.pairwise_cons.mp h).2
    unfold dedup
    by_cases hxy : x = y
    · rwa [if_pos hxy]
    · rw [if_neg hxy]
      refine List.pairwise_cons.mpr ⟨fun z hz => ?_, hrest⟩
      have hx : x ≤ y := (List.pairwise_cons.mp h).1 y List.mem_cons_self
      have hlt : x < y := lt_of_le_of_ne hx hxy
      rcases List.mem_cons.mp ((mem_dedup _).mp hz) with rfl | hz
      · exact hlt
      · exact hlt.trans_le ((List.pairwise_cons.mp (List.pairwise_cons.mp h).2).1 z hz)

theorem unionDeps_pairwise (quorum : List Res) : (unionDeps quorum).Pairwise (· < ·) :=
  dedup_pairwise (List.pairwise_insertionSort _ _)

theorem unionDeps_eq {quorum : List Res} {deps : List CmdId} (hdeps : deps.Pairwise (· < ·))
    (h : ∀ x, (∃ res ∈ quorum, x ∈ res.conflicts) ↔ x ∈ deps) : unionDeps quorum = deps :=
  (unionDeps_pairwise quorum).eq_of_mem_iff hdeps fun x => mem_unionDeps.trans (h x)

theorem unionDeps_perm {quorum quorum' : List Res} (h : quorum.Perm quorum') :
    unionDeps quorum = unionDeps quorum' :=
  unionDeps_eq (unionDeps_pairwise _) fun x => by
    rw [mem_unionDeps]
    exact exists_congr fun res => and_congr_left' h.mem_iff

/-! ## The comparison of the replies -/

/-- All replies report the same set. -/
def Unanimous (quorum : List Res) : Prop :=
  ∀ res ∈ quorum, ∀ res' ∈ quorum, ∀ x, x ∈ res.conflicts ↔ x ∈ res'.conflicts

theorem Unanimous.perm {quorum quorum' : List Res} (h : quorum.Perm quorum') :
    Unanimous quorum ↔ Unanimous quorum' := by
  unfold Unanimous
  simp only [h.mem_iff]

theorem Unanimous.mem_unionDeps {quorum : List Res} (h : Unanimous quorum) {res : Res}
    (hres : res ∈ quorum) (x : CmdId) : x ∈ unionDeps quorum ↔ x ∈ res.conflicts := by
  rw [Blsmr.mem_unionDeps]
  constructor
  · rintro ⟨res', hres', hx⟩
    exact (h res hres res' hres' x).mpr hx
  · exact fun hx => ⟨res, hres, hx⟩

/-- Same length and one-sided membership is equality of sets where nothing is reported
twice. -/
theorem conflicts_agree_iff {as bs : List CmdId} (has : as.Nodup) (hbs : bs.Nodup) :
    (as.length == bs.length && as.all fun cmd => cmd ∈ bs) = true ↔ ∀ x, x ∈ as ↔ x ∈ bs := by
  rw [Bool.and_eq_true, beq_iff_eq, List.all_eq_true]
  simp only [decide_eq_true_eq]
  constructor
  · rintro ⟨hlen, hsub⟩ x
    exact ((has.subperm hsub).perm_of_length_le hlen.ge).mem_iff
  · exact fun h => ⟨((List.perm_ext_iff_of_nodup has hbs).mpr h).length_eq, fun x => (h x).mp⟩

namespace DDS

theorem allowFastpath_all {cfg : Config} {quorum : List Res}
    (hlen : quorum.length = cfg.pool.length) (hn : 1 ≤ cfg.pool.length)
    (hnd : ∀ res ∈ quorum, res.conflicts.Nodup) :
    ∃ fast, allowFastpath cfg quorum = some fast ∧ (fast = true ↔ Unanimous quorum) := by
  cases quorum with
  | nil =>
    rw [← hlen] at hn
    cases hn
  | cons first rest =>
    unfold allowFastpath
    rw [if_neg (not_not_intro hlen)]
    refine ⟨_, rfl, ?_⟩
    rw [List.all_eq_true]
    constructor
    · intro h
      have hfirst : ∀ res ∈ first :: rest, ∀ x, x ∈ res.conflicts ↔ x ∈ first.conflicts := by
        intro res hres
        rcases List.mem_cons.mp hres with rfl | hmem
        · exact fun _ => Iff.rfl
        · exact (conflicts_agree_iff (hnd res hres) (hnd first List.mem_cons_self)).mp (h res hmem)
      exact fun res hres res' hres' x => (hfirst res hres x).trans (hfirst res' hres' x).symm
    · intro h res hmem
      have hres := List.mem_cons_of_mem first hmem
      exact (conflicts_agree_iff (hnd res hres) (hnd first List.mem_cons_self)).mpr
        (h res hres first List.mem_cons_self)

/-! ## The replies of the members -/

/-- The reply of a replica with this log. -/
def answer (log : CmdLog) (me : Pid) (cmd : Command) : Res :=
  { pid := me, id := cmd.id, conflicts := (log.submit cmd).2 }

theorem onMessage_req (cfg : Config) (me : Pid) (env : Env) (self : DDS) (src : Pid)
    (cmd : Command) : self.onMessage cfg me env src (.req cmd) =
      some ({ self with
        log := (self.log.submit cmd).1
        calls := self.calls ++ [.submit cmd] }, .doNothing,
        [(src, .res (answer self.log me cmd))]) := rfl

theorem answer_nodup {log : CmdLog} {calls : List LogCall} (hfresh : CreatesFresh calls)
    (hrun : CmdLog.run calls = some log) (me : Pid) (cmd : Command) :
    (answer log me cmd).conflicts.Nodup := by
  have hC := (CmdLog.run_inv hfresh hrun).1.toCore
  unfold answer
  simp only
  by_cases hs : cmd.id ∈ log.stable
  · rw [CmdLog.submit_stable hs]
    exact List.nodup_nil
  · rw [(CmdLog.submit_spec hs).2.2, hC.conflicts_eq]
    exact hC.bucket_nodup _

/-- **All replies are collected** until the last, with which they are handed over. -/
theorem Collecting.all {cfg : Config} {me : Pid} {cmd : Command} {env : Env} {start d : DDS}
    {replies : List Res} {out : List QuorumReady} (hw : cfg.protocolType = .wintermute)
    (hn : 1 ≤ cfg.pool.length)
    (hstart : Transition.Reachable (DDS.step cfg me) (.default cfg) (fun _ _ => True) start)
    (h : Collecting cfg me cmd.id (start.announce cfg env cmd).1 replies out d)
    (hlen : replies.length ≤ cfg.pool.length) :
    replies.length < cfg.pool.length ∧ out = [] ∨ replies.length = cfg.pool.length ∧
      ∃ fast, allowFastpath cfg replies = some fast ∧ out = [⟨replies, fast⟩] := by
  have hpending : (start.announce cfg env cmd).1.pendingAnnounceQuorums =
      start.pendingAnnounceQuorums.insert cmd.id [] := announce_pending cmd
  have hfull : ∀ d : DDS, ∀ quorum, d.isReady cfg quorum = (quorum.length == cfg.pool.length) :=
    fun d quorum => by rw [isReady, hw]
  have hstate : UntilFull cfg (fun quorum => quorum.length == cfg.pool.length) cmd.id replies
      out d := h.untilFull ((keyed_of_reachable hstart).insert (by simp) hpending)
    (by rw [hpending, AList.lookup_insert]) (fun _ _ d quorum _ => hfull d quorum)
    fun replies _ _ _ _ haw hid => ⟨replies.take cfg.pool.length, by
      rw [← List.length_pos_iff_ne_nil, List.length_take, Nat.min_eq_left (haw hid)]
      exact hn, List.take_prefix _ _, by simpa using haw hid⟩
  rcases hstate with ⟨hnot, -, hout⟩ | ⟨pre, res, post, fast, rfl, hyes, -, -, hfast, hout⟩
  · refine .inl ⟨lt_of_le_of_ne hlen fun heq => ?_, hout⟩
    have hno : (replies.length == cfg.pool.length) = false :=
      hnot replies (List.length_pos_iff_ne_nil.mp (heq ▸ hn)) (List.prefix_refl _)
    rw [heq, beq_self_eq_true] at hno
    cases hno
  · have hall : pre.length + 1 = cfg.pool.length := by simpa using hyes
    obtain rfl : post = [] := by
      rw [List.length_append, List.length_cons] at hlen
      exact List.eq_nil_of_length_eq_zero (by omega)
    exact .inr ⟨by simpa using hall, fast, hfast, hout⟩

/-- **The fast path is taken exactly on unanimity**, whatever the order of the replies. -/
theorem fast_path_iff_unanimous (cfg : Config) (hw : cfg.protocolType = .wintermute)
    (hn : 1 ≤ cfg.pool.length) (me : Pid) (cmd : Command) (logs : Pid → CmdLog)
    (hlogs : ∀ p ∈ cfg.pool, ∃ calls, CreatesFresh calls ∧ CmdLog.run calls = some (logs p)) :
    ∃ deps fast, deps.Pairwise (· < ·) ∧
      (fast = true ↔ ∀ p ∈ cfg.pool, ∀ q ∈ cfg.pool, ∀ x,
        x ∈ (answer (logs p) p cmd).conflicts ↔ x ∈ (answer (logs q) q cmd).conflicts) ∧
      (fast = true → ∀ p ∈ cfg.pool, ∀ x, x ∈ deps ↔ x ∈ (answer (logs p) p cmd).conflicts) ∧
      ∀ arrivals, arrivals.Perm (cfg.pool.map fun p => answer (logs p) p cmd) →
        unionDeps arrivals = deps ∧
        ∀ start env replies out d,
          Transition.Reachable (DDS.step cfg me) (.default cfg) (fun _ _ => True) start →
          Collecting cfg me cmd.id (start.announce cfg env cmd).1 replies out d →
          replies <+: arrivals →
          out = (if replies = arrivals then [⟨arrivals, fast⟩] else []) ∧
          ∀ env src res, (d.handle cfg me (.deliver env src (.res res))).isSome := by
  let quorum := cfg.pool.map fun p => answer (logs p) p cmd
  have hlen : quorum.length = cfg.pool.length := List.length_map _
  have hnd : ∀ res ∈ quorum, res.conflicts.Nodup := fun res hres => by
    obtain ⟨p, hp, rfl⟩ := List.mem_map.mp hres
    obtain ⟨calls, hfresh, hrun⟩ := hlogs p hp
    exact answer_nodup hfresh hrun p cmd
  obtain ⟨fast, -, hfast⟩ := allowFastpath_all hlen hn hnd
  have hun : Unanimous quorum ↔ ∀ p ∈ cfg.pool, ∀ q ∈ cfg.pool, ∀ x,
      x ∈ (answer (logs p) p cmd).conflicts ↔ x ∈ (answer (logs q) q cmd).conflicts := by
    unfold Unanimous
    simp only [quorum, List.forall_mem_map]
  refine ⟨unionDeps quorum, fast, unionDeps_pairwise quorum, hfast.trans hun,
    fun h p hp x => (hfast.mp h).mem_unionDeps (List.mem_map_of_mem hp) x,
    fun arrivals hperm => ⟨unionDeps_perm hperm,
      fun start env replies out d hstart hc hpre => ⟨?_, fun _ _ _ => handle_reply_isSome⟩⟩⟩
  have hall : arrivals.length = cfg.pool.length := hperm.length_eq.trans hlen
  rcases hc.all hw hn hstart (hall ▸ hpre.length_le) with ⟨hlt, rfl⟩ | ⟨heq, fast', hfast', rfl⟩
  · refine (if_neg fun heq => ?_).symm
    rw [heq, hall] at hlt
    exact absurd hlt (lt_irrefl _)
  · obtain rfl := hpre.eq_of_length (heq.trans hall.symm)
    rw [if_pos rfl]
    obtain ⟨fast'', hsome, hiff⟩ := allowFastpath_all heq hn fun res hres =>
      hnd res (hperm.mem_iff.mp hres)
    obtain rfl : fast' = fast'' := Option.some.inj (hfast'.symm.trans hsome)
    rw [Bool.eq_iff_iff.mpr (hiff.trans ((Unanimous.perm hperm).trans hfast.symm))]

/-- Two replicas of which one knows of another command of the key; its reply comes first. -/
theorem fast_path_two :
    let cfg : Config := .standard .wintermute [0, 1]
    let log := (CmdLog.empty.submit ⟨⟨1, 0⟩, 7⟩).1
    let cmd : Command := ⟨⟨0, 0⟩, 7⟩
    let arrivals := [answer log 1 cmd, answer .empty 0 cmd]
    unionDeps arrivals = [⟨1, 0⟩] ∧ ∃ out d,
      Collecting cfg 0 cmd.id ((DDS.default cfg).announce cfg (.counting 4) cmd).1 arrivals out d ∧
      out = [⟨arrivals, false⟩] ∧
      ∀ env src res, (d.handle cfg 0 (.deliver env src (.res res))).isSome := by
  intro cfg log cmd arrivals
  obtain ⟨deps, fast, -, hfast, -, hall⟩ := fast_path_iff_unanimous cfg rfl (by decide) 0 cmd
    (fun p => if p = 0 then .empty else log) fun p _ => by
      by_cases hp : p = 0
      · exact ⟨[], .of_none (by simp), by rw [if_pos hp]; rfl⟩
      · exact ⟨[.submit ⟨⟨1, 0⟩, 7⟩], .of_none (by simp), by rw [if_neg hp]; rfl⟩
  obtain ⟨-, hout⟩ := hall arrivals (List.Perm.swap _ _ _)
  obtain ⟨out, d, hc⟩ : ∃ out d, Collecting cfg 0 cmd.id
      ((DDS.default cfg).announce cfg (.counting 4) cmd).1 arrivals out d :=
    ⟨_, _, .event (e := .deliver (.counting 5) 0 (.res (answer .empty 0 cmd)))
      (.event (e := .deliver (.counting 6) 1 (.res (answer log 1 cmd))) .start trivial rfl)
      trivial rfl⟩
  obtain ⟨hready, hlive⟩ := hout _ _ arrivals out d .init hc (List.prefix_refl _)
  have hslow : fast = false := by
    by_contra hf
    have hmem := hfast.mp (Bool.eq_true_of_not_eq_false hf) 0 (by decide) 1 (by decide) ⟨1, 0⟩
    exact absurd (hmem.mpr (by decide)) (by decide)
  rw [if_pos rfl, hslow] at hready
  exact ⟨by decide, out, d, hc, hready, hlive⟩
end DDS

end Blsmr
