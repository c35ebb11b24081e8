import Blsmr.Hotstuff.Commit

/-!
# HotStuff loses no command

A submitted command travels in `Submit` messages and waits in the pending maps.
It leaves a map for the leaf that `create_leaf` drains the map into, or because
a proposal that carries it has been accepted; both nodes are on the chain. So
it is always in one of the three places (`Kept`), whatever is delivered when.
`commit` covers every height, so what a node at or below some `b_exec` carries
has its flag set.
-/

namespace Blsmr.Hotstuff

open Blsmr.Chain Blsmr.Transition

variable {Q : Type} {cfg : Config Q} {c c' : System Q} {p : Pid} {env : Env} {ev : Event}
  {out : Outcome Q}

/-! ## The pending map of a replica -/

/-- The command that replica `pid` submits in a step. -/
def submission (pid : Pid) (env : Env) : Command := { id := { pid, id := env.uid }, key := 0 }

/-- **What a step of replica `p` does to its pending commands**: nothing, add the
one submitted, take out those of a proposal, or put all of them into a new node. -/
inductive Pending (p : Pid) (env : Env) (created created' : List Node) (s s' : Hotstuff Q) :
    Event → Prop
  | kept (ev : Event) (hcr : created' = created) (hp : s'.pendingCommands = s.pendingCommands)
      (hev : ∀ src command, ev ≠ .message src (.submit command)) :
      Pending p env created created' s s' ev
  | ticked (hcr : created' = created)
      (hp : s'.pendingCommands =
        s.pendingCommands.insert (submission p env).id (submission p env)) :
      Pending p env created created' s s' .timer
  | submitted (src : Pid) (command : Command) (hcr : created' = created)
      (hp : s'.pendingCommands = if (s.pendingCommands.lookup command.id).isSome then
        s.pendingCommands else s.pendingCommands.insert command.id command) :
      Pending p env created created' s s' (.message src (.submit command))
  | accepted (src : Pid) (node : Node) (hcr : created' = created)
      (hp : s'.pendingCommands =
        node.commands.foldl (fun m command => m.erase command.id) s.pendingCommands) :
      Pending p env created created' s s' (.message src (.propose node))
  | drained (ev : Event) (leaf : Node) (hcr : created' = leaf :: created)
      (hl : leaf.commands.Perm (s.pendingCommands.entries.map Sigma.snd))
      (hp : s'.pendingCommands = ∅) (hev : ∀ src command, ev ≠ .message src (.submit command)) :
      Pending p env created created' s s' ev

theorem Handled.pending {elsewhere : Node → Bool} {self : Hotstuff Q} {shared : Shared}
    {me : Pid} (h : Handled cfg me env elsewhere self shared ev out) (hev : ev ≠ .timer) :
    Pending me env shared.created out.shared.created self out.state ev := by
  cases h with
  | started self' timers hself hpc => exact .kept _ rfl hpc fun _ _ h => by cases h
  | founded self' timers hself hpc =>
    refine .drained _ _ rfl ?_ rfl fun _ _ h => by cases h
    rw [← hpc]
    exact env.drain.perm _
  | ticked => exact absurd rfl hev
  | submitted src self' command hself hpc => exact .submitted src command rfl hpc
  | voted src node leader self' shared' hh hl hu =>
    exact .accepted src node (update_spec hu).created (update_spec hu).pendingCommands
  | certified src node leaf self₁ self' shared₁ shared' hb hr hc hu =>
    obtain ⟨commands, rfl, hperm, rfl, rfl⟩ := createLeaf_spec hc
    exact .drained _ _ (update_spec hu).created hperm (update_spec hu).pendingCommands
      fun _ _ h => by cases h
  | _ => exact .kept _ rfl rfl fun _ _ h => by cases h

theorem Handled.sends_submit {elsewhere : Node → Bool} {self : Hotstuff Q} {shared : Shared}
    {me : Pid} (h : Handled cfg me env elsewhere self shared ev out) {dst : Pid}
    {command : Command} (hm : (dst, .submit command) ∈ out.sends) : ev = .timer := by
  cases h with
  | ticked => rfl
  | founded =>
    obtain ⟨q, -, he⟩ := List.mem_map.mp hm
    cases he
  | certified =>
    obtain ⟨q, -, he⟩ := List.mem_map.mp hm
    cases he
  | voted => cases List.mem_singleton.mp hm
  | _ => cases hm

/-! ## Where commands are -/

/-- The command was submitted on the way to `c`. -/
def System.Submitted (cfg : Config Q) (c : System Q) (command : Command) : Prop :=
  ∃ c₀ pid id env c₁, Reachable cfg c₀ ∧ step cfg c₀ (.timer pid id env) = some c₁ ∧
    command = submission pid env ∧ Transition.Reachable (step cfg) c₁ (fun _ _ => True) c

/-- The command is in a message in flight, pending or on the chain. -/
def System.Kept (cfg : Config Q) (c : System Q) (command : Command) : Prop :=
  (∃ packet ∈ c.network, packet.msg = .submit command) ∨
  (∃ p ∈ cfg.pool, (c.replicas p).pendingCommands.lookup command.id = some command) ∨
  ∃ node ∈ c.shared.created, command ∈ node.commands

/-- Commands are told apart by their identifiers, and maps are keyed by them. -/
structure Plain (c : System Q) : Prop where
  submit : ∀ packet ∈ c.network, ∀ command, packet.msg = .submit command → command.key = 0
  pending : ∀ p i command, (c.replicas p).pendingCommands.lookup i = some command →
    command.id = i ∧ command.key = 0
  carried : ∀ node ∈ c.shared.created, ∀ command ∈ node.commands, command.key = 0

theorem eq_of_key {a b : Command} (ha : a.key = 0) (hb : b.key = 0) (hid : a.id = b.id) :
    a = b := by
  cases a
  cases b
  simp_all

theorem onTimer_spec {self : Hotstuff Q} {shared : Shared} {me : Pid} {id : TimerId}
    (h : self.onTimer cfg me env shared id = some out) : out.shared = shared ∧
      out.state.pendingCommands =
        self.pendingCommands.insert (submission me env).id (submission me env) ∧
      ∀ e ∈ out.sends, e.2 = .submit (submission me env) := by
  have hsend : ∀ e ∈ (cfg.pool.filter (· ≠ me)).map
      (fun pid => (pid, HSMessage.submit (submission me env))),
      e.2 = .submit (submission me env) := by
    intro e he
    obtain ⟨q, -, rfl⟩ := List.mem_map.mp he
    rfl
  unfold onTimer at h
  rw [Option.ite_none_right_eq_some] at h
  obtain ⟨-, h⟩ := h
  simp only at h
  split at h <;> (cases h; exact ⟨rfl, rfl, hsend⟩)

theorem step_timer {id : TimerId} : System.step cfg c (.timer p id env) = some c' ↔
    c.Fresh env ∧ (p, id) ∈ c.timers ∧ ∃ out,
      (c.replicas p).onTimer cfg p env c.shared id = some out ∧
      System.update { c with timers := c.timers.erase (p, id) } p env out = c' := by
  unfold System.step
  rw [Option.ite_none_right_eq_some, Option.ite_none_right_eq_some, Option.map_eq_some_iff]
  rfl

/-- Timers run at replicas of the pool. -/
def System.TimersIn (cfg : Config Q) (c : System Q) : Prop := ∀ e ∈ c.timers, e.1 ∈ cfg.pool

theorem System.TimersIn.step (ht : System.TimersIn cfg c) (hG : Growing cfg c) {a : Action}
    (hstep : System.step cfg c a = some c') : a.pid ∈ cfg.pool ∧ System.TimersIn cfg c' := by
  have hgo : ∀ (timers : List (Pid × TimerId)) (p : Pid) (ids : List TimerId),
      timers ⊆ c.timers → p ∈ cfg.pool →
      p ∈ cfg.pool ∧ ∀ e ∈ timers ++ ids.map fun id => (p, id), e.1 ∈ cfg.pool := by
    refine fun timers p ids hsub hp => ⟨hp, fun e he => ?_⟩
    rcases List.mem_append.mp he with he | he
    · exact ht e (hsub he)
    · obtain ⟨id, -, rfl⟩ := List.mem_map.mp he
      exact hp
  cases a with
  | start p env =>
    unfold System.step at hstep
    rw [Option.ite_none_right_eq_some] at hstep
    obtain ⟨⟨hp, -⟩, h⟩ := Option.ite_none_right_eq_some.mp hstep.2
    cases h
    exact hgo _ p _ (List.Subset.refl _) hp
  | deliver packet env =>
    obtain ⟨-, hin, out, -, rfl⟩ := step_deliver.mp hstep
    exact hgo _ packet.dst _ (List.Subset.refl _) (hG.dst packet hin)
  | timer p id env =>
    obtain ⟨-, hin, out, -, rfl⟩ := step_timer.mp hstep
    exact hgo _ p _ List.erase_subset (ht _ hin)

theorem System.TimersIn.of_reachable (hcfg : cfg.Valid) (h : System.Reachable cfg c) :
    System.TimersIn cfg c :=
  h.invariant (fun e he => by cases he) fun _ _ _ hr _ hI hstep =>
    (hI.step (OneChain.of_reachable hcfg hr).growing hstep).2

/-! ## Steps -/

/-- A step, seen from the commands. -/
structure Moved (cfg : Config Q) (c : System Q) (p : Pid) (env : Env) (ev : Event)
    (out : Outcome Q) (c' : System Q) : Prop where
  stepped : Stepped cfg c p env ev out c'
  pending : Pending p env c.shared.created c'.shared.created (c.replicas p) (c'.replicas p) ev
  submits : ∀ packet ∈ c'.network, ∀ command, packet.msg = .submit command →
    packet ∈ c.network ∨ command = submission p env

theorem step_moved {a : Action} (hstep : System.step cfg c a = some c') :
    ∃ ev out, Moved cfg c a.pid a.env ev out c' := by
  obtain ⟨out, hs⟩ := step_stepped hstep
  have hgo : a.event ≠ .timer → ∃ ev out, Moved cfg c a.pid a.env ev out c' := by
    refine fun hev => ⟨a.event, out, hs, ?_, fun packet hp command hm => ?_⟩
    · rw [hs.shared, hs.self]
      exact hs.handled.pending hev
    · rcases hs.mem_network hp with h | ⟨-, h⟩
      · exact .inl h
      · exact absurd (hs.handled.sends_submit (hm ▸ h)) hev
  cases a with
  | start p env => exact hgo fun h => by cases h
  | deliver packet env => exact hgo fun h => by cases h
  | timer p id env =>
    obtain ⟨-, -, out', hout, rfl⟩ := step_timer.mp hstep
    obtain ⟨hsh, hpc, hsends⟩ := onTimer_spec hout
    refine ⟨.timer, out, hs, .ticked (congrArg Shared.created hsh) ?_,
      fun packet hp command hm => ?_⟩
    · show (Function.update c.replicas p out'.state p).pendingCommands = _
      rw [Function.update_self]
      exact hpc
    · rcases List.mem_append.mp hp with hp | hp
      · exact .inl hp
      · obtain ⟨e, he, rfl⟩ := List.mem_map.mp hp
        exact .inr (HSMessage.submit.inj (hm.symm.trans (hsends e he)))

theorem Pending.created_subset {created created' : List Node} {s s' : Hotstuff Q}
    (h : Pending p env created created' s s' ev) : created ⊆ created' := by
  cases h with
  | drained _ leaf hcr => rw [hcr]; exact List.subset_cons_self _ _
  | kept _ hcr => rw [hcr]; exact List.Subset.refl _
  | ticked hcr => rw [hcr]; exact List.Subset.refl _
  | submitted _ _ hcr => rw [hcr]; exact List.Subset.refl _
  | accepted _ _ hcr => rw [hcr]; exact List.Subset.refl _

theorem Pending.lookup {created created' : List Node} {s s' : Hotstuff Q}
    (h : Pending p env created created' s s' ev) {i : CmdId} {command : Command}
    (hi : s'.pendingCommands.lookup i = some command) :
    s.pendingCommands.lookup i = some command ∨ command.id = i ∧
      (command = submission p env ∨ ∃ src, ev = .message src (.submit command)) := by
  have hins : ∀ {new : Command}, (s.pendingCommands.insert new.id new).lookup i = some command →
      s.pendingCommands.lookup i = some command ∨ command.id = i ∧ command = new := by
    intro new h
    by_cases hid : i = new.id
    · subst hid
      rw [AList.lookup_insert, Option.some.injEq] at h
      exact .inr ⟨h ▸ rfl, h.symm⟩
    · rw [AList.lookup_insert_ne hid] at h
      exact .inl h
  cases h with
  | kept _ _ hp => exact .inl (hp ▸ hi)
  | ticked _ hp =>
    rw [hp] at hi
    exact (hins hi).imp_right fun ⟨hid, h⟩ => ⟨hid, .inl h⟩
  | submitted src new _ hp =>
    rw [hp] at hi
    split at hi
    · exact .inl hi
    · exact (hins hi).imp_right fun ⟨hid, h⟩ => ⟨hid, .inr ⟨src, h ▸ rfl⟩⟩
  | accepted src node _ hp =>
    rw [hp, lookup_foldl_erase] at hi
    split at hi
    · cases hi
    · exact .inl hi
  | drained _ leaf _ _ hp =>
    rw [hp, AList.lookup_empty] at hi
    cases hi

theorem Plain.step (hP : Plain c) {out : Outcome Q} (hm : Moved cfg c p env ev out c') :
    Plain c' := by
  refine ⟨fun packet hp command hmsg => ?_, fun q i command hi => ?_, fun node hn command hc => ?_⟩
  · rcases hm.submits packet hp command hmsg with h | rfl
    · exact hP.submit packet h command hmsg
    · rfl
  · by_cases hq : q = p
    · subst hq
      rcases hm.pending.lookup hi with h | ⟨hid, rfl | ⟨src, rfl⟩⟩
      · exact hP.pending q i command h
      · exact ⟨hid, rfl⟩
      · exact ⟨hid, hP.submit _ hm.stepped.consumed_mem command rfl⟩
    · rw [hm.stepped.other hq] at hi
      exact hP.pending q i command hi
  · cases hm.pending with
    | drained _ leaf hcr hl =>
      rw [hcr] at hn
      rcases List.mem_cons.mp hn with rfl | hn
      · obtain ⟨i, hi⟩ := mem_values.mp (hl.mem_iff.mp hc)
        exact (hP.pending _ i command hi).2
      · exact hP.carried node hn command hc
    | kept _ hcr => exact hP.carried node (hcr ▸ hn) command hc
    | ticked hcr => exact hP.carried node (hcr ▸ hn) command hc
    | submitted _ _ hcr => exact hP.carried node (hcr ▸ hn) command hc
    | accepted _ _ hcr => exact hP.carried node (hcr ▸ hn) command hc

theorem Plain.pending_step (hP : Plain c) (hG : Growing cfg c) {out : Outcome Q}
    (hm : Moved cfg c p env ev out c') {command : Command}
    (hi : (c.replicas p).pendingCommands.lookup command.id = some command) :
    (c'.replicas p).pendingCommands.lookup command.id = some command ∨
      ∃ node ∈ c'.shared.created, command ∈ node.commands := by
  have hkey := (hP.pending p _ command hi).2
  cases hm.pending with
  | kept _ _ hp => exact .inl (hp ▸ hi)
  | ticked _ hp =>
    rw [hp]
    by_cases hid : command.id = (submission p env).id
    · have heq : command = submission p env := eq_of_key hkey rfl hid
      exact .inl (by rw [heq, AList.lookup_insert])
    · exact .inl (by rw [AList.lookup_insert_ne hid, hi])
  | submitted src new _ hp =>
    rw [hp]
    split
    · exact .inl hi
    · rename_i hnone
      refine .inl ?_
      rw [AList.lookup_insert_ne, hi]
      intro hid
      rw [← hid, hi] at hnone
      exact hnone rfl
  | accepted src node hcr hp =>
    rw [hp, lookup_foldl_erase]
    split
    · rename_i hmem
      obtain ⟨other, ho, hid⟩ := List.mem_map.mp hmem
      have hnode := hG.carried _ hm.stepped.consumed_mem node rfl
      have heq : other = command := eq_of_key (hP.carried node hnode other ho) hkey hid
      exact .inr ⟨node, hcr ▸ hnode, heq ▸ ho⟩
    · exact .inl hi
  | drained _ leaf hcr hl =>
    exact .inr ⟨leaf, hcr ▸ List.mem_cons_self, hl.mem_iff.mpr (mem_values.mpr ⟨_, hi⟩)⟩

/-- **No step loses a command.** -/
theorem Plain.kept_step (hP : Plain c) (hG : Growing cfg c) {out : Outcome Q}
    (hm : Moved cfg c p env ev out c') {command : Command} (hk : System.Kept cfg c command) :
    System.Kept cfg c' command := by
  rcases hk with ⟨packet, hin, hmsg⟩ | ⟨q, hq, hi⟩ | ⟨node, hn, hc⟩
  · obtain ⟨rest, hperm, hnet⟩ := hm.stepped.network
    rcases List.mem_append.mp (hperm.mem_iff.mp hin) with h | h
    · have hkey := hP.submit packet hin command hmsg
      have hdst := hG.dst packet hin
      cases ev with
      | message src msg =>
        obtain rfl := List.mem_singleton.mp h
        obtain rfl : msg = .submit command := hmsg
        refine .inr (.inl ⟨p, hdst, ?_⟩)
        cases hm.pending with
        | kept _ _ _ hev => exact absurd rfl (hev src command)
        | drained _ _ _ _ _ hev => exact absurd rfl (hev src command)
        | submitted _ _ _ hp =>
          rw [hp]
          split
          · rename_i hsome
            obtain ⟨other, ho⟩ := Option.isSome_iff_exists.mp hsome
            obtain ⟨hid, hokey⟩ := hP.pending p _ other ho
            exact eq_of_key hokey hkey hid ▸ ho
          · exact AList.lookup_insert _
      | start => cases h
      | timer => cases h
    · exact .inl ⟨packet, hnet ▸ List.mem_append_left _ h, hmsg⟩
  · by_cases hqp : q = p
    · subst hqp
      rcases hP.pending_step hG hm hi with h | h
      · exact .inr (.inl ⟨q, hq, h⟩)
      · exact .inr (.inr h)
    · exact .inr (.inl ⟨q, hq, by rw [hm.stepped.other hqp]; exact hi⟩)
  · exact .inr (.inr ⟨node, hm.pending.created_subset hn, hc⟩)

/-! ## Flags -/

/-- What a node at or below some `b_exec` carries is committed. -/
def System.Flagged (c : System Q) : Prop :=
  ∀ p, ∀ node ∈ c.shared.created, node.height ≤ (c.replicas p).bExec.height →
    ∀ command ∈ node.commands, command.id ∈ c.shared.committed

theorem mem_toCommit {created : List Node} (hl : LinkedNodes created) (self : Hotstuff Q)
    {block node : Node} (hb : OnChain created block) (hn : node ∈ created)
    (hlow : self.bExec.height < node.height) (hle : node.height ≤ block.height) :
    node ∈ self.toCommit block := by
  have hmem : node.height ∈ (self.toCommit block).map Node.height := by
    rw [toCommit_heights hl self hb, List.mem_range'_1]
    omega
  obtain ⟨other, ho, hh⟩ := List.mem_map.mp hmem
  exact hl.eq_of_height (toCommit_subset hl self hb ho) hn hh ▸ ho

/-- The nodes between the old and the new `b_exec` get their flags. -/
def FlaggedTo (s s' : Hotstuff Q) (shared shared' : Shared) : Prop :=
  shared.committed ⊆ shared'.committed ∧ ∀ node ∈ shared'.created,
    s.bExec.height < node.height → node.height ≤ s'.bExec.height →
    ∀ command ∈ node.commands, command.id ∈ shared'.committed

theorem FlaggedTo.kept {s s' : Hotstuff Q} {shared shared' : Shared} (hb : s'.bExec = s.bExec)
    (hc : shared'.committed = shared.committed) : FlaggedTo s s' shared shared' := by
  refine ⟨by rw [hc]; exact List.Subset.refl _, fun node _ hlt hle => ?_⟩
  rw [hb] at hle
  omega

theorem FlaggedTo.update {elsewhere : Node → Bool} {s s' : Hotstuff Q} {shared shared' : Shared}
    {node : Node} (hu : s.update elsewhere shared node = some (s', shared'))
    (hl : LinkedNodes shared'.created) (hexec : OnChain shared'.created s'.bExec) :
    FlaggedTo s s' shared shared' := by
  rcases (update_spec hu).bExec with ⟨hb, -, -, -, rfl⟩ | ⟨block, rfl, -, -, -, -, hcount⟩
  · exact .kept hb rfl
  · refine ⟨fun i hi => (hcount.committed i).mpr (.inl hi), fun n hn hlt hle command hc => ?_⟩
    exact (hcount.committed _).mpr
      (.inr ⟨n, mem_toCommit hl s hexec hn hlt hle, command, hc, rfl⟩)

/-- **What a handler does to the flags.** -/
theorem Handled.flags {elsewhere : Node → Bool} {self : Hotstuff Q} {shared : Shared} {me : Pid}
    (h : Handled cfg me env elsewhere self shared ev out) (hl : LinkedNodes out.shared.created)
    (hexec : OnChain out.shared.created out.state.bExec) :
    FlaggedTo self out.state shared out.shared := by
  cases h with
  | started self' timers hself => exact .kept hself.bExec rfl
  | founded self' timers hself => exact .kept hself.bExec rfl
  | ticked self' timers command hself => exact .kept hself.bExec rfl
  | submitted src self' command hself => exact .kept hself.bExec rfl
  | voted src node leader self' shared' hh hl' hu =>
    obtain ⟨hsub, hto⟩ := FlaggedTo.update hu hl hexec
    exact ⟨hsub, hto⟩
  | certified src node leaf self₁ self' shared₁ shared' hb hr hc hu =>
    obtain ⟨hsub, hto⟩ := FlaggedTo.update hu hl hexec
    obtain ⟨-, -, -, rfl, rfl⟩ := createLeaf_spec hc
    exact ⟨hsub, hto⟩
  | _ => exact .kept rfl rfl

theorem System.Flagged.step (hF : c.Flagged) (hP : Placed cfg c) (hP' : Placed cfg c')
    (hs : Stepped cfg c p env ev out c') : c'.Flagged := by
  have hG' := hP'.chain.growing
  have hexec := (hG'.fields p).bExec
  have hl := hG'.linked
  rw [hs.self, hs.shared] at hexec
  rw [hs.shared] at hl
  obtain ⟨hsub, hto⟩ := hs.handled.flags hl hexec
  have hold : ∀ q, ∀ node ∈ c'.shared.created, node.height ≤ (c.replicas q).bExec.height →
      ∀ command ∈ node.commands, command.id ∈ c'.shared.committed := by
    intro q node hn hle command hc
    have hpos := hG'.linked.height_pos hn
    have hlow := hP.locked q
    rw [hs.shared]
    refine hsub (hF q node ?_ hle command hc)
    rw [hs.shared] at hn
    rcases hs.handled.created_cases with hcr | ⟨parent, commands, hcr, -⟩
    · exact hcr ▸ hn
    · rw [hcr] at hn hl
      rcases List.mem_cons.mp hn with rfl | hn
      · have htop := hl.2.1
        omega
      · exact hn
  intro q node hn hle command hc
  by_cases hq : q = p
  · subst hq
    by_cases hlt : (c.replicas q).bExec.height < node.height
    · rw [hs.self] at hle
      rw [hs.shared] at hn ⊢
      exact hto node hn hlt hle command hc
    · exact hold q node hn (Nat.le_of_not_lt hlt) command hc
  · rw [hs.other hq] at hle
    exact hold q node hn hle command hc

/-! ## Every run -/

theorem Plain.init : Plain (System.init : System Q) := by
  refine ⟨fun packet h => ?_, fun p i command h => ?_, fun node h => ?_⟩
  · cases h
  · have h : (∅ : AList fun _ : CmdId => Command).lookup i = some command := h
    rw [AList.lookup_empty] at h
    cases h
  · cases h

theorem plain_of_reachable (h : System.Reachable cfg c) : Plain c :=
  h.invariant .init
    fun _ _ _ _ _ hI hstep => by
      obtain ⟨ev, out, hm⟩ := step_moved hstep
      exact hI.step hm

theorem flagged_of_reachable (hcfg : cfg.Valid) (h : System.Reachable cfg c) : c.Flagged :=
  h.invariant (fun _ _ h => by cases h) fun _ _ _ hr _ hI hstep => by
    obtain ⟨p, ev, out, hs⟩ := step_cases hstep
    exact hI.step (.of_reachable hcfg hr) (.of_reachable hcfg (hr.step trivial hstep)) hs

theorem System.Kept.run (hcfg : cfg.Valid) (h : System.Reachable cfg c) {command : Command}
    (hk : System.Kept cfg c command)
    (h' : Transition.Reachable (System.step cfg) c (fun _ _ => True) c') :
    System.Kept cfg c' command := by
  induction h' with
  | init => exact hk
  | step hr _ hs ih =>
    have hr := h.append hr
    obtain ⟨ev, out, hm⟩ := step_moved hs
    exact (plain_of_reachable hr).kept_step (OneChain.of_reachable hcfg hr).growing hm ih

/-- **HotStuff loses no command.** In every reachable state a command submitted so
far is in a `Submit` message in flight, in the pending map of a replica, or in a
node of the chain, and what a node at or below the height of some `b_exec`
carries is committed. -/
theorem no_command_lost (cfg : Config Q) (hcfg : cfg.Valid) (c : System Q)
    (h : System.Reachable cfg c) :
    (∀ command, System.Submitted cfg c command →
      (∃ packet ∈ c.network, packet.msg = .submit command) ∨
      (∃ p ∈ cfg.pool, (c.replicas p).pendingCommands.lookup command.id = some command) ∨
      ∃ node ∈ c.shared.created, command ∈ node.commands) ∧
    ∀ p, ∀ node ∈ c.shared.created, node.height ≤ (c.replicas p).bExec.height →
      ∀ command ∈ node.commands, command.id ∈ c.shared.committed := by
  refine ⟨?_, flagged_of_reachable hcfg h⟩
  rintro command ⟨c₀, pid, id, env, c₁, hr₀, hstep, rfl, hrun⟩
  have hr₁ : System.Reachable cfg c₁ := hr₀.step trivial hstep
  refine System.Kept.run hcfg hr₁ (.inr (.inl ⟨pid, ?_, ?_⟩)) hrun
  · exact (System.TimersIn.of_reachable hcfg hr₀ |>.step
      (OneChain.of_reachable hcfg hr₀).growing hstep).1
  · obtain ⟨-, -, out, hout, rfl⟩ := step_timer.mp hstep
    show (Function.update c₀.replicas pid out.state pid).pendingCommands.lookup _ = _
    rw [Function.update_self, (onTimer_spec hout).2.1, AList.lookup_insert]

/-- Replica 1 submits a command before replica 0 starts; the first node carries it. -/
theorem no_command_lost_two :
    let cfg : Config ℤ := .standard true [0, 1]
    let command : Command := ⟨⟨1, 2⟩, 0⟩
    ∃ c, System.Reachable cfg c ∧ System.Kept cfg c command ∧
      command.id ∈ c.shared.committed := by
  intro cfg command
  let n₁ : Node := .child 4 .genesis 1 [command]
  let n₂ : Node := .child 8 n₁ 2 []
  let n₃ : Node := .child 12 n₂ 3 []
  let timer : Action := .timer 1 1 (.counting 2)
  let run : List Action := [.recv 3 1 0 (.submit command), .start 0 (.counting 4),
    .recv 5 0 0 (.propose n₁), .recv 6 0 1 (.propose n₁),
    .recv 7 0 1 (.vote n₁), .recv 8 1 1 (.vote n₁),
    .recv 9 1 0 (.propose n₂), .recv 10 1 1 (.propose n₂),
    .recv 11 0 0 (.vote n₂), .recv 12 1 0 (.vote n₂),
    .recv 13 0 0 (.propose n₃), .recv 14 0 1 (.propose n₃),
    .recv 15 0 1 (.vote n₃), .recv 16 1 1 (.vote n₃)]
  have hrun : (System.execute cfg [.start 1 (.counting 1)]).any (fun c₀ =>
      (System.step cfg c₀ timer).any fun c₁ =>
        (Transition.exec (System.step cfg) (fun _ _ => true) c₁ run).any fun c =>
          decide (n₁ ∈ c.shared.created ∧ n₁.height ≤ (c.replicas 1).bExec.height)) = true := by
    decide +kernel
  obtain ⟨c₀, hc₀, h₁⟩ := (Option.any_eq_true _ _).mp hrun
  obtain ⟨c₁, hc₁, h₂⟩ := (Option.any_eq_true _ _).mp h₁
  obtain ⟨c, hc, hd⟩ := (Option.any_eq_true _ _).mp h₂
  obtain ⟨hn, hh⟩ := of_decide_eq_true hd
  have hr₀ := System.reachable_execute hc₀
  have hrest : Transition.Reachable (System.step cfg) c₁ (fun _ _ => True) c :=
    Transition.Reachable.exec (fun _ _ _ => trivial) .init hc
  have hcfg : cfg.Valid := Config.standard_valid (by decide) (by decide)
  have hreach : System.Reachable cfg c := (hr₀.step trivial hc₁).append hrest
  have hkept := no_command_lost cfg hcfg c hreach
  exact ⟨c, hreach, hkept.1 command ⟨c₀, 1, 1, .counting 2, c₁, hr₀, hc₁, rfl, hrest⟩,
    hkept.2 1 n₁ hn hh command List.mem_cons_self⟩

end Blsmr.Hotstuff
