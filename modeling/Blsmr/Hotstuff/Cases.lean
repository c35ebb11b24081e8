import Blsmr.Hotstuff.System

/-!
# What a HotStuff step does

`commit_spec` and `update_spec` describe the two functions of the chained commit
rule by what they leave behind. `Handled` lists what a handler can do, and
`step_cases` shows that every step of the system is one of these.
-/

namespace Blsmr.Hotstuff

open Blsmr.Transition

variable {Q : Type}

/-! ## Maps -/

theorem lookup_retain {α β : Type} [DecidableEq α] {keep : β → Bool}
    {m : AList fun _ : α => β} {a : α} {b : β} :
    (retain keep m).lookup a = some b ↔ m.lookup a = some b ∧ keep b = true := by
  rw [← Option.mem_def, ← Option.mem_def, AList.mem_lookup_iff, AList.mem_lookup_iff]
  show (⟨a, b⟩ : Sigma _) ∈ m.entries.filter _ ↔ _
  rw [List.mem_filter]

/-! ## Committing -/

/-- The node and its ancestors above the genesis node. -/
def Node.lineage : Node → List Node
  | .genesis => []
  | .child id parent height commands => .child id parent height commands :: parent.lineage

/-- The nodes that `commit` of `block` counts, lowest first. -/
def toCommit (self : Hotstuff Q) (block : Node) : List Node :=
  (block.lineage.takeWhile fun node => self.bExec.height < node.height).reverse

/-- What `commit` leaves behind. -/
structure Counted (new : List Node) (s s' : Hotstuff Q) (shared shared' : Shared) :
    Prop where
  state : s' = { s with commits := s.commits ++ new }
  created : shared'.created = shared.created
  blockCommits : shared'.blockCommits = shared.blockCommits + new.length
  committed : ∀ i, i ∈ shared'.committed ↔
    i ∈ shared.committed ∨ ∃ node ∈ new, ∃ command ∈ node.commands, command.id = i

theorem mem_foldl_insert {commands : List Command} {flags : List CmdId} {i : CmdId} :
    i ∈ commands.foldl (fun flags command => flags.insert command.id) flags ↔
      i ∈ flags ∨ ∃ command ∈ commands, command.id = i := by
  induction commands generalizing flags with
  | nil => simp
  | cons command commands ih =>
    rw [List.foldl_cons, ih, List.mem_insert_iff, List.exists_mem_cons_iff]
    constructor
    · rintro ((rfl | h) | h)
      · exact .inr (.inl rfl)
      · exact .inl h
      · exact .inr (.inr h)
    · rintro (h | rfl | h)
      · exact .inl (.inr h)
      · exact .inl (.inl rfl)
      · exact .inr h

/-- **`commit`** counts the ancestors of the block above `b_exec`, lowest first. -/
theorem commit_spec {elsewhere : Node → Bool} {self self' : Hotstuff Q} {shared shared' : Shared}
    {block : Node} (h : self.commit elsewhere shared block = some (self', shared')) :
    Counted (self.toCommit block) self self' shared shared' := by
  induction block generalizing self' shared' with
  | genesis =>
    cases h
    exact ⟨by simp [toCommit, Node.lineage], rfl, rfl, by simp [toCommit, Node.lineage]⟩
  | child id parent height commands ih =>
    unfold commit at h
    by_cases hlt : self.bExec.height < height
    · have hnew : self.toCommit (.child id parent height commands) =
          self.toCommit parent ++ [.child id parent height commands] := by
        rw [toCommit, Node.lineage, List.takeWhile_cons_of_pos (by exact decide_eq_true hlt),
          List.reverse_cons, toCommit]
      rw [if_pos hlt, Option.ite_none_right_eq_some] at h
      obtain ⟨⟨self₁, shared₁⟩, hp, h⟩ := Option.bind_eq_some_iff.mp h.2
      cases h
      obtain ⟨rfl, hcr, hbc, hco⟩ := ih hp
      rw [hnew]
      refine ⟨by simp, hcr, ?_, fun i => ?_⟩
      · simp only [hbc, List.length_append, List.length_singleton, Nat.add_assoc]
      · simp only [mem_foldl_insert, hco, List.mem_append, List.mem_singleton,
          or_and_right, exists_or, exists_eq_left, or_assoc]
    · rw [if_neg hlt] at h
      cases h
      have hnil : self.toCommit (.child id parent height commands) = [] := by
        rw [toCommit, Node.lineage,
          List.takeWhile_cons_of_neg (by exact fun h => hlt (of_decide_eq_true h)),
          List.reverse_nil]
      rw [hnil]
      exact ⟨by simp, rfl, rfl, by simp⟩

/-! ## Updating -/

/-- What `update` leaves behind. -/
structure Updated (s : Hotstuff Q) (shared : Shared) (node : Node) (s' : Hotstuff Q)
    (shared' : Shared) : Prop where
  vheight : s'.vheight = s.vheight
  pendingCommands : s'.pendingCommands = s.pendingCommands
  bLeaf : s'.bLeaf = if node.height > s.bLeaf.height then node else s.bLeaf
  bLock : s'.bLock = s.bLock ∨ ∃ grandparent, s'.bLock = grandparent ∧
    node.parentRef.bind Node.parentRef = some grandparent ∧ s.bLock.height < grandparent.height
  bExec : (s'.bExec = s.bExec ∧ s'.nodes = s.nodes ∧
      s'.pendingQuorums = s.pendingQuorums ∧ s'.commits = s.commits ∧
      shared' = shared) ∨
    ∃ block, s'.bExec = block ∧
      (node.parentRef.bind Node.parentRef).bind Node.parentRef = some block ∧
      s'.nodes = retain (fun node => node.height ≥ block.height) s.nodes ∧
      s'.pendingQuorums = retain (fun entry => entry.1 > block.height) s.pendingQuorums ∧
      s'.commits = s.commits ++ s.toCommit block ∧
      Counted (s.toCommit block) s { s with commits := s'.commits } shared shared'

theorem Updated.created {s s' : Hotstuff Q} {shared shared' : Shared} {node : Node}
    (h : Updated s shared node s' shared') : shared'.created = shared.created := by
  rcases h.bExec with ⟨-, -, -, -, rfl⟩ | ⟨block, -, -, -, -, -, hc⟩
  · rfl
  · exact hc.created

theorem Updated.pendingQuorums {s s' : Hotstuff Q} {shared shared' : Shared} {node : Node}
    (h : Updated s shared node s' shared') {id : NodeId} {e : ℕ × Q}
    (he : s'.pendingQuorums.lookup id = some e) : s.pendingQuorums.lookup id = some e := by
  rcases h.bExec with ⟨-, -, hq, -, -⟩ | ⟨block, -, -, -, hq, -, -⟩
  · rwa [hq] at he
  · rw [hq] at he
    exact (lookup_retain.mp he).1

theorem createLeaf_spec {env : Env} {self self' : Hotstuff Q} {shared shared' : Shared}
    {leaf : Node} (h : self.createLeaf env shared = (self', shared', leaf)) :
    ∃ commands, leaf = .child env.uid self.bLeaf (self.bLeaf.height + 1) commands ∧
      commands.Perm (self.pendingCommands.entries.map Sigma.snd) ∧
      self' = { self with pendingCommands := ∅, nodes := self.nodes.insert leaf.id leaf } ∧
      shared' = { shared with created := leaf :: shared.created } := by
  cases h
  exact ⟨_, rfl, env.drain.perm _, rfl, rfl⟩

theorem parentRef_of_parent {alive : Node → Bool} {node parent : Node}
    (h : node.parent alive = some parent) : node.parentRef = some parent :=
  (Option.filter_eq_some_iff.mp h).1

theorem raise_spec (self : Hotstuff Q) (node : Node) (grandparent : Option Node) :
    ∃ lock, self.raise node grandparent = { self with
        bLeaf := if node.height > self.bLeaf.height then node else self.bLeaf, bLock := lock } ∧
      (lock = self.bLock ∨ grandparent = some lock ∧ self.bLock.height < lock.height) := by
  have hleaf : (if node.height > self.bLeaf.height then { self with bLeaf := node } else self) =
      { self with bLeaf := if node.height > self.bLeaf.height then node else self.bLeaf } := by
    split <;> rfl
  unfold raise
  rw [hleaf]
  cases grandparent with
  | none => exact ⟨self.bLock, rfl, .inl rfl⟩
  | some g =>
    by_cases hg : g.height > self.bLock.height
    · exact ⟨g, if_pos hg, .inr ⟨rfl, hg⟩⟩
    · exact ⟨self.bLock, if_neg hg, .inl rfl⟩

/-- **`update`** moves the fields to ancestors of the node. -/
theorem update_spec {elsewhere : Node → Bool} {self self' : Hotstuff Q} {shared shared' : Shared}
    {node : Node} (h : self.update elsewhere shared node = some (self', shared')) :
    Updated self shared node self' shared' := by
  unfold update at h
  set parents := node.parent (self.alive elsewhere) with hparents
  set grandparent := parents.bind (·.parent (self.alive elsewhere)) with hgrand
  have hgp : ∀ g, grandparent = some g → node.parentRef.bind Node.parentRef = some g := by
    intro g hg
    obtain ⟨q, hq, hg⟩ := Option.bind_eq_some_iff.mp (hgrand ▸ hg)
    exact Option.bind_eq_some_iff.mpr ⟨q, parentRef_of_parent hq, parentRef_of_parent hg⟩
  obtain ⟨lock, hraise, hlock⟩ := raise_spec self node grandparent
  simp only [hraise] at h
  have hlock' : lock = self.bLock ∨ ∃ g, lock = g ∧
      node.parentRef.bind Node.parentRef = some g ∧ self.bLock.height < g.height :=
    hlock.imp_right fun ⟨hg, hh⟩ => ⟨lock, rfl, hgp lock hg, hh⟩
  cases hgg : grandparent.bind (·.parent (self.alive elsewhere)) with
  | none =>
    rw [hgg] at h
    cases h
    exact ⟨rfl, rfl, rfl, hlock', .inl ⟨rfl, rfl, rfl, rfl, rfl⟩⟩
  | some block =>
    rw [hgg] at h
    obtain ⟨⟨self₁, shared₁⟩, hc, h⟩ := Option.bind_eq_some_iff.mp h
    cases h
    obtain ⟨hst, hcr, hbc, hco⟩ := commit_spec hc
    obtain ⟨g, hg, hblock⟩ := Option.bind_eq_some_iff.mp hgg
    have hblock' : (node.parentRef.bind Node.parentRef).bind Node.parentRef = some block :=
      Option.bind_eq_some_iff.mpr ⟨g, hgp g hg, parentRef_of_parent hblock⟩
    rw [hst]
    exact ⟨rfl, rfl, rfl, hlock', .inr ⟨block, rfl, hblock', rfl, rfl, rfl, rfl, hcr, hbc, hco⟩⟩

/-! ## Handlers -/

/-- What a replica reacts to. -/
inductive Event where
  | start
  | message (src : Pid) (msg : HSMessage)
  | timer

/-- The leader of the view of height `height`. -/
def Config.leader (cfg : Config Q) (height : ℕ) : Option Pid :=
  if cfg.rotating then cfg.pool[height % cfg.pool.length]? else cfg.pool[0]?

/-- Only the bookkeeping of submissions differs. -/
structure Bookkept (s s' : Hotstuff Q) : Prop where
  pendingQuorums : s'.pendingQuorums = s.pendingQuorums
  nodes : s'.nodes = s.nodes
  vheight : s'.vheight = s.vheight
  bLock : s'.bLock = s.bLock
  bExec : s'.bExec = s.bExec
  bLeaf : s'.bLeaf = s.bLeaf
  commits : s'.commits = s.commits

/-- **What a handler of replica `me` can do.** -/
inductive Handled (cfg : Config Q) (me : Pid) (env : Env) (elsewhere : Node → Bool)
    (self : Hotstuff Q) (shared : Shared) : Event → Outcome Q → Prop
  | started (self' : Hotstuff Q) (timers : List TimerId) (hself : Bookkept self self')
      (hpc : self'.pendingCommands = self.pendingCommands) (hme : me ≠ 0) :
      Handled cfg me env elsewhere self shared .start ⟨self', shared, [], timers⟩
  | founded (self' : Hotstuff Q) (timers : List TimerId) (hself : Bookkept self self')
      (hpc : self'.pendingCommands = self.pendingCommands) (hme : me = 0) :
      Handled cfg me env elsewhere self shared .start
        ⟨(self'.createLeaf env shared).1, (self'.createLeaf env shared).2.1,
          broadcast cfg (.propose (self'.createLeaf env shared).2.2), timers⟩
  | ticked (self' : Hotstuff Q) (timers : List TimerId) (command : Command)
      (hself : Bookkept self self') (hid : command.id = ⟨me, env.uid⟩)
      (hpc : self'.pendingCommands = self.pendingCommands.insert command.id command) :
      Handled cfg me env elsewhere self shared .timer
        ⟨self', shared, (cfg.pool.filter (· ≠ me)).map fun pid => (pid, .submit command), timers⟩
  | submitted (src : Pid) (self' : Hotstuff Q) (command : Command) (hself : Bookkept self self')
      (hpc : self'.pendingCommands = if (self.pendingCommands.lookup command.id).isSome then
        self.pendingCommands else self.pendingCommands.insert command.id command) :
      Handled cfg me env elsewhere self shared (.message src (.submit command))
        ⟨self', shared, [], []⟩
  | rejected (src : Pid) (node : Node) :
      Handled cfg me env elsewhere self shared (.message src (.propose node))
        ⟨self, shared, [], []⟩
  | voted (src : Pid) (node : Node) (leader : Pid) (self' : Hotstuff Q) (shared' : Shared)
      (hh : self.vheight < node.height) (hl : cfg.leader node.height = some leader)
      (hu : (self.accept node).update elsewhere shared node = some (self', shared')) :
      Handled cfg me env elsewhere self shared (.message src (.propose node))
        ⟨self', shared', [(leader, .vote node)], []⟩
  | late (src : Pid) (node : Node) (hb : node.height ≤ self.bExec.height) :
      Handled cfg me env elsewhere self shared (.message src (.vote node)) ⟨self, shared, [], []⟩
  | added (src : Pid) (node : Node) (hb : self.bExec.height < node.height)
      (hr : (self.addVote cfg node).2 = false) :
      Handled cfg me env elsewhere self shared (.message src (.vote node))
        ⟨(self.addVote cfg node).1, shared, [], []⟩
  | certified (src : Pid) (node leaf : Node) (self₁ self' : Hotstuff Q) (shared₁ shared' : Shared)
      (hb : self.bExec.height < node.height) (hr : (self.addVote cfg node).2 = true)
      (hc : ((self.addVote cfg node).1.certify node).createLeaf env shared =
        (self₁, shared₁, leaf))
      (hu : self₁.update elsewhere shared₁ leaf = some (self', shared')) :
      Handled cfg me env elsewhere self shared (.message src (.vote node))
        ⟨self', shared', broadcast cfg (.propose leaf), []⟩

section

variable {cfg : Config Q} {me : Pid} {env : Env} {elsewhere : Node → Bool} {self : Hotstuff Q}
  {shared : Shared} {out : Outcome Q}

theorem Bookkept.refl (self : Hotstuff Q) : Bookkept self self :=
  ⟨rfl, rfl, rfl, rfl, rfl, rfl, rfl⟩

theorem onStart_handled :
    Handled cfg me env elsewhere self shared .start (self.onStart cfg me env shared) := by
  have hgo : ∀ (self' : Hotstuff Q) (timers : List TimerId), Bookkept self self' →
      self'.pendingCommands = self.pendingCommands →
      Handled cfg me env elsewhere self shared .start
        (if me = 0 then
          ⟨(self'.createLeaf env shared).1, (self'.createLeaf env shared).2.1,
            broadcast cfg (.propose (self'.createLeaf env shared).2.2), timers⟩
        else ⟨self', shared, [], timers⟩) := by
    intro self' timers hself hpc
    by_cases hme : me = 0
    · rw [if_pos hme]
      exact .founded self' timers hself hpc hme
    · rw [if_neg hme]
      exact .started self' timers hself hpc hme
  unfold onStart
  by_cases hl : cfg.submitLimit ≠ 0
  · rw [if_pos hl]
    exact hgo _ _ ⟨rfl, rfl, rfl, rfl, rfl, rfl, rfl⟩ rfl
  · rw [if_neg hl]
    exact hgo _ _ (.refl self) rfl

theorem onTimer_handled {id : TimerId} (h : self.onTimer cfg me env shared id = some out) :
    Handled cfg me env elsewhere self shared .timer out := by
  unfold onTimer at h
  rw [Option.ite_none_right_eq_some] at h
  obtain ⟨-, h⟩ := h
  simp only at h
  split at h <;> (cases h; exact .ticked _ _ _ ⟨rfl, rfl, rfl, rfl, rfl, rfl, rfl⟩ rfl rfl)

theorem onMessage_handled {src : Pid} {msg : HSMessage}
    (h : self.onMessage cfg env elsewhere shared msg = some out) :
    Handled cfg me env elsewhere self shared (.message src msg) out := by
  cases msg with
  | submit command =>
    cases h
    refine .submitted src _ command ?_ ?_ <;> split
    · exact .refl self
    · exact ⟨rfl, rfl, rfl, rfl, rfl, rfl, rfl⟩
    · rfl
    · rfl
  | propose node =>
    simp only [onMessage] at h
    by_cases hacc : node.height > self.vheight ∧
        (self.extendsLock elsewhere node = true ∨ node.height > self.bLock.height)
    · rw [if_pos hacc] at h
      obtain ⟨leader, hl, h⟩ := Option.bind_eq_some_iff.mp h
      obtain ⟨⟨self', shared'⟩, hu, h⟩ := Option.bind_eq_some_iff.mp h
      cases h
      exact .voted src node leader self' shared' hacc.1 hl hu
    · rw [if_neg hacc] at h
      cases h
      exact .rejected src node
  | vote node =>
    simp only [onMessage] at h
    by_cases hb : node.height ≤ self.bExec.height
    · rw [if_pos hb] at h
      cases h
      exact .late src node hb
    · rw [if_neg hb] at h
      by_cases hr : (self.addVote cfg node).2 = true
      · rw [if_pos hr] at h
        obtain ⟨⟨self', shared'⟩, hu, h⟩ := Option.bind_eq_some_iff.mp h
        cases h
        exact .certified src node _ _ self' _ shared' (Nat.lt_of_not_le hb) hr rfl hu
      · rw [if_neg hr] at h
        cases h
        exact .added src node (Nat.lt_of_not_le hb) (Bool.eq_false_iff.mpr hr)

end

/-! ## Steps of the system -/

/-- The messages replica `p` sends. -/
def packets (p : Pid) (sends : List (Pid × HSMessage)) : List Packet :=
  sends.map fun (dst, msg) => { src := p, dst, msg }

theorem mem_packets {p : Pid} {sends : List (Pid × HSMessage)} {pkt : Packet} :
    pkt ∈ packets p sends ↔ pkt.src = p ∧ (pkt.dst, pkt.msg) ∈ sends := by
  unfold packets
  rw [List.mem_map]
  constructor
  · rintro ⟨⟨dst, msg⟩, h, rfl⟩
    exact ⟨rfl, h⟩
  · rintro ⟨rfl, h⟩
    exact ⟨_, h, rfl⟩

/-- The message replica `p` consumes. -/
def Event.consumed (p : Pid) : Event → List Packet
  | .message src msg => [⟨src, p, msg⟩]
  | _ => []

/-- The step in which replica `p` reacts to `ev` and leaves `out` behind. -/
structure Stepped (cfg : Config Q) (c : System Q) (p : Pid) (env : Env) (ev : Event)
    (out : Outcome Q) (c' : System Q) : Prop where
  handled : Handled cfg p env (c.elsewhere cfg p) (c.replicas p) c.shared ev out
  fresh : env.uid ∉ c.uids
  replicas : c'.replicas = Function.update c.replicas p out.state
  shared : c'.shared = out.shared
  network : ∃ rest, c.network.Perm (ev.consumed p ++ rest) ∧
    c'.network = rest ++ packets p out.sends
  delivered : c'.delivered = ev.consumed p ++ c.delivered
  uids : c'.uids = env.uid :: c.uids
  start : ev = .start → p ∈ cfg.pool ∧ p ∉ c.started ∧ p ∈ c'.started
  started : c.started ⊆ c'.started

/-- The replica that takes the step. -/
def Action.pid : Action → Pid
  | .start pid _ => pid
  | .deliver packet _ => packet.dst
  | .timer pid _ _ => pid

/-- What it reacts to. -/
def Action.event : Action → Event
  | .start _ _ => .start
  | .deliver packet _ => .message packet.src packet.msg
  | .timer _ _ _ => .timer

theorem step_stepped {cfg : Config Q} {c c' : System Q} {a : Action}
    (h : System.step cfg c a = some c') : ∃ out, Stepped cfg c a.pid a.env a.event out c' := by
  unfold System.step at h
  rw [Option.ite_none_right_eq_some] at h
  obtain ⟨hfresh, h⟩ := h
  cases a with
  | start p env =>
    obtain ⟨⟨hp, hnew⟩, h⟩ := Option.ite_none_right_eq_some.mp h
    cases h
    exact ⟨_, onStart_handled, hfresh.1, rfl, rfl, ⟨_, List.Perm.refl _, rfl⟩, rfl, rfl,
      fun _ => ⟨hp, hnew, List.mem_cons_self⟩, List.subset_cons_self _ _⟩
  | deliver packet env =>
    obtain ⟨hmem, h⟩ := Option.ite_none_right_eq_some.mp h
    obtain ⟨out, hout, rfl⟩ := Option.map_eq_some_iff.mp h
    exact ⟨out, onMessage_handled hout, hfresh.1, rfl, rfl,
      ⟨_, List.perm_cons_erase hmem, rfl⟩, rfl, rfl, fun h => (by cases h), List.Subset.refl _⟩
  | timer p id env =>
    obtain ⟨hmem, h⟩ := Option.ite_none_right_eq_some.mp h
    obtain ⟨out, hout, rfl⟩ := Option.map_eq_some_iff.mp h
    exact ⟨out, onTimer_handled hout, hfresh.1, rfl, rfl, ⟨_, List.Perm.refl _, rfl⟩,
      rfl, rfl, fun h => (by cases h), List.Subset.refl _⟩

/-- **Every step of the system** is the reaction of one replica. -/
theorem step_cases {cfg : Config Q} {c c' : System Q} {a : Action}
    (h : System.step cfg c a = some c') : ∃ p ev out, Stepped cfg c p a.env ev out c' := by
  obtain ⟨out, hs⟩ := step_stepped h
  exact ⟨a.pid, a.event, out, hs⟩

end Blsmr.Hotstuff
