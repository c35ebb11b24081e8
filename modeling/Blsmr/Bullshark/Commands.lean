import Blsmr.Bullshark.Runs

/-!
# Where a submitted command is

A command leaves a pending map for the vertex that `create_vertex` drains the map into,
or because a vertex that carries it has arrived; both vertices have been created
(`Move.held`). It is committed when a replica orders a vertex that carries it
(`Flagged`).
-/

namespace Blsmr.Bullshark

open Blsmr.Transition Blsmr.Graph RoundBasedDAG

variable {cfg : Config} {me : Pid} {c c' base : System} {w w' : Work} {a : Action} {i : CmdId}

/-! ## Flags -/

theorem mem_foldl_insert {commands : List Command} {flags : List CmdId} :
    i ∈ commands.foldl (fun flags command => flags.insert command.id) flags ↔
      i ∈ flags ∨ i ∈ commands.map Command.id := by
  induction commands generalizing flags with
  | nil => simp
  | cons command commands ih =>
    rw [List.foldl_cons, ih, List.mem_insert_iff, List.map_cons, List.mem_cons]
    tauto

theorem mem_committed_foldl {out : List Vertex} {commits : Commits} :
    i ∈ (out.foldl (fun c v => c.count v) commits).committed ↔
      i ∈ commits.committed ∨ ∃ v ∈ out, i ∈ v.commands.map Command.id := by
  induction out generalizing commits with
  | nil => simp
  | cons v out ih =>
    rw [List.foldl_cons, ih]
    unfold Commits.count
    rw [mem_foldl_insert, List.exists_mem_cons_iff, or_assoc]

theorem Move.output (h : Move cfg me w w') : ∃ out,
    w'.state.history.output = w.state.history.output ++ out ∧
      w'.shared.commits = out.foldl (fun c v => c.count v) w.shared.commits := by
  cases h with
  | order _ _ _ _ hcommit => exact hcommit.output
  | _ => exact ⟨[], (List.append_nil _).symm, rfl⟩

theorem Moves.output (h : Moves cfg me w w') : ∃ out,
    w'.state.history.output = w.state.history.output ++ out ∧
      w'.shared.commits = out.foldl (fun c v => c.count v) w.shared.commits := by
  induction h with
  | refl => exact ⟨[], (List.append_nil _).symm, rfl⟩
  | tail _ hm ih =>
    obtain ⟨out₁, ho₁, hc₁⟩ := ih
    obtain ⟨out₂, ho₂, hc₂⟩ := hm.output
    exact ⟨out₁ ++ out₂, by rw [ho₂, ho₁, List.append_assoc],
      by rw [hc₂, hc₁, List.foldl_append]⟩

/-- A command is committed if and only if a replica has ordered a vertex that carries it. -/
def Flagged (c : System) : Prop :=
  ∀ i, i ∈ c.shared.commits.committed ↔
    ∃ p, ∃ v ∈ (c.replicas p).history.output, i ∈ v.commands.map Command.id

theorem begins_output (hI : Invariant cfg c) (hb : Begins cfg c a me base w) :
    w.state.history.output = (c.replicas me).history.output ∧
      w.shared.commits = c.shared.commits := by
  refine ⟨by rw [(hI.begins_bound hb).2], ?_⟩
  cases hb with
  | start =>
    unfold setUp
    split <;> rfl
  | _ => rfl

theorem Flagged.of_reachable (h : c.Reachable cfg) : Flagged c := by
  refine h.invariant (fun i => ?_) fun c a c' hr _ ih hs => ?_
  · exact iff_of_false List.not_mem_nil fun ⟨_, _, hv, _⟩ => absurd hv List.not_mem_nil
  have hI := Invariant.of_reachable hr
  obtain ⟨me, base, w, w', hb, hm, rfl⟩ := hI.step hs
  obtain ⟨hreplicas, -⟩ := hI.begins_base hb
  obtain ⟨hout, hcommits⟩ := begins_output hI hb
  obtain ⟨out, hout', hcommits'⟩ := hm.output
  intro i
  have hflags : i ∈ w'.shared.commits.committed ↔
      i ∈ c.shared.commits.committed ∨ ∃ v ∈ out, i ∈ v.commands.map Command.id := by
    rw [hcommits', mem_committed_foldl, hcommits]
  have hme : ∀ p, ((base.update me w').replicas p).history.output =
      (c.replicas p).history.output ++ if p = me then out else [] := fun p => by
    unfold System.update
    simp only
    by_cases hp : p = me
    · subst hp
      rw [Function.update_self, if_pos rfl, hout', hout]
    · rw [Function.update_of_ne hp, if_neg hp, hreplicas, List.append_nil]
  refine hflags.trans ?_
  rw [ih i]
  constructor
  · rintro (⟨p, v, hv, hi⟩ | ⟨v, hv, hi⟩)
    · exact ⟨p, v, (hme p).symm ▸ List.mem_append_left _ hv, hi⟩
    · refine ⟨me, v, (hme me).symm ▸ List.mem_append_right _ ?_, hi⟩
      rw [if_pos rfl]
      exact hv
  · rintro ⟨p, v, hv, hi⟩
    rw [hme p] at hv
    rcases List.mem_append.mp hv with hv | hv
    · exact .inl ⟨p, v, hv, hi⟩
    · split at hv
      · exact .inr ⟨v, hv, hi⟩
      · cases hv

/-! ## Places -/

/-- The replica has the command pending, or a created vertex carries it. -/
def Held (i : CmdId) (created : List Vertex) (s : Bullshark) : Prop :=
  i ∈ s.pendingCommands ∨ ∃ v ∈ created, i ∈ v.commands.map Command.id

/-- A command is pending under its own identifier. -/
def Keyed (s : Bullshark) : Prop := ∀ i x, s.pendingCommands.lookup i = some x → x.id = i

theorem Move.keyed (h : Move cfg me w w') (hk : Keyed w.state) : Keyed w'.state := by
  cases h with
  | advance =>
    intro i x hx
    rw [AList.lookup_empty] at hx
    cases hx
  | forget =>
    intro i x hx
    simp only at hx
    rw [lookup_foldl_erase, Option.ite_none_left_eq_some] at hx
    exact hk i x hx.2
  | _ => exact hk

/-- **No move loses a command.** -/
theorem Move.held (h : Move cfg me w w') (hk : Keyed w.state)
    (hi : Held i w.shared.created w.state) : Held i w'.shared.created w'.state := by
  cases h with
  | advance _ _ _ _ _ hcommands =>
    rcases hi with hi | ⟨v, hv, hi⟩
    · obtain ⟨x, hx⟩ := Option.isSome_iff_exists.mp (AList.lookup_isSome.mpr hi)
      have hmem := hcommands.mem_iff.mpr (mem_values.mpr ⟨i, hx⟩)
      exact .inr ⟨_, List.mem_cons_self, List.mem_map.mpr ⟨x, hmem, hk i x hx⟩⟩
    · exact .inr ⟨v, List.mem_cons_of_mem _ hv, hi⟩
  | @forget vertex hmem =>
    rcases hi with hi | hi
    · by_cases hc : i ∈ vertex.commands.map Command.id
      · exact .inr ⟨vertex, hmem, hc⟩
      · refine .inl (AList.lookup_isSome.mp ?_)
        rw [lookup_foldl_erase, if_neg hc]
        exact AList.lookup_isSome.mpr hi
    · exact .inr hi
  | _ => exact hi

theorem Moves.keyed (h : Moves cfg me w w') (hk : Keyed w.state) : Keyed w'.state := by
  induction h with
  | refl => exact hk
  | tail _ hm ih => exact hm.keyed ih

theorem Moves.held (h : Moves cfg me w w') (hk : Keyed w.state)
    (hi : Held i w.shared.created w.state) : Held i w'.shared.created w'.state := by
  induction h with
  | refl => exact hi
  | tail hms hm ih => exact hm.held (Moves.keyed hms hk) ih

theorem Moves.submits (h : Moves cfg me w w') : w'.submits = w.submits := by
  induction h with
  | refl => rfl
  | tail _ hm ih => cases hm <;> exact ih

theorem lookup_onSubmit (command : Command) (s : Bullshark) (i : CmdId) :
    (onSubmit command s).pendingCommands.lookup i =
      if i = command.id ∧ command.id ∉ s.pendingCommands then some command
      else s.pendingCommands.lookup i := by
  unfold onSubmit
  split
  · rename_i h
    rw [AList.lookup_isSome] at h
    rw [if_neg fun hc => hc.2 h]
  · rename_i h
    rw [AList.lookup_isSome] at h
    by_cases hi : i = command.id
    · subst hi
      rw [if_pos ⟨rfl, h⟩]
      exact AList.lookup_insert _
    · rw [if_neg fun hc => hi hc.1]
      exact AList.lookup_insert_ne hi

theorem begins_pending (hb : Begins cfg c a me base w) (hk : Keyed (c.replicas me)) :
    Keyed w.state ∧ ∀ i ∈ (c.replicas me).pendingCommands, i ∈ w.state.pendingCommands := by
  cases hb with
  | start _ hs =>
    obtain ⟨t, h⟩ := setUp_state (c.env cfg me ‹_›) (c.work me)
    rw [h]
    exact ⟨hk, fun _ hi => hi⟩
  | @submit index _ command =>
    simp only
    refine ⟨fun i x hx => ?_, fun i hi => ?_⟩
    · rw [lookup_onSubmit] at hx
      split at hx
      · cases hx
        exact ‹i = command.id ∧ _›.1.symm
      · exact hk i x hx
    · rw [← AList.lookup_isSome, lookup_onSubmit]
      split
      · rfl
      · exact AList.lookup_isSome.mpr hi
  | _ => exact ⟨hk, fun _ hi => hi⟩

theorem begins_submits (hb : Begins cfg c a me base w)
    {s : Pid × Command} (hs : s ∈ c.submits) :
    s ∈ base.submits ∨ s.1 = me ∧ s.2.id ∈ w.state.pendingCommands := by
  cases hb with
  | @submit index _ command hkth =>
    by_cases heq : s = (me, command)
    · subst heq
      refine .inr ⟨rfl, AList.lookup_isSome.mp ?_⟩
      rw [lookup_onSubmit]
      split
      · rfl
      · rename_i h
        exact AList.lookup_isSome.mpr (by simpa using h)
    · obtain ⟨k, hks⟩ := List.mem_iff_getElem?.mp hs
      refine .inl (List.mem_eraseIdx_iff_getElem?.mpr ⟨k, fun hkk => ?_, hks⟩)
      rw [hkk, hkth] at hks
      exact heq (Option.some.inj hks).symm
  | _ => exact .inl hs

/-- A submitted command is on its way, pending, or carried by a vertex. -/
def System.Accounted (c : System) (i : CmdId) : Prop :=
  (∃ s ∈ c.submits, s.2.id = i) ∨ (∃ p, i ∈ (c.replicas p).pendingCommands) ∨
    ∃ v ∈ c.shared.created, i ∈ v.commands.map Command.id

theorem begins_accounted (hb : Begins cfg c a me base w) (hk : Keyed (c.replicas me))
    (hi : c.Accounted i) : (∃ s ∈ base.submits, s.2.id = i) ∨
      (∃ q, q ≠ me ∧ i ∈ (c.replicas q).pendingCommands) ∨ Held i w.shared.created w.state := by
  rcases hi with ⟨s, hs, rfl⟩ | ⟨p, hp⟩ | ⟨v, hv, hi⟩
  · rcases begins_submits hb hs with hs | ⟨-, hpending⟩
    · exact .inl ⟨s, hs, rfl⟩
    · exact .inr (.inr (.inl hpending))
  · by_cases hpm : p = me
    · exact .inr (.inr (.inl ((begins_pending hb hk).2 i (hpm ▸ hp))))
    · exact .inr (.inl ⟨p, hpm, hp⟩)
  · exact .inr (.inr (.inr ⟨v, begins_created hb hv, hi⟩))

theorem begins_submitted (hb : Begins cfg c a me base w) : base.submitted = c.submitted := by
  cases hb <;> rfl

/-- **Every submitted command is accounted for.** -/
theorem accounted_of_reachable (h : c.Reachable cfg) :
    (∀ p, Keyed (c.replicas p)) ∧ ∀ command ∈ c.submitted, c.Accounted command.id := by
  refine h.invariant (I := fun c => (∀ p, Keyed (c.replicas p)) ∧
    ∀ command ∈ c.submitted, c.Accounted command.id) ⟨fun p i x hx => ?_, fun command hc => ?_⟩
    fun c a c' hr _ ih hs => ?_
  · have hx : (∅ : AList fun _ : CmdId => Command).lookup i = some x := hx
    rw [AList.lookup_empty] at hx
    cases hx
  · exact absurd hc List.not_mem_nil
  obtain ⟨hkeyed, ih⟩ := ih
  have hI := Invariant.of_reachable hr
  obtain ⟨me, base, w, w', hb, hm, rfl⟩ := hI.step hs
  obtain ⟨hreplicas, -⟩ := hI.begins_base hb
  obtain ⟨hk, -⟩ := begins_pending hb (hkeyed me)
  have hother : ∀ p, p ≠ me → (base.update me w').replicas p = c.replicas p := fun p hp => by
    unfold System.update
    simp only
    rw [Function.update_of_ne hp, hreplicas]
  have hself : (base.update me w').replicas me = w'.state := Function.update_self _ _ _
  refine ⟨fun p => ?_, fun command hc => ?_⟩
  · by_cases hp : p = me
    · rw [hp, hself]
      exact hm.keyed hk
    · rw [hother p hp]
      exact hkeyed p
  · rcases List.mem_append.mp hc with hc | hc
    · obtain ⟨s, hs, rfl⟩ := List.mem_map.mp hc
      exact .inl ⟨s, List.mem_append_left _ hs, rfl⟩
    · rw [begins_submitted hb] at hc
      rcases begins_accounted hb (hkeyed me) (ih command hc) with
        ⟨s, hs, heq⟩ | ⟨q, hq, hi⟩ | hi
      · exact .inl ⟨s, List.mem_append_right _ hs, heq⟩
      · exact .inr (.inl ⟨q, by rw [hother q hq]; exact hi⟩)
      · rcases hm.held hk hi with hi | hi
        · exact .inr (.inl ⟨me, by rw [hself]; exact hi⟩)
        · exact .inr (.inr hi)

/-- **Where a submitted command is.** It is committed if and only if a replica has ordered
a vertex that carries it. If it is not committed it is on its way, pending, or carried by a
vertex that no replica has ordered. -/
theorem submitted_accounted_for (f submitLimit : ℕ) (c : System)
    (h : c.Reachable ⟨3 * f + 1, submitLimit⟩) (command : Command) (hc : command ∈ c.submitted) :
    (command.id ∈ c.shared.commits.committed ↔
        ∃ p, ∃ v ∈ (c.replicas p).history.output, command.id ∈ v.commands.map Command.id) ∧
      (command.id ∉ c.shared.commits.committed →
        (∃ s ∈ c.submits, s.2.id = command.id) ∨
        (∃ p, command.id ∈ (c.replicas p).pendingCommands) ∨
        ∃ v ∈ c.shared.created, command.id ∈ v.commands.map Command.id ∧
          ∀ p, v ∉ (c.replicas p).history.output) := by
  have hflag := Flagged.of_reachable h command.id
  refine ⟨hflag, fun hno => ?_⟩
  rcases (accounted_of_reachable h).2 command hc with hs | hp | ⟨v, hv, hi⟩
  · exact .inl hs
  · exact .inr (.inl hp)
  · exact .inr (.inr ⟨v, hv, hi, fun p hout => hno (hflag.mpr ⟨p, v, hout, hi⟩)⟩)

end Blsmr.Bullshark
