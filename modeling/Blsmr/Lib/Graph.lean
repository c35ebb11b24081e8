import Mathlib.Logic.Relation
import Mathlib.Data.Finset.Card
import Mathlib.Data.Finset.Dedup
import Mathlib.Data.List.TakeWhile

/-!
# Graphs given by successor lists

`Reach succ a b`: `b` is reachable from `a` in zero or more steps of `succ`.
`Closed succ S` says `S` is closed under `succ`. `search` is the worklist loop
"pop; skip when seen; otherwise expand and push", where an expansion may stop
the whole loop (`none`). `search_spec` says what it computes: a closed set of
reachable nodes, or a reachable node that cannot be expanded.
-/

namespace Blsmr.Graph

variable {α : Type*}

/-- `b` is reachable from `a` through `succ`. -/
def Reach (succ : α → List α) : α → α → Prop :=
  Relation.ReflTransGen fun a b => b ∈ succ a

namespace Reach

variable {succ succ' : α → List α} {a b c : α}

theorem refl (succ : α → List α) (a : α) : Reach succ a a := Relation.ReflTransGen.refl

theorem single (h : b ∈ succ a) : Reach succ a b := Relation.ReflTransGen.single h

theorem trans (h₁ : Reach succ a b) (h₂ : Reach succ b c) : Reach succ a c :=
  Relation.ReflTransGen.trans h₁ h₂

theorem head (h₁ : b ∈ succ a) (h₂ : Reach succ b c) : Reach succ a c :=
  Relation.ReflTransGen.head h₁ h₂

theorem tail (h₁ : Reach succ a b) (h₂ : c ∈ succ b) : Reach succ a c :=
  Relation.ReflTransGen.tail h₁ h₂

theorem mono (hsub : ∀ x, succ x ⊆ succ' x) (h : Reach succ a b) : Reach succ' a b :=
  Relation.ReflTransGen.mono (fun x _ hy => hsub x hy) _ _ h

theorem cases_head (h : Reach succ a b) : a = b ∨ ∃ c ∈ succ a, Reach succ c b :=
  (Relation.ReflTransGen.cases_head h).imp_right fun ⟨c, hc, hr⟩ => ⟨c, hc, hr⟩

end Reach

/-- `S` is closed under `succ`. -/
def Closed (succ : α → List α) (S : α → Prop) : Prop :=
  ∀ a, S a → ∀ b ∈ succ a, S b

theorem Closed.reach {succ : α → List α} {S : α → Prop} (hS : Closed succ S) {a b : α}
    (ha : S a) (h : Reach succ a b) : S b := by
  induction h with
  | refl => exact ha
  | tail _ hbc ih => exact hS _ ih _ hbc

/-- Along a path whose nodes all satisfy `S`, the successor function may be
replaced by one that agrees with it on `S`. -/
theorem Reach.transfer {succ succ' : α → List α} {S : α → Prop} {a b : α}
    (h : Reach succ a b) (hS : ∀ x, Reach succ a x → Reach succ x b → S x)
    (hag : ∀ x y, S x → S y → y ∈ succ x → y ∈ succ' x) : Reach succ' a b := by
  induction h with
  | refl => exact Reach.refl _ _
  | @tail c d hac hcd ih =>
    have hc : S c := hS c hac (Reach.single hcd)
    have hd : S d := hS d (hac.tail hcd) (Reach.refl _ _)
    exact (ih fun x hx hxc => hS x hx (hxc.tail hcd)).tail (hag c d hc hd hcd)

/-! ## Worklist search -/

section Search

/-- The loop "pop; `continue` when seen; else expand and push". The head of
`stack` is the top, so pushing a list in order reverses it. `none` is a failed
expansion (or missing fuel). -/
def search [DecidableEq α] (expand : α → Option (List α)) : ℕ → List α → List α → Option (List α)
  | 0, stack, seen =>
    if (stack.dropWhile (fun x => decide (x ∈ seen))).isEmpty then some seen else none
  | fuel + 1, stack, seen =>
    match stack.dropWhile (fun x => decide (x ∈ seen)) with
    | [] => some seen
    | x :: rest =>
      match expand x with
      | none => none
      | some next => search expand fuel (next.reverse ++ rest) (x :: seen)

/-- The successors a search follows. -/
def follow (expand : α → Option (List α)) (x : α) : List α := (expand x).getD []

theorem follow_some {expand : α → Option (List α)} {x : α} {next : List α}
    (h : expand x = some next) : follow expand x = next := by
  simp [follow, h]

/-- What a search that started from `stack` and `seen` may return. -/
structure Found (expand : α → Option (List α)) (stack seen found : List α) : Prop where
  nodup : found.Nodup
  seen_sub : ∀ x ∈ seen, x ∈ found
  stack_sub : ∀ x ∈ stack, x ∈ found
  closed : Closed (follow expand) (· ∈ found)
  expands : ∀ x ∈ found, (expand x).isSome
  reached : ∀ x ∈ found, x ∈ seen ∨ ∃ s ∈ stack, Reach (follow expand) s x

variable [DecidableEq α]

theorem mem_of_dropWhile_nil {stack seen : List α}
    (h : stack.dropWhile (fun x => decide (x ∈ seen)) = []) {x : α} (hx : x ∈ stack) :
    x ∈ seen := by
  have := List.dropWhile_eq_nil_iff.mp h x hx
  simpa using this

theorem dropWhile_cons_spec {stack seen rest : List α} {x : α}
    (h : stack.dropWhile (fun x => decide (x ∈ seen)) = x :: rest) :
    x ∉ seen ∧ x ∈ stack ∧ (∀ y ∈ rest, y ∈ stack) ∧
      ∀ y ∈ stack, y ∈ seen ∨ y = x ∨ y ∈ rest := by
  have hsplit := List.takeWhile_append_dropWhile (p := fun x => decide (x ∈ seen)) (l := stack)
  rw [h] at hsplit
  have hx : x ∉ seen := by
    have h0 : stack.dropWhile (fun x => decide (x ∈ seen)) ≠ [] := by rw [h]; simp
    have := List.head_dropWhile_not (fun x => decide (x ∈ seen)) h0
    simpa [h] using this
  refine ⟨hx, ?_, ?_, ?_⟩
  · rw [← hsplit]; simp
  · intro y hy; rw [← hsplit]; simp [hy]
  · intro y hy
    rw [← hsplit] at hy
    rcases List.mem_append.mp hy with hy | hy
    · exact .inl (by simpa using List.mem_takeWhile_imp hy)
    · exact .inr (List.mem_cons.mp hy)

/-- What a search keeps true: the nodes seen are expanded onto the stack. -/
structure Searching (expand : α → Option (List α)) (stack seen : List α) : Prop where
  nodup : seen.Nodup
  expands : ∀ x ∈ seen, (expand x).isSome
  closed : ∀ x ∈ seen, ∀ y ∈ follow expand x, y ∈ seen ∨ y ∈ stack

section Push

variable {expand : α → Option (List α)} {stack seen rest next : List α} {x : α}

omit [DecidableEq α] in
theorem Searching.start (expand : α → Option (List α)) (stack : List α) :
    Searching expand stack [] := ⟨List.nodup_nil, by simp, by simp⟩

theorem Searching.finished (S : Searching expand stack seen)
    (h : stack.dropWhile (fun x => decide (x ∈ seen)) = []) : Found expand stack seen seen where
  nodup := S.nodup
  seen_sub _ hx := hx
  stack_sub _ hx := mem_of_dropWhile_nil h hx
  closed x hx y hy := (S.closed x hx y hy).elim id (mem_of_dropWhile_nil h)
  expands := S.expands
  reached _ hx := .inl hx

theorem Searching.push (S : Searching expand stack seen)
    (hdw : stack.dropWhile (fun x => decide (x ∈ seen)) = x :: rest)
    (hexp : expand x = some next) : Searching expand (next.reverse ++ rest) (x :: seen) := by
  obtain ⟨hxs, -, -, hcover⟩ := dropWhile_cons_spec hdw
  refine ⟨List.nodup_cons.mpr ⟨hxs, S.nodup⟩, fun y hy => ?_, fun y hy z hz => ?_⟩
  · rcases List.mem_cons.mp hy with rfl | hy
    · simp [hexp]
    · exact S.expands y hy
  · rcases List.mem_cons.mp hy with rfl | hy
    · rw [follow_some hexp] at hz
      exact .inr (by simp [hz])
    · rcases S.closed y hy z hz with h | h
      · exact .inl (List.mem_cons_of_mem _ h)
      · rcases hcover z h with h | rfl | h
        · exact .inl (List.mem_cons_of_mem _ h)
        · exact .inl List.mem_cons_self
        · exact .inr (by simp [h])

theorem reach_of_push (hdw : stack.dropWhile (fun x => decide (x ∈ seen)) = x :: rest)
    (hexp : expand x = some next) {s y : α} (hs : s ∈ next.reverse ++ rest)
    (hy : Reach (follow expand) s y) : ∃ s' ∈ stack, Reach (follow expand) s' y := by
  obtain ⟨-, hxst, hrest, -⟩ := dropWhile_cons_spec hdw
  rcases List.mem_append.mp hs with hs | hs
  · exact ⟨x, hxst, Reach.head (by rw [follow_some hexp]; simpa using hs) hy⟩
  · exact ⟨s, hrest s hs, hy⟩

theorem Found.of_push {found : List α}
    (hdw : stack.dropWhile (fun x => decide (x ∈ seen)) = x :: rest)
    (hexp : expand x = some next) (F : Found expand (next.reverse ++ rest) (x :: seen) found) :
    Found expand stack seen found := by
  obtain ⟨-, hxst, -, hcover⟩ := dropWhile_cons_spec hdw
  refine ⟨F.nodup, fun y hy => F.seen_sub y (List.mem_cons_of_mem _ hy), fun y hy => ?_,
    F.closed, F.expands, fun y hy => ?_⟩
  · rcases hcover y hy with h | rfl | h
    · exact F.seen_sub y (List.mem_cons_of_mem _ h)
    · exact F.seen_sub _ List.mem_cons_self
    · exact F.stack_sub y (by simp [h])
  · rcases F.reached y hy with h | ⟨s, hs, hr⟩
    · rcases List.mem_cons.mp h with rfl | h
      · exact .inr ⟨_, hxst, Reach.refl _ _⟩
      · exact .inl h
    · exact .inr (reach_of_push hdw hexp hs hr)

theorem card_push {univ : Finset α} {fuel : ℕ} (hx : x ∈ univ) (hxs : x ∉ seen)
    (hcard : (univ \ seen.toFinset).card ≤ fuel + 1) :
    (univ \ (x :: seen).toFinset).card ≤ fuel := by
  have hss : univ \ (x :: seen).toFinset ⊂ univ \ seen.toFinset := by
    refine Finset.ssubset_iff_of_subset (fun y hy => ?_) |>.mpr ⟨x, ?_, ?_⟩
    · simp only [Finset.mem_sdiff, List.mem_toFinset, List.mem_cons, not_or] at hy ⊢
      exact ⟨hy.1, hy.2.2⟩
    · simp [hx, hxs]
    · simp
  have := Finset.card_lt_card hss
  omega

end Push

/-- **What the worklist search computes.** With fuel for every expandable
reachable node not yet seen, it ends with a closed set of expandable nodes, or
some node reachable from the stack cannot be expanded. -/
theorem search_spec {expand : α → Option (List α)} {univ : Finset α} :
    ∀ {fuel : ℕ} {stack seen : List α}, Searching expand stack seen →
      (∀ s ∈ stack, ∀ x, Reach (follow expand) s x → (expand x).isSome → x ∈ univ) →
      (univ \ seen.toFinset).card ≤ fuel →
      (∃ found, search expand fuel stack seen = some found ∧ Found expand stack seen found) ∨
      (search expand fuel stack seen = none ∧
        ∃ s ∈ stack, ∃ x, Reach (follow expand) s x ∧ expand x = none) := by
  intro fuel
  induction fuel with
  | zero =>
    intro stack seen S huniv hcard
    cases hdw : stack.dropWhile (fun x => decide (x ∈ seen)) with
    | nil => exact .inl ⟨seen, by simp [search, hdw], S.finished hdw⟩
    | cons x rest =>
      obtain ⟨hxs, hxst, -, -⟩ := dropWhile_cons_spec hdw
      refine .inr ⟨by simp [search, hdw], x, hxst, x, Reach.refl _ _, ?_⟩
      by_contra hne
      have hu := huniv x hxst x (Reach.refl _ _) (Option.isSome_iff_ne_none.mpr hne)
      have hempty : univ \ seen.toFinset = ∅ := Finset.card_eq_zero.mp (Nat.le_zero.mp hcard)
      have : x ∈ univ \ seen.toFinset := by simp [hu, hxs]
      rw [hempty] at this
      simp at this
  | succ fuel ih =>
    intro stack seen S huniv hcard
    cases hdw : stack.dropWhile (fun x => decide (x ∈ seen)) with
    | nil => exact .inl ⟨seen, by simp [search, hdw], S.finished hdw⟩
    | cons x rest =>
      obtain ⟨hxs, hxst, -, -⟩ := dropWhile_cons_spec hdw
      cases hexp : expand x with
      | none =>
        exact .inr ⟨by simp [search, hdw, hexp], x, hxst, x, Reach.refl _ _, hexp⟩
      | some next =>
        have heq : search expand (fuel + 1) stack seen =
            search expand fuel (next.reverse ++ rest) (x :: seen) := by
          simp [search, hdw, hexp]
        have hxu : x ∈ univ := huniv x hxst x (Reach.refl _ _) (by simp [hexp])
        have huniv' : ∀ s ∈ next.reverse ++ rest, ∀ y, Reach (follow expand) s y →
            (expand y).isSome → y ∈ univ := by
          intro s hs y hy hey
          obtain ⟨s', hs', hr⟩ := reach_of_push hdw hexp hs hy
          exact huniv s' hs' y hr hey
        rw [heq]
        rcases ih (S.push hdw hexp) huniv' (card_push hxu hxs hcard) with
          ⟨found, hf, F⟩ | ⟨hn, s, hs, y, hy, hey⟩
        · exact .inl ⟨found, hf, F.of_push hdw hexp⟩
        · obtain ⟨s', hs', hr⟩ := reach_of_push hdw hexp hs hy
          exact .inr ⟨hn, s', hs', y, hr, hey⟩

theorem search_isSome_iff {expand : α → Option (List α)} {univ : Finset α} {fuel : ℕ}
    {stack : List α}
    (huniv : ∀ s ∈ stack, ∀ x, Reach (follow expand) s x → (expand x).isSome → x ∈ univ)
    (hfuel : univ.card ≤ fuel) :
    (search expand fuel stack []).isSome ↔
      ∀ s ∈ stack, ∀ x, Reach (follow expand) s x → (expand x).isSome := by
  rcases search_spec (Searching.start expand stack) huniv (by simpa using hfuel) with
    ⟨found, hf, F⟩ | ⟨hn, hbad⟩
  · refine ⟨fun _ s hs x hx => F.expands x (F.closed.reach (F.stack_sub s hs) hx), fun _ => ?_⟩
    simp [hf]
  · obtain ⟨s, hs, x, hx, hex⟩ := hbad
    refine ⟨fun h => by simp [hn] at h, fun h => ?_⟩
    have := h s hs x hx
    simp [hex] at this

theorem search_total {succ : α → List α} {univ : Finset α} {fuel : ℕ} {root : α}
    (huniv : ∀ x, Reach succ root x → x ∈ univ) (hfuel : univ.card ≤ fuel) :
    ∃ found, search (fun x => some (succ x)) fuel [root] [] = some found ∧ found.Nodup ∧
      ∀ x, x ∈ found ↔ Reach succ root x := by
  have hfol : follow (fun x => some (succ x)) = succ := by funext x; simp [follow]
  have hroot : ∀ s ∈ [root], ∀ x, Reach (follow fun x => some (succ x)) s x →
      (some (succ x)).isSome → x ∈ univ := by
    rw [hfol]
    intro s hs x hx _
    rw [List.mem_singleton.mp hs] at hx
    exact huniv x hx
  rcases search_spec (Searching.start _ [root]) hroot (by simpa using hfuel) with
    ⟨found, hf, F⟩ | ⟨-, s, -, x, -, hex⟩
  · refine ⟨found, hf, F.nodup, fun x => ⟨fun hx => ?_, fun hx => ?_⟩⟩
    · rcases F.reached x hx with h | ⟨s, hs, hr⟩
      · simp at h
      · rw [hfol, List.mem_singleton.mp hs] at hr
        exact hr
    · have hcl := F.closed
      rw [hfol] at hcl
      exact hcl.reach (F.stack_sub root (by simp)) hx
  · simp at hex

end Search

end Blsmr.Graph
