import Blsmr.Lib.DepOrder

/-!
# Sequences that order conflicting elements alike

Two replicas execute the sequences `l` and `l'`. `Aligned R l l'` says that they
never disagree about conflicting elements: of two of them, one executed by each,
one replica has executed both, and whoever has executed the later of the two has
executed the earlier one before it. If any two elements conflict, one of the
sequences is a prefix of the other (`Aligned.prefix_or_prefix`). If elements that
do not conflict commute, a replica that is behind catches up by executing what it
misses (`Aligned.catch_up`).

Dependency-first sequences of one graph are aligned when of any two conflicting
elements one depends on the other, or one leads the other in both sequences
(`Aligned.of_depFirst`).
-/

namespace Blsmr.Graph

variable {α : Type*} [DecidableEq α]

/-! ## The order in parts of a sequence -/

section Before

variable {l : List α} {a b c : α}

theorem before_cons : Before (c :: l) a b ↔
    b ≠ c ∧ (a = c ∧ b ∈ l ∨ a ≠ c ∧ Before l a b) := by
  by_cases hb : b = c
  · subst hb
    simp [Before]
  by_cases ha : a = c
  · subst ha
    simp [Before, hb, List.idxOf_cons_ne l (Ne.symm hb)]
  · simp [Before, ha, hb, List.idxOf_cons_ne l (Ne.symm ha), List.idxOf_cons_ne l (Ne.symm hb)]

theorem before_filter {P : α → Bool} :
    Before (l.filter P) a b ↔ P a = true ∧ P b = true ∧ Before l a b := by
  induction l with
  | nil => simp [Before]
  | cons c l ih =>
    by_cases hc : P c = true
    · rw [List.filter_cons_of_pos hc, before_cons, before_cons, ih, List.mem_filter]
      by_cases ha : a = c
      · subst ha
        simp [hc]
        tauto
      · simp [ha]
        tauto
    · rw [List.filter_cons_of_neg hc, ih, before_cons]
      by_cases ha : a = c
      · subst ha
        simp [hc]
      by_cases hb : b = c
      · subst hb
        simp [hc]
      · simp [ha, hb]

theorem not_before_head : ¬ Before (c :: l) a c := fun h => (before_cons.mp h).1 rfl

theorem before_head (hb : b ∈ c :: l) (hne : b ≠ c) : Before (c :: l) c b :=
  before_cons.mpr ⟨hne, .inl ⟨rfl, (List.mem_cons.mp hb).resolve_left hne⟩⟩

end Before

/-! ## Aligned sequences -/

structure Aligned (R : α → α → Prop) (l l' : List α) : Prop where
  meet : ∀ a b, R a b → a ∈ l → b ∈ l' → b ∈ l ∨ a ∈ l'
  left : ∀ a b, R a b → Before l a b → b ∈ l' → Before l' a b
  right : ∀ a b, R a b → Before l' a b → b ∈ l → Before l a b

namespace Aligned

variable {R : α → α → Prop} {l l' : List α}

theorem filter (h : Aligned R l l') (P : α → Bool) : Aligned R (l.filter P) (l'.filter P) := by
  refine ⟨fun a b hab ha hb => ?_, fun a b hab hbef hb => ?_, fun a b hab hbef hb => ?_⟩
  · rw [List.mem_filter] at ha hb
    rw [List.mem_filter, List.mem_filter]
    exact (h.meet a b hab ha.1 hb.1).imp (⟨·, hb.2⟩) (⟨·, ha.2⟩)
  · rw [before_filter] at hbef ⊢
    exact ⟨hbef.1, hbef.2.1, h.left a b hab hbef.2.2 (List.mem_filter.mp hb).1⟩
  · rw [before_filter] at hbef ⊢
    exact ⟨hbef.1, hbef.2.1, h.right a b hab hbef.2.2 (List.mem_filter.mp hb).1⟩

theorem erase (h : Aligned R l l') (hl : l.Nodup) (hl' : l'.Nodup) (a : α) :
    Aligned R (l.erase a) (l'.erase a) := by
  rw [hl.erase_eq_filter, hl'.erase_eq_filter]
  exact h.filter _

theorem head_eq {a b : α} {t t' : List α} (h : Aligned R (a :: t) (b :: t'))
    (hR : a ≠ b → R a b ∧ R b a) : a = b := by
  by_contra hne
  obtain ⟨hab, hba⟩ := hR hne
  rcases h.meet a b hab List.mem_cons_self List.mem_cons_self with hb | ha
  · exact not_before_head (h.left a b hab (before_head hb (Ne.symm hne)) List.mem_cons_self)
  · exact not_before_head (h.right b a hba (before_head ha hne) List.mem_cons_self)

/-- **One is a prefix of the other** if any two elements conflict. -/
theorem prefix_or_prefix (h : Aligned R l l') (hl : l.Nodup) (hl' : l'.Nodup)
    (hR : ∀ a ∈ l, ∀ b ∈ l', a ≠ b → R a b ∧ R b a) : l <+: l' ∨ l' <+: l := by
  induction l generalizing l' with
  | nil => exact .inl List.nil_prefix
  | cons a t ih =>
    cases l' with
    | nil => exact .inr List.nil_prefix
    | cons b t' =>
      obtain rfl : a = b := h.head_eq (hR a List.mem_cons_self b List.mem_cons_self)
      have htail : Aligned R t t' := by
        simpa only [List.erase_cons_head] using h.erase hl hl' a
      have := ih htail hl.of_cons hl'.of_cons fun x hx y hy =>
        hR x (List.mem_cons_of_mem _ hx) y (List.mem_cons_of_mem _ hy)
      exact this.imp (List.cons_prefix_cons.mpr ⟨rfl, ·⟩) (List.cons_prefix_cons.mpr ⟨rfl, ·⟩)

/-! ## What aligned sequences do to a state -/

section Fold

variable {σ : Type*} {act : σ → α → σ}

omit [DecidableEq α] in
theorem foldl_swap {u : List α} {a : α} (h : ∀ x ∈ u, ∀ s, act (act s x) a = act (act s a) x)
    (s : σ) : act (u.foldl act s) a = u.foldl act (act s a) := by
  induction u generalizing s with
  | nil => rfl
  | cons x u ih =>
    rw [List.foldl_cons, List.foldl_cons, ih (fun y hy => h y (List.mem_cons_of_mem _ hy)),
      h x List.mem_cons_self]

/-- **Catching up.** If elements that do not conflict commute, the state after `l'`
is the state after `l` followed by what `l` misses. -/
theorem catch_up (h : Aligned R l l') (hl : l.Nodup) (hl' : l'.Nodup) (hsub : l ⊆ l')
    (hact : ∀ x ∈ l', ∀ y ∈ l', x ≠ y → ¬ R x y → ∀ s, act (act s x) y = act (act s y) x)
    (s : σ) :
    l'.foldl act s = (l'.filter fun x => x ∉ l).foldl act (l.foldl act s) := by
  induction l generalizing l' s with
  | nil => simp
  | cons a t ih =>
    obtain ⟨u, v, rfl⟩ := List.append_of_mem (hsub List.mem_cons_self)
    obtain ⟨hau, hav⟩ : a ∉ u ∧ a ∉ v := by
      have := List.nodup_middle.mp hl'
      simpa using (List.nodup_cons.mp this).1
    have herase : (u ++ a :: v).erase a = u ++ v := by
      rw [List.erase_append_right _ hau, List.erase_cons_head]
    -- whatever `l'` executes before `a` does not conflict with it
    have hfree : ∀ x ∈ u, ∀ s, act (act s x) a = act (act s a) x := fun x hx =>
      hact x (by simp [hx]) a (by simp) (fun hxa => hau (hxa ▸ hx)) fun hR =>
        not_before_head (h.right x a hR (before_append_of_mem hx List.mem_cons_self hau)
          List.mem_cons_self)
    have hstep : (u ++ a :: v).foldl act s = (u ++ v).foldl act (act s a) := by
      rw [List.foldl_append, List.foldl_cons, foldl_swap hfree, List.foldl_append]
    have hrest : (u ++ a :: v).filter (fun x => x ∉ a :: t) = (u ++ v).filter fun x => x ∉ t := by
      rw [List.filter_append, List.filter_cons_of_neg (by simp), ← List.filter_append]
      refine List.filter_congr fun x hx => ?_
      have hxa : x ≠ a := by
        rintro rfl
        exact (List.mem_append.mp hx).elim hau hav
      simp [hxa]
    have htail : Aligned R t (u ++ v) := by
      have := h.erase hl hl' a
      rwa [List.erase_cons_head, herase] at this
    have hmem : ∀ x ∈ u ++ v, x ∈ u ++ a :: v := fun x hx => by
      rw [List.mem_append] at hx
      simp only [List.mem_append, List.mem_cons]
      tauto
    rw [hstep, hrest, List.foldl_cons]
    refine ih htail hl.of_cons (herase ▸ hl'.erase a) (fun x hx => ?_) (fun x hx y hy =>
      hact x (hmem x hx) y (hmem y hy)) (act s a)
    have hxa : x ≠ a := fun he => (List.nodup_cons.mp hl).1 (he ▸ hx)
    rw [← herase]
    exact (List.mem_erase_of_ne hxa).mpr (hsub (List.mem_cons_of_mem _ hx))

end Fold

/-! ## Where alignment comes from -/

/-- `a` is in `l`, and `b` only after it. -/
def Leads (l : List α) (a b : α) : Prop := a ∈ l ∧ (b ∈ l → Before l a b)

/-- **Dependencies align.** -/
theorem of_depFirst {α : Type*} [LinearOrder α] {R : α → α → Prop} {D : α → List α}
    {l l' : List α} (h : DepFirst D l) (h' : DepFirst D l')
    (hR : ∀ a b, R a b → (a ∈ l ∨ a ∈ l') → (b ∈ l ∨ b ∈ l') → b ∈ D a ∨ a ∈ D b ∨
      Leads l a b ∧ Leads l' a b ∨ Leads l b a ∧ Leads l' b a) : Aligned R l l' := by
  refine ⟨fun a b hab ha hb => ?_, fun a b hab hbef hb => ?_, fun a b hab hbef hb => ?_⟩
  · rcases hR a b hab (.inl ha) (.inr hb) with hd | hd | ⟨-, hd⟩ | ⟨hd, -⟩
    · exact .inl (h.closed a ha b hd)
    · exact .inr (h'.closed b hb a hd)
    · exact .inr hd.1
    · exact .inl hd.1
  · rcases hR a b hab (.inl hbef.1) (.inr hb) with hd | hd | ⟨-, hd⟩ | ⟨hd, -⟩
    · exact (h.agree h' hbef.2.1 hb (.inl (Reach.single hd))).mp hbef
    · exact (h.agree h' hbef.2.1 hb (.inr (Reach.single hd))).mp hbef
    · exact hd.2 hb
    · exact absurd (hd.2 hbef.1) hbef.asymm
  · rcases hR a b hab (.inr hbef.1) (.inl hb) with hd | hd | ⟨hd, -⟩ | ⟨-, hd⟩
    · exact (h'.agree h hbef.2.1 hb (.inl (Reach.single hd))).mp hbef
    · exact (h'.agree h hbef.2.1 hb (.inr (Reach.single hd))).mp hbef
    · exact hd.2 hb
    · exact absurd (hd.2 hbef.1) hbef.asymm

end Aligned

end Blsmr.Graph
