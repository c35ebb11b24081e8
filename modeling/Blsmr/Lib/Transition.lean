import Mathlib.Data.Nat.Notation
import Mathlib.Logic.Basic

/-!
# Transition systems

A system is a partial step function: `step s a` is the state after action `a`,
or `none` when the action is not enabled. `Reachable step init ok` are the states
of the runs in which every action satisfied `ok` in the state it was taken in;
with `ok := fun _ _ => True` these are all runs.
-/

namespace Blsmr.Transition

variable {σ ι : Type*} {step : σ → ι → Option σ} {init : σ} {ok : σ → ι → Prop}

inductive Reachable (step : σ → ι → Option σ) (init : σ) (ok : σ → ι → Prop) : σ → Prop
  | init : Reachable step init ok init
  | step {s s' : σ} {a : ι} (hr : Reachable step init ok s) (hok : ok s a)
      (hs : step s a = some s') : Reachable step init ok s'

/-- **The invariant rule.** What holds at the start and is kept by every step
from a reachable state holds in every reachable state. -/
theorem Reachable.invariant {I : σ → Prop} (h₀ : I init)
    (hstep : ∀ s a s', Reachable step init ok s → ok s a → I s → step s a = some s' → I s')
    {s : σ} (h : Reachable step init ok s) : I s := by
  induction h with
  | init => exact h₀
  | step hr hok hs ih => exact hstep _ _ _ hr hok ih hs

theorem Reachable.append {s s' : σ} (h : Reachable step init ok s) (h' : Reachable step s ok s') :
    Reachable step init ok s' := by
  induction h' with
  | init => exact h
  | step _ hok hs ih => exact ih.step hok hs

theorem Reachable.weaken {ok' : σ → ι → Prop} (hw : ∀ s a, ok s a → ok' s a) {s : σ}
    (h : Reachable step init ok s) : Reachable step init ok' s := by
  induction h with
  | init => exact .init
  | step _ hok hs ih => exact ih.step (hw _ _ hok) hs

/-- The state after a sequence of actions that all pass the check `okb`. -/
def exec (step : σ → ι → Option σ) (okb : σ → ι → Bool) : σ → List ι → Option σ
  | s, [] => some s
  | s, a :: as => if okb s a then (step s a).bind fun s' => exec step okb s' as else none

theorem Reachable.exec {okb : σ → ι → Bool} (hok : ∀ s a, okb s a = true → ok s a) {as : List ι}
    {s s' : σ} (h : Reachable step init ok s)
    (he : exec step okb s as = some s') : Reachable step init ok s' := by
  induction as generalizing s with
  | nil => cases he; exact h
  | cons a as ih =>
    unfold Transition.exec at he
    split at he
    · rename_i hb
      obtain ⟨t, ht, he⟩ := Option.bind_eq_some_iff.mp he
      exact ih (h.step (hok s a hb) ht) he
    · cases he

/-- A scheduler picks the actions, at most so many, until it picks none. -/
def follow (step : σ → ι → Option σ) (next : σ → Option ι) : ℕ → σ → Option σ
  | 0, s => some s
  | count + 1, s =>
    match next s with
    | none => some s
    | some a => (step s a).bind fun s' => follow step next count s'

theorem Reachable.follow {next : σ → Option ι} (hok : ∀ s a, next s = some a → ok s a)
    {count : ℕ} {s s' : σ} (h : Reachable step init ok s)
    (he : follow step next count s = some s') : Reachable step init ok s' := by
  induction count generalizing s with
  | zero => cases he; exact h
  | succ count ih =>
    unfold Transition.follow at he
    split at he
    · cases he; exact h
    · rename_i a hnext
      obtain ⟨t, ht, he⟩ := Option.bind_eq_some_iff.mp he
      exact ih (h.step (hok s a hnext) ht) he

/-! ## The length of runs -/

/-- The states that so many steps lead to. -/
inductive Steps (step : σ → ι → Option σ) (init : σ) : ℕ → σ → Prop
  | zero : Steps step init 0 init
  | succ {count : ℕ} {s s' : σ} {a : ι} (h : Steps step init count s) (hs : step s a = some s') :
      Steps step init (count + 1) s'

theorem Steps.reachable {count : ℕ} {s : σ} (h : Steps step init count s) :
    Reachable step init (fun _ _ => True) s := by
  induction h with
  | zero => exact .init
  | succ _ hs ih => exact ih.step trivial hs

/-- A value that every step from a reachable state decreases. -/
def Variant (step : σ → ι → Option σ) (init : σ) (V : σ → ℕ) : Prop :=
  ∀ s a s', Reachable step init (fun _ _ => True) s → step s a = some s' → V s' < V s

/-- **The variant rule.** No run is longer than its variant allows. -/
theorem Variant.steps_le {V : σ → ℕ} (hV : Variant step init V) {count : ℕ} {s : σ}
    (h : Steps step init count s) : count + V s ≤ V init := by
  induction h with
  | zero => omega
  | succ h hs ih =>
    have := hV _ _ _ h.reachable hs
    omega

theorem Variant.exists_final {V : σ → ℕ} (hV : Variant step init V) {s : σ}
    (h : Reachable step init (fun _ _ => True) s) :
    ∃ s', Reachable step s (fun _ _ => True) s' ∧ ∀ a, step s' a = none := by
  generalize hv : V s = v
  induction v using Nat.strongRecOn generalizing s with
  | ind v ih =>
    subst hv
    by_cases hf : ∀ a, step s a = none
    · exact ⟨s, .init, hf⟩
    · obtain ⟨a, ha⟩ := not_forall.mp hf
      obtain ⟨t, ht⟩ := Option.ne_none_iff_exists'.mp ha
      obtain ⟨s', hs', hfinal⟩ := ih (V t) (hV s a t h ht) (h.step trivial ht) rfl
      exact ⟨s', (Reachable.init.step trivial ht).append hs', hfinal⟩

/-! ## Instrumented systems -/

/-- A step that does what another one does and keeps records beside it. -/
def Records {τ : Type*} (step' : τ → ι → Option τ) (step : σ → ι → Option σ) (erase : τ → σ) :
    Prop := ∀ t a, (step' t a).map erase = step (erase t) a

section Records

variable {τ : Type*} {step' : τ → ι → Option τ} {erase : τ → σ} {ok' : τ → ι → Prop}

theorem Records.reachable (h : Records step' step erase) (hok : ∀ t a, ok' t a → ok (erase t) a)
    {init' t : τ} (hr : Reachable step' init' ok' t) :
    Reachable step (erase init') ok (erase t) := by
  induction hr with
  | init => exact .init
  | step _ ha hs ih => exact ih.step (hok _ _ ha) (by rw [← h, hs, Option.map_some])

theorem Records.exists_reachable (h : Records step' step erase)
    (hok : ∀ t a, ok (erase t) a → ok' t a) (init' : τ) {s : σ}
    (hr : Reachable step (erase init') ok s) : ∃ t, Reachable step' init' ok' t ∧ erase t = s := by
  induction hr with
  | init => exact ⟨init', .init, rfl⟩
  | step _ ha hs ih =>
    obtain ⟨t, ht, rfl⟩ := ih
    rw [← h] at hs
    obtain ⟨t', ht', rfl⟩ := Option.map_eq_some_iff.mp hs
    exact ⟨t', ht.step (hok _ _ ha) ht', rfl⟩

end Records

end Blsmr.Transition
