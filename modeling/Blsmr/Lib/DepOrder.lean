import Blsmr.Lib.Tarjan
import Mathlib.Data.List.Sort
import Mathlib.Order.Basic

/-!
# Dependency-first sequences

`DepFirst D ex`: the sequence `ex` lists distinct nodes, is closed under the
dependencies `D`, and an earlier node depends on a later one only inside a
cycle, where the smaller node comes first. The order of two connected nodes of
such a sequence is a function of `D` alone (`DepFirst.before_iff`), so two such
sequences agree on it (`DepFirst.agree`).

`DepFirst.append_components` extends a dependency-first sequence by the sorted
components of the part of the graph that is not in it yet.
-/

namespace Blsmr.Graph

open Blsmr.Tarjan

variable {α : Type*}

/-- `a` stands before `b` in `l`. -/
def Before [DecidableEq α] (l : List α) (a b : α) : Prop :=
  a ∈ l ∧ b ∈ l ∧ l.idxOf a < l.idxOf b

instance [DecidableEq α] (l : List α) (a b : α) : Decidable (Before l a b) := by
  unfold Before; infer_instance

section Before

variable [DecidableEq α] {l m : List α} {a b : α}

theorem Before.ne (h : Before l a b) : a ≠ b := by
  rintro rfl
  exact absurd h.2.2 (by omega)

theorem Before.asymm (h : Before l a b) : ¬ Before l b a := fun h' => by
  have := h.2.2; have := h'.2.2; omega

theorem before_total (ha : a ∈ l) (hb : b ∈ l) (hab : a ≠ b) : Before l a b ∨ Before l b a := by
  rcases Nat.lt_trichotomy (l.idxOf a) (l.idxOf b) with h | h | h
  · exact .inl ⟨ha, hb, h⟩
  · exact absurd ((List.idxOf_inj ha).mp h) hab
  · exact .inr ⟨hb, ha, h⟩

theorem Before.append (h : Before l a b) (m : List α) : Before (l ++ m) a b := by
  refine ⟨by simp [h.1], by simp [h.2.1], ?_⟩
  rw [List.idxOf_append_of_mem h.1, List.idxOf_append_of_mem h.2.1]
  exact h.2.2

theorem before_append_of_mem (ha : a ∈ l) (hb : b ∈ m) (hbl : b ∉ l) : Before (l ++ m) a b := by
  refine ⟨by simp [ha], by simp [hb], ?_⟩
  rw [List.idxOf_append_of_mem ha, List.idxOf_append_of_notMem hbl]
  have := List.idxOf_lt_length_of_mem ha
  omega

theorem Before.of_pairwise {R : α → α → Prop} (hp : l.Pairwise R) (h : Before l a b) : R a b := by
  obtain ⟨ha, hb, hlt⟩ := h
  have hla := List.idxOf_lt_length_of_mem ha
  have hlb := List.idxOf_lt_length_of_mem hb
  have := List.pairwise_iff_getElem.mp hp (l.idxOf a) (l.idxOf b) hla hlb hlt
  simpa using this

end Before

/-- `ex` executes the dependency graph `D`: dependencies first, cycles in order. -/
structure DepFirst [LT α] (D : α → List α) (ex : List α) : Prop where
  nodup : ex.Nodup
  closed : Closed D (· ∈ ex)
  ordered : ex.Pairwise fun x y => Reach D x y → Reach D y x ∧ x < y

namespace DepFirst

section Order

variable [LinearOrder α] {D : α → List α} {ex ex' : List α} {a b : α}

theorem nil (D : α → List α) : DepFirst D [] :=
  ⟨List.nodup_nil, by simp [Closed], List.Pairwise.nil⟩

theorem mem_of_reach (h : DepFirst D ex) (hb : b ∈ ex) (hr : Reach D b a) : a ∈ ex :=
  h.closed.reach hb hr

theorem before_of_acyclic (h : DepFirst D ex) (hb : b ∈ ex) (hr : Reach D b a)
    (hn : ¬ Reach D a b) : Before ex a b := by
  have ha := h.mem_of_reach hb hr
  have hab : a ≠ b := by rintro rfl; exact hn (Reach.refl _ _)
  rcases before_total ha hb hab with h' | h'
  · exact h'
  · exact absurd (Before.of_pairwise h.ordered h' hr).1 hn

theorem before_of_lt (h : DepFirst D ex) (hb : b ∈ ex) (hba : Reach D b a) (hlt : a < b) :
    Before ex a b := by
  have ha := h.mem_of_reach hb hba
  rcases before_total ha hb hlt.ne with h' | h'
  · exact h'
  · exact absurd (Before.of_pairwise h.ordered h' hba).2 (lt_asymm hlt)

theorem before_iff (h : DepFirst D ex) (hb : b ∈ ex) (hc : Reach D a b ∨ Reach D b a) :
    Before ex a b ↔ Reach D b a ∧ (Reach D a b → a < b) := by
  constructor
  · intro hbef
    by_cases hr : Reach D a b
    · have := Before.of_pairwise h.ordered hbef hr
      exact ⟨this.1, fun _ => this.2⟩
    · exact ⟨hc.resolve_left hr, fun h' => absurd h' hr⟩
  · rintro ⟨hr, himp⟩
    by_cases hr' : Reach D a b
    · exact h.before_of_lt hb hr (himp hr')
    · exact h.before_of_acyclic hb hr hr'

/-- **Agreement.** Two dependency-first sequences of one graph order every two
connected nodes that both have executed alike. -/
theorem agree (h : DepFirst D ex) (h' : DepFirst D ex') (hb : b ∈ ex) (hb' : b ∈ ex')
    (hc : Reach D a b ∨ Reach D b a) : Before ex a b ↔ Before ex' a b :=
  (h.before_iff hb hc).trans (h'.before_iff hb' hc).symm

end Order

section Append

variable [LinearOrder α] {D : α → List α} {ex : List α}

theorem reach_within {old new : List α} (hold : Closed D (· ∈ old))
    (hdisj : ∀ x ∈ new, x ∉ old) (hnew : ∀ x ∈ new, ∀ y ∈ D x, y ∈ new ∨ y ∈ old) {x y : α}
    (hx : x ∈ new) (hy : y ∈ new) (h : Reach D x y) : Reach (within new D) x y := by
  have hcl : Closed D fun z => z ∈ new ∨ z ∈ old := by
    rintro z (hz | hz) w hw
    · exact hnew z hz w hw
    · exact .inr (hold z hz w hw)
  refine h.transfer (S := (· ∈ new)) (fun z hxz hzy => ?_) fun z w _ hw hzw => ?_
  · rcases hcl.reach (.inl hx) hxz with hz | hz
    · exact hz
    · exact absurd (hold.reach hz hzy) (hdisj y hy)
  · exact mem_within.mpr ⟨hzw, hw⟩

theorem congr {D' : α → List α} (h : DepFirst D ex)
    (hag : ∀ x ∈ ex, ∀ y, y ∈ D' x ↔ y ∈ D x) : DepFirst D' ex := by
  have hcl : Closed D' (· ∈ ex) := fun x hx y hy => h.closed x hx y ((hag x hx y).mp hy)
  have hback : ∀ x ∈ ex, ∀ y, Reach D' x y → Reach D x y := fun x hx y hr =>
    hr.transfer (S := (· ∈ ex)) (fun z hz _ => hcl.reach hx hz)
      fun z w hz _ hzw => (hag z hz w).mp hzw
  have hforth : ∀ x ∈ ex, ∀ y, Reach D x y → Reach D' x y := fun x hx y hr =>
    hr.transfer (S := (· ∈ ex)) (fun z hz _ => h.closed.reach hx hz)
      fun z w hz _ hzw => (hag z hz w).mpr hzw
  refine ⟨h.nodup, hcl, h.ordered.imp_of_mem fun {x y} hx hy hxy hr => ?_⟩
  obtain ⟨h1, h2⟩ := hxy (hback x hx y hr)
  exact ⟨hforth y hy x h1, h2⟩

theorem append {new : List α} (h : DepFirst D ex) (hdisj : ∀ x ∈ new, x ∉ ex)
    (hnew : ∀ x ∈ new, ∀ y ∈ D x, y ∈ new ∨ y ∈ ex) (hn : DepFirst (within new D) new) :
    DepFirst D (ex ++ new) := by
  refine ⟨?_, ?_, ?_⟩
  · exact List.nodup_append.mpr ⟨h.nodup, hn.nodup, fun x hx y hy he => hdisj y hy (he ▸ hx)⟩
  · intro x hx y hy
    rcases List.mem_append.mp hx with hx | hx
    · exact List.mem_append_left _ (h.closed x hx y hy)
    · rcases hnew x hx y hy with h' | h' <;> simp [h']
  · refine List.pairwise_append.mpr ⟨h.ordered, ?_, fun x hx y hy hr => ?_⟩
    · refine hn.ordered.imp_of_mem fun {x y} hx hy hxy hr => ?_
      obtain ⟨h1, h2⟩ := hxy (reach_within h.closed hdisj hnew hx hy hr)
      exact ⟨h1.mono fun z w hw => (mem_within.mp hw).1, h2⟩
    · exact absurd (h.closed.reach hx hr) (hdisj y hy)

/-- The sorted components of a node list, in order. -/
def flatSort (sccs : List (List α)) : List α :=
  (sccs.map fun c => c.insertionSort (· ≤ ·)).flatten

theorem mem_flatSort {sccs : List (List α)} {x : α} : x ∈ flatSort sccs ↔ x ∈ sccs.flatten := by
  simp [flatSort, List.mem_flatten]

theorem flatSort_perm (sccs : List (List α)) : (flatSort sccs).Perm sccs.flatten := by
  induction sccs with
  | nil => exact List.Perm.refl _
  | cons c sccs ih =>
    simp only [flatSort, List.map_cons, List.flatten_cons] at ih ⊢
    exact (List.perm_insertionSort _ c).append ih

theorem of_components {E : α → List α} {sccs : List (List α)} (h : SccsOk E sccs) :
    DepFirst E (flatSort sccs) := by
  refine ⟨(flatSort_perm sccs).nodup_iff.mpr h.nodup, ?_, ?_⟩
  · intro x hx y hy
    rw [mem_flatSort] at hx ⊢
    exact h.closed x hx y hy
  · refine List.pairwise_flatten.mpr ⟨?_, ?_⟩
    · intro c' hc'
      obtain ⟨c, hc, rfl⟩ := List.mem_map.mp hc'
      have hnd : (c.insertionSort (· ≤ ·)).Nodup :=
        (List.perm_insertionSort _ c).nodup_iff.mpr
          (List.Nodup.sublist (List.sublist_flatten_of_mem hc) h.nodup)
      have hs : (c.insertionSort (· ≤ ·)).Pairwise (· ≤ ·) := List.pairwise_insertionSort _ c
      refine (hs.and hnd).imp_of_mem fun {x y} hx hy hxy _ => ?_
      rw [List.mem_insertionSort] at hx hy
      exact ⟨h.connected c hc y hy x hx, lt_of_le_of_ne hxy.1 hxy.2⟩
    · -- an earlier component has no path into a later one
      rw [List.pairwise_map]
      refine List.pairwise_iff_forall_sublist.mpr fun {c d} hcd x hx y hy hr => ?_
      rw [List.mem_insertionSort] at hx hy
      obtain ⟨pre, post, hsplit, hd⟩ : ∃ pre post, sccs = (pre ++ [c]) ++ post ∧ d ∈ post := by
        obtain ⟨pre, r, hr, hc, hd⟩ := List.cons_sublist_iff.mp hcd
        obtain ⟨p, q, rfl⟩ := List.append_of_mem hc
        exact ⟨p, q ++ r, by simp [hr], by simp [List.singleton_sublist.mp hd]⟩
      have hyc : y ∈ (pre ++ [c]).flatten := (h.closed_prefix hsplit).reach (by simp [hx]) hr
      have hyd : y ∈ post.flatten := List.mem_flatten.mpr ⟨d, hd, hy⟩
      have hnd := h.nodup
      rw [hsplit, List.flatten_append, List.nodup_append] at hnd
      exact absurd rfl (hnd.2.2 y hyc y hyd)

end Append

end DepFirst

end Blsmr.Graph
