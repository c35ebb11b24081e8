import Blsmr.Lib.Graph

/-!
# Breadth-first search

`Searching` is the state of a search that marks what it puts into the queue: what
has been seen is in the queue or has been expanded, without meeting the target.
When the queue is empty the target cannot be reached (`Searching.not_reach`).

`Traverse` is a traversal that marks what it takes from the queue. Elements are
marked by their keys. The elements come out in one order (`Traverse.unique`), which
depends on what can be reached only (`Traverse.congr`) and goes down level by level
(`Traverse.shallow`); each comes out once (`Traverse.nodup`), and what comes out is what can
be reached and was not marked (`Traverse.mem_iff`).
-/

namespace Blsmr.Bfs

open Blsmr.Graph

variable {α κ : Type*}

section Searching

variable {succ : α → List α} {start target x : α} {seen seen' : α → Prop} {queue new : List α}

structure Searching (succ : α → List α) (start target : α) (seen : α → Prop)
    (queue : List α) : Prop where
  start_seen : seen start
  reached : ∀ y ∈ queue, Reach succ start y
  expanded : ∀ y, Reach succ start y → seen y →
    y ∈ queue ∨ ∀ z ∈ succ y, z ≠ target ∧ seen z

theorem Searching.begin (hs : seen start) (honly : ∀ y, Reach succ start y → seen y → y = start) :
    Searching succ start target seen [start] where
  start_seen := hs
  reached _ hy := List.mem_singleton.mp hy ▸ .refl succ start
  expanded y hr hy := .inl (List.mem_singleton.mpr (honly y hr hy))

theorem Searching.expand (S : Searching succ start target seen (x :: queue))
    (hnew : ∀ y ∈ new, y ∈ succ x) (hmono : ∀ y, seen y → seen' y)
    (hseen : ∀ y, Reach succ start y → seen' y → seen y ∨ y ∈ new)
    (hsucc : ∀ y ∈ succ x, y ≠ target ∧ seen' y) :
    Searching succ start target seen' (queue ++ new) where
  start_seen := hmono _ S.start_seen
  reached y hy := by
    rcases List.mem_append.mp hy with hy | hy
    · exact S.reached y (List.mem_cons_of_mem _ hy)
    · exact (S.reached x List.mem_cons_self).tail (hnew y hy)
  expanded y hr hy := by
    rcases hseen y hr hy with hy | hy
    · rcases S.expanded y hr hy with hq | he
      · rcases List.mem_cons.mp hq with rfl | hq
        · exact .inr hsucc
        · exact .inl (List.mem_append_left _ hq)
      · exact .inr fun z hz => ⟨(he z hz).1, hmono z (he z hz).2⟩
    · exact .inl (List.mem_append_right _ hy)

/-- **A search that ends without the target has seen all there is.** -/
theorem Searching.not_reach (S : Searching succ start target seen []) (hne : start ≠ target) :
    ¬ Reach succ start target := by
  intro h
  have hall : ∀ y, Reach succ start y → seen y ∧ y ≠ target := by
    intro y hy
    induction hy with
    | refl => exact ⟨S.start_seen, hne⟩
    | tail hr hstep ih =>
      have := (S.expanded _ hr ih.1).resolve_left List.not_mem_nil _ hstep
      exact ⟨this.2, this.1⟩
  exact (hall target h).2 rfl

end Searching

section Traverse

variable {key : α → κ} {succ succ' : α → List α} {marked marked' : κ → Prop} {queue out : List α}

inductive Traverse (key : α → κ) (succ : α → List α) : (κ → Prop) → List α → List α → Prop
  | nil {marked : κ → Prop} : Traverse key succ marked [] []
  | skip {marked : κ → Prop} {x : α} {queue out : List α} (hx : marked (key x))
      (ht : Traverse key succ marked queue out) : Traverse key succ marked (x :: queue) out
  | mark {marked : κ → Prop} {x : α} {queue out : List α} (hx : ¬ marked (key x))
      (ht : Traverse key succ (fun k => k = key x ∨ marked k) (queue ++ succ x) out) :
      Traverse key succ marked (x :: queue) (x :: out)

/-- **The order of a traversal is determined.** -/
theorem Traverse.unique (h : Traverse key succ marked queue out) {out' : List α}
    (h' : Traverse key succ marked queue out') : out = out' := by
  induction h generalizing out' with
  | nil => cases h'; rfl
  | skip hx _ ih =>
    cases h' with
    | skip _ ht => exact ih ht
    | mark hx' => exact absurd hx hx'
  | mark hx _ ih =>
    cases h' with
    | skip hx' => exact absurd hx' hx
    | mark _ ht => rw [ih ht]

/-- **Only what can be reached matters.** -/
theorem Traverse.congr {S : α → Prop} (hS : ∀ x, S x → ∀ y ∈ succ x, S y)
    (hsucc : ∀ x, S x → succ' x = succ x) (h : Traverse key succ marked queue out)
    (hmarked : ∀ x, S x → (marked' (key x) ↔ marked (key x))) (hq : ∀ x ∈ queue, S x) :
    Traverse key succ' marked' queue out := by
  induction h generalizing marked' with
  | nil => exact .nil
  | @skip marked x queue out hx _ ih =>
    exact .skip ((hmarked x (hq x List.mem_cons_self)).mpr hx)
      (ih hmarked fun y hy => hq y (List.mem_cons_of_mem _ hy))
  | @mark marked x queue out hx _ ih =>
    have hSx := hq x List.mem_cons_self
    refine .mark (fun hm => hx ((hmarked x hSx).mp hm)) ?_
    rw [hsucc x hSx]
    refine ih (fun y hy => or_congr_right (hmarked y hy)) fun y hy => ?_
    rcases List.mem_append.mp hy with hy | hy
    · exact hq y (List.mem_cons_of_mem _ hy)
    · exact hS x hSx y hy

theorem Traverse.subset {S : α → Prop} (hS : ∀ x, S x → ∀ y ∈ succ x, S y)
    (h : Traverse key succ marked queue out) (hq : ∀ x ∈ queue, S x) : ∀ x ∈ out, S x := by
  induction h with
  | nil => exact List.forall_mem_nil _
  | skip _ _ ih => exact ih fun y hy => hq y (List.mem_cons_of_mem _ hy)
  | mark _ _ ih =>
    have hSx := hq _ List.mem_cons_self
    refine List.forall_mem_cons.mpr ⟨hSx, ih fun y hy => ?_⟩
    rcases List.mem_append.mp hy with hy | hy
    · exact hq y (List.mem_cons_of_mem _ hy)
    · exact hS _ hSx y hy

theorem Traverse.fresh (h : Traverse key succ marked queue out) : ∀ x ∈ out, ¬ marked (key x) := by
  induction h with
  | nil => exact List.forall_mem_nil _
  | skip _ _ ih => exact ih
  | mark hx _ ih => exact List.forall_mem_cons.mpr ⟨hx, fun y hy hm => ih y hy (.inr hm)⟩

/-- **What comes out is closed under the edges**, if what is marked was: its edges lead to
what is marked or queued. -/
theorem Traverse.closed {S : α → Prop} (hS : ∀ x, S x → ∀ y ∈ succ x, S y)
    (hkey : ∀ x, S x → ∀ y, S y → key x = key y → x = y)
    (h : Traverse key succ marked queue out) (hq : ∀ x ∈ queue, S x)
    (hclosed : ∀ x, S x → marked (key x) → ∀ y ∈ succ x, marked (key y) ∨ y ∈ queue) :
    (∀ x ∈ queue, marked (key x) ∨ ∃ v ∈ out, key v = key x) ∧
      ∀ x, S x → (marked (key x) ∨ ∃ v ∈ out, key v = key x) →
        ∀ y ∈ succ x, marked (key y) ∨ ∃ v ∈ out, key v = key y := by
  induction h with
  | nil =>
    refine ⟨List.forall_mem_nil _, fun x hx hm y hy => ?_⟩
    have hm := hm.resolve_right fun ⟨v, hv, _⟩ => List.not_mem_nil hv
    exact .inl ((hclosed x hx hm y hy).resolve_right List.not_mem_nil)
  | @skip marked x queue out hx _ ih =>
    obtain ⟨hrest, hout⟩ := ih (fun y hy => hq y (List.mem_cons_of_mem _ hy))
      fun z hz hm y hy => by
        rcases hclosed z hz hm y hy with hy | hy
        · exact .inl hy
        · rcases List.mem_cons.mp hy with rfl | hy
          · exact .inl hx
          · exact .inr hy
    exact ⟨List.forall_mem_cons.mpr ⟨.inl hx, hrest⟩, hout⟩
  | @mark marked x queue out hx _ ih =>
    have hSx := hq x List.mem_cons_self
    obtain ⟨hrest, hout⟩ := ih (fun y hy => by
        rcases List.mem_append.mp hy with hy | hy
        · exact hq y (List.mem_cons_of_mem _ hy)
        · exact hS x hSx y hy) fun z hz hm y hy => by
      rcases hm with hk | hm
      · exact .inr (List.mem_append_right _ (hkey z hz x hSx hk ▸ hy))
      · rcases hclosed z hz hm y hy with hy | hy
        · exact .inl (.inr hy)
        · rcases List.mem_cons.mp hy with rfl | hy
          · exact .inl (.inl rfl)
          · exact .inr (List.mem_append_left _ hy)
    have hmove : ∀ z, (key z = key x ∨ marked (key z)) ∨ (∃ v ∈ out, key v = key z) ↔
        marked (key z) ∨ ∃ v ∈ x :: out, key v = key z := fun z => by
      simp only [List.mem_cons, exists_eq_or_imp]
      rw [eq_comm (a := key x)]
      tauto
    refine ⟨fun z hz => (hmove z).mp ?_, fun z hz hm y hy => (hmove y).mp ?_⟩
    · rcases List.mem_cons.mp hz with rfl | hz
      · exact .inl (.inl rfl)
      · exact hrest z (List.mem_append_left _ hz)
    · exact hout z hz ((hmove z).mpr hm) y hy

/-- **Nothing comes out twice.** -/
theorem Traverse.nodup (h : Traverse key succ marked queue out) : (out.map key).Nodup := by
  induction h with
  | nil => exact List.nodup_nil
  | skip _ _ ih => exact ih
  | mark _ ht ih =>
    refine List.nodup_cons.mpr ⟨fun hmem => ?_, ih⟩
    obtain ⟨y, hy, hkey⟩ := List.mem_map.mp hmem
    exact ht.fresh y hy (.inl hkey)

/-- **What comes out is what can be reached**, without what was marked, if the marks were
closed under the edges. -/
theorem Traverse.mem_iff {S : α → Prop} (hS : ∀ x, S x → ∀ y ∈ succ x, S y)
    (hkey : ∀ x, S x → ∀ y, S y → key x = key y → x = y) {a : α} (ha : S a)
    (h : Traverse key succ marked [a] out)
    (hclosed : ∀ x, S x → marked (key x) → ∀ y ∈ succ x, marked (key y)) {x : α} :
    x ∈ out ↔ Reach succ a x ∧ ¬ marked (key x) := by
  have hq : ∀ y ∈ [a], S y := fun y hy => List.mem_singleton.mp hy ▸ ha
  have hreach : ∀ y, Reach succ a y → S y := fun y hy => by
    induction hy with
    | refl => exact ha
    | tail _ hstep ih => exact hS _ ih _ hstep
  refine ⟨fun hx => ⟨?_, h.fresh x hx⟩, fun ⟨hr, hno⟩ => ?_⟩
  · exact h.subset (S := Reach succ a) (fun y hy z hz => hy.tail hz)
      (fun y hy => List.mem_singleton.mp hy ▸ .refl succ a) x hx
  · obtain ⟨hqueue, hout⟩ := h.closed hS hkey hq fun y hy hm z hz => .inl (hclosed y hy hm z hz)
    have hall : ∀ y, Reach succ a y → marked (key y) ∨ ∃ v ∈ out, key v = key y := fun y hy => by
      induction hy with
      | refl => exact hqueue a (List.mem_singleton_self a)
      | tail hr hstep ih => exact hout _ (hreach _ hr) ih _ hstep
    obtain ⟨v, hv, hvx⟩ := (hall x hr).resolve_left hno
    exact hkey v (h.subset hS hq v hv) x (hreach x hr) hvx ▸ hv

/-- The queue goes down level by level, and the elements of `rest` lie below the bound. -/
structure Levels (S : α → Prop) (rank : α → ℕ) (bound : ℕ) (queue rest : List α) : Prop where
  queue_mem : ∀ x ∈ queue, S x ∧ bound ≤ rank x
  rest_mem : ∀ x ∈ rest, S x ∧ rank x < bound
  pairwise : queue.Pairwise fun x y => rank y ≤ rank x ∧ rank x ≤ rank y + 1
  rest_last : rest ≠ [] → ∀ x ∈ queue, rank x ≤ bound

section

variable {S : α → Prop} {rank : α → ℕ} {bound : ℕ} {x : α} {rest : List α}

theorem Levels.tail (h : Levels S rank bound (x :: queue) rest) :
    Levels S rank bound queue rest where
  queue_mem y hy := h.queue_mem y (List.mem_cons_of_mem _ hy)
  rest_mem := h.rest_mem
  pairwise := h.pairwise.of_cons
  rest_last hne y hy := h.rest_last hne y (List.mem_cons_of_mem _ hy)

theorem Levels.above (hS : ∀ x, S x → ∀ y ∈ succ x, S y ∧ rank y + 1 = rank x)
    (h : Levels S rank bound (x :: queue) rest) (hlt : bound < rank x) :
    rest = [] ∧ ((succ x).filter fun y => bound ≤ rank y) = succ x ∧
      Levels S rank bound (queue ++ succ x) [] := by
  have hSx := (h.queue_mem x List.mem_cons_self).1
  have hhead := (List.pairwise_cons.mp h.pairwise).1
  have hnil : rest = [] := by
    by_contra hne
    have := h.rest_last hne x List.mem_cons_self
    omega
  refine ⟨hnil, List.filter_eq_self.mpr fun y hy => ?_, ⟨List.forall_mem_append.mpr
    ⟨h.tail.queue_mem, fun y hy => ?_⟩, List.forall_mem_nil _, ?_, fun hne => absurd rfl hne⟩⟩
  · have := (hS x hSx y hy).2
    exact decide_eq_true (by omega)
  · obtain ⟨hSy, hrank⟩ := hS x hSx y hy
    exact ⟨hSy, by omega⟩
  · refine List.pairwise_append.mpr ⟨h.tail.pairwise, List.pairwise_of_forall_mem_list
      fun y hy z hz => ?_, fun y hy z hz => ?_⟩
    · have := (hS x hSx y hy).2
      have := (hS x hSx z hz).2
      omega
    · have := (hS x hSx z hz).2
      have := hhead y hy
      omega

theorem Levels.below (hS : ∀ x, S x → ∀ y ∈ succ x, S y ∧ rank y + 1 = rank x)
    (h : Levels S rank bound (x :: queue) rest) (hle : rank x ≤ bound) :
    ((succ x).filter fun y => bound ≤ rank y) = [] ∧
      Levels S rank bound queue (rest ++ succ x) := by
  have hSx := (h.queue_mem x List.mem_cons_self).1
  have hhead := (List.pairwise_cons.mp h.pairwise).1
  refine ⟨List.filter_eq_nil_iff.mpr fun y hy => ?_, ⟨h.tail.queue_mem,
    List.forall_mem_append.mpr ⟨h.rest_mem, fun y hy => ?_⟩, h.tail.pairwise, fun _ y hy => ?_⟩⟩
  · have := (hS x hSx y hy).2
    rw [decide_eq_true_eq]
    omega
  · obtain ⟨hSy, hrank⟩ := hS x hSx y hy
    exact ⟨hSy, by omega⟩
  · exact (hhead y hy).1.trans hle

/-- **A traversal goes down level by level.** One that leaves out what lies below a level
ends where the other comes to it. -/
theorem Traverse.shallow {out' : List α}
    (hS : ∀ x, S x → ∀ y ∈ succ x, S y ∧ rank y + 1 = rank x)
    (h' : Traverse key (fun x => (succ x).filter fun y => bound ≤ rank y) marked' queue out')
    (h : Traverse key succ marked (queue ++ rest) out)
    (hmarked : ∀ x, S x → bound ≤ rank x → (marked' (key x) ↔ marked (key x)))
    (hL : Levels S rank bound queue rest) :
    ∃ deep, out = out' ++ deep ∧ ∀ x ∈ deep, rank x < bound := by
  induction h' generalizing marked rest out with
  | nil =>
    refine ⟨out, rfl, fun x hx => (h.subset (S := fun x => S x ∧ rank x < bound)
      (fun x hx y hy => ?_) hL.rest_mem x hx).2⟩
    obtain ⟨hSy, hrank⟩ := hS x hx.1 y hy
    have := hx.2
    exact ⟨hSy, by omega⟩
  | @skip marked' x queue out' hx _ ih =>
    obtain ⟨hSx, hle⟩ := hL.queue_mem x List.mem_cons_self
    cases h with
    | skip _ h => exact ih h hmarked hL.tail
    | mark hno => exact absurd ((hmarked x hSx hle).mp hx) hno
  | @mark marked' x queue out' hx _ ih =>
    obtain ⟨hSx, hle⟩ := hL.queue_mem x List.mem_cons_self
    cases h with
    | skip hm => exact absurd ((hmarked x hSx hle).mpr hm) hx
    | @mark _ _ _ out _ h =>
      have hmarked' := fun y hSy hle => or_congr_right (a := key y = key x) (hmarked y hSy hle)
      have h : Traverse key succ _ (queue ++ rest ++ succ x) out := h
      obtain ⟨deep, hout, hdeep⟩ : ∃ deep, out = out' ++ deep ∧ ∀ y ∈ deep, rank y < bound := by
        rcases Nat.lt_or_ge bound (rank x) with hlt | hge
        · obtain ⟨rfl, hfilter, hL'⟩ := hL.above hS hlt
          rw [List.append_nil, ← List.append_nil (queue ++ succ x)] at h
          rw [hfilter] at ih
          exact ih h hmarked' hL'
        · obtain ⟨hfilter, hL'⟩ := hL.below hS hge
          rw [List.append_assoc] at h
          rw [hfilter, List.append_nil] at ih
          exact ih h hmarked' hL'
      exact ⟨deep, by rw [hout, List.cons_append], hdeep⟩

end

end Traverse

end Blsmr.Bfs
