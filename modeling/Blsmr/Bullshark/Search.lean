import Blsmr.Bullshark.Table
import Blsmr.Bullshark.Vertices
import Blsmr.Lib.Bfs

/-!
# Searching the DAG

The DAG of a replica holds, above the garbage collection bound, everything that its
vertices refer to (`Linked`). So `path_exists` finds a vertex exactly when it can be
reached (`Linked.pathExists`), and `order_from` marks in the order of a breadth-first
traversal (`Linked.orderLoop`). When the marks are closed, too, it marks what it should
(`Searchable.searches_exact`). In the system this holds for the created vertices (`Causal`).
-/

namespace Blsmr.Bullshark

open Blsmr.Graph Bfs

theorem Vertices.key_eq {n : ℕ} {created : List Vertex} {u v : Vertex} (hV : Vertices n created)
    (hu : u ∈ created) (hv : v ∈ created) (h : u.key = v.key) : u = v := by
  obtain ⟨hr, hs⟩ := Vertex.key_eq_iff.mp h
  exact hV.key_inj v hv u hu hr hs

theorem Vertices.falls {n : ℕ} {created : List Vertex} {v : Vertex} (hV : Vertices n created)
    (hv : v ∈ created) (x u : Vertex) (hx : v.Reaches x) (hu : u ∈ x.strongEdges) :
    u.round < x.round := by
  have := (hV.edge x (hV.reaches_mem hv hx).1 u hu).2
  omega

namespace RoundBasedDAG

variable {n : ℕ} {created : List Vertex} {d d' : RoundBasedDAG} {u v x : Vertex}
  {alive : Vertex → Bool}

/-- The DAG holds the vertex. -/
def Has (d : RoundBasedDAG) (v : Vertex) : Prop := d.vertexAt v.round v.source = some v

/-- What the searches rely on: all that is held lies at its place, an address belongs to
one vertex, edges lead down, and those of a vertex above the bound to the row below. -/
structure Linked (n : ℕ) (d : RoundBasedDAG) : Prop where
  shaped : Shaped n d
  stored : ∀ r s v, d.vertexAt r s = some v → v.round = r ∧ v.source = s
  address : ∀ u v, d.Has u → d.Has v → u.ptr = v.ptr → u = v
  falls : ∀ v x u, d.Has v → v.Reaches x → u ∈ x.strongEdges → u.round < x.round
  closed : ∀ v, d.Has v → d.gcOffset < v.round →
    ∀ u ∈ v.strongEdges, u.round + 1 = v.round ∧ d.Has u

theorem Silent.has (h : Silent n d d') : d'.Has v ↔ d.Has v := by
  unfold Has
  rw [h.vertexAt]

theorem has_unique (hu : d.Has u) (hv : d.Has v) (h : u.key = v.key) : u = v := by
  obtain ⟨hr, hs⟩ := Vertex.key_eq_iff.mp h
  unfold Has at *
  rw [hr, hs, hv] at hu
  exact (Option.some.inj hu).symm

/-- The edges that `order_from` follows. -/
def keptEdges (offset : ℕ) (v : Vertex) : List Vertex :=
  v.strongEdges.filter fun u => offset ≤ u.round

theorem mem_keptEdges : u ∈ keptEdges o v ↔ u ∈ v.strongEdges ∧ o ≤ u.round := by
  unfold keptEdges
  rw [List.mem_filter, decide_eq_true_iff]

theorem reach_keptEdges
    (hfalls : ∀ x w, v.Reaches x → w ∈ x.strongEdges → w.round < x.round) {o : ℕ}
    (hle : o ≤ u.round) : Reach (keptEdges o) v u ↔ v.Reaches u := by
  have hround : ∀ x, v.Reaches x → ∀ w, x.Reaches w → w.round ≤ x.round := fun x hx w h => by
    induction h with
    | refl => exact Nat.le_refl _
    | tail hr hstep ih => exact (hfalls _ _ (hx.trans hr) hstep).le.trans ih
  refine ⟨fun h => h.mono fun x => List.filter_subset_self _, fun h => ?_⟩
  refine Graph.Reach.transfer (S := fun x => u.round ≤ x.round) h (fun x hx => hround x hx u)
    fun x y _ hy hxy => ?_
  exact mem_keptEdges.mpr ⟨hxy, hle.trans hy⟩

namespace Linked

theorem within (hd : Linked n d) (h : d.Has v) : Within n d v.round v.source :=
  hd.shaped.within_of_vertexAt h

theorem eq_of_same (hd : Linked n d) (hu : d.Has u) (hv : d.Has v)
    (h : sameVertex u v = true) : u = v :=
  hd.address u v hu hv (sameVertex_iff.mp h)

theorem has_edge (hd : Linked n d) (hx : d.Has x) (hu : u ∈ x.strongEdges)
    (hle : d.gcOffset ≤ u.round) : d.Has u :=
  (hd.closed x hx (hle.trans_lt (hd.falls x x u hx (.refl _ x) hu)) u hu).2

theorem has_of_reaches (hd : Linked n d) (hx : d.Has x) (h : x.Reaches u)
    (hle : d.gcOffset ≤ u.round) : d.Has u := by
  induction h with
  | refl => exact hx
  | tail hr hstep ih =>
    exact hd.has_edge (ih (hle.trans (hd.falls x _ _ hx hr hstep).le)) hstep hle

theorem has_keptEdges (hd : Linked n d) (hx : d.Has x) (hu : u ∈ keptEdges d.gcOffset x) :
    d.Has u := by
  obtain ⟨hmem, hle⟩ := mem_keptEdges.mp hu
  exact hd.has_edge hx hmem hle

theorem liveEdges (hd : Linked n d) (halive : ∀ v, d.Has v → alive v = true) (hx : d.Has x)
    (hoffset : d'.gcOffset = d.gcOffset) :
    d'.liveEdges alive x = keptEdges d.gcOffset x := by
  unfold RoundBasedDAG.liveEdges keptEdges
  rw [hoffset, List.filter_filter]
  refine List.filter_congr fun u hu => ?_
  by_cases hle : d.gcOffset ≤ u.round
  · simp [hle, halive u (hd.has_edge hx hu hle)]
  · simp [hle]

end Linked

structure Causal (n : ℕ) (created : List Vertex) (d : RoundBasedDAG) : Prop where
  shaped : Shaped n d
  stored : ∀ r s v, d.vertexAt r s = some v → v ∈ created ∧ v.round = r ∧ v.source = s
  closed : ∀ v, d.Has v → d.gcOffset < v.round → ∀ u ∈ v.strongEdges, d.Has u

namespace Causal

theorem has (hd : Causal n created d) {r : ℕ} {s : Pid} (h : d.vertexAt r s = some v) :
    d.Has v := by
  obtain ⟨-, rfl, rfl⟩ := hd.stored r s v h
  exact h

theorem mem (hd : Causal n created d) (h : d.Has v) : v ∈ created := (hd.stored _ _ v h).1

theorem within (hd : Causal n created d) (h : d.Has v) : Within n d v.round v.source :=
  hd.shaped.within_of_vertexAt h

theorem linked (hd : Causal n created d) (hV : Vertices n created) : Linked n d where
  shaped := hd.shaped
  stored r s v h := (hd.stored r s v h).2
  address u v hu hv h := hV.ptr_inj v (hd.mem hv) u (hd.mem hu) h
  falls _ x u hv := hV.falls (hd.mem hv) x u
  closed v hv hlt u hu := ⟨(hV.edge v (hd.mem hv) u hu).2, hd.closed v hv hlt u hu⟩

theorem silent (hd : Causal n created d) (hs : Silent n d d') : Causal n created d' := by
  refine ⟨hs.shaped, fun r s v h => hd.stored r s v (hs.vertexAt r s ▸ h), fun v hv hlt u hu => ?_⟩
  exact hs.has.mpr (hd.closed v (hs.has.mp hv) (hs.gcOffset ▸ hlt) u hu)

theorem collected (hd : Causal n created d) (hV : Vertices n created)
    (hc : Collected n d d') : Causal n created d' := by
  have hat : ∀ r s v, d'.vertexAt r s = some v → d.vertexAt r s = some v := fun r s v h => by
    rw [hc.vertexAt] at h
    split at h
    · exact h
    · cases h
  refine ⟨hc.shaped, fun r s v h => hd.stored r s v (hat r s v h), fun v hv hlt u hu => ?_⟩
  have hvd : d.Has v := hat _ _ _ hv
  have hround := (hV.edge v (hd.stored _ _ v hvd).1 u hu).2
  unfold Has
  rw [hc.vertexAt, if_pos (by omega)]
  exact hd.closed v hvd (hc.gcOffset.trans_lt hlt) u hu

end Causal

/-! ## `path_exists` -/

/-- What the inner loop of `path_exists` does with the edges of a vertex. -/
structure Expanded (n : ℕ) (target : Vertex) (edges : List Vertex) (d : RoundBasedDAG)
    (found : Bool) (d' : RoundBasedDAG) (new : List Vertex) : Prop where
  silent : Silent n d d'
  fuel : unmarked n d' d'.seen + new.length = unmarked n d d.seen
  new_mem : ∀ u ∈ new, u ∈ edges ∧ target.round ≤ u.round
  mono : ∀ k, d.seen k = true → d'.seen k = true
  seen : ∀ k, d'.seen k = true → d.seen k = true ∨ ∃ u ∈ new, u.key = k
  sound : found = true → ∃ u ∈ edges, target.round ≤ u.round ∧ sameVertex u target = true
  complete : found = false → ∀ u ∈ edges, target.round ≤ u.round →
    sameVertex u target = false ∧ d'.seen u.key = true

theorem Expanded.skip {target : Vertex} {edges new : List Vertex} {found : Bool}
    (h : Expanded n target edges d found d' new)
    (hu : target.round ≤ u.round → sameVertex u target = false ∧ d.seen u.key = true) :
    Expanded n target (u :: edges) d found d' new where
  silent := h.silent
  fuel := h.fuel
  new_mem w hw := ⟨List.mem_cons_of_mem _ (h.new_mem w hw).1, (h.new_mem w hw).2⟩
  mono := h.mono
  seen := h.seen
  sound hf :=
    have ⟨w, hw, hs⟩ := h.sound hf
    ⟨w, List.mem_cons_of_mem _ hw, hs⟩
  complete hf w hw hle := by
    rcases List.mem_cons.mp hw with rfl | hw
    · exact ⟨(hu hle).1, h.mono _ (hu hle).2⟩
    · exact h.complete hf w hw hle

theorem Expanded.push {target : Vertex} {edges new : List Vertex} {found : Bool}
    {d₁ : RoundBasedDAG} (hu : Within n d u.round u.source) (hle : target.round ≤ u.round)
    (hsame : sameVertex u target = false) (hseen : d.seen u.key = false) (hsil : Silent n d d₁)
    (hmark : ∀ k, d₁.seen k = (decide (k = u.key) || d.seen k))
    (h : Expanded n target edges d₁ found d' new) :
    Expanded n target (u :: edges) d found d' (u :: new) where
  silent := hsil.trans h.silent
  fuel := by
    have hpos := unmarked_mark (mem_positions.mpr hu) hseen hmark
    have hpositions : unmarked n d₁ d₁.seen = unmarked n d d₁.seen := by
      unfold unmarked
      rw [hsil.positions]
    have := h.fuel
    rw [List.length_cons]
    omega
  new_mem w hw := by
    rcases List.mem_cons.mp hw with rfl | hw
    · exact ⟨List.mem_cons_self, hle⟩
    · exact ⟨List.mem_cons_of_mem _ (h.new_mem w hw).1, (h.new_mem w hw).2⟩
  mono k hk := h.mono k (by rw [hmark, hk, Bool.or_true])
  seen k hk := by
    rcases h.seen k hk with hk | ⟨w, hw, rfl⟩
    · rw [hmark, Bool.or_eq_true, decide_eq_true_eq] at hk
      rcases hk with rfl | hk
      · exact .inr ⟨u, List.mem_cons_self, rfl⟩
      · exact .inl hk
    · exact .inr ⟨w, List.mem_cons_of_mem _ hw, rfl⟩
  sound hf :=
    have ⟨w, hw, hs⟩ := h.sound hf
    ⟨w, List.mem_cons_of_mem _ hw, hs⟩
  complete hf w hw hle := by
    rcases List.mem_cons.mp hw with rfl | hw
    · exact ⟨hsame, h.mono _ (by rw [hmark, decide_eq_true rfl, Bool.true_or])⟩
    · exact h.complete hf w hw hle

theorem visitEdges_spec (target : Vertex) (edges : List Vertex) (hd : Shaped n d)
    (hin : ∀ u ∈ edges, Within n d u.round u.source) (queue : List Vertex) :
    ∃ found d' new, visitEdges target edges d queue = some (found, d', queue ++ new) ∧
      Expanded n target edges d found d' new := by
  induction edges generalizing d queue with
  | nil =>
    exact ⟨false, d, [], by rw [List.append_nil]; rfl, .refl hd, rfl,
      List.forall_mem_nil _, fun _ h => h, fun _ h => .inl h,
      fun h => absurd h Bool.false_ne_true, fun _ u hu => absurd hu List.not_mem_nil⟩
  | cons u edges ih =>
    have hu := hin u List.mem_cons_self
    have hrest := fun w hw => hin w (List.mem_cons_of_mem u hw)
    unfold visitEdges
    by_cases hlt : u.round < target.round
    · obtain ⟨found, d', new, he, hE⟩ := ih hd hrest queue
      exact ⟨found, d', new, by rw [if_pos hlt]; exact he, hE.skip fun hle => by omega⟩
    rw [if_neg hlt]
    by_cases hsame : sameVertex u target = true
    · refine ⟨true, d, [], by rw [if_pos hsame, List.append_nil], .refl hd, rfl,
        List.forall_mem_nil _, fun _ h => h, fun _ h => .inl h,
        fun _ => ⟨u, List.mem_cons_self, by omega, hsame⟩, fun h => by cases h⟩
    rw [if_neg hsame, hd.isVisited_of_within hu, Option.bind_eq_bind, Option.bind_some]
    rw [Bool.not_eq_true] at hsame
    cases hseen : d.seen u.key with
    | true =>
      obtain ⟨found, d', new, he, hE⟩ := ih hd hrest queue
      exact ⟨found, d', new, by rw [if_pos rfl]; exact he, hE.skip fun _ => ⟨hsame, hseen⟩⟩
    | false =>
      obtain ⟨d₁, hd₁⟩ := Option.isSome_iff_exists.mp (hd.visit_isSome.mpr hu)
      obtain ⟨hsil, hmark⟩ := hd.visit hd₁
      obtain ⟨found, d', new, he, hE⟩ :=
        ih hsil.shaped (fun w hw => hsil.within.mpr (hrest w hw)) (queue ++ [u])
      refine ⟨found, d', u :: new, ?_,
        hE.push hu (Nat.le_of_not_lt hlt) hsame hseen hsil hmark⟩
      rw [if_neg Bool.false_ne_true, Option.bind_eq_bind, hd₁, Option.bind_some, he,
        List.append_assoc, List.singleton_append]

/-- The edges that `path_exists` follows on its way to the target. -/
def toward (target v : Vertex) : List Vertex :=
  v.strongEdges.filter fun u => target.round ≤ u.round

theorem mem_toward_iff {target : Vertex} {offset : ℕ} (hle : offset ≤ target.round) :
    u ∈ toward target v ↔ u ∈ keptEdges offset v ∧ target.round ≤ u.round := by
  unfold toward
  rw [List.mem_filter, decide_eq_true_iff, mem_keptEdges]
  exact ⟨fun h => ⟨⟨h.1, hle.trans h.2⟩, h.2⟩, fun h => ⟨h.1.1, h.2⟩⟩

section

variable (hd : Linked n d) (halive : ∀ v, d.Has v → alive v = true) {a t : Vertex}

include hd

theorem Linked.has_toward (ha : d.Has a) (ht : d.Has t) (h : Reach (toward t) a v) :
    d.Has v := by
  induction h with
  | refl => exact ha
  | tail _ hstep ih =>
    exact hd.has_keptEdges ih ((mem_toward_iff (hd.within ht).1).mp hstep).1

theorem Linked.searching {queue new : List Vertex} {d₁ d₂ : RoundBasedDAG} (ha : d.Has a)
    (ht : d.Has t) (hx : d.Has x)
    (hS : Searching (toward t) a t (fun v => d₁.seen v.key = true) (x :: queue))
    (hE : Expanded n t (keptEdges d.gcOffset x) d₁ false d₂ new) :
    Searching (toward t) a t (fun v => d₂.seen v.key = true) (queue ++ new) := by
  have hle := (hd.within ht).1
  refine hS.expand (fun u hu => (mem_toward_iff hle).mpr (hE.new_mem u hu))
    (fun u hu => hE.mono _ hu) (fun u hau hu => ?_) fun u hu => ?_
  · rcases hE.seen _ hu with hu | ⟨w, hw, hk⟩
    · exact .inl hu
    · have hwu : w = u :=
        has_unique (hd.has_keptEdges hx (hE.new_mem w hw).1) (hd.has_toward ha ht hau) hk
      exact .inr (hwu ▸ hw)
  · obtain ⟨hmem, hur⟩ := (mem_toward_iff hle).mp hu
    obtain ⟨hns, hseen⟩ := hE.complete rfl u hmem hur
    refine ⟨fun heq => ?_, hseen⟩
    rw [heq, sameVertex_self] at hns
    cases hns

include halive

theorem Linked.pathLoop (ha : d.Has a) (ht : d.Has t) (hne : a ≠ t) {fuel : ℕ}
    {queue : List Vertex} {d₁ : RoundBasedDAG} (hsil : Silent n d d₁)
    (hS : Searching (toward t) a t (fun v => d₁.seen v.key = true) queue)
    (hfuel : queue.length + unmarked n d₁ d₁.seen < fuel) :
    ∃ found d', pathLoop alive t fuel queue d₁ = some (found, d') ∧ Silent n d d' ∧
      (found = true ↔ Reach (toward t) a t) := by
  induction fuel generalizing queue d₁ with
  | zero => omega
  | succ fuel ih =>
    cases queue with
    | nil =>
      refine ⟨false, d₁, rfl, hsil, fun h => absurd h Bool.false_ne_true, fun h => ?_⟩
      exact absurd h (hS.not_reach hne)
    | cons x queue =>
      have hax := hS.reached x List.mem_cons_self
      have hx := hd.has_toward ha ht hax
      have hedge : ∀ u ∈ keptEdges d.gcOffset x, d.Has u := fun u hu => hd.has_keptEdges hx hu
      obtain ⟨found, d₂, new, he, hE⟩ := visitEdges_spec t (keptEdges d.gcOffset x) hsil.shaped
        (fun u hu => hsil.within.mpr (hd.within (hedge u hu))) queue
      unfold RoundBasedDAG.pathLoop
      rw [hd.liveEdges halive hx hsil.gcOffset, he, Option.bind_eq_bind, Option.bind_some]
      cases found with
      | true =>
        obtain ⟨u, hu, hur, hsame⟩ := hE.sound rfl
        have heq : u = t := hd.eq_of_same (hedge u hu) ht hsame
        have hstep : u ∈ toward t x := (mem_toward_iff (hd.within ht).1).mpr ⟨hu, hur⟩
        exact ⟨true, d₂, rfl, hsil.trans hE.silent, fun _ => hax.tail (heq ▸ hstep), fun _ => rfl⟩
      | false =>
        refine ih (hsil.trans hE.silent) (hd.searching ha ht hx hS hE) ?_
        have := hE.fuel
        rw [List.length_cons] at hfuel
        rw [List.length_append]
        omega

/-- **`path_exists` finds what can be reached.** -/
theorem Linked.pathExists (ha : d.Has a) (ht : d.Has t) :
    ∃ found d', RoundBasedDAG.pathExists alive a t d = some (found, d') ∧ Silent n d d' ∧
      (found = true ↔ a.Reaches t) := by
  unfold RoundBasedDAG.pathExists
  by_cases hsame : sameVertex a t = true
  · have heq : a = t := hd.eq_of_same ha ht hsame
    exact ⟨true, d, by rw [if_pos hsame], .refl hd.shaped, fun _ => heq ▸ .refl _ a, fun _ => rfl⟩
  have hne : a ≠ t := fun heq => hsame (heq ▸ sameVertex_self a)
  obtain ⟨hsil, hnone⟩ := hd.shaped.resetVisited
  obtain ⟨d₁, hd₁⟩ := Option.isSome_iff_exists.mp
    (hsil.shaped.visit_isSome.mpr (hsil.within.mpr (hd.within ha)))
  obtain ⟨hsil₁, hmark⟩ := hsil.shaped.visit hd₁
  have hsil' := hsil.trans hsil₁
  have hseen : ∀ k, d₁.seen k = true ↔ k = a.key := fun k => by
    rw [hmark, hnone, Bool.or_false, decide_eq_true_iff]
  have hsize : d₁.size = d.size := by
    rw [← hsil'.shaped.card_positions, ← hd.shaped.card_positions, hsil'.positions]
  have hfuel : [a].length + unmarked n d₁ d₁.seen < d₁.size + 2 := by
    have := hsil'.shaped.unmarked_le d₁.seen
    rw [List.length_singleton]
    omega
  obtain ⟨found, d', he, hs, hiff⟩ := hd.pathLoop halive ha ht hne hsil'
    (.begin ((hseen _).mpr rfl) fun y hy hk =>
      has_unique (hd.has_toward ha ht hy) ha ((hseen _).mp hk)) hfuel
  refine ⟨found, d', ?_, hs, hiff.trans (reach_keptEdges (hd.falls a · · ha) (Nat.le_refl _))⟩
  rw [if_neg hsame, hd₁, Option.bind_eq_bind, Option.bind_some]
  exact he

end

/-! ## `order_from` -/

/-- The vertices of `out` have been marked, and nothing else has changed. -/
structure Settled (n : ℕ) (out : List Vertex) (d d' : RoundBasedDAG) : Prop where
  shaped : Shaped n d'
  gcOffset : d'.gcOffset = d.gcOffset
  allocated : d'.currentAllocatedRounds = d.currentAllocatedRounds
  vertexAt : ∀ r s, d'.vertexAt r s = d.vertexAt r s
  done : ∀ k, d'.done k = true ↔ (∃ v ∈ out, v.key = k) ∨ d.done k = true

theorem Settled.refl (hd : Shaped n d) : Settled n [] d d :=
  ⟨hd, rfl, rfl, fun _ _ => rfl, fun k => by simp⟩

theorem Settled.trans {d'' : RoundBasedDAG} {out out' : List Vertex} (h : Settled n out d d')
    (h' : Settled n out' d' d'') : Settled n (out ++ out') d d'' := by
  refine ⟨h'.shaped, h'.gcOffset.trans h.gcOffset, h'.allocated.trans h.allocated,
    fun r s => (h'.vertexAt r s).trans (h.vertexAt r s), fun k => ?_⟩
  rw [h'.done, h.done]
  simp only [List.mem_append, or_and_right, exists_or]
  exact or_left_comm.trans or_assoc.symm

theorem Settled.of_marked (h : Marked n v d d') : Settled n [v] d d' := by
  refine ⟨h.shaped, h.gcOffset, h.allocated, h.vertexAt, fun k => ?_⟩
  rw [h.done, Bool.or_eq_true, decide_eq_true_iff]
  simp only [List.mem_singleton, exists_eq_left]
  rw [eq_comm]

theorem Settled.of_silent (h : Silent n d d') : Settled n [] d d' :=
  ⟨h.shaped, h.gcOffset, h.allocated, h.vertexAt, fun k => by simp [h.done]⟩

theorem Settled.marks {out output : List Vertex} (h : Settled n out d d')
    (hmarks : ∀ k, d.gcOffset ≤ k.1 → (d.done k = true ↔ ∃ v ∈ output, v.key = k)) :
    ∀ k, d'.gcOffset ≤ k.1 → (d'.done k = true ↔ ∃ v ∈ output ++ out, v.key = k) := by
  intro k hk
  rw [h.done, hmarks k (h.gcOffset ▸ hk)]
  simp only [List.mem_append, or_and_right, exists_or]
  exact or_comm

theorem Settled.has {out : List Vertex} (h : Settled n out d d') : d'.Has v ↔ d.Has v := by
  unfold Has
  rw [h.vertexAt]

theorem Causal.settled {out : List Vertex} (hd : Causal n created d) (h : Settled n out d d') :
    Causal n created d' := by
  refine ⟨h.shaped, fun r s v hv => hd.stored r s v (h.vertexAt r s ▸ hv),
    fun v hv hlt u hu => h.has.mpr ?_⟩
  exact hd.closed v (h.has.mp hv) (h.gcOffset ▸ hlt) u hu

theorem Linked.settled {out : List Vertex} (hd : Linked n d) (h : Settled n out d d') :
    Linked n d' where
  shaped := h.shaped
  stored r s v hv := hd.stored r s v (h.vertexAt r s ▸ hv)
  address u v hu hv := hd.address u v (h.has.mp hu) (h.has.mp hv)
  falls v x u hv := hd.falls v x u (h.has.mp hv)
  closed v hv hlt u hu := by
    obtain ⟨hround, hhas⟩ := hd.closed v (h.has.mp hv) (h.gcOffset ▸ hlt) u hu
    exact ⟨hround, h.has.mpr hhas⟩

section

variable {commits : Commits} {output : List Vertex}

theorem Linked.orderLoop (hd : Linked n d) (halive : ∀ v, d.Has v → alive v = true) {m : ℕ}
    (hm : ∀ v, d.Has v → (keptEdges d.gcOffset v).length ≤ m) (commits : Commits)
    (output : List Vertex) {fuel : ℕ} {queue : List Vertex} (hq : ∀ v ∈ queue, d.Has v)
    (hfuel : queue.length + unmarked n d d.done * m < fuel) :
    ∃ out d', orderLoop alive fuel queue ⟨d, commits, output⟩ =
        some ⟨d', out.foldl (fun c v => c.count v) commits, output ++ out⟩ ∧
      Settled n out d d' ∧
      Traverse Vertex.key (keptEdges d.gcOffset) (fun k => d.done k = true) queue out := by
  induction fuel generalizing d queue commits output with
  | zero => omega
  | succ fuel ih =>
    cases queue with
    | nil => exact ⟨[], d, by rw [List.append_nil]; rfl, .refl hd.shaped, .nil⟩
    | cons x queue =>
      have hx := hq x List.mem_cons_self
      have hrest := fun v hv => hq v (List.mem_cons_of_mem x hv)
      rw [List.length_cons] at hfuel
      unfold RoundBasedDAG.orderLoop
      rw [hd.shaped.isOrdered_of_within (hd.within hx), Option.bind_eq_bind, Option.bind_some]
      cases hdone : d.done x.key with
      | true =>
        obtain ⟨out, d', he, hS, hT⟩ := ih hd halive hm commits output hrest (by omega)
        exact ⟨out, d', by rw [if_pos rfl]; exact he, hS, .skip hdone hT⟩
      | false =>
        obtain ⟨d₁, hd₁⟩ := Option.isSome_iff_exists.mp
          (hd.shaped.markOrdered_isSome.mpr (hd.within hx))
        have hM := hd.shaped.markOrdered hd₁
        have hS₁ := Settled.of_marked hM
        have hlive := hd.liveEdges halive hx hM.gcOffset
        have hlen := hm x hx
        have hfree : unmarked n d d.done = unmarked n d₁ d₁.done + 1 := by
          rw [unmarked_mark (mem_positions.mpr (hd.within hx)) hdone hM.done]
          unfold unmarked positions
          rw [hM.gcOffset, hM.allocated]
        obtain ⟨out, d', he, hS, hT⟩ := ih (hd.settled hS₁)
          (fun v hv => halive v (hS₁.has.mp hv)) (fun v hv => hM.gcOffset ▸ hm v (hS₁.has.mp hv))
          (commits.count x) (output ++ [x])
          (fun v (hv : v ∈ queue ++ keptEdges d.gcOffset x) => hS₁.has.mpr <| by
            rcases List.mem_append.mp hv with hv | hv
            · exact hrest v hv
            · exact hd.has_keptEdges hx hv)
          (by
            rw [hfree, Nat.add_mul, Nat.one_mul] at hfuel
            rw [List.length_append]
            omega)
        refine ⟨x :: out, d', ?_, hS₁.trans hS, .mark (by rw [hdone]; exact Bool.false_ne_true) ?_⟩
        · rw [if_neg Bool.false_ne_true, Option.bind_eq_bind, hd₁, Option.bind_some, hlive, he,
            List.foldl_cons, List.append_assoc, List.singleton_append]
        · rw [hM.gcOffset] at hT
          refine hT.congr (S := fun _ => True) (fun _ _ _ _ => trivial) (fun _ _ => rfl)
            (fun v _ => ?_) fun _ _ => trivial
          rw [hM.done, Bool.or_eq_true, decide_eq_true_iff]

theorem Linked.orderFrom (hd : Linked n d) (halive : ∀ v, d.Has v → alive v = true)
    (hm : ∀ v, d.Has v → (keptEdges d.gcOffset v).length ≤ n + 1) (commits : Commits)
    (output : List Vertex) (hv : d.Has v) :
    ∃ out d', RoundBasedDAG.orderFrom alive v ⟨d, commits, output⟩ =
        some ⟨d', out.foldl (fun c v => c.count v) commits, output ++ out⟩ ∧
      Settled n out d d' ∧
      Traverse Vertex.key (keptEdges d.gcOffset) (fun k => d.done k = true) [v] out := by
  refine hd.orderLoop halive hm commits output (fun u hu => List.mem_singleton.mp hu ▸ hv) ?_
  have := Nat.mul_le_mul_right (n + 1) (hd.shaped.unmarked_le d.done)
  simp only
  rw [List.length_singleton, hd.shaped.procNum]
  omega

theorem edges_length_le (hV : Vertices n created) (hv : v ∈ created) :
    v.strongEdges.length ≤ n := by
  have hsub : (v.strongEdges.map Vertex.source).toFinset ⊆ Finset.range n := fun s hs => by
    obtain ⟨u, hu, rfl⟩ := List.mem_map.mp (List.mem_toFinset.mp hs)
    exact Finset.mem_range.mpr (hV.source_lt u (hV.edge v hv u hu).1)
  have := Finset.card_le_card hsub
  rwa [List.toFinset_card_of_nodup (hV.distinct v hv), List.length_map, Finset.card_range] at this

/-- **`order_from` is a traversal.** -/
theorem Causal.orderFrom (hV : Vertices n created) (hd : Causal n created d)
    (halive : ∀ v, d.Has v → alive v = true) (hv : d.Has v) :
    ∃ out d', RoundBasedDAG.orderFrom alive v ⟨d, commits, output⟩ =
        some ⟨d', out.foldl (fun c v => c.count v) commits, output ++ out⟩ ∧
      Settled n out d d' ∧
      Traverse Vertex.key (keptEdges d.gcOffset) (fun k => d.done k = true) [v] out := by
  refine (hd.linked hV).orderFrom halive (fun u hu => ?_) commits output hv
  have := edges_length_le hV (hd.mem hu)
  exact (List.length_filter_le _ _).trans (by omega)

end

/-! ## Both searches are exact -/

/-- What the DAG of a replica keeps up: the marks are closed under the ancestors that are
kept, too. -/
structure Searchable (n : ℕ) (d : RoundBasedDAG) : Prop extends Linked n d where
  marks : ∀ v u, d.Has v → d.done v.key = true → v.Reaches u → d.gcOffset ≤ u.round →
    d.done u.key = true

/-- `order_from` has marked `out`, each once: the ancestors that are kept and had no mark. -/
structure OrderedFrom (n : ℕ) (vertex : Vertex) (d : RoundBasedDAG) (commits : Commits)
    (d' : RoundBasedDAG) (commits' : Commits) (out : List Vertex) : Prop where
  settled : Settled n out d d'
  mem_iff : ∀ u, u ∈ out ↔ vertex.Reaches u ∧ d.gcOffset ≤ u.round ∧ d.done u.key = false
  nodup : (out.map Vertex.key).Nodup
  blockCommits : commits'.blockCommits = commits.blockCommits + out.length

section

variable {commits commits' : Commits} {output out : List Vertex}

theorem Searchable.silent (hd : Searchable n d) (hs : Silent n d d') : Searchable n d' where
  toLinked := hd.toLinked.settled (.of_silent hs)
  marks v u hv hdone hr hle := by
    rw [hs.done] at *
    exact hd.marks v u (hs.has.mp hv) hdone hr (hs.gcOffset ▸ hle)

theorem Searchable.ordered (hd : Searchable n d) (hx : d.Has x)
    (h : OrderedFrom n x d commits d' commits' out) : Searchable n d' where
  toLinked := hd.toLinked.settled h.settled
  marks v u hv hdone hr hle := by
    have hv := h.settled.has.mp hv
    rw [h.settled.gcOffset] at hle
    rw [h.settled.done] at *
    cases hu : d.done u.key with
    | true => exact .inr rfl
    | false =>
      -- an ancestor without a mark is one of what has been marked now
      rcases hdone with ⟨w, hw, hk⟩ | hdone
      · obtain ⟨hxw, hw, -⟩ := (h.mem_iff w).mp hw
        have hwv : w = v := has_unique (hd.has_of_reaches hx hxw hw) hv hk
        exact .inl ⟨u, (h.mem_iff u).mpr ⟨hxw.trans (hwv ▸ hr), hle, hu⟩, rfl⟩
      · rw [hd.marks v u hv hdone hr hle] at hu
        cases hu

theorem blockCommits_foldl (out : List Vertex) (commits : Commits) :
    (out.foldl (fun c v => c.count v) commits).blockCommits =
      commits.blockCommits + out.length := by
  induction out generalizing commits with
  | nil => rfl
  | cons v out ih =>
    rw [List.foldl_cons, ih, List.length_cons]
    simp only [Commits.count]
    omega

theorem Searchable.orderedFrom (hd : Searchable n d) (hx : d.Has x) (hS : Settled n out d d')
    (hT : Traverse Vertex.key (keptEdges d.gcOffset) (fun k => d.done k = true) [x] out) :
    OrderedFrom n x d commits d' (out.foldl (fun c v => c.count v) commits) out := by
  refine ⟨hS, fun u => ?_, hT.nodup, blockCommits_foldl out commits⟩
  rw [hT.mem_iff (S := d.Has) (fun v hv u hu => hd.has_keptEdges hv hu)
    (fun v hv u hu hk => has_unique hv hu hk) hx fun v hv hdone u hu => hd.marks v u hv hdone
      (.single (mem_keptEdges.mp hu).1) (mem_keptEdges.mp hu).2, Bool.not_eq_true]
  refine ⟨fun ⟨hr, hno⟩ => ?_, fun ⟨hr, hle, hno⟩ => ?_⟩
  · have hle : d.gcOffset ≤ u.round := by
      cases hr with
      | refl => exact (hd.within hx).1
      | tail _ hstep => exact (mem_keptEdges.mp hstep).2
    exact ⟨(reach_keptEdges (hd.falls x · · hx) hle).mp hr, hle, hno⟩
  · exact ⟨(reach_keptEdges (hd.falls x · · hx) hle).mpr hr, hno⟩

theorem orderLoop_mono {fuel fuel' : ℕ} (hle : fuel ≤ fuel') {queue : List Vertex}
    {ledger ledger' : Ledger} (h : orderLoop alive fuel queue ledger = some ledger') :
    orderLoop alive fuel' queue ledger = some ledger' := by
  induction fuel generalizing fuel' queue ledger with
  | zero => cases h
  | succ fuel ih =>
    obtain ⟨k, rfl⟩ : ∃ k, fuel' = k + 1 := ⟨fuel' - 1, by omega⟩
    have hle := Nat.le_of_succ_le_succ hle
    cases queue with
    | nil => exact h
    | cons x queue =>
      unfold orderLoop at h ⊢
      obtain ⟨done, hdone, h⟩ := Option.bind_eq_some_iff.mp h
      rw [Option.bind_eq_bind, hdone, Option.bind_some]
      split at h
      · rw [if_pos ‹_›]
        exact ih hle h
      · obtain ⟨dag, hdag, h⟩ := Option.bind_eq_some_iff.mp h
        rw [if_neg ‹_›, Option.bind_eq_bind, hdag, Option.bind_some]
        exact ih hle h

theorem exists_keptEdges_le (n : ℕ) (d : RoundBasedDAG) (hd : Linked n d) :
    ∃ m, ∀ v, d.Has v → (keptEdges d.gcOffset v).length ≤ m := by
  let edges (k : ℕ × Pid) := ((d.vertexAt k.1 k.2).map fun v =>
    (keptEdges d.gcOffset v).length).getD 0
  refine ⟨(positions n d).sup edges, fun v hv => ?_⟩
  have hle : edges v.key ≤ (positions n d).sup edges :=
    Finset.le_sup (mem_positions.mpr (hd.within hv))
  have hedges : edges v.key = (keptEdges d.gcOffset v).length := by
    simp only [edges, Vertex.key]
    rw [show d.vertexAt v.round v.source = some v from hv, Option.map_some, Option.getD_some]
  exact hedges ▸ hle

end

/-- **The searches of the DAG are exact.** `path_exists` finds the target exactly when a chain
of edges leads to it. `order_from` ends, and marks the ancestors that are kept and have no mark,
each once. -/
theorem Searchable.searches_exact (hd : Searchable n d)
    (halive : ∀ v, d.Has v → alive v = true) :
    (∀ source target, d.Has source → d.Has target →
      ∃ found d', pathExists alive source target d = some (found, d') ∧ Silent n d d' ∧
        (found = true ↔ source.Reaches target)) ∧
    ∀ vertex, d.Has vertex → ∀ commits output, ∃ out d' commits',
      (∃ bound, ∀ fuel, bound ≤ fuel → orderLoop alive fuel [vertex] ⟨d, commits, output⟩ =
        some ⟨d', commits', output ++ out⟩) ∧
      ((∀ v, d.Has v → v.strongEdges.length ≤ n + 1) →
        orderFrom alive vertex ⟨d, commits, output⟩ = some ⟨d', commits', output ++ out⟩) ∧
      OrderedFrom n vertex d commits d' commits' out := by
  refine ⟨fun source target hs ht => hd.pathExists halive hs ht,
    fun vertex hv commits output => ?_⟩
  obtain ⟨m, hm⟩ := exists_keptEdges_le n d hd.toLinked
  obtain ⟨out, d', he, hS, hT⟩ := hd.orderLoop halive hm commits output
    (fun u (hu : u ∈ [vertex]) => List.mem_singleton.mp hu ▸ hv) (Nat.lt_succ_self _)
  refine ⟨out, d', _, ⟨_, fun fuel hle => orderLoop_mono hle he⟩, fun hedges => ?_,
    hd.orderedFrom hv hS hT⟩
  obtain ⟨out', d'', he', -, -⟩ := hd.orderFrom halive
    (fun v hv => (List.length_filter_le _ _).trans (hedges v hv)) commits output hv
  have hsame := (orderLoop_mono (Nat.le_max_left _ _) he).symm.trans
    (orderLoop_mono (Nat.le_max_right _ _) he')
  exact he'.trans hsame.symm

/-! A diamond whose bottom refers to a vertex that has been collected. -/

def diamondBottom : Vertex := ⟨1, 1, 0, [⟨0, 0, 0, [], []⟩], []⟩

def diamondLeft : Vertex := ⟨2, 2, 0, [diamondBottom], []⟩

def diamondRight : Vertex := ⟨3, 2, 1, [diamondBottom], []⟩

def diamondTop : Vertex := ⟨4, 3, 0, [diamondLeft, diamondRight], []⟩

def diamond : RoundBasedDAG where
  procNum := 1
  matrix := [[some diamondBottom, none], [some diamondLeft, some diamondRight],
    [some diamondTop, none]]
  visited := List.replicate 3 (List.replicate 2 false)
  ordered := List.replicate 3 (List.replicate 2 false)
  gcOffset := 1

theorem diamond_vertexAt {r : ℕ} {s : Pid} (h : diamond.vertexAt r s = some v) :
    (v = diamondBottom ∨ v = diamondLeft ∨ v = diamondRight ∨ v = diamondTop) ∧
      v.round = r ∧ v.source = s := by
  have hle : 1 ≤ r := le_of_vertexAt h
  obtain ⟨r, rfl⟩ := Nat.exists_eq_add_of_le' hle
  unfold vertexAt at h
  rw [slot_of_le (show diamond.gcOffset ≤ r + 1 from hle)] at h
  rcases r with _ | _ | _ | r <;> rcases s with _ | _ | s <;> simp [diamond, Rows.cell] at h <;>
    subst h <;> simp [diamondBottom, diamondLeft, diamondRight, diamondTop]

theorem diamond_done (k : ℕ × Pid) : diamond.done k = false := by
  by_cases hle : diamond.gcOffset ≤ k.1
  · rw [done_of_le hle]
    generalize k.1 - diamond.gcOffset = i
    unfold Rows.cell diamond
    rcases i with _ | _ | _ | i <;> rcases k.2 with _ | _ | s <;> simp
  · exact done_of_not_le hle

theorem diamond_searchable : Searchable 1 diamond := by
  have hmem := fun v (hv : diamond.Has v) => (diamond_vertexAt hv).1
  have hwide : Rows.Wide 2 (List.replicate 3 (List.replicate 2 false)) := fun row hrow => by
    rw [List.eq_of_mem_replicate hrow, List.length_replicate]
  refine ⟨⟨⟨rfl, ?_, hwide, hwide, rfl, rfl⟩, fun r s v h => (diamond_vertexAt h).2,
    fun u v hu hv => ?_, fun v x u hv hx => ?_, fun v hv hlt => ?_⟩, fun v u _ hdone => ?_⟩
  · simp [Rows.Wide, diamond]
  · rcases hmem u hu with rfl | rfl | rfl | rfl <;> rcases hmem v hv with rfl | rfl | rfl | rfl <;>
      simp [diamondBottom, diamondLeft, diamondRight, diamondTop]
  · have hx : (x = diamondBottom ∨ x = diamondLeft ∨ x = diamondRight ∨ x = diamondTop) ∨
        x = ⟨0, 0, 0, [], []⟩ := by
      induction hx with
      | refl => exact .inl (hmem v hv)
      | tail _ hstep ih =>
        rcases ih with (rfl | rfl | rfl | rfl) | rfl <;>
          simp [diamondBottom, diamondLeft, diamondRight, diamondTop] at hstep ⊢ <;> tauto
    revert u
    rcases hx with (rfl | rfl | rfl | rfl) | rfl <;>
      simp [diamondBottom, diamondLeft, diamondRight, diamondTop]
  · rcases hmem v hv with rfl | rfl | rfl | rfl <;>
      simp [diamond, diamondBottom, diamondLeft, diamondRight, diamondTop, Has, vertexAt, slot,
        rowOf, Rows.cell] at hlt ⊢
  · rw [diamond_done] at hdone
    cases hdone

theorem searches_exact_diamond :
    (∃ found d', pathExists (fun v => decide (1 ≤ v.round)) diamondTop diamondBottom diamond =
      some (found, d') ∧ Silent 1 diamond d' ∧
        (found = true ↔ diamondTop.Reaches diamondBottom)) ∧
    ∃ out d' commits',
      (∃ bound, ∀ fuel, bound ≤ fuel → orderLoop (fun v => decide (1 ≤ v.round)) fuel [diamondTop]
        ⟨diamond, ⟨0, []⟩, []⟩ = some ⟨d', commits', out⟩) ∧
      OrderedFrom 1 diamondTop diamond ⟨0, []⟩ d' commits' out := by
  have halive : ∀ v, diamond.Has v → decide (1 ≤ v.round) = true := fun v hv =>
    decide_eq_true (le_of_vertexAt hv)
  have htop : diamond.Has diamondTop := rfl
  obtain ⟨hpath, horder⟩ := diamond_searchable.searches_exact halive
  obtain ⟨out, d', commits', hloop, -, ho⟩ := horder diamondTop htop ⟨0, []⟩ []
  exact ⟨hpath diamondTop diamondBottom htop rfl, out, d', commits', hloop, ho⟩

end RoundBasedDAG

end Blsmr.Bullshark
