import Blsmr.Lib.Graph
import Mathlib.Data.List.Flatten
import Mathlib.Data.List.Nodup

/-!
# Tarjan's strongly connected components

`strongconnect` is the recursive depth-first search with `index`, `lowLink`,
the vertex stack and the on-stack set as explicit state; `components` runs it
from every node not yet indexed. A missing map key, an empty stack while a
component is popped and exhausted fuel are all `none`.

The invariant (`Inv`) follows the stack. `gs` are the vertices whose call is
still open. Every stack vertex reaches an open vertex at or below it (`down`)
and is reached from every open vertex at or below it (`up`); the successors of
a finished stack vertex are all indexed (`black`). `strongconnect_spec` is the
one fact about a call: it keeps the invariant, and the low link it leaves
behind bounds every edge from its new stack segment into the old stack.
-/

namespace Blsmr.Tarjan

open Blsmr.Graph

variable {α : Type*}

/-! ## The algorithm -/

/-- The mutable state of the search. The head of `stack` is its top. -/
structure State (α : Type*) where
  index : α → Option ℕ
  lowLink : α → Option ℕ
  onStack : Finset α
  stack : List α
  counter : ℕ
  sccs : List (List α)

def State.init : State α where
  index := fun _ => none
  lowLink := fun _ => none
  onStack := ∅
  stack := []
  counter := 0
  sccs := []

section Algorithm

variable [DecidableEq α]

/-- Number `v` and push it. -/
def State.enter (s : State α) (v : α) : State α :=
  { s with
    index := Function.update s.index v (some s.counter)
    lowLink := Function.update s.lowLink v (some s.counter)
    counter := s.counter + 1
    stack := v :: s.stack
    onStack := insert v s.onStack }

/-- `low_link[v] := min(low_link[v], n)`. -/
def State.lower (s : State α) (v : α) (n : Option ℕ) : Option (State α) :=
  match s.lowLink v, n with
  | some l, some n => some { s with lowLink := Function.update s.lowLink v (some (min l n)) }
  | _, _ => none

/-- Pop down to and including `v`, collecting the popped vertices. -/
def popUntil (v : α) : List α → Finset α → List α → Option (List α × Finset α × List α)
  | [], _, _ => none
  | w :: stack, onStack, scc =>
    if w = v then some (stack, onStack.erase w, scc ++ [w])
    else popUntil v stack (onStack.erase w) (scc ++ [w])

/-- Close the component rooted at `v`, if `v` is a root. -/
def State.close (s : State α) (v : α) : Option (State α) :=
  match s.lowLink v, s.index v with
  | some l, some i =>
    if l = i then
      (popUntil v s.stack s.onStack []).map fun r =>
        { s with stack := r.1, onStack := r.2.1, sccs := s.sccs ++ [r.2.2] }
    else some s
  | _, _ => none

/-- The recursive search from `v` over the successors `E`. -/
def strongconnect (E : α → List α) : ℕ → α → State α → Option (State α)
  | 0, _, _ => none
  | fuel + 1, v, s =>
    ((E v).foldlM (fun s w =>
      if s.index w = none then
        (strongconnect E fuel w s).bind fun s => s.lower v (s.lowLink w)
      else if w ∈ s.onStack then s.lower v (s.index w)
      else some s) (s.enter v)).bind fun s => s.close v

/-- The successors of `v` among `nodes`: the others are skipped. -/
def within (nodes : List α) (succ : α → List α) (v : α) : List α :=
  (succ v).filter fun w => decide (w ∈ nodes)

/-- The strongly connected components of `nodes`, in the order they are closed. -/
def components (succ : α → List α) (nodes : List α) : Option (List (List α)) :=
  (nodes.foldlM (fun s v =>
    if s.index v = none then strongconnect (within nodes succ) nodes.length v s else some s)
    State.init).map State.sccs

end Algorithm

/-! ## Component lists -/

/-- A list of strongly connected components, dependencies first. -/
structure SccsOk (E : α → List α) (sccs : List (List α)) : Prop where
  nodup : sccs.flatten.Nodup
  connected : ∀ c ∈ sccs, ∀ x ∈ c, ∀ y ∈ c, Reach E x y
  earlier : ∀ pre c post, sccs = pre ++ c :: post → ∀ x ∈ c, ∀ y ∈ E x, y ∈ pre.flatten ∨ y ∈ c

namespace SccsOk

variable {E : α → List α} {sccs : List (List α)}

theorem nil (E : α → List α) : SccsOk E [] :=
  ⟨List.nodup_nil, by simp, by simp⟩

theorem closed_prefix (h : SccsOk E sccs) {pre post : List (List α)} (he : sccs = pre ++ post) :
    Closed E (· ∈ pre.flatten) := by
  intro x hx y hy
  obtain ⟨c, hc, hxc⟩ := List.mem_flatten.mp hx
  obtain ⟨p, q, rfl⟩ := List.append_of_mem hc
  have := h.earlier p c (q ++ post) (by simp [he]) x hxc y hy
  rcases this with h' | h' <;> simp_all

theorem closed (h : SccsOk E sccs) : Closed E (· ∈ sccs.flatten) :=
  h.closed_prefix (List.append_nil sccs).symm

theorem snoc (h : SccsOk E sccs) {c : List α} (hnd : c.Nodup)
    (hdisj : ∀ x ∈ c, x ∉ sccs.flatten) (hconn : ∀ x ∈ c, ∀ y ∈ c, Reach E x y)
    (hedge : ∀ x ∈ c, ∀ y ∈ E x, y ∈ sccs.flatten ∨ y ∈ c) : SccsOk E (sccs ++ [c]) := by
  refine ⟨?_, ?_, ?_⟩
  · rw [List.flatten_append, List.nodup_append]
    refine ⟨h.nodup, by simpa using hnd, fun x hx y hy hxy => ?_⟩
    rw [hxy] at hx
    exact hdisj y (by simpa using hy) hx
  · intro d hd
    rcases List.mem_append.mp hd with hd | hd
    · exact h.connected d hd
    · rw [List.mem_singleton.mp hd]
      exact hconn
  · intro pre d post he x hx y hy
    rcases List.eq_nil_or_concat post with rfl | ⟨post', e, rfl⟩
    · obtain ⟨rfl, hd⟩ := List.append_inj' he rfl
      rw [← (List.cons.inj hd).1] at hx ⊢
      exact hedge x hx y hy
    · have he' : sccs ++ [c] = (pre ++ d :: post') ++ [e] := by simpa using he
      obtain ⟨hs, -⟩ := List.append_inj' he' rfl
      exact h.earlier pre d post' hs x hx y hy

theorem same_iff (h : SccsOk E sccs) {c : List α} (hc : c ∈ sccs) {x y : α} (hx : x ∈ c) :
    y ∈ c ↔ Reach E x y ∧ Reach E y x := by
  refine ⟨fun hy => ⟨h.connected c hc x hx y hy, h.connected c hc y hy x hx⟩, ?_⟩
  rintro ⟨hxy, hyx⟩
  obtain ⟨pre, post, rfl⟩ := List.append_of_mem hc
  have hcl : Closed E (· ∈ (pre ++ [c]).flatten) :=
    h.closed_prefix (show _ = (pre ++ [c]) ++ post by simp)
  have hy : y ∈ (pre ++ [c]).flatten := hcl.reach (by simp [hx]) hxy
  rw [List.flatten_append, List.mem_append] at hy
  refine hy.elim (fun hy => ?_) (by simp)
  -- `y` in an earlier component would pull `x` there, against `nodup`
  have hx' : x ∈ pre.flatten := (h.closed_prefix rfl).reach hy hyx
  have hnd := h.nodup
  rw [List.flatten_append, List.nodup_append] at hnd
  exact absurd rfl (hnd.2.2 x hx' x (by simp [hx]))

theorem index_lt (h : SccsOk E sccs) {i j : ℕ} {c d : List α} (hi : sccs[i]? = some c)
    (hj : sccs[j]? = some d) (hij : i ≠ j) {x y : α} (hx : x ∈ c) (hy : y ∈ d) (hE : y ∈ E x) :
    j < i := by
  obtain ⟨hlt, rfl⟩ := List.getElem?_eq_some_iff.mp hi
  obtain ⟨hlt', rfl⟩ := List.getElem?_eq_some_iff.mp hj
  have hdisj := (List.nodup_flatten.mp h.nodup).2
  have hapart : ∀ k (hk : k < sccs.length), k ≠ j → y ∉ sccs[k] := fun k hk hkj hyk => by
    rcases Nat.lt_or_gt_of_ne hkj with hkj | hkj
    · exact List.pairwise_iff_getElem.mp hdisj k j hk hlt' hkj hyk hy
    · exact List.pairwise_iff_getElem.mp hdisj j k hlt' hk hkj hy hyk
  have hsplit : sccs = sccs.take i ++ sccs[i] :: sccs.drop (i + 1) := by
    rw [← List.drop_eq_getElem_cons hlt, List.take_append_drop]
  rcases h.earlier _ _ _ hsplit x hx y hE with hpre | hc
  · obtain ⟨e, he, hye⟩ := List.mem_flatten.mp hpre
    obtain ⟨k, hk, rfl⟩ := List.mem_take_iff_getElem.mp he
    by_contra hle
    exact hapart k (by omega) (by omega) hye
  · exact absurd hc (hapart i hlt hij)

end SccsOk

/-! ## The invariant -/

/-- The number of an indexed vertex. -/
def num (s : State α) (u : α) : ℕ := (s.index u).getD 0

theorem num_of_index {s : State α} {u : α} {i : ℕ} (h : s.index u = some i) : num s u = i := by
  simp [num, h]

/-- The invariant of the search while the calls of `gs` are open. -/
structure Inv (E : α → List α) (nodes gs : List α) (s : State α) : Prop where
  in_nodes : ∀ u, (s.index u).isSome → u ∈ nodes
  index_lt : ∀ u i, s.index u = some i → i < s.counter
  sorted : s.stack.Pairwise fun x y => num s y < num s x
  indexed : ∀ u, (s.index u).isSome ↔ u ∈ s.stack ∨ u ∈ s.sccs.flatten
  onStack : ∀ u, u ∈ s.onStack ↔ u ∈ s.stack
  gray : ∀ g ∈ gs, g ∈ s.stack
  black : ∀ x ∈ s.stack, x ∉ gs → ∀ y ∈ E x, (s.index y).isSome
  down : ∀ x ∈ s.stack, ∃ g ∈ gs, num s g ≤ num s x ∧ Reach E x g
  up : ∀ g ∈ gs, ∀ x ∈ s.stack, num s g ≤ num s x → Reach E g x
  sccs : SccsOk E s.sccs
  disjoint : ∀ u ∈ s.sccs.flatten, u ∉ s.stack

namespace Inv

variable {E : α → List α} {nodes gs : List α} {s : State α}

theorem init (E : α → List α) (nodes : List α) : Inv E nodes [] (State.init : State α) := by
  constructor <;> simp [State.init, SccsOk.nil]

theorem stack_indexed (h : Inv E nodes gs s) {x : α} (hx : x ∈ s.stack) :
    (s.index x).isSome := (h.indexed x).mpr (.inl hx)

theorem num_lt (h : Inv E nodes gs s) {x : α} (hx : x ∈ s.stack) : num s x < s.counter := by
  obtain ⟨i, hi⟩ := Option.isSome_iff_exists.mp (h.stack_indexed hx)
  rw [num_of_index hi]
  exact h.index_lt x i hi

theorem stack_nodup (h : Inv E nodes gs s) : s.stack.Nodup :=
  h.sorted.imp fun hlt he => by rw [he] at hlt; omega

theorem congr {t : State α} (h : Inv E nodes gs s) (hi : t.index = s.index) (hs : t.stack = s.stack)
    (ho : t.onStack = s.onStack) (hc : t.counter = s.counter) (hq : t.sccs = s.sccs) :
    Inv E nodes gs t := by
  have hn : num t = num s := by funext u; simp [num, hi]
  obtain ⟨a, b, c, d, e, f, g, i, j, k, m⟩ := h
  constructor <;> simp only [hi, hs, ho, hc, hq, hn] <;> assumption

theorem stack_nil (h : Inv E nodes [] s) : s.stack = [] := by
  refine List.eq_nil_iff_forall_not_mem.mpr fun x hx => ?_
  obtain ⟨g, hg, -⟩ := h.down x hx
  simp at hg

end Inv

theorem ne_of_white {s : State α} {v : α} (hv : s.index v = none) {u : α}
    (hu : (s.index u).isSome) : u ≠ v := by
  rintro rfl
  rw [hv] at hu
  cases hu

/-- `t` keeps every number and low link of `s`. -/
structure Extends (s t : State α) : Prop where
  index : ∀ u, (s.index u).isSome → t.index u = s.index u
  low : ∀ u, (s.index u).isSome → t.lowLink u = s.lowLink u
  counter : s.counter ≤ t.counter

theorem Extends.num_eq {s t : State α} (h : Extends s t) {u : α} (hu : (s.index u).isSome) :
    num t u = num s u := by
  simp [num, h.index u hu]

theorem Extends.refl (s : State α) : Extends s s :=
  ⟨fun _ _ => rfl, fun _ _ => rfl, le_rfl⟩

theorem Extends.trans {s t r : State α} (h : Extends s t) (h' : Extends t r) : Extends s r where
  index u hu := (h'.index u (by rwa [h.index u hu])).trans (h.index u hu)
  low u hu := (h'.low u (by rwa [h.index u hu])).trans (h.low u hu)
  counter := h.counter.trans h'.counter

/-- What a finished call on `v` leaves: the stack grew by `new`, and the low
link `l` of `v` bounds every edge from `new` into the old stack. -/
structure Done (E : α → List α) (s : State α) (v : α) (t : State α) (new : List α) (l : ℕ) :
    Prop where
  stack : t.stack = new ++ s.stack
  fresh : ∀ x ∈ new, s.index x = none
  low : t.lowLink v = some l
  index : (t.index v).isSome
  root : (new = [] ∧ l = s.counter) ∨ (v ∈ new ∧ ∃ y ∈ s.stack, num s y = l ∧ Reach E v y)
  cross : ∀ x ∈ new, ∀ y ∈ E x, y ∈ s.stack → l ≤ num s y

/-- The state of the loop over the successors of `v`, those in `done` behind it. -/
structure Loop (E : α → List α) (nodes gs : List α) (s : State α) (v : α) (done : List α)
    (t : State α) (new : List α) (l : ℕ) : Prop where
  wasWhite : s.index v = none
  inv : Inv E nodes (v :: gs) t
  ext : Extends s t
  self : t.index v = some s.counter
  stack : t.stack = new ++ v :: s.stack
  fresh : ∀ x ∈ new, s.index x = none
  low : t.lowLink v = some l
  low_le : l ≤ s.counter
  root : l = s.counter ∨ ∃ y ∈ s.stack, num s y = l ∧ Reach E v y
  cross : ∀ x ∈ new, ∀ y ∈ E x, y ∈ s.stack → l ≤ num s y
  seen : ∀ w ∈ done, (t.index w).isSome ∧ (w ∈ s.stack → l ≤ num s w)

namespace Loop

/-! The stack segment `new ++ [v]` once all successors of `v` were looked at. -/

variable {E : α → List α} {nodes gs done new : List α} {s t : State α} {v : α} {l : ℕ}

theorem mem_stack (L : Loop E nodes gs s v done t new l) {y : α} (hy : y ∈ s.stack) :
    y ∈ t.stack := by
  rw [L.stack]
  exact List.mem_append_right _ (List.mem_cons_of_mem _ hy)

theorem num_eq (L : Loop E nodes gs s v done t new l) (h : Inv E nodes gs s) {y : α}
    (hy : y ∈ s.stack) : num t y = num s y := L.ext.num_eq (h.stack_indexed hy)

theorem segment_mem (L : Loop E nodes gs s v done t new l) {x : α} (hx : x ∈ new ++ [v]) :
    x ∈ t.stack := by
  rw [L.stack, List.append_cons]
  exact List.mem_append_left _ hx

theorem low_le_num (L : Loop E nodes gs s v done t new l) {y : α}
    (hy : y ∈ t.stack) (hys : y ∉ s.stack) : l ≤ num t y := by
  have hsorted := L.inv.sorted
  rw [L.stack] at hy
  rw [L.stack, List.pairwise_append] at hsorted
  rcases List.mem_append.mp hy with hy | hy
  · have hlt := hsorted.2.2 y hy v List.mem_cons_self
    rw [num_of_index L.self] at hlt
    exact L.low_le.trans hlt.le
  · rcases List.mem_cons.mp hy with rfl | hy
    · rw [num_of_index L.self]
      exact L.low_le
    · exact absurd hy hys

theorem skipped (L : Loop E nodes gs s v done t new l) {w : α} (hwi : (t.index w).isSome)
    (hst : w ∉ t.onStack) : Loop E nodes gs s v (done ++ [w]) t new l := by
  refine { L with seen := fun u hu => ?_ }
  rcases List.mem_append.mp hu with hu | hu
  · exact L.seen u hu
  · rw [List.mem_singleton.mp hu]
    exact ⟨hwi, fun hws => absurd ((L.inv.onStack w).mpr (L.mem_stack hws)) hst⟩

theorem segment_fresh (L : Loop E nodes gs s v done t new l) {x : α} (hx : x ∈ new ++ [v]) :
    s.index x = none := by
  rcases List.mem_append.mp hx with hx | hx
  · exact L.fresh x hx
  · rw [List.mem_singleton.mp hx]
    exact L.wasWhite

theorem segment_not_mem (L : Loop E nodes gs s v done t new l) (h : Inv E nodes gs s) {x : α}
    (hx : x ∈ new ++ [v]) : x ∉ s.stack := by
  intro hxs
  have := h.stack_indexed hxs
  rw [L.segment_fresh hx] at this
  cases this

theorem segment_nodup (L : Loop E nodes gs s v done t new l) : (new ++ [v]).Nodup := by
  have hnd := L.inv.stack_nodup
  rw [L.stack, List.append_cons] at hnd
  exact (List.nodup_append.mp hnd).1

theorem not_mem_new (L : Loop E nodes gs s v done t new l) : v ∉ new := fun hv =>
  (List.nodup_append.mp L.segment_nodup).2.2 v hv v (List.mem_singleton_self v) rfl

/-- Every edge out of the segment leads to an indexed vertex, on the old stack to
none below `l`. -/
theorem segment_edge (L : Loop E nodes gs s v (E v) t new l) (h : Inv E nodes gs s) {x y : α}
    (hx : x ∈ new ++ [v]) (hy : y ∈ E x) :
    (t.index y).isSome ∧ (y ∈ s.stack → l ≤ num s y) := by
  rcases List.mem_append.mp hx with hxn | hxv
  · refine ⟨L.inv.black x (L.segment_mem hx) (fun hxg => ?_) y hy, L.cross x hxn y hy⟩
    rcases List.mem_cons.mp hxg with rfl | hxg
    · exact L.not_mem_new hxn
    · exact L.segment_not_mem h hx (h.gray x hxg)
  · rw [List.mem_singleton.mp hxv] at hy
    exact L.seen y hy

theorem root_edge (L : Loop E nodes gs s v (E v) t new s.counter) (h : Inv E nodes gs s)
    {x y : α} (hx : x ∈ new ++ [v]) (hy : y ∈ E x) :
    y ∈ t.sccs.flatten ∨ y ∈ new ++ [v] := by
  obtain ⟨hidx, hlow⟩ := L.segment_edge h hx hy
  rcases (L.inv.indexed y).mp hidx with hyt | hyt
  · rw [L.stack, List.append_cons, List.mem_append] at hyt
    rcases hyt with hyt | hyt
    · exact .inr hyt
    · have := hlow hyt
      have := h.num_lt hyt
      omega
  · exact .inl hyt

theorem root_closed (L : Loop E nodes gs s v (E v) t new s.counter) (h : Inv E nodes gs s) :
    Closed E fun x => x ∈ t.sccs.flatten ∨ x ∈ new ++ [v] := by
  rintro x (hx | hx) y hy
  · exact .inl (L.inv.sccs.closed x hx y hy)
  · exact L.root_edge h hx hy

theorem reach_root (L : Loop E nodes gs s v (E v) t new s.counter) (h : Inv E nodes gs s)
    {x : α} (hx : x ∈ new ++ [v]) : Reach E x v := by
  obtain ⟨g, hgm, -, hr⟩ := L.inv.down x (L.segment_mem hx)
  rcases List.mem_cons.mp hgm with rfl | hgm
  · exact hr
  · have hgs := h.gray g hgm
    rcases (L.root_closed h).reach (.inr hx) hr with hc | hc
    · exact absurd (L.mem_stack hgs) (L.inv.disjoint g hc)
    · exact absurd hgs (L.segment_not_mem h hc)

theorem root_reach (L : Loop E nodes gs s v (E v) t new l) {x : α} (hx : x ∈ new ++ [v]) :
    Reach E v x := by
  rcases List.mem_append.mp hx with hxn | hxv
  · refine L.inv.up v List.mem_cons_self x (L.segment_mem hx) ?_
    have hsorted := L.inv.sorted
    rw [L.stack, List.pairwise_append] at hsorted
    exact (hsorted.2.2 x hxn v List.mem_cons_self).le
  · rw [List.mem_singleton.mp hxv]
    exact Reach.refl _ _

theorem root_sccs (L : Loop E nodes gs s v (E v) t new s.counter) (h : Inv E nodes gs s) :
    SccsOk E (t.sccs ++ [new ++ [v]]) :=
  L.inv.sccs.snoc L.segment_nodup
    (fun x hx hxs => L.inv.disjoint x hxs (L.segment_mem hx))
    (fun _ hx _ hy => (L.reach_root h hx).trans (L.root_reach hy))
    fun _ hx _ hy => L.root_edge h hx hy

theorem root_inv (L : Loop E nodes gs s v (E v) t new s.counter) (h : Inv E nodes gs s)
    {onStack : Finset α} (hon : ∀ u, u ∈ onStack ↔ u ∈ t.onStack ∧ u ∉ new ∧ u ≠ v) :
    Inv E nodes gs
      { t with stack := s.stack, onStack := onStack, sccs := t.sccs ++ [new ++ [v]] } where
  in_nodes := L.inv.in_nodes
  index_lt := L.inv.index_lt
  sorted := by
    have hsorted := L.inv.sorted
    rw [L.stack, List.pairwise_append, List.pairwise_cons] at hsorted
    exact hsorted.2.1.2
  indexed u := by
    rw [L.inv.indexed u, L.stack]
    simp only [List.mem_append, List.mem_cons, List.flatten_append, List.flatten_cons,
      List.flatten_nil, List.append_nil, List.not_mem_nil, or_false]
    tauto
  onStack u := by
    rw [hon u, L.inv.onStack u, L.stack]
    simp only [List.mem_append, List.mem_cons]
    constructor
    · rintro ⟨h1, h2, h3⟩
      exact (h1.resolve_left h2).resolve_left h3
    · intro hu
      have hseg : u ∉ new ++ [v] := fun hc => L.segment_not_mem h hc hu
      rw [List.mem_append, List.mem_singleton, not_or] at hseg
      exact ⟨.inr (.inr hu), hseg⟩
  gray := h.gray
  black x hx hxg := by
    refine L.inv.black x (L.mem_stack hx) fun hm => ?_
    rcases List.mem_cons.mp hm with rfl | hm
    · exact L.segment_not_mem h (List.mem_append_right _ (List.mem_singleton_self x)) hx
    · exact hxg hm
  down x hx := by
    obtain ⟨g, hgm, hle, hr⟩ := h.down x hx
    refine ⟨g, hgm, ?_, hr⟩
    show num t g ≤ num t x
    rwa [L.num_eq h hx, L.num_eq h (h.gray g hgm)]
  up g hgm x hx hle := by
    refine h.up g hgm x hx ?_
    rwa [← L.num_eq h hx, ← L.num_eq h (h.gray g hgm)]
  sccs := L.root_sccs h
  disjoint u hu hus := by
    rw [List.flatten_append, List.mem_append, List.flatten_singleton] at hu
    rcases hu with hu | hu
    · exact L.inv.disjoint u hu (L.mem_stack hus)
    · exact L.segment_not_mem h hu hus

end Loop

section Steps

variable [DecidableEq α] {E : α → List α} {nodes gs : List α} {s t : State α} {v : α}

theorem index_enter_ne {u : α} (h : u ≠ v) : (s.enter v).index u = s.index u := by
  simp [State.enter, Function.update_of_ne h]

theorem num_enter_ne {u : α} (h : u ≠ v) : num (s.enter v) u = num s u := by
  simp [num, index_enter_ne h]

theorem num_enter_self : num (s.enter v) v = s.counter := by
  simp [num, State.enter]

theorem Inv.enter (h : Inv E nodes gs s) (hv : s.index v = none) (hvn : v ∈ nodes)
    (hg : ∀ g ∈ gs, Reach E g v) : Inv E nodes (v :: gs) (s.enter v) := by
  have hns : ∀ x ∈ s.stack, x ≠ v := fun x hx => ne_of_white hv (h.stack_indexed hx)
  have hnum : ∀ x ∈ s.stack, num (s.enter v) x = num s x := fun x hx => num_enter_ne (hns x hx)
  exact {
    in_nodes := fun u hu => by
      by_cases huv : u = v
      · exact huv ▸ hvn
      · rw [index_enter_ne huv] at hu
        exact h.in_nodes u hu
    index_lt := fun u i hi => by
      show i < s.counter + 1
      by_cases huv : u = v
      · subst huv
        simp only [State.enter, Function.update_self, Option.some.injEq] at hi
        omega
      · rw [index_enter_ne huv] at hi
        have := h.index_lt u i hi
        omega
    sorted := by
      refine List.pairwise_cons.mpr ⟨fun y hy => ?_, ?_⟩
      · rw [num_enter_self, hnum y hy]
        exact h.num_lt hy
      · refine h.sorted.imp_of_mem fun {x y} hx hy hlt => ?_
        rwa [hnum x hx, hnum y hy]
    indexed := fun u => by
      by_cases huv : u = v
      · subst huv; simp [State.enter]
      · rw [index_enter_ne huv, h.indexed u]
        simp [State.enter, huv]
    onStack := fun u => by simp [State.enter, h.onStack u]
    gray := fun g hgm => by
      rcases List.mem_cons.mp hgm with rfl | hgm
      · exact List.mem_cons_self
      · exact List.mem_cons_of_mem _ (h.gray g hgm)
    black := fun x hx hxg y hy => by
      have hxv : x ≠ v := fun he => hxg (he ▸ List.mem_cons_self)
      have hxs : x ∈ s.stack := (List.mem_cons.mp hx).resolve_left hxv
      have hys := h.black x hxs (fun hm => hxg (List.mem_cons_of_mem _ hm)) y hy
      rwa [index_enter_ne (ne_of_white hv hys)]
    down := fun x hx => by
      rcases List.mem_cons.mp hx with rfl | hx
      · exact ⟨x, List.mem_cons_self, le_rfl, Reach.refl _ _⟩
      · obtain ⟨g, hgm, hle, hr⟩ := h.down x hx
        refine ⟨g, List.mem_cons_of_mem _ hgm, ?_, hr⟩
        rwa [hnum g (h.gray g hgm), hnum x hx]
    up := fun g hgm x hx hle => by
      rcases List.mem_cons.mp hx with rfl | hx
      · rcases List.mem_cons.mp hgm with rfl | hgm
        · exact Reach.refl _ _
        · exact hg g hgm
      · have hxs : x ∈ s.stack := hx
        rcases List.mem_cons.mp hgm with rfl | hgm
        · -- an old vertex is numbered below the vertex just entered
          rw [num_enter_self, hnum x hxs] at hle
          exact absurd (h.num_lt hxs) (Nat.not_lt_of_le hle)
        · rw [hnum g (h.gray g hgm), hnum x hxs] at hle
          exact h.up g hgm x hxs hle
    sccs := h.sccs
    disjoint := fun u hu hus => by
      rcases List.mem_cons.mp hus with rfl | hus
      · exact ne_of_white hv ((h.indexed u).mpr (.inr hu)) rfl
      · exact h.disjoint u hu hus }

theorem loop_enter (h : Inv E nodes gs s) (hv : s.index v = none) (hvn : v ∈ nodes)
    (hg : ∀ g ∈ gs, Reach E g v) : Loop E nodes gs s v [] (s.enter v) [] s.counter where
  wasWhite := hv
  inv := h.enter hv hvn hg
  ext := ⟨fun u hu => index_enter_ne (ne_of_white hv hu),
    fun u hu => by simp [State.enter, Function.update_of_ne (ne_of_white hv hu)],
    Nat.le_succ _⟩
  self := by simp [State.enter]
  stack := rfl
  fresh := List.forall_mem_nil _
  low := by simp [State.enter]
  low_le := le_rfl
  root := .inl rfl
  cross := List.forall_mem_nil _
  seen := List.forall_mem_nil _

theorem lower_spec {l n : ℕ} (hl : s.lowLink v = some l) :
    ∃ t, s.lower v (some n) = some t ∧ t.index = s.index ∧ t.stack = s.stack ∧
      t.onStack = s.onStack ∧ t.counter = s.counter ∧ t.sccs = s.sccs ∧
      t.lowLink v = some (min l n) ∧ ∀ u, u ≠ v → t.lowLink u = s.lowLink u := by
  refine ⟨{ s with lowLink := Function.update s.lowLink v (some (min l n)) }, ?_, rfl, rfl, rfl,
    rfl, rfl, by simp, fun u hu => by simp [Function.update_of_ne hu]⟩
  simp [State.lower, hl]

theorem Loop.lowered {done new new' : List α} {l n : ℕ} {w : α} {t' : State α}
    (L : Loop E nodes gs s v done t new l) (hinv : Inv E nodes (v :: gs) t')
    (hext : Extends t t') (hlow : t'.lowLink v = some l)
    (hstack : t'.stack = new' ++ t.stack) (hfresh : ∀ x ∈ new', t.index x = none)
    (hcross : ∀ x ∈ new', ∀ y ∈ E x, y ∈ s.stack → n ≤ num s y)
    (hw : (t'.index w).isSome) (hws : w ∈ s.stack → n ≤ num s w)
    (hroot : l ≤ n ∨ ∃ y ∈ s.stack, num s y = n ∧ Reach E v y) :
    ∃ r, t'.lower v (some n) = some r ∧
      Loop E nodes gs s v (done ++ [w]) r (new' ++ new) (min l n) := by
  obtain ⟨r, hr, hi, hs, ho, hc, hq, hlv, hlo⟩ := lower_spec (v := v) (n := n) hlow
  have hst := L.ext.trans hext
  have htv : (t.index v).isSome := by simp [L.self]
  refine ⟨r, hr, L.wasWhite, hinv.congr hi hs ho hc hq, ⟨?_, ?_, ?_⟩, ?_, ?_, ?_, hlv, ?_, ?_, ?_,
    ?_⟩
  · intro u hu
    rw [hi, hst.index u hu]
  · intro u hu
    have huv : u ≠ v := fun he => by simp [he, L.wasWhite] at hu
    rw [hlo u huv, hst.low u hu]
  · rw [hc]; exact hst.counter
  · rw [hi, hext.index v htv, L.self]
  · rw [hs, hstack, L.stack, List.append_assoc]
  · intro x hx
    rcases List.mem_append.mp hx with hx | hx
    · by_contra hne
      have hsome := Option.isSome_iff_ne_none.mpr hne
      rw [← L.ext.index x hsome, hfresh x hx] at hsome
      simp at hsome
    · exact L.fresh x hx
  · exact (min_le_left _ _).trans L.low_le
  · rcases le_or_gt l n with hln | hln
    · rw [min_eq_left hln]
      exact L.root
    · rw [min_eq_right hln.le]
      exact .inr (hroot.resolve_left (by omega))
  · intro x hx y hy hys
    rcases List.mem_append.mp hx with hx | hx
    · exact (min_le_right _ _).trans (hcross x hx y hy hys)
    · exact (min_le_left _ _).trans (L.cross x hx y hy hys)
  · intro u hu
    rcases List.mem_append.mp hu with hu | hu
    · obtain ⟨h1, h2⟩ := L.seen u hu
      refine ⟨by rwa [hi, hext.index u h1], fun hus => (min_le_left _ _).trans (h2 hus)⟩
    · rw [List.mem_singleton.mp hu]
      exact ⟨by rwa [hi], fun hus => (min_le_right _ _).trans (hws hus)⟩

/-- The vertices of `nodes` not yet numbered. -/
def white (nodes : List α) (s : State α) : Finset α :=
  nodes.toFinset.filter fun u => s.index u = none

theorem Loop.white_lt {done new : List α} {l : ℕ} (L : Loop E nodes gs s v done t new l)
    (hv : v ∈ nodes) : (white nodes t).card < (white nodes s).card := by
  refine Finset.card_lt_card (Finset.ssubset_iff_of_subset (fun u hu => ?_) |>.mpr ⟨v, ?_, ?_⟩)
  · simp only [white, Finset.mem_filter] at hu ⊢
    refine ⟨hu.1, ?_⟩
    by_contra hne
    have hsome := Option.isSome_iff_ne_none.mpr hne
    rw [← L.ext.index u hsome, hu.2] at hsome
    simp at hsome
  · simp [white, hv, L.wasWhite]
  · simp [white, L.self]

/-- What a call with one unit of fuel less is known to do. -/
def CallSpec (E : α → List α) (nodes : List α) (fuel : ℕ) : Prop :=
  ∀ {gs : List α} {s : State α} {v : α}, Inv E nodes gs s → s.index v = none → v ∈ nodes →
    (∀ g ∈ gs, Reach E g v) → (white nodes s).card ≤ fuel →
    ∃ t new l, strongconnect E fuel v s = some t ∧ Inv E nodes gs t ∧ Extends s t ∧
      Done E s v t new l

/-- One round of the loop over the successors. -/
def visit (E : α → List α) (fuel : ℕ) (v : α) (s : State α) (w : α) : Option (State α) :=
  if s.index w = none then (strongconnect E fuel w s).bind fun s => s.lower v (s.lowLink w)
  else if w ∈ s.onStack then s.lower v (s.index w)
  else some s

theorem strongconnect_succ (E : α → List α) (fuel : ℕ) (v : α) (s : State α) :
    strongconnect E (fuel + 1) v s =
      ((E v).foldlM (visit E fuel v) (s.enter v)).bind fun s => s.close v := rfl

section

variable {fuel l : ℕ} {done new : List α} {w : α} (L : Loop E nodes gs s v done t new l)
  (h : Inv E nodes gs s) (hw : w ∈ E v)

include L h hw

theorem Loop.visit_white (hcall : CallSpec E nodes fuel) (hg : ∀ g ∈ gs, Reach E g v)
    (hwn : w ∈ nodes) (hfuel : (white nodes t).card ≤ fuel) (hwi : t.index w = none) :
    ∃ r new' l', visit E fuel v t w = some r ∧ Loop E nodes gs s v (done ++ [w]) r new' l' := by
  have htv : (t.index v).isSome := by simp [L.self]
  have hreach : ∀ g ∈ v :: gs, Reach E g w :=
    List.forall_mem_cons.mpr ⟨Reach.single hw, fun g hgm => (hg g hgm).tail hw⟩
  obtain ⟨t', nw, n, ht', hinv, hext, D⟩ := hcall L.inv hwi hwn hreach hfuel
  have hws : w ∉ s.stack := fun hws => by
    have hindexed := h.stack_indexed hws
    rw [← L.ext.index w hindexed, hwi] at hindexed
    cases hindexed
  have hcross : ∀ x ∈ nw, ∀ y ∈ E x, y ∈ s.stack → n ≤ num s y := fun x hx y hy hys => by
    rw [← L.num_eq h hys]
    exact D.cross x hx y hy (L.mem_stack hys)
  have hroot : l ≤ n ∨ ∃ y ∈ s.stack, num s y = n ∧ Reach E v y := by
    rcases D.root with ⟨-, rfl⟩ | ⟨-, y, hy, rfl, hr⟩
    · exact .inl (L.low_le.trans (L.inv.index_lt v _ L.self).le)
    · by_cases hys : y ∈ s.stack
      · exact .inr ⟨y, hys, (L.num_eq h hys).symm, Reach.head hw hr⟩
      · exact .inl (L.low_le_num hy hys)
  obtain ⟨r, hr, L'⟩ := L.lowered hinv hext (by rw [hext.low v htv, L.low]) D.stack D.fresh
    hcross D.index (fun hc => absurd hc hws) hroot
  refine ⟨r, nw ++ new, min l n, ?_, L'⟩
  simp [visit, hwi, ht', D.low, hr]

theorem Loop.visit_stack {n : ℕ} (hn : t.index w = some n) (hst : w ∈ t.onStack) :
    ∃ r new' l', visit E fuel v t w = some r ∧ Loop E nodes gs s v (done ++ [w]) r new' l' := by
  have hwt : w ∈ t.stack := (L.inv.onStack w).mp hst
  have hnum : w ∈ s.stack → n = num s w := fun hws => by
    rw [← L.num_eq h hws, num_of_index hn]
  have hroot : l ≤ n ∨ ∃ y ∈ s.stack, num s y = n ∧ Reach E v y := by
    by_cases hws : w ∈ s.stack
    · exact .inr ⟨w, hws, (hnum hws).symm, Reach.single hw⟩
    · rw [← num_of_index hn]
      exact .inl (L.low_le_num hwt hws)
  obtain ⟨r, hr, L'⟩ := L.lowered L.inv (.refl t) L.low
    (List.nil_append _).symm (List.forall_mem_nil _) (List.forall_mem_nil _) (by simp [hn])
    (fun hws => (hnum hws).le) hroot
  refine ⟨r, [] ++ new, min l n, ?_, L'⟩
  simp [visit, hn, hst, hr]

/-- **One round.** A white successor is searched, a stack successor lowers the
low link, a closed one is skipped. -/
theorem visit_spec (hcall : CallSpec E nodes fuel) (hg : ∀ g ∈ gs, Reach E g v)
    (hE : ∀ x, ∀ y ∈ E x, y ∈ nodes) (hfuel : (white nodes t).card ≤ fuel) :
    ∃ r new' l', visit E fuel v t w = some r ∧ Loop E nodes gs s v (done ++ [w]) r new' l' := by
  cases hwi : t.index w with
  | none => exact L.visit_white h hw hcall hg (hE v w hw) hfuel hwi
  | some n =>
    by_cases hst : w ∈ t.onStack
    · exact L.visit_stack h hw hwi hst
    · exact ⟨t, new, l, by simp [visit, hwi, hst], L.skipped (by simp [hwi]) hst⟩

end

theorem loop_spec {fuel : ℕ} (hcall : CallSpec E nodes fuel) (h : Inv E nodes gs s)
    (hvn : v ∈ nodes) (hg : ∀ g ∈ gs, Reach E g v) (hE : ∀ x, ∀ y ∈ E x, y ∈ nodes)
    (hfuel : (white nodes s).card ≤ fuel + 1) :
    ∀ {todo done new : List α} {t : State α} {l : ℕ}, E v = done ++ todo →
      Loop E nodes gs s v done t new l →
      ∃ r new' l', todo.foldlM (visit E fuel v) t = some r ∧
        Loop E nodes gs s v (E v) r new' l' := by
  intro todo
  induction todo with
  | nil =>
    intro done new t l he L
    rw [List.append_nil] at he
    exact ⟨t, new, l, rfl, he ▸ L⟩
  | cons w todo ih =>
    intro done new t l he L
    have hwt := L.white_lt hvn
    obtain ⟨r, new', l', hr, L'⟩ := visit_spec (w := w) L h (by simp [he]) hcall hg hE (by omega)
    obtain ⟨r', new'', l'', hr', L''⟩ := ih (by simp [he]) L'
    refine ⟨r', new'', l'', ?_, L''⟩
    simp only [List.foldlM_cons, hr, Option.bind_eq_bind, Option.bind_some, hr']

theorem popUntil_spec {rest : List α} :
    ∀ {new acc : List α} {onStack : Finset α}, v ∉ new →
      ∃ onStack', popUntil v (new ++ v :: rest) onStack acc =
          some (rest, onStack', acc ++ (new ++ [v])) ∧
        ∀ u, u ∈ onStack' ↔ u ∈ onStack ∧ u ∉ new ∧ u ≠ v := by
  intro new
  induction new with
  | nil =>
    intro acc onStack _
    refine ⟨onStack.erase v, by simp [popUntil], fun u => ?_⟩
    simp [and_comm]
  | cons w new ih =>
    intro acc onStack hv
    simp only [List.mem_cons, not_or] at hv
    obtain ⟨on', hp, hm⟩ := @ih (acc ++ [w]) (onStack.erase w) hv.2
    refine ⟨on', ?_, fun u => ?_⟩
    · simp [popUntil, Ne.symm hv.1, hp]
    · rw [hm u]
      simp only [Finset.mem_erase, List.mem_cons, not_or]
      tauto

/-- **Closing a root.** The stack segment above and including `v` is its component. -/
theorem close_root (h : Inv E nodes gs s) {new : List α}
    (L : Loop E nodes gs s v (E v) t new s.counter) :
    ∃ r, t.close v = some r ∧ Inv E nodes gs r ∧ Extends s r ∧ Done E s v r [] s.counter := by
  obtain ⟨on', hpop, hon⟩ := @popUntil_spec _ _ _ s.stack _ [] t.onStack L.not_mem_new
  refine ⟨{ t with stack := s.stack, onStack := on', sccs := t.sccs ++ [new ++ [v]] }, ?_,
    L.root_inv h hon, ⟨L.ext.index, fun u hu => L.ext.low u hu, L.ext.counter⟩,
    ⟨rfl, by simp, L.low, by simp [L.self], .inl ⟨rfl, rfl⟩, by simp⟩⟩
  simp [State.close, L.low, L.self, L.stack, hpop]

/-- **Not a root.** `v` stays on the stack below its new segment. -/
theorem close_inner (h : Inv E nodes gs s) {new : List α} {l : ℕ}
    (L : Loop E nodes gs s v (E v) t new l) {y : α} (hy : y ∈ s.stack) (hyl : num s y = l)
    (hvy : Reach E v y) :
    t.close v = some t ∧ Inv E nodes gs t ∧ Extends s t ∧ Done E s v t (new ++ [v]) l := by
  have hlt : l < s.counter := hyl ▸ h.num_lt hy
  refine ⟨?_, { L.inv with
    gray := fun g hgm => L.mem_stack (h.gray g hgm)
    black := ?_
    down := ?_
    up := fun g hgm x hx hle => L.inv.up g (List.mem_cons_of_mem _ hgm) x hx hle }, L.ext, ?_, ?_,
    L.low, ?_, ?_, ?_⟩
  · have : ¬ l = s.counter := by omega
    simp [State.close, L.low, L.self, this]
  · intro x hx hxg z hz
    by_cases hxv : x = v
    · rw [hxv] at hz
      exact (L.seen z hz).1
    · exact L.inv.black x hx (by simp [hxv, hxg]) z hz
  · intro x hx
    obtain ⟨g, hgm, hle, hr⟩ := L.inv.down x hx
    rcases List.mem_cons.mp hgm with rfl | hgm
    · -- through `v` down to `y`, and from there to an open vertex
      obtain ⟨g', hgm', hle', hr'⟩ := h.down y hy
      refine ⟨g', hgm', ?_, (hr.trans hvy).trans hr'⟩
      rw [num_of_index L.self] at hle
      rw [L.num_eq h (h.gray g' hgm')]
      omega
    · exact ⟨g, hgm, hle, hr⟩
  · rw [L.stack, List.append_cons]
  · exact fun x hx => L.segment_fresh hx
  · simp [L.self]
  · exact .inr ⟨by simp, y, hy, hyl, hvy⟩
  · exact fun x hx z hz => (L.segment_edge h hx hz).2

/-- **A call keeps the invariant**, with fuel for the white vertices. -/
theorem strongconnect_spec (hE : ∀ x, ∀ y ∈ E x, y ∈ nodes) :
    ∀ fuel, CallSpec E nodes fuel := by
  intro fuel
  induction fuel with
  | zero =>
    intro gs s v _ hv hvn _ hfuel
    have : v ∈ white nodes s := by simp [white, hvn, hv]
    rw [Finset.card_eq_zero.mp (Nat.le_zero.mp hfuel)] at this
    simp at this
  | succ fuel ih =>
    intro gs s v h hv hvn hg hfuel
    obtain ⟨t, new, l, ht, L⟩ :=
      loop_spec ih h hvn hg hE hfuel (List.nil_append (E v)).symm (loop_enter h hv hvn hg)
    have hstep : strongconnect E (fuel + 1) v s = t.close v := by
      rw [strongconnect_succ, ht, Option.bind_some]
    rcases L.root with rfl | ⟨y, hy, hyl, hvy⟩
    · obtain ⟨r, hr, hinv, hext, D⟩ := close_root h L
      exact ⟨r, [], _, hstep.trans hr, hinv, hext, D⟩
    · obtain ⟨hr, hinv, hext, D⟩ := close_inner h L hy hyl hvy
      exact ⟨t, new ++ [v], l, hstep.trans hr, hinv, hext, D⟩

end Steps

/-! ## The whole algorithm -/

section Main

variable [DecidableEq α] {succ : α → List α} {nodes : List α}

theorem mem_within {nodes : List α} {v w : α} :
    w ∈ within nodes succ v ↔ w ∈ succ v ∧ w ∈ nodes := by
  simp [within]

theorem roots_spec :
    ∀ {todo : List α} {s : State α}, (∀ v ∈ todo, v ∈ nodes) →
      Inv (within nodes succ) nodes [] s →
      ∃ t, todo.foldlM (fun s v =>
          if s.index v = none then strongconnect (within nodes succ) nodes.length v s else some s) s
          = some t ∧ Inv (within nodes succ) nodes [] t ∧ Extends s t ∧
        ∀ v ∈ todo, (t.index v).isSome := by
  intro todo
  induction todo with
  | nil => intro s _ h; exact ⟨s, rfl, h, .refl s, by simp⟩
  | cons v todo ih =>
    intro s hsub h
    have hfuel : (white nodes s).card ≤ nodes.length :=
      (Finset.card_filter_le _ _).trans (List.toFinset_card_le nodes)
    obtain ⟨t, ht, hinv, hext, hvi⟩ : ∃ t, (if s.index v = none then
        strongconnect (within nodes succ) nodes.length v s else some s) = some t ∧
        Inv (within nodes succ) nodes [] t ∧ Extends s t ∧ (t.index v).isSome := by
      by_cases hv : s.index v = none
      · obtain ⟨t, new, l, ht, hinv, hext, D⟩ :=
          strongconnect_spec (fun x y hy => (mem_within.mp hy).2) nodes.length h hv
            (hsub v List.mem_cons_self) (by simp) hfuel
        exact ⟨t, by rw [if_pos hv, ht], hinv, hext, D.index⟩
      · exact ⟨s, by rw [if_neg hv], h, .refl s,
          Option.isSome_iff_ne_none.mpr hv⟩
    obtain ⟨r, hr, hinv', hext', hall⟩ := ih (fun u hu => hsub u (List.mem_cons_of_mem _ hu)) hinv
    refine ⟨r, ?_, hinv', hext.trans hext', fun u hu => ?_⟩
    · simp only [List.foldlM_cons, ht, Option.bind_eq_bind, Option.bind_some, hr]
    · rcases List.mem_cons.mp hu with rfl | hu
      · rwa [hext'.index u hvi]
      · exact hall u hu

/-- **Tarjan's algorithm is correct.** It returns; its components partition
`nodes`, are the classes of mutual reachability inside `nodes`, and a
component is returned after the ones it depends on. -/
theorem components_spec (succ : α → List α) (nodes : List α) :
    ∃ sccs, components succ nodes = some sccs ∧ SccsOk (within nodes succ) sccs ∧
      ∀ x, x ∈ sccs.flatten ↔ x ∈ nodes := by
  obtain ⟨t, ht, h, -, hall⟩ := @roots_spec _ _ succ nodes nodes _
    (fun _ hv => hv) (Inv.init _ _)
  refine ⟨t.sccs, by rw [components, ht]; rfl, h.sccs, fun x => ⟨fun hx => ?_, fun hx => ?_⟩⟩
  · exact h.in_nodes x ((h.indexed x).mpr (.inr hx))
  · have := (h.indexed x).mp (hall x hx)
    rw [h.stack_nil] at this
    simpa using this

end Main

end Blsmr.Tarjan
