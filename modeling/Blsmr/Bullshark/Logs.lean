import Blsmr.Bullshark.Anchors

/-!
# What a log of anchors says about the output

A walk from a later anchor comes by every supported one and goes on from there
(`Backward.split`, `Backward.extend`), so the anchors of a log are those of the walk from
its last one. The offsets decide how far down the history of each of them is ordered
(`Replay.segment`).
-/

namespace Blsmr.Bullshark

open Blsmr.Graph Bfs RoundBasedDAG

section Backward

variable {n f last round : ℕ} {created : List Vertex} {a b x : Vertex} {ps qs : List Vertex}

theorem Backward.unique (hV : Vertices n created) (hx : x ∈ created)
    (h : Backward n last round x ps) (h' : Backward n last round x qs) : ps = qs := by
  induction h generalizing qs with
  | stop hle => exact (h'.nil_of_le hle).symm
  | skip hlt hno _ ih =>
    cases h' with
    | stop => omega
    | skip _ _ hw => exact ih hx hw
    | push _ hr hs hreach => exact absurd hreach (hno _ hr hs)
  | @push round x v ps hlt hr hs hreach _ ih =>
    cases h' with
    | stop => omega
    | skip _ hno => exact absurd hreach (hno _ hr hs)
    | @push _ _ v' _ _ hr' hs' hreach' hw =>
      have hv := (hV.reaches_mem hx hreach).1
      have heq : v' = v := hV.key_inj v hv v' (hV.reaches_mem hx hreach').1
        (hr'.trans hr.symm) (hs'.trans hs.symm)
      subst heq
      rw [ih hv hw]

/-- What the walks that come by a supported anchor rely on. -/
structure Unmissed (n : ℕ) (created : List Vertex) (a : Vertex) : Prop where
  even : a.round % 2 = 0
  source : a.source = leader n a.round
  mem : a ∈ created
  reached : ∀ y ∈ created, a.round + 2 ≤ y.round → y.Reaches a

theorem Supported.unmissed (hn : n = 3 * f + 1) (hV : Vertices n created)
    (hS : Supported n created a b) (heven : a.round % 2 = 0)
    (hsource : a.source = leader n a.round) : Unmissed n created a :=
  ⟨heven, hsource, hS.anchor_mem, fun _ hy hle => hS.reaches hn hV hy (hS.round ▸ hle)⟩

/-- **A walk comes by every supported anchor.** -/
theorem Backward.split (hV : Vertices n created) (hP : Unmissed n created a) (h0 : 0 < a.round)
    (h : Backward n 0 round x ps) (hx : x ∈ created) (heven : round % 2 = 0)
    (hle : a.round ≤ round) (hround : round + 2 ≤ x.round) :
    ∃ ps₁ ps₂, ps = ps₁ ++ a :: ps₂ ∧ Backward n 0 (a.round - 2) a ps₁ := by
  have hpar := hP.even
  induction h with
  | stop => omega
  | @skip round x ps _ hno _ ih =>
    by_cases heq : a.round = round + 2
    · have hreach := hP.reached x hx (by omega)
      exact absurd hreach (hno a heq (heq ▸ hP.source))
    · exact ih hx (by omega) (by omega) (by omega)
  | @push round x v ps _ hr hs hreach hw ih =>
    have hv := (hV.reaches_mem hx hreach).1
    by_cases heq : a.round = round + 2
    · have hav : v = a := hV.key_inj a hP.mem v hv (hr.trans heq.symm)
        (hs.trans (heq ▸ hP.source.symm))
      subst hav
      rw [show round = v.round - 2 by omega] at hw
      exact ⟨ps, [], rfl, hw⟩
    · obtain ⟨ps₁, ps₂, rfl, hb⟩ := ih hv (by omega) (by omega) (by omega)
      exact ⟨ps₁, ps₂ ++ [v], by rw [List.append_assoc, List.cons_append], hb⟩

/-- **A walk down to a supported anchor goes on with the walk from it.** -/
theorem Backward.extend (hV : Vertices n created) (hP : Unmissed n created a) (h0 : 0 < a.round)
    (h : Backward n a.round round x ps) (hb : Backward n 0 (a.round - 2) a qs) (hx : x ∈ created)
    (heven : round % 2 = 0) (hle : a.round ≤ round) (hround : round + 2 ≤ x.round) :
    Backward n 0 round x (qs ++ a :: ps) := by
  have hpar := hP.even
  generalize hlast : a.round = last at h
  induction h with
  | stop hstop =>
    obtain ⟨r, hr⟩ := Nat.exists_eq_add_of_le' (show 2 ≤ a.round by omega)
    obtain rfl : last = r + 2 := by omega
    rename_i round x
    obtain rfl : round = r + 2 := by omega
    have hreach := hP.reached x hx (by omega)
    rw [hr, Nat.add_sub_cancel] at hb
    exact .push (by omega) hr (hr ▸ hP.source) hreach hb
  | skip hlt hno _ ih =>
    exact .skip (by omega) hno (ih hx (by omega) (by omega) (by omega))
  | @push round x v ps hlt hr hs hreach _ ih =>
    have hv := (hV.reaches_mem hx hreach).1
    have := ih hv (by omega) (by omega) (by omega)
    rw [← List.cons_append, ← List.append_assoc]
    exact .push (by omega) hr hs hreach this

end Backward

/-! ## Logs -/

/-- The rounds of a log rise, and the offsets do not fall. -/
structure Rising (created : List Vertex) (log : List (Vertex × ℕ)) : Prop where
  mem : ∀ x ∈ log, x.1 ∈ created
  le : ∀ x ∈ log, x.2 ≤ x.1.round
  pairwise : log.Pairwise fun x y => x.1.round < y.1.round ∧ x.2 ≤ y.2

/-- What an anchor reaches between two offsets can be reached from an earlier anchor. -/
def Covered (log : List (Vertex × ℕ)) (anchor : Vertex) (offset offset' : ℕ) : Prop :=
  ∀ u, anchor.Reaches u → offset ≤ u.round → u.round < offset' →
    ∃ y ∈ log, y.1.round < anchor.round ∧ y.1.Reaches u

section

variable {n o o' : ℕ} {created out out' segment segment' : List Vertex} {a u v : Vertex}
  {log log' l r : List (Vertex × ℕ)}

theorem Rising.left (h : Rising created (l ++ r)) : Rising created l where
  mem x hx := h.mem x (List.mem_append_left _ hx)
  le x hx := h.le x (List.mem_append_left _ hx)
  pairwise := (List.pairwise_append.mp h.pairwise).1

theorem Rising.extend (h : Rising created log) {anchors : List Vertex}
    (hmem : ∀ v ∈ anchors, v ∈ created ∧ o ≤ v.round)
    (hinc : anchors.Pairwise fun u v => u.round < v.round)
    (hold : ∀ x ∈ log, x.2 ≤ o ∧ ∀ v ∈ anchors, x.1.round < v.round) :
    Rising created (log ++ anchors.map fun v => (v, o)) where
  mem := List.forall_mem_append.mpr ⟨h.mem, List.forall_mem_map.mpr fun v hv => (hmem v hv).1⟩
  le := List.forall_mem_append.mpr ⟨h.le, List.forall_mem_map.mpr fun v hv => (hmem v hv).2⟩
  pairwise := by
    refine List.pairwise_append.mpr ⟨h.pairwise, List.pairwise_map.mpr ?_, fun x hx y hy => ?_⟩
    · exact hinc.imp fun hlt => ⟨hlt, Nat.le_refl _⟩
    · obtain ⟨v, hv, rfl⟩ := List.mem_map.mp hy
      exact ⟨(hold x hx).2 v hv, (hold x hx).1⟩

theorem Rising.before (h : Rising created (l ++ (a, o) :: r)) {y : Vertex × ℕ} (hy : y ∈ l) :
    y.1.round < a.round ∧ y.2 ≤ o :=
  (List.pairwise_append.mp h.pairwise).2.2 y hy (a, o) List.mem_cons_self

theorem Rising.after (h : Rising created (l ++ (a, o) :: r)) {y : Vertex × ℕ} (hy : y ∈ r) :
    a.round < y.1.round ∧ o ≤ y.2 :=
  (List.pairwise_cons.mp (List.pairwise_append.mp h.pairwise).2.1).1 y hy

theorem Rising.round_lt_of_offset_lt (h : Rising created log) (ha : (a, o) ∈ log)
    {x : Vertex × ℕ} (hx : x ∈ log) (hlt : x.2 < o) : x.1.round < a.round := by
  obtain ⟨l, r, rfl⟩ := List.append_of_mem ha
  rcases List.mem_append.mp hx with hx | hx
  · exact (h.before hx).1
  · rcases List.mem_cons.mp hx with rfl | hx
    · exact absurd hlt (lt_irrefl _)
    · exact absurd hlt (Nat.not_lt_of_le (h.after hx).2)

theorem Rising.mem_left (h : Rising created (l ++ (a, o) :: r)) {y : Vertex × ℕ}
    (hy : y ∈ l ++ (a, o) :: r) (hlt : y.1.round < a.round) : y ∈ l := by
  rcases List.mem_append.mp hy with hy | hy
  · exact hy
  · rcases List.mem_cons.mp hy with rfl | hy
    · exact absurd hlt (lt_irrefl _)
    · exact absurd (h.after hy).1 hlt.asymm

theorem keptEdges_of_le (hle : o ≤ o') :
    keptEdges o' = fun v => (keptEdges o v).filter fun u => o' ≤ u.round := by
  funext v
  unfold keptEdges
  rw [List.filter_filter]
  refine List.filter_congr fun u _ => ?_
  by_cases h : o' ≤ u.round
  · simp [h, hle.trans h]
  · simp [h]

theorem Covered.left (h : Covered (l ++ r) u o o') (hu : ∀ y ∈ r, u.round ≤ y.1.round) :
    Covered l u o o' := fun x hux hle hlt => by
  obtain ⟨y, hy, hy', hyx⟩ := h x hux hle hlt
  rcases List.mem_append.mp hy with hy | hy
  · exact ⟨y, hy, hy', hyx⟩
  · exact absurd (hu y hy) (Nat.not_le_of_lt hy')

theorem Replay.of_nil (h : Replay [] out) : out = [] := by
  generalize heq : ([] : List (Vertex × ℕ)) = log at h
  cases h with
  | nil => rfl
  | snoc => simp at heq

theorem Replay.last (h : Replay (l ++ [(a, o)]) out) : ∃ out₁ segment, out = out₁ ++ segment ∧
    Replay l out₁ ∧ (¬ ∃ v ∈ out₁, v.key = a.key) ∧
    Traverse Vertex.key (keptEdges o) (fun k => ∃ v ∈ out₁, v.key = k) [a] segment := by
  generalize heq : l ++ [(a, o)] = log at h
  cases h with
  | nil => simp at heq
  | snoc h hfresh ht =>
    obtain ⟨rfl, hx⟩ := List.append_inj' heq rfl
    cases hx
    exact ⟨_, _, rfl, h, hfresh, ht⟩

theorem Replay.append (h : Replay (l ++ r) out) :
    ∃ out₁ out₂, out = out₁ ++ out₂ ∧ Replay l out₁ ∧ (r = [] → out₂ = []) := by
  induction r using List.reverseRecOn generalizing out with
  | nil => exact ⟨out, [], (List.append_nil _).symm, List.append_nil l ▸ h, fun _ => rfl⟩
  | append_singleton r x ih =>
    rw [← List.append_assoc] at h
    obtain ⟨out₁, segment, rfl, h₁, -⟩ := h.last
    obtain ⟨out₀, out₂, rfl, h₀, -⟩ := ih h₁
    exact ⟨out₀, out₂ ++ segment, List.append_assoc _ _ _, h₀, fun hnil => by simp at hnil⟩

theorem Replay.head (h : Replay ((a, o) :: r) out) : ∃ rest, out = a :: rest := by
  obtain ⟨out₁, out₂, rfl, h₁, -⟩ := Replay.append (l := [(a, o)]) h
  obtain ⟨out₀, segment, rfl, h₀, -, ht⟩ := Replay.last (l := []) h₁
  obtain rfl := h₀.of_nil
  cases ht with
  | skip hx => exact absurd hx fun ⟨v, hv, _⟩ => List.not_mem_nil hv
  | mark => exact ⟨_, rfl⟩

theorem Replay.source (h : Replay log out) (hR : Rising created log) (hv : v ∈ out) :
    ∃ x ∈ log, x.2 ≤ v.round ∧ x.1.Reaches v := by
  induction h with
  | nil => cases hv
  | @snoc log out segment anchor offset _ _ ht ih =>
    rcases List.mem_append.mp hv with hv | hv
    · obtain ⟨x, hx, hreach⟩ := ih hR.left hv
      exact ⟨x, List.mem_append_left _ hx, hreach⟩
    · have hlast : (anchor, offset) ∈ log ++ [(anchor, offset)] :=
        List.mem_append_right _ (List.mem_singleton_self _)
      refine ⟨_, hlast, ht.subset (S := fun v => offset ≤ v.round ∧ anchor.Reaches v)
        (fun x hx y hy => ?_) (fun x hx => ?_) v hv⟩
      · obtain ⟨hmem, hle⟩ := mem_keptEdges.mp hy
        exact ⟨hle, hx.2.tail hmem⟩
      · cases List.mem_singleton.mp hx
        exact ⟨hR.le _ hlast, .refl _ _⟩

variable (hV : Vertices n created)

include hV

theorem Replay.mem_created (h : Replay log out) (hR : Rising created log) (hv : v ∈ out) :
    v ∈ created := by
  obtain ⟨x, hx, -, hreach⟩ := h.source hR hv
  exact (hV.reaches_mem (hR.mem x hx) hreach).1

/-- **Everything that an anchor reaches above its offset is ordered.** -/
theorem Replay.contains (h : Replay log out) (hR : Rising created log) :
    (∀ x ∈ log, ∀ u, x.1.Reaches u → x.2 ≤ u.round → u ∈ out) ∧
      ∀ v ∈ out, ∀ y ∈ v.strongEdges, (∀ x ∈ log, x.2 ≤ y.round) → y ∈ out := by
  induction h with
  | nil => exact ⟨List.forall_mem_nil _, List.forall_mem_nil _⟩
  | @snoc log out segment anchor offset h hfresh ht ih =>
    obtain ⟨hold, hclosed⟩ := ih hR.left
    have hlast : (anchor, offset) ∈ log ++ [(anchor, offset)] :=
      List.mem_append_right _ (List.mem_singleton_self _)
    have hanchor := hR.mem _ hlast
    have hmem : ∀ v ∈ out ++ segment, v ∈ created := fun v hv =>
      Replay.mem_created hV (.snoc h hfresh ht) hR hv
    have hkept : ∀ x, x ∈ created → ∀ y ∈ keptEdges offset x, y ∈ created := fun x hx y hy =>
      (hV.edge x hx y (mem_keptEdges.mp hy).1).1
    have hmarked : ∀ x, x ∈ created → (∃ v ∈ out, v.key = x.key) → x ∈ out :=
      fun x hx ⟨v, hv, hk⟩ => hV.key_eq (hmem v (List.mem_append_left _ hv)) hx hk ▸ hv
    have hsegment : ∀ {x}, x ∈ segment ↔
        Reach (keptEdges offset) anchor x ∧ ¬ ∃ v ∈ out, v.key = x.key :=
      ht.mem_iff (S := fun v => v ∈ created) hkept (fun x hx y hy => hV.key_eq hx hy) hanchor
        fun x hx hm y hy => by
          obtain ⟨hy, hle⟩ := mem_keptEdges.mp hy
          exact ⟨y, hclosed x (hmarked x hx hm) y hy fun x hx => (hR.before hx).2.trans hle, rfl⟩
    have hreach : ∀ x, Reach (keptEdges offset) anchor x → x ∈ out ++ segment := fun x hx => by
      by_cases hm : ∃ v ∈ out, v.key = x.key
      · have hx : anchor.Reaches x := hx.mono fun _ => List.filter_subset_self _
        exact List.mem_append_left _ (hmarked x (hV.reaches_mem hanchor hx).1 hm)
      · exact List.mem_append_right _ (hsegment.mpr ⟨hx, hm⟩)
    refine ⟨fun x hx u hu hle => ?_, fun v hv y hy hle => ?_⟩
    · rcases List.mem_append.mp hx with hx | hx
      · exact List.mem_append_left _ (hold x hx u hu hle)
      · cases List.mem_singleton.mp hx
        exact hreach u ((reach_keptEdges (hV.falls hanchor) hle).mpr hu)
    · rcases List.mem_append.mp hv with hv | hv
      · exact List.mem_append_left _ (hclosed v hv y hy fun x hx =>
          (hR.before hx).2.trans (hle _ hlast))
      · exact hreach y ((hsegment.mp hv).1.tail (mem_keptEdges.mpr ⟨hy, hle _ hlast⟩))

/-- **A lower offset goes on where a higher one stops.** -/
theorem traverse_deeper {marked : ℕ × Pid → Prop} (ha : a ∈ created) (hle : o ≤ o')
    (hround : o' ≤ a.round) (h : Traverse Vertex.key (keptEdges o) marked [a] segment)
    (h' : Traverse Vertex.key (keptEdges o') marked [a] segment') :
    ∃ deep, segment = segment' ++ deep ∧ ∀ x ∈ deep, x.round < o' := by
  rw [keptEdges_of_le hle] at h'
  have h : Traverse Vertex.key (keptEdges o) marked ([a] ++ []) segment := h
  exact h'.shallow (S := fun v => v ∈ created)
    (fun x hx y hy => hV.edge x hx y (mem_keptEdges.mp hy).1) h (fun _ _ _ => Iff.rfl)
    ⟨List.forall_mem_singleton.mpr ⟨ha, hround⟩, List.forall_mem_nil _,
      List.pairwise_singleton _ _, fun hne => absurd rfl hne⟩

/-- **The offset does not matter** if what lies between has been covered. -/
theorem Replay.segment_eq (h : Replay log out) (hR : Rising created (log ++ [(a, o)]))
    (hle : o ≤ o') (hround : o' ≤ a.round) (hc : Covered (log ++ [(a, o)]) a o o')
    (ht : Traverse Vertex.key (keptEdges o) (fun k => ∃ v ∈ out, v.key = k) [a] segment)
    (ht' : Traverse Vertex.key (keptEdges o') (fun k => ∃ v ∈ out, v.key = k) [a] segment') :
    segment = segment' := by
  have ha := hR.mem _ (List.mem_append_right _ (List.mem_singleton_self _))
  obtain ⟨deep, rfl, hdeep⟩ := traverse_deeper hV ha hle hround ht ht'
  suffices hnil : deep = [] by rw [hnil, List.append_nil]
  refine List.eq_nil_iff_forall_not_mem.mpr fun x hx => ?_
  have hmem : x ∈ segment' ++ deep := List.mem_append_right _ hx
  obtain ⟨hlow, hreach⟩ := ht.subset (S := fun v => o ≤ v.round ∧ a.Reaches v)
    (fun x hx y hy => ⟨(mem_keptEdges.mp hy).2, hx.2.tail (mem_keptEdges.mp hy).1⟩)
    (List.forall_mem_singleton.mpr ⟨hle.trans hround, .refl _ _⟩) x hmem
  obtain ⟨y, hy, hlt, hyx⟩ := hc x hreach hlow (hdeep x hx)
  have hy := hR.mem_left hy hlt
  have hin := (h.contains hV hR.left).1 y hy x hyx ((hR.before hy).2.trans hlow)
  exact ht.fresh x hmem ⟨x, hin, rfl⟩

/-- **Two logs with the same anchors order the same**, whatever their offsets, if what lies
between these has been covered. -/
theorem Replay.same (h : Replay log out) (h' : Replay log' out') (hR : Rising created log)
    (hR' : Rising created log') (hlog : log.map Prod.fst = log'.map Prod.fst)
    (hc : ∀ a o o', (a, o) ∈ log → (a, o') ∈ log' → Covered log a o o' ∧ Covered log' a o' o) :
    out = out' := by
  induction h generalizing log' out' with
  | nil =>
    obtain rfl := List.map_eq_nil_iff.mp hlog.symm
    exact h'.of_nil.symm
  | @snoc log out segment a o h hfresh ht ih =>
    rcases List.eq_nil_or_concat log' with rfl | ⟨l, ⟨a', o'⟩, rfl⟩
    · simp at hlog
    rw [List.concat_eq_append] at *
    rw [List.map_append, List.map_append] at hlog
    obtain ⟨hinit, heq⟩ := List.append_inj' hlog rfl
    obtain rfl : a = a' := by simpa using heq
    obtain ⟨out₁, segment', rfl, h₁, -, ht'⟩ := h'.last
    have hlast : (a, o) ∈ log ++ [(a, o)] := List.mem_append_right _ (List.mem_singleton_self _)
    have hlast' : (a, o') ∈ l ++ [(a, o')] := List.mem_append_right _ (List.mem_singleton_self _)
    have hout : out = out₁ := by
      refine ih h₁ hR.left hR'.left hinit fun b p p' hb hb' => ?_
      obtain ⟨hcb, hcb'⟩ := hc b p p' (List.mem_append_left _ hb) (List.mem_append_left _ hb')
      have := (hR.before hb).1
      exact ⟨hcb.left (List.forall_mem_singleton.mpr this.le),
        hcb'.left (List.forall_mem_singleton.mpr this.le)⟩
    subst hout
    obtain ⟨hca, hca'⟩ := hc a o o' hlast hlast'
    rcases Nat.le_total o o' with hle | hle
    · rw [h.segment_eq hV hR hle (hR'.le _ hlast') hca ht ht']
    · rw [h₁.segment_eq hV hR' hle (hR.le _ hlast) hca' ht' ht]

end

end Blsmr.Bullshark
