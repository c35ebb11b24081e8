import Blsmr.Quorum.System

/-!
# Chosen grid quorums

What `choose_random_quorum` of a grid returns is the cells of `x` rows and `x` columns,
each once. As long as some column is left out, a row that is not among the chosen ones has
a cell that is not there, and the same holds of the columns. So the chosen cells are the
only quorum among themselves (`isQuorum_chosen_iff`).
-/

namespace Blsmr

namespace Grid.QuorumSystem

variable {self : QuorumSystem} {rows cols : List (Fin self.n)} {as : List Pid}

/-- The cells of the rows, then those of the columns without the ones already taken. -/
def crossCells (self : QuorumSystem) (rows cols : List (Fin self.n)) : List Pid :=
  rows.flatMap (fun r => (List.finRange self.n).map fun c => self.cell r c) ++
    cols.flatMap fun c =>
      ((List.finRange self.n).filter fun r => !rows.elem r).map fun r => self.cell r c

theorem crossCells_eq : self.crossCells rows cols =
    rows.flatMap (fun r => (List.finRange self.n).map fun c => self.cell r c) ++
      cols.flatMap fun c =>
        ((List.finRange self.n).filter fun r => r ∉ rows).map fun r => self.cell r c := by
  have hfilter : ((List.finRange self.n).filter fun r => !rows.elem r) =
      (List.finRange self.n).filter fun r => r ∉ rows :=
    List.filter_congr fun r _ => by simp
  unfold crossCells
  rw [hfilter]

theorem mem_crossCells {p : Pid} : p ∈ self.crossCells rows cols ↔
    ∃ r c, (r ∈ rows ∨ c ∈ cols) ∧ self.cell r c = p := by
  rw [crossCells_eq]
  simp only [List.mem_append, List.mem_flatMap, List.mem_map, List.mem_finRange, true_and,
    List.mem_filter, decide_eq_true_eq]
  constructor
  · rintro (⟨r, hr, c, rfl⟩ | ⟨c, hc, r, -, rfl⟩)
    · exact ⟨r, c, .inl hr, rfl⟩
    · exact ⟨r, c, .inr hc, rfl⟩
  · rintro ⟨r, c, h, rfl⟩
    by_cases hr : r ∈ rows
    · exact .inl ⟨r, hr, c, rfl⟩
    · exact .inr ⟨c, h.resolve_left hr, r, hr, rfl⟩

theorem cell_mem_crossCells (hnd : self.flattenGrid.Nodup) {r c : Fin self.n} :
    self.cell r c ∈ self.crossCells rows cols ↔ r ∈ rows ∨ c ∈ cols := by
  rw [mem_crossCells]
  constructor
  · rintro ⟨r', c', h, he⟩
    obtain ⟨rfl, rfl⟩ := cell_inj hnd he
    exact h
  · exact fun h => ⟨r, c, h, rfl⟩

theorem nodup_crossCells (hnd : self.flattenGrid.Nodup) (hr : rows.Nodup) (hc : cols.Nodup) :
    (self.crossCells rows cols).Nodup := by
  have hfin := List.nodup_finRange self.n
  rw [crossCells_eq]
  refine List.nodup_append.mpr ⟨List.nodup_flatMap.mpr ⟨fun r _ => ?_, ?_⟩,
    List.nodup_flatMap.mpr ⟨fun c _ => ?_, ?_⟩, fun p hp q hq => ?_⟩
  · exact hfin.map_on fun c _ c' _ h => (cell_inj hnd h).2
  · refine hr.imp fun hne p hp hp' => ?_
    obtain ⟨c, -, rfl⟩ := List.mem_map.mp hp
    obtain ⟨c', -, he⟩ := List.mem_map.mp hp'
    exact hne (cell_inj hnd he).1.symm
  · exact (hfin.filter _).map_on fun r _ r' _ h => (cell_inj hnd h).1
  · refine hc.imp fun hne p hp hp' => ?_
    obtain ⟨r, -, rfl⟩ := List.mem_map.mp hp
    obtain ⟨r', -, he⟩ := List.mem_map.mp hp'
    exact hne (cell_inj hnd he).2.symm
  · rintro rfl
    obtain ⟨r, hr, hp⟩ := List.mem_flatMap.mp hp
    obtain ⟨c, -, rfl⟩ := List.mem_map.mp hp
    obtain ⟨c', -, hq⟩ := List.mem_flatMap.mp hq
    obtain ⟨r', hr', he⟩ := List.mem_map.mp hq
    obtain rfl := (cell_inj hnd he).1
    exact of_decide_eq_true (List.mem_filter.mp hr').2 hr

theorem length_filter_notMem (hr : rows.Nodup) :
    ((List.finRange self.n).filter fun r => r ∉ rows).length = self.n - rows.length := by
  have hsplit := List.length_eq_length_filter_add (l := List.finRange self.n) (fun r => r ∈ rows)
  have hin : ((List.finRange self.n).filter fun r => r ∈ rows).Perm rows :=
    (List.perm_ext_iff_of_nodup ((List.nodup_finRange _).filter _) hr).mpr fun r => by simp
  rw [List.length_finRange, hin.length_eq] at hsplit
  simp only [decide_not] at hsplit ⊢
  omega

theorem length_crossCells (hr : rows.Nodup) : (self.crossCells rows cols).length =
    rows.length * self.n + cols.length * (self.n - rows.length) := by
  have hrest := length_filter_notMem hr
  simp only [decide_not] at hrest
  rw [crossCells_eq]
  simp [List.length_flatMap, hrest]

/-! ## Minimality -/

theorem fullRows_subset (hnd : self.flattenGrid.Nodup) (hcols : cols.length < self.n)
    (hsub : as ⊆ self.crossCells rows cols) : self.fullRows as ⊆ rows := by
  intro r hr
  obtain ⟨c, hc⟩ : ∃ c : Fin self.n, c ∉ cols := by
    by_contra hall
    have hfull : List.finRange self.n ⊆ cols := fun c _ => by
      by_contra hc
      exact hall ⟨c, hc⟩
    have := ((List.nodup_finRange _).subperm hfull).length_le
    rw [List.length_finRange] at this
    omega
  exact ((cell_mem_crossCells hnd).mp (hsub (mem_fullRows.mp hr c))).resolve_right hc

theorem fullCols_subset (hnd : self.flattenGrid.Nodup) (hrows : rows.length < self.n)
    (hsub : as ⊆ self.crossCells rows cols) : self.fullCols as ⊆ cols := by
  intro c hc
  obtain ⟨r, hr⟩ : ∃ r : Fin self.n, r ∉ rows := by
    by_contra hall
    have hfull : List.finRange self.n ⊆ rows := fun r _ => by
      by_contra hr
      exact hall ⟨r, hr⟩
    have := ((List.nodup_finRange _).subperm hfull).length_le
    rw [List.length_finRange] at this
    omega
  exact ((cell_mem_crossCells hnd).mp (hsub (mem_fullCols.mp hc r))).resolve_left hr

/-- **A quorum among the cells of `x` rows and `x` columns** has all of them. -/
theorem isQuorum_crossCells_iff (hnd : self.flattenGrid.Nodup) (hr : rows.Nodup) (hc : cols.Nodup)
    (hrx : rows.length = self.x) (hcx : cols.length = self.x)
    (hsub : as ⊆ self.crossCells rows cols) :
    self.isQuorum as = true ↔ self.crossCells rows cols ⊆ as := by
  have hfin := List.nodup_finRange self.n
  rw [isQuorum_iff]
  constructor
  · rintro ⟨hrq, hcq⟩ p hp
    obtain ⟨r, c, h, rfl⟩ := mem_crossCells.mp hp
    rcases Nat.lt_or_ge self.x self.n with hlt | hge
    · have hR : rows ⊆ self.fullRows as := (((hfin.filter _).subperm
        (fullRows_subset hnd (hcx ▸ hlt) hsub)).perm_of_length_le (hrx ▸ hrq)).symm.subset
      have hC : cols ⊆ self.fullCols as := (((hfin.filter _).subperm
        (fullCols_subset hnd (hrx ▸ hlt) hsub)).perm_of_length_le (hcx ▸ hcq)).symm.subset
      rcases h with h | h
      · exact mem_fullRows.mp (hR h) c
      · exact mem_fullCols.mp (hC h) r
    · have hR : List.finRange self.n ⊆ self.fullRows as := (((hfin.filter _).subperm
        (fun r _ => List.mem_finRange r)).perm_of_length_le
          (by rw [List.length_finRange]; exact hge.trans hrq)).symm.subset
      exact mem_fullRows.mp (hR (List.mem_finRange r)) c
  · intro hall
    refine ⟨hrx ▸ (hr.subperm fun r h => ?_).length_le, hcx ▸ (hc.subperm fun c h => ?_).length_le⟩
    · exact mem_fullRows.mpr fun c => hall (mem_crossCells.mpr ⟨r, c, .inl h, rfl⟩)
    · exact mem_fullCols.mpr fun r => hall (mem_crossCells.mpr ⟨r, c, .inr h, rfl⟩)

theorem le_of_least {x k : ℕ} (hk : 1 ≤ k) (hleast : ∀ y, k ≤ 2 * y * y → x ≤ y) : x ≤ k :=
  hleast k (by nlinarith)

end Grid.QuorumSystem

/-! ## In every state -/

/-- The quorum system after some choices. -/
def QuorumSystem.after (self : QuorumSystem) (earlier : List QuorumSystem.Randomness) :
    QuorumSystem :=
  earlier.foldl (fun qs rng => (qs.chooseRandomQuorum rng).1) self

open Grid.QuorumSystem in
theorem QuorumSystem.after_witnessGrid (grid : Grid.QuorumSystem) (earlier : List Randomness)
    (hp : grid.indices.Perm (List.finRange grid.n)) :
    ∃ indices : List (Fin grid.n), indices.Perm (List.finRange grid.n) ∧
      (QuorumSystem.witnessGrid grid).after earlier = .witnessGrid { grid with indices } := by
  unfold QuorumSystem.after
  induction earlier generalizing grid with
  | nil => exact ⟨grid.indices, hp, rfl⟩
  | cons rng earlier ih =>
    rw [List.foldl_cons]
    exact ih { grid with
      indices := (rng.cols grid.n).order ((rng.rows grid.n).order grid.indices) }
      (((rng.cols grid.n).perm _).trans (((rng.rows grid.n).perm _).trans hp))

open Grid.QuorumSystem in
/-- **What a grid chooses** in any state: the cells of `x` rows and `x` columns. -/
theorem QuorumSystem.chosen_crossCells (grid : Grid.QuorumSystem) (earlier : List Randomness)
    (rng : Randomness) (hp : grid.indices.Perm (List.finRange grid.n)) (hx : grid.x ≤ grid.n) :
    ∃ rows cols : List (Fin grid.n), rows.Nodup ∧ cols.Nodup ∧ rows.length = grid.x ∧
      cols.length = grid.x ∧
      (((QuorumSystem.witnessGrid grid).after earlier).chooseRandomQuorum rng).2 =
        grid.crossCells rows cols := by
  obtain ⟨indices, hi, he⟩ := after_witnessGrid grid earlier hp
  rw [he]
  have hrows := ((rng.rows grid.n).perm indices).trans hi
  have hcols := ((rng.cols grid.n).perm ((rng.rows grid.n).order indices)).trans hrows
  have htake : ∀ l : List (Fin grid.n), l.Perm (List.finRange grid.n) →
      (l.take grid.x).Nodup ∧ (l.take grid.x).length = grid.x := fun l hl =>
    ⟨(hl.nodup_iff.mpr (List.nodup_finRange _)).sublist (List.take_sublist _ _), by
      rw [List.length_take, hl.length_eq, List.length_finRange]
      omega⟩
  exact ⟨_, _, (htake _ hrows).1, (htake _ hcols).1, (htake _ hrows).2, (htake _ hcols).2,
    crossCells_eq.symm⟩

end Blsmr
