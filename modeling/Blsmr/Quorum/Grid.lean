import Blsmr.Client
import Blsmr.Lib.Counting
import Mathlib.Data.Fintype.Prod
import Mathlib.Data.List.FinRange
import Mathlib.Data.Nat.Sqrt

/-!
# Witnessing grids (`crates/quorum/src/grid.rs`)

The processes stand in an `n × n` grid; a quorum contains `x` full rows and `x`
full columns. The assertion of `with_faults` makes the grid square, which the
structure keeps as a field, so `cell` never reads outside it. The number `x`
comes from a floating-point expression in `n`; it is a parameter here.

Two quorums share at least one row's worth of cells (`isQuorum_overlap`).
-/

namespace Blsmr.Grid

/-- `grid::QuorumSystem`. The buffer of `choose_random_quorum` is left out. -/
structure QuorumSystem where
  flattenGrid : List Pid
  n : ℕ
  x : ℕ
  indices : List (Fin n)
  consensusCommitteeSize : ℕ
  square : n * n = flattenGrid.length

/-- The outcome of a `shuffle`. -/
structure Shuffle (n : ℕ) where
  order : List (Fin n) → List (Fin n)
  perm : ∀ l, (order l).Perm l

namespace QuorumSystem

/-- `with_faults`; `sqrtCeil` stands for `((3.0 * f) / 2.0 + 1.0).sqrt().ceil()`
with `f = (n - 2) / 3`. The assertion panics on a grid that is not square. -/
def withFaults (sqrtCeil : ℕ → ℕ) (pids : List Pid) (faults : ℕ) : Option QuorumSystem :=
  let size := pids.length
  let n := size.sqrt
  if h : n * n = size then
    some {
      flattenGrid := pids
      n := n
      x := sqrtCeil n
      indices := List.finRange n
      consensusCommitteeSize := min (3 * faults + 1) size
      square := h }
  else none

/-- `new`; `n - 2` underflows below side two. -/
def new (sqrtCeil : ℕ → ℕ) (pids : List Pid) : Option QuorumSystem :=
  let n := pids.length.sqrt
  if n < 2 then none
  else withFaults sqrtCeil pids (max ((n - 2) / 3) 1)

variable (self : QuorumSystem)

def idx (row col : Fin self.n) : ℕ := row * self.n + col

theorem idx_lt (row col : Fin self.n) : self.idx row col < self.flattenGrid.length := by
  rw [← self.square, idx]
  calc (row : ℕ) * self.n + col < row * self.n + self.n := by omega
    _ = (row + 1) * self.n := by rw [Nat.add_mul, Nat.one_mul]
    _ ≤ self.n * self.n := Nat.mul_le_mul_right _ row.isLt

/-- `flatten_grid[idx(row, col)]`. -/
def cell (row col : Fin self.n) : Pid :=
  self.flattenGrid.get ⟨self.idx row col, self.idx_lt row col⟩

def size : ℕ := self.x * self.flattenGrid.length.sqrt

/-- The state after the two shuffles, and the quorum: the chosen rows, then the
chosen columns without the cells already taken. -/
def chooseRandomQuorum (rows cols : Shuffle self.n) : QuorumSystem × List Pid :=
  let indices := rows.order self.indices
  let rowIndices := indices.take self.x
  let indices := cols.order indices
  let colIndices := indices.take self.x
  let quorum :=
    rowIndices.flatMap (fun r => (List.finRange self.n).map fun c => self.cell r c) ++
    colIndices.flatMap fun c =>
      ((List.finRange self.n).filter fun r => r ∉ rowIndices).map fun r => self.cell r c
  ({ self with indices }, quorum)

/-- The rows whose members all occur in `pids`. -/
def fullRows (pids : List Pid) : List (Fin self.n) :=
  (List.finRange self.n).filter fun r => (List.finRange self.n).all fun c => self.cell r c ∈ pids

/-- The columns whose members all occur in `pids`. -/
def fullCols (pids : List Pid) : List (Fin self.n) :=
  (List.finRange self.n).filter fun c => (List.finRange self.n).all fun r => self.cell r c ∈ pids

def isQuorum (pids : List Pid) : Bool :=
  (self.fullRows pids).length ≥ self.x ∧ (self.fullCols pids).length ≥ self.x

/-! ## Cells -/

theorem idx_inj {r c r' c' : Fin self.n} (h : self.idx r c = self.idx r' c') :
    r = r' ∧ c = c' := by
  have hn : 0 < self.n := r.pos
  have hr : ∀ a b : Fin self.n, self.idx a b / self.n = a := fun a b => by
    rw [idx, Nat.add_comm, Nat.add_mul_div_right _ _ hn, Nat.div_eq_of_lt b.isLt, Nat.zero_add]
  have hc : ∀ a b : Fin self.n, self.idx a b % self.n = b := fun a b => by
    rw [idx, Nat.add_comm, Nat.add_mul_mod_self_right, Nat.mod_eq_of_lt b.isLt]
  exact ⟨Fin.ext (by rw [← hr r c, ← hr r' c', h]), Fin.ext (by rw [← hc r c, ← hc r' c', h])⟩

variable {self}

theorem cell_inj (hnd : self.flattenGrid.Nodup) {r c r' c' : Fin self.n}
    (h : self.cell r c = self.cell r' c') : r = r' ∧ c = c' :=
  self.idx_inj (by simpa using (List.nodup_iff_injective_get.mp hnd) h)

theorem cell_mem (r c : Fin self.n) : self.cell r c ∈ self.flattenGrid := List.get_mem _ _

theorem mem_fullRows {pids : List Pid} {r : Fin self.n} :
    r ∈ self.fullRows pids ↔ ∀ c, self.cell r c ∈ pids := by
  simp [fullRows]

theorem mem_fullCols {pids : List Pid} {c : Fin self.n} :
    c ∈ self.fullCols pids ↔ ∀ r, self.cell r c ∈ pids := by
  simp [fullCols]

theorem fullRows_card (pids : List Pid) :
    (self.fullRows pids).toFinset.card = (self.fullRows pids).length :=
  List.toFinset_card_of_nodup ((List.nodup_finRange _).filter _)

theorem fullCols_card (pids : List Pid) :
    (self.fullCols pids).toFinset.card = (self.fullCols pids).length :=
  List.toFinset_card_of_nodup ((List.nodup_finRange _).filter _)

theorem isQuorum_iff {pids : List Pid} : self.isQuorum pids = true ↔
    self.x ≤ (self.fullRows pids).length ∧ self.x ≤ (self.fullCols pids).length := by
  simp [isQuorum]

/-! ## Intersection -/

/-- The members of the grid that occur in both lists. -/
def common (self : QuorumSystem) (as bs : List Pid) : List Pid :=
  self.flattenGrid.filter fun p => p ∈ as ∧ p ∈ bs

/-- **Two grid quorums** share at least `n` members of the grid. -/
theorem isQuorum_overlap (hnd : self.flattenGrid.Nodup) (hx : self.n ≤ 2 * self.x * self.x)
    {as bs : List Pid} (ha : self.isQuorum as = true) (hb : self.isQuorum bs = true) :
    self.n ≤ (self.common as bs).length := by
  obtain ⟨har, hac⟩ := isQuorum_iff.mp ha
  obtain ⟨hbr, hbc⟩ := isQuorum_iff.mp hb
  let S : Finset (Fin self.n × Fin self.n) :=
    Finset.univ.filter fun p => self.cell p.1 p.2 ∈ as ∧ self.cell p.1 p.2 ∈ bs
  have hS : self.n ≤ S.card := by
    refine Counting.cross_card (Fintype.card_fin _) (Fintype.card_fin _) hx
      ((fullRows_card as).symm ▸ har) ((fullRows_card bs).symm ▸ hbr)
      ((fullCols_card as).symm ▸ hac) ((fullCols_card bs).symm ▸ hbc) fun r c h h' => ?_
    simp only [List.mem_toFinset, mem_fullRows, mem_fullCols] at h h'
    exact Finset.mem_filter.mpr ⟨Finset.mem_univ _, h.elim (· c) (· r), h'.elim (· c) (· r)⟩
  have hinj : Set.InjOn (fun p : Fin self.n × Fin self.n => self.cell p.1 p.2) S :=
    fun p _ q _ hpq => Prod.ext (cell_inj hnd hpq).1 (cell_inj hnd hpq).2
  calc self.n ≤ S.card := hS
    _ = (S.image fun p => self.cell p.1 p.2).card := (Finset.card_image_of_injOn hinj).symm
    _ ≤ (self.common as bs).toFinset.card := by
        refine Finset.card_le_card fun p hp => ?_
        obtain ⟨q, hq, rfl⟩ := Finset.mem_image.mp hp
        have := (Finset.mem_filter.mp hq).2
        simp [common, cell_mem, this]
    _ ≤ (self.common as bs).length := List.toFinset_card_le _

/-! ## Chosen quorums -/

theorem isQuorum_mono {as bs : List Pid} (h : as ⊆ bs) (ha : self.isQuorum as = true) :
    self.isQuorum bs = true := by
  obtain ⟨hr, hc⟩ := isQuorum_iff.mp ha
  refine isQuorum_iff.mpr ⟨hr.trans ?_, hc.trans ?_⟩
  · rw [← fullRows_card as, ← fullRows_card bs]
    refine Finset.card_le_card fun r hr => ?_
    rw [List.mem_toFinset, mem_fullRows] at hr ⊢
    exact fun c => h (hr c)
  · rw [← fullCols_card as, ← fullCols_card bs]
    refine Finset.card_le_card fun c hc => ?_
    rw [List.mem_toFinset, mem_fullCols] at hc ⊢
    exact fun r => h (hc r)

theorem take_card {l : List (Fin self.n)} (hl : l.Perm (List.finRange self.n))
    (hx : self.x ≤ self.n) : (l.take self.x).toFinset.card = self.x := by
  have hnd : (l.take self.x).Nodup :=
    (hl.nodup_iff.mpr (List.nodup_finRange _)).sublist (List.take_sublist _ _)
  rw [List.toFinset_card_of_nodup hnd, List.length_take, hl.length_eq, List.length_finRange]
  omega

/-- **A chosen quorum is a quorum**, in every state left by earlier choices. -/
theorem isQuorum_chooseRandomQuorum (hp : self.indices.Perm (List.finRange self.n))
    (hx : self.x ≤ self.n) (rows cols : Shuffle self.n) :
    self.isQuorum (self.chooseRandomQuorum rows cols).2 = true := by
  have hrows : (rows.order self.indices).Perm (List.finRange self.n) := (rows.perm _).trans hp
  have hcols := (cols.perm (rows.order self.indices)).trans hrows
  set rowIndices := (rows.order self.indices).take self.x with hri
  set colIndices := (cols.order (rows.order self.indices)).take self.x with hci
  have hmem : ∀ r c, r ∈ rowIndices ∨ c ∈ colIndices →
      self.cell r c ∈ (self.chooseRandomQuorum rows cols).2 := by
    intro r c h
    simp only [chooseRandomQuorum, List.mem_append, List.mem_flatMap, List.mem_map,
      List.mem_filter, decide_eq_true_eq]
    by_cases hr : r ∈ rowIndices
    · exact .inl ⟨r, hr, c, List.mem_finRange c, rfl⟩
    · exact .inr ⟨c, h.resolve_left hr, r, ⟨List.mem_finRange r, hr⟩, rfl⟩
  refine isQuorum_iff.mpr ⟨?_, ?_⟩
  · rw [← fullRows_card, ← take_card hrows hx]
    refine Finset.card_le_card fun r hr => ?_
    rw [List.mem_toFinset] at hr ⊢
    exact mem_fullRows.mpr fun c => hmem r c (.inl hr)
  · rw [← fullCols_card, ← take_card hcols hx]
    refine Finset.card_le_card fun c hc => ?_
    rw [List.mem_toFinset] at hc ⊢
    exact mem_fullCols.mpr fun r => hmem r c (.inr hc)

theorem withFaults_spec {sqrtCeil : ℕ → ℕ} {pids : List Pid} {k : ℕ} (hlen : pids.length = k * k)
    (faults : ℕ) : ∃ grid, withFaults sqrtCeil pids faults = some grid ∧ grid.flattenGrid = pids ∧
      grid.n = k ∧ grid.x = sqrtCeil k ∧
      grid.consensusCommitteeSize = min (3 * faults + 1) (k * k) := by
  have hsqrt : pids.length.sqrt = k := by rw [hlen, Nat.sqrt_eq]
  have hsq : pids.length.sqrt * pids.length.sqrt = pids.length := by rw [hsqrt, hlen]
  refine ⟨_, by rw [withFaults, dif_pos hsq], rfl, hsqrt, by simp [hsqrt], by simp [hlen]⟩

theorem withFaults_indices {sqrtCeil : ℕ → ℕ} {pids : List Pid} {faults : ℕ}
    {grid : QuorumSystem} (h : withFaults sqrtCeil pids faults = some grid) :
    grid.indices = List.finRange grid.n := by
  rw [withFaults, Option.dite_none_right_eq_some] at h
  obtain ⟨_, h⟩ := h
  cases h
  rfl

/-- **Witnessing-grid intersection.** The last part is about the grid that `new`
builds, which tolerates `(k - 2) / 3` faults. -/
theorem quorums_share_a_row (k : ℕ) (hk : 1 ≤ k) :
    (∀ grid : QuorumSystem, grid.n = k → grid.flattenGrid.Nodup → k ≤ 2 * grid.x * grid.x →
      ∀ as bs, grid.isQuorum as = true → grid.isQuorum bs = true →
        k ≤ (grid.common as bs).length) ∧
    ∀ (sqrtCeil : ℕ → ℕ) (pids : List Pid), pids.length = k * k → pids.Nodup →
      k ≤ 2 * sqrtCeil k * sqrtCeil k → 5 ≤ k →
      ∃ grid, new sqrtCeil pids = some grid ∧ grid.flattenGrid = pids ∧
        ∀ as bs, grid.isQuorum as = true → grid.isQuorum bs = true →
          3 * ((k - 2) / 3) + 2 ≤ (grid.common as bs).length := by
  refine ⟨fun grid hn hnd hx as bs ha hb => ?_, fun sqrtCeil pids hlen hnd hx h5 => ?_⟩
  · subst hn
    exact isQuorum_overlap hnd hx ha hb
  · obtain ⟨grid, hg, hpids, rfl, hxg, -⟩ := withFaults_spec hlen
      (max ((k - 2) / 3) 1)
    have hsqrt : pids.length.sqrt = grid.n := by rw [hlen, Nat.sqrt_eq]
    refine ⟨grid, ?_, hpids, fun as bs ha hb => ?_⟩
    · rw [new, hsqrt, if_neg (by omega), hg]
    · have := isQuorum_overlap (hpids ▸ hnd) (hxg ▸ hx) ha hb
      omega

/-- Two overlapping quorums of the grid of side two. -/
theorem quorums_share_a_row_two :
    let grid : QuorumSystem := ⟨[10, 11, 12, 13], 2, 1, List.finRange 2, 4, rfl⟩
    2 ≤ (grid.common [10, 11, 12] [10, 12, 13]).length :=
  (quorums_share_a_row 2 (by decide)).1 ⟨[10, 11, 12, 13], 2, 1, List.finRange 2, 4, rfl⟩ rfl
    (by decide) (by decide) _ _ (by decide) (by decide)

end QuorumSystem

end Blsmr.Grid
