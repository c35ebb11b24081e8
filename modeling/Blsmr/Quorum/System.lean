import Blsmr.Quorum.Grid
import Blsmr.Quorum.Thres

/-!
# Quorum systems (`crates/quorum/src/lib.rs`)

The two flavours behind one interface.
-/

namespace Blsmr

/-- `quorum::QuorumSystem`, with its `Flavor`. -/
inductive QuorumSystem where
  | threshold (qs : Thres.QuorumSystem)
  | witnessGrid (qs : Grid.QuorumSystem)

namespace QuorumSystem

def newDissemination (pids : List Pid) : QuorumSystem := .threshold (.new pids 3 2)

def newWitnessing (pids : List Pid) : QuorumSystem := .threshold (.new pids 5 4)

def newWitnessingGrid (sqrtCeil : ℕ → ℕ) (pids : List Pid) : Option QuorumSystem :=
  (Grid.QuorumSystem.new sqrtCeil pids).map .witnessGrid

def newWitnessingGridWithFaults (sqrtCeil : ℕ → ℕ) (pids : List Pid) (faults : ℕ) :
    Option QuorumSystem :=
  (Grid.QuorumSystem.withFaults sqrtCeil pids faults).map .witnessGrid

def size : QuorumSystem → ℕ
  | .threshold qs => qs.size
  | .witnessGrid qs => qs.size

def consensusCommitteeSize : QuorumSystem → ℕ
  | .threshold qs => qs.size
  | .witnessGrid qs => qs.consensusCommitteeSize

def isQuorum (self : QuorumSystem) (pids : List Pid) : Bool :=
  match self with
  | .threshold qs => qs.isQuorum pids
  | .witnessGrid qs => qs.isQuorum pids

/-- The outcome of the random choices of one `choose_random_quorum`. -/
structure Randomness where
  sampling : Thres.Sampling
  rows : ∀ n, Grid.Shuffle n
  cols : ∀ n, Grid.Shuffle n

/-- The state afterwards and the quorum chosen. -/
def chooseRandomQuorum (self : QuorumSystem) (rng : Randomness) : QuorumSystem × List Pid :=
  match self with
  | .threshold qs => (.threshold qs, qs.chooseRandomQuorum rng.sampling)
  | .witnessGrid qs =>
    let (qs', quorum) := qs.chooseRandomQuorum (rng.rows qs.n) (rng.cols qs.n)
    (.witnessGrid qs', quorum)

theorem isQuorum_chooseRandomQuorum (qs : QuorumSystem) (rng : Randomness) (pids : List Pid) :
    (qs.chooseRandomQuorum rng).1.isQuorum pids = qs.isQuorum pids := by
  cases qs <;> rfl

end QuorumSystem

end Blsmr
