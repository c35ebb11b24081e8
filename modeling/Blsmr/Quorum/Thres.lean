import Blsmr.Client
import Mathlib.Data.List.Perm.Subperm

/-!
# Threshold quorums (`crates/quorum/src/thres.rs`)

A set of processes is a quorum when it is large enough. `is_quorum` counts the
elements of the iterator it is given, so it is a predicate on lists. The buffer
`choose_random_quorum` fills is cleared on every call and left out.
-/

namespace Blsmr.Thres

/-- `thres::QuorumSystem`. -/
structure QuorumSystem where
  pids : List Pid
  f : ℕ
  m : ℕ
  deriving DecidableEq, Repr

/-- The outcome of `pids.sample(rng, size)`: some `min size n` distinct positions. -/
structure Sampling where
  sample : List Pid → ℕ → List Pid
  subperm : ∀ pids size, (sample pids size).Subperm pids
  length : ∀ pids size, (sample pids size).length = min size pids.length

namespace QuorumSystem

def new (pids : List Pid) (f m : ℕ) : QuorumSystem := ⟨pids, f, m⟩

/-- The length of an empty pid list underflows; every caller has a process. -/
def size (self : QuorumSystem) : ℕ := self.m * ((self.pids.length - 1) / self.f) + self.m - 1

def chooseRandomQuorum (self : QuorumSystem) (rng : Sampling) : List Pid :=
  rng.sample self.pids self.size

def isQuorum (self : QuorumSystem) (pids : List Pid) : Bool := pids.length ≥ self.size

end QuorumSystem

end Blsmr.Thres
