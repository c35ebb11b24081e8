import Blsmr.Quorum.Sizes
import Mathlib.Data.List.AList

/-!
# Byzantine consistent broadcast (`crates/bullshark/src/consistent_broadcast.rs`)

A process that receives an `Initiate` stores the message and answers with a
`Signature`, which vouches for the identifier only. The broadcaster counts the
signatures and broadcasts a `Certificate` at the quorum; with the certificate
the stored message is handed out. The set of waiting certificates is a list
without duplicates. Message sizes are left out.
-/

namespace Blsmr

structure MessageId where
  processId : Pid
  messageId : ℕ
  deriving DecidableEq

inductive BCBMessage (α : Type) where
  | initiate (id : MessageId) (message : α)
  | signature (id : MessageId)
  | certificate (validators : ℕ) (id : MessageId)

def BCBMessage.id {α : Type} : BCBMessage α → MessageId
  | initiate id _ => id
  | signature id => id
  | certificate _ id => id

/-- `ByzantineConsistentBroadcast`. -/
structure ByzantineConsistentBroadcast (α : Type) where
  messages : AList fun _ : MessageId => α × ℕ
  waitingCertificates : List MessageId
  procNum : ℕ

namespace ByzantineConsistentBroadcast

/-- What `on_message` leaves behind. -/
structure Outcome (α : Type) where
  state : ByzantineConsistentBroadcast α
  returned : Option α
  sends : List (Pid × BCBMessage α)

variable {α : Type}

/-- `ByzantineConsistentBroadcast::default()`. -/
def default : ByzantineConsistentBroadcast α := ⟨∅, [], 0⟩

def onStart (procNum : ℕ) (self : ByzantineConsistentBroadcast α) :
    ByzantineConsistentBroadcast α := { self with procNum }

/-- `broadcast` reaches every process of the pool, the sender too. -/
def broadcast (pool : List Pid) (msg : BCBMessage α) : List (Pid × BCBMessage α) :=
  pool.map fun pid => (pid, msg)

/-- `reliably_broadcast` by process `me`; `uid` is what `unique_id` returned. -/
def reliablyBroadcast (pool : List Pid) (me : Pid) (uid : ℕ) (message : α)
    (self : ByzantineConsistentBroadcast α) :
    ByzantineConsistentBroadcast α × List (Pid × BCBMessage α) :=
  let id : MessageId := { processId := me, messageId := uid }
  ({ self with messages := self.messages.insert id (message, 0) },
    broadcast pool (.initiate id message))

def onMessage (pool : List Pid) (me sender : Pid) (self : ByzantineConsistentBroadcast α) :
    BCBMessage α → Outcome α
  | .certificate _ id =>
    match self.messages.lookup id with
    | none => ⟨{ self with waitingCertificates := self.waitingCertificates.insert id }, none, []⟩
    | some (message, _) =>
      ⟨{ self with messages := self.messages.erase id }, some message, []⟩
  | .initiate id message =>
    if id.processId ≠ me then
      if id ∈ self.waitingCertificates then
        ⟨{ self with waitingCertificates := self.waitingCertificates.erase id }, some message, []⟩
      else
        ⟨{ self with messages := self.messages.insert id (message, 0) }, none,
          [(sender, .signature id)]⟩
    else ⟨self, none, [(sender, .signature id)]⟩
  | .signature id =>
    match self.messages.lookup id with
    | none => ⟨self, none, []⟩
    | some (message, count) =>
      let self := { self with messages := self.messages.insert id (message, count + 1) }
      if count + 1 = quorumSize self.procNum then
        ⟨self, none, broadcast pool (.certificate self.procNum id)⟩
      else ⟨self, none, []⟩

end ByzantineConsistentBroadcast

end Blsmr
