import Blsmr.Broadcast.Crashes
import Blsmr.Broadcast.Equivocation
import Blsmr.Bullshark.Orphans
import Blsmr.Bullshark.Halting
import Blsmr.Bullshark.Panics
import Blsmr.Bullshark.Votes
import Blsmr.Hotstuff.Ancestors
import Blsmr.Hotstuff.Commands
import Blsmr.Hotstuff.Progress
import Blsmr.Log.Conflicts
import Blsmr.Log.Index
import Blsmr.Replica.Faults
import Blsmr.Replica.Partial
import Blsmr.Replica.FastPath
import Blsmr.Replica.Latency
import Blsmr.Replica.Waiting
import Blsmr.Replica.Senders
import Blsmr.Replica.Contacted
import Blsmr.Replica.Decisions
import Blsmr.Replica.RealTime
import Blsmr.Replica.Report
import Blsmr.Replica.StateMachine
import Blsmr.Replica.Termination
import Blsmr.Bullshark.Addable
import Blsmr.Bullshark.Blocked
import Blsmr.Bullshark.FullRounds
import Blsmr.Bullshark.Agreement
import Blsmr.Bullshark.Consistent
import Blsmr.Bullshark.Creation
import Blsmr.Bullshark.Settled
