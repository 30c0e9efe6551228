import Foros.Cluster.Proof.Agreement
import Foros.Raft.Proof.Elections
import Foros.Raft.Proof.Mirror
import Foros.Raft.Proof.Promises
import Foros.Raft.Proof.Reentry
import Foros.Raft.Proof.Solo
import Foros.Raft.Proof.DurableVotes
import Foros.Raft.Proof.StoreFaults
import Foros.Raft.Proof.Responses
import Foros.Inspector.Clusters
import Foros.Inspector.Proof.Pass
import Foros.Inspector.Proof.Leaders
import Foros.Cluster.Proof.Terms
import Foros.Cluster.Proof.Validity
import Foros.Cluster.Proof.Live
import Foros.Lib.Reach
import Foros.Cluster.Proof.Electable
import Foros.Cluster.Proof.Stability
import Foros.Cluster.Proof.Durability
import Foros.Cluster.Ledger
import Foros.Cluster.Proof.Purpose
import Foros.Inspector.Monitor
import Foros.Inspector.Proof.Monitor
import Foros.Cluster.Proof.Traffic
import Foros.Cluster.Proof.Activation
import Foros.Cluster.Proof.Repair
import Foros.Cluster.Proof.Progress
import Foros.Cluster.Gates
import Foros.Cluster.Proof.Gates
import Foros.Cluster.Proof.Users
