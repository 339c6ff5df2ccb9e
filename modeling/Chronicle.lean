import Chronicle.Analysis
import Chronicle.History.Rates
import Chronicle.History.Scan
import Chronicle.History.Summary
import Chronicle.Namespace.Pattern
import Chronicle.Proofs.CallingOff
import Chronicle.Proofs.History.Equivalence
import Chronicle.Proofs.History.Refusal
import Chronicle.Proofs.History.Snapshot
import Chronicle.Proofs.Replay
import Chronicle.Proofs.Interchange
import Chronicle.Proofs.Tree.Refinement
import Chronicle.Proofs.Tree.Depth
import Chronicle.Proofs.Codec.Checksum
import Chronicle.Proofs.Tree.Sturdiness
import Chronicle.Proofs.Codec.Damage
import Chronicle.Proofs.Tree.Damage
import Chronicle.Proofs.Tree.Seeking
import Chronicle.Proofs.History.Lifecycle
import Chronicle.Proofs.Codec.Rereading
import Chronicle.Proofs.Tree.Circling
import Chronicle.Proofs.Tree.Doubles
import Chronicle.Proofs.Tree.Failing
import Chronicle.Proofs.Tree.Roominess
import Chronicle.Proofs.Backend.Reliability
import Chronicle.Proofs.Store.Reliability
import Chronicle.Proofs.Recording.Resuming
import Chronicle.Proofs.Codec.Register
import Chronicle.Proofs.History.Removal
import Chronicle.Proofs.History.Stacks
import Chronicle.Proofs.Timing
import Chronicle.Proofs.History.Buckets
import Chronicle.Proofs.History.Tallying
import Chronicle.Proofs.History.Finding
import Chronicle.Proofs.History.Sampling
import Chronicle.Proofs.Tree.Caching
import Chronicle.Proofs.History.Bordering
import Chronicle.Proofs.History.Commuting
import Chronicle.Proofs.Analysis
