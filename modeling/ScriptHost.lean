import ScriptHost.Session
import ScriptHost.Proofs.Freeze
import ScriptHost.Proofs.Acyclic
import ScriptHost.Proofs.Frames
import ScriptHost.Proofs.Separation
import ScriptHost.Proofs.Schema
import ScriptHost.Proofs.Mutation
import ScriptHost.Proofs.Filling
import ScriptHost.Proofs.Homogeneity
import ScriptHost.Proofs.Overloads
import ScriptHost.Proofs.Integrity
import ScriptHost.Proofs.Sharing
import ScriptHost.Proofs.Clones
import ScriptHost.Proofs.Mangling
import ScriptHost.Proofs.Uncatchable
import ScriptHost.Proofs.Assignment
import ScriptHost.Proofs.Footprints
import ScriptHost.Proofs.Equality
import ScriptHost.Proofs.Atomicity
import ScriptHost.Proofs.StackLimit
import ScriptHost.Proofs.Termination
import ScriptHost.Proofs.Sorting
import ScriptHost.Proofs.Merging
import ScriptHost.Proofs.Searching
import ScriptHost.Proofs.Presence
import ScriptHost.Proofs.Parameters
import ScriptHost.Proofs.HandlerChain
import ScriptHost.Proofs.Loading
import ScriptHost.Proofs.InsertionOrder
import ScriptHost.Proofs.Stepping
import ScriptHost.Proofs.Declaration
import ScriptHost.Proofs.Ranges
import ScriptHost.Proofs.IntegerText
import ScriptHost.Proofs.RealText
import ScriptHost.Proofs.RealRange
import ScriptHost.Proofs.RangePolicies
import ScriptHost.Proofs.Additions
import ScriptHost.Proofs.Draws
import ScriptHost.Proofs.Reachability
import ScriptHost.Proofs.Indexing
import ScriptHost.Proofs.Period
