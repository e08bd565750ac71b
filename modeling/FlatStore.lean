import FlatStore.Main
import FlatStore.Proofs.Absence
import FlatStore.Proofs.AddressText
import FlatStore.Proofs.Backing
import FlatStore.Proofs.Bounded
import FlatStore.Proofs.Choice
import FlatStore.Proofs.Computed
import FlatStore.Proofs.Concatenation
import FlatStore.Proofs.Content
import FlatStore.Proofs.Counts
import FlatStore.Proofs.Decoding
import FlatStore.Proofs.Dispatch
import FlatStore.Proofs.Elements
import FlatStore.Proofs.Encoding
import FlatStore.Proofs.Fit
import FlatStore.Proofs.Former
import FlatStore.Proofs.Found
import FlatStore.Proofs.Gates
import FlatStore.Proofs.JsonForm
import FlatStore.Proofs.Levels
import FlatStore.Proofs.Listing
import FlatStore.Proofs.Merged
import FlatStore.Proofs.Nesting
import FlatStore.Proofs.Others
import FlatStore.Proofs.Placed
import FlatStore.Proofs.Promotion
import FlatStore.Proofs.Rearranged
import FlatStore.Proofs.Reload
import FlatStore.Proofs.Reordered
import FlatStore.Proofs.Reports
import FlatStore.Proofs.Resolved
import FlatStore.Proofs.Rules
import FlatStore.Proofs.Sequential
import FlatStore.Proofs.Setups
import FlatStore.Proofs.SharedBase
import FlatStore.Proofs.Splicing
import FlatStore.Proofs.Stable
import FlatStore.Proofs.Tags
import FlatStore.Proofs.Tree
import FlatStore.Record.Project
import FlatStore.Record.Unbounded
import FlatStore.Remote
import FlatStore.RoundTrip
import FlatStore.Schema.Decode
import FlatStore.Schema.Json
import FlatStore.Setup.Gates
import FlatStore.Store.Decode
import FlatStore.Store.Lemmas
