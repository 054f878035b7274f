import Rebuild.Config.Load
import Rebuild.Host.Request
import Rebuild.Disk.Edit
import Rebuild.Service.Scripted
import Rebuild.Service.Sketch
import Rebuild.Proofs.Cache.Reuse
import Rebuild.Proofs.Cache.Changes
import Rebuild.Proofs.Cache.Roots
import Rebuild.Proofs.Host.Events
import Rebuild.Proofs.Host.Failure
import Rebuild.Proofs.Host.Identity
import Rebuild.Proofs.Host.Incremental
import Rebuild.Proofs.Host.Lazy
import Rebuild.Proofs.Host.Missing
import Rebuild.Proofs.Host.Retries
import Rebuild.Proofs.Host.Snapshot
import Rebuild.Proofs.Host.SourceMaps
import Rebuild.Proofs.Disk.Follow
import Rebuild.Proofs.Output.RoundTrip
import Rebuild.Proofs.Output.Sharing
import Rebuild.Proofs.Output.Writes
import Rebuild.Proofs.Output.Views
import Rebuild.Proofs.Path.Editing
import Rebuild.Proofs.Output.Compiled
import Rebuild.Proofs.SourceMap.Found
import Rebuild.Proofs.SourceMap.Lens
import Rebuild.Proofs.Source.Bytes
import Rebuild.Proofs.Diagnostic.Chains
import Rebuild.Proofs.Host.Entries
import Rebuild.Proofs.Config.Resolution
import Rebuild.Proofs.Event.Log
import Rebuild.Proofs.Host.Refusal
import Rebuild.Proofs.Diagnostic.Stored
import Rebuild.Proofs.Diagnostic.Values
