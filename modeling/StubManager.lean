import StubManager.Main
import StubManager.Proofs.Artifact.Comments
import StubManager.Proofs.Artifact.Json
import StubManager.Proofs.Artifact.LineEnds
import StubManager.Proofs.Artifact.Nesting
import StubManager.Proofs.Artifact.Origin
import StubManager.Proofs.Artifact.Reapplication
import StubManager.Proofs.Artifact.RoundTrip
import StubManager.Proofs.Artifact.Style
import StubManager.Proofs.Device.Board
import StubManager.Proofs.Device.Closing
import StubManager.Proofs.Device.Complaint
import StubManager.Proofs.Digest.Pinning
import StubManager.Proofs.FileTree.Overlooking
import StubManager.Proofs.Installation.Conversing
import StubManager.Proofs.Installation.Drift
import StubManager.Proofs.Installation.Enlisting
import StubManager.Proofs.Installation.Fidelity
import StubManager.Proofs.Installation.Opening
import StubManager.Proofs.Installation.Planning
import StubManager.Proofs.Installation.Renaming
import StubManager.Proofs.Installation.Repetition
import StubManager.Proofs.Installation.Scripts
import StubManager.Proofs.Installation.Seclusion
import StubManager.Proofs.Installation.Separation
import StubManager.Proofs.ListText.Leftmost
import StubManager.Proofs.Listing
import StubManager.Proofs.Offset.Completion
import StubManager.Proofs.Registry.Children
import StubManager.Proofs.Registry.Index
import StubManager.Proofs.Registry.Restaging
import StubManager.Proofs.Registry.Sources
import StubManager.Proofs.Registry.Verifying
import StubManager.Proofs.Transaction.Snapshots
