import Polyvisor.Lib.Transition
import Polyvisor.Engine.Item
import Polyvisor.Engine.Opaque
import Polyvisor.Engine.Journal
import Polyvisor.Engine.Persistence
import Polyvisor.Engine.Snapshot
import Polyvisor.Kernel.Seal
import Polyvisor.Kernel.Checkpoint
import Polyvisor.Engine.Envelope
import Polyvisor.Kernel.Unseal
import Polyvisor.Engine.SharedFrontier
import Polyvisor.Engine.FirstTouch
import Polyvisor.Engine.ActorSequence
import Polyvisor.Engine.Publication
import Polyvisor.Engine.Durability
import Polyvisor.Engine.PrivateFrontier
import Polyvisor.Engine.Admission
import Polyvisor.Engine.ReadBack
import Polyvisor.Engine.Access
import Polyvisor.Engine.Confinement
import Polyvisor.Engine.OpaqueRegister
import Polyvisor.Engine.Retirement
import Polyvisor.Engine.AuthorityMirror
import Polyvisor.Engine.Connections
import Polyvisor.Engine.Pruning
import Polyvisor.Kernel.Erasure
import Polyvisor.Engine.Readiness
import Polyvisor.Kernel.StoreSync
import Polyvisor.Engine.Founding
import Polyvisor.Kernel.Pairing
import Polyvisor.Kernel.Enrolment
import Polyvisor.Kernel.Ceremonies
import Polyvisor.Kernel.Meeting
import Polyvisor.Kernel.Generations
import Polyvisor.Kernel.Watchers
import Polyvisor.Kernel.DriveOrder
import Polyvisor.Engine.FrontierMinimal
import Polyvisor.Engine.LinearDelivery
import Polyvisor.Kernel.Anchor
import Polyvisor.Lib.Multivalue
import Polyvisor.Contacts.Document
import Polyvisor.Contacts.RootBindings
import Polyvisor.Kernel.Invitations
import Polyvisor.Kernel.RootCustody
import Polyvisor.Kernel.Grants
import Polyvisor.Kernel.Keep
import Polyvisor.Kernel.Destruction
import Polyvisor.Apps.Markdown
import Polyvisor.Engine.Replay
import Polyvisor.Lib.Batch
import Polyvisor.Engine.BatchAtomicity
import Polyvisor.Engine.AuthorityPublication
import Polyvisor.Engine.RawOpening
import Polyvisor.History.Document
import Polyvisor.History.Publish
import Polyvisor.History.Applied
import Polyvisor.Engine.InlineItems
import Polyvisor.Lib.Json
import Polyvisor.Kernel.Adder
import Polyvisor.Lib.Course
import Polyvisor.Kernel.Sas
import Polyvisor.Kernel.Sweep
import Polyvisor.Lib.Protobuf
import Polyvisor.Contacts.Wire
import Polyvisor.Contacts.Signing
import Polyvisor.Contacts.Profiles
import Polyvisor.Contacts.Observations
import Polyvisor.Contacts.Listing
import Polyvisor.Contacts.Adoption
import Polyvisor.Contacts.Merging
import Polyvisor.Contacts.Stopping
import Polyvisor.Visor.Adoption
import Polyvisor.Engine.Catalog
import Polyvisor.Lib.BitGroups
import Polyvisor.Component.Z32
import Polyvisor.Lib.Framing
import Polyvisor.Component.Net
import Polyvisor.Contacts.Identifiers
import Polyvisor.Apps.Selection
import Polyvisor.Apps.Authoring
import Polyvisor.Web.Rpc
import Polyvisor.Engine.Reinstating
import Polyvisor.Engine.SnapshotPaths
import Polyvisor.Engine.SnapshotRuns
import Polyvisor.Lib.Aead
import Polyvisor.Lib.Fields
import Polyvisor.Lib.TextCode
import Polyvisor.Kernel.Route
import Polyvisor.Kernel.RootBackup
import Polyvisor.Lib.Bincode
import Polyvisor.Kernel.InvitationWire
import Polyvisor.Lib.Backlog
import Polyvisor.Web.Worker
import Polyvisor.Web.Delivery
import Polyvisor.Web.Boot
import Polyvisor.Web.Derivation
import Polyvisor.Lib.Replicas
import Polyvisor.Apps.Tasks
import Polyvisor.Apps.TaskReplicas
import Polyvisor.Visor.Links
import Polyvisor.Kernel.Consent
import Polyvisor.Kernel.RootTransfer
import Polyvisor.Kernel.TransferRuns
