import NasTools.Lib.Ancestry
import NasTools.Lib.Canonical
import NasTools.Lib.Drawer
import NasTools.Lib.Fallible
import NasTools.Lib.Folders
import NasTools.Lib.Forest
import NasTools.Lib.Globs
import NasTools.Lib.HashTree
import NasTools.Lib.Judged
import NasTools.Lib.Keepers
import NasTools.Lib.Latest
import NasTools.Lib.Lossy
import NasTools.Lib.Machine
import NasTools.Lib.Marks
import NasTools.Lib.Memo
import NasTools.Lib.MergeTree
import NasTools.Lib.NamedTree
import NasTools.Lib.Names
import NasTools.Lib.Nested
import NasTools.Lib.OrderedMap
import NasTools.Lib.OrderedSet
import NasTools.Lib.Packed
import NasTools.Lib.Paging
import NasTools.Lib.Percent
import NasTools.Lib.Pieces
import NasTools.Lib.Links
import NasTools.Lib.Pipes
import NasTools.Lib.Quorums
import NasTools.Lib.Quoting
import NasTools.Lib.Script
import NasTools.Lib.Spec
import NasTools.Lib.Text
import NasTools.Lib.Thinning
import NasTools.Lib.Utf8
import NasTools.Lib.Words
import NasTools.Model.Cli.Concrete
import NasTools.Model.Cli.Config
import NasTools.Model.Cli.Device
import NasTools.Model.Cli.Face
import NasTools.Model.Cli.Fleet
import NasTools.Model.Cli.GitPush
import NasTools.Model.Cli.Hosted
import NasTools.Model.Cli.Mirror
import NasTools.Model.Cli.Outbox
import NasTools.Model.Cli.Patch
import NasTools.Model.Cli.Pins
import NasTools.Model.Cli.Publish
import NasTools.Model.Cli.Repo
import NasTools.Model.Cli.Rules
import NasTools.Model.Cli.Scene
import NasTools.Model.Cli.Sites
import NasTools.Model.Cli.Staging
import NasTools.Model.Cli.Sync
import NasTools.Model.Core.Checked
import NasTools.Model.Core.Encoding
import NasTools.Model.Core.HexAddr
import NasTools.Model.Crypto.Concrete
import NasTools.Model.Delete.Formats
import NasTools.Model.Gateway.Dav
import NasTools.Model.Gateway.Http
import NasTools.Model.Gateway.S3
import NasTools.Model.Gateway.SigV4
import NasTools.Model.Lease.Formats
import NasTools.Model.Lease.LeaseGC
import NasTools.Model.Lease.Record
import NasTools.Model.Lease.Set
import NasTools.Model.Peer.AclFile
import NasTools.Model.Peer.Disk
import NasTools.Model.Peer.Leases
import NasTools.Model.Peer.Run
import NasTools.Model.Peer.SlotHistory
import NasTools.Model.Peer.Slots
import NasTools.Model.Slots.Formats
import NasTools.Model.Slots.Skip
import NasTools.Model.Store.BlobTree
import NasTools.Model.Store.Blobs
import NasTools.Model.Store.Bucket
import NasTools.Model.Store.Concrete
import NasTools.Model.Store.Doc
import NasTools.Model.Store.DocEdits
import NasTools.Model.Store.DocForest
import NasTools.Model.Store.DocForm
import NasTools.Model.Store.Git
import NasTools.Model.Store.Indexed
import NasTools.Model.Store.Manifest
import NasTools.Model.Store.Object
import NasTools.Model.Store.Objects
import NasTools.Model.Store.Root
import NasTools.Model.Store.Tree
import NasTools.Model.Store.TreeStore
import NasTools.Model.Transfer.Server
import NasTools.Model.Transfer.Session
import NasTools.Model.Vault.Container
import NasTools.Model.Vault.Params
import NasTools.Model.Vault.Wrap
import NasTools.Proofs.Alarms
import NasTools.Proofs.BlobSteps
import NasTools.Proofs.Browsing
import NasTools.Proofs.Buckets
import NasTools.Proofs.Caching
import NasTools.Proofs.Chains
import NasTools.Proofs.Collector
import NasTools.Proofs.Configs
import NasTools.Proofs.Coverage
import NasTools.Proofs.Cuts
import NasTools.Proofs.DeleteQuorum
import NasTools.Proofs.Derivation
import NasTools.Proofs.Documents
import NasTools.Proofs.Drawers
import NasTools.Proofs.DryRuns
import NasTools.Proofs.Enumeration
import NasTools.Proofs.Excludes
import NasTools.Proofs.Face
import NasTools.Proofs.Failures
import NasTools.Proofs.Faithful
import NasTools.Proofs.FastForward
import NasTools.Proofs.Fetching
import NasTools.Proofs.ForkEvidence
import NasTools.Proofs.ForkProofs
import NasTools.Proofs.ForkSearch
import NasTools.Proofs.Frame
import NasTools.Proofs.GitRefs
import NasTools.Proofs.Globs
import NasTools.Proofs.HashLinks
import NasTools.Proofs.Holdings
import NasTools.Proofs.Hrefs
import NasTools.Proofs.Importing
import NasTools.Proofs.Ladders
import NasTools.Proofs.LeaseGC
import NasTools.Proofs.Memory
import NasTools.Proofs.Merging
import NasTools.Proofs.MessageFilter
import NasTools.Proofs.Messages
import NasTools.Proofs.Mirror
import NasTools.Proofs.NewNames
import NasTools.Proofs.Pages
import NasTools.Proofs.PartialReads
import NasTools.Proofs.Patches
import NasTools.Proofs.Pins
import NasTools.Proofs.Plans
import NasTools.Proofs.Publishing
import NasTools.Proofs.Quorum
import NasTools.Proofs.Quota
import NasTools.Proofs.Ranges
import NasTools.Proofs.ReadBack
import NasTools.Proofs.Readers
import NasTools.Proofs.Relay
import NasTools.Proofs.Rendering
import NasTools.Proofs.Renewals
import NasTools.Proofs.Replays
import NasTools.Proofs.Requests
import NasTools.Proofs.Restart
import NasTools.Proofs.Retention
import NasTools.Proofs.Rewriting
import NasTools.Proofs.Roots
import NasTools.Proofs.Rotations
import NasTools.Proofs.Scope
import NasTools.Proofs.SelfCertifying
import NasTools.Proofs.Signatures
import NasTools.Proofs.Signing
import NasTools.Proofs.SlotClient
import NasTools.Proofs.Spellings
import NasTools.Proofs.Staging
import NasTools.Proofs.Strangers
import NasTools.Proofs.Substitution
import NasTools.Proofs.Survival
import NasTools.Proofs.Sweeping
import NasTools.Proofs.Tables
import NasTools.Proofs.Trail
import NasTools.Proofs.Trees
import NasTools.Proofs.Typing
import NasTools.Proofs.Vaults
import NasTools.Proofs.WrapChain
import NasTools.Proofs.Wraps
import NasTools.Lib.Base64
import NasTools.Model.Gateway.Access
import NasTools.Proofs.Access
