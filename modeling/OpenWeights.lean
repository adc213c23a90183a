import OpenWeights.Lib.Table
import OpenWeights.Lib.Cut
import OpenWeights.Lib.Intervals
import OpenWeights.Lib.FileSystem
import OpenWeights.Lib.Encoding
import OpenWeights.Lib.Text
import OpenWeights.Lib.Prog
import OpenWeights.Lib.Typestate
import OpenWeights.Lib.Fairness
import OpenWeights.Db.Schema
import OpenWeights.Db.Queries
import OpenWeights.Service.Ops
import OpenWeights.Core.ShardParse
import OpenWeights.Core.Xorbs
import OpenWeights.Core.Shards
import OpenWeights.Core.Wire
import OpenWeights.Core.Coalesce
import OpenWeights.Storage.Reconciler
import OpenWeights.Service.Machine
import OpenWeights.Service.PinStates
import OpenWeights.Service.Admission
import OpenWeights.Gateway.MerkleHash
import OpenWeights.Gateway.Cache
import OpenWeights.Core.SignedUrl
import OpenWeights.Core.Reconstruction
import OpenWeights.Gateway.SignedUrl
import OpenWeights.Gateway.Dialects
import OpenWeights.Gateway.Verifiers
import OpenWeights.Gateway.Ranges
import OpenWeights.Gateway.Agreement
import OpenWeights.Lib.Singleflight
import OpenWeights.Gateway.Serving
import OpenWeights.Gateway.Drafts
import OpenWeights.Gateway.Delivery
import OpenWeights.Service.Durability
import OpenWeights.Service.Identity
import OpenWeights.Service.Orphaning
import OpenWeights.Service.Segmentation
import OpenWeights.Service.Recovery
import OpenWeights.Gateway.Fetch
import OpenWeights.Core.RangedQuery
import OpenWeights.Service.ByteRanges
import OpenWeights.Core.XetFiles
import OpenWeights.Service.Download
import OpenWeights.Gateway.Handles
import OpenWeights.Gateway.Lru
import OpenWeights.Gateway.Flights
import OpenWeights.Gateway.Endings
import OpenWeights.Gateway.Writers
import OpenWeights.Gateway.Accounts
import OpenWeights.Gateway.Integrity
import OpenWeights.Gateway.Downloads
import OpenWeights.Gateway.Racing
import OpenWeights.Lib.Liveness
import OpenWeights.Lib.Pipe
import OpenWeights.Gateway.Piping
import OpenWeights.Gateway.Confinement
import OpenWeights.Lib.TokenBucket
import OpenWeights.Lib.Expiring
import OpenWeights.Core.RateLimit
import OpenWeights.Hub.Schema
import OpenWeights.Hub.Commits
import OpenWeights.Hub.Resolve
import OpenWeights.Hub.History
import OpenWeights.Hub.Revisions
import OpenWeights.Hub.Backing
import OpenWeights.Hub.Claimants
import OpenWeights.Hub.Lineage
import OpenWeights.Hub.Auth
import OpenWeights.Lib.Delegation
import OpenWeights.Hub.Exchange
import OpenWeights.Hub.Grants
import OpenWeights.Hub.Revocation
import OpenWeights.Hub.Charging
import OpenWeights.Hub.Viewer
import OpenWeights.Hub.Names
import OpenWeights.Hub.Atomicity
import OpenWeights.Service.Refusal
import OpenWeights.Core.Throttling
import OpenWeights.Gateway.RangeGrammar
import OpenWeights.Gateway.Bounds
import OpenWeights.Lib.Rotation
import OpenWeights.Service.Fairness
import OpenWeights.Gateway.Insertion
import OpenWeights.Gateway.Multipart
import OpenWeights.Core.BatchQuery
import OpenWeights.Core.ShardShape
import OpenWeights.Lib.Hex
import OpenWeights.Gateway.HashHex
import OpenWeights.Hub.HexDecode
import OpenWeights.Core.AdminXorbs
import OpenWeights.Gateway.Metering
import OpenWeights.Bench.Env
import OpenWeights.Gateway.AppKey
import OpenWeights.Lib.Blocks
import OpenWeights.Service.Boundaries
import OpenWeights.Gateway.Direct
import OpenWeights.Gateway.Transparency
