import ContactDiscovery.Lib.Simd
import ContactDiscovery.Lib.Assoc
import ContactDiscovery.Lib.Bytes
import ContactDiscovery.Lib.Runs
import ContactDiscovery.Lib.Probe
import ContactDiscovery.Lib.Numeral
import ContactDiscovery.Lib.Replay
import ContactDiscovery.Lib.Crypt
import ContactDiscovery.Lib.Ledger
import ContactDiscovery.Lib.Futures
import ContactDiscovery.Enclave.Types
import ContactDiscovery.Enclave.HashLookup
import ContactDiscovery.Enclave.HashChain
import ContactDiscovery.Enclave.HashLookupProofs
import ContactDiscovery.Enclave.DummyLanes
import ContactDiscovery.Enclave.UntrustedSlice
import ContactDiscovery.Enclave.Server
import ContactDiscovery.Enclave.ServerProofs
import ContactDiscovery.Enclave.RequestDecoding
import ContactDiscovery.Enclave.StateLock
import ContactDiscovery.Enclave.PendingRequests
import ContactDiscovery.Enclave.RequestKeys
import ContactDiscovery.Enclave.Sgxsd
import ContactDiscovery.Enclave.SgxsdProofs
import ContactDiscovery.Enclave.Replies
import ContactDiscovery.Enclave.Tags
import ContactDiscovery.Enclave.Nonces
import ContactDiscovery.Directory.InternalBuffers
import ContactDiscovery.Directory.InternalBuffersProofs
import ContactDiscovery.Directory.TableMap
import ContactDiscovery.Directory.TableGrowth
import ContactDiscovery.Directory.ServingBuffers
import ContactDiscovery.Directory.Snapshot
import ContactDiscovery.Directory.DirectoryMap
import ContactDiscovery.Directory.DirectoryCache
import ContactDiscovery.Directory.DirectoryManager
import ContactDiscovery.Directory.Rebuild
import ContactDiscovery.Directory.UserSet
import ContactDiscovery.Directory.Calls
import ContactDiscovery.Directory.Replicas
import ContactDiscovery.Directory.Joining
import ContactDiscovery.Directory.JoiningProofs
import ContactDiscovery.Client.Client
import ContactDiscovery.Client.Agreement
import ContactDiscovery.Service.ServerCall
import ContactDiscovery.Client.EndToEnd
import ContactDiscovery.Service.SgxException
import ContactDiscovery.Service.RequestManager
import ContactDiscovery.Service.Attempts
import ContactDiscovery.Service.Isolation
import ContactDiscovery.Service.Discovery
import ContactDiscovery.Service.Answered
import ContactDiscovery.Service.PendingQueues
import ContactDiscovery.Service.PendingQueuesProofs
import ContactDiscovery.Service.QueuePolicy
import ContactDiscovery.Service.PendingCounters
import ContactDiscovery.Service.Batch
import ContactDiscovery.Service.BatchProofs
import ContactDiscovery.Service.NodeBatch
import ContactDiscovery.Directory.Reconciliation
import ContactDiscovery.Lib.Windows
import ContactDiscovery.Service.RateLimiter
import ContactDiscovery.Service.Handshakes
import ContactDiscovery.Service.HandshakesProofs
import ContactDiscovery.Lib.Intervals
import ContactDiscovery.Service.Partitioner
import ContactDiscovery.Directory.JniStreams
import ContactDiscovery.Directory.SnapshotReads
import ContactDiscovery.Service.BucketRefill
import ContactDiscovery.Lib.Split
import ContactDiscovery.Service.AuthorizationToken
import ContactDiscovery.Service.FirstNormal
import ContactDiscovery.Directory.DirectoryQueueManager
import ContactDiscovery.Enclave.Curve25519
import ContactDiscovery.Enclave.Curve25519Codec
import ContactDiscovery.Enclave.Curve25519Proofs
import ContactDiscovery.Enclave.Sha256
import ContactDiscovery.Enclave.Sha256Proofs
import ContactDiscovery.Client.NodeAgreement
import ContactDiscovery.Service.NodeHandshakes
import ContactDiscovery.Enclave.AesGcm
import ContactDiscovery.Enclave.Locks
import ContactDiscovery.Enclave.Fingerprint
