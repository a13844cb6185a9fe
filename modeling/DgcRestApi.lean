import DgcRestApi.Processor.Apply
import DgcRestApi.Ledger.Defs
import DgcRestApi.Ledger.Step
import DgcRestApi.Ledger.View
import DgcRestApi.Ledger.Refines
import DgcRestApi.Kit.Grown
import DgcRestApi.Ledger.Evolution
import DgcRestApi.Ledger.Growth
import DgcRestApi.Ledger.Integrity
import DgcRestApi.Ledger.Errors
import DgcRestApi.Processor.Replay
import DgcRestApi.Ledger.Reference
import DgcRestApi.Ledger.Attribution
import DgcRestApi.Ledger.RingBuffer
import DgcRestApi.Ledger.Answers
import DgcRestApi.Ledger.Coins
import DgcRestApi.Ledger.Solvency
import DgcRestApi.Ledger.Canonical
import DgcRestApi.Ledger.Iteration
import DgcRestApi.Kit.Versions
import DgcRestApi.LedgerSync.Db
import DgcRestApi.LedgerSync.Delivery
import DgcRestApi.LedgerSync.Fork
import DgcRestApi.LedgerSync.Queue
import DgcRestApi.LedgerSync.Visibility
import DgcRestApi.Server.Matching
import DgcRestApi.Server.Settlement
import DgcRestApi.Ledger.Acceptance
import DgcRestApi.Ledger.Proposing
import DgcRestApi.Ledger.Reporters
import DgcRestApi.Ledger.Revocability
import DgcRestApi.Server.Orders
import DgcRestApi.Ledger.Conflicts
import DgcRestApi.Ledger.Conformity
import DgcRestApi.Kit.Index
import DgcRestApi.Server.Users
import DgcRestApi.Kit.Histories
import DgcRestApi.Ledger.Pages
import DgcRestApi.LedgerSync.Intervals
import DgcRestApi.LedgerSync.ReadBack
import DgcRestApi.LedgerSync.Rollback
import DgcRestApi.LedgerSync.TaskQueue
import DgcRestApi.Server.Symmetry
import DgcRestApi.Server.Creation
import DgcRestApi.Server.Registration
import DgcRestApi.Server.Retrieval
import DgcRestApi.LedgerSync.Addresses
import DgcRestApi.Kit.Sha512
import DgcRestApi.Kit.Local
import DgcRestApi.Kit.Interleaving
import DgcRestApi.Ledger.Persistence
import DgcRestApi.Ledger.Locality
import DgcRestApi.Ledger.Batches
import DgcRestApi.LedgerSync.Subscriber
import DgcRestApi.LedgerSync.Image
import DgcRestApi.LedgerSync.Mirror
import DgcRestApi.LedgerSync.Reflection
import DgcRestApi.Server.Properties
import DgcRestApi.Server.Accounts
import DgcRestApi.Server.Access
import DgcRestApi.Server.Enrolment
import DgcRestApi.Server.Submission
import DgcRestApi.Server.Transfers
import DgcRestApi.Server.Signing
import DgcRestApi.Server.Tables
import DgcRestApi.Server.Queries
import DgcRestApi.Server.Batches
import DgcRestApi.Ledger.Prices
import DgcRestApi.Ledger.Journal
import DgcRestApi.Server.Exchanges
import DgcRestApi.Server.Recording
import DgcRestApi.Server.Market
