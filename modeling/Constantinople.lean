import Constantinople.Lib.Word
import Constantinople.Lib.Assoc
import Constantinople.Lib.Keyed
import Constantinople.Lib.Codec
import Constantinople.Lib.Base64
import Constantinople.Lib.Der
import Constantinople.Lib.Varint
import Constantinople.Lib.Run
import Constantinople.Lib.Balance
import Constantinople.Lib.Strategy
import Constantinople.Lib.Watermark
import Constantinople.Lib.Window
import Constantinople.Lib.Keyset
import Constantinople.Lib.Recent
import Constantinople.Primitives.Account
import Constantinople.Primitives.Nonce
import Constantinople.Primitives.Auth
import Constantinople.Primitives.Transaction
import Constantinople.Primitives.Signed
import Constantinople.Primitives.Verification
import Constantinople.Primitives.Webauthn
import Constantinople.Primitives.Block
import Constantinople.Primitives.Wire
import Constantinople.Executor.Basic
import Constantinople.Executor.Ledger
import Constantinople.Executor.Refinement
import Constantinople.Executor.Safety
import Constantinople.Executor.Order
import Constantinople.Executor.Agreement
import Constantinople.Consensus.Execution
import Constantinople.Consensus.Lifecycle
import Constantinople.Consensus.Authorization
import Constantinople.Consensus.Binding
import Constantinople.Consensus.Proposal
import Constantinople.Consensus.History
import Constantinople.Mempool.Actor
import Constantinople.Mempool.Tables
import Constantinople.Mempool.Settling
import Constantinople.Mempool.Http
import Constantinople.Mempool.Handlers
import Constantinople.Mempool.Drops
import Constantinople.Mempool.Pool
import Constantinople.Mempool.Waiters
import Constantinople.Mempool.Ingest
import Constantinople.Mempool.Fifo
import Constantinople.Mempool.Reports
import Constantinople.Mempool.Outcomes
import Constantinople.Indexer.Rows
import Constantinople.Indexer.Upload
import Constantinople.Indexer.Log
import Constantinople.Indexer.Rebuild
import Constantinople.Indexer.Queue
import Constantinople.Indexer.Client
import Constantinople.Indexer.Certificate
import Constantinople.Indexer.Reconnect
import Constantinople.Indexer.Committer
import Constantinople.Indexer.Latest
import Constantinople.Indexer.Publishing
import Constantinople.Indexer.Layout
import Constantinople.Validator.Producer
import Constantinople.Validator.Frontier
import Constantinople.Validator.Redelivery
import Constantinople.Validator.Recovery
import Constantinople.Indexer.Watermarks
import Constantinople.Indexer.Completion
import Constantinople.Validator.Pruning
import Constantinople.Validator.Capture
import Constantinople.Validator.Indexing
import Constantinople.Validator.Connection
import Constantinople.Validator.Durability
import Constantinople.Validator.Relayer
import Constantinople.Validator.Answers
import Constantinople.Mempool.Results
import Constantinople.Validator.Gateway
import Constantinople.Validator.Finality
import Constantinople.Validator.Acceptance
import Constantinople.Spammer.Signer
import Constantinople.Spammer.Rounds
import Constantinople.Explorer.Nonce
import Constantinople.Explorer.Merge
import Constantinople.Explorer.Wallet
import Constantinople.Explorer.Codec
import Constantinople.Explorer.Batch
import Constantinople.Explorer.Header
import Constantinople.Explorer.Signature
import Constantinople.Explorer.Activity
import Constantinople.Explorer.Pages
import Constantinople.Explorer.Proofs
import Constantinople.Explorer.LightClient
import Constantinople.Explorer.AccountProofs
import Constantinople.Explorer.Availability
import Constantinople.Explorer.BlockSequence
import Constantinople.Lib.Double
import Constantinople.Lib.Newest
import Constantinople.Lib.Resume
import Constantinople.Explorer.Feed
import Constantinople.Explorer.Live
import Constantinople.Lib.Percent
import Constantinople.Explorer.History
import Constantinople.Explorer.Session
import Constantinople.Explorer.Progress
