import CodexMemory.Admin.Listing
import CodexMemory.Append.Distinct
import CodexMemory.Append.ExactlyOnce
import CodexMemory.Append.Invariant
import CodexMemory.Append.Model
import CodexMemory.Auth
import CodexMemory.ByteLimits
import CodexMemory.Candidates.Citations
import CodexMemory.Candidates.Duplicates
import CodexMemory.Candidates.Effects
import CodexMemory.Candidates.Extraction
import CodexMemory.Candidates.Gate
import CodexMemory.Candidates.Lifecycle
import CodexMemory.Candidates.Model
import CodexMemory.Candidates.Provenance
import CodexMemory.Candidates.Rows
import CodexMemory.Candidates.Transactions
import CodexMemory.Candidates.Twins
import CodexMemory.CodexCli.Auth
import CodexMemory.CodexCli.DailyBudget
import CodexMemory.CodexCli.Documents
import CodexMemory.CodexCli.OutputQuota
import CodexMemory.Contracts.Effects
import CodexMemory.Contracts.Identity
import CodexMemory.Contracts.Publication
import CodexMemory.Contracts.Revisions
import CodexMemory.Counts
import CodexMemory.Covering
import CodexMemory.CoveringMasks
import CodexMemory.Decisions.Contract
import CodexMemory.Decisions.EndToEnd
import CodexMemory.Decisions.Execute
import CodexMemory.Decisions.Gates
import CodexMemory.Decisions.HandOver
import CodexMemory.Decisions.Jobs
import CodexMemory.Decisions.Model
import CodexMemory.Decisions.Quotation
import CodexMemory.Decisions.Runs
import CodexMemory.Decisions.Veto
import CodexMemory.Erasing
import CodexMemory.Hooks.Bytes
import CodexMemory.Hooks.ChangeManifest
import CodexMemory.Hooks.Completeness
import CodexMemory.Hooks.Events
import CodexMemory.Hooks.GitOutput
import CodexMemory.Hooks.Manifest
import CodexMemory.Hooks.Redaction
import CodexMemory.Html
import CodexMemory.Idempotency
import CodexMemory.Import.Accounting
import CodexMemory.Import.Cancellation
import CodexMemory.Import.Concurrent
import CodexMemory.Import.Counters
import CodexMemory.Import.Disclosure
import CodexMemory.Import.Effects
import CodexMemory.Import.Extraction
import CodexMemory.Import.Items
import CodexMemory.Import.JsonLines
import CodexMemory.Import.Model
import CodexMemory.Import.Offsets
import CodexMemory.Import.Parse
import CodexMemory.Import.Rollback
import CodexMemory.Import.Security
import CodexMemory.Import.Storage
import CodexMemory.Import.Stranded
import CodexMemory.Import.Upload
import CodexMemory.Json.Decode
import CodexMemory.Json.Equal
import CodexMemory.Json.Grammar
import CodexMemory.Json.Parse
import CodexMemory.Json.Schema
import CodexMemory.Json.Sorted
import CodexMemory.Json.Strings
import CodexMemory.Json.Value
import CodexMemory.Layout
import CodexMemory.Like
import CodexMemory.Lines
import CodexMemory.Masking
import CodexMemory.Memories.Groups
import CodexMemory.Memories.Knowledge
import CodexMemory.Memories.Model
import CodexMemory.Memories.Reflection
import CodexMemory.Memories.Scopes
import CodexMemory.OpenApi.Accepted
import CodexMemory.OpenApi.Complete
import CodexMemory.OpenApi.Document
import CodexMemory.OpenApi.Hash
import CodexMemory.OpenApi.Images
import CodexMemory.OpenApi.Index
import CodexMemory.OpenApi.Meaning
import CodexMemory.OpenApi.Modes
import CodexMemory.OpenApi.NormalForm
import CodexMemory.OpenApi.Normalize
import CodexMemory.OpenApi.Operations
import CodexMemory.OpenApi.Parse
import CodexMemory.OpenApi.Pointers
import CodexMemory.OpenApi.References
import CodexMemory.OpenApi.Reported
import CodexMemory.OpenApi.Resolution
import CodexMemory.OpenApi.Stops
import CodexMemory.Outbox.Codec
import CodexMemory.Outbox.Crash
import CodexMemory.Outbox.Effects
import CodexMemory.Outbox.Fidelity
import CodexMemory.Outbox.Model
import CodexMemory.Outbox.NoLoss
import CodexMemory.Packing
import CodexMemory.Providers.Budget
import CodexMemory.Raises
import CodexMemory.Regex
import CodexMemory.Replacing
import CodexMemory.Retrieval.Budget
import CodexMemory.Retrieval.Fallback
import CodexMemory.Retrieval.Isolation
import CodexMemory.Retrieval.Model
import CodexMemory.Retrieval.Profiles
import CodexMemory.Retrieval.Ranking
import CodexMemory.Sorting
import CodexMemory.Table
import CodexMemory.Tasks.Admission
import CodexMemory.Tasks.Effects
import CodexMemory.Tasks.Evidence
import CodexMemory.Tasks.Fitting
import CodexMemory.Tasks.Model
import CodexMemory.Tasks.Orders
import CodexMemory.Tasks.Projector
import CodexMemory.Tasks.Races
import CodexMemory.Tasks.Redacted
import CodexMemory.Tasks.Submitted
import CodexMemory.Text
import CodexMemory.Trace
import CodexMemory.Tracing
import CodexMemory.Utf8
import CodexMemory.Versions
import CodexMemory.Web.Markdown
import CodexMemory.Worker.Attempts
import CodexMemory.Worker.Effects
import CodexMemory.Worker.EventAgreement
import CodexMemory.Worker.Fencing
import CodexMemory.Worker.Leases
import CodexMemory.Worker.Model
import CodexMemory.Worker.Moves
import CodexMemory.Worker.Operations
import CodexMemory.Worker.ProcessOnce
import CodexMemory.Worker.Story
import CodexMemory.Worker.Transactions
import CodexMemory.Worker.Work
import CodexMemory.WriteBack
