import PhaseLock.SyncPromises
import PhaseLock.Erasure
import PhaseLock.Answers
import PhaseLock.ScanPromises
import PhaseLock.ScansAgree
import PhaseLock.KeyPromises
import PhaseLock.SubmitPromises
import PhaseLock.Selectors
import PhaseLock.CodecPromises
import PhaseLock.Accounting
import PhaseLock.ReadSets
import PhaseLock.Expectations
import PhaseLock.Snapshots
import PhaseLock.EditPages
import PhaseLock.KeyList
import PhaseLock.Limiter
import PhaseLock.CronParses
import PhaseLock.NextSlots
import PhaseLock.CronPromises
import PhaseLock.Chunking
import PhaseLock.HolePromises
import PhaseLock.ParsedPrefixes
import PhaseLock.ChecksumPromises
import PhaseLock.BufferGroups
import PhaseLock.Entering
import PhaseLock.Journal
import PhaseLock.Outboxes
import PhaseLock.Predictions
import PhaseLock.Overlays
import PhaseLock.Promises
import PhaseLock.Settlements
import PhaseLock.Replies
import PhaseLock.SendOrder
import PhaseLock.Replays
import PhaseLock.Origins
import PhaseLock.Advances
import PhaseLock.Requests
import PhaseLock.Histories
import PhaseLock.Exchange
import PhaseLock.Decisions
import PhaseLock.Handovers
import PhaseLock.Decided
import PhaseLock.Readers
import PhaseLock.Queries
import PhaseLock.OverlayScans
import PhaseLock.BatchedWalks
import PhaseLock.QueryReads
import PhaseLock.QueryRuns
import PhaseLock.QueryGraph
import PhaseLock.Watching
import PhaseLock.FreshQueries
import PhaseLock.BlobReads
import PhaseLock.TextBuffers
