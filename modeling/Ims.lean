import Ims.Library.Runs
import Ims.Library.Text
import Ims.Time
import Ims.Models
import Ims.RcaValidator
import Ims.States
import Ims.Library.Tables
import Ims.Library.SortedSet
import Ims.Alerting
import Ims.Retry
import Ims.Mongo
import Ims.RedisCache
import Ims.PostgresRepo
import Ims.Ingestion
import Ims.Workers
import Ims.IncidentsApi
import Ims.Service
import Ims.WorkerSteps
import Ims.ApiSteps
import Ims.ServiceSteps
import Ims.Library.Slots
import Ims.WorkerMoves
import Ims.WorkerFrames
import Ims.Rows
import Ims.Integrity
import Ims.Effects
import Ims.Retries
import Ims.CrossStore
import Ims.IngestSteps
import Ims.SignalCounts
import Ims.DedupWindows
import Ims.Delivery
import Ims.Failures
import Ims.LifeCycle
import Ims.Requests
import Ims.RcaGate
import Ims.Closing
import Ims.ClosedItems
import Ims.QueueConservation
import Ims.RequestMoves
import Ims.LiveFeed
import Ims.Components
import Ims.Announcements
import Ims.RcaSubmission
import Ims.SubmissionRaces
import Ims.SerialRequests
import Ims.ClosedFeed
import Ims.Library.Retrying
import Ims.RetryLoops
import Ims.ComponentIds
import Ims.DedupOwners
import Ims.MetricBuckets
import Ims.Mttr
import Ims.DebouncedItems
import Ims.Library.Expiry
import Ims.Placeholders
import Ims.Throughput
import Ims.Library.TopRows
import Ims.Reads
import Ims.Restarts
import Ims.Tickets
import Ims.Timeline
import Ims.Alerts
import Ims.Backoff
import Ims.Answers
