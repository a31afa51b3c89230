import Rochallor.Safety.Completion
import Rochallor.Safety.Polling
import Rochallor.Safety.Progress
import Rochallor.Safety.Schedule
import Rochallor.Safety.Branches
import Rochallor.Safety.References
import Rochallor.Safety.Budget
import Rochallor.Safety.Housekeeper
import Rochallor.Safety.Outbox
import Rochallor.Kafka.Consumer
import Rochallor.Kafka.GoRunner
import Rochallor.Kafka.Group
import Rochallor.Safety.Acknowledged
import Rochallor.Safety.Consumers
import Rochallor.Safety.Commits
import Rochallor.Kafka.Deployment
import Rochallor.Safety.Finished
import Rochallor.Safety.Stranded
import Rochallor.Safety.Attempts
import Rochallor.Data.MapOrder
import Rochallor.Safety.Transformations
import Rochallor.Safety.DecisionTables
import Rochallor.Definition.Restored
import Rochallor.Safety.Uploads
import Rochallor.Framework.Keyset
import Rochallor.Monitor.Database
import Rochallor.Monitor.ProcessInstances
import Rochallor.Monitor.Incidents
import Rochallor.Safety.Pages
import Rochallor.Monitor.Overview
import Rochallor.Safety.DrillDown
import Rochallor.Framework.Halting
import Rochallor.Safety.Reasons
import Rochallor.Safety.Termination
import Rochallor.Data.Decoded
import Rochallor.Instance.Variables
import Rochallor.Safety.Mirror
import Rochallor.Framework.Search
import Rochallor.Modeller.Expression
import Rochallor.Modeller.Schema
import Rochallor.Modeller.Validate
import Rochallor.Data.Fields
import Rochallor.Definition.Reading
import Rochallor.Safety.Durations
import Rochallor.Expression.Coercion
import Rochallor.Safety.Numerals
import Rochallor.Safety.HitPolicies
import Rochallor.Safety.Unanimity
import Rochallor.Safety.Collecting
import Rochallor.Data.Range
import Rochallor.Safety.DataErrors
import Rochallor.Framework.Rewriting
import Rochallor.Expression.Preprocess
import Rochallor.Expression.Evaluator
import Rochallor.Safety.Comparisons
import Rochallor.Safety.Environments
import Rochallor.Safety.Literals
import Rochallor.Definition.Reachability
import Rochallor.Definition.Violations
import Rochallor.Safety.Schedulable
import Rochallor.Safety.Unreachable
import Rochallor.Grpc.EngineServer
import Rochallor.Safety.Conversions
import Rochallor.Modeller.Editing
import Rochallor.Modeller.References
import Rochallor.Modeller.Renaming
import Rochallor.Safety.Deleted
import Rochallor.Safety.Renamed
import Rochallor.Framework.Budget
import Rochallor.Monitor.Snapshots
import Rochallor.Safety.Snapshots
import Rochallor.Framework.UrlEncoded
import Rochallor.Monitor.SavedFilters
import Rochallor.Safety.SavedFilters
import Rochallor.Instance.Written
import Rochallor.Data.Carried
import Rochallor.Rest.Instances
import Rochallor.Safety.Carried
import Rochallor.Framework.Recency
import Rochallor.Safety.Cycles
import Rochallor.Expression.Cache
import Rochallor.Safety.ProgramCache
import Rochallor.Definition.Alike
import Rochallor.Modeller.Accepted
import Rochallor.Definition.Shapes
import Rochallor.Safety.Drift
import Rochallor.Safety.Forks
import Rochallor.Safety.Joins
import Rochallor.Framework.Firsts
import Rochallor.Framework.Sweep
import Rochallor.Safety.Chains
import Rochallor.Safety.Sweeps
import Rochallor.Safety.BusinessKeys
import Rochallor.Worker.Runner
import Rochallor.Safety.Leases
import Rochallor.Safety.Runners
import Rochallor.Framework.SessionLock
import Rochallor.Kafka.Election
import Rochallor.Safety.Election
import Rochallor.Monitor.Context
import Rochallor.Safety.Context
import Rochallor.Framework.Worth
import Rochallor.Safety.Workload
import Rochallor.Framework.Endless
import Rochallor.Safety.Ending
import Rochallor.Safety.Queue
import Rochallor.Safety.Trails
import Rochallor.Monitor.Diagram
import Rochallor.Safety.Diagram
import Rochallor.Framework.Numbering
