import ConfigManager.BatchSave
import ConfigManager.SeenOnce
import ConfigManager.JobHistories
import ConfigManager.OverlappingJobs
import ConfigManager.PendingInput
import ConfigManager.Authorisation
import ConfigManager.OwnerAlone
import ConfigManager.WorkersSurvive
import ConfigManager.Shutdown
import ConfigManager.GeoRateLimiter
import ConfigManager.SourceProgress
import ConfigManager.SourceNames
import ConfigManager.JobCopies
import ConfigManager.ScraperSwitch
import ConfigManager.CleanIp
import ConfigManager.MessageLinks
import ConfigManager.Remarks
import ConfigManager.Subscription
import ConfigManager.ExportText
import ConfigManager.PayloadDialects
import ConfigManager.Ipv6Servers
import ConfigManager.CleanIpOutput
import ConfigManager.CountryFlags
import ConfigManager.ConcurrentBatch
import ConfigManager.CountryLookup
import ConfigManager.ShadowsocksLinks
import ConfigManager.SchemeCase
import ConfigManager.CleanIpRotation
import ConfigManager.SendRetries
import ConfigManager.PerfRanking
import ConfigManager.Migrations
import ConfigManager.SchemaScript
import ConfigManager.SafeName
import ConfigManager.Py.Tokens
import ConfigManager.IpImport
import ConfigManager.SanitizeFilename
import ConfigManager.CacheService
import ConfigManager.MixedSubscriptions
import ConfigManager.Py.TaskPool
import ConfigManager.Py.Retry
import ConfigManager.Py.KeyedRows
import ConfigManager.LinkShapes
import ConfigManager.Provenance
import ConfigManager.Lifetimes
import ConfigManager.PublishLedger
import ConfigManager.Fetching
import ConfigManager.MessageQueue
import ConfigManager.PerfTest
import ConfigManager.WhitePerf
import ConfigManager.CleanIpGeneration
import ConfigManager.CleanIpTable
import ConfigManager.Users
import ConfigManager.UserExports
import ConfigManager.Restarts
