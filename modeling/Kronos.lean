import Kronos.AuditTamper
import Kronos.CatchUp
import Kronos.ScheduleCrash
import Kronos.ScheduleEdits
import Kronos.PipelineRepeat
import Kronos.ChainRestore
import Kronos.GarbageRace
import Kronos.JobHandOut
import Kronos.ActiveJobs
import Kronos.JobSuccess
import Kronos.LostAgents
import Kronos.TokenScopes
import Kronos.Bootstrap
import Kronos.AuditActor
import Kronos.StorageSecrets
import Kronos.PagerRuns
import Kronos.BTreePages
import Kronos.NodePages
import Kronos.BucketScan
import Kronos.ChunkCover
import Kronos.RedisClient
import Kronos.MysqlDump
import Kronos.KeySlots
import Kronos.PipelineIndex
import Kronos.JobQueue
import Kronos.RetentionStop
import Kronos.CronParse
import Kronos.ScheduleOutage
import Kronos.SigV4
import Kronos.RateLimiter
import Kronos.S3Race
import Kronos.WindowClock
import Kronos.MysqlWire
import Kronos.MongoReplay
import Kronos.RespMemory
import Kronos.Bson
import Kronos.PgSplit
import Kronos.Bloom
