import YikvServer.Theory.Interleave
import YikvServer.Index.Store
import YikvServer.Kafka.HandOver
import YikvServer.Kafka.Recovery
import YikvServer.Kafka.TableLife
import YikvServer.Db.TwoWriters
import YikvServer.Registry.Safety
import YikvServer.Registry.Freshness
import YikvServer.Registry.ReloadFailure
import YikvServer.Db.PrimaryKey
import YikvServer.Db.RowCodec
import YikvServer.Db.Decoding
import YikvServer.Db.BatchGet
import YikvServer.Db.SampleCodec
import YikvServer.Db.WireStored
import YikvServer.Import.KeyAgreement
import YikvServer.Import.Progress
import YikvServer.Import.BucketBits
import YikvServer.Import.MysqlWire
import YikvServer.Import.IntegerCells
import YikvServer.Import.ListCells
import YikvServer.Import.Chunks
import YikvServer.Import.MysqlRows
import YikvServer.Import.Leader
import YikvServer.Import.MysqlRun
import YikvServer.Stream.PrefixReplay
import YikvServer.Stream.Commute
import YikvServer.Stream.RowWritten
import YikvServer.Stream.Integers
import YikvServer.Artifact.Delivery
import YikvServer.Artifact.Retention
import YikvServer.Artifact.BuildIds
import YikvServer.Agent.Standing
import YikvServer.Agent.ReleaseWhole
import YikvServer.Agent.Rejected
import YikvServer.Agent.Paths
import YikvServer.Agent.AdminSocket
import YikvServer.Admin.Survival
import YikvServer.Config.ArenaBytes
import YikvServer.Config.StartTime
