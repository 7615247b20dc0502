import MySQL.Innobase.Lock.Safety
import MySQL.Innobase.Page.Runs
import MySQL.Innobase.PurgeSafety
import MySQL.Mdl.AcquireLocks
import MySQL.Mdl.FindDeadlock
import MySQL.Mdl.MapSafety
import MySQL.Mdl.WakeUp
import MySQL.Myisam.RowPackRoundTrip
import MySQL.Mysys.Base64
import MySQL.Mysys.Bitmap
import MySQL.Mysys.HashSafety
import MySQL.Semisync.BinlogOrder
import MySQL.Semisync.MasterWakeUp
import MySQL.Sql.EventDrop
import MySQL.Sql.EventTime
import MySQL.Sql.Item.IntOpMul
import MySQL.Sql.NetServ.RoundTrip
import MySQL.Sql.OptRange
import MySQL.Sql.Partition.ColumnsPruning
import MySQL.Sql.Partition.LinearHash
import MySQL.Sql.Partition.ToDays
import MySQL.Sql.Partition.WalkingSound
import MySQL.Sql.QueryCache.Results
import MySQL.Sql.QueryCache.TableNames
import MySQL.Sql.Rpl.RowImageRoundTrip
import MySQL.Sql.Sp.OptimizePreserves
import MySQL.Sql.TcLog.Pages
import MySQL.Sql.TcLog.Roles
import MySQL.Sql.Time.NumberToDatetime
import MySQL.Sql.Time.Week
import MySQL.Strings.DecimalCompare
import MySQL.Strings.DecimalRoundTrip
import MySQL.Strings.LikeRange
import MySQL.Strings.Strtoll10
