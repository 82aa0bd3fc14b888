import Rkx.AdlistRuns
import Rkx.AesModes
import Rkx.BlockTrace
import Rkx.CryptRuns
import Rkx.DbReports
import Rkx.Directory
import Rkx.EntityKeys
import Rkx.FileOptions
import Rkx.FileRecord
import Rkx.FileTree
import Rkx.HashTail
import Rkx.KxRuns
import Rkx.MidlMerge
import Rkx.MidlSearch
import Rkx.Normalize
import Rkx.RecordStrings
import Rkx.RedisRecords
import Rkx.Register
import Rkx.Screen
import Rkx.Shell
import Rkx.Startup
import Rkx.StoreKey
