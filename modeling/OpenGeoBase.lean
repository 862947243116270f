import OpenGeoBase.Lib.Prog
import OpenGeoBase.Lib.Transition
import OpenGeoBase.Lib.Collection
import OpenGeoBase.Lib.Tally
import OpenGeoBase.Lib.Text
import OpenGeoBase.Repo.Naming
import OpenGeoBase.Repo.Json
import OpenGeoBase.Repo.Database
import OpenGeoBase.Repo.Index
import OpenGeoBase.Repo.ShardIndexer
import OpenGeoBase.Repo.GeometryIndex
import OpenGeoBase.Repo.TileHierarchy
import OpenGeoBase.Repo.Rebuild
import OpenGeoBase.Repo.IndexerRun
import OpenGeoBase.Repo.IndexCoverage
import OpenGeoBase.Lib.Polygon
import OpenGeoBase.Repo.GeometryCover
import OpenGeoBase.Repo.BatchRestore
import OpenGeoBase.Repo.IndexUpdate
import OpenGeoBase.Repo.ObjectTiles
import OpenGeoBase.Repo.Tesselation
import OpenGeoBase.Repo.IndexAntichain
import OpenGeoBase.Ndn.Name
import OpenGeoBase.Repo.ObjectStore
import OpenGeoBase.Repo.ReadHandle
import OpenGeoBase.Fes.SegmentFetcher
import OpenGeoBase.Fes.FetchRun
import OpenGeoBase.Fes.RoundTrip
import OpenGeoBase.Fes.PrefixFetch
import OpenGeoBase.Fes.FetchEvents
import OpenGeoBase.Fes.FetchManager
import OpenGeoBase.Repo.VersionUpdates
import OpenGeoBase.Repo.ConcurrentRebuild
import OpenGeoBase.Repo.StoredPacket
import OpenGeoBase.Fes.ContentObject
import OpenGeoBase.Lib.Framing
import OpenGeoBase.Ndn.Tlv
import OpenGeoBase.Repo.BulkInsert
import OpenGeoBase.Repo.RepoStorage
import OpenGeoBase.Repo.DeleteHandle
import OpenGeoBase.Repo.InterestDispatch
import OpenGeoBase.Repo.WriteHandle
import OpenGeoBase.Repo.WriteFlow
import OpenGeoBase.Ndn.JndnName
import OpenGeoBase.Auc.UserController
import OpenGeoBase.Auc.Login
import OpenGeoBase.Fes.ObjectOwner
import OpenGeoBase.Fes.QueryRepoMap
import OpenGeoBase.Fes.Utils
import OpenGeoBase.Fes.RepoIntersect
import OpenGeoBase.Repo.WriteCompletion
import OpenGeoBase.Repo.WatchHandle
import OpenGeoBase.Repo.WatchEffect
import OpenGeoBase.Repo.WatchIsolation
import OpenGeoBase.Repo.InsertAtomic
import OpenGeoBase.Lib.Percent
import OpenGeoBase.Repo.UriDecode
import OpenGeoBase.Fes.QueryReply
import OpenGeoBase.Fes.UpdateRtree
import OpenGeoBase.Lib.Utf8
import OpenGeoBase.Fes.Fragments
import OpenGeoBase.Fes.LastSegment
import OpenGeoBase.Repo.TesselationHalt
import OpenGeoBase.Repo.EraseFrame
import OpenGeoBase.Repo.JsonReader
import OpenGeoBase.Fes.JsonWriter
import OpenGeoBase.Fes.LongInsert
import OpenGeoBase.Repo.Base64Loop
import OpenGeoBase.Fes.TemporalNode
import OpenGeoBase.Fes.TemporalTesseler
import OpenGeoBase.Fes.TemporalUtils
import OpenGeoBase.Fes.TemporalTiles
import OpenGeoBase.Lib.Counting
import OpenGeoBase.Lib.JavaInt
import OpenGeoBase.Repo.SegmentRange
import OpenGeoBase.Fes.RepoMap
import OpenGeoBase.Lib.OrderedSet
import OpenGeoBase.Repo.SelectChild
import OpenGeoBase.Lib.CachedWire
import OpenGeoBase.Ndn.TlvWriter
import OpenGeoBase.Repo.CommandCodec
import OpenGeoBase.Repo.InterestSafety
import OpenGeoBase.Fes.WindowFill
import OpenGeoBase.Repo.Unzip
import OpenGeoBase.Fes.SpatialNode
import OpenGeoBase.Fes.SpatialTesseler
import OpenGeoBase.Fes.SpatialDegrees
import OpenGeoBase.Fes.SpatialBudget
import OpenGeoBase.Fes.SpatialCover
import OpenGeoBase.Fes.SpatialDivision
import OpenGeoBase.Fes.SpatialNames
import OpenGeoBase.Lib.Emits
import OpenGeoBase.Lib.Strtol
import OpenGeoBase.Repo.HttpResponse
import OpenGeoBase.Repo.HttpPump
import OpenGeoBase.Repo.HttpConnection
import OpenGeoBase.Repo.HttpMessage
import OpenGeoBase.Fes.LongTransfer
import OpenGeoBase.Fes.IndexSync
import OpenGeoBase.Lib.Versioned
import OpenGeoBase.Lib.Blocks
import OpenGeoBase.Repo.PutFile
import OpenGeoBase.Repo.GetFile
import OpenGeoBase.Repo.FileTransfer
import OpenGeoBase.Lib.LastUsed
import OpenGeoBase.Repo.InMemoryStorage
