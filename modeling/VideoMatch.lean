import VideoMatch.Cxx.Loops
import VideoMatch.Cxx.Heap
import VideoMatch.Cxx.Containers
import VideoMatch.Cxx.LinkedList
import VideoMatch.Cxx.Words
import VideoMatch.Cxx.Bits
import VideoMatch.Cxx.Strings
import VideoMatch.Cxx.Search
import VideoMatch.Cxx.Traced
import VideoMatch.Cxx.Format
import VideoMatch.Cxx.Double
import VideoMatch.Cxx.Json
import VideoMatch.Cxx.CImg
import VideoMatch.Cxx.Matrix
import VideoMatch.Machine.Transition
import VideoMatch.Machine.FileSystem
import VideoMatch.Machine.BlockWriter
import VideoMatch.Machine.Recency
import VideoMatch.Machine.Ledger
import VideoMatch.Machine.Meet
import VideoMatch.Machine.LastWins
import VideoMatch.Machine.Service
import VideoMatch.Machine.Message
import VideoMatch.Machine.Cosine
import VideoMatch.Machine.Budget
import VideoMatch.Machine.Moments
import VideoMatch.Server.CheckCandidate
import VideoMatch.Server.CheckCandidateTheorems
import VideoMatch.Server.DiffTheorems
import VideoMatch.Server.MarkingRun
import VideoMatch.Server.MarkTheorems
import VideoMatch.Server.ScoreTheorems
import VideoMatch.Server.OrderTheorems
import VideoMatch.Server.VideoDB
import VideoMatch.Server.Catalogue
import VideoMatch.Server.IndexTheorems
import VideoMatch.Server.StoreTheorems
import VideoMatch.Server.QueryTheorems
import VideoMatch.Server.Reachable
import VideoMatch.Server.SelectionTheorems
import VideoMatch.Server.Calls
import VideoMatch.Server.Storage
import VideoMatch.Server.SaveTheorems
import VideoMatch.Server.LoadTheorems
import VideoMatch.Server.FileVersions
import VideoMatch.Server.Restart
import VideoMatch.Server.ConcurrentQuery
import VideoMatch.Server.ConcurrentSave
import VideoMatch.Server.RequestProcessor
import VideoMatch.Server.RequestTheorems
import VideoMatch.Server.InfoTheorems
import VideoMatch.Server.PlainTheorems
import VideoMatch.Server.ProtocolTheorems
import VideoMatch.Server.OverlapTheorems
import VideoMatch.Server.SimilarityTheorems
import VideoMatch.Server.DoubleScore
import VideoMatch.Server.DoubleTheorems
import VideoMatch.Server.ReferenceTheorems
import VideoMatch.Server.LifeCycle
import VideoMatch.Server.MatchServer
import VideoMatch.Server.MatchServerTheorems
import VideoMatch.Server.ConcurrentRequests
import VideoMatch.Client.Requester
import VideoMatch.Client.RequesterTheorems
import VideoMatch.Client.Main
import VideoMatch.Client.MainTheorems
import VideoMatch.Client.ImageProcessor
import VideoMatch.Client.CropTheorems
import VideoMatch.Client.TransposeTheorems
import VideoMatch.Client.MirrorTheorems
import VideoMatch.Client.ImageHash
import VideoMatch.Client.HashTheorems
import VideoMatch.Client.BrightnessTheorems
import VideoMatch.Browse.VideoManager
import VideoMatch.Browse.CacheTheorems
import VideoMatch.Browse.RecencyTheorems
import VideoMatch.Browse.HttpConnection
import VideoMatch.Browse.ParseTheorems
import VideoMatch.Browse.CutTheorems
import VideoMatch.Browse.AcceptTheorems
import VideoMatch.Browse.ThreadPool
import VideoMatch.Browse.ThreadPoolTheorems
import VideoMatch.Browse.RestTheorems
import VideoMatch.Browse.IsolationTheorems
import VideoMatch.Browse.HttpServer
import VideoMatch.Browse.HttpServerTheorems
import VideoMatch.Browse.Pages
import VideoMatch.Browse.LoadPathTheorems
import VideoMatch.Browse.Links
import VideoMatch.Browse.PageLinks
import VideoMatch.Browse.HandlerTheorems
import VideoMatch.Browse.PagesTheorems
import VideoMatch.Browse.ParamsTheorems
import VideoMatch.Browse.ResponseTheorems
import VideoMatch.Browse.VisitTheorems
