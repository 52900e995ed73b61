import Oans.BlockGrid
import Oans.ByteProgress
import Oans.CleanDeduped
import Oans.CompareExtents
import Oans.DedupeExtentList
import Oans.DedupeWatermark
import Oans.DupeWork
import Oans.DuplicateBlocks
import Oans.ExactRows
import Oans.ExtentDigests
import Oans.FailedWrites
import Oans.FiemapMap
import Oans.FileCoverage
import Oans.FileDigest
import Oans.FileEnd
import Oans.FilerecLifetime
import Oans.FsProbe
import Oans.Generations
import Oans.GlobMatching
import Oans.HashStore
import Oans.HashTermination
import Oans.HoleRecheck
import Oans.InodeTracking
import Oans.InterruptedScans
import Oans.JsonText
import Oans.LayoutCopy
import Oans.LongPath
import Oans.PhysSet
import Oans.PushResults
import Oans.ResultsRuns
import Oans.ResumeOptions
import Oans.RunConvergence
import Oans.ScanConfig
import Oans.ScanSessions
import Oans.ScanWorkq
import Oans.ScanWriter
import Oans.SeedReach
import Oans.SizeText
import Oans.SlotTables
import Oans.StoredRows
import Oans.ThreadsPool
import Oans.WalkStop
import Oans.WriteUnits
