import Pbfhogg.Osc.Simplify
import Pbfhogg.Diff.Replay
import Pbfhogg.Apply.Again
import Pbfhogg.Apply.Publication
import Pbfhogg.Pool.OrderedRuns
import Pbfhogg.Write.PipelineRuns
import Pbfhogg.Pool.StreamRuns
import Pbfhogg.Read.FrameSources
import Pbfhogg.Write.Framing
import Pbfhogg.Renumber.OwnOutput
import Pbfhogg.Check.RefsRuns
import Pbfhogg.Check.VerifyIdsRuns
import Pbfhogg.Write.ParallelGzipRuns
import Pbfhogg.MergeChanges.StreamRuns
import Pbfhogg.Altw.RouterRuns
import Pbfhogg.TagsFilter.Runs
import Pbfhogg.BlobMeta.Watermark
import Pbfhogg.BlobMeta.Tally
import Pbfhogg.BlobMeta.IndexData
import Pbfhogg.BlobMeta.TagIndex
import Pbfhogg.Pool.Completion
import Pbfhogg.Read.PipelineRuns
import Pbfhogg.Getid.WithRefs
import Pbfhogg.Getid.Reencoding
import Pbfhogg.Apply.RefreshDetect
import Pbfhogg.Timestamp
import Pbfhogg.Extract.Passthrough
import Pbfhogg.Osc.Records
import Pbfhogg.Read.DirectReader
import Pbfhogg.Diff.Streaming
import Pbfhogg.Read.ProjectIds
import Pbfhogg.Read.Decompress
import Pbfhogg.TimeFilter.Agreement
import Pbfhogg.Geo.DecimalText
import Pbfhogg.Wire.UserSid
import Pbfhogg.Altw.IdBuckets
import Pbfhogg.Geo.StringPool
