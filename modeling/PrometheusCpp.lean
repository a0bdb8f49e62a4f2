import PrometheusCpp.Lib.BinarySearch
import PrometheusCpp.Lib.BucketRing
import PrometheusCpp.Lib.ByteString
import PrometheusCpp.Lib.CheckedInt
import PrometheusCpp.Lib.Decimal
import PrometheusCpp.Lib.DecimalReading
import PrometheusCpp.Lib.DotSegments
import PrometheusCpp.Lib.ExactDouble
import PrometheusCpp.Lib.HttpMessage
import PrometheusCpp.Lib.Ledger
import PrometheusCpp.Lib.Linearization
import PrometheusCpp.Lib.LockOrder
import PrometheusCpp.Lib.LockedObject
import PrometheusCpp.Lib.OStream
import PrometheusCpp.Lib.RelatedLists
import PrometheusCpp.Lib.Settling
import PrometheusCpp.Lib.Sextets
import PrometheusCpp.Lib.TaskRuns
import PrometheusCpp.Lib.UnorderedMap
import PrometheusCpp.Lib.WeakList
import PrometheusCpp.Lib.WeightedList
import PrometheusCpp.Core.CkmsAccuracy
import PrometheusCpp.Core.CkmsBudget
import PrometheusCpp.Core.CkmsChecked
import PrometheusCpp.Core.CkmsIntRange
import PrometheusCpp.Core.CkmsInvariant
import PrometheusCpp.Core.CkmsPasses
import PrometheusCpp.Core.CkmsQuantiles
import PrometheusCpp.Core.CkmsRanks
import PrometheusCpp.Core.CkmsRepresentation
import PrometheusCpp.Core.CkmsSelection
import PrometheusCpp.Core.CkmsTolerance
import PrometheusCpp.Core.CkmsWeights
import PrometheusCpp.Core.ClientMetric
import PrometheusCpp.Core.Exposition
import PrometheusCpp.Core.ExpositionReader
import PrometheusCpp.Core.Family
import PrometheusCpp.Core.FamilyContract
import PrometheusCpp.Core.GaugeThreads
import PrometheusCpp.Core.HeadReading
import PrometheusCpp.Core.Histogram
import PrometheusCpp.Core.HistogramBatches
import PrometheusCpp.Core.HistogramCounts
import PrometheusCpp.Core.HistogramExposition
import PrometheusCpp.Core.HistogramThreads
import PrometheusCpp.Core.LineStructure
import PrometheusCpp.Core.Metric
import PrometheusCpp.Core.Names
import PrometheusCpp.Core.NumberTexts
import PrometheusCpp.Core.Registry
import PrometheusCpp.Core.RegistryInvariant
import PrometheusCpp.Core.SampleReader
import PrometheusCpp.Core.ScrapeAlone
import PrometheusCpp.Core.ScrapeOrder
import PrometheusCpp.Core.ScrapeReports
import PrometheusCpp.Core.ScrapeThreads
import PrometheusCpp.Core.ScrapeTotals
import PrometheusCpp.Core.StoredObjects
import PrometheusCpp.Core.StreamSerializer
import PrometheusCpp.Core.Summary
import PrometheusCpp.Core.SummaryCollect
import PrometheusCpp.Core.SummaryRotation
import PrometheusCpp.Core.SummaryRuns
import PrometheusCpp.Core.SummaryThreads
import PrometheusCpp.Core.SummaryWindow
import PrometheusCpp.Core.TextSerializer
import PrometheusCpp.Core.TimeSeries
import PrometheusCpp.Core.TimeWindowContents
import PrometheusCpp.Core.TimeWindowQuantiles
import PrometheusCpp.Core.TypeHeaders
import PrometheusCpp.Util.Base64
import PrometheusCpp.Util.Base64Accepts
import PrometheusCpp.Util.Base64Decode
import PrometheusCpp.Push.CurlWrapper
import PrometheusCpp.Push.DotLabels
import PrometheusCpp.Push.Gateway
import PrometheusCpp.Push.GatewayRuns
import PrometheusCpp.Push.GroupingKey
import PrometheusCpp.Push.Requests
import PrometheusCpp.Push.SetupAdapter
import PrometheusCpp.Pull.BasicAuth
import PrometheusCpp.Pull.Exposer
import PrometheusCpp.Pull.OwnMetrics
import PrometheusCpp.Pull.Requests
import PrometheusCpp.Pull.Responses
import PrometheusCpp.Pull.Unauthorized
import PrometheusCpp.Locks
