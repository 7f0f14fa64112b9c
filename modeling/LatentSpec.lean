import LatentSpec.Coins
import LatentSpec.Categorical
import LatentSpec.ChainLaw
import LatentSpec.ChainRun
import LatentSpec.DrawLaw
import LatentSpec.LeadingRun
import LatentSpec.RankSelection
import LatentSpec.ByteLayout
import LatentSpec.FileMoves
import LatentSpec.StreamSegments
import LatentSpec.TiledSearch
import LatentSpec.BlockSearch
import LatentSpec.TiledStores
import LatentSpec.Histograms
import LatentSpec.ConfidenceMetrics
import LatentSpec.WhileLoop
import LatentSpec.Sampling
import LatentSpec.Verify
import LatentSpec.Decoding
import LatentSpec.GreedyDecoding
import LatentSpec.DecodingStatistics
import LatentSpec.ResponseMetrics
import LatentSpec.MyspecProposal
import LatentSpec.DraftControlInbox
import LatentSpec.OrderedDict
import LatentSpec.PageForest
import LatentSpec.RadixCache
import LatentSpec.PrefillDelayer
import LatentSpec.PrefixSearch
import LatentSpec.BlockLaw
import LatentSpec.RadixKey
import LatentSpec.RadixTree
import LatentSpec.RadixRun
import LatentSpec.RadixMap
import LatentSpec.RadixAccounts
import LatentSpec.RadixDescent
import LatentSpec.RejectSampling
import LatentSpec.RejectSamplingLaw
import LatentSpec.DflashAccept
import LatentSpec.LatentspecSampler
import LatentSpec.DsparkAccept
import LatentSpec.DsparkAcceptLaw
import LatentSpec.DsparkEpilogue
import LatentSpec.DsparkSchedule
import LatentSpec.DsparkTopk
import LatentSpec.SortedSearch
import LatentSpec.DsparkSps
import LatentSpec.DsparkBudget
import LatentSpec.CacheLocs
import LatentSpec.CompactDraftCache
import LatentSpec.CudaPrefetcher
import LatentSpec.MambaTracking
import LatentSpec.MarkovHeads
import LatentSpec.DflashPrepareBlock
import LatentSpec.DsparkVerifyWindow
import LatentSpec.RaggedVerifyPadding
import LatentSpec.DsparkEpilogueRun
import LatentSpec.DsparkScheduleKernel
import LatentSpec.DsparkPlanner
import LatentSpec.ConfidenceRelay
import LatentSpec.GrammarMask
import LatentSpec.Softmax
import LatentSpec.RenormRows
import LatentSpec.LogitsRejectSampling
import LatentSpec.VerifyTargetProbs
import LatentSpec.SparseTargetProbs
import LatentSpec.DraftTemperature
import LatentSpec.MixedBatch
import LatentSpec.AllocSizing
import LatentSpec.AnchorSampling
import LatentSpec.ResumableSampler
import LatentSpec.TrainerStream
import LatentSpec.TargetCacheWriter
import LatentSpec.TargetCacheMerge
import LatentSpec.MergedTargetCache
import LatentSpec.TargetCacheDataset
import LatentSpec.AsyncCacheWriter
import LatentSpec.GenerateTrainData
import LatentSpec.GenerateTrainResume
import LatentSpec.DraftBlock
import LatentSpec.TrainingLabels
import LatentSpec.TrainingMask
import LatentSpec.FlopsAccounting
import LatentSpec.DecodingCache
import LatentSpec.JsonlDataset
import LatentSpec.LatentServing
import LatentSpec.LatentServingRun
import LatentSpec.Eagle3Draft
import LatentSpec.Eagle3Training
import LatentSpec.RoundLaw
import LatentSpec.RowMaxima
import LatentSpec.VocabParallelHead
import LatentSpec.DflashDraftInput
import LatentSpec.DflashGreedySampler
import LatentSpec.BlockAcceptBundle
import LatentSpec.BlockAcceptRun
import LatentSpec.RegexMatcher
import LatentSpec.StopRegexLength
import LatentSpec.RadixKeyMatch
import LatentSpec.DflashSelectorAccept
import LatentSpec.PagedAllocKernels
import LatentSpec.PagedAllocator
import LatentSpec.PagedFree
import LatentSpec.OnlineSoftmax
import LatentSpec.FusedLogSoftmaxLoss
import LatentSpec.ThresholdLadder
import LatentSpec.AdaptiveStepSlot
import LatentSpec.AdaptiveSpecParams
import LatentSpec.AdaptiveController
import LatentSpec.DelimitedSearch
import LatentSpec.ChatParser
import LatentSpec.LargestEntries
import LatentSpec.EagleDraftTree
import LatentSpec.SiblingLists
import LatentSpec.EagleTreeBuild
import LatentSpec.EagleTreeVerify
import LatentSpec.EagleTreeSampling
import LatentSpec.EagleSamplingLaw
import LatentSpec.TreeDecoder
import LatentSpec.TreeSampling
import LatentSpec.ReachSearch
import LatentSpec.EagleVerifyStep
import LatentSpec.EagleServing
import LatentSpec.EagleServingRun
import LatentSpec.EagleDraftServing
