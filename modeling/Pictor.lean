import Pictor.Proof.Cache.PagedReads
import Pictor.Proof.Batching.BatchRun
import Pictor.Proof.Tokenizer.StreamExact
import Pictor.Proof.Tokenizer.SerialLines
import Pictor.Proof.Gguf.ReadersAgree
import Pictor.Proof.Resilience.BreakerRecovers
import Pictor.Proof.Resilience.QueueRun
import Pictor.Proof.Routing.RouteExact
import Pictor.Proof.Storage.StorageExact
import Pictor.Proof.Kernels.KernelsAgree
import Pictor.Proof.Tools.ToolCallsAgree
import Pictor.Proof.Routing.MultiModelRun
import Pictor.Proof.Sharding.ShardingExact
import Pictor.Proof.Cache.KvCachesAgree
import Pictor.Proof.Cache.LayeredCachesRun
import Pictor.Proof.Cache.PrefixCachedRun
import Pictor.Proof.Decoding.EntryPoints
import Pictor.Proof.Decoding.SpeculativeExact
import Pictor.Proof.Gguf.ExportExact
import Pictor.Proof.Grammar.MaskRun
import Pictor.Proof.Grammar.NormaliseExact
import Pictor.Proof.Decoding.JsonMask
import Pictor.Proof.Tokenizer.WordPieceExact
import Pictor.Proof.Tokenizer.UnigramOptimal
import Pictor.Proof.Grammar.RegexStray
import Pictor.Proof.Decoding.PatternExact
import Pictor.Proof.Decoding.SchemaExample
import Pictor.Proof.Grammar.GbnfExact
import Pictor.Proof.Tokenizer.VocabularyInverse
import Pictor.Proof.Decoding.AllowListExact
import Pictor.Proof.Serving.ContextWindowRun
import Pictor.Proof.Cache.KvCachePolicyRun
import Pictor.Proof.Cache.ModelCacheEviction
import Pictor.Proof.Resilience.LimiterDenial
import Pictor.Proof.Tokenizer.TrainerCounts
import Pictor.Proof.Decoding.BeamSearchExhaustive
import Pictor.Proof.Image.MlxRngExact
import Pictor.Proof.Kernels.PackingExact
import Pictor.Proof.Serving.SseFraming
import Pictor.Proof.Image.PreTokenizeExact
import Pictor.Proof.Image.BpeAgree
import Pictor.Proof.Attention.SlidingWindowExact
import Pictor.Proof.Attention.AttentionSinkRun
import Pictor.Proof.Rag.ParagraphExact
import Pictor.Proof.Batching.ChunkedPrefillRun
import Pictor.Proof.Attention.FlashDecodeExact
import Pictor.Proof.Decoding.DraftAndVerifyExact
import Pictor.Proof.Decoding.SamplerSound
import Pictor.Proof.Rag.RecursiveSplit
import Pictor.Proof.Cache.SemanticCacheRun
import Pictor.Proof.Rag.EmbeddingIndexSearch
import Pictor.Proof.Quant.Fp8Finite
import Pictor.Proof.Quant.TernaryRoutes
import Pictor.Proof.Image.PngDecodes
import Pictor.Proof.Rag.VectorSearch
