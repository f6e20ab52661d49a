import Ollama.KvCache.CheckpointOrigin
import Ollama.Runner.StopCache
import Ollama.Tokenizer.ScoreOrder
import Ollama.Tokenizer.RankOrder
import Ollama.Tokenizer.Specials
import Ollama.Llm.LayoutSearch
import Ollama.Llm.ExactLayout
import Ollama.Llm.Memory
import Ollama.Server.VRAMRecovery
import Ollama.KvCache.Resume
import Ollama.Parsers.Gemma4Order
import Ollama.Harmony.Messages
import Ollama.Harmony.UniqueNames
import Ollama.Parsers.GlimmerCall
import Ollama.Parsers.Qwen35Chunks
import Ollama.Ggml.Layout
import Ollama.Gguf.Agree
import Ollama.Gguf.LazyRuns
import Ollama.Server.PullModel
import Ollama.Blob.Links
import Ollama.Server.GarbageCollection
import Ollama.Parser.RoundTrip
import Ollama.LlamaRunner.Windowed
import Ollama.Middleware.Endings
import Ollama.Anthropic.Conversation
import Ollama.OpenAI.Requests
import Ollama.Server.Chat
import Ollama.Server.ChatPrompt
import Ollama.Discover.Overlap
import Ollama.Model.MRopeAdvance
import Ollama.Model.PostTokenize
import Ollama.Template.Legacy
import Ollama.Template.DeleteNode
import Ollama.Convert.ExpertOrder
import Ollama.Convert.Mxfp4
import Ollama.Convert.Safetensors
import Ollama.Convert.Vocabulary
import Ollama.Sample.Samplers
import Ollama.Server.Download
import Ollama.Parsers.Lfm2Cuts
import Ollama.Parsers.Indices
import Ollama.Parsers.Qwen3VLChunks
import Ollama.KvCache.CheckpointRing
import Ollama.Runner.SameBatch
import Ollama.KvCache.Traces
import Ollama.Renderers.Lfm2RoundTrip
import Ollama.Ggml.BufferedSeeker
import Ollama.Server.Quantization
import Ollama.Server.RequestStages
