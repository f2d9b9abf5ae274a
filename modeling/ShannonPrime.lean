import ShannonPrime.Daemon.Probe
import ShannonPrime.Daemon.ByteExact
import ShannonPrime.Kv.Journal
import ShannonPrime.Kv.Peek
import ShannonPrime.Kv.Window
import ShannonPrime.Recall.Select
import ShannonPrime.Spec.SpecStep
import ShannonPrime.Daemon.Inference
import ShannonPrime.Cuda.Decode
import ShannonPrime.Cuda.PackedExact
import ShannonPrime.Memory.Merge
import ShannonPrime.Recall.Lifecycle
import ShannonPrime.Recall.Telemetry
import ShannonPrime.Recall.SpineExact
import ShannonPrime.Diffusion.PrefixRun
import ShannonPrime.Diffusion.Owners
import ShannonPrime.Cpu.LookupExact
import ShannonPrime.Cpu.SideCacheRuns
import ShannonPrime.Hexagon.Dispatch
import ShannonPrime.Hexagon.Tiles
import ShannonPrime.Hexagon.Session
import ShannonPrime.Hexagon.BoundsExact
import ShannonPrime.Cuda.ExpertsExact
import ShannonPrime.Network.PeerMap
import ShannonPrime.Cuda.ServiceRuns
import ShannonPrime.Cuda.AttnBx
import ShannonPrime.Cuda.PrefetchRuns
import ShannonPrime.Ntt.Polymul
import ShannonPrime.Ntt.Batch
import ShannonPrime.Ntt.BarrettOracle
import ShannonPrime.Ntt.Sharded
import ShannonPrime.Ntt.TwiddleInit
import ShannonPrime.Tokenizer.Qwen2Split
import ShannonPrime.Dsp.Axpby
import ShannonPrime.Transcode.Agree
import ShannonPrime.Ledger.Replay
import ShannonPrime.Ledger.Sharing
import ShannonPrime.Ledger.Failures
import ShannonPrime.Network.GarnerRuns
import ShannonPrime.Daemon.Heartbeat
import ShannonPrime.Daemon.DecodeRun
import ShannonPrime.Daemon.Argmax
import ShannonPrime.Swarm.Handshake
import ShannonPrime.Swarm.Mesh
import ShannonPrime.Swarm.Publish
import ShannonPrime.Cpu.Ring2Backend
import ShannonPrime.Network.Ring2Quic
import ShannonPrime.Tokenizer.Spm
import ShannonPrime.Tokenizer.Gemma4RoundTrip
import ShannonPrime.Tokenizer.Agreement
import ShannonPrime.Tokenizer.Gpt2RoundTrip
import ShannonPrime.Tokenizer.ProbeMaps
import ShannonPrime.Transcode.HeaderScan
import ShannonPrime.Islands.Exponential
import ShannonPrime.Islands.Reference
import ShannonPrime.Islands.Cordic
import ShannonPrime.Daemon.MemoRouting
import ShannonPrime.Swarm.Similarity
import ShannonPrime.Ledger.Broadcast
import ShannonPrime.Model.AdapterExact
import ShannonPrime.Ntt.Resdot
import ShannonPrime.Ntt.VectorModmul
import ShannonPrime.Cuda.RmsInv
import ShannonPrime.Cuda.TopB
import ShannonPrime.Transcode.Safetensors
import ShannonPrime.Kv.RingSink
import ShannonPrime.Kv.Bounds
import ShannonPrime.Kv.BatchPrefill
import ShannonPrime.Memory.Reclass
import ShannonPrime.Memory.Supersede
import ShannonPrime.Recall.Relevance
import ShannonPrime.Daemon.Qwen36
import ShannonPrime.Recall.WorkingSet
import ShannonPrime.Recall.CleanPrompt
import ShannonPrime.Daemon.AnswerText
import ShannonPrime.Diffusion.Router
import ShannonPrime.Diffusion.Dispatch
import ShannonPrime.Lib.Crossing
import ShannonPrime.Diffusion.Sample
import ShannonPrime.Lib.Writes
import ShannonPrime.Cuda.BatchedGemm
import ShannonPrime.Cpu.BlockCacheRuns
import ShannonPrime.Daemon.ChatPrompt
import ShannonPrime.Daemon.TurnEnds
