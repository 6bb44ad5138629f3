import PiBridge.Core.Correctness.Leaf
import PiBridge.Chord.Correctness.ChannelOrder
import PiBridge.Chord.Correctness.CodecStream
import PiBridge.Core.Correctness.CodecRoundTrip
import PiBridge.Core.Correctness.InitialSync
import PiBridge.Core.Correctness.ReactorDrain
import PiBridge.Host.Correctness.MutualExclusion
import PiBridge.Chord.Correctness.TextParts
import PiBridge.Chord.Correctness.BinaryRoundTrip
import PiBridge.Chord.Correctness.DeriveFrames
import PiBridge.Chord.Correctness.PointReads
import PiBridge.Chord.Correctness.WatchRuns
import PiBridge.Chord.Correctness.RegistryRuns
import PiBridge.Durable.Correctness.WriterSound
import PiBridge.Chord.Correctness.CallsSettle
import PiBridge.Durable.Correctness.ContextSound
import PiBridge.Durable.Correctness.FencedRuns
import PiBridge.Durable.Correctness.Submissions
import PiBridge.Durable.Correctness.Transcripts
import PiBridge.Session.Correctness.BranchedSessions
import PiBridge.Tui.Correctness.Screens
import PiBridge.Core.Correctness.RecoveryTail
import PiBridge.Viewmodel.Collapse
import PiBridge.Viewmodel.Correctness.Lanes
import PiBridge.Chord.Correctness.Payloads
import PiBridge.Core.Correctness.StatsContext
import PiBridge.Chord.Correctness.Appliers
import PiBridge.Durable.Correctness.Cuts
import PiBridge.Durable.Correctness.TailReads
import PiBridge.Chord.Correctness.Residents
import PiBridge.Chord.Correctness.Paging
import PiBridge.Ai.Correctness.Replays
import PiBridge.Host.Correctness.SessionPages
import PiBridge.Tui.Correctness.StackSizes
import PiBridge.Chord.Correctness.ArrayPlans
import PiBridge.Chord.Correctness.Replicas
