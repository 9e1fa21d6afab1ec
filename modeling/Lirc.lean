import Lirc.Library.Run
import Lirc.Library.Latch
import Lirc.Library.Loop
import Lirc.Library.SequenceMatch
import Lirc.Library.Signal
import Lirc.Remote
import Lirc.CodeWord
import Lirc.Library.Extremes
import Lirc.Filters
import Lirc.Transmit
import Lirc.Receive
import Lirc.Tolerance
import Lirc.Waveform
import Lirc.Frames
import Lirc.Reading
import Lirc.Matching
import Lirc.BitDecode
import Lirc.RoundTrip
import Lirc.SpaceEncoded
import Lirc.Biphase
import Lirc.Tape
import Lirc.Accounting
import Lirc.Attempt
import Lirc.Resync
import Lirc.Soundness
import Lirc.History
import Lirc.Segment
import Lirc.Grundig
import Lirc.Undisturbed
import Lirc.Symbols
import Lirc.Library.Lines
import Lirc.Library.CString
import Lirc.Command
import Lirc.Framing
import Lirc.Library.Numeral
import Lirc.Config
import Lirc.ReadConfig
import Lirc.Library.StableSort
import Lirc.PostProcess
import Lirc.Relinking
import Lirc.Sections
import Lirc.Include
import Lirc.CodeTables
import Lirc.PhysicalLines
import Lirc.Arithmetic
import Lirc.Joining
import Lirc.Daemon
import Lirc.Lircrc
import Lirc.FlagList
import Lirc.EventPass
import Lirc.OnceFlag
import Lirc.EntrySequence
import Lirc.RcText
import Lirc.Unescape
import Lirc.RcReader
import Lirc.RcFiles
import Lirc.RcDocument
import Lirc.RcEntries
import Lirc.Wildcards
import Lirc.Lircrcd
import Lirc.Survival
import Lirc.KeepingUp
import Lirc.Formatting
import Lirc.ReplyBuffers
import Lirc.PacketLoop
import Lirc.Directives
import Lirc.MainLoop
import Lirc.HardwareUse
import Lirc.Driver
import Lirc.FrameBounds
import Lirc.IrToy
import Lirc.IrToySend
import Lirc.Clusters
import Lirc.Decoding
import Lirc.Reversal
import Lirc.SentWord
import Lirc.Toggling
import Lirc.Recognition
import Lirc.CodeSequence
import Lirc.Splitting
import Lirc.Library.BitRuns
import Lirc.Factoring
import Lirc.RepeatCount
import Lirc.Release
import Lirc.Pairing
import Lirc.EventLine
import Lirc.TogglePairs
import Lirc.Library.Extent
import Lirc.Uirt2
import Lirc.Library.Slots
import Lirc.Tira
import Lirc.CommandirPackets
import Lirc.CommandirOrder
import Lirc.CommandirEmitters
import Lirc.Library.Ring
import Lirc.CommandirRing
import Lirc.NoiseFilter
import Lirc.MouseMode
import Lirc.Inversion
import Lirc.Library.Palette
import Lirc.Uirt2Struct
import Lirc.Merging
import Lirc.Library.Memory
import Lirc.Nextcode
import Lirc.Clients
import Lirc.Peers
import Lirc.Capacity
import Lirc.Library.Laps
import Lirc.SendLoop
import Lirc.RemainingGap
import Lirc.SignalLengths
import Lirc.OneSection
import Lirc.Reprocess
import Lirc.BufferCalls
import Lirc.BufferTrace
import Lirc.BufferSafety
import Lirc.SafeDecoding
import Lirc.BufferRuns
import Lirc.RawSearch
import Lirc.LeadIn
import Lirc.Serial
import Lirc.SerialRounds
import Lirc.SerialLoop
import Lirc.DataLoops
import Lirc.SerialFrames
import Lirc.FrameSamples
import Lirc.PutBack
import Lirc.FailedAttempts
import Lirc.Lircmd
import Lirc.Library.Scanf
import Lirc.Library.Decimal
import Lirc.Packets
import Lirc.SendCommand
import Lirc.OldRemotes
import Lirc.DumpConfig
import Lirc.DumpAgain
import Lirc.Requests
import Lirc.ClientLoop
import Lirc.DeferredReply
import Lirc.RepeatTimer
import Lirc.MappedReferences
import Lirc.ReplyOrder
