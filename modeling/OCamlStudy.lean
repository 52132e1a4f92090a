import OCamlStudy.OCaml.Basic
import OCamlStudy.OCaml.Decimal
import OCamlStudy.OCaml.Float
import OCamlStudy.OCaml.Split
import OCamlStudy.Program.Run
import OCamlStudy.Program.Interleaving
import OCamlStudy.Program.Sequence
import OCamlStudy.Program.Rely
import OCamlStudy.Program.OnesComplement
import OCamlStudy.Program.Fifo
import OCamlStudy.Program.Loop
import OCamlStudy.Program.Replay
import OCamlStudy.Program.Restrict
import OCamlStudy.Program.Within
import OCamlStudy.OCaml.Array
import OCamlStudy.MiniRedis.Resp
import OCamlStudy.MiniRedis.Append
import OCamlStudy.MiniRedis.Line
import OCamlStudy.MiniRedis.Grammar
import OCamlStudy.MiniRedis.Command
import OCamlStudy.MiniRedis.Connection
import OCamlStudy.MiniRedis.Reply
import OCamlStudy.MiniRedis.RoundTrip
import OCamlStudy.MiniRedis.Pipeline
import OCamlStudy.MiniRedis.Raising
import OCamlStudy.MiniRedis.WellFormed
import OCamlStudy.MiniRedis.Waiting
import OCamlStudy.MiniRedis.Server
import OCamlStudy.NanoOs.Block
import OCamlStudy.NanoOs.Fs
import OCamlStudy.NanoOs.Directory
import OCamlStudy.NanoOs.FsSpec
import OCamlStudy.NanoOs.Mounted
import OCamlStudy.NanoOs.FileMap
import OCamlStudy.NanoOs.MapView
import OCamlStudy.NanoOs.RamDisk
import OCamlStudy.NanoOs.BufferLists
import OCamlStudy.NanoOs.FieldWidth
import OCamlStudy.NanoOs.Mount
import OCamlStudy.NanoOs.Mirror
import OCamlStudy.NanoOs.Boot
import OCamlStudy.NanoOs.Torn
import OCamlStudy.NanoOs.Crash
import OCamlStudy.NanoOs.Packet
import OCamlStudy.NanoOs.PacketCodec
import OCamlStudy.NanoOs.Damage
import OCamlStudy.NanoOs.Stack
import OCamlStudy.NanoOs.ExactlyOnce
import OCamlStudy.NanoOs.Exchange
import OCamlStudy.NanoOs.SeqReuse
import OCamlStudy.NanoOs.Shell
import OCamlStudy.NanoOs.Requests
import OCamlStudy.NanoOs.Turns
import OCamlStudy.NanoOs.Serial
import OCamlStudy.NanoOs.Linearize
import OCamlStudy.NanoOs.TornDelete
import OCamlStudy.NanoOs.LostUpdate
import OCamlStudy.NanoOs.SocketNet
import OCamlStudy.NanoOs.ReplySize
import OCamlStudy.NanoOs.Receivable
import OCamlStudy.NanoOs.ReferenceShell
import OCamlStudy.NanoOs.Transcript
import OCamlStudy.NanoOs.Message
import OCamlStudy.NanoOs.FileDisk
import OCamlStudy.NanoOs.Overlap
import OCamlStudy.NanoOs.Dedupe
import OCamlStudy.NanoOs.Attempts
import OCamlStudy.NanoOs.Ownership
import OCamlStudy.NanoOs.Header
import OCamlStudy.NanoOs.Repair
import OCamlStudy.NanoOs.CrashHistory
import OCamlStudy.NanoOs.Restart
import OCamlStudy.NanoOs.WholeSectors
import OCamlStudy.NanoOs.Duplex
import OCamlStudy.NanoOs.Kernel
import OCamlStudy.NanoOs.Answering
import OCamlStudy.NanoOs.EndToEnd
import OCamlStudy.Mirage.NetAdapter
import OCamlStudy.Mirage.Outgoing
import OCamlStudy.Mirage.Incoming
import OCamlStudy.Mirage.Listening
import OCamlStudy.Mirage.Datagram
import OCamlStudy.Mirage.BlockAdapter
import OCamlStudy.Mirage.PowerCut
import OCamlStudy.JsonParser.Json
import OCamlStudy.JsonParser.Lexer
import OCamlStudy.JsonParser.Parser
import OCamlStudy.JsonParser.Grammar
import OCamlStudy.JsonParser.RoundTrip
import OCamlStudy.JsonParser.Hex
import OCamlStudy.JsonParser.Outside
import OCamlStudy.JsonParser.Language
import OCamlStudy.JsonParser.Floats
import OCamlStudy.JsonParser.Termination
import OCamlStudy.SimpleLwt.JsonParser
import OCamlStudy.SimpleLwt.Server
import OCamlStudy.SimpleLwt.Overlapping
import OCamlStudy.JsonParserCustom.JsonParser
import OCamlStudy.IntJson
import OCamlStudy.Unikv.MakeKV
import OCamlStudy.Modula.Queue
import OCamlStudy.Modula.Map
import OCamlStudy.Modula.Evaluator
import OCamlStudy.Modula.Reduction
import OCamlStudy.Evaluator
import OCamlStudy.Modula.Date
import OCamlStudy.DateProcessor.Date
import OCamlStudy.Modula.MatrixRing
import OCamlStudy.Hw
