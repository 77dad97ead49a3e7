import Jopp.Lib.SortedMap
import Jopp.Lib.Resumable
import Jopp.Lib.Drain
import Jopp.Lib.Deliver
import Jopp.Lib.Readable
import Jopp.Delimiters
import Jopp.Numbers
import Jopp.Types
import Jopp.Object
import Jopp.Equality
import Jopp.Layout
import Jopp.Parser
import Jopp.Parser.Pass
import Jopp.Parser.Scan
import Jopp.Parser.Chunks
import Jopp.Parser.Stack
import Jopp.Parser.Depth
import Jopp.Parser.Strings
import Jopp.Parser.Load
import Jopp.Parser.Strict
import Jopp.Parser.Reads
import Jopp.Parser.Complete
import Jopp.Parser.Sound
import Jopp.Parser.Accepts
import Jopp.Parser.LineCol
import Jopp.Parser.Looks
import Jopp.Parser.Nesting
import Jopp.Parser.Function
import Jopp.Parser.Codec
import Jopp.Parser.Leading
import Jopp.Parser.Viable
import Jopp.Parser.Resume
import Jopp.Parser.Stored
import Jopp.Serializer
import Jopp.Serializer.Tokens
import Jopp.Serializer.Run
import Jopp.Serializer.Verdict
import Jopp.Serializer.Written
import Jopp.Serializer.Progress
import Jopp.Serializer.ToString
import Jopp.Serializer.Pretty
import Jopp.Serializer.Unfinished
import Jopp.Serializer.Salvage
import Jopp.Serializer.Volume
import Jopp.Serializer.Kept
import Jopp.Serializer.Unique
import Jopp.RoundTrip
import Jopp.Transfer
import Jopp.Salvaged
import Jopp.JsonBuffer
import Jopp.Joppdemo
