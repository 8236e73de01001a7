import SonicJson.Lib.Bits
import SonicJson.Lib.Calls
import SonicJson.Lib.Prog
import SonicJson.Lib.Index
import SonicJson.Lib.Machine
import SonicJson.ParseString
import SonicJson.Space
import SonicJson.NumberScan
import SonicJson.SkipOne
import SonicJson.Node
import SonicJson.Document
import SonicJson.MemoryPool
import SonicJson.MemberMap
import SonicJson.OnDemand
import SonicJson.LazyParse
import SonicJson.Reuse
import SonicJson.Callbacks
import SonicJson.Tokens
import SonicJson.Serialize
import SonicJson.ContainerAutomaton
import SonicJson.StringEnd
import SonicJson.ScalarString
import SonicJson.Quote
import SonicJson.SpaceCalls
import SonicJson.NumberValue
import SonicJson.JsonTuple
import SonicJson.JsonPath
import SonicJson.SpaceReads
import SonicJson.ScanCalls
import SonicJson.SpaceSafety
import SonicJson.ScanSafety
import SonicJson.NormalFast
import SonicJson.Decimal
import SonicJson.FloatingFast
import SonicJson.WordCalls
import SonicJson.Lib.Farey
import SonicJson.Pow10CeilSig
import SonicJson.Lib.Shortest
import SonicJson.RoundToOdd
import SonicJson.F64ToDecimal
import SonicJson.Lib.RawBuffer
import SonicJson.IntegerToken
import SonicJson.Itoa
import SonicJson.Ftoa
import SonicJson.Lib.Significant
import SonicJson.DecimalShift
import SonicJson.AtofNative
import SonicJson.SetDecimal
import SonicJson.EscapeMasks
import SonicJson.CodePoint
import SonicJson.MemberRuns
import SonicJson.ContainerCapacity
import SonicJson.PointerEq
import SonicJson.PathParse
import SonicJson.SerializeStores
import SonicJson.Memcmp
import SonicJson.Str2int
import SonicJson.NodeCount
import SonicJson.SchemaHandler
import SonicJson.NodeStack
import SonicJson.OomInvariant
import SonicJson.NodeEqual
import SonicJson.NumberRounded
import SonicJson.NumberKept
import SonicJson.RoundTrip
import SonicJson.Lib.Merge
import SonicJson.Lib.Lanes
import SonicJson.Arm
import SonicJson.ArmNumbers
import SonicJson.Lib.Blocks
import SonicJson.NodeRuns
import SonicJson.LazyTwice
