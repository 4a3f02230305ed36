import Ti3.Library.Determinism
import Ti3.Library.History
import Ti3.Library.CyclicCode
import Ti3.Library.RegisterPower
import Ti3.Crc.Tool
import Ti3.Crc.FileSystem
import Ti3.Crc.Remainder
import Ti3.Crc.Checksum
import Ti3.Crc.Detection
import Ti3.Crc.RoundTrip
import Ti3.Library.Rounds
import Ti3.Crc.Termination
import Ti3.Library.Execution
import Ti3.Crc.Failures
import Ti3.Crc.Interrupted
import Ti3.Crc.NoLoss
import Ti3.Library.Calls
import Ti3.Crc.Frame
import Ti3.Crc.Bounds
import Ti3.Http.Server
import Ti3.Http.RequestLine
import Ti3.Http.Response
import Ti3.Http.Malformed
import Ti3.Http.Descriptors
import Ti3.Http.Invariants
import Ti3.Http.Iterations
import Ti3.Http.OpenClients
import Ti3.Http.CloseOnce
import Ti3.Http.Interference
import Ti3.Http.EndOfFile
import Ti3.Library.Trails
import Ti3.Http.ClientWalk
import Ti3.Http.ClientCount
import Ti3.Http.OneResponse
import Ti3.Http.Grammar
import Ti3.Http.DocumentRoot
import Ti3.Http.Transfer
import Ti3.Http.ArraySizes
import Ti3.Library.Concurrency
import Ti3.Uds.Datagrams
import Ti3.Uds.Parties
import Ti3.Uds.Delivery
import Ti3.Library.Lines
import Ti3.Library.Search
import Ti3.Grep.PseudoGrep
import Ti3.Grep.Matching
import Ti3.Grep.HighBytes
import Ti3.Trash.Trashcan
import Ti3.Trash.Directories
import Ti3.Trash.Paths
import Ti3.Trash.Copies
import Ti3.Trash.NoLoss
import Ti3.Trash.Leftovers
import Ti3.Trash.Machine
import Ti3.Library.LexicalPath
import Ti3.Trash.Confinement
import Ti3.Fat.DriveLs
import Ti3.Library.Cursor
import Ti3.Fat.Image
import Ti3.Fat.Iterator
import Ti3.Fat.Table
import Ti3.Fat.Traversal
import Ti3.Fat.Listing
import Ti3.Fat.Chain
import Ti3.Fat.Loops
import Ti3.Fat.Termination
import Ti3.Fat.PathResolution
import Ti3.Fat.FileNames
import Ti3.Fat.Lookup
import Ti3.Fat.Geometry
import Ti3.Fat.Ascent
import Ti3.Fat.Divisors
import Ti3.Trash.Modes
import Ti3.Library.LittleEndian
import Ti3.Fat.Numbers
import Ti3.Uds.Reception
import Ti3.Library.MaximalRuns
import Ti3.Library.Stdio
import Ti3.Filters.Wc
import Ti3.Filters.Cat
import Ti3.Library.Numerals
import Ti3.Mult.MultTest
import Ti3.Tcp.TcpClient
import Ti3.Library.Inet
import Ti3.Tr.PseudoTr
import Ti3.Tr.Destination
import Ti3.Library.Disturbance
import Ti3.Tr.Signals
import Ti3.Library.Exhaustion
import Ti3.Fat.EndSentinel
import Ti3.Library.RelyGuarantee
import Ti3.Trash.Shared
import Ti3.Trash.Together
import Ti3.Tcp.TcpServer
import Ti3.Tcp.Serving
import Ti3.Tcp.Sessions
import Ti3.Http.Shutdown
import Ti3.Http.Conversations
import Ti3.Library.Embedding
import Ti3.Http.Signals
import Ti3.Library.DirectoryGraph
import Ti3.Fat.Volume
import Ti3.Library.Sessions
import Ti3.Crc.Machine
import Ti3.Crc.Versions
import Ti3.Crc.Undetected
import Ti3.Library.Faults
import Ti3.Library.StdioFaults
import Ti3.Filters.Faults
import Ti3.Grep.CommandLine
import Ti3.Tr.Route
import Ti3.Fat.Faults
import Ti3.Mult.Faults
import Ti3.Library.Quiescence
import Ti3.Uds.Relay
