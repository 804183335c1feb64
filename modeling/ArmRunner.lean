import ArmRunner.Lib.CRun
import ArmRunner.Lib.ArrayLoop
import ArmRunner.Lib.CFile
import ArmRunner.Lib.Words
import ArmRunner.Elf
import ArmRunner.Format
import ArmRunner.Load
import ArmRunner.Lib.Tiling
import ArmRunner.LoadFormat
import ArmRunner.View
import ArmRunner.Write
import ArmRunner.DeleteRel
import ArmRunner.Lib.NewIndex
import ArmRunner.Removes
import ArmRunner.Encode
import ArmRunner.Loaded
import ArmRunner.WriteFormat
import ArmRunner.Pointers
import ArmRunner.Renumbering
import ArmRunner.LoadContent
import ArmRunner.LoadTables
import ArmRunner.Copyable
import ArmRunner.Layout
import ArmRunner.CopyRoundTrip
import ArmRunner.DeleteLayout
import ArmRunner.WellFormed
import ArmRunner.Correct
import ArmRunner.Relocate
import ArmRunner.AbsReloc
import ArmRunner.AbsEntries
import ArmRunner.Names
import ArmRunner.Options
import ArmRunner.Commute
import ArmRunner.GdbProtocol
import ArmRunner.GdbMemory
import ArmRunner.Lib.Lexer
import ArmRunner.Scanner
import ArmRunner.Yylex
import ArmRunner.GdbClient
import ArmRunner.Destination
import ArmRunner.Ordered
import ArmRunner.Fixpoint
import ArmRunner.Blocks
import ArmRunner.Decode
import ArmRunner.HeaderCodec
import ArmRunner.Truncated
import ArmRunner.PrintReloc
import ArmRunner.Indices
import ArmRunner.Lib.Buffers
import ArmRunner.Slots
import ArmRunner.Cleanup
import ArmRunner.Lib.SortedTable
import ArmRunner.Debug
import ArmRunner.ErrorBuffer
import ArmRunner.Allocations
import ArmRunner.Dump
import ArmRunner.DeleteFilter
import ArmRunner.PrintSym
import ArmRunner.SymbolNames
import ArmRunner.NamesListed
import ArmRunner.Lib.Connection
import ArmRunner.YyBuffer
import ArmRunner.YyRefill
import ArmRunner.YySearch
import ArmRunner.YyTokens
import ArmRunner.YyClient
import ArmRunner.GdbLink
import ArmRunner.GdbExchanges
import ArmRunner.GdbSession
import ArmRunner.Rewritten
import ArmRunner.Rerun
import ArmRunner.PrintHeader
import ArmRunner.Main
import ArmRunner.Lib.Outlet
import ArmRunner.Rio
import ArmRunner.Lib.Arena
import ArmRunner.Interface
import ArmRunner.Sessions
import ArmRunner.Lib.Lines
import ArmRunner.Filtre
import ArmRunner.Lib.HexDump
import ArmRunner.Listing
