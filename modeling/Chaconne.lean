import Chaconne.CLib.CString
import Chaconne.CLib.Refine
import Chaconne.CLib.Lists
import Chaconne.CLib.FirstBest
import Chaconne.Hashtable.Basic
import Chaconne.Hashtable.Map
import Chaconne.Cli.Tree
import Chaconne.Cli.Parser
import Chaconne.Cli.Cmdopt
import Chaconne.Cli.Search
import Chaconne.Cli.Execute
import Chaconne.Cli.Complete
import Chaconne.Cli.Commands
import Chaconne.Cli.SearchSpec
import Chaconne.Cli.ExecuteSpec
import Chaconne.Cli.Capacity
import Chaconne.Cli.HelpSpec
import Chaconne.CLib.AssocList
import Chaconne.Kpairs.Basic
import Chaconne.Kpairs.Spec
import Chaconne.Kpairs.Run
import Chaconne.CLib.CInt
import Chaconne.Stream.Basic
import Chaconne.Stream.Spec
import Chaconne.Stream.Fifo
import Chaconne.CLib.ByteArray
import Chaconne.CLib.Loop
import Chaconne.CLib.Cursor
import Chaconne.Cli.Term
import Chaconne.CLib.BinaryHeap
import Chaconne.Heap.Basic
import Chaconne.Heap.Spec
import Chaconne.Heap.Run
import Chaconne.Cli.History
import Chaconne.Cli.Command
import Chaconne.CLib.Strtol
import Chaconne.Calc.Basic
import Chaconne.Calc.Exact
import Chaconne.Stream.Regexp
import Chaconne.Range.Parse
import Chaconne.CLib.LineEditor
import Chaconne.Cli.Editor
import Chaconne.Cli.TermSpec
import Chaconne.Cli.Tokens
import Chaconne.CLib.Screen
import Chaconne.Cli.CompleteSpec
import Chaconne.CLib.LineEcho
import Chaconne.Cli.Echo
import Chaconne.Cli.Display
import Chaconne.CLib.PointSet
import Chaconne.Regexp.CharRange
import Chaconne.Regexp.CharRangeSpec
import Chaconne.CLib.Radix
import Chaconne.Cutils.Utf8
import Chaconne.CLib.IntervalSearch
import Chaconne.Regexp.Bytecode
import Chaconne.Regexp.BytecodeSpec
import Chaconne.Regexp.Class
import Chaconne.Regexp.ClassSpec
import Chaconne.Regexp.ClassSyntax
