import Idio.Lib.While
import Idio.Lib.KeyedList
import Idio.Bignum.RealProduct
import Idio.Arithmetic
import Idio.Comparison
import Idio.Read
import Idio.Array.Runs
import Idio.Hash.Runs
import Idio.Value.HashAgree
import Idio.Operators
import Idio.Bitset.RoundTrip
import Idio.Vm.Dynamic
import Idio.Vm.Assignment
import Idio.Vm.Trap
import Idio.Vm.Escape
import Idio.Vm.Continuation
import Idio.Vm.Varuint
import Idio.Bignum.ReadDigits
import Idio.Bignum.Canonical
import Idio.Expander
import Idio.Expand.Tables
import Idio.String.Texts
import Idio.Object
import Idio.Object.Dispatch
import Idio.Json5.Parser
import Idio.String.Encode
import Idio.Handle.Output
import Idio.Handle.Input
import Idio.Srfi95.Sequences
import Idio.Directories
import Idio.Lib.Prompts
import Idio.Delim.Holes
import Idio.Delim.Refinement
import Idio.CharSet.Runs
import Idio.Delim.Unwind
import Idio.Modules
import Idio.Regexp.Rewriting
import Idio.Mbe.Clauses
import Idio.Bitset.Visits
import Idio.Comments
import Idio.Pathname
import Idio.CodePointLiteral
import Idio.NumberTheory
import Idio.PathModify
import Idio.Rounding
import Idio.Delim.Missing
import Idio.Object.Instance
import Idio.StandardOperators
import Idio.Lib.ParentTree
import Idio.Winds
import Idio.ArgsFold
import Idio.Promises
import Idio.Format
import Idio.Copying
import Idio.Object.Slots
import Idio.Json5.TokenString
import Idio.Json5.TokenIdentifier
import Idio.String.Order
import Idio.String.Split
import Idio.Handle.Seek
import Idio.Evaluate.Quasiquotation
import Idio.Evaluate.Cond
import Idio.Lib.Simulation
import Idio.Codegen.Tail
import Idio.Gc.Runs
