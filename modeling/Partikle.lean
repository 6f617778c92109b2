import Partikle.Array.Failure
import Partikle.Array.Ordinary
import Partikle.AsyncFunction
import Partikle.AsyncGenerator.Queue
import Partikle.Atomics.Answers
import Partikle.Atom.Correct
import Partikle.Bf
import Partikle.DateParse
import Partikle.Doubles
import Partikle.Gc.Scan
import Partikle.Json.RoundTrip
import Partikle.Map.RecordCount
import Partikle.Modules.Identity
import Partikle.Modules.Evaluated
import Partikle.Promises.All
import Partikle.Promises.Settle
import Partikle.Prototype
import Partikle.Proxy.Define
import Partikle.Regexp.Emit
import Partikle.Regexp.Quantifier
import Partikle.Rqsort.Correct
import Partikle.Shape.Limit
import Partikle.Text.Ascii
import Partikle.Unicode.PropTable
import Partikle.Unicode.SortCc
import Partikle.Worker.Delivery
