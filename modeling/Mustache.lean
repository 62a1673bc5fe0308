import Mustache.Data.Value
import Mustache.Data.Table
import Mustache.Main
import Mustache.Proofs.Search
import Mustache.Proofs.Delimiters
import Mustache.Proofs.Segment
import Mustache.Proofs.Nests
import Mustache.Proofs.Balance
import Mustache.Proofs.Reads
import Mustache.Proofs.Line
import Mustache.Proofs.Collect
import Mustache.Proofs.Extent
import Mustache.Proofs.Elision
import Mustache.Proofs.Indent
import Mustache.Proofs.IndentedSegment
import Mustache.Proofs.Indentation
import Mustache.Proofs.Block
import Mustache.Proofs.Margin
import Mustache.Proofs.Body
import Mustache.Proofs.Reach
import Mustache.Proofs.Visit
import Mustache.Proofs.Ends
import Mustache.Proofs.Path
import Mustache.Proofs.Ending
import Mustache.Proofs.Related
import Mustache.Proofs.Depth
import Mustache.Proofs.Termination
import Mustache.Proofs.FiniteData
import Mustache.Proofs.Alike
import Mustache.Proofs.Cycle
import Mustache.Proofs.Agree
import Mustache.Proofs.Cache
import Mustache.Proofs.Behind
import Mustache.Proofs.Seam
import Mustache.Proofs.Concatenation
import Mustache.Proofs.Carried
import Mustache.Proofs.Untagged
import Mustache.Proofs.Formats
import Mustache.Proofs.Chain
import Mustache.Proofs.Meaning
import Mustache.Proofs.Inlined
import Mustache.Proofs.Entities
import Mustache.Proofs.Spelling
import Mustache.Proofs.Printed
import Mustache.Proofs.Unescaped
import Mustache.Proofs.Escapes
import Mustache.Proofs.Mirror
import Mustache.Proofs.Markup
import Mustache.Proofs.AllOrNothing
import Mustache.Proofs.Recording
import Mustache.Proofs.Failing
import Mustache.Proofs.Account
import Mustache.Proofs.Hidden
import Mustache.Proofs.Unread
import Mustache.Proofs.Recurrence
import Mustache.Proofs.Complement
import Mustache.Proofs.Padding
import Mustache.Proofs.Switching
import Mustache.Proofs.Slice
import Mustache.Proofs.Tiling
import Mustache.Proofs.Refusal
import Mustache.Proofs.Cursor
import Mustache.Proofs.Around
import Mustache.Proofs.Offsets
import Mustache.Proofs.Formed
import Mustache.Proofs.Guarded
