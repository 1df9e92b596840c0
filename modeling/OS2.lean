import OS2.Text.Chars
import OS2.Text.Strtok
import OS2.Loop.Fuel
import OS2.Machine.Runs
import OS2.Posix.Descriptors
import OS2.Posix.Children
import OS2.Regex.Pattern
import OS2.Tokenise.Scanner
import OS2.Tokenise.Grammar
import OS2.Tokenise.Scan
import OS2.Tokenise.Fetch
import OS2.Tokenise.Compose
import OS2.Tokenise.Contract
import OS2.Tokenise.RoundTrip
import OS2.Tokenise.Escape
import OS2.Tokenise.Spans
import OS2.Symtab.Table
import OS2.Symtab.Refinement
import OS2.Symtab.Ownership
import OS2.Lsh.Trim
import OS2.Lsh.TrimAccess
import OS2.Lsh.Shell
import OS2.Lsh.Assignment
import OS2.Lsh.Classify
import OS2.Lsh.ShortLine
import OS2.Lsh.TypeTags
import OS2.Lsh.Ownership
import OS2.Lsh.Contract
import OS2.Lsh.WholeValue
import OS2.Lsh.ArgvName
import OS2.Lsh.PathLookup
import OS2.Lsh.External
import OS2.Counter.Exclusion
import OS2.Pipeline.Wiring
import OS2.Pipeline.Waiting
import OS2.Machine.Progress
import OS2.Counter.Progress
import OS2.Counter.Private
import OS2.Background.Reaping
import OS2.Pipeline.Ending
import OS2.Pipeline.Flow
import OS2.Pipeline.Deadlock
import OS2.Redirect.Programs
import OS2.Memory.Linked
import OS2.Symtab.NodesRefine
import OS2.Lsh.Console
import OS2.Lsh.LineHeap
import OS2.Shm.Handshake
import OS2.Lab2.Shell
import OS2.Lab2.Fork
import OS2.Lsh.Directory
import OS2.Lsh.Foreground
import OS2.Pipeline.Failing
