import Theo.Lib.Persist
import Theo.Cell.Integrity
import Theo.Cell.Recovery
import Theo.Cell.Lengths
import Theo.Cell.Local
import Theo.Cache.Counting
import Theo.Cell.Retention
import Theo.Chunker.Content
import Theo.Chunker.Split
import Theo.Pool.Counters
import Theo.Pool.Hits
import Theo.Pool.Checksums
import Theo.Pool.Threads
import Theo.Proofs.DirectoryMap
import Theo.Manager.Life
import Theo.Manager.Resources
import Theo.Ring.Queue
