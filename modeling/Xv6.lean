import Xv6.Proofs.Arguments
import Xv6.Proofs.Base64
import Xv6.Proofs.BufferCache
import Xv6.Proofs.Console
import Xv6.Proofs.Descriptors
import Xv6.Proofs.Factor
import Xv6.Proofs.Fetch
import Xv6.Proofs.Grep
import Xv6.Proofs.IdeReads
import Xv6.Proofs.InodeRuns
import Xv6.Proofs.InodeSave
import Xv6.Proofs.Iput
import Xv6.Proofs.LogCrash
import Xv6.Proofs.Mappages
import Xv6.Proofs.MkfsLimits
import Xv6.Proofs.Mounted
import Xv6.Proofs.Mp
import Xv6.Proofs.Pipe
import Xv6.Proofs.Redirections
import Xv6.Proofs.Reservation
import Xv6.Proofs.SharedWrite
import Xv6.Proofs.Sleep
import Xv6.Proofs.SplitCopies
import Xv6.Proofs.SplitFiles
import Xv6.Proofs.SplitMemory
import Xv6.Proofs.Umalloc
import Xv6.Proofs.UserRange
import Xv6.Proofs.Wait
import Xv6.Proofs.Memmove
import Xv6.Proofs.Suffixes
