import DSSE.SetupAgain
import DSSE.Crashes
import DSSE.Listen
import DSSE.Unsupported
import DSSE.Decrypts
import DSSE.Deletions
import DSSE.FreshIds
import DSSE.Keystream
import DSSE.NulTokens
import DSSE.SaveFaults
import DSSE.FailedLoads
import DSSE.Flags
import DSSE.Handoff
import DSSE.Untouched
import DSSE.Batches
import DSSE.SessionWords
import DSSE.Cuts
import DSSE.ReadErrors
import DSSE.Names
import DSSE.SearchEnds
import DSSE.Pointers
import DSSE.PrototypeAgrees
import DSSE.Messages
import DSSE.Processes
import DSSE.Primitives
