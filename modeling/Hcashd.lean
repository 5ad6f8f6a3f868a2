import Hcashd.Stake.TicketDbRefinement
import Hcashd.Blockchain.StakeNodeWalk
import Hcashd.Blockchain.WorkSum
import Hcashd.Blockchain.TakeBack
import Hcashd.Blockchain.FeeWalk
import Hcashd.Blockchain.StakeDifficulty
import Hcashd.Blockchain.CompactTarget
import Hcashd.Blockchain.OrphanPool
import Hcashd.Blockchain.OrphanErrors
import Hcashd.Database.Isolation
import Hcashd.Database.Treap
import Hcashd.Mining.Parents
import Hcashd.Indexers.Manager
import Hcashd.Script.MultiSig
import Hcashd.Script.Aliasing
import Hcashd.Blockchain.SanityUntrusted
import Hcashd.Blockchain.StoredJournal
import Hcashd.Blockchain.BestState
import Hcashd.Blockchain.VoteCounts
import Hcashd.Hcashec.Nonce
import Hcashd.Hcashec.Signature
import Hcashd.Connmgr.Requests
