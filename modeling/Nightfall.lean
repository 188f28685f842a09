import Nightfall.State.Storage
import Nightfall.State.Memory
import Nightfall.State.Assembly
import Nightfall.State.MerkleRoot
import Nightfall.State.Contract
import Nightfall.State.ProposeBlock
import Nightfall.State.Steps
import Nightfall.State.BlockChain
import Nightfall.State.Escrow
import Nightfall.State.ProposerRing
import Nightfall.State.Withdrawals
import Nightfall.State.FeeBook
import Nightfall.State.Bonds
import Nightfall.Optimist.TransactionSubmitted
import Nightfall.Optimist.Handlers
import Nightfall.Client.Withdraw
import Nightfall.Client.CommitmentStore
