import Nightfall.State.MerkleRoot
import Mathlib.Data.Fin.VecNotation

/-!
# State/Contract — the functions of `State.sol`, and runs of calls

Each state-changing function of `State.sol` is a function from the storage to a revert or the new
storage, with the ledger entries it makes (`Entry`).  The view functions change nothing; of them
only `getFeeBookInfo` and `isBlockReal` are kept.  `Op` names every function but `withdraw`;
`withdraw` is `nonReentrant`, and its ETH transfer hands control to the recipient, which may make
any other call before the transfer returns — so a `Call.withdraw` carries the calls made during
its transfer (`reentry`) and the outcomes of its two transfers.

`runOps` and `run` apply calls one after another; a call that reverts leaves the storage as it
was.
-/

namespace Nightfall

section Functions

variable (κ : Keccak) (cfg : Config)

/-- The fee loop of `proposeBlock`: reading `t[i].transactionType` from calldata reverts, with no
reason, on a word that names no member of `TransactionTypes`; a deposit pays its fee in ETH, any
other transaction in MATIC. -/
def feePayments : ℕ → ℕ → List Transaction → Except String (ℕ × ℕ)
  | eth, matic, [] => pure (eth, matic)
  | eth, matic, tx :: txs => do
    require (tx.transactionType < transactionTypes) ""
    if tx.transactionType = deposit then feePayments (← checkedAdd eth tx.fee) matic txs
    else feePayments eth (← checkedAdd matic tx.fee) txs

/-- `blockHashes[blockHashes.length - 1].blockHash`, read only when `blockHashes` is not empty. -/
def lastBlockHash (s : State) : Word := (s.blockHashes.getLastD ⟨0, 0⟩).blockHash

/-- The previous-hash check of `proposeBlock`, made only when `blockHashes` is not empty. -/
def checkPreviousBlockHash (b : Block) (s : State) : Except String Unit :=
  if s.blockHashes.length ≠ 0 then
    require (b.previousBlockHash = lastBlockHash s) "The block is flawed or out of order"
  else pure ()

@[simp] theorem checkPreviousBlockHash_eq_ok {b : Block} {s : State} {u : Unit} :
    checkPreviousBlockHash b s = .ok u ↔
      (s.blockHashes.length ≠ 0 → b.previousBlockHash = lastBlockHash s) := by
  unfold checkPreviousBlockHash; split <;> simp_all [pure, Except.pure]

/-- **The Solidity body of `proposeBlock(b, t)`** around its assembly block, which returns the
block hash or reverts.  The first check is the ABI decoder's bound on the length of a calldata
array. -/
def proposeBlockBody (assembly : Except String Word) (ctx : Ctx) (b : Block)
    (t : List Transaction) (s : State) : Except String State := do
  require (t.length ≤ 0xffffffffffffffff) ""
  onlyCurrentProposer ctx s
  whenNotPaused s
  require (b.blockNumberL2 = s.blockHashes.length) "The block is out of order"
  checkPreviousBlockHash b s
  require (cfg.blockStake ≤ ctx.value) "The stake payment is incorrect"
  require (b.proposer = ctx.sender) "The proposer address is not the sender"
  require (t.length ≤ cfg.transactionsPerBlock) "The block has too many transactions"
  let (feePaymentsEth, feePaymentsMatic) ← feePayments 0 0 t
  let input := κ.packed b.proposer b.blockNumberL2
  let blockHash ← assembly
  pure { s with
    feeBook := Function.update s.feeBook input ![feePaymentsEth, feePaymentsMatic]
    blockHashes := s.blockHashes ++ [⟨blockHash, ctx.timestamp⟩] }

/-- **`proposeBlock(b, t)`**, with `escrowed` the Shield contract's escrow record and `mem` the
memory past the free-memory pointer when the assembly starts. -/
def proposeBlock (escrowed : Word → Bool) (mem : Memory) (ctx : Ctx) (b : Block)
    (t : List Transaction) (s : State) : Except String State :=
  proposeBlockBody κ cfg (proposeBlockAssembly κ cfg escrowed s mem b t) ctx b t s

/-- `emitRollback(blockNumberL2ToRollbackTo)`: an event only. -/
def emitRollback (ctx : Ctx) (s : State) : Except String State := do
  onlyRegistered ctx s
  pure s

/-- `setProposer(addr, proposer)` -/
def setProposer (ctx : Ctx) (addr : Address) (proposer : LinkedAddress) (s : State) :
    Except String State := do
  onlyProposer ctx s
  pure { s with proposers := Function.update s.proposers addr proposer }

/-- `setCurrentProposer(proposer)` -/
def setCurrentProposer (ctx : Ctx) (proposer : Address) (s : State) : Except String State := do
  onlyProposer ctx s
  pure { s with currentProposer := s.proposers proposer }

/-- `resetFeeBookInfo(proposer, blockNumberL2)` -/
def resetFeeBookInfo (ctx : Ctx) (proposer : Address) (blockNumberL2 : ℕ) (s : State) :
    Except String State := do
  onlyShield ctx s
  pure { s with feeBook := Function.update s.feeBook (κ.packed proposer blockNumberL2) 0 }

/-- `popBlockData()`: `blockHashes.length - 1` underflows, and so reverts, on an empty list. -/
def popBlockData (ctx : Ctx) (s : State) : Except String (BlockData × State) := do
  onlyChallenger ctx s
  match s.blockHashes.getLast? with
  | none => throw "Panic(0x11)"
  | some popped => pure (popped, { s with blockHashes := s.blockHashes.dropLast })

/-- `addPendingWithdrawal(addr, amountEth, amountMatic)` -/
def addPendingWithdrawal (ctx : Ctx) (addr : Address) (amountEth amountMatic : ℕ) (s : State) :
    Except String (State × List Entry) := do
  onlyRegistered ctx s
  let eth ← checkedAdd (s.pendingWithdrawals addr 0) amountEth
  let matic ← checkedAdd (s.pendingWithdrawals addr 1) amountMatic
  pure ({ s with pendingWithdrawals := Function.update s.pendingWithdrawals addr ![eth, matic] },
    [.credit addr 0 amountEth, .credit addr 1 amountMatic])

/-- `setProposerStartBlock(sb)` -/
def setProposerStartBlock (ctx : Ctx) (sb : ℕ) (s : State) : Except String State := do
  onlyProposer ctx s
  pure { s with proposerStartBlock := sb }

/-- The proposer records after `removeProposer(proposer)`: delete the record, then link its
neighbours to each other through their `thisAddress`. -/
def unlinkProposer (proposers : Address → LinkedAddress) (proposer : Address) :
    Address → LinkedAddress :=
  let previousAddress := (proposers proposer).previousAddress
  let nextAddress := (proposers proposer).nextAddress
  let P₁ := Function.update proposers proposer default
  let P₂ := Function.update P₁ previousAddress
    { P₁ previousAddress with nextAddress := (P₁ nextAddress).thisAddress }
  Function.update P₂ nextAddress
    { P₂ nextAddress with previousAddress := (P₂ previousAddress).thisAddress }

/-- The storage after the body of `removeProposer(proposer)`: the unlinked ring, and the record
at the removed proposer's `nextAddress` as the current proposer, whoever was current. -/
def removeProposerBody (ctx : Ctx) (proposer : Address) (s : State) : State :=
  let proposers := unlinkProposer s.proposers proposer
  { s with
    proposers := proposers
    proposerStartBlock := ctx.number
    currentProposer := proposers (s.proposers proposer).nextAddress }

/-- `removeProposer(proposer)` -/
def removeProposer (ctx : Ctx) (proposer : Address) (s : State) : Except String State := do
  onlyRegistered ctx s
  pure (removeProposerBody ctx proposer s)

/-- `updateProposer(proposer, url)` -/
def updateProposer (ctx : Ctx) (proposer : Address) (url : String) (s : State) :
    Except String State := do
  onlyProposer ctx s
  pure { s with
    proposers := Function.update s.proposers proposer { s.proposers proposer with url := url } }

/-- `setBondAccount(addr, amount)` -/
def setBondAccount (ctx : Ctx) (addr : Address) (amount : ℕ) (s : State) : Except String State := do
  onlyProposer ctx s
  pure { s with bondAccounts := Function.update s.bondAccounts addr ⟨amount, 0⟩ }

/-- `rewardChallenger(challengerAddr, proposer, numRemoved)`: remove the proposer, confiscate its
bond, and credit the challenger with the bond and the stakes of the removed blocks. -/
def rewardChallenger (ctx : Ctx) (challengerAddr proposer : Address) (numRemoved : ℕ) (s : State) :
    Except String (State × List Entry) := do
  onlyChallenger ctx s
  let s ← removeProposer ctx proposer s
  let bond := s.bondAccounts proposer
  let s := { s with bondAccounts := Function.update s.bondAccounts proposer ⟨0, 0⟩ }
  let amount ← checkedAdd bond.amount (← checkedMul numRemoved cfg.blockStake)
  let eth ← checkedAdd (s.pendingWithdrawals challengerAddr 0) amount
  let credited := Function.update (s.pendingWithdrawals challengerAddr) 0 eth
  pure ({ s with
      pendingWithdrawals := Function.update s.pendingWithdrawals challengerAddr credited },
    [.credit challengerAddr 0 amount])

/-- `updateBondAccountTime(addr, time)` -/
def updateBondAccountTime (ctx : Ctx) (addr : Address) (time : ℕ) (s : State) :
    Except String State := do
  onlyProposer ctx s
  pure { s with
    bondAccounts := Function.update s.bondAccounts addr { s.bondAccounts addr with time := time } }

/-- `setBlockStakeWithdrawn(blockHash)` -/
def setBlockStakeWithdrawn (ctx : Ctx) (blockHash : Word) (s : State) : Except String State := do
  onlyRegistered ctx s
  pure { s with claimedBlockStakes := Function.update s.claimedBlockStakes blockHash true }

/-! ### Two view functions

The fee book is read by the Shield contract when it pays a proposer; `isBlockReal` is the check a
challenge starts with. -/

/-- `getFeeBookInfo(proposer, blockNumberL2)` -/
def getFeeBookInfo (proposer : Address) (blockNumberL2 : ℕ) (s : State) : ℕ × ℕ :=
  let input := κ.packed proposer blockNumberL2
  (s.feeBook input 0, s.feeBook input 1)

/-- Modelled from the spec: `Utils.hashBlock(b)` (`Utils.sol` is not among the sources) — the hash
`proposeBlock` records for `b`, which a challenge must be able to recompute from the block data,
as the comment at its `blockHashes.push` says: `keccak256` of the block's words. -/
def hashBlock (b : Block) : Word := κ.words b.abiWords

/-- `isBlockReal(b)`: reading `blockHashes` past its end reverts with `Panic(0x32)`. -/
def isBlockReal (b : Block) (s : State) : Except String Word := do
  let blockHash := hashBlock κ b
  match s.blockHashes[b.blockNumberL2]? with
  | none => throw "Panic(0x32)"
  | some d =>
    require (d.blockHash = blockHash) "This block does not exist"
    pure blockHash

theorem isBlockReal_eq_ok {b : Block} {s : State} {w : Word} :
    isBlockReal κ b s = .ok w ↔ ∃ hk : b.blockNumberL2 < s.blockHashes.length,
      s.blockHashes[b.blockNumberL2].blockHash = hashBlock κ b ∧ w = hashBlock κ b := by
  unfold isBlockReal
  by_cases hk : b.blockNumberL2 < s.blockHashes.length
  · simp only [List.getElem?_eq_getElem hk, bind_eq_ok, require_eq_ok, hk, exists_true_left]
    simp [pure, Except.pure, eq_comm]
  · simp [List.getElem?_eq_none (Nat.le_of_not_lt hk), hk, throw, throwThe, MonadExceptOf.throw]

end Functions

/-! ## Calls and runs -/

/-- **A call of a function of `State` other than `withdraw`**, with its arguments. -/
inductive Op
  | proposeBlock (escrowed : Word → Bool) (mem : Memory) (b : Block) (t : List Transaction)
  | emitRollback (blockNumberL2ToRollbackTo : ℕ)
  | setProposer (addr : Address) (proposer : LinkedAddress)
  | setCurrentProposer (proposer : Address)
  | resetFeeBookInfo (proposer : Address) (blockNumberL2 : ℕ)
  | popBlockData
  | addPendingWithdrawal (addr : Address) (amountEth amountMatic : ℕ)
  | setProposerStartBlock (sb : ℕ)
  | removeProposer (proposer : Address)
  | updateProposer (proposer : Address) (url : String)
  | setBondAccount (addr : Address) (amount : ℕ)
  | rewardChallenger (challengerAddr proposer : Address) (numRemoved : ℕ)
  | updateBondAccountTime (addr : Address) (time : ℕ)
  | setBlockStakeWithdrawn (blockHash : Word)

section Runs

variable (κ : Keccak) (cfg : Config)

/-- A call that makes no ledger entries. -/
def noEntries (r : Except String State) : Except String (State × List Entry) := (·, []) <$> r

/-- **One call of `State`**, other than `withdraw`. -/
def Op.apply (ctx : Ctx) : Op → State → Except String (State × List Entry)
  | .proposeBlock escrowed mem b t, s =>
    noEntries (Nightfall.proposeBlock κ cfg escrowed mem ctx b t s)
  | .emitRollback _, s => noEntries (Nightfall.emitRollback ctx s)
  | .setProposer addr proposer, s => noEntries (Nightfall.setProposer ctx addr proposer s)
  | .setCurrentProposer proposer, s => noEntries (Nightfall.setCurrentProposer ctx proposer s)
  | .resetFeeBookInfo proposer n, s => noEntries (Nightfall.resetFeeBookInfo κ ctx proposer n s)
  | .popBlockData, s => noEntries (Prod.snd <$> Nightfall.popBlockData ctx s)
  | .addPendingWithdrawal addr e m, s => Nightfall.addPendingWithdrawal ctx addr e m s
  | .setProposerStartBlock sb, s => noEntries (Nightfall.setProposerStartBlock ctx sb s)
  | .removeProposer proposer, s => noEntries (Nightfall.removeProposer ctx proposer s)
  | .updateProposer proposer url, s => noEntries (Nightfall.updateProposer ctx proposer url s)
  | .setBondAccount addr amount, s => noEntries (Nightfall.setBondAccount ctx addr amount s)
  | .rewardChallenger c p n, s => Nightfall.rewardChallenger cfg ctx c p n s
  | .updateBondAccountTime addr time, s =>
    noEntries (Nightfall.updateBondAccountTime ctx addr time s)
  | .setBlockStakeWithdrawn h, s => noEntries (Nightfall.setBlockStakeWithdrawn ctx h s)

/-- **Calls one after another**, a reverted call leaving the storage as it was; the storage at
the end and the ledger entries of the calls that went through. -/
def runOps : List (Ctx × Op) → State → State × List Entry
  | [], s => (s, [])
  | (ctx, o) :: os, s =>
    match o.apply κ cfg ctx s with
    | .ok (s', es) => let r := runOps os s'; (r.1, es ++ r.2)
    | .error _ => runOps os s

/-- The ETH leg of `withdraw`: for a non-zero amount,
`payable(msg.sender).call{value: amountEth}('')`, during which the recipient makes the calls
`reentry`, then `require(success, 'Transfer failed.')`. -/
def withdrawEth (recipient : Address) (amountEth : ℕ) (reentry : List (Ctx × Op)) (success : Bool)
    (s : State) : Except String (State × List Entry) :=
  if 0 < amountEth then do
    let r := runOps κ cfg reentry s
    require (success = true) "Transfer failed."
    pure (r.1, r.2 ++ [.payout recipient 0 amountEth])
  else pure (s, [])

/-- The MATIC leg of `withdraw`: for a non-zero amount, `pendingWithdrawals[msg.sender][1] = 0`
and the token transfer, which goes through or reverts. -/
def withdrawMatic (recipient : Address) (amountMatic : ℕ) (success : Bool)
    (r : State × List Entry) : Except String (State × List Entry) :=
  if 0 < amountMatic then do
    require (success = true) "SafeERC20: low-level call failed"
    let zeroed := Function.update (r.1.pendingWithdrawals recipient) 1 0
    pure ({ r.1 with
        pendingWithdrawals := Function.update r.1.pendingWithdrawals recipient zeroed },
      r.2 ++ [.payout recipient 1 amountMatic])
  else pure r

/-- **`withdraw()`.**  It reads both balances of `msg.sender`, zeroes them, and pays them out:
the ETH transfer runs the calls `reentry` before it returns and goes through or not
(`ethSuccess`), the MATIC transfer goes through or not (`maticSuccess`); either failure reverts
the whole call. -/
def withdraw (ctx : Ctx) (reentry : List (Ctx × Op)) (ethSuccess maticSuccess : Bool) (s : State) :
    Except String (State × List Entry) := do
  whenNotPaused s
  let amountEth := s.pendingWithdrawals ctx.sender 0
  let amountMatic := s.pendingWithdrawals ctx.sender 1
  let s := { s with pendingWithdrawals := Function.update s.pendingWithdrawals ctx.sender ![0, 0] }
  let r ← withdrawEth κ cfg ctx.sender amountEth reentry ethSuccess s
  withdrawMatic ctx.sender amountMatic maticSuccess r

/-- **A transaction calling `State`.** -/
inductive Call
  | op (ctx : Ctx) (o : Op)
  | withdraw (ctx : Ctx) (reentry : List (Ctx × Op)) (ethSuccess maticSuccess : Bool)

/-- One transaction. -/
def Call.apply : Call → State → Except String (State × List Entry)
  | .op ctx o, s => o.apply κ cfg ctx s
  | .withdraw ctx reentry e m, s => Nightfall.withdraw κ cfg ctx reentry e m s

/-- **A run**: transactions one after another, a reverted one leaving the storage as it was. -/
def run : List Call → State → State × List Entry
  | [], s => (s, [])
  | c :: cs, s =>
    match c.apply κ cfg s with
    | .ok (s', es) => let r := run cs s'; (r.1, es ++ r.2)
    | .error _ => run cs s

end Runs

end Nightfall
