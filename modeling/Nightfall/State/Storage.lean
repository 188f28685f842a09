import Mathlib.Logic.Function.Basic
import Mathlib.Data.Fin.Basic
import Mathlib.Algebra.Group.Nat.Basic

/-!
# State/Storage — the storage of the `State` contract, and what a call sees

`State.sol` holds the rollup's global state: the list of proposed block hashes, the withdrawal
ledger, the proposer ring, the bond accounts and the fee book.  A call of one of its functions
either reverts, leaving the storage as it was, or returns the new storage; a revert is an
`Except.error` carrying the revert reason.

The structs `Block`, `Transaction`, `LinkedAddress` and `TimeLockedBond` and the constants of
`Config.sol` are declared outside the sources; they appear here with the fields `State.sol`
reads, and the constants as the fields of `Config`.
-/

namespace Nightfall

/-- A 256-bit EVM word.  The arithmetic that can overflow (`+=` and `*` on `uint256`) is checked
explicitly below, as Solidity 0.8 does. -/
abbrev Word := ℕ

/-- An account address. -/
abbrev Address := ℕ

/-- **The hash functions `State` computes.**  Both are `keccak256`, over two encodings. -/
structure Keccak where
  /-- `keccak256` over a run of whole ABI words. -/
  words : List Word → Word
  /-- `keccak256(abi.encodePacked(proposer, blockNumberL2))`, the key of `feeBook`. -/
  packed : Address → ℕ → Word

/-- **The constants `State` reads from `Config.sol` and its storage layout.**
`shieldAddressSlot` is the compile-time storage slot of the variable `shieldAddress`, the value
the assembly of `proposeBlock` names as `shieldAddress.slot`. -/
structure Config where
  /-- `BLOCK_STAKE` -/
  blockStake : ℕ
  /-- `TRANSACTIONS_PER_BLOCK` -/
  transactionsPerBlock : ℕ
  /-- `shieldAddress.slot` -/
  shieldAddressSlot : ℕ

/-- **What a call sees of the chain**: `msg.sender`, `msg.value`, `block.number` and
`block.timestamp`. -/
structure Ctx where
  sender : Address
  value : ℕ
  number : ℕ
  timestamp : ℕ

/-! ## The structs -/

/-- Modelled from the spec: `Structures.sol` is not among the sources.  A proposed block, with the
fields the optimist's `newBlock` hands to `Block.buildSolidityStruct`; the transactions-hash root
is the last field, the word `proposeBlock`'s assembly reads at `blockSlots - 1`. -/
structure Block where
  leafCount : ℕ
  proposer : Address
  root : Word
  blockNumberL2 : ℕ
  previousBlockHash : Word
  frontierHash : Word
  transactionHashesRoot : Word
  deriving DecidableEq, Repr

/-- The ABI words of a block, the `BLOCK_STRUCTURE_SLOTS` words `proposeBlock` copies from
calldata. -/
def Block.abiWords (b : Block) : List Word :=
  [b.leafCount, b.proposer, b.root, b.blockNumberL2, b.previousBlockHash, b.frontierHash,
    b.transactionHashesRoot]

/-- `BLOCK_STRUCTURE_SLOTS` -/
def blockStructureSlots : ℕ := 7

@[simp] theorem Block.length_abiWords (b : Block) : b.abiWords.length = blockStructureSlots := rfl

/-- Modelled from the spec: `Structures.sol` is not among the sources.  A transaction as `State`
reads it: the words `value`, `fee` and `transactionType` come first (the assembly reads the
type at word 2), and `rest` holds the remaining words, which `State` reads only through the
transaction hash. -/
structure Transaction where
  value : Word
  fee : Word
  transactionType : Word
  rest : List Word
  deriving DecidableEq, Repr

/-- The ABI words of a transaction, the `TRANSACTION_STRUCTURE_SLOTS` words `proposeBlock`
copies from calldata and hashes. -/
def Transaction.abiWords (t : Transaction) : List Word :=
  t.value :: t.fee :: t.transactionType :: t.rest

/-- `TransactionTypes.DEPOSIT` -/
def deposit : Word := 0

/-- Modelled from the spec: the number of members of the enum `TransactionTypes` (declared in
`Structures.sol`, not among the sources) — deposit, single transfer, double transfer and
withdrawal, the last of which the client's `withdraw` builds as type `3`.  ABI coder v2 reverts
on a calldata enum word not below it when the word is read. -/
def transactionTypes : ℕ := 4

/-- An entry of `blockHashes`. -/
structure BlockData where
  blockHash : Word
  time : ℕ
  deriving DecidableEq, Repr

/-- An entry of the proposer ring.  `delete` leaves the all-zero record, the `default`. -/
@[ext] structure LinkedAddress where
  thisAddress : Address
  previousAddress : Address
  nextAddress : Address
  url : String
  fee : ℕ
  deriving DecidableEq, Repr, Inhabited

namespace LinkedAddress

@[simp] theorem default_thisAddress : (default : LinkedAddress).thisAddress = 0 := rfl
@[simp] theorem default_previousAddress : (default : LinkedAddress).previousAddress = 0 := rfl
@[simp] theorem default_nextAddress : (default : LinkedAddress).nextAddress = 0 := rfl
@[simp] theorem default_url : (default : LinkedAddress).url = "" := rfl
@[simp] theorem default_fee : (default : LinkedAddress).fee = 0 := rfl

end LinkedAddress

/-- A proposer's bond. -/
structure TimeLockedBond where
  amount : ℕ
  time : ℕ
  deriving DecidableEq, Repr

/-! ## The storage -/

/-- **The storage of `State`.**  `paused` is the flag of `Pausable`, read by `whenNotPaused`. -/
structure State where
  blockHashes : List BlockData
  pendingWithdrawals : Address → Fin 2 → ℕ
  proposers : Address → LinkedAddress
  bondAccounts : Address → TimeLockedBond
  feeBook : Word → Fin 2 → ℕ
  claimedBlockStakes : Word → Bool
  currentProposer : LinkedAddress
  proposerStartBlock : ℕ
  proposersAddress : Address
  challengesAddress : Address
  shieldAddress : Address
  paused : Bool

/-- The storage after `initialize(_proposersAddress, _challengesAddress, _shieldAddress)`. -/
def State.init (proposersAddress challengesAddress shieldAddress : Address) : State where
  blockHashes := []
  pendingWithdrawals := fun _ _ => 0
  proposers := fun _ => default
  bondAccounts := fun _ => ⟨0, 0⟩
  feeBook := fun _ _ => 0
  claimedBlockStakes := fun _ => false
  currentProposer := default
  proposerStartBlock := 0
  proposersAddress := proposersAddress
  challengesAddress := challengesAddress
  shieldAddress := shieldAddress
  paused := false

/-- **A ledger entry**: what a call credits to `pendingWithdrawals[addr][asset]`, or pays out of
it to `addr`.  Asset `0` is ETH and asset `1` is MATIC. -/
inductive Entry
  | credit (addr : Address) (asset : Fin 2) (amount : ℕ)
  | payout (addr : Address) (asset : Fin 2) (amount : ℕ)
  deriving DecidableEq, Repr

/-! ## Reverts, checked arithmetic and the modifiers -/

/-- `require(c, msg)` -/
def require (c : Prop) [Decidable c] (msg : String) : Except String Unit :=
  if c then pure () else throw msg

@[simp] theorem require_eq_ok {c : Prop} [Decidable c] {msg : String} {u : Unit} :
    require c msg = .ok u ↔ c := by
  unfold require; split <;> simp_all [pure, Except.pure, throw, throwThe, MonadExceptOf.throw]

/-- A sequence of steps went through exactly when its first step did and the rest went through
from its result. -/
@[simp] theorem bind_eq_ok {α β : Type} {x : Except String α} {f : α → Except String β} {b : β} :
    x >>= f = .ok b ↔ ∃ a, x = .ok a ∧ f a = .ok b := by
  cases x <;> simp [bind, Except.bind]

/-- Solidity 0.8 `a + b` on `uint256`: an overflow reverts with `Panic(0x11)`. -/
def checkedAdd (a b : ℕ) : Except String ℕ :=
  if a + b < 2 ^ 256 then pure (a + b) else throw "Panic(0x11)"

/-- Solidity 0.8 `a * b` on `uint256`. -/
def checkedMul (a b : ℕ) : Except String ℕ :=
  if a * b < 2 ^ 256 then pure (a * b) else throw "Panic(0x11)"

theorem checkedAdd_eq_ok_iff {a b c : ℕ} : checkedAdd a b = .ok c ↔ a + b < 2 ^ 256 ∧ c = a + b := by
  unfold checkedAdd; split <;> simp_all [pure, Except.pure, throw, throwThe, MonadExceptOf.throw,
    eq_comm]

theorem checkedAdd_eq_ok {a b c : ℕ} (h : checkedAdd a b = .ok c) : c = a + b :=
  (checkedAdd_eq_ok_iff.1 h).2

theorem checkedMul_eq_ok {a b c : ℕ} (h : checkedMul a b = .ok c) : c = a * b := by
  unfold checkedMul at h; split at h <;> cases h; rfl

/-- The modifiers that admit one registered contract: `onlyShield`, `onlyProposer` and
`onlyChallenger` differ only in the address they compare with and their message. -/
def onlyContract (contract : Address) (msg : String) (ctx : Ctx) : Except String Unit :=
  require (ctx.sender = contract) msg

/-- `onlyShield` -/
def onlyShield (ctx : Ctx) (s : State) : Except String Unit :=
  onlyContract s.shieldAddress "Only shield contract is authorized" ctx

/-- `onlyProposer` -/
def onlyProposer (ctx : Ctx) (s : State) : Except String Unit :=
  onlyContract s.proposersAddress "Only proposer contract is authorized" ctx

/-- `onlyChallenger` -/
def onlyChallenger (ctx : Ctx) (s : State) : Except String Unit :=
  onlyContract s.challengesAddress "Only challenger contract is authorized" ctx

/-- `onlyRegistered`: any of the three registered contracts. -/
def onlyRegistered (ctx : Ctx) (s : State) : Except String Unit :=
  require (ctx.sender = s.proposersAddress ∨ ctx.sender = s.challengesAddress ∨
    ctx.sender = s.shieldAddress) "This address is not authorised to call this function"

/-- `onlyCurrentProposer` -/
def onlyCurrentProposer (ctx : Ctx) (s : State) : Except String Unit :=
  require (ctx.sender = s.currentProposer.thisAddress) "Only the current proposer can call this."

/-- Modelled from the spec: `Pausable.sol` is not among the sources; `whenNotPaused` reverts
while the contract is paused. -/
def whenNotPaused (s : State) : Except String Unit :=
  require (s.paused = false) "Pausable: paused"

end Nightfall
