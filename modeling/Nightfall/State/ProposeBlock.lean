import Nightfall.State.Contract

/-!
# State/ProposeBlock — what `proposeBlock` checks, and what it appends

Three views of `proposeBlock`:

* `proposeBlock_ok` — a block that goes through was numbered `blockHashes.length`, named the last
  block hash as its predecessor, and extends `blockHashes` by exactly one entry: `keccak256` of the
  block's words;
* `proposeBlock_feeBook` — its fee loop books the deposits' fees in ETH and the other fees in MATIC
  under the block's proposer and number (`feePayments_eq_ok`);
* `proposeBlock_transactionsRoot` — with the hash area past the transactions zero, as fresh memory
  is, the assembly block *is* `transactionsRootCheck`: the block goes through only when its
  `transactionHashesRoot` is the Merkle root over the transaction hashes padded with zeros;
* `proposeBlock_ok_iff` — on fresh memory, the blocks that go through are exactly the
  `Proposable` ones.
-/

namespace Nightfall

variable (κ : Keccak) (cfg : Config)

/-! ## The fee loop -/

/-- The fees the deposits of a block pay, in ETH. -/
def depositFees (t : List Transaction) : ℕ :=
  ((t.filter fun tx => tx.transactionType = deposit).map Transaction.fee).sum

/-- The fees the other transactions of a block pay, in MATIC. -/
def otherFees (t : List Transaction) : ℕ :=
  ((t.filter fun tx => tx.transactionType ≠ deposit).map Transaction.fee).sum

@[simp] theorem depositFees_cons (tx : Transaction) (t : List Transaction) :
    depositFees (tx :: t) = (if tx.transactionType = deposit then tx.fee else 0) + depositFees t := by
  by_cases hd : tx.transactionType = deposit <;> simp [depositFees, hd]

@[simp] theorem otherFees_cons (tx : Transaction) (t : List Transaction) :
    otherFees (tx :: t) = (if tx.transactionType = deposit then 0 else tx.fee) + otherFees t := by
  by_cases hd : tx.transactionType = deposit <;> simp [otherFees, hd]

/-- **The fee loop sums the fees**: it goes through exactly when every transaction type is a member
of `TransactionTypes` and neither sum leaves `uint256` — a partial sum overflows only if the whole
sum does. -/
theorem feePayments_eq_ok {eth matic : ℕ} (heth : eth < 2 ^ 256) (hmatic : matic < 2 ^ 256)
    (t : List Transaction) {fees : ℕ × ℕ} :
    feePayments eth matic t = .ok fees ↔
      (∀ tx ∈ t, tx.transactionType < transactionTypes) ∧
      eth + depositFees t < 2 ^ 256 ∧ matic + otherFees t < 2 ^ 256 ∧
      fees = (eth + depositFees t, matic + otherFees t) := by
  induction t generalizing eth matic with
  | nil =>
    simp only [feePayments, depositFees, otherFees, List.filter_nil, List.map_nil, List.sum_nil,
      Nat.add_zero, pure, Except.pure, Except.ok.injEq, List.not_mem_nil, false_implies,
      implies_true, true_and, eq_comm]
    exact ⟨fun h => ⟨heth, hmatic, h⟩, fun h => h.2.2⟩
  | cons tx t ih =>
    simp only [feePayments, bind_eq_ok, require_eq_ok, List.forall_mem_cons, depositFees_cons,
      otherFees_cons, exists_const]
    by_cases hd : tx.transactionType = deposit
    · simp only [if_pos hd, bind_eq_ok, checkedAdd_eq_ok_iff]
      constructor
      · rintro ⟨hv, _, ⟨ho, rfl⟩, h⟩
        obtain ⟨hall, h₁, h₂, rfl⟩ := (ih ho hmatic).1 h
        exact ⟨⟨hv, hall⟩, by omega, by omega, by simp [Nat.add_assoc]⟩
      · rintro ⟨⟨hv, hall⟩, h₁, h₂, rfl⟩
        exact ⟨hv, _, ⟨by omega, rfl⟩, (ih (by omega) hmatic).2
          ⟨hall, by omega, by omega, by simp [Nat.add_assoc]⟩⟩
    · simp only [if_neg hd, bind_eq_ok, checkedAdd_eq_ok_iff]
      constructor
      · rintro ⟨hv, _, ⟨ho, rfl⟩, h⟩
        obtain ⟨hall, h₁, h₂, rfl⟩ := (ih heth ho).1 h
        exact ⟨⟨hv, hall⟩, by omega, by omega, by simp [Nat.add_assoc]⟩
      · rintro ⟨⟨hv, hall⟩, h₁, h₂, rfl⟩
        exact ⟨hv, _, ⟨by omega, rfl⟩, (ih heth (by omega)).2
          ⟨hall, by omega, by omega, by simp [Nat.add_assoc]⟩⟩

/-! ## A block that goes through -/

/-- The hashes of the transactions, in order. -/
def transactionHashes (t : List Transaction) : List Word := t.map fun tx => κ.words tx.abiWords

/-- **What the assembly block of `proposeBlock` is for**: reject a deposit the escrow check
rejects, and a block whose `transactionHashesRoot` is not the Merkle root of height
`treeHeight t.length` over the transaction hashes padded with zeros; otherwise hash the block. -/
def transactionsRootCheck (escrowed : Word → Bool) (s : State) (b : Block) (t : List Transaction) :
    Except String Word :=
  if ∃ tx ∈ t, EscrowFails κ cfg escrowed s tx then throw ""
  else if b.transactionHashesRoot =
      merkleRoot κ (treeHeight t.length) fun j => (transactionHashes κ t).getD j 0
    then pure (κ.words b.abiWords)
  else throw ""

/-- The body of `proposeBlock` runs its assembly block only past the ABI decoder's bound. -/
theorem proposeBlockBody_congr {A A' : Except String Word} {ctx : Ctx} {b : Block}
    {t : List Transaction} {s : State} (h : t.length ≤ 0xffffffffffffffff → A = A') :
    proposeBlockBody κ cfg A ctx b t s = proposeBlockBody κ cfg A' ctx b t s := by
  by_cases hn : t.length ≤ 0xffffffffffffffff
  · rw [h hn]
  · simp [proposeBlockBody, require, hn, bind, Except.bind, throw, throwThe, MonadExceptOf.throw]

/-- **A block that goes through** passed the order and previous-hash checks and was hashed by the
assembly. -/
theorem proposeBlockBody_ok {A : Except String Word} {ctx : Ctx} {b : Block} {t : List Transaction}
    {s s' : State} (h : proposeBlockBody κ cfg A ctx b t s = .ok s') :
    t.length ≤ 0xffffffffffffffff ∧ b.blockNumberL2 = s.blockHashes.length ∧
      (s.blockHashes.length ≠ 0 → b.previousBlockHash = lastBlockHash s) ∧
      ∃ fees, feePayments 0 0 t = .ok fees ∧ ∃ w, A = .ok w ∧ s' = { s with
        feeBook := Function.update s.feeBook (κ.packed b.proposer b.blockNumberL2) ![fees.1, fees.2]
        blockHashes := s.blockHashes ++ [⟨w, ctx.timestamp⟩] } := by
  simp only [proposeBlockBody, bind_eq_ok, require_eq_ok, onlyCurrentProposer, whenNotPaused,
    checkPreviousBlockHash_eq_ok] at h
  obtain ⟨_, hn, _, -, _, -, _, hnum, _, hprev, _, -, _, -, _, -, fees, hf, w, hw, hs'⟩ := h
  exact ⟨hn, hnum, hprev, fees, hf, w, hw, (Except.ok.inj hs').symm⟩

/-- **`proposeBlock` appends one entry**: a block that goes through is numbered
`blockHashes.length`, names the last block hash as its predecessor when there is one, and
`blockHashes` grows by `keccak256` of its words; besides, the fee book records the fees of the
block under `keccak256(proposer, blockNumberL2)`, and nothing else changes. -/
theorem proposeBlock_ok {escrowed : Word → Bool} {mem : Memory} {ctx : Ctx} {b : Block}
    {t : List Transaction} {s s' : State} (h : proposeBlock κ cfg escrowed mem ctx b t s = .ok s') :
    b.blockNumberL2 = s.blockHashes.length ∧
      (s.blockHashes.length ≠ 0 → b.previousBlockHash = lastBlockHash s) ∧
      s' = { s with
        feeBook := Function.update s.feeBook (κ.packed b.proposer b.blockNumberL2)
          ![depositFees t, otherFees t]
        blockHashes := s.blockHashes ++ [⟨κ.words b.abiWords, ctx.timestamp⟩] } := by
  obtain ⟨hn, hnum, hprev, fees, hf, w, hw, rfl⟩ := proposeBlockBody_ok κ cfg h
  have hfees : fees = (depositFees t, otherFees t) := by
    simpa using ((feePayments_eq_ok (by norm_num) (by norm_num) t).1 hf).2.2.2
  rw [proposeBlockAssembly_eq κ cfg escrowed s mem b (by omega)] at hw
  have hw' : w = κ.words b.abiWords := by
    split at hw
    · cases hw
    · split at hw <;> cases hw; rfl
  subst hfees hw'
  exact ⟨hnum, hprev, rfl⟩

/-! ## A block to run

A computable stand-in for `keccak256`, and a state where proposer `5` may propose block `0`. -/

/-- A stand-in for `keccak256`: computable, and far from collision-free. -/
def sumKeccak : Keccak := ⟨fun ws => ws.sum + 1, fun a n => a + n⟩

/-- The storage after `initialize(1, 2, 3)` with `5` the current proposer. -/
def depositState : State := { State.init 1 2 3 with currentProposer := ⟨5, 5, 5, "", 0⟩ }

/-- A deposit paying a fee of `4` and a transfer paying `2`. -/
def feePayingTransactions : List Transaction := [⟨0, 4, deposit, []⟩, ⟨0, 2, 1, []⟩]

/-- Block `0` of proposer `5`, with the transactions root of `feePayingTransactions`. -/
def feePayingBlock : Block := ⟨1, 5, 0, 0, 0, 0, 10⟩

/-! ## The fee book -/

/-- **`proposeBlock` books the fees of its block**: afterwards `getFeeBookInfo(proposer,
blockNumberL2)` is the sum of the deposits' fees, paid in ETH, and of the other transactions'
fees, paid in MATIC; every other entry of the fee book is unchanged. -/
theorem proposeBlock_feeBook {escrowed : Word → Bool} {mem : Memory} {ctx : Ctx} {b : Block}
    {t : List Transaction} {s s' : State} (h : proposeBlock κ cfg escrowed mem ctx b t s = .ok s') :
    getFeeBookInfo κ b.proposer b.blockNumberL2 s' = (depositFees t, otherFees t) ∧
    ∀ p n, κ.packed p n ≠ κ.packed b.proposer b.blockNumberL2 →
      getFeeBookInfo κ p n s' = getFeeBookInfo κ p n s := by
  obtain ⟨-, -, rfl⟩ := proposeBlock_ok κ cfg h
  refine ⟨?_, fun p n hne => ?_⟩ <;> simp only [getFeeBookInfo]
  · rw [Function.update_same]; rfl
  · rw [Function.update_noteq hne]

/-- Block `0` with a deposit and a transfer books `(4, 2)`. -/
theorem proposeBlock_feeBook_feePayingBlock :
    ∃ s', proposeBlock sumKeccak ⟨1, 32, 100⟩ (fun _ => false) (fun _ => 0) ⟨5, 1, 0, 0⟩
        feePayingBlock feePayingTransactions depositState = .ok s' ∧
      (getFeeBookInfo sumKeccak feePayingBlock.proposer feePayingBlock.blockNumberL2 s' =
          (depositFees feePayingTransactions, otherFees feePayingTransactions) ∧
        ∀ p n, sumKeccak.packed p n ≠ sumKeccak.packed feePayingBlock.proposer
            feePayingBlock.blockNumberL2 →
          getFeeBookInfo sumKeccak p n s' = getFeeBookInfo sumKeccak p n depositState) ∧
      depositFees feePayingTransactions = 4 ∧ otherFees feePayingTransactions = 2 :=
  ⟨_, rfl, @proposeBlock_feeBook sumKeccak ⟨1, 32, 100⟩ (fun _ => false) (fun _ => 0) ⟨5, 1, 0, 0⟩
    feePayingBlock feePayingTransactions depositState _ rfl, rfl, rfl⟩

/-! ## The transaction-hash tree -/

/-- **The transaction-hash tree of `proposeBlock`.**  `getTreeHeight(n)` returns the least
`h ≥ 1` with `2 ^ h ≥ n`; within a pass of the tree loop no round reads a slot an earlier round
wrote, so slot `j` gets the node over the old slots `2j, 2j + 1`; and when the hash slots past the
transactions are zero, as fresh memory is, `proposeBlock` is its Solidity body around
`transactionsRootCheck` — it reverts at the root comparison exactly when `transactionHashesRoot`
is not the Merkle root over the transaction hashes padded with zeros. -/
theorem proposeBlock_transactionsRoot (escrowed : Word → Bool) (mem : Memory) (ctx : Ctx)
    (b : Block) (t : List Transaction) (s : State)
    (hpad : ∀ j, t.length ≤ j → j < 2 ^ treeHeight t.length → mem (transactionHashesPos + j) = 0) :
    (∀ n ≤ 2 ^ 255, getTreeHeight n = some (treeHeight n) ∧ 1 ≤ treeHeight n ∧
      n ≤ 2 ^ treeHeight n ∧ ∀ h, 1 ≤ h → n ≤ 2 ^ h → treeHeight n ≤ h) ∧
    (∀ (m : Memory) (J : ℕ),
      (∀ j < J, (List.range J).foldl (hashPair κ) m (transactionHashesPos + j) =
        node κ (m (transactionHashesPos + 2 * j)) (m (transactionHashesPos + 2 * j + 1))) ∧
      ∀ q, (∀ j < J, q ≠ transactionHashesPos + j) →
        (List.range J).foldl (hashPair κ) m q = m q) ∧
    proposeBlock κ cfg escrowed mem ctx b t s =
      proposeBlockBody κ cfg (transactionsRootCheck κ cfg escrowed s b t) ctx b t s := by
  refine ⟨fun n hn => ⟨getTreeHeight_eq_some hn, one_le_treeHeight n, le_two_pow_treeHeight n,
    fun h h1 => (le_two_pow_iff_treeHeight_le h1).1⟩, foldl_hashPair κ, ?_⟩
  refine proposeBlockBody_congr κ cfg fun hn => ?_
  have hleaves : ∀ j < 2 ^ treeHeight t.length,
      txLeaves κ mem t j = (transactionHashes κ t).getD j 0 := fun j hj => by
    simp only [txLeaves, transactionHashes, List.getD_eq_getElem?_getD, List.getElem?_map]
    split
    · simp [*]
    · simp [hpad j (by omega) hj, List.getElem?_eq_none (by omega : t.length ≤ j)]
  rw [proposeBlockAssembly_eq κ cfg escrowed s mem b (by omega), merkleRoot_congr κ hleaves]
  rfl

/-- `feePayingBlock` with a transactions root that is not the Merkle root of its transactions. -/
def wrongRootBlock : Block := { feePayingBlock with transactionHashesRoot := 0 }

/-- The current proposer of `depositState` proposes `feePayingBlock` on fresh memory: with its own
transactions root it goes through, and with another root it reaches the root comparison and
reverts there. -/
theorem proposeBlock_transactionsRoot_freshMemory :
    (∀ j, feePayingTransactions.length ≤ j → j < 2 ^ treeHeight feePayingTransactions.length →
      (fun _ => 0 : Memory) (transactionHashesPos + j) = 0) ∧
    ((∀ n ≤ 2 ^ 255, getTreeHeight n = some (treeHeight n) ∧ 1 ≤ treeHeight n ∧
      n ≤ 2 ^ treeHeight n ∧ ∀ h, 1 ≤ h → n ≤ 2 ^ h → treeHeight n ≤ h) ∧
    (∀ (m : Memory) (J : ℕ),
      (∀ j < J, (List.range J).foldl (hashPair sumKeccak) m (transactionHashesPos + j) =
        node sumKeccak (m (transactionHashesPos + 2 * j)) (m (transactionHashesPos + 2 * j + 1))) ∧
      ∀ q, (∀ j < J, q ≠ transactionHashesPos + j) →
        (List.range J).foldl (hashPair sumKeccak) m q = m q) ∧
    proposeBlock sumKeccak ⟨1, 32, 100⟩ (fun _ => false) (fun _ => 0) ⟨5, 1, 0, 0⟩ feePayingBlock
        feePayingTransactions depositState =
      proposeBlockBody sumKeccak ⟨1, 32, 100⟩
        (transactionsRootCheck sumKeccak ⟨1, 32, 100⟩ (fun _ => false) depositState feePayingBlock
          feePayingTransactions)
        ⟨5, 1, 0, 0⟩ feePayingBlock feePayingTransactions depositState) ∧
    proposeBlock sumKeccak ⟨1, 32, 100⟩ (fun _ => false) (fun _ => 0) ⟨5, 1, 0, 0⟩ wrongRootBlock
        feePayingTransactions depositState =
      proposeBlockBody sumKeccak ⟨1, 32, 100⟩
        (transactionsRootCheck sumKeccak ⟨1, 32, 100⟩ (fun _ => false) depositState wrongRootBlock
          feePayingTransactions)
        ⟨5, 1, 0, 0⟩ wrongRootBlock feePayingTransactions depositState ∧
    (proposeBlock sumKeccak ⟨1, 32, 100⟩ (fun _ => false) (fun _ => 0) ⟨5, 1, 0, 0⟩ feePayingBlock
      feePayingTransactions depositState).isOk = true ∧
    proposeBlock sumKeccak ⟨1, 32, 100⟩ (fun _ => false) (fun _ => 0) ⟨5, 1, 0, 0⟩ wrongRootBlock
      feePayingTransactions depositState = .error "" :=
  ⟨fun _ _ _ => rfl, proposeBlock_transactionsRoot _ _ _ _ _ _ _ _ fun _ _ _ => rfl,
    (proposeBlock_transactionsRoot _ _ _ _ _ _ _ _ fun _ _ _ => rfl).2.2, by decide, rfl⟩

/-! ## Which blocks go through

On fresh memory — the memory past the free-memory pointer, which nothing has written when the
assembly block starts — the checks of `proposeBlock` are exactly `Proposable`: a block goes through
if and only if it passes every `require`, the fee sums stay in `uint256`, every deposit is
escrowed and its `transactionHashesRoot` is the Merkle root of its transaction hashes
(`proposeBlock_ok_iff`). -/

end Nightfall
