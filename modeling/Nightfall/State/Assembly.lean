import Nightfall.State.Memory
import Mathlib.Data.Nat.Log

/-!
# State/Assembly — the assembly block of `proposeBlock`

`proposeBlock` hashes the block and its transactions in inline assembly.  From the free-memory
pointer `x` on it keeps two scratch words (slots `0` and `1`), the block's words (slots
`blockPos = 2` to `8`), the transaction hashes (from `transactionHashesPos = 9`, `2 ^ height`
slots) and, after them, the transaction being hashed (`transactionPos`).  Three loops run over
that memory:

* `getTreeHeight` — the least `height ≥ 1` with `2 ^ height ≥ t.length`
  (`getTreeHeight_eq_some`);
* `hashTransactions` — one round per transaction: copy, hash, and for a deposit call the Shield's
  `getTransactionEscrowed`, reverting when the word at `x` is then zero;
* `merklePasses` — `height` passes of the inner loop `merklePass`, folding the hash slots in
  place into the root of the transaction-hash tree.

Each definition follows one loop of the source; `none` from `getTreeHeight` is a loop that never
stops.
-/

namespace Nightfall

/-! ## The layout -/

/-- `blockPos := add(x, mul(0x20, 2))` -/
def blockPos : ℕ := 2

/-- `transactionHashesPos := add(blockPos, mul(0x20, blockSlots))` -/
def transactionHashesPos : ℕ := blockPos + blockStructureSlots

/-- `transactionPos := add(transactionHashesPos, mul(0x20, exp(2, getTreeHeight(t.length))))` -/
def transactionPos (height : ℕ) : ℕ := transactionHashesPos + evmExp2 height

/-! ## `getTreeHeight` -/

/-- The loop of `getTreeHeight` from `_height`, for at most `fuel` more rounds. -/
def getTreeHeightLoop (leaves : ℕ) : ℕ → ℕ → Option ℕ
  | 0, _ => none
  | fuel + 1, height =>
    if evmExp2 height < leaves then getTreeHeightLoop leaves fuel (height + 1) else some height

/-- `getTreeHeight(leaves)`.  From `_height = 256` on `exp(2, _height)` is `0`, so a loop that has
not stopped by then never stops: `none` is that loop, a call that runs out of gas. -/
def getTreeHeight (leaves : ℕ) : Option ℕ := getTreeHeightLoop leaves 256 1

/-- **The height of the transaction-hash tree over `n` leaves**: the least `h ≥ 1` with
`n ≤ 2 ^ h`. -/
def treeHeight (n : ℕ) : ℕ := max 1 (Nat.clog 2 n)

theorem one_le_treeHeight (n : ℕ) : 1 ≤ treeHeight n := le_max_left _ _

/-- `treeHeight n` is least: above `1`, `n` fits under `2 ^ h` exactly from `treeHeight n` on. -/
theorem le_two_pow_iff_treeHeight_le {n h : ℕ} (h1 : 1 ≤ h) : n ≤ 2 ^ h ↔ treeHeight n ≤ h := by
  rw [treeHeight, Nat.max_le, Nat.le_pow_iff_clog_le Nat.one_lt_two]
  exact ⟨fun hc => ⟨h1, hc⟩, fun hc => hc.2⟩

theorem le_two_pow_treeHeight (n : ℕ) : n ≤ 2 ^ treeHeight n :=
  (le_two_pow_iff_treeHeight_le (one_le_treeHeight n)).2 le_rfl

theorem getTreeHeightLoop_eq {n : ℕ} (hn : treeHeight n < 256) :
    ∀ fuel h, 1 ≤ h → h ≤ treeHeight n → treeHeight n - h < fuel →
      getTreeHeightLoop n fuel h = some (treeHeight n)
  | 0, _, _, _, hf => absurd hf (Nat.not_lt_zero _)
  | fuel + 1, h, h1, hle, hf => by
    rw [getTreeHeightLoop, evmExp2_of_lt (by omega)]
    split
    · have hlt : h < treeHeight n := lt_of_not_le fun hge =>
        absurd ((le_two_pow_iff_treeHeight_le h1).2 hge) (not_le.2 ‹_›)
      exact getTreeHeightLoop_eq hn fuel (h + 1) (by omega) hlt (by omega)
    · have := (le_two_pow_iff_treeHeight_le h1).1 (not_lt.1 ‹_›)
      rw [show h = treeHeight n by omega]

/-- **`getTreeHeight` returns the least `h ≥ 1` with `2 ^ h ≥ leaves`**, for every `leaves` up to
`2 ^ 255`. -/
theorem getTreeHeight_eq_some {n : ℕ} (hn : n ≤ 2 ^ 255) : getTreeHeight n = some (treeHeight n) :=
  have h255 : treeHeight n ≤ 255 := (le_two_pow_iff_treeHeight_le (by decide)).1 hn
  getTreeHeightLoop_eq (by omega) 256 1 le_rfl (one_le_treeHeight n) (by omega)

/-! ## The transaction loop -/

/-- `checkTxEscrowedSignature = bytes4(keccak256('getTransactionEscrowed(bytes32)'))`, the
selector `0x16ab9308`, as the assembly sees a `bytes4`: in the high four bytes of the word. -/
def checkTxEscrowedSignature : Word := 0x16ab9308 * 2 ^ 224

/-- Modelled from the spec: the Shield contract is not among the sources.  What a call of
`getTransactionEscrowed(h)` to `target` returns: the Shield contract, at `s.shieldAddress`,
answers with its escrow record as a 32-byte bool; an account without code returns no data
(`none`), and the call still succeeds. -/
def getTransactionEscrowedCall (escrowed : Word → Bool) (s : State) (target : Address) (h : Word) :
    Option Word :=
  if target = s.shieldAddress then some (if escrowed h then 1 else 0) else none

/-- The word at `x` after `mstore(x, checkTxEscrowedSignature)`, `mstore(add(x, 0x04), h)` and
`call(gas(), shieldAddress.slot, 0, x, 0x24, x, 0x20)`: the returned word, or the untouched input
when the call returned nothing. -/
def escrowWord (cfg : Config) (escrowed : Word → Bool) (s : State) (h : Word) : Word :=
  (getTransactionEscrowedCall escrowed s cfg.shieldAddressSlot h).getD
    (checkTxEscrowedSignature / 2 ^ 224 * 2 ^ 224 + h / 2 ^ 32)

section Loops

variable (κ : Keccak) (cfg : Config) (escrowed : Word → Bool) (s : State)

/-- The memory after `mstore(x, checkTxEscrowedSignature)`, `mstore(add(x, 0x04), h)` and
`call(gas(), shieldAddress.slot, 0, x, 0x24, x, 0x20)`: a 32-byte answer overwrites slot `0`. -/
def escrowCall (m : Memory) (h : Word) : Memory :=
  let m := mstoreOffset4 (mstore m 0 checkTxEscrowedSignature) 0 h
  match getTransactionEscrowedCall escrowed s cfg.shieldAddressSlot h with
  | some w => mstore m 0 w
  | none => m

/-- One round of the transaction loop, for transaction `tx` at index `i`: copy it to
`transactionPos`, store its hash at `transactionHashesPos + i`, and for a deposit ask
`shieldAddress.slot` whether it was escrowed, reverting when the word at `x` is then zero. -/
def hashTransaction (height : ℕ) (m : Memory) (i : ℕ) (tx : Transaction) : Except String Memory :=
  let m := calldatacopy m (transactionPos height) tx.abiWords
  let m := mstore m (transactionHashesPos + i)
    (κ.words (readWords m (transactionPos height) tx.abiWords.length))
  if tx.transactionType = deposit then
    let m := escrowCall cfg escrowed s m (m (transactionHashesPos + i))
    if m 0 = 0 then throw "" else pure m
  else pure m

/-- The transaction loop, from index `i`:
`for { let i := 0 } lt(i, t.length) { i := add(i, 1) }`. -/
def hashTransactions (height : ℕ) : Memory → ℕ → List Transaction → Except String Memory
  | m, _, [] => pure m
  | m, i, tx :: txs => do
    let m ← hashTransaction κ cfg escrowed s height m i tx
    hashTransactions height m (i + 1) txs

/-- One round of the inner tree loop: slot `j` of the hash area gets `0` over two zero children
and `keccak256` of slots `2j, 2j+1` otherwise. -/
def hashPair (m : Memory) (j : ℕ) : Memory :=
  let left := m (transactionHashesPos + 2 * j)
  let right := m (transactionHashesPos + 2 * j + 1)
  let m := if left = 0 ∧ right = 0 then mstore m (transactionHashesPos + j) 0 else m
  if ¬(left = 0 ∧ right = 0) then
    mstore m (transactionHashesPos + j) (κ.words (readWords m (transactionHashesPos + 2 * j) 2))
  else m

/-- The inner tree loop of pass `i`: `j` from `0` while `lt(j, exp(2, sub(i, 1)))`. -/
def merklePass (m : Memory) (i : ℕ) : Memory :=
  (List.range (evmExp2 (i - 1))).foldl (hashPair κ) m

/-- The outer tree loop: `i` from `height` down while `gt(i, 0)`. -/
def merklePasses : Memory → ℕ → Memory
  | m, 0 => m
  | m, i + 1 => merklePasses (merklePass κ m (i + 1)) i

/-- **The assembly block of `proposeBlock`**, from the memory `mem` it finds past the free-memory
pointer: the block hash it returns, or a revert. -/
def proposeBlockAssembly (mem : Memory) (b : Block) (t : List Transaction) : Except String Word :=
  match getTreeHeight t.length with
  | none => throw "out of gas"
  | some height => do
    let m := calldatacopy mem blockPos b.abiWords
    let m ← hashTransactions κ cfg escrowed s height m 0 t
    let m := merklePasses κ m height
    if m (blockPos + (blockStructureSlots - 1)) = m transactionHashesPos then
      pure (κ.words (readWords m blockPos blockStructureSlots))
    else throw ""

end Loops

/-! ## What the transaction loop leaves in memory

One round writes the scratch slots, the hash slot of its transaction and the transaction area;
so between `blockPos` and `transactionPos` the loop changes exactly the hash slots, as long as
there are no more transactions than hash slots. -/

section Spec

variable (κ : Keccak) (cfg : Config) (escrowed : Word → Bool) (s : State) {height : ℕ}

/-- The word at `x` after the escrow call is `escrowWord`. -/
theorem escrowCall_zero (m : Memory) (h : Word) :
    escrowCall cfg escrowed s m h 0 = escrowWord cfg escrowed s h := by
  unfold escrowCall escrowWord
  cases hc : getTransactionEscrowedCall escrowed s cfg.shieldAddressSlot h <;>
    simp [hc, mstoreOffset4_mstore_same]

/-- The escrow call writes the two scratch slots only. -/
theorem escrowCall_of_two_le (m : Memory) (h : Word) {q : ℕ} (hq : 2 ≤ q) :
    escrowCall cfg escrowed s m h q = m q := by
  have hm : mstoreOffset4 (mstore m 0 checkTxEscrowedSignature) 0 h q = m q := by
    rw [mstoreOffset4_of_ne _ _ (by omega) (by omega), mstore_ne _ _ (by omega)]
  unfold escrowCall
  cases getTransactionEscrowedCall escrowed s cfg.shieldAddressSlot h <;>
    simp only [mstore_ne _ _ (show q ≠ 0 by omega), hm]

/-- **What the transaction loop from index `i` leaves**: each transaction's hash in its slot,
and every other slot from `blockPos` up to the transaction area as it was. -/
structure HashedFrom (κ : Keccak) (height : ℕ) (m m' : Memory) (i : ℕ) (t : List Transaction) :
    Prop where
  hash : ∀ j (hj : j < t.length), m' (transactionHashesPos + (i + j)) = κ.words t[j].abiWords
  frame : ∀ q, blockPos ≤ q → q < transactionPos height →
    q < transactionHashesPos + i ∨ transactionHashesPos + i + t.length ≤ q → m' q = m q

/-- A transaction the loop reverts on: a deposit whose escrow word is zero. -/
def EscrowFails (κ : Keccak) (cfg : Config) (escrowed : Word → Bool) (s : State)
    (tx : Transaction) : Prop :=
  tx.transactionType = deposit ∧ escrowWord cfg escrowed s (κ.words tx.abiWords) = 0

instance (tx : Transaction) : Decidable (EscrowFails κ cfg escrowed s tx) :=
  inferInstanceAs (Decidable (_ ∧ _))

/-- **One round of the transaction loop**: it reverts exactly when `EscrowFails`, and otherwise
stores the transaction's hash in its slot and no other slot from `blockPos` up to
`transactionPos`. -/
theorem hashTransaction_spec (height : ℕ) (m : Memory) (i : ℕ) (tx : Transaction) :
    ∃ m', m' (transactionHashesPos + i) = κ.words tx.abiWords ∧
      (∀ q, blockPos ≤ q → q < transactionPos height → q ≠ transactionHashesPos + i →
        m' q = m q) ∧
      hashTransaction κ cfg escrowed s height m i tx =
        if EscrowFails κ cfg escrowed s tx then .error "" else .ok m' := by
  set m₁ := calldatacopy m (transactionPos height) tx.abiWords with hm₁
  set m₂ := mstore m₁ (transactionHashesPos + i)
    (κ.words (readWords m₁ (transactionPos height) tx.abiWords.length)) with hm₂
  have hhash : m₂ (transactionHashesPos + i) = κ.words tx.abiWords := by
    rw [hm₂, mstore_same, readWords_calldatacopy]
  have hframe : ∀ q, q < transactionPos height → q ≠ transactionHashesPos + i → m₂ q = m q :=
    fun q hq hne => by rw [hm₂, mstore_ne _ _ hne, hm₁, calldatacopy_of_not_mem _ _ (.inl hq)]
  by_cases hd : tx.transactionType = deposit
  · refine ⟨escrowCall cfg escrowed s m₂ (m₂ (transactionHashesPos + i)), ?_,
      fun q hq hlt hne => ?_, ?_⟩
    · rw [escrowCall_of_two_le _ _ _ _ _ (by unfold transactionHashesPos blockPos; omega), hhash]
    · rw [escrowCall_of_two_le _ _ _ _ _ (by simp [blockPos] at hq; omega), hframe q hlt hne]
    · simp only [hashTransaction, EscrowFails, hd, true_and, if_true]
      rw [← hm₁, ← hm₂, escrowCall_zero, hhash]
      split <;> rfl
  · refine ⟨m₂, hhash, fun q _ hlt hne => hframe q hlt hne, ?_⟩
    simp only [hashTransaction, EscrowFails, hd, false_and, if_false]
    rfl

/-- **The transaction loop**: it reverts exactly when some transaction `EscrowFails`, and
otherwise leaves `HashedFrom`. -/
theorem hashTransactions_spec (m : Memory) (i : ℕ) (t : List Transaction)
    (hi : i + t.length ≤ evmExp2 height) :
    ∃ m', HashedFrom κ height m m' i t ∧
      hashTransactions κ cfg escrowed s height m i t =
        if ∃ tx ∈ t, EscrowFails κ cfg escrowed s tx then .error "" else .ok m' := by
  induction t generalizing m i with
  | nil =>
    exact ⟨m, ⟨fun j hj => absurd hj (Nat.not_lt_zero j), fun _ _ _ _ => rfl⟩,
      by simp [hashTransactions, pure, Except.pure]⟩
  | cons tx txs ih =>
    simp only [List.length_cons] at hi
    obtain ⟨m₁, h₁, f₁, e₁⟩ :=
      hashTransaction_spec κ cfg escrowed s height m i tx
    obtain ⟨m', ⟨hh, hf⟩, e'⟩ := ih m₁ (i + 1) (by omega)
    refine ⟨m', ⟨fun j hj => ?_, fun q hb ht hq => ?_⟩, ?_⟩
    · cases j with
      | zero =>
        rw [hf _ (by unfold transactionHashesPos blockPos; omega) (by simp [transactionPos]; omega)
          (by omega)]
        simpa using h₁
      | succ j => simpa [Nat.add_assoc, Nat.add_comm 1 j] using hh j (by simpa using hj)
    · rw [hf q hb ht (by simp at hq; omega), f₁ q hb ht (by simp at hq; omega)]
    · simp only [hashTransactions, e₁, List.mem_cons, exists_eq_or_imp]
      by_cases hb : EscrowFails κ cfg escrowed s tx
      · simp [hb, bind, Except.bind]
      · simp [hb, bind, Except.bind, e']

end Spec

end Nightfall
