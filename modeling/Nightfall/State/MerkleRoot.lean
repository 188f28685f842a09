import Nightfall.State.Assembly
import Mathlib.Tactic.Ring

/-!
# State/MerkleRoot — the transaction-hash tree `proposeBlock` folds in place

The reference is the usual binary Merkle tree over `2 ^ h` leaves (`merkleRoot`), with a node over
two zero children equal to `0`.  The assembly computes it bottom-up in the hash area itself: pass
`i` overwrites slot `j < 2 ^ (i - 1)` with the node over slots `2j` and `2j + 1`.  Two facts make
that correct:

* `foldl_hashPair` — within a pass no round reads a slot an earlier round wrote (`j < 2j'` for
  `j < j'`), so slot `j` gets the node over the *old* slots `2j, 2j + 1`;
* `merklePasses_level` — the pass invariant: before pass `i` the first `2 ^ i` slots hold level
  `h - i` of the tree (`level`), so after the last pass slot `0` holds the root.

`proposeBlockAssembly_eq` assembles them with the transaction loop into the whole assembly block:
it reverts on a deposit the escrow check rejects, and otherwise returns the block hash exactly when
the block's `transactionHashesRoot` is the root over the transaction hashes.
-/

namespace Nightfall

section Reference

variable (κ : Keccak)

/-- A node of the transaction-hash tree: `0` over two zero children, `keccak256(l ‖ r)`
otherwise. -/
def node (l r : Word) : Word := if l = 0 ∧ r = 0 then 0 else κ.words [l, r]

/-- **The Merkle root of height `h`** over the leaves `f 0, …, f (2 ^ h - 1)`: the leaf itself at
height `0`, and at height `h + 1` the node over the roots of the two halves. -/
def merkleRoot : ℕ → (ℕ → Word) → Word
  | 0, f => f 0
  | h + 1, f => node κ (merkleRoot h f) (merkleRoot h fun i => f (2 ^ h + i))

/-- The root of height `h` reads the first `2 ^ h` leaves only. -/
theorem merkleRoot_congr {f g : ℕ → Word} :
    ∀ {h : ℕ}, (∀ j < 2 ^ h, f j = g j) → merkleRoot κ h f = merkleRoot κ h g
  | 0, hfg => hfg 0 (by decide)
  | h + 1, hfg => by
    have hp : 2 ^ (h + 1) = 2 ^ h + 2 ^ h := by rw [Nat.pow_succ]; omega
    simp only [merkleRoot]
    rw [merkleRoot_congr fun j hj => hfg j (by omega),
      merkleRoot_congr fun j hj => hfg (2 ^ h + j) (by omega)]

/-- Level `k` of the tree read bottom-up: the leaves at level `0`, and node `j` of level `k + 1`
over nodes `2j` and `2j + 1` of level `k`. -/
def level (f : ℕ → Word) : ℕ → ℕ → Word
  | 0 => f
  | k + 1 => fun j => node κ (level f k (2 * j)) (level f k (2 * j + 1))

/-- Node `j` of level `k` is the root over the `j`-th run of `2 ^ k` leaves. -/
theorem level_eq_merkleRoot (f : ℕ → Word) (k : ℕ) :
    ∀ j, level κ f k j = merkleRoot κ k fun i => f (j * 2 ^ k + i) := by
  induction k with
  | zero => intro j; simp [level, merkleRoot]
  | succ k ih =>
    intro j
    simp only [level, merkleRoot, ih]
    congr 2 <;> funext i <;> congr 1 <;> ring

end Reference

/-! ## One pass, and the passes -/

section Passes

variable (κ : Keccak)

/-- One round of the inner loop stores the node over slots `2j` and `2j + 1` in slot `j`. -/
theorem hashPair_eq (m : Memory) (j : ℕ) :
    hashPair κ m j = mstore m (transactionHashesPos + j)
      (node κ (m (transactionHashesPos + 2 * j)) (m (transactionHashesPos + 2 * j + 1))) := by
  unfold hashPair node
  dsimp only
  by_cases h : m (transactionHashesPos + 2 * j) = 0 ∧ m (transactionHashesPos + 2 * j + 1) = 0
  · rw [if_pos h, if_neg (not_not.mpr h), if_pos h]
  · rw [if_neg h, if_pos h, if_neg h, readWords_two]

/-- **No round of a pass reads a slot an earlier round wrote.**  After rounds `0, …, J - 1`, slot
`j < J` of the hash area holds the node over the *old* slots `2j` and `2j + 1`, and every other
slot is as it was. -/
theorem foldl_hashPair (m : Memory) (J : ℕ) :
    (∀ j < J, (List.range J).foldl (hashPair κ) m (transactionHashesPos + j) =
      node κ (m (transactionHashesPos + 2 * j)) (m (transactionHashesPos + 2 * j + 1))) ∧
    ∀ q, (∀ j < J, q ≠ transactionHashesPos + j) →
      (List.range J).foldl (hashPair κ) m q = m q := by
  induction J with
  | zero => exact ⟨fun j hj => absurd hj (Nat.not_lt_zero j), fun _ _ => rfl⟩
  | succ J ih =>
    obtain ⟨hw, hf⟩ := ih
    have left : (List.range J).foldl (hashPair κ) m (transactionHashesPos + 2 * J) =
        m (transactionHashesPos + 2 * J) := hf _ fun j hj => by omega
    have right : (List.range J).foldl (hashPair κ) m (transactionHashesPos + 2 * J + 1) =
        m (transactionHashesPos + 2 * J + 1) := hf _ fun j hj => by omega
    rw [List.range_succ, List.foldl_append, List.foldl_cons, List.foldl_nil, hashPair_eq, left,
      right]
    refine ⟨fun j hj => ?_, fun q hq => ?_⟩
    · rcases Nat.lt_succ_iff_lt_or_eq.mp hj with hj | rfl
      · rw [mstore_ne _ _ (by omega), hw j hj]
      · exact mstore_same _ _ _
    · rw [mstore_ne _ _ (hq J (by omega)), hf q fun j hj => hq j (by omega)]

/-- **One pass lifts the hash area one level**: if slots `0 … 2 ^ i - 1` hold level `k`, pass `i`
leaves level `k + 1` in slots `0 … 2 ^ (i - 1) - 1` and nothing below the hash area changes. -/
theorem merklePass_level {f : ℕ → Word} {m : Memory} {i k : ℕ} (hi : 1 ≤ i) (hi' : i ≤ 256)
    (hm : ∀ j < 2 ^ i, m (transactionHashesPos + j) = level κ f k j) :
    (∀ j < 2 ^ (i - 1), merklePass κ m i (transactionHashesPos + j) = level κ f (k + 1) j) ∧
    ∀ q < transactionHashesPos, merklePass κ m i q = m q := by
  have hpow : 2 ^ i = 2 * 2 ^ (i - 1) := by rw [← Nat.pow_succ']; congr 1; omega
  obtain ⟨hw, hf⟩ := foldl_hashPair κ m (2 ^ (i - 1))
  rw [merklePass, evmExp2_of_lt (by omega)]
  exact ⟨fun j hj => by
      rw [hw j hj, hm (2 * j) (by omega), show m (transactionHashesPos + 2 * j + 1) =
        level κ f k (2 * j + 1) from hm (2 * j + 1) (by omega)]
      rfl,
    fun q hq => hf q fun j _ => by omega⟩

/-- **The pass invariant.**  If slots `0 … 2 ^ i - 1` hold level `k`, the `i` remaining passes
leave level `k + i`, node `0`, in slot `0` of the hash area, and nothing below it changes. -/
theorem merklePasses_level {f : ℕ → Word} :
    ∀ (i : ℕ) (m : Memory) (k : ℕ), i ≤ 256 →
      (∀ j < 2 ^ i, m (transactionHashesPos + j) = level κ f k j) →
      merklePasses κ m i transactionHashesPos = level κ f (k + i) 0 ∧
        ∀ q < transactionHashesPos, merklePasses κ m i q = m q
  | 0, m, k, _, hm => ⟨hm 0 (by decide), fun _ _ => rfl⟩
  | i + 1, m, k, hi, hm => by
    obtain ⟨hw, hf⟩ := merklePass_level κ (Nat.le_add_left 1 i) hi hm
    obtain ⟨hr, hf'⟩ := merklePasses_level i _ (k + 1) (by omega) hw
    refine ⟨by rw [merklePasses, hr, Nat.add_right_comm, Nat.add_assoc], fun q hq => ?_⟩
    rw [merklePasses, hf' q hq, hf q hq]

end Passes

/-! ## The assembly block -/

/-- The leaves the assembly builds its tree over: each transaction's hash, then whatever the hash
area held past the last transaction. -/
def txLeaves (κ : Keccak) (mem : Memory) (t : List Transaction) (j : ℕ) : Word :=
  if h : j < t.length then κ.words t[j].abiWords else mem (transactionHashesPos + j)

/-- **The assembly block of `proposeBlock`, as a whole.**  For up to `2 ^ 255` transactions it
reverts on a deposit the escrow check rejects; otherwise it returns the block hash
`keccak256(b)` when `b.transactionHashesRoot` is the Merkle root of height `treeHeight t.length`
over the transaction hashes, and reverts when it is not. -/
theorem proposeBlockAssembly_eq (κ : Keccak) (cfg : Config) (escrowed : Word → Bool) (s : State)
    (mem : Memory) (b : Block) {t : List Transaction} (hn : t.length ≤ 2 ^ 255) :
    proposeBlockAssembly κ cfg escrowed s mem b t =
      if ∃ tx ∈ t, EscrowFails κ cfg escrowed s tx then .error ""
      else if b.transactionHashesRoot = merkleRoot κ (treeHeight t.length) (txLeaves κ mem t)
        then .ok (κ.words b.abiWords)
      else .error "" := by
  have h255 : treeHeight t.length ≤ 255 := (le_two_pow_iff_treeHeight_le (by decide)).1 hn
  have hexp : evmExp2 (treeHeight t.length) = 2 ^ treeHeight t.length := evmExp2_of_lt (by omega)
  set m₀ := calldatacopy mem blockPos b.abiWords with hm₀
  obtain ⟨m₁, ⟨hh, hf⟩, e⟩ := hashTransactions_spec κ cfg escrowed s m₀ 0 t
    (by rw [hexp, Nat.zero_add]; exact le_two_pow_treeHeight _)
  have hpos : transactionHashesPos = blockPos + blockStructureSlots := rfl
  have hblock : ∀ q < transactionHashesPos, blockPos ≤ q → m₁ q = m₀ q := fun q hq hb =>
    hf q hb (by simp [transactionPos]; omega) (.inl (by omega))
  have hleaves : ∀ j < 2 ^ treeHeight t.length,
      m₁ (transactionHashesPos + j) = level κ (txLeaves κ mem t) 0 j := fun j hj => by
    simp only [level, txLeaves]
    split
    · simpa using hh j ‹_›
    · rw [hf _ (by omega) (by simp [transactionPos, hexp, hj]) (.inr (by omega)), hm₀,
        calldatacopy_of_not_mem _ _ (.inr (by simp [hpos]))]
  obtain ⟨hroot, hbelow⟩ := merklePasses_level κ _ m₁ 0 (by omega) hleaves
  rw [Nat.zero_add, level_eq_merkleRoot] at hroot
  simp only [Nat.zero_mul, Nat.zero_add] at hroot
  unfold proposeBlockAssembly
  rw [getTreeHeight_eq_some hn]
  simp only [e]
  split
  · rfl
  · have hlast : merklePasses κ m₁ (treeHeight t.length) (blockPos + (blockStructureSlots - 1)) =
        b.transactionHashesRoot := by
      rw [hbelow _ (by simp [hpos, blockStructureSlots]),
        hblock _ (by simp [hpos, blockStructureSlots]) (by omega), hm₀,
        calldatacopy_apply _ _ _ (by simp [blockStructureSlots])]
      rfl
    have hwords : readWords (merklePasses κ m₁ (treeHeight t.length)) blockPos blockStructureSlots =
        b.abiWords := by
      rw [readWords_congr (m := m₀) fun i hi => by
        rw [hbelow _ (by simp [hpos]; omega), hblock _ (by simp [hpos]; omega) (by omega)]]
      exact readWords_calldatacopy mem blockPos b.abiWords
    simp only [bind, Except.bind, hlast, hroot, hwords]
    rfl

end Nightfall
