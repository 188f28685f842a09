import Nightfall.State.Storage
import Mathlib.Data.List.Range

/-!
# State/Memory — the memory `proposeBlock`'s assembly works in, word by word

The assembly of `proposeBlock` lays its data out from the free-memory pointer `x` on: two
scratch words for the external call, the block, the transaction hashes, and one transaction at a
time.  Every access but one is a whole word at `x + 32 * k`, so memory is a function from the
slot `k` to its word.  The exception is `mstore(add(x, 0x04), _)`, which straddles slots `0` and
`1` (`mstoreOffset4`).

The lemmas are frame lemmas: a store changes its own slot and no other, and a copy changes the
slots it covers and no other.
-/

namespace Nightfall

/-- **Memory from the free-memory pointer on**: slot `k` is the word at byte `x + 32 * k`. -/
abbrev Memory := ℕ → Word

/-- `mstore(add(x, mul(0x20, k)), v)` -/
def mstore (m : Memory) (k : ℕ) (v : Word) : Memory := Function.update m k v

@[simp] theorem mstore_same (m : Memory) (k : ℕ) (v : Word) : mstore m k v k = v := by
  simp [mstore]

theorem mstore_ne (m : Memory) {j k : ℕ} (v : Word) (h : j ≠ k) : mstore m k v j = m j := by
  simp [mstore, h]

/-- `calldatacopy` of the words `ws` to slot `k` on. -/
def calldatacopy (m : Memory) (k : ℕ) : List Word → Memory
  | [] => m
  | w :: ws => calldatacopy (mstore m k w) (k + 1) ws

/-- The `n` words from slot `k` on: what `keccak256(add(x, mul(0x20, k)), mul(0x20, n))`
hashes. -/
def readWords (m : Memory) (k n : ℕ) : List Word := (List.range n).map fun i => m (k + i)

@[simp] theorem length_readWords (m : Memory) (k n : ℕ) : (readWords m k n).length = n := by
  simp [readWords]

theorem readWords_two (m : Memory) (k : ℕ) : readWords m k 2 = [m k, m (k + 1)] := rfl

/-- `mstore(add(x, 0x04), v)` relative to slot `k`: slot `k` keeps its first four bytes and takes
the first 28 bytes of `v`; slot `k + 1` takes the last four bytes of `v` before its own last 28. -/
def mstoreOffset4 (m : Memory) (k : ℕ) (v : Word) : Memory :=
  mstore (mstore m k (m k / 2 ^ 224 * 2 ^ 224 + v / 2 ^ 32)) (k + 1)
    (v % 2 ^ 32 * 2 ^ 224 + m (k + 1) % 2 ^ 224)

/-- `exp(2, e)` on 256-bit words. -/
def evmExp2 (e : ℕ) : Word := 2 ^ e % 2 ^ 256

theorem evmExp2_of_lt {e : ℕ} (h : e < 256) : evmExp2 e = 2 ^ e :=
  Nat.mod_eq_of_lt (Nat.pow_lt_pow_right Nat.one_lt_two h)

/-! ## Frames -/

/-- A copy leaves every slot outside `[k, k + ws.length)` alone. -/
theorem calldatacopy_of_not_mem (m : Memory) {k j : ℕ} (ws : List Word)
    (h : j < k ∨ k + ws.length ≤ j) : calldatacopy m k ws j = m j := by
  induction ws generalizing m k with
  | nil => rfl
  | cons w ws ih =>
    simp only [calldatacopy, List.length_cons] at h ⊢
    rw [ih _ (by omega), mstore_ne _ _ (by omega)]

/-- A copy writes its words in order. -/
theorem calldatacopy_apply (m : Memory) (k : ℕ) (ws : List Word) {i : ℕ} (h : i < ws.length) :
    calldatacopy m k ws (k + i) = ws[i] := by
  induction ws generalizing m k i with
  | nil => simp at h
  | cons w ws ih =>
    simp only [calldatacopy]
    cases i with
    | zero => rw [calldatacopy_of_not_mem _ _ (by omega)]; simp
    | succ i =>
      rw [show k + (i + 1) = k + 1 + i by omega, ih _ _ (by simpa using h)]
      simp

/-- Reading back what a copy wrote gives the copied words. -/
theorem readWords_calldatacopy (m : Memory) (k : ℕ) (ws : List Word) :
    readWords (calldatacopy m k ws) k ws.length = ws := by
  apply List.ext_getElem (by simp)
  intro i hi _
  simp only [readWords, List.getElem_map, List.getElem_range]
  exact calldatacopy_apply m k ws (by simpa using hi)

/-- A read sees only the slots it covers. -/
theorem readWords_congr {m m' : Memory} {k n : ℕ} (h : ∀ i < n, m' (k + i) = m (k + i)) :
    readWords m' k n = readWords m k n := by
  simp only [readWords]
  exact List.map_congr_left fun i hi => h i (List.mem_range.mp hi)

/-- The unaligned store changes slots `k` and `k + 1` only. -/
theorem mstoreOffset4_of_ne (m : Memory) {k j : ℕ} (v : Word) (h : j ≠ k) (h' : j ≠ k + 1) :
    mstoreOffset4 m k v j = m j := by
  rw [mstoreOffset4, mstore_ne _ _ h', mstore_ne _ _ h]

/-- After `mstore(x, s)` and `mstore(add(x, 0x04), v)`, the word at `x` is the first four bytes
of `s` followed by the first 28 bytes of `v`. -/
theorem mstoreOffset4_mstore_same (m : Memory) (k : ℕ) (s v : Word) :
    mstoreOffset4 (mstore m k s) k v k = s / 2 ^ 224 * 2 ^ 224 + v / 2 ^ 32 := by
  rw [mstoreOffset4, mstore_ne _ _ (by omega)]
  simp

end Nightfall
