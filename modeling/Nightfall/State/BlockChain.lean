import Nightfall.State.Steps
import Mathlib.Data.Nat.Pairing

/-!
# State/BlockChain — `blockHashes` is a hash chain on every run

`proposeBlock` accepts a block only as entry `blockHashes.length` and only naming the last entry as
its predecessor; `popBlockData` drops the last entry; no other call, and no call made during the
ETH transfer of `withdraw`, writes `blockHashes`.  So on every reachable state the entries form a
hash chain (`HashChain`): entry `k` is `keccak256` of the words of a block numbered `k` whose
`previousBlockHash` is entry `k - 1`.

With an injective hash an entry fixes its own index and, through `previousBlockHash`, every entry
before it (`HashChain.prefix_eq`); so the last hash determines the whole sequence
(`HashChain.map_blockHash_eq`).

The chain is what a challenge checks a block against: `isBlockReal` accepts the blocks the chain
records, and with an injective hash only those (`isBlockReal_recorded`); until a `popBlockData`,
it keeps accepting them (`run_blockHashes_prefix`).
-/

namespace Nightfall

variable (κ : Keccak) (cfg : Config)

/-- **Block `b` was accepted on the chain `hs` and recorded as `d`**: a call of `proposeBlock`
went through on a storage whose `blockHashes` was `hs`, and left it `hs ++ [d]`. -/
def Accepted (hs : List BlockData) (b : Block) (d : BlockData) : Prop :=
  ∃ escrowed mem ctx t s s', s.blockHashes = hs ∧
    proposeBlock κ cfg escrowed mem ctx b t s = .ok s' ∧ s'.blockHashes = hs ++ [d]

/-- **The hash-chain invariant of `blockHashes`**: entry `k` records a block accepted on the
entries before it, numbered `k`, whose hash the entry holds and whose `previousBlockHash` is entry
`k - 1`. -/
def HashChain (hs : List BlockData) : Prop :=
  ∀ k (hk : k < hs.length), ∃ b : Block, Accepted κ cfg (hs.take k) b hs[k] ∧
    hs[k].blockHash = κ.words b.abiWords ∧ b.blockNumberL2 = k ∧
    ∀ _ : 0 < k, b.previousBlockHash = hs[k - 1].blockHash

/-- **The reachable states**: the storage after some run from `initialize`. -/
def Reachable (s : State) : Prop :=
  ∃ proposersAddress challengesAddress shieldAddress calls,
    (run κ cfg calls (State.init proposersAddress challengesAddress shieldAddress)).1 = s

/-- Distinct blocks have distinct ABI words. -/
theorem Block.abiWords_injective : Function.Injective Block.abiWords := by
  rintro ⟨⟩ ⟨⟩ h
  simp only [Block.abiWords, List.cons.injEq] at h
  simp only [h]

namespace HashChain

variable {κ cfg}

/-! ## The chain under one call -/

theorem nil : HashChain κ cfg [] := fun _ hk => absurd hk (Nat.not_lt_zero _)

/-- A block accepted on `hs` was numbered `hs.length`, named the last entry of `hs` as its
predecessor, and is recorded under its hash. -/
theorem accepted_spec {hs : List BlockData} {b : Block} {d : BlockData} (h : Accepted κ cfg hs b d) :
    b.blockNumberL2 = hs.length ∧
      (hs.length ≠ 0 → b.previousBlockHash = (hs.getLastD ⟨0, 0⟩).blockHash) ∧
      d.blockHash = κ.words b.abiWords := by
  obtain ⟨_, _, _, _, s, _, rfl, hp, hd⟩ := h
  obtain ⟨hnum, hprev, rfl⟩ := proposeBlock_ok κ cfg hp
  obtain rfl := List.singleton_inj.1 (List.append_cancel_left hd)
  exact ⟨hnum, hprev, rfl⟩

/-- Appending a block accepted on the chain keeps the chain. -/
theorem append {hs : List BlockData} (hc : HashChain κ cfg hs) {b : Block} {d : BlockData}
    (hacc : Accepted κ cfg hs b d) : HashChain κ cfg (hs ++ [d]) := by
  obtain ⟨hnum, hprev, hd⟩ := accepted_spec hacc
  intro k hk
  rw [List.length_append, List.length_singleton] at hk
  rcases Nat.lt_succ_iff_lt_or_eq.mp hk with hk | rfl
  · obtain ⟨b', ha, hh, hn, hp⟩ := hc k hk
    refine ⟨b', ?_, by rw [List.getElem_append_left hk]; exact hh, hn, fun hk0 => ?_⟩
    · rwa [List.take_append_of_le_length hk.le, List.getElem_append_left hk]
    · rw [List.getElem_append_left (by omega)]
      exact hp hk0
  · refine ⟨b, by simpa using hacc, by simpa using hd, hnum, fun hk0 => ?_⟩
    rw [List.getElem_append_left (by omega), hprev (by omega)]
    have hlast : hs.length - 1 < hs.length := by omega
    simp [List.getLast?_eq_getElem?, List.getElem?_eq_getElem hlast]

theorem dropLast {hs : List BlockData} (hc : HashChain κ cfg hs) : HashChain κ cfg hs.dropLast := by
  intro k hk
  rw [List.length_dropLast] at hk
  obtain ⟨b, ha, hh, hn, hp⟩ := hc k (by omega)
  have htake : hs.dropLast.take k = hs.take k := by
    rw [List.dropLast_eq_take, List.take_take, min_eq_left (by omega)]
  exact ⟨b, by simpa only [htake, List.getElem_dropLast] using ha,
    by simpa only [List.getElem_dropLast] using hh, hn,
    fun hk0 => by simpa only [List.getElem_dropLast] using hp hk0⟩

/-- **One call other than `withdraw` keeps the chain.** -/
theorem step {ctx : Ctx} {o : Op} {s s' : State} {es : List Entry}
    (hc : HashChain κ cfg s.blockHashes) (h : o.apply κ cfg ctx s = .ok (s', es)) :
    HashChain κ cfg s'.blockHashes := by
  rcases Op.apply_ok κ cfg h with ⟨e, mem, b, t, -, -, hp⟩ | ⟨-, -, rfl⟩ | ⟨_, _, _, -, ha⟩ |
    ⟨_, _, _, -, hr⟩ | ⟨_, -, -, rfl⟩ | ⟨_, _, -, -, rfl⟩ | ⟨_, -, -, rfl⟩ | ⟨-, hb, -⟩
  · obtain ⟨-, -, rfl⟩ := proposeBlock_ok κ cfg hp
    exact hc.append ⟨e, mem, ctx, t, s, _, rfl, hp, rfl⟩
  · exact hc.dropLast
  · rw [(addPendingWithdrawal_ok ha).1]; exact hc
  · rw [(rewardChallenger_ok cfg hr).1]; exact hc
  · exact hc
  · exact hc
  · exact hc
  · rw [hb]; exact hc

/-- **Every run keeps the chain.** -/
theorem run {cs : List Call} {s : State} (hc : HashChain κ cfg s.blockHashes) :
    HashChain κ cfg (Nightfall.run κ cfg cs s).1.blockHashes :=
  run_invariant κ cfg (P := fun s => HashChain κ cfg s.blockHashes) step (fun _ => id) hc

theorem of_reachable {s : State} (h : Reachable κ cfg s) : HashChain κ cfg s.blockHashes := by
  obtain ⟨_, _, _, calls, rfl⟩ := h
  exact run nil

/-! ## The last hash determines the chain -/

section Determination

variable {hs₁ hs₂ : List BlockData} (hκ : Function.Injective κ.words)
  (h₁ : HashChain κ cfg hs₁) (h₂ : HashChain κ cfg hs₂)
include hκ h₁ h₂

/-- With an injective hash, equal entries of two chains sit at the same index, and so do the
entries before them. -/
theorem index_eq {i j : ℕ} (hi : i < hs₁.length) (hj : j < hs₂.length)
    (h : hs₁[i].blockHash = hs₂[j].blockHash) :
    i = j ∧ ∀ _ : 0 < i, hs₁[i - 1].blockHash = hs₂[j - 1].blockHash := by
  obtain ⟨b₁, -, hh₁, hn₁, hp₁⟩ := h₁ i hi
  obtain ⟨b₂, -, hh₂, hn₂, hp₂⟩ := h₂ j hj
  obtain rfl : b₁ = b₂ := Block.abiWords_injective (hκ (hh₁.symm.trans (h.trans hh₂)))
  obtain rfl : i = j := hn₁.symm.trans hn₂
  exact ⟨rfl, fun h0 => (hp₁ h0).symm.trans (hp₂ h0)⟩

/-- Equal entries at index `i` make the two chains agree up to `i`. -/
theorem prefix_eq : ∀ i (hi₁ : i < hs₁.length) (hi₂ : i < hs₂.length),
    hs₁[i].blockHash = hs₂[i].blockHash → ∀ k (_ : k ≤ i), hs₁[k].blockHash = hs₂[k].blockHash
  | 0, _, _, h, _, hk => by simpa [Nat.le_zero.mp hk] using h
  | i + 1, hi₁, hi₂, h, k, hk => by
    rcases Nat.lt_or_eq_of_le hk with hk | rfl
    · exact prefix_eq i (by omega) (by omega)
        ((index_eq hκ h₁ h₂ hi₁ hi₂ h).2 (Nat.succ_pos i)) k (by omega)
    · exact h

/-- **The last hash determines the chain.** -/
theorem map_blockHash_eq
    (h : hs₁.getLast?.map BlockData.blockHash = hs₂.getLast?.map BlockData.blockHash) :
    hs₁.map BlockData.blockHash = hs₂.map BlockData.blockHash := by
  rcases List.eq_nil_or_concat hs₁ with rfl | ⟨L₁, x₁, rfl⟩ <;>
    rcases List.eq_nil_or_concat hs₂ with rfl | ⟨L₂, x₂, rfl⟩
  · rfl
  all_goals simp only [List.concat_eq_append] at h₁ h₂ h ⊢
  all_goals simp only [List.getLast?_nil, List.getLast?_concat, Option.map_none', Option.map_some',
    Option.some.injEq, reduceCtorEq] at h
  have hlen : L₁.length = L₂.length :=
    (index_eq hκ h₁ h₂ (by simp) (by simp) (by simpa using h)).1
  refine List.ext_getElem (by simp [hlen]) fun k hk₁ _ => ?_
  simp only [List.getElem_map]
  exact prefix_eq hκ h₁ h₂ L₁.length (by simp) (by simp [hlen]) (by simp [hlen, h]) k
    (by simp at hk₁; omega)

end Determination

end HashChain

/-- **`blockHashes` is a hash chain, fixed by its last hash.**  On every reachable state entry `k`
is `keccak256` of the words of a block `proposeBlock` accepted, numbered `k`, whose
`previousBlockHash` is entry `k - 1`; with an injective hash, two reachable states with the same
last block hash have the same sequence of block hashes; and a block `proposeBlock` accepts is
numbered by the length of `blockHashes` and adds exactly one entry, its hash. -/
theorem blockHashes_hashChain :
    (∀ s, Reachable κ cfg s → HashChain κ cfg s.blockHashes) ∧
    (Function.Injective κ.words → ∀ s₁ s₂, Reachable κ cfg s₁ → Reachable κ cfg s₂ →
      s₁.blockHashes.getLast?.map BlockData.blockHash =
        s₂.blockHashes.getLast?.map BlockData.blockHash →
      s₁.blockHashes.map BlockData.blockHash = s₂.blockHashes.map BlockData.blockHash) ∧
    (∀ escrowed mem ctx b t s s', proposeBlock κ cfg escrowed mem ctx b t s = .ok s' →
      b.blockNumberL2 = s.blockHashes.length ∧
      s'.blockHashes = s.blockHashes ++ [⟨κ.words b.abiWords, ctx.timestamp⟩]) :=
  ⟨fun _ => HashChain.of_reachable,
    fun hκ _ _ r₁ r₂ => HashChain.map_blockHash_eq hκ (.of_reachable r₁) (.of_reachable r₂),
    fun _ _ _ _ _ _ _ h => by
      obtain ⟨hnum, -, rfl⟩ := proposeBlock_ok κ cfg h
      exact ⟨hnum, rfl⟩⟩

/-! ## The check a challenge starts with -/

section IsBlockReal

variable {κ cfg}

/-- **`isBlockReal` accepts exactly the recorded blocks.**  On a reachable state it accepts, for
each entry of `blockHashes`, the block the entry records, accepted on the entries before it; and
with an injective hash a block it accepts is one `proposeBlock` accepted on the entries before its
own and recorded at its number, naming the entry before it. -/
theorem isBlockReal_recorded {s : State} (hs : Reachable κ cfg s) :
    (∀ k (hk : k < s.blockHashes.length), ∃ b,
      Accepted κ cfg (s.blockHashes.take k) b s.blockHashes[k] ∧ b.blockNumberL2 = k ∧
      isBlockReal κ b s = .ok s.blockHashes[k].blockHash) ∧
    (Function.Injective κ.words → ∀ b w, isBlockReal κ b s = .ok w →
      ∃ hk : b.blockNumberL2 < s.blockHashes.length,
        Accepted κ cfg (s.blockHashes.take b.blockNumberL2) b s.blockHashes[b.blockNumberL2] ∧
        s.blockHashes[b.blockNumberL2].blockHash = w ∧
        ∀ _ : 0 < b.blockNumberL2,
          b.previousBlockHash = s.blockHashes[b.blockNumberL2 - 1].blockHash) := by
  have hc := HashChain.of_reachable hs
  refine ⟨fun k hk => ?_, fun hκ b w h => ?_⟩
  · obtain ⟨b, hacc, hh, rfl, -⟩ := hc _ hk
    exact ⟨b, hacc, rfl, (isBlockReal_eq_ok κ).2 ⟨hk, hh, hh⟩⟩
  · obtain ⟨hk, hh, rfl⟩ := (isBlockReal_eq_ok κ).1 h
    obtain ⟨b', hacc, hh', hn, hp⟩ := hc _ hk
    obtain rfl : b = b' := Block.abiWords_injective (hκ (hh.symm.trans hh'))
    exact ⟨hk, hacc, hh, hp⟩

/-- A stand-in for `keccak256` that is injective on both encodings: Cantor pairing, word by
word. -/
def pairKeccak : Keccak := ⟨fun ws => ws.foldr (fun w h => Nat.pair w h + 1) 0, Nat.pair⟩

theorem pairKeccak_words_injective : Function.Injective pairKeccak.words := by
  intro l₁
  induction l₁ with
  | nil => rintro (_ | ⟨w, l⟩) h <;> simp_all [pairKeccak]
  | cons w₁ l₁ ih =>
    rintro (_ | ⟨w₂, l₂⟩) h
    · simp [pairKeccak] at h
    · obtain ⟨rfl, hl⟩ := Nat.pair_eq_pair.1 (Nat.succ_injective h)
      rw [ih hl]

/-- Block `0` of proposer `5` with `feePayingTransactions`, and block `1` after it with no
transactions, each with its transactions root under `pairKeccak`. -/
def pairBlock₀ : Block :=
  ⟨1, 5, 0, 0, 0, 0, merkleRoot pairKeccak 1 fun j =>
    (transactionHashes pairKeccak feePayingTransactions).getD j 0⟩

/-- Block `1`, naming `pairBlock₀` as its predecessor. -/
def pairBlock₁ : Block := ⟨0, 5, 0, 1, pairKeccak.words pairBlock₀.abiWords, 0, 0⟩

/-- The Proposers contract (`1`) registers proposer `5` and makes it current; `5` then proposes
`pairBlock₀` and `pairBlock₁`. -/
def twoBlockRun : List Call :=
  [.op ⟨1, 0, 0, 0⟩ (.setProposer 5 ⟨5, 5, 5, "", 0⟩), .op ⟨1, 0, 0, 0⟩ (.setCurrentProposer 5),
    .op ⟨5, 1, 0, 0⟩
      (.proposeBlock (fun _ => false) (fun _ => 0) pairBlock₀ feePayingTransactions),
    .op ⟨5, 1, 0, 1⟩ (.proposeBlock (fun _ => false) (fun _ => 0) pairBlock₁ [])]

/-- The storage after `twoBlockRun`, with two blocks recorded. -/
def twoBlockState : State := (run pairKeccak ⟨1, 32, 100⟩ twoBlockRun (State.init 1 2 3)).1

theorem isBlockReal_recorded_twoBlockState :
    Function.Injective pairKeccak.words ∧ Reachable pairKeccak ⟨1, 32, 100⟩ twoBlockState ∧
    twoBlockState.blockHashes.length = 2 ∧
    (∀ k (hk : k < twoBlockState.blockHashes.length), ∃ b,
      Accepted pairKeccak ⟨1, 32, 100⟩ (twoBlockState.blockHashes.take k) b
        twoBlockState.blockHashes[k] ∧ b.blockNumberL2 = k ∧
      isBlockReal pairKeccak b twoBlockState = .ok twoBlockState.blockHashes[k].blockHash) ∧
    (Function.Injective pairKeccak.words → ∀ b w, isBlockReal pairKeccak b twoBlockState = .ok w →
      ∃ hk : b.blockNumberL2 < twoBlockState.blockHashes.length,
        Accepted pairKeccak ⟨1, 32, 100⟩ (twoBlockState.blockHashes.take b.blockNumberL2) b
          twoBlockState.blockHashes[b.blockNumberL2] ∧
        twoBlockState.blockHashes[b.blockNumberL2].blockHash = w ∧
        ∀ _ : 0 < b.blockNumberL2,
          b.previousBlockHash = twoBlockState.blockHashes[b.blockNumberL2 - 1].blockHash) :=
  ⟨pairKeccak_words_injective, ⟨1, 2, 3, twoBlockRun, rfl⟩, rfl,
    isBlockReal_recorded ⟨1, 2, 3, twoBlockRun, rfl⟩⟩

/-- The Proposers contract (`1`) registers proposer `5` and makes it current; `5` then proposes
`feePayingBlock`. -/
def oneBlockRun : List Call :=
  [.op ⟨1, 0, 0, 0⟩ (.setProposer 5 ⟨5, 5, 5, "", 0⟩), .op ⟨1, 0, 0, 0⟩ (.setCurrentProposer 5),
    .op ⟨5, 1, 0, 0⟩
      (.proposeBlock (fun _ => false) (fun _ => 0) feePayingBlock feePayingTransactions)]

/-- The storage after `oneBlockRun`, with one block recorded. -/
def oneBlockState : State := (run sumKeccak ⟨1, 32, 100⟩ oneBlockRun (State.init 1 2 3)).1

end IsBlockReal

/-! ## Without a rollback

Only `popBlockData` removes an entry of `blockHashes`, and no call rewrites one.  So over a run
without `popBlockData` the entries at the start stay at the front, and a block `isBlockReal`
accepts keeps being accepted, with the same hash (`run_blockHashes_prefix`). -/

section Rollback

/-- A call other than `popBlockData` and `withdraw` keeps the entries of `blockHashes` at its
front. -/
theorem Op.apply_blockHashes_prefix {ctx : Ctx} {o : Op} {s s' : State} {es : List Entry}
    (hpop : o ≠ .popBlockData) (h : o.apply κ cfg ctx s = .ok (s', es)) :
    s.blockHashes <+: s'.blockHashes := by
  rcases Op.apply_ok κ cfg h with ⟨_, _, _, _, -, -, hp⟩ | ⟨rfl, -⟩ | ⟨_, _, _, -, ha⟩ |
    ⟨_, _, _, -, hr⟩ | ⟨_, -, -, rfl⟩ | ⟨_, _, -, -, rfl⟩ | ⟨_, -, -, rfl⟩ | ⟨-, hb, -⟩
  · obtain ⟨-, -, rfl⟩ := proposeBlock_ok κ cfg hp
    exact List.prefix_append _ _
  · exact absurd rfl hpop
  · obtain ⟨rfl, -⟩ := addPendingWithdrawal_ok ha
    exact List.prefix_refl _
  · obtain ⟨rfl, -⟩ := rewardChallenger_ok cfg hr
    exact List.prefix_refl _
  · exact List.prefix_refl _
  · exact List.prefix_refl _
  · exact List.prefix_refl _
  · exact hb ▸ List.prefix_refl _

/-- **Without a rollback, recorded blocks stay recorded**: over every run none of whose calls,
those made during `withdraw`'s ETH transfer included, is `popBlockData`, the entries of
`blockHashes` at the start stay at its front, and every block `isBlockReal` accepts at the start
it still accepts, with the same hash. -/
theorem run_blockHashes_prefix {cs : List Call} (hcs : ∀ c ∈ cs, ∀ o ∈ c.ops, o ≠ .popBlockData)
    (s : State) :
    s.blockHashes <+: (run κ cfg cs s).1.blockHashes ∧
    ∀ b w, isBlockReal κ b s = .ok w → isBlockReal κ b (run κ cfg cs s).1 = .ok w := by
  have hop : ∀ {ctx : Ctx} {o : Op} {s₁ s₂ : State} {es : List Entry}, o ≠ .popBlockData →
      s.blockHashes <+: s₁.blockHashes → o.apply κ cfg ctx s₁ = .ok (s₂, es) →
        s.blockHashes <+: s₂.blockHashes :=
    fun hpop h₁ h => h₁.trans (Op.apply_blockHashes_prefix κ cfg hpop h)
  have hpre : s.blockHashes <+: (run κ cfg cs s).1.blockHashes :=
    run_invariant_of κ cfg (P := fun t => s.blockHashes <+: t.blockHashes) hop
      (fun hre h₁ h => withdraw_invariant_of κ cfg hop (fun _ h => h) hre h₁ h) hcs
      (List.prefix_refl _)
  refine ⟨hpre, fun b w h => ?_⟩
  obtain ⟨hk, hh, rfl⟩ := (isBlockReal_eq_ok κ).1 h
  exact (isBlockReal_eq_ok κ).2 ⟨_, by rw [← hpre.getElem hk]; exact hh, rfl⟩

/-- Block `1` of proposer `5`, with no transactions, after `feePayingBlock`. -/
def secondBlock : Block := ⟨0, 5, 0, 1, sumKeccak.words feePayingBlock.abiWords, 0, 0⟩

/-- From `oneBlockState`, with one block recorded, proposer `5` proposes `secondBlock`: the first
entry stays in front, and `feePayingBlock` stays real. -/
theorem run_blockHashes_prefix_oneBlockState :
    oneBlockState.blockHashes.length = 1 ∧
    (run sumKeccak ⟨1, 32, 100⟩
      [.op ⟨5, 1, 0, 1⟩ (.proposeBlock (fun _ => false) (fun _ => 0) secondBlock [])]
      oneBlockState).1.blockHashes.length = 2 ∧
    (∀ c ∈ [Call.op ⟨5, 1, 0, 1⟩ (.proposeBlock (fun _ => false) (fun _ => 0) secondBlock [])],
      ∀ o ∈ c.ops, o ≠ .popBlockData) ∧
    (oneBlockState.blockHashes <+: (run sumKeccak ⟨1, 32, 100⟩
        [.op ⟨5, 1, 0, 1⟩ (.proposeBlock (fun _ => false) (fun _ => 0) secondBlock [])]
        oneBlockState).1.blockHashes ∧
      ∀ b w, isBlockReal sumKeccak b oneBlockState = .ok w →
        isBlockReal sumKeccak b (run sumKeccak ⟨1, 32, 100⟩
          [.op ⟨5, 1, 0, 1⟩ (.proposeBlock (fun _ => false) (fun _ => 0) secondBlock [])]
          oneBlockState).1 = .ok w) := by
  have hcs : ∀ c ∈ [Call.op ⟨5, 1, 0, 1⟩
      (.proposeBlock (fun _ => false) (fun _ => 0) secondBlock [])],
      ∀ o ∈ c.ops, o ≠ .popBlockData := by
    simp [Call.ops]
  exact ⟨rfl, rfl, hcs, run_blockHashes_prefix sumKeccak ⟨1, 32, 100⟩ hcs _⟩

end Rollback

end Nightfall
