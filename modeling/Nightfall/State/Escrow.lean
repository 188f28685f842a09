import Nightfall.State.ProposeBlock

/-!
# State/Escrow — the escrow check of `proposeBlock` calls the slot number

For a deposit the assembly of `proposeBlock` calls `getTransactionEscrowed(h)` at
`shieldAddress.slot`: the storage slot of the variable `shieldAddress`, a small number, and not
the address stored there.  Unless the Shield contract happens to live at that number, the call
reaches an account without code, which succeeds and returns nothing; the word at `x` is then still
the selector followed by the first bytes of the hash, never zero, and the check passes whatever
the Shield's escrow record says (`escrowWord_ne_zero`, `proposeBlock_escrowed_eq`).

Aimed at the Shield, the same check rejects every block with a deposit the Shield has not
escrowed (`deposit_escrowed_of_proposeBlock`).
-/

namespace Nightfall

variable (κ : Keccak) (cfg : Config)

/-! ## The escrow word -/

section EscrowWord

variable {cfg} {escrowed : Word → Bool} {s : State}

/-- Off the Shield, the word at `x` keeps the selector in its high bytes: it is never zero. -/
theorem escrowWord_ne_zero (h : cfg.shieldAddressSlot ≠ s.shieldAddress) (w : Word) :
    escrowWord cfg escrowed s w ≠ 0 := by
  have hsel : 0 < checkTxEscrowedSignature / 2 ^ 224 * 2 ^ 224 := by decide
  simp only [escrowWord, getTransactionEscrowedCall, if_neg h, Option.getD_none]
  exact (Nat.add_pos_left hsel _).ne'

/-- At the Shield, the word at `x` is its answer: zero exactly for a hash it has not escrowed. -/
theorem escrowWord_eq_zero_iff (h : cfg.shieldAddressSlot = s.shieldAddress) (w : Word) :
    escrowWord cfg escrowed s w = 0 ↔ escrowed w = false := by
  cases hw : escrowed w <;> simp [escrowWord, getTransactionEscrowedCall, h, hw]

end EscrowWord

/-! ## A one-deposit block

A block from the current proposer of `depositState` with one deposit, for a Shield at address
`3`. -/

/-- A deposit of nothing, with no fee. -/
def unescrowedDeposit : Transaction := ⟨0, 0, deposit, []⟩

/-- Block `0` of proposer `5`, with the transactions root of `[unescrowedDeposit]`. -/
def depositBlock : Block :=
  ⟨1, 5, 0, 0, 0, 0, sumKeccak.words [sumKeccak.words unescrowedDeposit.abiWords, 0]⟩

/-! ## `proposeBlock` and the escrow record -/

section ProposeBlock

variable {escrowed : Word → Bool} {mem : Memory} {ctx : Ctx} {b : Block} {t : List Transaction}
  {s : State}

/-- **Off the Shield, `proposeBlock` does not read the escrow record**: it returns the same for
any two. -/
theorem proposeBlock_escrowed_eq (h : cfg.shieldAddressSlot ≠ s.shieldAddress)
    (escrowed' : Word → Bool) :
    proposeBlock κ cfg escrowed mem ctx b t s = proposeBlock κ cfg escrowed' mem ctx b t s := by
  have hno : ∀ e tx, ¬EscrowFails κ cfg e s tx := fun _ _ hf => escrowWord_ne_zero h _ hf.2
  refine proposeBlockBody_congr κ cfg fun hn => ?_
  rw [proposeBlockAssembly_eq κ cfg escrowed s mem b (by omega),
    proposeBlockAssembly_eq κ cfg escrowed' s mem b (by omega)]
  simp only [hno, and_false, exists_false, if_false]

/-- **The escrow check never fires off the Shield.**  Whenever `shieldAddress.slot` is not the
Shield's address, `proposeBlock` returns the same for every escrow record; so the current
proposer's block with a deposit the Shield never escrowed goes through. -/
theorem proposeBlock_ignores_escrow :
    (∀ κ cfg escrowed escrowed' mem ctx b t s, cfg.shieldAddressSlot ≠ s.shieldAddress →
      proposeBlock κ cfg escrowed mem ctx b t s = proposeBlock κ cfg escrowed' mem ctx b t s) ∧
    unescrowedDeposit.transactionType = deposit ∧
    (proposeBlock sumKeccak ⟨1, 32, 100⟩ (fun _ => false) (fun _ => 0) ⟨5, 1, 0, 0⟩ depositBlock
      [unescrowedDeposit] depositState).isOk = true :=
  ⟨fun κ cfg _ escrowed' _ _ _ _ _ h => proposeBlock_escrowed_eq κ cfg h escrowed', rfl,
    by decide⟩

/-- **At the Shield, the escrow check works**: a block that goes through has every deposit
escrowed. -/
theorem deposit_escrowed_of_proposeBlock (h : cfg.shieldAddressSlot = s.shieldAddress) {s' : State}
    (hp : proposeBlock κ cfg escrowed mem ctx b t s = .ok s') :
    ∀ tx ∈ t, tx.transactionType = deposit → escrowed (κ.words tx.abiWords) = true := by
  obtain ⟨hn, -, -, -, -, w, hw, -⟩ := proposeBlockBody_ok κ cfg hp
  rw [proposeBlockAssembly_eq κ cfg escrowed s mem b (by omega)] at hw
  intro tx htx hd
  by_contra he
  have hf : EscrowFails κ cfg escrowed s tx :=
    ⟨hd, (escrowWord_eq_zero_iff h _).2 (Bool.eq_false_iff.2 he)⟩
  rw [if_pos ⟨tx, htx, hf⟩] at hw
  cases hw

/-- The block goes through at the Shield once the deposit is escrowed. -/
theorem deposit_escrowed_of_proposeBlock_depositBlock :
    (⟨1, 32, 3⟩ : Config).shieldAddressSlot = depositState.shieldAddress ∧
    proposeBlock sumKeccak ⟨1, 32, 3⟩ (fun _ => true) (fun _ => 0) ⟨5, 1, 0, 0⟩ depositBlock
      [unescrowedDeposit] depositState =
      .ok { depositState with
        feeBook := Function.update depositState.feeBook (sumKeccak.packed 5 0) ![0, 0]
        blockHashes := [⟨sumKeccak.words depositBlock.abiWords, 0⟩] } ∧
    ∀ tx ∈ [unescrowedDeposit], tx.transactionType = deposit →
      (fun _ => true : Word → Bool) (sumKeccak.words tx.abiWords) = true := by
  refine ⟨rfl, ?hp, deposit_escrowed_of_proposeBlock sumKeccak ⟨1, 32, 3⟩ rfl ?hp⟩
  rfl

end ProposeBlock

end Nightfall
