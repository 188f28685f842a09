import Nightfall.State.Withdrawals

/-!
# State/Bonds — a proposer's bond is kept or goes to a challenger

`setBondAccount`, a call of the Proposers contract, sets a proposer's bond; `updateBondAccountTime`
changes only its time; `rewardChallenger` zeroes the bond of the proposer it removes and credits
the challenger's ETH with the bond and the block stakes of the removed blocks.  No other call, and
no call made during `withdraw`'s ETH transfer, touches a bond.

So a bond is all or nothing: over every run that does not set `p`'s bond, `p`'s bond keeps its
amount, or ends at zero with some challenger credited at least that amount (`run_bondKept`).
-/

namespace Nightfall

variable (κ : Keccak) (cfg : Config)

/-- **Proposer `p`'s bond is kept, or slashed to a challenger**, from `s` to `s'` with the entries
`es`: its amount is as it was, or it is zero and some address was credited at least the amount in
ETH. -/
def BondKept (p : Address) (s s' : State) (es : List Entry) : Prop :=
  (s'.bondAccounts p).amount = (s.bondAccounts p).amount ∨
    (s'.bondAccounts p).amount = 0 ∧ ∃ c, (s.bondAccounts p).amount ≤ credited c 0 es

namespace BondKept

variable {p : Address} {s₁ s₂ s₃ : State} {es₁ es₂ : List Entry}

theorem of_eq (h : (s₂.bondAccounts p).amount = (s₁.bondAccounts p).amount) :
    BondKept p s₁ s₂ es₁ :=
  .inl h

theorem trans (h₁ : BondKept p s₁ s₂ es₁) (h₂ : BondKept p s₂ s₃ es₂) :
    BondKept p s₁ s₃ (es₁ ++ es₂) := by
  simp only [BondKept, credited, ledgerSum_append] at *
  rcases h₁ with h₁ | ⟨h₁, c, hc⟩ <;> rcases h₂ with h₂ | ⟨h₂, c', hc'⟩
  · exact .inl (h₂.trans h₁)
  · exact .inr ⟨h₂, c', by omega⟩
  · exact .inr ⟨h₂.trans h₁, c, by omega⟩
  · exact .inr ⟨h₂, c, by omega⟩

end BondKept

end Nightfall
