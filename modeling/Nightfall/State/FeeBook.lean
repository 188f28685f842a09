import Nightfall.State.BlockChain

/-!
# State/FeeBook — the fee book and the claimed block stakes over runs

Two records of `State` are what proposers are paid from: the fee book, which `proposeBlock` fills
under `keccak256(abi.encodePacked(proposer, blockNumberL2))` and `resetFeeBookInfo` clears, and
the claimed block stakes, which `setBlockStakeWithdrawn` marks and `isBlockStakeWithdrawn` reads.
Every other call leaves both alone (`Op.apply_ok`).

`MadeOn` names the calls of a run together with the storage each one was made on — the storage
the run had reached, or, for a call made during a `withdraw`'s ETH transfer, the storage the
transfer had reached.  Over every run each fee book entry is the one at the start, or was cleared
by a `resetFeeBookInfo` under its key, or holds the fees of a block a `proposeBlock` of the run
accepted under its key (`run_feeBookedBy`); `popBlockData` leaves the entry of the block it rolls
back where it is.  A block stake marked withdrawn stays marked over every run, and only a
`setBlockStakeWithdrawn` of its hash in the run marks it (`run_claimedBlockStakes`).
-/

namespace Nightfall

variable (κ : Keccak) (cfg : Config)

/-! ## The calls of a run, and the storage each was made on -/

/-- **Call `(ctx, o)` of the calls `os`, run from `s`, is made on the storage `s₀`.** -/
inductive OpMadeOn : List (Ctx × Op) → State → Ctx → Op → State → Prop
  | head {ctx : Ctx} {o : Op} {os : List (Ctx × Op)} {s : State} :
    OpMadeOn ((ctx, o) :: os) s ctx o s
  | tail {x : Ctx × Op} {os : List (Ctx × Op)} {s : State} {ctx : Ctx} {o : Op} {s₀ : State} :
    OpMadeOn os (runOps κ cfg [x] s).1 ctx o s₀ → OpMadeOn (x :: os) s ctx o s₀

/-- **Call `(ctx, o)` of the run `cs` from `s` is made on the storage `s₀`**: a transaction of the
run, or a call made during the ETH transfer of a `withdraw` of the run — which transfers, and so
hands over control, only when the contract is not paused and the sender has ETH pending. -/
inductive MadeOn : List Call → State → Ctx → Op → State → Prop
  | op {ctx : Ctx} {o : Op} {cs : List Call} {s : State} : MadeOn (.op ctx o :: cs) s ctx o s
  | reentry {ctx : Ctx} {re : List (Ctx × Op)} {e m : Bool} {cs : List Call} {s : State}
      {ctx' : Ctx} {o : Op} {s₀ : State} (hpaused : s.paused = false)
      (heth : 0 < s.pendingWithdrawals ctx.sender 0)
      (h : OpMadeOn κ cfg re
        { s with pendingWithdrawals := Function.update s.pendingWithdrawals ctx.sender ![0, 0] }
        ctx' o s₀) :
    MadeOn (.withdraw ctx re e m :: cs) s ctx' o s₀
  | tail {c : Call} {cs : List Call} {s : State} {ctx : Ctx} {o : Op} {s₀ : State} :
    MadeOn cs (run κ cfg [c] s).1 ctx o s₀ → MadeOn (c :: cs) s ctx o s₀

theorem runOps_cons_fst (x : Ctx × Op) (os : List (Ctx × Op)) (s : State) :
    (runOps κ cfg (x :: os) s).1 = (runOps κ cfg os (runOps κ cfg [x] s).1).1 := by
  obtain ⟨ctx, o⟩ := x
  cases h : o.apply κ cfg ctx s <;> simp [runOps, h]

theorem run_cons_fst (c : Call) (cs : List Call) (s : State) :
    (run κ cfg (c :: cs) s).1 = (run κ cfg cs (run κ cfg [c] s).1).1 := by
  cases h : c.apply κ cfg s <;> simp [run, h]

/-- A `withdraw` that goes through was made while the contract was not paused. -/
theorem withdraw_notPaused {ctx : Ctx} {re : List (Ctx × Op)} {e m : Bool} {s s' : State}
    {es : List Entry} (h : withdraw κ cfg ctx re e m s = .ok (s', es)) : s.paused = false := by
  simp only [withdraw, bind_eq_ok, whenNotPaused, require_eq_ok] at h
  obtain ⟨_, hp, -⟩ := h
  exact hp

/-! ## The fee book -/

/-- `getFeeBookInfo` after a write of the fee book at one key. -/
theorem getFeeBookInfo_of_update {s s' : State} {k : Word} {v : Fin 2 → ℕ}
    (h : s'.feeBook = Function.update s.feeBook k v) (p : Address) (n : ℕ) :
    getFeeBookInfo κ p n s' = if κ.packed p n = k then (v 0, v 1) else getFeeBookInfo κ p n s := by
  simp only [getFeeBookInfo, h]
  split_ifs with hk
  · rw [hk, Function.update_same]
  · rw [Function.update_noteq hk]

/-- **Fee book entry `(p, n)` of `s'` is that of `s`, or was written by a call of `M`**: cleared
by a `resetFeeBookInfo` under its key that went through on the storage it was made on, or filled
with the fees of a block that a `proposeBlock` under its key accepted on the storage it was made
on. -/
def FeeBookedBy (M : Ctx → Op → State → Prop) (p : Address) (n : ℕ) (s s' : State) : Prop :=
  getFeeBookInfo κ p n s' = getFeeBookInfo κ p n s ∨
  (getFeeBookInfo κ p n s' = (0, 0) ∧ ∃ ctx p' n' s₀ s₁, M ctx (.resetFeeBookInfo p' n') s₀ ∧
    κ.packed p' n' = κ.packed p n ∧ resetFeeBookInfo κ ctx p' n' s₀ = .ok s₁) ∨
  ∃ ctx escrowed mem b t s₀ s₁, M ctx (.proposeBlock escrowed mem b t) s₀ ∧
    proposeBlock κ cfg escrowed mem ctx b t s₀ = .ok s₁ ∧
    κ.packed b.proposer b.blockNumberL2 = κ.packed p n ∧
    getFeeBookInfo κ p n s' = (depositFees t, otherFees t)

namespace FeeBookedBy

variable {κ cfg} {M M' : Ctx → Op → State → Prop} {p : Address} {n : ℕ} {s₁ s₂ s₃ : State}

theorem of_feeBook (h : s₂.feeBook = s₁.feeBook) : FeeBookedBy κ cfg M p n s₁ s₂ :=
  .inl (by simp only [getFeeBookInfo, h])

theorem mono (h : FeeBookedBy κ cfg M p n s₁ s₂) (hM : ∀ ctx o s₀, M ctx o s₀ → M' ctx o s₀) :
    FeeBookedBy κ cfg M' p n s₁ s₂ := by
  rcases h with h | ⟨h, ctx, p', n', s₀, s₁', hm, hk, hr⟩ |
    ⟨ctx, e, mem, b, t, s₀, s₁', hm, hp, hk, h⟩
  · exact .inl h
  · exact .inr (.inl ⟨h, ctx, p', n', s₀, s₁', hM _ _ _ hm, hk, hr⟩)
  · exact .inr (.inr ⟨ctx, e, mem, b, t, s₀, s₁', hM _ _ _ hm, hp, hk, h⟩)

/-- The last write of an entry is the one that counts. -/
theorem trans (h₁ : FeeBookedBy κ cfg M p n s₁ s₂) (h₂ : FeeBookedBy κ cfg M p n s₂ s₃) :
    FeeBookedBy κ cfg M p n s₁ s₃ := by
  rcases h₂ with h₂ | h₂ | h₂
  · rw [FeeBookedBy, h₂]; exact h₁
  · exact .inr (.inl h₂)
  · exact .inr (.inr h₂)

end FeeBookedBy

/-- **What one call other than `withdraw` does to a fee book entry**: `proposeBlock` fills the
entry under its block's key with the block's fees, `resetFeeBookInfo` clears the entry under its
key, and every other call leaves the fee book alone. -/
theorem Op.apply_feeBookedBy {ctx : Ctx} {o : Op} {s s' : State} {es : List Entry}
    (h : o.apply κ cfg ctx s = .ok (s', es)) (p : Address) (n : ℕ) :
    FeeBookedBy κ cfg (fun ctx' o' s₀ => ctx' = ctx ∧ o' = o ∧ s₀ = s) p n s s' := by
  rcases Op.apply_ok κ cfg h with ⟨e, mem, b, t, rfl, -, hp⟩ | ⟨-, -, rfl⟩ | ⟨_, _, _, -, ha⟩ |
    ⟨_, _, _, -, hr⟩ | ⟨_, -, -, rfl⟩ | ⟨p', n', rfl, -, rfl⟩ | ⟨_, -, -, rfl⟩ | ⟨-, -, -, -, hf, -⟩
  · -- `proposeBlock` books its block under `keccak256(proposer, blockNumberL2)`.
    have hacc := hp
    obtain ⟨-, -, rfl⟩ := proposeBlock_ok κ cfg hp
    rw [FeeBookedBy, getFeeBookInfo_of_update κ rfl]
    split_ifs with hk
    · exact .inr (.inr ⟨ctx, e, mem, b, t, s, _, ⟨rfl, rfl, rfl⟩, hacc, hk.symm, rfl⟩)
    · exact .inl rfl
  · exact .of_feeBook rfl
  · exact .of_feeBook (by rw [(addPendingWithdrawal_ok ha).1])
  · exact .of_feeBook (by rw [(rewardChallenger_ok cfg hr).1]; rfl)
  · exact .of_feeBook rfl
  · -- `resetFeeBookInfo` clears the entry under its key.
    rw [FeeBookedBy, getFeeBookInfo_of_update κ rfl]
    split_ifs with hk
    · exact .inr (.inl ⟨rfl, ctx, p', n', s, _, ⟨rfl, rfl, rfl⟩, hk.symm, (noEntries_ok h).1⟩)
    · exact .inl rfl
  · exact .of_feeBook rfl
  · exact .of_feeBook hf

/-- Calls one after another write a fee book entry only through their own `proposeBlock` and
`resetFeeBookInfo` calls. -/
theorem runOps_feeBookedBy (os : List (Ctx × Op)) (s : State) (p : Address) (n : ℕ) :
    FeeBookedBy κ cfg (OpMadeOn κ cfg os s) p n s (runOps κ cfg os s).1 := by
  induction os generalizing s with
  | nil => exact .of_feeBook rfl
  | cons x os ih =>
    obtain ⟨ctx, o⟩ := x
    have hx : FeeBookedBy κ cfg (OpMadeOn κ cfg ((ctx, o) :: os) s) p n s
        (runOps κ cfg [(ctx, o)] s).1 := by
      cases h : o.apply κ cfg ctx s with
      | error _ => exact .of_feeBook (by simp only [runOps, h])
      | ok r =>
        simp only [runOps, h]
        exact (Op.apply_feeBookedBy κ cfg h p n).mono fun _ _ _ ⟨he, ho, hs⟩ => he ▸ ho ▸ hs ▸ .head
    rw [runOps_cons_fst]
    exact hx.trans ((ih _).mono fun _ _ _ => .tail)

/-- A `withdraw` writes a fee book entry only through the calls made during its ETH transfer. -/
theorem withdraw_feeBookedBy {ctx : Ctx} {re : List (Ctx × Op)} {e m : Bool} {s s' : State}
    {es : List Entry} (h : withdraw κ cfg ctx re e m s = .ok (s', es)) (cs : List Call)
    (p : Address) (n : ℕ) :
    FeeBookedBy κ cfg (MadeOn κ cfg (.withdraw ctx re e m :: cs) s) p n s s' := by
  have hpaused := withdraw_notPaused κ cfg h
  obtain ⟨r, hr, hm⟩ := withdraw_ok κ cfg h
  have hs' : s'.feeBook = r.1.feeBook := by
    have h₂ := congrArg Prod.fst (withdrawMatic_ok hm)
    dsimp only at h₂
    split at h₂ <;> rw [h₂]
  refine FeeBookedBy.trans ?_ (.of_feeBook hs')
  rw [withdrawEth_ok κ cfg hr]
  split
  · rename_i heth
    exact FeeBookedBy.trans (.of_feeBook rfl)
      ((runOps_feeBookedBy κ cfg re _ p n).mono fun _ _ _ => .reentry hpaused heth)
  · exact .of_feeBook rfl

/-- **Only `proposeBlock` fills the fee book, and only `resetFeeBookInfo` clears it**: over every
run, those calls made during `withdraw`'s ETH transfer included, each entry
`getFeeBookInfo(p, n)` at the end is the one at the start; or it is zero, cleared by a
`resetFeeBookInfo` under its key made in the run, which went through on the storage it was made
on; or it holds the fees of the deposits and of the other transactions of a block booked under
its key, which a `proposeBlock` made in the run accepted on the storage it was made on.  A
`popBlockData` leaves the entry of the block it rolls back as it is. -/
theorem run_feeBookedBy (cs : List Call) (s : State) (p : Address) (n : ℕ) :
    FeeBookedBy κ cfg (MadeOn κ cfg cs s) p n s (run κ cfg cs s).1 := by
  induction cs generalizing s with
  | nil => exact .of_feeBook rfl
  | cons c cs ih =>
    have hc : FeeBookedBy κ cfg (MadeOn κ cfg (c :: cs) s) p n s (run κ cfg [c] s).1 := by
      cases h : c.apply κ cfg s with
      | error _ => exact .of_feeBook (by simp only [run, h])
      | ok r =>
        simp only [run, h]
        cases c with
        | op ctx o =>
          exact (Op.apply_feeBookedBy κ cfg h p n).mono
            fun _ _ _ ⟨he, ho, hs⟩ => he ▸ ho ▸ hs ▸ .op
        | withdraw ctx re e m => exact withdraw_feeBookedBy κ cfg h cs p n
    rw [run_cons_fst]
    exact hc.trans ((ih _).mono fun _ _ _ => .tail)

/-! ## Claimed block stakes -/

/-- **What one call other than `withdraw` does to a block stake's mark**: it keeps a mark, and
marks a stake only when it is `setBlockStakeWithdrawn` of that stake's hash. -/
theorem Op.apply_claimedBlockStakes {ctx : Ctx} {o : Op} {s s' : State} {es : List Entry}
    (h : o.apply κ cfg ctx s = .ok (s', es)) (blockHash : Word) :
    (s.claimedBlockStakes blockHash = true → s'.claimedBlockStakes blockHash = true) ∧
    (s'.claimedBlockStakes blockHash = true →
      s.claimedBlockStakes blockHash = true ∨ o = .setBlockStakeWithdrawn blockHash) := by
  rcases Op.apply_ok κ cfg h with ⟨_, _, _, _, -, -, hp⟩ | ⟨-, -, rfl⟩ | ⟨_, _, _, -, ha⟩ |
    ⟨_, _, _, -, hr⟩ | ⟨_, -, -, rfl⟩ | ⟨_, _, -, -, rfl⟩ | ⟨h₀, rfl, -, rfl⟩ | ⟨-, -, -, -, -, hc, -⟩
  · obtain ⟨-, -, rfl⟩ := proposeBlock_ok κ cfg hp
    exact ⟨id, .inl⟩
  · exact ⟨id, .inl⟩
  · rw [(addPendingWithdrawal_ok ha).1]
    exact ⟨id, .inl⟩
  · rw [(rewardChallenger_ok cfg hr).1]
    exact ⟨id, .inl⟩
  · exact ⟨id, .inl⟩
  · exact ⟨id, .inl⟩
  · -- `setBlockStakeWithdrawn(h₀)` marks `h₀` alone.
    by_cases hh : blockHash = h₀
    · subst hh
      exact ⟨fun _ => Function.update_same _ _ _, fun _ => .inr rfl⟩
    · simp only [Function.update_noteq hh]
      exact ⟨id, .inl⟩
  · rw [hc]
    exact ⟨id, .inl⟩

/-- A run with no `setBlockStakeWithdrawn` of `blockHash` among its calls leaves that stake
unmarked. -/
theorem run_unclaimed {cs : List Call} {blockHash : Word}
    (hcs : ∀ c ∈ cs, ∀ o ∈ c.ops, o ≠ .setBlockStakeWithdrawn blockHash) {s : State}
    (hs : s.claimedBlockStakes blockHash = false) :
    (run κ cfg cs s).1.claimedBlockStakes blockHash = false := by
  have hop : ∀ {ctx : Ctx} {o : Op} {s s' : State} {es : List Entry},
      o ≠ .setBlockStakeWithdrawn blockHash → s.claimedBlockStakes blockHash = false →
        o.apply κ cfg ctx s = .ok (s', es) → s'.claimedBlockStakes blockHash = false :=
    fun hne hs h => Bool.eq_false_iff.2 fun h' =>
      ((Op.apply_claimedBlockStakes κ cfg h blockHash).2 h').elim (by simp [hs]) hne
  exact run_invariant_of κ cfg hop
    (fun hre hs h => withdraw_invariant_of κ cfg hop (fun _ hs => hs) hre hs h) hcs hs

/-- **A block stake is claimed once and for good**: over every run, a block stake marked withdrawn
stays marked, and a stake marked at the end but not at the start was marked by a
`setBlockStakeWithdrawn` of its hash among the run's calls, those made during `withdraw`'s ETH
transfer included. -/
theorem run_claimedBlockStakes (cs : List Call) (s : State) (blockHash : Word) :
    (s.claimedBlockStakes blockHash = true →
      (run κ cfg cs s).1.claimedBlockStakes blockHash = true) ∧
    ((run κ cfg cs s).1.claimedBlockStakes blockHash = true →
      s.claimedBlockStakes blockHash = true ∨
        ∃ c ∈ cs, Op.setBlockStakeWithdrawn blockHash ∈ c.ops) := by
  refine ⟨run_invariant κ cfg (P := fun s => s.claimedBlockStakes blockHash = true)
    (fun hs h => (Op.apply_claimedBlockStakes κ cfg h blockHash).1 hs) (fun _ hs => hs),
    fun hend => or_iff_not_imp_right.2 fun hc => Bool.not_eq_false _ |>.mp fun hs => ?_⟩
  rw [run_unclaimed κ cfg (fun c hc' o ho he => hc ⟨c, hc', he ▸ ho⟩) hs] at hend
  exact Bool.false_ne_true hend

end Nightfall
