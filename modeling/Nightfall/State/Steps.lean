import Nightfall.State.ProposeBlock

/-!
# State/Steps — what one call can do

Most functions of `State` are a modifier followed by one storage write; `eq_of_guard_ok` reads the
write off a call that went through.  `Op.apply_ok` then says once what any call other than
`withdraw` can do: append a block, pop one, credit the withdrawal ledger, remove a proposer, clear
a fee book entry, mark a block stake withdrawn, or leave those records alone and the proposer
records too, unless the call writes one directly.  The invariants of the later modules are case
analyses over it.
-/

namespace Nightfall

variable (κ : Keccak) (cfg : Config)

/-- A guarded write that went through made that write. -/
theorem eq_of_guard_ok {α : Type} {g : Except String Unit} {x y : α}
    (h : (g >>= fun _ => pure x) = .ok y) : y = x := by
  obtain ⟨_, -, h⟩ := bind_eq_ok.mp h
  exact (Except.ok.inj h).symm

theorem noEntries_ok {r : Except String State} {s' : State} {es : List Entry}
    (h : noEntries r = .ok (s', es)) : r = .ok s' ∧ es = [] := by
  cases r <;> simp_all [noEntries, Functor.map, Except.map]

theorem popBlockData_ok {ctx : Ctx} {s : State} {r : BlockData × State}
    (h : popBlockData ctx s = .ok r) : r.2 = { s with blockHashes := s.blockHashes.dropLast } := by
  obtain ⟨_, -, h⟩ := bind_eq_ok.mp h
  split at h
  · cases h
  · exact congrArg Prod.snd (Except.ok.inj h).symm

theorem removeProposer_ok {ctx : Ctx} {p : Address} {s s' : State}
    (h : removeProposer ctx p s = .ok s') : s' = removeProposerBody ctx p s :=
  eq_of_guard_ok h

/-- `addPendingWithdrawal` credits both assets of `addr`, with entries saying so. -/
theorem addPendingWithdrawal_ok {ctx : Ctx} {addr : Address} {e m : ℕ} {s s' : State}
    {es : List Entry} (h : addPendingWithdrawal ctx addr e m s = .ok (s', es)) :
    s' = { s with pendingWithdrawals := (Function.update s.pendingWithdrawals addr
      ![s.pendingWithdrawals addr 0 + e, s.pendingWithdrawals addr 1 + m]) } ∧
      es = [.credit addr 0 e, .credit addr 1 m] := by
  simp only [addPendingWithdrawal, bind_eq_ok] at h
  obtain ⟨_, -, eth, he, matic, hm, h⟩ := h
  obtain ⟨rfl, rfl⟩ := Prod.ext_iff.mp (Except.ok.inj h).symm
  rw [checkedAdd_eq_ok he, checkedAdd_eq_ok hm]
  exact ⟨rfl, rfl⟩

/-- `rewardChallenger` removes the proposer, zeroes its bond and credits the challenger's ETH
with `bond.amount + numRemoved * BLOCK_STAKE`, with an entry saying so. -/
theorem rewardChallenger_ok {ctx : Ctx} {c p : Address} {n : ℕ} {s s' : State} {es : List Entry}
    (h : rewardChallenger cfg ctx c p n s = .ok (s', es)) :
    let r := removeProposerBody ctx p s
    let amount := (r.bondAccounts p).amount + n * cfg.blockStake
    s' = { r with
      bondAccounts := Function.update r.bondAccounts p ⟨0, 0⟩
      pendingWithdrawals := (Function.update r.pendingWithdrawals c
        (Function.update (r.pendingWithdrawals c) 0 (r.pendingWithdrawals c 0 + amount))) } ∧
      es = [.credit c 0 amount] := by
  simp only [rewardChallenger, bind_eq_ok] at h
  obtain ⟨_, -, r, hr, mul, hmul, amount, hamount, eth, heth, h⟩ := h
  obtain ⟨rfl, rfl⟩ := Prod.ext_iff.mp (Except.ok.inj h).symm
  rw [removeProposer_ok hr] at heth hamount ⊢
  rw [checkedAdd_eq_ok heth, checkedAdd_eq_ok hamount, checkedMul_eq_ok hmul]
  exact ⟨rfl, rfl⟩

/-- The calls through which the Proposers contract writes a proposer record directly:
`setProposer` and `updateProposer`. -/
def Op.writesProposer : Op → Bool
  | .setProposer _ _ => true
  | .updateProposer _ _ => true
  | _ => false

/-- **What one call other than `withdraw` can do**: append a block, pop the last one, credit the
withdrawal ledger through `addPendingWithdrawal` or `rewardChallenger`, remove a proposer, clear
a fee book entry, mark a block stake withdrawn, or else leave `blockHashes`,
`pendingWithdrawals`, the fee book and the claimed block stakes as they were, make no ledger
entry, leave the proposer records alone unless it is `setProposer` or `updateProposer`, and the
amount of a bond unless it is `setBondAccount` of that bond. -/
theorem Op.apply_ok {ctx : Ctx} {o : Op} {s s' : State} {es : List Entry}
    (h : o.apply κ cfg ctx s = .ok (s', es)) :
    (∃ e mem b t, o = .proposeBlock e mem b t ∧ es = [] ∧
      Nightfall.proposeBlock κ cfg e mem ctx b t s = .ok s') ∨
    (o = .popBlockData ∧ es = [] ∧ s' = { s with blockHashes := s.blockHashes.dropLast }) ∨
    (∃ a e m, o = .addPendingWithdrawal a e m ∧
      Nightfall.addPendingWithdrawal ctx a e m s = .ok (s', es)) ∨
    (∃ c p n, o = .rewardChallenger c p n ∧
      Nightfall.rewardChallenger cfg ctx c p n s = .ok (s', es)) ∨
    (∃ p, o = .removeProposer p ∧ es = [] ∧ s' = removeProposerBody ctx p s) ∨
    (∃ p n, o = .resetFeeBookInfo p n ∧ es = [] ∧
      s' = { s with feeBook := Function.update s.feeBook (κ.packed p n) 0 }) ∨
    (∃ h, o = .setBlockStakeWithdrawn h ∧ es = [] ∧
      s' = { s with claimedBlockStakes := Function.update s.claimedBlockStakes h true }) ∨
    (es = [] ∧ s'.blockHashes = s.blockHashes ∧ s'.pendingWithdrawals = s.pendingWithdrawals ∧
      (o.writesProposer = false → s'.proposers = s.proposers) ∧ s'.feeBook = s.feeBook ∧
      s'.claimedBlockStakes = s.claimedBlockStakes ∧
      ∀ a, (s'.bondAccounts a).amount = (s.bondAccounts a).amount ∨
        ∃ amount, o = .setBondAccount a amount) := by
  cases o with
  | proposeBlock e mem b t =>
    obtain ⟨hr, rfl⟩ := noEntries_ok h
    exact .inl ⟨e, mem, b, t, rfl, rfl, hr⟩
  | popBlockData =>
    obtain ⟨hr, rfl⟩ := noEntries_ok h
    obtain ⟨r, hp, rfl⟩ : ∃ r, Nightfall.popBlockData ctx s = .ok r ∧ r.2 = s' := by
      cases hp : Nightfall.popBlockData ctx s <;> simp_all [Functor.map, Except.map]
    exact .inr (.inl ⟨rfl, rfl, popBlockData_ok hp⟩)
  | addPendingWithdrawal a e m => exact .inr (.inr (.inl ⟨a, e, m, rfl, h⟩))
  | rewardChallenger c p n => exact .inr (.inr (.inr (.inl ⟨c, p, n, rfl, h⟩)))
  | removeProposer p =>
    obtain ⟨hr, rfl⟩ := noEntries_ok h
    exact .inr (.inr (.inr (.inr (.inl ⟨p, rfl, rfl, removeProposer_ok hr⟩))))
  | resetFeeBookInfo p n =>
    obtain ⟨hr, rfl⟩ := noEntries_ok h
    exact .inr (.inr (.inr (.inr (.inr (.inl ⟨p, n, rfl, rfl, eq_of_guard_ok hr⟩)))))
  | setBlockStakeWithdrawn bh =>
    obtain ⟨hr, rfl⟩ := noEntries_ok h
    exact .inr (.inr (.inr (.inr (.inr (.inr (.inl ⟨bh, rfl, rfl, eq_of_guard_ok hr⟩))))))
  | setBondAccount addr amount =>
    obtain ⟨hr, rfl⟩ := noEntries_ok h
    obtain rfl := eq_of_guard_ok hr
    refine .inr (.inr (.inr (.inr (.inr (.inr (.inr
      ⟨rfl, rfl, rfl, fun _ => rfl, rfl, rfl, fun a => ?_⟩))))))
    by_cases ha : a = addr
    · exact .inr ⟨amount, ha ▸ rfl⟩
    · exact .inl (by simp only [Function.update_noteq ha])
  | updateBondAccountTime addr time =>
    obtain ⟨hr, rfl⟩ := noEntries_ok h
    obtain rfl := eq_of_guard_ok hr
    refine .inr (.inr (.inr (.inr (.inr (.inr (.inr
      ⟨rfl, rfl, rfl, fun _ => rfl, rfl, rfl, fun a => .inl ?_⟩))))))
    by_cases ha : a = addr
    · subst ha
      simp only [Function.update_same]
    · simp only [Function.update_noteq ha]
  | _ =>
    obtain ⟨hr, rfl⟩ := noEntries_ok h
    have hs' := eq_of_guard_ok hr
    subst hs'
    exact .inr (.inr (.inr (.inr (.inr (.inr (.inr
      ⟨rfl, rfl, rfl, fun hw => (by first | rfl | cases hw), rfl, rfl, fun _ => .inl rfl⟩))))))

/-- The ETH leg of `withdraw`, when it goes through: for a non-zero amount, the re-entrant calls
and the payout. -/
theorem withdrawEth_ok {a : Address} {x : ℕ} {re : List (Ctx × Op)} {success : Bool} {s : State}
    {r : State × List Entry} (h : withdrawEth κ cfg a x re success s = .ok r) :
    r = if 0 < x then ((runOps κ cfg re s).1, (runOps κ cfg re s).2 ++ [.payout a 0 x])
      else (s, []) := by
  unfold withdrawEth at h
  split at h
  · rw [if_pos ‹_›]; exact eq_of_guard_ok h
  · rw [if_neg ‹_›]; exact (Except.ok.inj h).symm

/-- The MATIC leg of `withdraw`, when it goes through: for a non-zero amount, the second zeroing
of the MATIC balance and the payout. -/
theorem withdrawMatic_ok {a : Address} {y : ℕ} {success : Bool} {r r' : State × List Entry}
    (h : withdrawMatic a y success r = .ok r') :
    r' = if 0 < y then ({ r.1 with pendingWithdrawals := (Function.update r.1.pendingWithdrawals a
        (Function.update (r.1.pendingWithdrawals a) 1 0)) }, r.2 ++ [.payout a 1 y])
      else r := by
  unfold withdrawMatic at h
  split at h
  · rw [if_pos ‹_›]; exact eq_of_guard_ok h
  · rw [if_neg ‹_›]; exact (Except.ok.inj h).symm

/-- **`withdraw` that goes through** zeroed the sender's balances and then went through both
legs. -/
theorem withdraw_ok {ctx : Ctx} {re : List (Ctx × Op)} {e m : Bool} {s s' : State}
    {es : List Entry} (h : withdraw κ cfg ctx re e m s = .ok (s', es)) :
    ∃ r, withdrawEth κ cfg ctx.sender (s.pendingWithdrawals ctx.sender 0) re e
        { s with pendingWithdrawals := Function.update s.pendingWithdrawals ctx.sender ![0, 0] } =
        .ok r ∧
      withdrawMatic ctx.sender (s.pendingWithdrawals ctx.sender 1) m r = .ok (s', es) := by
  simp only [withdraw, bind_eq_ok] at h
  obtain ⟨_, -, r, hr, h⟩ := h
  exact ⟨r, hr, h⟩

/-! ## Invariants of runs

An invariant of `State` is proved once per call: `runOps_invariant_of` and `run_invariant_of`
carry it over whole runs, and `withdraw_invariant_of` over a `withdraw`, whose only writes of its
own go to `pendingWithdrawals`.  An invariant may hold only for some calls (`Q`); the runs are then
those whose calls, re-entrant ones included, all satisfy `Q`. -/

/-- The operations a transaction runs: its own, or those made during `withdraw`'s ETH transfer. -/
def Call.ops : Call → List Op
  | .op _ o => [o]
  | .withdraw _ reentry _ _ => reentry.map Prod.snd

section Invariants

variable {P : State → Prop} {Q : Op → Prop}

/-- A property every call of `Q` keeps holds after any run of such calls. -/
theorem runOps_invariant_of (hop : ∀ {ctx : Ctx} {o : Op} {s s' : State} {es : List Entry},
      Q o → P s → o.apply κ cfg ctx s = .ok (s', es) → P s')
    {os : List (Ctx × Op)} (hos : ∀ x ∈ os, Q x.2) {s : State} (hs : P s) :
    P (runOps κ cfg os s).1 := by
  induction os generalizing s with
  | nil => exact hs
  | cons c os ih =>
    obtain ⟨ctx, o⟩ := c
    have hos' : ∀ x ∈ os, Q x.2 := fun x hx => hos x (List.mem_cons_of_mem _ hx)
    cases h : o.apply κ cfg ctx s with
    | error _ => simp only [runOps, h]; exact ih hos' hs
    | ok r =>
      obtain ⟨s', es⟩ := r
      simp only [runOps, h]
      exact ih hos' (hop (hos _ (List.mem_cons_self _ _)) hs h)

/-- **`withdraw` keeps** a property that every call of `Q` keeps and that no write of
`pendingWithdrawals` breaks, when its re-entrant calls are of `Q`. -/
theorem withdraw_invariant_of (hop : ∀ {ctx : Ctx} {o : Op} {s s' : State} {es : List Entry},
      Q o → P s → o.apply κ cfg ctx s = .ok (s', es) → P s')
    (hpw : ∀ {s} f, P s → P { s with pendingWithdrawals := f }) {ctx : Ctx} {re : List (Ctx × Op)}
    (hre : ∀ x ∈ re, Q x.2) {e m : Bool} {s s' : State} {es : List Entry} (hs : P s)
    (h : withdraw κ cfg ctx re e m s = .ok (s', es)) : P s' := by
  obtain ⟨r, hr, h⟩ := withdraw_ok κ cfg h
  have h₁ : P r.1 := by
    rw [withdrawEth_ok κ cfg hr]
    split
    · exact runOps_invariant_of κ cfg hop hre (hpw _ hs)
    · exact hpw _ hs
  have h₂ := congrArg Prod.fst (withdrawMatic_ok h)
  dsimp only at h₂
  split at h₂
  · rw [h₂]; exact hpw _ h₁
  · rw [h₂]; exact h₁

/-- **A property every call of `Q` keeps holds after any run of such calls.** -/
theorem run_invariant_of (hop : ∀ {ctx : Ctx} {o : Op} {s s' : State} {es : List Entry},
      Q o → P s → o.apply κ cfg ctx s = .ok (s', es) → P s')
    (hw : ∀ {ctx : Ctx} {re : List (Ctx × Op)} {e m : Bool} {s s' : State} {es : List Entry},
      (∀ x ∈ re, Q x.2) → P s → withdraw κ cfg ctx re e m s = .ok (s', es) → P s')
    {cs : List Call} (hcs : ∀ c ∈ cs, ∀ o ∈ c.ops, Q o) {s : State} (hs : P s) :
    P (run κ cfg cs s).1 := by
  induction cs generalizing s with
  | nil => exact hs
  | cons c cs ih =>
    have hc := hcs c (List.mem_cons_self _ _)
    have hcs' : ∀ c ∈ cs, ∀ o ∈ c.ops, Q o := fun c hc => hcs c (List.mem_cons_of_mem _ hc)
    cases h : c.apply κ cfg s with
    | error _ => simp only [run, h]; exact ih hcs' hs
    | ok r =>
      obtain ⟨s', es⟩ := r
      have hs' : P s' := by
        cases c with
        | op ctx o => exact hop (hc o (List.mem_singleton_self o)) hs h
        | withdraw ctx re e m => exact hw (fun x hx => hc x.2 (List.mem_map_of_mem _ hx)) hs h
      simp only [run, h]; exact ih hcs' hs'

/-- **A property every call keeps holds after any run.** -/
theorem run_invariant (hop : ∀ {ctx : Ctx} {o : Op} {s s' : State} {es : List Entry},
      P s → o.apply κ cfg ctx s = .ok (s', es) → P s')
    (hpw : ∀ {s} f, P s → P { s with pendingWithdrawals := f }) {cs : List Call} {s : State}
    (hs : P s) : P (run κ cfg cs s).1 :=
  run_invariant_of κ cfg (Q := fun _ => True) (fun _ => hop)
    (fun hre => withdraw_invariant_of κ cfg (Q := fun _ => True) (fun _ => hop) hpw hre)
    (fun _ _ _ _ => trivial) hs

end Invariants

end Nightfall
