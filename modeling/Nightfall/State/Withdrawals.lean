import Nightfall.State.Steps
import Mathlib.Tactic.FinCases

/-!
# State/Withdrawals — the withdrawal ledger over runs

`addPendingWithdrawal` and `rewardChallenger` credit `pendingWithdrawals[a][k]`, and `withdraw`
pays out the balances of `msg.sender`; each call returns the ledger entries it made.  A run keeps
the books of asset `k` for address `a` when its end balance plus what it paid out equals its start
balance plus what it credited (`Balanced`).

Every call other than `withdraw` keeps the books of both assets, and so does any run of them
(`runOps_balanced`).  `withdraw` keeps the ETH books: a credit made during its ETH transfer lands
after the zeroing and stays.  So every run keeps them (`run_balanced_eth`).  The MATIC books it
keeps only when nothing was credited to the sender's MATIC balance during the transfer
(`withdraw_balanced_matic_iff`): with a MATIC balance to send, the second
`pendingWithdrawals[msg.sender][1] = 0`, after the transfer, erases any such credit.  So every run
whose re-entrant calls credit no MATIC keeps the MATIC books (`run_balanced_matic`), and no run
pays out more than was credited, of either asset (`run_paid_le_credited`).
-/

namespace Nightfall

/-! ## The books -/

/-- What an entry credits to `pendingWithdrawals[a][k]`. -/
def Entry.credited (a : Address) (k : Fin 2) : Entry → ℕ
  | .credit b j x => if b = a ∧ j = k then x else 0
  | .payout .. => 0

/-- What an entry pays out of `pendingWithdrawals[a][k]`. -/
def Entry.paid (a : Address) (k : Fin 2) : Entry → ℕ
  | .credit .. => 0
  | .payout b j x => if b = a ∧ j = k then x else 0

/-- The total of the amounts `w` reads off the entries. -/
def ledgerSum (w : Entry → ℕ) : List Entry → ℕ
  | [] => 0
  | e :: es => w e + ledgerSum w es

@[simp] theorem ledgerSum_append (w : Entry → ℕ) (es es' : List Entry) :
    ledgerSum w (es ++ es') = ledgerSum w es + ledgerSum w es' := by
  induction es with
  | nil => simp [ledgerSum]
  | cons e es ih => simp [ledgerSum, ih, Nat.add_assoc]

/-- The total credited to `pendingWithdrawals[a][k]` by the entries. -/
def credited (a : Address) (k : Fin 2) (es : List Entry) : ℕ := ledgerSum (Entry.credited a k) es

/-- The total paid out of `pendingWithdrawals[a][k]` by the entries. -/
def paid (a : Address) (k : Fin 2) (es : List Entry) : ℕ := ledgerSum (Entry.paid a k) es

/-- **The books of asset `k` for address `a` balance** from `s` to `s'` with the entries `es`:
the end balance plus what was paid out is the start balance plus what was credited. -/
def Balanced (a : Address) (k : Fin 2) (s s' : State) (es : List Entry) : Prop :=
  s'.pendingWithdrawals a k + paid a k es = s.pendingWithdrawals a k + credited a k es

namespace Balanced

variable {a : Address} {k : Fin 2} {s₁ s₂ s₃ : State} {es₁ es₂ : List Entry}

theorem of_eq (h : s₂.pendingWithdrawals = s₁.pendingWithdrawals) : Balanced a k s₁ s₂ [] := by
  simp [Balanced, credited, paid, ledgerSum, h]

theorem trans (h₁ : Balanced a k s₁ s₂ es₁) (h₂ : Balanced a k s₂ s₃ es₂) :
    Balanced a k s₁ s₃ (es₁ ++ es₂) := by
  unfold Balanced at *
  simp only [credited, paid, ledgerSum_append] at *
  omega

end Balanced

/-! ## Calls other than `withdraw` -/

section Ops

variable (κ : Keccak) (cfg : Config)

/-- **Every call other than `withdraw` keeps the books** of every address and asset. -/
theorem Op.apply_balanced {ctx : Ctx} {o : Op} {s s' : State} {es : List Entry}
    (h : o.apply κ cfg ctx s = .ok (s', es)) (a : Address) (k : Fin 2) : Balanced a k s s' es := by
  rcases Op.apply_ok κ cfg h with ⟨_, _, _, _, -, rfl, hp⟩ | ⟨-, rfl, rfl⟩ | ⟨b, e, m, -, hb⟩ |
    ⟨c, p, n, -, hc⟩ | ⟨_, -, rfl, rfl⟩ | ⟨_, _, -, rfl, rfl⟩ | ⟨_, -, rfl, rfl⟩ |
    ⟨rfl, -, hw, -⟩
  · obtain ⟨-, -, rfl⟩ := proposeBlock_ok κ cfg hp
    exact .of_eq rfl
  · exact .of_eq rfl
  · obtain ⟨rfl, rfl⟩ := addPendingWithdrawal_ok hb
    unfold Balanced
    by_cases hab : a = b
    · subst hab
      fin_cases k <;> simp [credited, paid, ledgerSum, Entry.credited, Entry.paid]
    · simp [credited, paid, ledgerSum, Entry.credited, Entry.paid, hab, Ne.symm hab]
  · obtain ⟨rfl, rfl⟩ := rewardChallenger_ok cfg hc
    unfold Balanced
    by_cases hac : a = c
    · subst hac
      fin_cases k <;> simp [credited, paid, ledgerSum, Entry.credited, Entry.paid, removeProposerBody]
    · simp [credited, paid, ledgerSum, Entry.credited, Entry.paid, hac, Ne.symm hac,
        removeProposerBody]
  · exact .of_eq rfl
  · exact .of_eq rfl
  · exact .of_eq rfl
  · exact .of_eq hw

/-- No call other than `withdraw` pays anything out. -/
theorem Op.apply_paid {ctx : Ctx} {o : Op} {s s' : State} {es : List Entry}
    (h : o.apply κ cfg ctx s = .ok (s', es)) (a : Address) (k : Fin 2) : paid a k es = 0 := by
  rcases Op.apply_ok κ cfg h with ⟨_, _, _, _, -, rfl, -⟩ | ⟨-, rfl, -⟩ | ⟨b, e, m, -, hb⟩ |
    ⟨c, p, n, -, hc⟩ | ⟨_, -, rfl, -⟩ | ⟨_, _, -, rfl, -⟩ | ⟨_, -, rfl, -⟩ | ⟨rfl, -, -⟩
  · rfl
  · rfl
  · rw [(addPendingWithdrawal_ok hb).2]; rfl
  · rw [(rewardChallenger_ok cfg hc).2]; rfl
  all_goals rfl

/-- **Books over calls other than `withdraw`**: a relation between the storage before and after
and the entries made, that an empty run has and that composes, holds over a run of such calls
when each of them has it. -/
theorem runOps_books {R : State → State → List Entry → Prop} (hnil : ∀ s, R s s [])
    (htrans : ∀ {s₁ s₂ s₃ es₁ es₂}, R s₁ s₂ es₁ → R s₂ s₃ es₂ → R s₁ s₃ (es₁ ++ es₂))
    (os : List (Ctx × Op))
    (hop : ∀ x ∈ os, ∀ {s s' es}, x.2.apply κ cfg x.1 s = .ok (s', es) → R s s' es) (s : State) :
    R s (runOps κ cfg os s).1 (runOps κ cfg os s).2 := by
  induction os generalizing s with
  | nil => exact hnil s
  | cons x os ih =>
    have ih := ih fun x hx => hop x (List.mem_cons_of_mem _ hx)
    obtain ⟨ctx, o⟩ := x
    cases h : o.apply κ cfg ctx s with
    | error _ => simp only [runOps, h]; exact ih s
    | ok r =>
      obtain ⟨s', es⟩ := r
      simp only [runOps, h]
      exact htrans (hop _ (List.mem_cons_self _ _) h) (ih s')

/-- **Runs of calls other than `withdraw` keep the books**, and pay nothing out. -/
theorem runOps_balanced (os : List (Ctx × Op)) (s : State) (a : Address) (k : Fin 2) :
    Balanced a k s (runOps κ cfg os s).1 (runOps κ cfg os s).2 ∧
      paid a k (runOps κ cfg os s).2 = 0 :=
  runOps_books κ cfg (R := fun s s' es => Balanced a k s s' es ∧ paid a k es = 0)
    (fun _ => ⟨.of_eq rfl, rfl⟩)
    (fun h₁ h₂ => ⟨h₁.1.trans h₂.1, by simp only [paid, ledgerSum_append] at h₁ h₂ ⊢; omega⟩)
    os (fun _ _ _ _ _ h => ⟨Op.apply_balanced κ cfg h a k, Op.apply_paid κ cfg h a k⟩) s

end Ops

/-! ## `withdraw` -/

section Withdraw

variable (κ : Keccak) (cfg : Config)

/-- A payout of a zero balance is skipped, and pays out nothing either way. -/
theorem ledgerSum_paid_payout {a b : Address} {k j : Fin 2} {x : ℕ} :
    ledgerSum (Entry.paid a k) (if 0 < x then [.payout b j x] else []) =
      if b = a ∧ j = k then x else 0 := by
  by_cases hx : 0 < x
  · simp [hx, ledgerSum, Entry.paid]
  · simp [hx, ledgerSum, Nat.eq_zero_of_not_pos hx]

/-- **What `withdraw` does to the ledger**: the ETH leg runs the re-entrant calls from the zeroed
balances and pays the ETH out; the MATIC leg zeroes the MATIC balance a second time and pays the
MATIC out. -/
theorem withdraw_ledger {ctx : Ctx} {re : List (Ctx × Op)} {e m : Bool} {s s' : State}
    {es : List Entry} (h : withdraw κ cfg ctx re e m s = .ok (s', es)) :
    let b := ctx.sender
    let x := s.pendingWithdrawals b 0
    let y := s.pendingWithdrawals b 1
    let s₀ := { s with pendingWithdrawals := Function.update s.pendingWithdrawals b ![0, 0] }
    let r := if 0 < x then runOps κ cfg re s₀ else (s₀, [])
    s'.pendingWithdrawals = (if 0 < y then
        Function.update r.1.pendingWithdrawals b (Function.update (r.1.pendingWithdrawals b) 1 0)
      else r.1.pendingWithdrawals) ∧
    es = r.2 ++ (if 0 < x then [.payout b 0 x] else []) ++
      (if 0 < y then [.payout b 1 y] else []) := by
  obtain ⟨r, hr, hm⟩ := withdraw_ok κ cfg h
  rw [withdrawEth_ok κ cfg hr] at hm
  have hm' := withdrawMatic_ok hm
  intro b x y s₀ r
  by_cases hx : 0 < x <;> by_cases hy : 0 < y <;> simp_all [r]

/-- The re-entrant calls of the ETH leg keep the books from the zeroed balances. -/
theorem withdraw_reentry_balanced (s : State) (b : Address) (x : ℕ) (re : List (Ctx × Op))
    (a : Address) (k : Fin 2) :
    let s₀ := { s with pendingWithdrawals := Function.update s.pendingWithdrawals b ![0, 0] }
    let r := if 0 < x then runOps κ cfg re s₀ else (s₀, [])
    Balanced a k s₀ r.1 r.2 ∧ paid a k r.2 = 0 := by
  intro s₀ r
  by_cases hx : 0 < x
  · simp only [r, if_pos hx]; exact runOps_balanced κ cfg re s₀ a k
  · simp only [r, if_neg hx]; exact ⟨.of_eq rfl, rfl⟩

/-- **`withdraw` in closed form**, for one address and asset: the sender is paid its whole
balance; afterwards the sender's balance is what the re-entrant calls credited it, except that the
MATIC balance is zero when there was MATIC to send, and any other balance is what it was plus what
was credited to it. -/
theorem withdraw_books {ctx : Ctx} {re : List (Ctx × Op)} {e m : Bool} {s s' : State}
    {es : List Entry} (h : withdraw κ cfg ctx re e m s = .ok (s', es)) (a : Address) (k : Fin 2) :
    paid a k es = (if a = ctx.sender then s.pendingWithdrawals a k else 0) ∧
    s'.pendingWithdrawals a k =
      (if a = ctx.sender ∧ k = 1 ∧ 0 < s.pendingWithdrawals a 1 then 0
        else (if a = ctx.sender then 0 else s.pendingWithdrawals a k) + credited a k es) := by
  obtain ⟨hpw, hes⟩ := withdraw_ledger κ cfg h
  obtain ⟨hb, hp⟩ :=
    withdraw_reentry_balanced κ cfg s ctx.sender (s.pendingWithdrawals ctx.sender 0) re a k
  generalize (if 0 < s.pendingWithdrawals ctx.sender 0 then runOps κ cfg re _ else (_, [])) = r
    at hpw hes hb hp
  have hcred : credited a k es = credited a k r.2 := by
    simp only [hes, credited, ledgerSum_append]
    split_ifs <;> simp [ledgerSum, Entry.credited]
  have hr : r.1.pendingWithdrawals a k =
      (if a = ctx.sender then 0 else s.pendingWithdrawals a k) + credited a k r.2 := by
    unfold Balanced at hb
    rw [hp, Nat.add_zero] at hb
    rw [hb]
    by_cases hab : a = ctx.sender
    · subst hab; fin_cases k <;> simp
    · simp [Function.update_noteq hab, hab]
  refine ⟨?_, ?_⟩
  · simp only [paid, ledgerSum_append] at hp
    simp only [hes, paid, ledgerSum_append, hp, ledgerSum_paid_payout, Nat.zero_add]
    by_cases hab : a = ctx.sender
    · subst hab; fin_cases k <;> simp
    · simp [hab, Ne.symm hab]
  · rw [hpw, hcred, ← hr]
    by_cases hab : a = ctx.sender
    · subst hab
      by_cases hy : 0 < s.pendingWithdrawals ctx.sender 1 <;> fin_cases k <;> simp [hy]
    · rw [if_neg (not_and_of_not_left _ hab)]
      split_ifs <;> simp [Function.update_noteq hab]

/-- **`withdraw` keeps the ETH books** of every address: a credit made during the ETH transfer
lands after the zeroing and stays. -/
theorem withdraw_balanced_eth {ctx : Ctx} {re : List (Ctx × Op)} {e m : Bool} {s s' : State}
    {es : List Entry} (h : withdraw κ cfg ctx re e m s = .ok (s', es)) (a : Address) :
    Balanced a 0 s s' es := by
  obtain ⟨hp, hpw⟩ := withdraw_books κ cfg h a 0
  unfold Balanced
  rw [hp, hpw]
  by_cases hab : a = ctx.sender <;> simp [hab, Nat.add_comm]

/-- **`withdraw` keeps the MATIC books** of every address but its sender, and of its sender
exactly when the sender had no MATIC to withdraw or nothing was credited to its MATIC balance
during the ETH transfer. -/
theorem withdraw_balanced_matic_iff {ctx : Ctx} {re : List (Ctx × Op)} {e m : Bool} {s s' : State}
    {es : List Entry} (h : withdraw κ cfg ctx re e m s = .ok (s', es)) (a : Address) :
    Balanced a 1 s s' es ↔
      (a = ctx.sender → 0 < s.pendingWithdrawals ctx.sender 1 → credited a 1 es = 0) := by
  obtain ⟨hp, hpw⟩ := withdraw_books κ cfg h a 1
  unfold Balanced
  rw [hp, hpw]
  by_cases hab : a = ctx.sender
  · subst hab
    by_cases hy : 0 < s.pendingWithdrawals ctx.sender 1 <;> simp [hy, Nat.add_comm]
  · simp [hab]

/-- The storage after the Shield contract (`3`) credits one wei and one MATIC unit to `9`. -/
def creditedNine : State :=
  { State.init 1 2 3 with
    pendingWithdrawals := Function.update (State.init 1 2 3).pendingWithdrawals 9 ![1, 1] }

/-- `9` withdraws from `creditedNine` while the Shield credits it five MATIC units. -/
theorem withdraw_balanced_matic_iff_creditedNine :
    ∃ s' es, withdraw ⟨fun _ => 0, fun _ _ => 0⟩ ⟨0, 0, 0⟩ ⟨9, 0, 0, 0⟩
        [(⟨3, 0, 0, 0⟩, .addPendingWithdrawal 9 0 5)] true true creditedNine = .ok (s', es) ∧
      (Balanced 9 1 creditedNine s' es ↔
        (9 = 9 → 0 < creditedNine.pendingWithdrawals 9 1 → credited 9 1 es = 0)) :=
  ⟨_, _, rfl, @withdraw_balanced_matic_iff ⟨fun _ => 0, fun _ _ => 0⟩ ⟨0, 0, 0⟩ ⟨9, 0, 0, 0⟩
    [(⟨3, 0, 0, 0⟩, .addPendingWithdrawal 9 0 5)] true true creditedNine _ _ rfl 9⟩

end Withdraw

/-! ## Runs -/

section Runs

variable (κ : Keccak) (cfg : Config)

/-- **Books over a run**: a relation between the storage before and after and the entries made,
that an empty run has and that composes, holds over a run when each of its calls has it. -/
theorem run_books {R : State → State → List Entry → Prop} (hnil : ∀ s, R s s [])
    (htrans : ∀ {s₁ s₂ s₃ es₁ es₂}, R s₁ s₂ es₁ → R s₂ s₃ es₂ → R s₁ s₃ (es₁ ++ es₂))
    (cs : List Call) (hcall : ∀ c ∈ cs, ∀ {s s' es}, c.apply κ cfg s = .ok (s', es) → R s s' es)
    (s : State) : R s (run κ cfg cs s).1 (run κ cfg cs s).2 := by
  induction cs generalizing s with
  | nil => exact hnil s
  | cons c cs ih =>
    have ih := ih fun c hc => hcall c (List.mem_cons_of_mem _ hc)
    cases h : c.apply κ cfg s with
    | error _ => simp only [run, h]; exact ih s
    | ok r =>
      obtain ⟨s', es⟩ := r
      simp only [run, h]
      exact htrans (hcall c (List.mem_cons_self _ _) h) (ih s')

/-- **Every run keeps the ETH books.** -/
theorem run_balanced_eth (cs : List Call) (s : State) (a : Address) :
    Balanced a 0 s (run κ cfg cs s).1 (run κ cfg cs s).2 :=
  run_books κ cfg (fun _ => .of_eq rfl) .trans cs (fun c _ _ _ _ h => by
    cases c with
    | op ctx o => exact Op.apply_balanced κ cfg h a 0
    | withdraw ctx re e m => exact withdraw_balanced_eth κ cfg h a) s

/-- **No ETH credit is lost or paid twice**: over every run from `initialize`, what was credited
to `pendingWithdrawals[a][0]` is what is left there plus what `withdraw` paid out to `a`. -/
theorem run_eth_ledger (proposersAddress challengesAddress shieldAddress : Address)
    (calls : List Call) (a : Address) :
    ∃ s es,
      run κ cfg calls (State.init proposersAddress challengesAddress shieldAddress) = (s, es) ∧
      credited a 0 es = s.pendingWithdrawals a 0 + paid a 0 es := by
  refine ⟨_, _, rfl, ?_⟩
  have h := run_balanced_eth κ cfg calls
    (State.init proposersAddress challengesAddress shieldAddress) a
  unfold Balanced at h
  simp only [State.init, Nat.zero_add] at h
  exact h.symm

/-- Address `9` is credited one wei and one MATIC unit by the Shield contract (`3`) and then
withdraws; during the ETH transfer the Shield credits it five more MATIC units. -/
def maticRace : List Call :=
  [.op ⟨3, 0, 0, 0⟩ (.addPendingWithdrawal 9 1 1),
    .withdraw ⟨9, 0, 0, 0⟩ [(⟨3, 0, 0, 0⟩, .addPendingWithdrawal 9 0 5)] true true]

/-- **A MATIC credit made during `withdraw`'s ETH transfer is lost.**  After `maticRace`, six
MATIC units were credited to `9` and one was paid out, but its MATIC balance is zero. -/
theorem withdraw_loses_reentrant_matic :
    ∃ s es, run κ cfg maticRace (State.init 1 2 3) = (s, es) ∧
      credited 9 1 es = 6 ∧ s.pendingWithdrawals 9 1 = 0 ∧ paid 9 1 es = 1 :=
  ⟨_, _, rfl, rfl, rfl, rfl⟩

end Runs

/-! ## Nothing is paid out that was not credited

`withdraw` can lose a MATIC credit, but it never pays out more than it takes from the sender's
balance.  Every call is `Backed` — its end balance plus what it paid out is at most its start
balance plus what it credited — and so is every run (`run_paid_le_credited`). -/

/-- The end balance of asset `k` of `a` plus what was paid out is at most the start balance plus
what was credited. -/
def Backed (a : Address) (k : Fin 2) (s s' : State) (es : List Entry) : Prop :=
  s'.pendingWithdrawals a k + paid a k es ≤ s.pendingWithdrawals a k + credited a k es

section Backed

variable (κ : Keccak) (cfg : Config) {a : Address} {k : Fin 2}

theorem Balanced.backed {s s' : State} {es : List Entry} (h : Balanced a k s s' es) :
    Backed a k s s' es :=
  h.le

theorem Backed.trans {s₁ s₂ s₃ : State} {es₁ es₂ : List Entry} (h₁ : Backed a k s₁ s₂ es₁)
    (h₂ : Backed a k s₂ s₃ es₂) : Backed a k s₁ s₃ (es₁ ++ es₂) := by
  unfold Backed at *
  simp only [credited, paid, ledgerSum_append] at *
  omega

/-- `withdraw` pays the sender no more than the balance it zeroes. -/
theorem withdraw_backed {ctx : Ctx} {re : List (Ctx × Op)} {e m : Bool} {s s' : State}
    {es : List Entry} (h : withdraw κ cfg ctx re e m s = .ok (s', es)) (a : Address) (k : Fin 2) :
    Backed a k s s' es := by
  obtain ⟨hp, hpw⟩ := withdraw_books κ cfg h a k
  unfold Backed
  rw [hp, hpw]
  split_ifs <;> omega

/-- **No run pays out more than was credited**: over every run from `initialize`, for every
address and both assets, what is left in `pendingWithdrawals[a][k]` plus what `withdraw` paid out
to `a` is at most what was credited there — a lost MATIC credit is lost, never paid twice. -/
theorem run_paid_le_credited (proposersAddress challengesAddress shieldAddress : Address)
    (calls : List Call) (a : Address) (k : Fin 2) :
    ∃ s es,
      run κ cfg calls (State.init proposersAddress challengesAddress shieldAddress) = (s, es) ∧
      s.pendingWithdrawals a k + paid a k es ≤ credited a k es := by
  refine ⟨_, _, rfl, ?_⟩
  have h := run_books κ cfg (R := Backed a k) (fun _ => (Balanced.of_eq rfl).backed) .trans calls
    (fun c _ _ _ _ h => by
      cases c with
      | op ctx o => exact (Op.apply_balanced κ cfg h a k).backed
      | withdraw ctx re e m => exact withdraw_backed κ cfg h a k)
    (State.init proposersAddress challengesAddress shieldAddress)
  simpa only [Backed, State.init, Nat.zero_add] using h

end Backed

/-! ## The MATIC books over runs

A MATIC credit is lost only when it is made to the sender during `withdraw`'s ETH transfer.  A
run in which no call made during an ETH transfer credits MATIC keeps the MATIC books of every
address (`run_balanced_matic`). -/

/-- Whether an operation credits MATIC: `addPendingWithdrawal` with a non-zero `amountMatic`. -/
def Op.creditsMatic : Op → Bool
  | .addPendingWithdrawal _ _ amountMatic => decide (0 < amountMatic)
  | _ => false

section Matic

variable (κ : Keccak) (cfg : Config)

/-- A call that credits no MATIC makes entries that credit no MATIC. -/
theorem Op.apply_credited_matic {ctx : Ctx} {o : Op} {s s' : State} {es : List Entry}
    (ho : o.creditsMatic = false) (h : o.apply κ cfg ctx s = .ok (s', es)) (a : Address) :
    credited a 1 es = 0 := by
  rcases Op.apply_ok κ cfg h with ⟨_, _, _, _, -, rfl, -⟩ | ⟨-, rfl, -⟩ | ⟨b, e, m, rfl, hb⟩ |
    ⟨c, p, n, -, hc⟩ | ⟨_, -, rfl, -⟩ | ⟨_, _, -, rfl, -⟩ | ⟨_, -, rfl, -⟩ | ⟨rfl, -⟩
  · rfl
  · rfl
  · have hm : m = 0 := by simpa [Op.creditsMatic] using ho
    rw [(addPendingWithdrawal_ok hb).2, hm]
    simp [credited, ledgerSum, Entry.credited]
  · rw [(rewardChallenger_ok cfg hc).2]
    simp [credited, ledgerSum, Entry.credited]
  all_goals rfl

theorem runOps_credited_matic {os : List (Ctx × Op)} (hos : ∀ x ∈ os, x.2.creditsMatic = false)
    (s : State) (a : Address) : credited a 1 (runOps κ cfg os s).2 = 0 :=
  runOps_books κ cfg (R := fun _ _ es => credited a 1 es = 0) (fun _ => rfl)
    (fun h₁ h₂ => by simp only [credited, ledgerSum_append] at h₁ h₂ ⊢; omega) os
    (fun x hx _ _ _ h => Op.apply_credited_matic κ cfg (hos x hx) h a) s

/-- `withdraw` keeps the MATIC books when its re-entrant calls credit no MATIC. -/
theorem withdraw_balanced_matic {ctx : Ctx} {re : List (Ctx × Op)} {e m : Bool} {s s' : State}
    {es : List Entry} (h : withdraw κ cfg ctx re e m s = .ok (s', es))
    (hre : ∀ x ∈ re, x.2.creditsMatic = false) (a : Address) : Balanced a 1 s s' es := by
  have hc : credited a 1 es = 0 := by
    have hre' := runOps_credited_matic κ cfg hre
      { s with pendingWithdrawals := Function.update s.pendingWithdrawals ctx.sender ![0, 0] } a
    simp only [credited] at hre'
    simp only [(withdraw_ledger κ cfg h).2, credited, ledgerSum_append]
    split_ifs <;> simp [ledgerSum, Entry.credited, hre']
  obtain ⟨hp, hpw⟩ := withdraw_books κ cfg h a 1
  unfold Balanced
  rw [hp, hpw, hc]
  by_cases hab : a = ctx.sender <;> simp [hab]

/-- **Runs whose re-entrant calls credit no MATIC keep the MATIC books**: when no call made during
`withdraw`'s ETH transfer is an `addPendingWithdrawal` with MATIC, every run keeps the MATIC books
of every address — the second zeroing of the MATIC balance erases nothing. -/
theorem run_balanced_matic (cs : List Call) (s : State) (a : Address)
    (hcs : ∀ ctx re e m, Call.withdraw ctx re e m ∈ cs → ∀ x ∈ re, x.2.creditsMatic = false) :
    Balanced a 1 s (run κ cfg cs s).1 (run κ cfg cs s).2 :=
  run_books κ cfg (fun _ => .of_eq rfl) .trans cs (fun c hc _ _ _ h => by
    cases c with
    | op ctx o => exact Op.apply_balanced κ cfg h a 1
    | withdraw ctx re e m => exact withdraw_balanced_matic κ cfg h (hcs _ _ _ _ hc) a) s

/-- Address `9` is credited one wei and one MATIC unit by the Shield contract (`3`) and then
withdraws; during the ETH transfer the Shield credits it five more wei. -/
def ethReentry : List Call :=
  [.op ⟨3, 0, 0, 0⟩ (.addPendingWithdrawal 9 1 1),
    .withdraw ⟨9, 0, 0, 0⟩ [(⟨3, 0, 0, 0⟩, .addPendingWithdrawal 9 5 0)] true true]

theorem run_balanced_matic_ethReentry :
    (∀ ctx re e m, Call.withdraw ctx re e m ∈ ethReentry → ∀ x ∈ re, x.2.creditsMatic = false) ∧
    Balanced 9 1 (State.init 1 2 3)
      (run ⟨fun _ => 0, fun _ _ => 0⟩ ⟨0, 0, 0⟩ ethReentry (State.init 1 2 3)).1
      (run ⟨fun _ => 0, fun _ _ => 0⟩ ⟨0, 0, 0⟩ ethReentry (State.init 1 2 3)).2 := by
  have hre : ∀ ctx re e m, Call.withdraw ctx re e m ∈ ethReentry →
      ∀ x ∈ re, x.2.creditsMatic = false := by
    simp [ethReentry, Op.creditsMatic]
  exact ⟨hre, run_balanced_matic ⟨fun _ => 0, fun _ _ => 0⟩ ⟨0, 0, 0⟩ ethReentry _ 9 hre⟩

end Matic

end Nightfall
