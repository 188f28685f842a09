import Mathlib.Logic.Basic

/-!
# Client/Withdraw — the commitment a withdrawal reserves, on every exit path

`withdraw` reserves an input commitment — `findUsableCommitmentsMutex` marks it `pending` — and
then computes the nullifier, the sibling path, the public inputs and the witness input, the Shield
contract instance and the transaction, before a `try` block that ABI-encodes the transaction and
marks the commitment nullified; its `catch` releases the commitment with `clearPending`.  Each of
those steps may throw.

Only a throw inside the `try` block reaches `clearPending`: a throw before it leaves the commitment
`pending` (`withdraw_strands_pending`).  `Client/CommitmentStore` runs many such calls against one
store and shows that one call run alone ends as `withdraw` does.
-/

namespace Nightfall.Client

/-- Modelled from the spec: the states of a commitment in the client's store
(`commitment-storage.mjs` is not among the sources). -/
inductive CommitmentStatus
  | available
  | pending
  | nullified
  deriving DecidableEq, Repr

/-- The steps of `withdraw` after the reservation that may throw, in the order of the source. -/
inductive Step
  /-- `new Nullifier(oldCommitment, nsk)` -/
  | nullifier
  /-- `await getSiblingInfo(oldCommitment)` -/
  | getSiblingInfo
  /-- `generalise`, `new PublicInputs(...)` and the `limbs` and `field` conversions of the witness
  input -/
  | publicInputs
  /-- `await getContractInstance(SHIELD_CONTRACT_NAME)` -/
  | getContractInstance
  /-- `new Transaction({...})` -/
  | transaction
  /-- `shieldContractInstance.methods.submitTransaction(...).encodeABI()` -/
  | encodeABI
  /-- `await markNullified(oldCommitment, optimisticWithdrawTransaction)` -/
  | markNullified
  /-- `await clearPending(oldCommitment)` -/
  | clearPending
  deriving DecidableEq, Repr

/-- The steps between the reservation and the `try` block. -/
def stepsBeforeTry : List Step :=
  [.nullifier, .getSiblingInfo, .publicInputs, .getContractInstance, .transaction]

/-- What `withdraw` throws. -/
inductive WithdrawError
  /-- `'No suitable commitments were found'` -/
  | noSuitableCommitments
  /-- the error of a step; the `catch` rethrows it as `new Error(err)` -/
  | threw (step : Step)
  deriving DecidableEq, Repr

/-- `withdraw` runs against the status of the commitment it reserves; a throw keeps the status it
finds. -/
abbrev WithdrawM := ExceptT WithdrawError (StateM CommitmentStatus)

/-! ## The program -/

section Program

variable (fails : Step → Bool)

/-- A step that throws exactly when `fails` says it does. -/
def attempt (step : Step) : WithdrawM Unit :=
  if fails step then throw (.threw step) else pure ()

/-- Modelled from the spec: `findUsableCommitmentsMutex` and the check after it — a commitment
found is reserved, marked `pending`; none found throws. -/
def findUsableCommitmentsMutex (found : Bool) : WithdrawM Unit :=
  if found then set CommitmentStatus.pending else throw .noSuitableCommitments

/-- Modelled from the spec: `markNullified` marks the commitment `nullified`, or throws. -/
def markNullified : WithdrawM Unit := do
  attempt fails .markNullified
  set CommitmentStatus.nullified

/-- Modelled from the spec: `clearPending` returns the commitment to `available`, or throws. -/
def clearPending : WithdrawM Unit := do
  attempt fails .clearPending
  set CommitmentStatus.available

/-- **`withdraw(withdrawParams)`**, from the commitment search on; `found` says whether a usable
commitment was found, and `fails` which steps throw. -/
def withdraw (found : Bool) : WithdrawM Unit := do
  findUsableCommitmentsMutex found
  attempt fails .nullifier
  attempt fails .getSiblingInfo
  attempt fails .publicInputs
  attempt fails .getContractInstance
  attempt fails .transaction
  tryCatch
    (do
      attempt fails .encodeABI
      markNullified fails)
    fun err => do
      clearPending fails
      throw err

end Program

/-! ## Runs

`withdraw` is the reservation, then the steps before the `try` block one after another
(`attemptAll`), then the `try` block with its `catch` (`settle`).  A chain of steps stops at its
first failing step with the status it found (`attemptAll_run`). -/

section Run

variable {α : Type} (fails : Step → Bool)

/-- The `try` block of `withdraw` and its `catch`. -/
def settle : WithdrawM Unit :=
  tryCatch
    (do
      attempt fails .encodeABI
      markNullified fails)
    fun err => do
      clearPending fails
      throw err

/-- The steps `steps`, one after another, then `k`. -/
def attemptAll (steps : List Step) (k : WithdrawM α) : WithdrawM α :=
  steps.foldr (fun step k => do attempt fails step; k) k

theorem withdraw_eq :
    withdraw fails true =
      (do findUsableCommitmentsMutex true; attemptAll fails stepsBeforeTry (settle fails)) := rfl

theorem attempt_bind (step : Step) (k : Unit → WithdrawM α) (st : CommitmentStatus) :
    (attempt fails step >>= k).run.run st =
      if fails step = true then (.error (.threw step), st) else (k ()).run.run st := by
  unfold attempt; cases fails step <;> rfl

theorem findUsableCommitmentsMutex_bind (k : Unit → WithdrawM α) (st : CommitmentStatus) :
    (findUsableCommitmentsMutex true >>= k).run.run st = (k ()).run.run .pending := rfl

/-- A chain of steps throws the error of its first failing step, leaving the status as it was;
with no failing step it runs `k`. -/
theorem attemptAll_run (steps : List Step) (k : WithdrawM α) (st : CommitmentStatus) :
    (attemptAll fails steps k).run.run st =
      match steps.find? fails with
      | some step => (.error (.threw step), st)
      | none => k.run.run st := by
  induction steps with
  | nil => rfl
  | cons step steps ih =>
    simp only [attemptAll, List.foldr_cons] at ih ⊢
    rw [attempt_bind, List.find?_cons]
    cases fails step
    · exact ih
    · rfl

/-- **A throw before the `try` block strands the commitment**: when any step between the
reservation and the `try` throws, `withdraw` throws with the commitment still `pending` — as when
`getSiblingInfo` throws. -/
theorem withdraw_strands_pending :
    (∀ (fails : Step → Bool) st, (∃ s ∈ stepsBeforeTry, fails s = true) →
      ((withdraw fails true).run.run st).2 = .pending ∧
        ∃ e, ((withdraw fails true).run.run st).1 = .error e) ∧
    (withdraw (· = .getSiblingInfo) true).run.run .available =
      (.error (.threw .getSiblingInfo), .pending) := by
  refine ⟨fun fails st h => ?_, rfl⟩
  obtain ⟨step, hfind⟩ : ∃ step, stepsBeforeTry.find? fails = some step := by
    rw [← Option.isSome_iff_exists, List.find?_isSome]
    exact h
  rw [withdraw_eq, findUsableCommitmentsMutex_bind, attemptAll_run, hfind]
  exact ⟨rfl, _, rfl⟩

end Run

end Nightfall.Client
