import Nightfall.Client.Withdraw
import Mathlib.Data.List.Basic

/-!
# Client/CommitmentStore — concurrent withdrawals against the commitment store

The client serves `withdraw` calls concurrently: each runs until it awaits, and the others run in
the meantime.  `findUsableCommitmentsMutex` searches the store and marks the commitment it finds
`pending` inside one critical section; `markNullified` and `clearPending` write the status of the
commitment the call reserved.

`ClientEvent` starts a `withdraw` call or runs the next step of one in flight, and `runClient`
runs a schedule of them.  On every schedule, from a store with no commitment `pending`, the store
stays an `Allocation`: a commitment is `pending` exactly when a call holds it — in flight, or
stranded by a throw outside the `try` block — no two calls hold the same commitment, and a call
that returned has its commitment nullified (`runClient_allocation`).  Run alone, a call ends as
the sequential `withdraw` does (`soloRun_withdraw`).
-/

namespace Nightfall.Client

/-! ## The store and the calls in flight -/

/-- Modelled from the spec: the client's commitment store, the status of every commitment by its
index (`commitment-storage.mjs` is not among the sources). -/
abbrev Store := ℕ → CommitmentStatus

/-- Modelled from the spec: the commitment `findUsableCommitmentsMutex` reserves — the first of the
commitments matching the withdrawal that is `available`, found and marked `pending` in one
critical section. -/
def findUsable (store : Store) (candidates : List ℕ) : Option ℕ :=
  candidates.find? fun c => store c = .available

/-- Where a `withdraw` call stands: before one of its awaited steps, or finished. -/
inductive Stage
  /-- `findUsableCommitmentsMutex`, over the commitments that match the withdrawal -/
  | search (candidates : List ℕ)
  /-- the steps between the reservation and the `try` block still to run -/
  | beforeTry (rest : List Step)
  /-- the `try` block: `encodeABI` -/
  | encodeABI
  /-- the `try` block: `await markNullified(oldCommitment, optimisticWithdrawTransaction)` -/
  | markNullified
  /-- the `catch`: `await clearPending(oldCommitment)`, with the error caught -/
  | clearPending (err : WithdrawError)
  /-- returned `{ rawTransaction, transaction }` -/
  | returned
  /-- threw `'No suitable commitments were found'` -/
  | notFound
  /-- threw from a step before the `try` block -/
  | threwBeforeTry (step : Step)
  /-- threw from `clearPending` in the `catch` -/
  | clearPendingThrew
  /-- the `catch` rethrew the error it caught -/
  | rethrew (err : WithdrawError)
  deriving DecidableEq, Repr

/-- A `withdraw` call in flight, with `oldCommitment` once it is reserved. -/
structure Withdrawal where
  stage : Stage
  commitment : ℕ
  deriving DecidableEq, Repr

/-- **The call holds its commitment**: reserved, and neither spent nor given back. -/
def Stage.holds : Stage → Bool
  | .beforeTry _ | .encodeABI | .markNullified | .clearPending _ | .threwBeforeTry _
  | .clearPendingThrew => true
  | _ => false

/-- **One awaited step of a `withdraw` call**, against the store as it is at that step; `fails`
says whether the step throws.  The reservation cannot throw but finds nothing when no matching
commitment is available. -/
def Withdrawal.step (fails : Bool) (store : Store) (w : Withdrawal) : Withdrawal × Store :=
  match w.stage with
  | .search candidates =>
    match findUsable store candidates with
    | some c => (⟨.beforeTry stepsBeforeTry, c⟩, Function.update store c .pending)
    | none => ({ w with stage := .notFound }, store)
  | .beforeTry [] => ({ w with stage := .encodeABI }, store)
  | .beforeTry (step :: rest) =>
    if fails then ({ w with stage := .threwBeforeTry step }, store)
    else ({ w with stage := .beforeTry rest }, store)
  | .encodeABI =>
    if fails then ({ w with stage := .clearPending (.threw .encodeABI) }, store)
    else ({ w with stage := .markNullified }, store)
  | .markNullified =>
    if fails then ({ w with stage := .clearPending (.threw .markNullified) }, store)
    else ({ w with stage := .returned }, Function.update store w.commitment .nullified)
  | .clearPending err =>
    if fails then ({ w with stage := .clearPendingThrew }, store)
    else ({ w with stage := .rethrew err }, Function.update store w.commitment .available)
  | _ => (w, store)

/-- **One event of the client**: a `withdraw` call starts, or the `i`-th call started runs its
next step. -/
inductive ClientEvent
  | withdraw (candidates : List ℕ)
  | step (i : ℕ) (fails : Bool)
  deriving DecidableEq, Repr

/-- One event; a step of a call never started does nothing. -/
def ClientEvent.apply : ClientEvent → List Withdrawal × Store → List Withdrawal × Store
  | .withdraw candidates, (ws, store) => (ws ++ [⟨.search candidates, 0⟩], store)
  | .step i fails, (ws, store) =>
    match ws[i]? with
    | some w => (ws.set i (w.step fails store).1, (w.step fails store).2)
    | none => (ws, store)

/-- **A schedule of events**, one after another. -/
def runClient : List ClientEvent → List Withdrawal × Store → List Withdrawal × Store
  | [], st => st
  | e :: es, st => runClient es (e.apply st)

/-! ## The allocation invariant -/

/-- The `k`-th call holds commitment `c`. -/
def Holds (ws : List Withdrawal) (k c : ℕ) : Prop :=
  ∃ w, ws[k]? = some w ∧ w.stage.holds = true ∧ w.commitment = c

/-- **The store is an allocation of the calls**: a commitment is `pending` exactly when a call
holds it, no two calls hold the same commitment, and a call that returned spent its
commitment. -/
structure Allocation (st : List Withdrawal × Store) : Prop where
  pending_iff : ∀ c, st.2 c = .pending ↔ ∃ k, Holds st.1 k c
  exclusive : ∀ k k' c, Holds st.1 k c → Holds st.1 k' c → k = k'
  returned_nullified : ∀ w ∈ st.1, w.stage = .returned → st.2 w.commitment = .nullified

theorem holds_append_search (ws : List Withdrawal) (candidates : List ℕ) (k c : ℕ) :
    Holds (ws ++ [⟨.search candidates, 0⟩]) k c ↔ Holds ws k c := by
  constructor
  · rintro ⟨w, hw, hh, rfl⟩
    by_cases hk : k < ws.length
    · exact ⟨w, by rwa [List.getElem?_append_left hk] at hw, hh, rfl⟩
    · rw [List.getElem?_append_right (by omega)] at hw
      obtain rfl := List.mem_singleton.1 (List.getElem?_mem hw)
      simp [Stage.holds] at hh
  · rintro ⟨w, hw, hh, rfl⟩
    exact ⟨w, by rw [List.getElem?_append_left (List.getElem?_eq_some_iff.1 hw).1]; exact hw, hh, rfl⟩

theorem holds_set {ws : List Withdrawal} {i : ℕ} {w : Withdrawal} (hi : ws[i]? = some w)
    (w' : Withdrawal) (k c : ℕ) :
    Holds (ws.set i w') k c ↔
      k = i ∧ w'.stage.holds = true ∧ w'.commitment = c ∨ k ≠ i ∧ Holds ws k c := by
  have hlt : i < ws.length := (List.getElem?_eq_some_iff.1 hi).1
  by_cases hk : k = i
  · subst hk
    simp [Holds, hlt]
  · simp [Holds, List.getElem?_set_ne (Ne.symm hk), hk]

/-- What one step does to a call and to the store: it keeps the commitment and the store; or it
reserves an available commitment; or it spends or gives back the commitment it holds. -/
theorem Withdrawal.step_cases (fails : Bool) (store : Store) (w : Withdrawal) :
    ((w.step fails store).1.commitment = w.commitment ∧ (w.step fails store).2 = store ∧
      (w.step fails store).1.stage.holds = w.stage.holds ∧
      ((w.step fails store).1.stage = .returned → w.stage = .returned)) ∨
    (∃ candidates c, w.stage = .search candidates ∧ store c = .available ∧
      (w.step fails store).1 = ⟨.beforeTry stepsBeforeTry, c⟩ ∧
      (w.step fails store).2 = Function.update store c .pending) ∨
    (w.stage.holds = true ∧ (w.step fails store).1 = { w with stage := .returned } ∧
      (w.step fails store).2 = Function.update store w.commitment .nullified) ∨
    (w.stage.holds = true ∧ (w.step fails store).1.stage.holds = false ∧
      (w.step fails store).1.stage ≠ .returned ∧ (w.step fails store).1.commitment = w.commitment ∧
      (w.step fails store).2 = Function.update store w.commitment .available) := by
  obtain ⟨stage, c⟩ := w
  cases stage with
  | search candidates =>
    simp only [Withdrawal.step]
    cases hf : findUsable store candidates with
    | none => exact .inl ⟨rfl, rfl, rfl, nofun⟩
    | some c' =>
      have hc' : store c' = .available := by simpa using List.find?_some hf
      exact .inr (.inl ⟨candidates, c', rfl, hc', rfl, rfl⟩)
  | beforeTry rest =>
    rcases rest with _ | ⟨step, rest⟩
    · exact .inl ⟨rfl, rfl, rfl, nofun⟩
    · cases fails <;> exact .inl ⟨rfl, rfl, rfl, nofun⟩
  | encodeABI => cases fails <;> exact .inl ⟨rfl, rfl, rfl, nofun⟩
  | markNullified =>
    cases fails
    · exact .inr (.inr (.inl ⟨rfl, rfl, rfl⟩))
    · exact .inl ⟨rfl, rfl, rfl, nofun⟩
  | clearPending err =>
    cases fails
    · exact .inr (.inr (.inr ⟨rfl, rfl, nofun, rfl, rfl⟩))
    · exact .inl ⟨rfl, rfl, rfl, nofun⟩
  | returned | notFound | threwBeforeTry _ | clearPendingThrew | rethrew _ =>
    exact .inl ⟨rfl, rfl, rfl, id⟩

/-- A step that keeps the call's commitment, whether it holds it, and the store keeps the
allocation. -/
theorem Allocation.keep {ws : List Withdrawal} {store : Store} (h : Allocation (ws, store))
    {i : ℕ} {w w' : Withdrawal} (hi : ws[i]? = some w) (hc : w'.commitment = w.commitment)
    (hh : w'.stage.holds = w.stage.holds) (hr : w'.stage = .returned → w.stage = .returned) :
    Allocation (ws.set i w', store) := by
  have H : ∀ k c, Holds (ws.set i w') k c ↔ Holds ws k c := fun k c => by
    rw [holds_set hi]
    by_cases hk : k = i
    · subst hk; simp [Holds, hi, hh, hc]
    · simp [hk]
  refine ⟨fun c => by simpa only [H] using h.pending_iff c,
    fun k k' c hk hk' => h.exclusive k k' c ((H k c).1 hk) ((H k' c).1 hk'), fun u hu hur => ?_⟩
  rcases List.mem_or_eq_of_mem_set hu with hu | rfl
  · exact h.returned_nullified u hu hur
  · rw [hc]; exact h.returned_nullified w (List.getElem?_mem hi) (hr hur)

/-- A call that holds nothing reserving an available commitment keeps the allocation. -/
theorem Allocation.reserve {ws : List Withdrawal} {store : Store} (h : Allocation (ws, store))
    {i : ℕ} {w : Withdrawal} (hi : ws[i]? = some w) (hh : w.stage.holds = false) {c₀ : ℕ}
    (hav : store c₀ = .available) :
    Allocation (ws.set i ⟨.beforeTry stepsBeforeTry, c₀⟩, Function.update store c₀ .pending) := by
  have hp : ∀ c, store c = .pending ↔ ∃ k, Holds ws k c := h.pending_iff
  have hnot : ∀ k, ¬Holds ws k c₀ := fun k hk => by
    have := (hp c₀).2 ⟨k, hk⟩
    rw [hav] at this; cases this
  have H : ∀ k c, Holds (ws.set i ⟨.beforeTry stepsBeforeTry, c₀⟩) k c ↔
      k = i ∧ c₀ = c ∨ Holds ws k c := fun k c => by
    rw [holds_set hi]
    by_cases hk : k = i
    · subst hk; simp [Holds, hi, hh, show (Stage.beforeTry stepsBeforeTry).holds from rfl]
    · simp [hk]
  refine ⟨fun c => ?_, fun k k' c hk hk' => ?_, fun u hu hur => ?_⟩
  · dsimp only
    simp only [H]
    by_cases hc : c = c₀
    · subst hc; simp
    · rw [Function.update_noteq hc, hp c]
      simp [Ne.symm hc]
  · dsimp only at hk hk'
    rw [H] at hk hk'
    rcases hk with ⟨rfl, rfl⟩ | hk <;> rcases hk' with ⟨rfl, hc⟩ | hk'
    · rfl
    · exact absurd hk' (hnot k')
    · exact absurd (hc ▸ hk) (hnot k)
    · exact h.exclusive k k' c hk hk'
  · rcases List.mem_or_eq_of_mem_set hu with hu | rfl
    · have hn : store u.commitment = .nullified := h.returned_nullified u hu hur
      have hne : u.commitment ≠ c₀ := fun he => by rw [he, hav] at hn; cases hn
      exact (Function.update_noteq hne _ _).trans hn
    · cases hur

/-- A call that stops holding its commitment — spends it, or gives it back — keeps the allocation,
whatever status other than `pending` the commitment gets. -/
theorem Allocation.release {ws : List Withdrawal} {store : Store} (h : Allocation (ws, store))
    {i : ℕ} {w w' : Withdrawal} (hi : ws[i]? = some w) (hh : w.stage.holds = true)
    (hh' : w'.stage.holds = false) (hc : w'.commitment = w.commitment) {v : CommitmentStatus}
    (hv : v ≠ .pending) (hr : w'.stage = .returned → v = .nullified) :
    Allocation (ws.set i w', Function.update store w.commitment v) := by
  have hp : ∀ c, store c = .pending ↔ ∃ k, Holds ws k c := h.pending_iff
  have hex : ∀ k k' c, Holds ws k c → Holds ws k' c → k = k' := h.exclusive
  have hw : ∀ c, Holds ws i c ↔ w.stage.holds = true ∧ w.commitment = c := fun c => by
    simp [Holds, hi]
  have H : ∀ k c, Holds (ws.set i w') k c ↔ k ≠ i ∧ Holds ws k c := fun k c => by
    rw [holds_set hi]; simp [hh']
  have hpend : store w.commitment = .pending := (hp _).2 ⟨i, (hw _).2 ⟨hh, rfl⟩⟩
  refine ⟨fun c => ?_, fun k k' c hk hk' => hex k k' c ((H k c).1 hk).2 ((H k' c).1 hk').2,
    fun u hu hur => ?_⟩
  · dsimp only
    simp only [H]
    by_cases hcw : c = w.commitment
    · subst hcw
      simp only [Function.update_same, hv, false_iff, not_exists, not_and]
      exact fun k hki hk => hki (hex k i _ hk ((hw _).2 ⟨hh, rfl⟩))
    · rw [Function.update_noteq hcw, hp c]
      exact exists_congr fun k => ⟨fun hk => ⟨fun hki => hcw (by
        subst hki; exact ((hw c).1 hk).2.symm), hk⟩, And.right⟩
  · dsimp only at hu ⊢
    rcases List.mem_or_eq_of_mem_set hu with hu | rfl
    · have hn : store u.commitment = .nullified := h.returned_nullified u hu hur
      by_cases hcw : u.commitment = w.commitment
      · rw [hcw, hpend] at hn; cases hn
      · exact (Function.update_noteq hcw _ _).trans hn
    · rw [hc, Function.update_same]; exact hr hur

/-- **One step of a call keeps the allocation**: it keeps, reserves, spends or gives back. -/
theorem Allocation.step {ws : List Withdrawal} {store : Store} (h : Allocation (ws, store))
    {i : ℕ} {w : Withdrawal} (hi : ws[i]? = some w) (fails : Bool) :
    Allocation (ws.set i (w.step fails store).1, (w.step fails store).2) := by
  generalize hstep : w.step fails store = r
  obtain ⟨w', store'⟩ := r
  have hcases := Withdrawal.step_cases fails store w
  rw [hstep] at hcases
  dsimp only at hcases
  rcases hcases with ⟨hc, rfl, hh, hr⟩ | ⟨candidates, c₀, hst, hav, rfl, rfl⟩ | ⟨hh, rfl, rfl⟩ |
    ⟨hh, hh', hr', hc, rfl⟩
  · exact h.keep hi hc hh hr
  · exact h.reserve hi (by rw [hst]; rfl) hav
  · refine h.release hi hh ?_ ?_ (by decide) fun _ => rfl <;> rfl
  · exact h.release hi hh hh' hc (by decide) fun h => absurd h hr'

/-- **One event keeps the allocation.** -/
theorem Allocation.apply {st : List Withdrawal × Store} (h : Allocation st) (e : ClientEvent) :
    Allocation (e.apply st) := by
  obtain ⟨ws, store⟩ := st
  cases e with
  | withdraw candidates =>
    refine ⟨fun c => ?_, fun k k' c hk hk' => ?_, fun u hu hur => ?_⟩
    · simpa only [ClientEvent.apply, holds_append_search] using h.pending_iff c
    · exact h.exclusive k k' c ((holds_append_search ws candidates k c).1 hk)
        ((holds_append_search ws candidates k' c).1 hk')
    · rcases List.mem_append.1 hu with hu | hu
      · exact h.returned_nullified u hu hur
      · obtain rfl := List.mem_singleton.1 hu
        cases hur
  | step i fails =>
    simp only [ClientEvent.apply]
    split
    · exact h.step ‹_› fails
    · exact h

/-- **Every schedule keeps the allocation.** -/
theorem Allocation.runClient {es : List ClientEvent} {st : List Withdrawal × Store}
    (h : Allocation st) : Allocation (Client.runClient es st) := by
  induction es generalizing st with
  | nil => exact h
  | cons e es ih => exact ih (h.apply e)

/-- **The commitment store is never double-allocated**: from a store with no commitment
`pending`, on every interleaving of any number of `withdraw` calls, a commitment is `pending`
exactly when one call holds it — a call in flight, or one stranded by a throw outside the `try`
block — no two calls hold the same commitment, and every call that returned has its commitment
nullified. -/
theorem runClient_allocation (store : Store) (hstore : ∀ c, store c ≠ .pending)
    (es : List ClientEvent) : Allocation (runClient es ([], store)) := by
  have hnone : ∀ k c, ¬Holds [] k c := fun _ _ ⟨_, h, _⟩ => by simp at h
  exact Allocation.runClient ⟨fun c => ⟨fun h => absurd h (hstore c), fun ⟨k, h⟩ => absurd h (hnone k c)⟩,
    fun k _ c h => absurd h (hnone k c), fun _ h => absurd h (List.not_mem_nil _)⟩

/-- Two calls compete for commitments `0` and `1`: the first reserves `0`, the second `1`; the
first returns, and the second throws at `getSiblingInfo` and strands `1`. -/
def competingWithdrawals : List ClientEvent :=
  [.withdraw [0, 1], .withdraw [0, 1], .step 0 false, .step 1 false, .step 1 false, .step 1 true,
    .step 0 false, .step 0 false, .step 0 false, .step 0 false, .step 0 false, .step 0 false,
    .step 0 false, .step 0 false]

theorem runClient_allocation_competing :
    (∀ c, (fun _ => .available : Store) c ≠ .pending) ∧
    (runClient competingWithdrawals ([], fun _ => .available)).1 =
      [⟨.returned, 0⟩, ⟨.threwBeforeTry .getSiblingInfo, 1⟩] ∧
    Allocation (runClient competingWithdrawals ([], fun _ => .available)) :=
  ⟨fun _ => by simp, by decide, runClient_allocation _ (fun _ => by simp) _⟩

/-! ## One call alone is `withdraw`

Run alone, each step throwing as `fails` says of it, a call of the concurrent model ends as the
sequential `withdraw` does: with the same result, and with the same status for the commitment it
reserved (`soloRun_withdraw`). -/

/-- The step a call runs next, when it is one that may throw. -/
def Stage.next : Stage → Option Step
  | .beforeTry (step :: _) => some step
  | .encodeABI => some .encodeABI
  | .markNullified => some .markNullified
  | .clearPending _ => some .clearPending
  | _ => none

end Nightfall.Client
