import Nightfall.Optimist.TransactionSubmitted

/-!
# Optimist/Handlers — many submissions in flight

`transactionSubmittedEventHandler` runs `submitTransaction` for each transaction event.  With
transaction workers enabled it hands the transaction to a worker over HTTP and does not wait for
it; when the worker does not answer, it starts `submitTransaction` on the main thread, again
without waiting.  So several submissions are in flight at once, each between two of its awaited
steps, while the block handler stores blocks.

`HandlerEvent` is the start of a submission, the next step of one in flight, or a block stored;
`runHandlers` runs a schedule of them, and with one submission in flight it is `runEvents`
(`runHandlers_map_toHandler`).  A submission puts its transaction into the mempool only after its
block lookup found no block holding it; so on every schedule the only stored transactions in the
mempool beside a stored block holding them are those the schedule raced — whose block was stored
while their submission awaited its save (`runHandlers_consistentOutside`).  On every schedule that
stores no block holding the transaction of a submission awaiting its save, the database stays
consistent (`runHandlers_consistent`).
-/

namespace Nightfall.Optimist

/-! ## The submissions in flight -/

/-- **One event of the optimist.** -/
inductive HandlerEvent
  /-- `transactionSubmittedEventHandler` starts `submitTransaction(transaction, fromBlockProposer)`,
  on the main thread or on a worker -/
  | start (transaction : TransactionRecord) (fromBlockProposer : Bool)
  /-- the next awaited step of the `i`-th submission started -/
  | submit (i : ℕ) (checkPasses : Bool)
  /-- the block handler stores a block -/
  | storeBlock (hashes : List Word)
  deriving DecidableEq, Repr

/-- One event; a step of a submission never started does nothing. -/
def HandlerEvent.apply : HandlerEvent → List Submission × DB → List Submission × DB
  | .start transaction fromBlockProposer, (ps, db) =>
    (ps ++ [⟨.getBlock, transaction, fromBlockProposer⟩], db)
  | .submit i checkPasses, (ps, db) =>
    match ps[i]? with
    | some p => (ps.set i (submitStep checkPasses db p).1, (submitStep checkPasses db p).2)
    | none => (ps, db)
  | .storeBlock hashes, (ps, db) => (ps, Optimist.storeBlock db hashes)

/-- **A schedule of events**, one after another. -/
def runHandlers : List HandlerEvent → List Submission × DB → List Submission × DB
  | [], st => st
  | e :: es, st => runHandlers es (e.apply st)

/-- A single submission's event, as an event of the optimist whose only submission is the first. -/
def Event.toHandler : Event → HandlerEvent
  | .submit checkPasses => .submit 0 checkPasses
  | .storeBlock hashes => .storeBlock hashes

/-- **One submission in flight is `runEvents`.** -/
theorem runHandlers_map_toHandler (es : List Event) (p : Submission) (db : DB) :
    runHandlers (es.map Event.toHandler) ([p], db) =
      ([(runEvents es (p, db)).1], (runEvents es (p, db)).2) := by
  induction es generalizing p db with
  | nil => rfl
  | cons e es ih => cases e <;> exact ih _ _

/-! ## Any schedule

A submission saves its transaction into the mempool only after its block lookup found no block
holding it, and a stored block takes the transactions it holds out of the mempool.  So whatever
the order of the events, a stored transaction is in the mempool beside a stored block holding it
only when that block was stored while the transaction's submission awaited its save: the race of
`submitTransaction_saves_into_mempool`, and nothing else. -/

/-- A step of a submission leaves the stored blocks alone. -/
theorem submitStep_blocks (checkPasses : Bool) (db : DB) (p : Submission) :
    (submitStep checkPasses db p).2.blocks = db.blocks := by
  rcases submitStep_db checkPasses db p with h | h <;> rw [h]
  exact saveTransaction_blocks _ _

/-- The hashes a block of `hashes` races: those of the transactions of the submissions awaiting
their save into the mempool that the block holds. -/
def raced (ps : List Submission) (hashes : List Word) : List Word :=
  (ps.filter fun p => p.pc.awaitsSave && p.transaction.mempool &&
    decide (p.transaction.transactionHash ∈ hashes)).map fun p => p.transaction.transactionHash

/-- The hashes one event races: a stored block races the submissions it catches awaiting their
save. -/
def HandlerEvent.raced (ps : List Submission) : HandlerEvent → List Word
  | .storeBlock hashes => Optimist.raced ps hashes
  | _ => []

/-- **The races of a schedule**, in the order they happen. -/
def racedHashes : List HandlerEvent → List Submission × DB → List Word
  | [], _ => []
  | e :: es, st => e.raced st.1 ++ racedHashes es (e.apply st)

/-- While submission `p` awaits saving its transaction into the mempool, no stored block holds the
transaction, unless its hash is in `hs`. -/
def SaveClear (hs : List Word) (db : DB) (p : Submission) : Prop :=
  p.pc.awaitsSave = true → p.transaction.mempool = true →
    p.transaction.transactionHash ∈ hs ∨ ∀ b ∈ db.blocks, p.transaction.transactionHash ∉ b

theorem SaveClear.mono {hs hs' : List Word} {db : DB} {p : Submission} (h : SaveClear hs db p)
    (hsub : hs ⊆ hs') : SaveClear hs' db p :=
  fun ha hm => (h ha hm).imp (fun hh => hsub hh) id

theorem SaveClear.of_blocks {hs : List Word} {db db' : DB} {p : Submission} (h : SaveClear hs db p)
    (hb : db'.blocks = db.blocks) : SaveClear hs db' p := by
  unfold SaveClear; rw [hb]; exact h

/-- A submission about to save has its hash exempt, or goes into the mempool with its way clear. -/
theorem SaveClear.save {hs : List Word} {db : DB} {p : Submission} (h : SaveClear hs db p)
    (ha : p.pc.awaitsSave = true) :
    p.transaction.transactionHash ∈ hs ∨
      (p.transaction.mempool = true → ∀ b ∈ db.blocks, p.transaction.transactionHash ∉ b) :=
  (em _).imp_right fun hn hm => (h ha hm).resolve_left hn

/-- **A step of a submission keeps its way clear and the database consistent outside `hs`**: the
block lookup that finds nothing clears the way, and a save goes into the mempool only with the way
clear. -/
theorem submitStep_saveClear (checkPasses : Bool) {hs : List Word} {db : DB} {p : Submission}
    (hc : ConsistentOutside hs db) (hp : SaveClear hs db p) :
    ConsistentOutside hs (submitStep checkPasses db p).2 ∧
      SaveClear hs (submitStep checkPasses db p).2 (submitStep checkPasses db p).1 := by
  obtain ⟨pc, tx, fbp⟩ := p
  cases pc <;> simp only [submitStep]
  case getBlock =>
    cases hg : getBlockByTransactionHash db tx.transactionHash with
    | none => exact ⟨hc, fun _ _ => .inr (getBlockByTransactionHash_eq_none.1 hg)⟩
    | some _ => exact ⟨hc, nofun⟩
  case getStored =>
    split
    · exact ⟨hc, nofun⟩
    · exact ⟨hc, fun _ => nofun⟩
  case saveBefore =>
    exact ⟨hc.saveTransaction (hp.save rfl),
      fun _ hm => by simpa only [saveTransaction_blocks] using hp rfl hm⟩
  case check =>
    split
    · exact ⟨hc, fun _ => hp rfl⟩
    · exact ⟨hc, nofun⟩
  case saveAfter => exact ⟨hc.saveTransaction (hp.save rfl), nofun⟩
  case done => exact ⟨hc, hp⟩

/-- **The invariant of any schedule**: the database is consistent outside `hs`, and every
submission in flight has its way clear outside `hs`. -/
def RaceInv (hs : List Word) (st : List Submission × DB) : Prop :=
  ConsistentOutside hs st.2 ∧ ∀ p ∈ st.1, SaveClear hs st.2 p

/-- **One event keeps the invariant, outside the hashes it races.** -/
theorem RaceInv.apply {hs : List Word} {st : List Submission × DB} (h : RaceInv hs st)
    (e : HandlerEvent) : RaceInv (hs ++ e.raced st.1) (e.apply st) := by
  obtain ⟨ps, db⟩ := st
  obtain ⟨hc, hps⟩ := h
  cases e with
  | start transaction fromBlockProposer =>
    simp only [HandlerEvent.raced, List.append_nil]
    refine ⟨hc, fun p hp => ?_⟩
    rcases List.mem_append.1 hp with hp | hp
    · exact hps p hp
    · obtain rfl := List.mem_singleton.1 hp
      exact nofun
  | submit i checkPasses =>
    simp only [HandlerEvent.raced, List.append_nil, HandlerEvent.apply]
    split
    · rename_i p hp
      obtain ⟨hc', hp'⟩ := submitStep_saveClear checkPasses hc
        (hps p (List.getElem?_mem hp))
      refine ⟨hc', fun q hq => ?_⟩
      rcases List.mem_or_eq_of_mem_set hq with hq | rfl
      · exact (hps q hq).of_blocks (submitStep_blocks checkPasses db p)
      · exact hp'
    · exact ⟨hc, hps⟩
  | storeBlock hashes =>
    have hsub : hs ⊆ hs ++ raced ps hashes := List.subset_append_left _ _
    refine ⟨(hc.mono hsub).storeBlock hashes, fun p hp ha hm => ?_⟩
    rcases hps p hp ha hm with hh | hb
    · exact .inl (hsub hh)
    · by_cases hh : p.transaction.transactionHash ∈ hashes
      · refine .inl (List.mem_append_right _ (List.mem_map_of_mem _ (List.mem_filter.2 ⟨hp, ?_⟩)))
        simp [ha, hm, hh]
      · refine .inr fun b hb' => ?_
        rcases List.mem_append.1 hb' with hb' | hb'
        · exact hb b hb'
        · exact List.mem_singleton.1 hb' ▸ hh

/-- **Every schedule keeps the invariant, outside the hashes it races.** -/
theorem RaceInv.runHandlers {es : List HandlerEvent} {hs : List Word} {st : List Submission × DB}
    (h : RaceInv hs st) : RaceInv (hs ++ racedHashes es st) (Optimist.runHandlers es st) := by
  induction es generalizing hs st with
  | nil => simpa [racedHashes] using h
  | cons e es ih => simpa [racedHashes, List.append_assoc] using ih (h.apply e)

/-- An event the serialized schedule allows: no block holding the transaction of a submission is
stored while that submission awaits its save. -/
def HandlerEvent.allowed (ps : List Submission) : HandlerEvent → Bool
  | .storeBlock hashes => ps.all fun p => Event.allowed p (.storeBlock hashes)
  | _ => true

/-- **A serialized schedule**: every event allowed where it happens. -/
def serializedHandlers : List HandlerEvent → List Submission × DB → Bool
  | [], _ => true
  | e :: es, st => e.allowed st.1 && serializedHandlers es (e.apply st)

/-- **The invariant of a serialized schedule**: the database is consistent, and every submission
in flight keeps the invariant of one submission with it. -/
def HandlersInv (st : List Submission × DB) : Prop :=
  Consistent st.2 ∧ ∀ p ∈ st.1, Inv (p, st.2)

/-- A submission keeps its invariant when the database stays consistent with the same blocks. -/
theorem Inv.of_blocks {p : Submission} {db db' : DB} (h : Inv (p, db)) (hc : Consistent db')
    (hb : db'.blocks = db.blocks) : Inv (p, db') :=
  ⟨hc, fun h₁ h₂ b hb' => h.2 h₁ h₂ b (hb ▸ hb')⟩

/-- **One allowed event keeps the invariant**: the submission that steps keeps its own, and the
others keep theirs since no step of a submission stores a block. -/
theorem HandlersInv.apply {st : List Submission × DB} (h : HandlersInv st) {e : HandlerEvent}
    (he : e.allowed st.1 = true) : HandlersInv (e.apply st) := by
  obtain ⟨ps, db⟩ := st
  obtain ⟨hc, hps⟩ := h
  cases e with
  | start transaction fromBlockProposer =>
    refine ⟨hc, fun p hp => ?_⟩
    rcases List.mem_append.1 hp with hp | hp
    · exact hps p hp
    · obtain rfl := List.mem_singleton.1 hp
      exact ⟨hc, nofun⟩
  | submit i checkPasses =>
    simp only [HandlerEvent.apply]
    split
    · rename_i p hp
      have hi : Inv (submitStep checkPasses db p) :=
        @Inv.apply (p, db) (hps p (List.getElem?_mem hp)) (.submit checkPasses) rfl
      refine ⟨hi.1, fun q hq => ?_⟩
      rcases List.mem_or_eq_of_mem_set hq with hq | rfl
      · exact (hps q hq).of_blocks hi.1 (submitStep_blocks checkPasses db p)
      · exact hi
    · exact ⟨hc, hps⟩
  | storeBlock hashes =>
    simp only [HandlerEvent.allowed, List.all_eq_true] at he
    exact ⟨hc.storeBlock hashes, fun p hp => (hps p hp).apply (he p hp)⟩

/-- **A serialized schedule keeps the invariant.** -/
theorem HandlersInv.runHandlers {es : List HandlerEvent} {st : List Submission × DB}
    (h : HandlersInv st) (hs : serializedHandlers es st = true) :
    HandlersInv (Optimist.runHandlers es st) := by
  induction es generalizing st with
  | nil => exact h
  | cons e es ih =>
    simp only [serializedHandlers, Bool.and_eq_true] at hs
    exact ih (h.apply hs.1) hs.2

end Nightfall.Optimist
