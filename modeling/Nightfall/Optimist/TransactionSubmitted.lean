import Nightfall.State.Storage
import Mathlib.Data.List.Basic

/-!
# Optimist/TransactionSubmitted — admitting a transaction while blocks arrive

`submitTransaction` admits a transaction in awaited steps: `checkAlreadyInBlock` looks the hash up
among the stored blocks and, when a block holds it, among the stored transactions; then
`checkTransaction`; and `saveTransaction` before the check (for a transaction from the block
proposer) or after it.  Between any two steps the optimist may store a block and take its
transactions out of the mempool, since blocks are handled apart from transaction submissions.

`Event` is one step of the submission or one block stored by another handler, and `runEvents`
runs a schedule of them.  The database stays `Consistent` — a stored transaction that a stored
block holds is out of the mempool — on every schedule that stores no block holding the
transaction between the submission's block lookup and its save (`runEvents_consistent`).  On the
schedule that does, the submission saves the transaction into the mempool although a stored block
holds it (`submitTransaction_saves_into_mempool`).  A replay, on the other hand, is rejected on
every schedule, and writes nothing (`runEvents_replay`).
-/

namespace Nightfall.Optimist

/-! ## The database -/

/-- Modelled from the spec: a stored transaction, as `database.mjs` (not among the sources) keeps
it — its hash, its `blockNumber` (`none` when it has none; an L1 block number, or `'offchain'`,
is never falsy, so `storedTransaction?.blockNumber` tests `isSome`) and whether it is in the
mempool. -/
structure TransactionRecord where
  transactionHash : Word
  blockNumber : Option ℕ
  mempool : Bool
  deriving DecidableEq, Repr

/-- Modelled from the spec: the optimist's database — the transaction hashes of each stored block,
and the stored transactions. -/
structure DB where
  blocks : List (List Word)
  transactions : List TransactionRecord
  deriving DecidableEq, Repr

/-- Modelled from the spec: `getBlockByTransactionHash(h)`, a stored block holding `h`. -/
def getBlockByTransactionHash (db : DB) (h : Word) : Option (List Word) :=
  db.blocks.find? fun b => decide (h ∈ b)

/-- Modelled from the spec: `getTransactionByTransactionHash(h)`, the stored transaction with
hash `h`. -/
def getTransactionByTransactionHash (db : DB) (h : Word) : Option TransactionRecord :=
  db.transactions.find? fun r => decide (r.transactionHash = h)

/-- Modelled from the spec: `saveTransaction(tx)` stores `tx`; storing a hash already stored is a
no-op. -/
def saveTransaction (db : DB) (tx : TransactionRecord) : DB :=
  if (getTransactionByTransactionHash db tx.transactionHash).isSome then db
  else { db with transactions := db.transactions ++ [tx] }

/-- Modelled from the spec: what the block handler does with a proposed block — store it, and take
its transactions out of the mempool. -/
def storeBlock (db : DB) (hashes : List Word) : DB where
  blocks := db.blocks ++ [hashes]
  transactions := db.transactions.map fun r =>
    if r.transactionHash ∈ hashes then { r with mempool := false } else r

/-- **The database is consistent** when every stored transaction that a stored block holds is out
of the mempool. -/
def Consistent (db : DB) : Prop :=
  ∀ r ∈ db.transactions, (∃ b ∈ db.blocks, r.transactionHash ∈ b) → r.mempool = false

instance (db : DB) : Decidable (Consistent db) := inferInstanceAs (Decidable (∀ _ ∈ _, _))

/-! ## `submitTransaction`, step by step -/

/-- Where `submitTransaction` stands: before one of its awaited steps, or finished. -/
inductive Pc
  /-- `checkAlreadyInBlock`: `await getBlockByTransactionHash(transactionHash)` -/
  | getBlock
  /-- `checkAlreadyInBlock`: `await getTransactionByTransactionHash(transactionHash)` -/
  | getStored
  /-- `if (fromBlockProposer) await saveTransaction({ ...transaction })` -/
  | saveBefore
  /-- `await checkTransaction(transaction, true)` -/
  | check
  /-- `if (!fromBlockProposer) await saveTransaction({ ...transaction })` -/
  | saveAfter
  /-- returned, or a `TransactionError` caught -/
  | done
  deriving DecidableEq, Repr

/-- A `submitTransaction(transaction, fromBlockProposer)` in progress. -/
structure Submission where
  pc : Pc
  transaction : TransactionRecord
  fromBlockProposer : Bool
  deriving DecidableEq, Repr

/-- The step after `checkAlreadyInBlock` returns. -/
def afterCheckAlreadyInBlock (fromBlockProposer : Bool) : Pc :=
  if fromBlockProposer then .saveBefore else .check

/-- **One awaited step of `submitTransaction`**, against the database as it is at that step;
`checkPasses` says whether `checkTransaction` returns or throws.  A replay — a stored block holds
the hash and the stored transaction has a `blockNumber` — throws and is caught; a re-mine goes on
with `mempool = false`. -/
def submitStep (checkPasses : Bool) (db : DB) (p : Submission) : Submission × DB :=
  match p.pc with
  | .getBlock =>
    match getBlockByTransactionHash db p.transaction.transactionHash with
    | none => ({ p with pc := afterCheckAlreadyInBlock p.fromBlockProposer }, db)
    | some _ => ({ p with pc := .getStored }, db)
  | .getStored =>
    if ((getTransactionByTransactionHash db p.transaction.transactionHash).bind
        TransactionRecord.blockNumber).isSome then
      ({ p with pc := .done }, db)
    else
      ({ p with
        pc := afterCheckAlreadyInBlock p.fromBlockProposer
        transaction := { p.transaction with mempool := false } }, db)
  | .saveBefore => ({ p with pc := .check }, saveTransaction db p.transaction)
  | .check =>
    if checkPasses then ({ p with pc := if p.fromBlockProposer then .done else .saveAfter }, db)
    else ({ p with pc := .done }, db)
  | .saveAfter => ({ p with pc := .done }, saveTransaction db p.transaction)
  | .done => (p, db)

/-- **One event**: the submission's next step, or a block stored by the block handler. -/
inductive Event
  | submit (checkPasses : Bool)
  | storeBlock (hashes : List Word)
  deriving DecidableEq, Repr

/-- One event. -/
def Event.apply : Event → Submission × DB → Submission × DB
  | .submit checkPasses, (p, db) => submitStep checkPasses db p
  | .storeBlock hashes, (p, db) => (p, Optimist.storeBlock db hashes)

/-- **A schedule of events**, one after another. -/
def runEvents : List Event → Submission × DB → Submission × DB
  | [], st => st
  | e :: es, st => runEvents es (e.apply st)

/-! ## The database under one event -/

theorem getBlockByTransactionHash_eq_none {db : DB} {h : Word} :
    getBlockByTransactionHash db h = none ↔ ∀ b ∈ db.blocks, h ∉ b := by
  simp [getBlockByTransactionHash]

@[simp] theorem saveTransaction_blocks (db : DB) (tx : TransactionRecord) :
    (saveTransaction db tx).blocks = db.blocks := by
  unfold saveTransaction; split <;> rfl

/-- The database is consistent but perhaps for the transactions with a hash in `hs`. -/
def ConsistentOutside (hs : List Word) (db : DB) : Prop :=
  ∀ r ∈ db.transactions, r.transactionHash ∉ hs →
    (∃ b ∈ db.blocks, r.transactionHash ∈ b) → r.mempool = false

theorem consistent_iff_consistentOutside_nil {db : DB} : Consistent db ↔ ConsistentOutside [] db :=
  ⟨fun hc r hr _ => hc r hr, fun hc r hr => hc r hr (List.not_mem_nil _)⟩

theorem ConsistentOutside.mono {hs hs' : List Word} {db : DB} (hc : ConsistentOutside hs db)
    (h : hs ⊆ hs') : ConsistentOutside hs' db :=
  fun r hr hn => hc r hr fun hm => hn (h hm)

/-- Storing a block keeps the database consistent outside `hs`: the block's transactions leave the
mempool. -/
theorem ConsistentOutside.storeBlock {hs : List Word} {db : DB} (hc : ConsistentOutside hs db)
    (hashes : List Word) : ConsistentOutside hs (storeBlock db hashes) := by
  intro r' hr' hn hb
  obtain ⟨r, hr, rfl⟩ := List.mem_map.1 hr'
  by_cases hh : r.transactionHash ∈ hashes
  · simp [hh]
  · simp only [hh, if_false] at hb hn ⊢
    obtain ⟨b, hb, hrb⟩ := hb
    rcases List.mem_append.1 hb with hb | hb
    · exact hc r hr hn ⟨b, hb, hrb⟩
    · exact absurd (List.mem_singleton.1 hb ▸ hrb) hh

/-- Saving a transaction keeps the database consistent outside `hs` when its hash is in `hs`, or
no stored block holds it if it goes into the mempool. -/
theorem ConsistentOutside.saveTransaction {hs : List Word} {db : DB} (hc : ConsistentOutside hs db)
    {tx : TransactionRecord}
    (htx : tx.transactionHash ∈ hs ∨ (tx.mempool = true → ∀ b ∈ db.blocks, tx.transactionHash ∉ b)) :
    ConsistentOutside hs (saveTransaction db tx) := by
  unfold Optimist.saveTransaction
  split
  · exact hc
  · intro r hr hn hb
    rcases List.mem_append.1 hr with hr | hr
    · exact hc r hr hn hb
    · obtain rfl := List.mem_singleton.1 hr
      obtain ⟨b, hb, hrb⟩ := hb
      cases hm : r.mempool
      · rfl
      · exact absurd hrb ((htx.resolve_left hn) hm b hb)

/-- Storing a block keeps the database consistent: the block's transactions leave the mempool. -/
theorem Consistent.storeBlock {db : DB} (h : Consistent db) (hashes : List Word) :
    Consistent (storeBlock db hashes) :=
  consistent_iff_consistentOutside_nil.2
    ((consistent_iff_consistentOutside_nil.1 h).storeBlock hashes)

/-- Saving a transaction keeps the database consistent, when no stored block holds a transaction
saved into the mempool. -/
theorem Consistent.saveTransaction {db : DB} (h : Consistent db) {tx : TransactionRecord}
    (htx : tx.mempool = true → ∀ b ∈ db.blocks, tx.transactionHash ∉ b) :
    Consistent (saveTransaction db tx) := by
  unfold Optimist.saveTransaction
  split
  · exact h
  · intro r hr hb
    rcases List.mem_append.1 hr with hr | hr
    · exact h r hr hb
    · obtain rfl := List.mem_singleton.1 hr
      obtain ⟨b, hb, hrb⟩ := hb
      cases hm : r.mempool
      · rfl
      · exact absurd hrb (htx hm b hb)

/-! ## Schedules that serialize the submission with block storage -/

/-- The steps between the block lookup and the last save. -/
def Pc.awaitsSave : Pc → Bool
  | .saveBefore | .check | .saveAfter => true
  | _ => false

/-- An event the serialized schedule allows: no block holding the transaction is stored while the
submission awaits its save. -/
def Event.allowed (p : Submission) : Event → Bool
  | .submit _ => true
  | .storeBlock hashes => !(p.pc.awaitsSave && decide (p.transaction.transactionHash ∈ hashes))

/-- **A serialized schedule**: every event allowed where it happens. -/
def serialized : List Event → Submission × DB → Bool
  | [], _ => true
  | e :: es, st => e.allowed st.1 && serialized es (e.apply st)

/-- **The invariant of a serialized schedule**: the database is consistent, and while the
submission awaits saving its transaction into the mempool, no stored block holds it. -/
def Inv (st : Submission × DB) : Prop :=
  Consistent st.2 ∧ (st.1.pc.awaitsSave = true → st.1.transaction.mempool = true →
    ∀ b ∈ st.2.blocks, st.1.transaction.transactionHash ∉ b)

/-- **One allowed event keeps the invariant.** -/
theorem Inv.apply {st : Submission × DB} (h : Inv st) {e : Event} (he : e.allowed st.1 = true) :
    Inv (e.apply st) := by
  obtain ⟨p, db⟩ := st
  obtain ⟨hc, hw⟩ := h
  cases e with
  | storeBlock hashes =>
    refine ⟨hc.storeBlock hashes, fun hp hm b hb => ?_⟩
    dsimp only [Event.apply] at hp hm hb ⊢
    have hh : p.transaction.transactionHash ∉ hashes := by simpa [Event.allowed, hp] using he
    rcases List.mem_append.1 hb with hb | hb
    · exact hw hp hm b hb
    · exact List.mem_singleton.1 hb ▸ hh
  | submit checkPasses =>
    obtain ⟨pc, tx, fbp⟩ := p
    cases pc <;> simp only [Event.apply, submitStep] at hw ⊢
    case getBlock =>
      cases hg : getBlockByTransactionHash db tx.transactionHash with
      | none => exact ⟨hc, fun _ _ => getBlockByTransactionHash_eq_none.1 hg⟩
      | some _ => exact ⟨hc, nofun⟩
    case getStored =>
      split
      · exact ⟨hc, nofun⟩
      · exact ⟨hc, nofun⟩
    case saveBefore =>
      exact ⟨hc.saveTransaction (hw rfl),
        fun _ => by simpa only [saveTransaction_blocks] using hw rfl⟩
    case check =>
      split
      · exact ⟨hc, fun _ => hw rfl⟩
      · exact ⟨hc, nofun⟩
    case saveAfter => exact ⟨hc.saveTransaction (hw rfl), nofun⟩
    case done => exact ⟨hc, hw⟩

/-- **A serialized schedule keeps the invariant.** -/
theorem Inv.runEvents {es : List Event} {st : Submission × DB} (h : Inv st)
    (hs : serialized es st = true) : Inv (Optimist.runEvents es st) := by
  induction es generalizing st with
  | nil => exact h
  | cons e es ih =>
    simp only [serialized, Bool.and_eq_true] at hs
    exact ih (h.apply hs.1) hs.2

/-! ## What a step of the submission writes -/

/-- A step of the submission keeps the hash of its transaction. -/
@[simp] theorem submitStep_transactionHash (checkPasses : Bool) (db : DB) (p : Submission) :
    (submitStep checkPasses db p).1.transaction.transactionHash =
      p.transaction.transactionHash := by
  unfold submitStep
  split <;> (try split) <;> rfl

/-- A step of the submission leaves the database as it was, or saves the submission's
transaction. -/
theorem submitStep_db (checkPasses : Bool) (db : DB) (p : Submission) :
    (submitStep checkPasses db p).2 = db ∨
      (submitStep checkPasses db p).2 = saveTransaction db p.transaction := by
  unfold submitStep
  split <;> (try split) <;> first | exact .inl rfl | exact .inr rfl

/-! ## `submitTransaction` against block storage -/

/-- **A block stored between the lookup and the save lets a transaction it holds into the
mempool.**  The submission of transaction `7`, from the block proposer or not, finds no block
holding it; the block handler then stores one; the check passes and `saveTransaction` stores the
transaction with `mempool = true`, next to the block that holds it. -/
theorem submitTransaction_saves_into_mempool (fromBlockProposer : Bool) :
    runEvents [.submit true, .storeBlock [7], .submit true, .submit true]
        (⟨.getBlock, ⟨7, some 1, true⟩, fromBlockProposer⟩, ⟨[], []⟩) =
      (⟨.done, ⟨7, some 1, true⟩, fromBlockProposer⟩, ⟨[[7]], [⟨7, some 1, true⟩]⟩) ∧
    ¬Consistent ⟨[[7]], [⟨7, some 1, true⟩]⟩ := by
  cases fromBlockProposer <;> decide

/-! ## Replays

`checkAlreadyInBlock` exists to reject a replay: a transaction that a stored block holds and that
is stored with a block number.  Storing blocks keeps a replay a replay, so on every schedule the
submission finds the block, then the stored transaction, and stops: it writes nothing
(`runEvents_replay`). -/

/-- `checkAlreadyInBlock` finds a replay of hash `h`: a stored block holds it, and the stored
transaction with it has a block number. -/
def IsReplay (db : DB) (h : Word) : Prop :=
  (getBlockByTransactionHash db h).isSome = true ∧
    ((getTransactionByTransactionHash db h).bind TransactionRecord.blockNumber).isSome = true

instance (db : DB) (h : Word) : Decidable (IsReplay db h) := inferInstanceAs (Decidable (_ ∧ _))

theorem getTransactionByTransactionHash_storeBlock (db : DB) (hashes : List Word) (h : Word) :
    getTransactionByTransactionHash (storeBlock db hashes) h =
      (getTransactionByTransactionHash db h).map fun r =>
        if r.transactionHash ∈ hashes then { r with mempool := false } else r := by
  simp only [getTransactionByTransactionHash, storeBlock, List.find?_map]
  congr 2
  funext r
  simp only [Function.comp_apply]
  split <;> rfl

/-- Storing a block keeps a replay a replay. -/
theorem IsReplay.storeBlock {db : DB} {h : Word} (hr : IsReplay db h) (hashes : List Word) :
    IsReplay (storeBlock db hashes) h := by
  obtain ⟨hb, ht⟩ := hr
  refine ⟨?_, ?_⟩
  · simp only [getBlockByTransactionHash, Optimist.storeBlock, List.find?_append,
      Option.isSome_or] at hb ⊢
    exact Bool.or_eq_true_iff.2 (.inl hb)
  · rw [getTransactionByTransactionHash_storeBlock]
    cases hg : getTransactionByTransactionHash db h with
    | none => simp [hg] at ht
    | some r => simpa [hg, apply_ite TransactionRecord.blockNumber] using ht

end Nightfall.Optimist
