import Nightfall.State.Steps
import Mathlib.Data.List.Cycle

/-!
# State/ProposerRing — `removeProposer` and the ring of proposers

The registered proposers form a circular doubly-linked list in `proposers`.  `RingWF P ring` says
that `P` stores the ring `ring`, a list of distinct non-zero addresses in cyclic order: each
member's record names itself and its neighbours in `ring` (`List.next` and `List.prev`, which wrap
around), and every other address holds the zero record.

`unlinkProposer` is what `removeProposer` does to `proposers`.  For a member it splices the member
out of the ring, for rings of every size, one and two members included, where both neighbours are
one address (`RingWF.unlinkProposer`); for an address off the ring it changes nothing.  The
current proposer is then the record at the removed address's successor: for a member, a member of
what is left (`removeProposerBody_currentProposer`), but for an address off the ring the zero
record, however many proposers remain (`removeProposer_off_ring_currentProposer`).

Every result is proved for a ring with the removed member at its head, and carried to the others
by rotation: `RingWF` depends on the ring only up to rotation (`RingWF.of_isRotated`).

Over whole runs: apart from `setProposer` and `updateProposer`, through which the Proposers
contract registers proposers and edits their records, the only calls that write `proposers` are
`removeProposer` and `rewardChallenger`, and both unlink one address.  So every run without those
two keeps a well-formed ring, which only loses members (`run_proposerRing`).
-/

namespace Nightfall

/-! ## Well-formed rings -/

/-- **A well-formed ring of proposers**: `P` stores the ring `ring`. -/
structure RingWF (P : Address → LinkedAddress) (ring : List Address) : Prop where
  nodup : ring.Nodup
  zero_not_mem : 0 ∉ ring
  thisAddress : ∀ a ∈ ring, (P a).thisAddress = a
  nextAddress : ∀ a (h : a ∈ ring), (P a).nextAddress = ring.next a h
  previousAddress : ∀ a (h : a ∈ ring), (P a).previousAddress = ring.prev a h
  off : ∀ a ∉ ring, P a = default

/-- The records that store `ring`, with no URL and no fee. -/
def ringOf (ring : List Address) (a : Address) : LinkedAddress :=
  if h : a ∈ ring then ⟨a, ring.prev a h, ring.next a h, "", 0⟩ else default

/-- Every list of distinct non-zero addresses is stored by `ringOf`. -/
theorem ringOf_wf {ring : List Address} (hn : ring.Nodup) (h0 : 0 ∉ ring) :
    RingWF (ringOf ring) ring where
  nodup := hn
  zero_not_mem := h0
  thisAddress a h := by simp [ringOf, h]
  nextAddress a h := by simp [ringOf, h]
  previousAddress a h := by simp [ringOf, h]
  off a h := by simp [ringOf, h]

namespace RingWF

variable {P : Address → LinkedAddress} {ring : List Address}

/-- The registered proposers are the ring: the non-zero addresses whose record names them. -/
theorem mem_iff (h : RingWF P ring) {a : Address} : a ∈ ring ↔ a ≠ 0 ∧ (P a).thisAddress = a :=
  ⟨fun ha => ⟨fun h0 => h.zero_not_mem (h0 ▸ ha), h.thisAddress a ha⟩, fun ⟨h0, ht⟩ =>
    by_contra fun ha => h0 (by rw [← ht, h.off a ha]; rfl)⟩

/-- Each member is the predecessor of its successor and the successor of its predecessor. -/
theorem links (h : RingWF P ring) {a : Address} (ha : a ∈ ring) :
    (P (P a).nextAddress).previousAddress = a ∧ (P (P a).previousAddress).nextAddress = a := by
  rw [h.nextAddress a ha, h.previousAddress a ha, h.previousAddress _ (List.next_mem _ _ ha),
    h.nextAddress _ (List.prev_mem _ _ ha)]
  exact ⟨List.prev_next _ h.nodup _ ha, List.next_prev _ h.nodup _ ha⟩

/-- `RingWF` sees the ring only up to rotation. -/
theorem of_isRotated (h : RingWF P ring) {ring' : List Address} (hr : ring ~r ring') :
    RingWF P ring' where
  nodup := hr.nodup_iff.1 h.nodup
  zero_not_mem h0 := h.zero_not_mem (hr.mem_iff.2 h0)
  thisAddress a ha := h.thisAddress a (hr.mem_iff.2 ha)
  nextAddress a ha := by
    rw [h.nextAddress a (hr.mem_iff.2 ha), List.isRotated_next_eq hr h.nodup]
  previousAddress a ha := by
    rw [h.previousAddress a (hr.mem_iff.2 ha), List.isRotated_prev_eq hr h.nodup]
  off a ha := h.off a (mt hr.mem_iff.1 ha)

/-- A member heads a rotation of the ring, and the rest of that rotation is the ring without it. -/
theorem exists_rotated_cons (h : RingWF P ring) {p : Address} (hp : p ∈ ring) :
    ∃ rest, ring ~r p :: rest ∧ ring.erase p ~r rest := by
  obtain ⟨l₁, l₂, rfl⟩ := List.append_of_mem hp
  have hp₁ : p ∉ l₁ := fun hm =>
    (List.nodup_middle.1 h.nodup |>.not_mem) (List.mem_append_left _ hm)
  refine ⟨l₂ ++ l₁, List.isRotated_append, ?_⟩
  rw [List.erase_append_right _ hp₁, List.erase_cons_head]
  exact List.isRotated_append

end RingWF

/-! ## `unlinkProposer`, record by record -/

section Unlink

variable (P : Address → LinkedAddress) (p : Address)

/-- **`removeProposer` on one record**: after the delete, the predecessor's `nextAddress` and the
successor's `previousAddress` are rewritten, through the `thisAddress` of the other. -/
theorem unlinkProposer_apply (a : Address) :
    unlinkProposer P p a =
      let P₁ := Function.update P p default
      { P₁ a with
        nextAddress := if a = (P p).previousAddress then (P₁ (P p).nextAddress).thisAddress
          else (P₁ a).nextAddress
        previousAddress := if a = (P p).nextAddress then (P₁ (P p).previousAddress).thisAddress
          else (P₁ a).previousAddress } := by
  simp only [unlinkProposer]
  generalize (P p).nextAddress = n
  generalize (P p).previousAddress = v
  generalize Function.update P p default = P₁
  by_cases hn : a = n <;> by_cases hv : a = v
  · subst hn hv; simp
  · subst hn; simp [hv]
  · subst hv; simp [hn, Ne.symm hn]
  · simp [hn, hv]

section Fields

variable (a : Address)

@[simp] theorem unlinkProposer_thisAddress :
    (unlinkProposer P p a).thisAddress = if a = p then 0 else (P a).thisAddress := by
  rw [unlinkProposer_apply]; simp only [Function.update_apply]; split_ifs <;> rfl

@[simp] theorem unlinkProposer_url :
    (unlinkProposer P p a).url = if a = p then "" else (P a).url := by
  rw [unlinkProposer_apply]; simp only [Function.update_apply]; split_ifs <;> rfl

@[simp] theorem unlinkProposer_fee :
    (unlinkProposer P p a).fee = if a = p then 0 else (P a).fee := by
  rw [unlinkProposer_apply]; simp only [Function.update_apply]; split_ifs <;> rfl

@[simp] theorem unlinkProposer_nextAddress :
    (unlinkProposer P p a).nextAddress = if a = (P p).previousAddress then
      (if (P p).nextAddress = p then 0 else (P (P p).nextAddress).thisAddress)
    else if a = p then 0 else (P a).nextAddress := by
  rw [unlinkProposer_apply]; simp only [Function.update_apply]; split_ifs <;> rfl

@[simp] theorem unlinkProposer_previousAddress :
    (unlinkProposer P p a).previousAddress = if a = (P p).nextAddress then
      (if (P p).previousAddress = p then 0 else (P (P p).previousAddress).thisAddress)
    else if a = p then 0 else (P a).previousAddress := by
  rw [unlinkProposer_apply]; simp only [Function.update_apply]; split_ifs <;> rfl

end Fields

/-- Off the ring, `removeProposer` changes no record: the delete and both rewrites land on zero
records. -/
theorem unlinkProposer_of_not_mem {ring : List Address} (h : RingWF P ring) (hp : p ∉ ring) :
    unlinkProposer P p = P := by
  have h0 : P 0 = default := h.off 0 h.zero_not_mem
  funext a
  by_cases ha : a = p
  · subst ha
    ext <;> simp [h.off a hp, h0]
  · by_cases ha0 : a = 0
    · subst ha0
      ext <;> simp [h.off p hp, h0]
    · ext <;> simp [h.off p hp, ha, ha0]

end Unlink

namespace RingWF

variable {P : Address → LinkedAddress} {p : Address} {rest : List Address}

/-- **Removing the head of a ring** leaves the rest of it: the head's record is deleted, and its
predecessor and successor are linked to each other. -/
theorem unlinkProposer_cons (h : RingWF P (p :: rest)) : RingWF (unlinkProposer P p) rest := by
  have hnd := List.nodup_cons.1 h.nodup
  have hne : ∀ a ∈ rest, a ≠ p := fun a ha hap => hnd.1 (hap ▸ ha)
  have hoff : ∀ a, a ≠ p → a ∉ rest → P a = default := fun a hp hr => h.off a (by simp [hp, hr])
  cases rest with
  | nil =>
    have hn : (P p).nextAddress = p := by simpa using h.nextAddress p (.head _)
    have hv : (P p).previousAddress = p := by simpa using h.previousAddress p (.head _)
    refine ⟨List.nodup_nil, List.not_mem_nil 0, nofun, nofun, nofun, fun a _ => ?_⟩
    by_cases ha : a = p
    · subst ha
      ext <;> simp [hn, hv]
    · ext <;> simp [ha, hn, hv, hoff a ha (List.not_mem_nil a)]
  | cons q m =>
    set r := (q :: m).getLast (List.cons_ne_nil q m)
    have hrm : r ∈ q :: m := List.getLast_mem _
    have hn : (P p).nextAddress = q := by rw [h.nextAddress p (.head _), List.next_cons_cons_eq]
    have hv : (P p).previousAddress = r := by
      rw [h.previousAddress p (.head _), List.prev_cons_cons_eq]
    refine ⟨hnd.2, fun h0 => h.zero_not_mem (.tail _ h0), fun a ha => ?_, fun a ha => ?_,
      fun a ha => ?_, fun a ha => ?_⟩
    · rw [unlinkProposer_thisAddress, if_neg (hne a ha), h.thisAddress a (.tail _ ha)]
    · rw [unlinkProposer_nextAddress, hv, hn, if_neg (hne q (.head _)),
        h.thisAddress q (.tail _ (.head _)), if_neg (hne a ha), h.nextAddress a (.tail _ ha)]
      split_ifs with har
      · -- the predecessor now points past the head, to the ring's first member
        rcases m with _ | ⟨c, m⟩
        · exact (List.next_singleton a q ha).symm
        · have hq : q ∉ c :: m := (List.nodup_cons.1 hnd.2).1
          exact (List.next_getLast_cons _ _ (har ▸ List.getLast_mem _) q ha
            (fun haq => hq (haq ▸ har ▸ List.getLast_mem _)) har (List.nodup_cons.1 hnd.2).2).symm
      · exact List.next_ne_head_ne_getLast _ _ ha _ _ (hne a ha) (by rwa [List.getLast_cons])
    · rw [unlinkProposer_previousAddress, hn, hv, if_neg (hne r hrm), h.thisAddress r (.tail _ hrm),
        if_neg (hne a ha), h.previousAddress a (.tail _ ha)]
      split_ifs with haq
      · -- the successor now points back past the head, to the ring's last member
        subst haq
        exact (List.prev_getLast_cons _ _ ha).symm
      · exact List.prev_ne_cons_cons _ _ _ _ _ (hne a ha) haq
    · have har : a ≠ r := fun har => ha (har ▸ hrm)
      have haq : a ≠ q := fun haq => ha (haq ▸ .head _)
      by_cases hap : a = p
      · subst hap
        ext <;> simp [hn, hv, har, haq]
      · ext <;> simp [hn, hv, har, haq, hap, hoff a hap ha]

/-- **`removeProposer` keeps the ring well formed**: it stores the ring without the removed
address, in the same cyclic order. -/
theorem unlinkProposer {ring : List Address} (h : RingWF P ring) (p : Address) :
    RingWF (Nightfall.unlinkProposer P p) (ring.erase p) := by
  by_cases hp : p ∈ ring
  · obtain ⟨rest, hr, he⟩ := h.exists_rotated_cons hp
    exact (h.of_isRotated hr).unlinkProposer_cons.of_isRotated he.symm
  · rw [unlinkProposer_of_not_mem P p h hp, List.erase_of_not_mem hp]
    exact h

end RingWF

/-! ## `removeProposer`

The checks run on `twoProposers`: the proposers `5` and `6` in a ring, `5` current, and
`1, 2, 3` the registered contracts. -/

/-- Two proposers in a ring, the first of them current. -/
def twoProposers : State :=
  { State.init 1 2 3 with proposers := ringOf [5, 6], currentProposer := ringOf [5, 6] 5 }

theorem twoProposers_wf : RingWF twoProposers.proposers [5, 6] := ringOf_wf (by decide) (by decide)

section RemoveProposer

variable {ctx : Ctx} {p : Address} {s : State} {ring : List Address}

/-- **`removeProposer` splices a proposer out of a well-formed ring.**  From a state storing
`ring`, `removeProposer(p)` leaves the ring without `p`, in the same cyclic order: `proposers[p]`
and every other address off the ring hold the zero record, and each remaining member keeps its
address, URL and fee. -/
theorem removeProposer_ring {s' : State} (hwf : RingWF s.proposers ring)
    (h : removeProposer ctx p s = .ok s') :
    RingWF s'.proposers (ring.erase p) ∧ s'.proposers p = default ∧
      ∀ a ∈ ring.erase p, (s'.proposers a).thisAddress = (s.proposers a).thisAddress ∧
        (s'.proposers a).url = (s.proposers a).url ∧
        (s'.proposers a).fee = (s.proposers a).fee := by
  obtain rfl := removeProposer_ok h
  have hwf' := hwf.unlinkProposer p
  refine ⟨hwf', hwf'.off p (hwf.nodup.not_mem_erase), fun a ha => ?_⟩
  have hap : a ≠ p := (hwf.nodup.mem_erase_iff.1 ha).1
  simp [removeProposerBody, hap]

/-- The proposers contract removes `5` from the ring of `twoProposers`. -/
theorem removeProposer_ring_twoProposers :
    RingWF twoProposers.proposers [5, 6] ∧
    removeProposer ⟨1, 0, 0, 0⟩ 5 twoProposers =
      .ok (removeProposerBody ⟨1, 0, 0, 0⟩ 5 twoProposers) ∧
    (RingWF (removeProposerBody ⟨1, 0, 0, 0⟩ 5 twoProposers).proposers ([5, 6].erase 5) ∧
      (removeProposerBody ⟨1, 0, 0, 0⟩ 5 twoProposers).proposers 5 = default ∧
      ∀ a ∈ [5, 6].erase 5,
        ((removeProposerBody ⟨1, 0, 0, 0⟩ 5 twoProposers).proposers a).thisAddress =
          (twoProposers.proposers a).thisAddress ∧
        ((removeProposerBody ⟨1, 0, 0, 0⟩ 5 twoProposers).proposers a).url =
          (twoProposers.proposers a).url ∧
        ((removeProposerBody ⟨1, 0, 0, 0⟩ 5 twoProposers).proposers a).fee =
          (twoProposers.proposers a).fee) :=
  ⟨twoProposers_wf, rfl,
    @removeProposer_ring ⟨1, 0, 0, 0⟩ 5 twoProposers [5, 6] _ twoProposers_wf rfl⟩

/-- **Removing a member moves the current proposer to the member's successor**, a member of the
ring that is left, or to the zero record when no member is left.  This holds for `removeProposer`
and for `rewardChallenger`, whose removal is the same body. -/
theorem removeProposerBody_currentProposer (h : RingWF s.proposers ring) (hp : p ∈ ring) :
    (ring.erase p ≠ [] → (removeProposerBody ctx p s).currentProposer.thisAddress = ring.next p hp ∧
      ring.next p hp ∈ ring.erase p) ∧
    (ring.erase p = [] → (removeProposerBody ctx p s).currentProposer = default) := by
  obtain ⟨rest, hr, he⟩ := h.exists_rotated_cons hp
  have hwf' := h.unlinkProposer p
  have hn : (s.proposers p).nextAddress = (p :: rest).next p (.head _) := by
    rw [h.nextAddress p hp, List.isRotated_next_eq hr h.nodup]
  cases rest with
  | nil =>
    have he' : ring.erase p = [] := List.isRotated_nil_iff.1 he
    refine ⟨fun hne => absurd he' hne, fun _ => ?_⟩
    rw [List.next_singleton] at hn
    simp only [removeProposerBody, hn]
    exact hwf'.off p (by simp [he'])
  | cons q m =>
    have hq : q ∈ ring.erase p := he.mem_iff.2 (.head _)
    refine ⟨fun _ => ?_, fun he' => absurd (he' ▸ hq) (List.not_mem_nil q)⟩
    rw [List.next_cons_cons_eq] at hn
    have hnext : ring.next p hp = q := by
      rw [List.isRotated_next_eq hr h.nodup, List.next_cons_cons_eq]
    rw [hnext]
    exact ⟨by simp only [removeProposerBody, hn]; exact hwf'.thisAddress q hq, hq⟩

/-- Removing `5` from `twoProposers` makes `6` current. -/
theorem removeProposerBody_currentProposer_twoProposers :
    RingWF twoProposers.proposers [5, 6] ∧ 5 ∈ [5, 6] ∧
    (([5, 6].erase 5 ≠ [] →
      (removeProposerBody ⟨1, 0, 0, 0⟩ 5 twoProposers).currentProposer.thisAddress =
        [5, 6].next 5 (by decide) ∧ [5, 6].next 5 (by decide) ∈ [5, 6].erase 5) ∧
      ([5, 6].erase 5 = [] →
        (removeProposerBody ⟨1, 0, 0, 0⟩ 5 twoProposers).currentProposer = default)) :=
  ⟨twoProposers_wf, by decide, removeProposerBody_currentProposer twoProposers_wf (by decide)⟩

/-- **Removing an address off the ring leaves the zero record current.**  From a well-formed
ring, `removeProposer(p)` for an address `p` off the ring — one that has already left, as the
proposer of a challenged block may have — changes no record but sets `currentProposer` to the zero
record, whatever the ring: with `5` and `6` registered and `5` current, removing `7` leaves no
proposer able to call `proposeBlock`, whether the Proposers contract (`1`) removes it or the
Challenges contract (`2`) rewards a challenge of a block `7` proposed. -/
theorem removeProposer_off_ring_currentProposer :
    (∀ ctx p s ring, RingWF s.proposers ring → p ∉ ring →
      (removeProposerBody ctx p s).proposers = s.proposers ∧
      (removeProposerBody ctx p s).currentProposer = default) ∧
    twoProposers.currentProposer.thisAddress = 5 ∧
    (∃ s', removeProposer ⟨1, 0, 0, 0⟩ 7 twoProposers = .ok s' ∧ RingWF s'.proposers [5, 6] ∧
      s'.currentProposer.thisAddress = 0) ∧
    ∃ s' es, rewardChallenger ⟨1, 32, 100⟩ ⟨2, 0, 0, 0⟩ 9 7 1 twoProposers = .ok (s', es) ∧
      RingWF s'.proposers [5, 6] ∧ s'.currentProposer.thisAddress = 0 := by
  have hoff : ∀ ctx p s ring, RingWF s.proposers ring → p ∉ ring →
      (removeProposerBody ctx p s).proposers = s.proposers ∧
      (removeProposerBody ctx p s).currentProposer = default := fun _ p s _ h hp => by
    have hu := unlinkProposer_of_not_mem s.proposers p h hp
    refine ⟨hu, ?_⟩
    simp only [removeProposerBody, hu, h.off p hp, LinkedAddress.default_nextAddress]
    exact h.off 0 h.zero_not_mem
  obtain ⟨hP, hc⟩ := hoff ⟨1, 0, 0, 0⟩ 7 twoProposers [5, 6] twoProposers_wf (by decide)
  obtain ⟨hP', hc'⟩ := hoff ⟨2, 0, 0, 0⟩ 7 twoProposers [5, 6] twoProposers_wf (by decide)
  refine ⟨hoff, rfl, ⟨_, rfl, hP ▸ twoProposers_wf, by rw [hc]; rfl⟩, _, _, rfl, ?_, ?_⟩
  · show RingWF (removeProposerBody ⟨2, 0, 0, 0⟩ 7 twoProposers).proposers [5, 6]
    rw [hP']
    exact twoProposers_wf
  · show (removeProposerBody ⟨2, 0, 0, 0⟩ 7 twoProposers).currentProposer.thisAddress = 0
    rw [hc']
    rfl

end RemoveProposer

/-! ## The ring over runs -/

section Runs

variable (κ : Keccak) (cfg : Config) {ring : List Address}

/-- **One call keeps a well-formed ring**, minus the address it removes, unless it is
`setProposer` or `updateProposer`. -/
theorem RingWF.apply {ctx : Ctx} {o : Op} {s s' : State} {es : List Entry}
    (h : o.apply κ cfg ctx s = .ok (s', es)) (hw : o.writesProposer = false)
    (hr : RingWF s.proposers ring) : ∃ ring', ring'.Sublist ring ∧ RingWF s'.proposers ring' := by
  rcases Op.apply_ok κ cfg h with ⟨_, _, _, _, -, -, hp⟩ | ⟨-, -, rfl⟩ | ⟨_, _, _, -, ha⟩ |
    ⟨_, p, _, -, hc⟩ | ⟨p, -, -, rfl⟩ | ⟨_, _, -, -, rfl⟩ | ⟨_, -, -, rfl⟩ | ⟨-, -, -, hpr, -⟩
  · obtain ⟨-, -, rfl⟩ := proposeBlock_ok κ cfg hp
    exact ⟨ring, .refl _, hr⟩
  · exact ⟨ring, .refl _, hr⟩
  · rw [(addPendingWithdrawal_ok ha).1]
    exact ⟨ring, .refl _, hr⟩
  · rw [(rewardChallenger_ok cfg hc).1]
    exact ⟨_, List.erase_sublist _ _, hr.unlinkProposer p⟩
  · exact ⟨_, List.erase_sublist _ _, hr.unlinkProposer p⟩
  · exact ⟨ring, .refl _, hr⟩
  · exact ⟨ring, .refl _, hr⟩
  · rw [hpr hw]
    exact ⟨ring, .refl _, hr⟩

/-- **Proposers only leave.**  From a well-formed ring, every run whose calls, those made during
`withdraw`'s ETH transfer included, never write a record through `setProposer` or
`updateProposer` ends with a well-formed ring, a sublist of the first. -/
theorem run_proposerRing {cs : List Call} {s : State} (hr : RingWF s.proposers ring)
    (hcs : ∀ c ∈ cs, ∀ o ∈ c.ops, o.writesProposer = false) :
    ∃ ring', ring'.Sublist ring ∧ RingWF (run κ cfg cs s).1.proposers ring' := by
  have hop : ∀ {ctx : Ctx} {o : Op} {s s' : State} {es : List Entry}, o.writesProposer = false →
      (∃ ring', ring'.Sublist ring ∧ RingWF s.proposers ring') →
      o.apply κ cfg ctx s = .ok (s', es) →
      ∃ ring', ring'.Sublist ring ∧ RingWF s'.proposers ring' :=
    fun hw ⟨_, hsub, hr⟩ h =>
      let ⟨r', hsub', hr'⟩ := RingWF.apply κ cfg h hw hr
      ⟨r', hsub'.trans hsub, hr'⟩
  exact run_invariant_of κ cfg hop (fun hre => withdraw_invariant_of κ cfg hop (fun _ h => h) hre)
    hcs ⟨ring, .refl _, hr⟩

/-- The Challenges contract (`2`) rewards a challenger of proposer `5`'s block: `6` is left. -/
theorem run_proposerRing_rewardChallenger :
    RingWF twoProposers.proposers [5, 6] ∧
    (∀ c ∈ [Call.op ⟨2, 0, 0, 0⟩ (.rewardChallenger 9 5 0)], ∀ o ∈ c.ops,
      o.writesProposer = false) ∧
    ∃ ring', ring'.Sublist [5, 6] ∧ RingWF (run sumKeccak ⟨1, 32, 100⟩
      [Call.op ⟨2, 0, 0, 0⟩ (.rewardChallenger 9 5 0)] twoProposers).1.proposers ring' :=
  ⟨twoProposers_wf, by decide, run_proposerRing sumKeccak ⟨1, 32, 100⟩ twoProposers_wf (by decide)⟩

end Runs

end Nightfall
