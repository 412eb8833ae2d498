import Mathlib.Data.Nat.Bitwise
import Yellowstone.Library.Machine

/-!
# The ring sequencer

One producer claims sequence numbers and one consumer advances the gating sequence. The
producer trusts its copy of the consumer's progress until the ring looks full. `Int64`
wraps around; with fewer than 2^63 slots and claims no difference below leaves its range.
-/

set_option autoImplicit false

namespace Yellowstone.Legacy

/-- `N` of `SingleProducerSequencer<N>`, with its `static_assert`. -/
structure RingSize where
  n : UInt64
  positive : n ≠ 0
  powerOfTwo : n &&& (n - 1) = 0

/-- `Sequence`, which the consumer writes. -/
structure Sequence where
  value : Int64 := -1
deriving DecidableEq, Repr

def kInitialCursor : Int64 := -1

def kOk : Int := 0

def kFull : Int := -2

structure SingleProducerSequencer where
  nextValue : Int64 := kInitialCursor
  cursor : Int64 := kInitialCursor
  cachedGating : Int64 := kInitialCursor
  /-- The sequence `m_gating` points to. -/
  gating : Option Sequence := none
deriving DecidableEq, Repr

namespace SingleProducerSequencer

def minGating (g : Option Sequence) : Int64 :=
  match g with
  | some g => g.value
  | none => kInitialCursor

def addGatingSequence (s : SingleProducerSequencer) (gating : Sequence) :
    SingleProducerSequencer :=
  let s := { s with gating := some gating }
  { s with cachedGating := minGating s.gating }

variable (n : RingSize)

def remainingCapacity (s : SingleProducerSequencer) : Int64 :=
  let produced := s.nextValue
  let consumed := minGating s.gating
  let used := produced - consumed
  n.n.toInt64 - used

/-- The code returned, what `out_seq` holds after the call, and the sequencer. -/
def tryNext (s : SingleProducerSequencer) (outSeq : Int64) :
    Int × Int64 × SingleProducerSequencer :=
  let next := s.nextValue + 1
  let wrapPoint := next - n.n.toInt64
  if wrapPoint > s.cachedGating then
    let g := minGating s.gating
    let s := { s with cachedGating := g }
    if wrapPoint > g then (kFull, outSeq, s)
    else (kOk, next, { s with nextValue := next })
  else (kOk, next, { s with nextValue := next })

/-- One round of the loop of `next`: the sequence claimed, if the loop ends. -/
def nextRound (s : SingleProducerSequencer) (next : Int64) :
    Option Int64 × SingleProducerSequencer :=
  let wrapPoint := next - n.n.toInt64
  let g := minGating s.gating
  let s := { s with cachedGating := g }
  if wrapPoint ≤ g then (some next, { s with nextValue := next })
  else (none, s)

/-- `next` up to the end of the first round of its loop. -/
def next (s : SingleProducerSequencer) : Option Int64 × SingleProducerSequencer :=
  let next := s.nextValue + 1
  let wrapPoint := next - n.n.toInt64
  if wrapPoint > s.cachedGating then nextRound n s next
  else (some next, { s with nextValue := next })

def publish (s : SingleProducerSequencer) (seq : Int64) : SingleProducerSequencer :=
  { s with cursor := seq }

/-! The same checks without the cache: the gating sequence is read every time. -/

def tryNextUncached (s : SingleProducerSequencer) (outSeq : Int64) :
    Int × Int64 × SingleProducerSequencer :=
  let next := s.nextValue + 1
  if next - n.n.toInt64 > minGating s.gating then (kFull, outSeq, s)
  else (kOk, next, { s with nextValue := next })

def nextRoundUncached (s : SingleProducerSequencer) (next : Int64) :
    Option Int64 × SingleProducerSequencer :=
  if next - n.n.toInt64 ≤ minGating s.gating then (some next, { s with nextValue := next })
  else (none, s)

def nextUncached (s : SingleProducerSequencer) : Option Int64 × SingleProducerSequencer :=
  nextRoundUncached n s (s.nextValue + 1)

end SingleProducerSequencer

open SingleProducerSequencer

/-! ## The producer and the consumer -/

structure State where
  ring : SingleProducerSequencer
  /-- The local `next` of a call of `next` that is in its loop. -/
  spinning : Option Int64
  /-- What was claimed so far, in order. -/
  claimed : List Int64
deriving DecidableEq, Repr

inductive Event where
  | tryNext (outSeq : Int64)
  | next
  /-- The loop of `next` goes round once more. -/
  | spin
  | publish (seq : Int64)
  /-- The consumer sets the gating sequence. -/
  | advance (v : Int64)
deriving DecidableEq, Repr

/-- The operations that claim. -/
structure Claims where
  tryNext : SingleProducerSequencer → Int64 → Int × Int64 × SingleProducerSequencer
  next : SingleProducerSequencer → Option Int64 × SingleProducerSequencer
  nextRound : SingleProducerSequencer → Int64 → Option Int64 × SingleProducerSequencer

def cached (n : RingSize) : Claims := ⟨tryNext n, next n, nextRound n⟩

def uncached (n : RingSize) : Claims := ⟨tryNextUncached n, nextUncached n, nextRoundUncached n⟩

/-- The state after a round of `next` for the sequence `seq`: claimed, or still spinning. -/
def State.rounded (s : State) (seq : Int64) : Option Int64 × SingleProducerSequencer → State
  | (some claim, ring) => ⟨ring, none, s.claimed ++ [claim]⟩
  | (none, ring) => ⟨ring, some seq, s.claimed⟩

/-- The one producer is in at most one call; the consumer moves at any time. -/
def step (ops : Claims) (s : State) : Event → Option State
  | .tryNext outSeq =>
    if s.spinning = none then
      let (code, seq, ring) := ops.tryNext s.ring outSeq
      some { s with ring, claimed := if code = kOk then s.claimed ++ [seq] else s.claimed }
    else none
  | .next =>
    if s.spinning = none then some (s.rounded (s.ring.nextValue + 1) (ops.next s.ring))
    else none
  | .spin => s.spinning.map fun seq => s.rounded seq (ops.nextRound s.ring seq)
  | .publish seq =>
    if s.spinning = none then some { s with ring := s.ring.publish seq } else none
  | .advance v =>
    match s.ring.gating with
    | none => none
    | some g =>
      if g.value ≤ v ∧ v ≤ s.ring.nextValue then
        some { s with ring := { s.ring with gating := some { value := v } } }
      else none

/-- After `add_gating_sequence` on a new sequencer. -/
def started (gating : Sequence) : State := ⟨addGatingSequence {} gating, none, []⟩

/-! ## What a call can do -/

namespace SingleProducerSequencer
variable (n : RingSize) (s : SingleProducerSequencer)

def upcoming : Int64 := s.nextValue + 1

def wrapPoint : Int64 := s.upcoming - n.n.toInt64

/-- A copy of the consumer's progress that lets the next claim pass. -/
def Passes (c : Int64) : Prop :=
  (c = s.cachedGating ∨ c = minGating s.gating) ∧ s.wrapPoint n ≤ c

def claiming (c : Int64) : SingleProducerSequencer :=
  { s with nextValue := s.upcoming, cachedGating := c }

def refreshed : SingleProducerSequencer := { s with cachedGating := minGating s.gating }

variable {n s}

theorem tryNext_cases (outSeq : Int64) :
    (∃ c, s.Passes n c ∧ tryNext n s outSeq = (kOk, s.upcoming, s.claiming c)) ∨
      ¬s.wrapPoint n ≤ s.cachedGating ∧ ¬s.wrapPoint n ≤ minGating s.gating ∧
        tryNext n s outSeq = (kFull, outSeq, s.refreshed) := by
  unfold tryNext
  by_cases fast : s.wrapPoint n ≤ s.cachedGating
  · refine .inl ⟨s.cachedGating, ⟨.inl rfl, fast⟩, ?_⟩
    exact if_neg (Int64.not_lt.mpr fast)
  · by_cases fresh : s.wrapPoint n ≤ minGating s.gating
    · refine .inl ⟨minGating s.gating, ⟨.inr rfl, fresh⟩, ?_⟩
      exact (if_pos (Int64.not_le.mp fast)).trans (if_neg (Int64.not_lt.mpr fresh))
    · refine .inr ⟨fast, fresh, ?_⟩
      exact (if_pos (Int64.not_le.mp fast)).trans (if_pos (Int64.not_le.mp fresh))

theorem nextRound_cases :
    s.Passes n (minGating s.gating) ∧
        nextRound n s s.upcoming = (some s.upcoming, s.claiming (minGating s.gating)) ∨
      ¬s.wrapPoint n ≤ minGating s.gating ∧ nextRound n s s.upcoming = (none, s.refreshed) := by
  unfold nextRound
  by_cases fresh : s.wrapPoint n ≤ minGating s.gating
  · exact .inl ⟨⟨.inr rfl, fresh⟩, if_pos fresh⟩
  · exact .inr ⟨fresh, if_neg fresh⟩

theorem next_cases :
    (∃ c, s.Passes n c ∧ next n s = (some s.upcoming, s.claiming c)) ∨
      ¬s.wrapPoint n ≤ s.cachedGating ∧ ¬s.wrapPoint n ≤ minGating s.gating ∧
        next n s = (none, s.refreshed) := by
  unfold next
  by_cases fast : s.wrapPoint n ≤ s.cachedGating
  · exact .inl ⟨s.cachedGating, ⟨.inl rfl, fast⟩, if_neg (Int64.not_lt.mpr fast)⟩
  · have slow : s.wrapPoint n > s.cachedGating := Int64.not_le.mp fast
    rcases nextRound_cases (n := n) (s := s) with ⟨passes, round⟩ | ⟨full, round⟩
    · exact .inl ⟨_, passes, (if_pos slow).trans round⟩
    · exact .inr ⟨fast, full, (if_pos slow).trans round⟩

end SingleProducerSequencer

section Steps
variable {n : RingSize} {s s' : State}

/-- A call in its loop keeps the sequence it set out to claim. -/
def State.KeepsLocal (s : State) : Prop := ∀ seq, s.spinning = some seq → seq = s.ring.upcoming

theorem step_cases (keeps : s.KeepsLocal) {e : Event} (h : step (cached n) s e = some s') :
    (∃ c, s.ring.Passes n c ∧
      s' = ⟨s.ring.claiming c, none, s.claimed ++ [s.ring.upcoming]⟩) ∨
    (∃ spinning, (∀ seq, spinning = some seq → seq = s.ring.upcoming) ∧
      s' = ⟨s.ring.refreshed, spinning, s.claimed⟩) ∨
    (∃ seq, s' = { s with ring := s.ring.publish seq }) ∨
    ∃ g v, s.ring.gating = some g ∧ g.value ≤ v ∧ v ≤ s.ring.nextValue ∧
      s' = { s with ring := { s.ring with gating := some { value := v } } } := by
  cases e with
  | tryNext outSeq =>
    obtain ⟨idle, ⟨⟩⟩ := Option.ite_none_right_eq_some.mp h
    rcases tryNext_cases (n := n) (s := s.ring) outSeq with ⟨c, passes, call⟩ | ⟨-, -, call⟩
    · refine .inl ⟨c, passes, ?_⟩
      simp [cached, call, idle]
    · refine .inr (.inl ⟨none, by simp, ?_⟩)
      simp [cached, call, idle, kFull, kOk]
  | next =>
    obtain ⟨idle, ⟨⟩⟩ := Option.ite_none_right_eq_some.mp h
    rcases next_cases (n := n) (s := s.ring) with ⟨c, passes, call⟩ | ⟨-, -, call⟩
    · exact .inl ⟨c, passes, by simp [cached, call, State.rounded]⟩
    · refine .inr (.inl ⟨some s.ring.upcoming, by simp, ?_⟩)
      simp [cached, call, State.rounded, upcoming]
  | spin =>
    obtain ⟨seq, waiting, rfl⟩ := Option.map_eq_some_iff.mp h
    obtain rfl := keeps seq waiting
    rcases nextRound_cases (n := n) (s := s.ring) with ⟨passes, round⟩ | ⟨-, round⟩
    · exact .inl ⟨_, passes, by simp [cached, round, State.rounded]⟩
    · refine .inr (.inl ⟨some s.ring.upcoming, by simp, ?_⟩)
      simp [cached, round, State.rounded]
  | publish seq =>
    obtain ⟨-, ⟨⟩⟩ := Option.ite_none_right_eq_some.mp h
    exact .inr (.inr (.inl ⟨seq, rfl⟩))
  | advance v =>
    simp only [step] at h
    cases attached : s.ring.gating with
    | none => simp [attached] at h
    | some g =>
      simp only [attached, Option.ite_none_right_eq_some] at h
      obtain ⟨⟨forward, bounded⟩, ⟨⟩⟩ := h
      exact .inr (.inr (.inr ⟨g, v, rfl, forward, bounded, rfl⟩))

/-! ## The prediction -/

/-- The copy of the consumer's progress is not ahead of the consumer. -/
structure Predicted (s : State) : Prop where
  keeps : s.KeepsLocal
  behind : s.ring.cachedGating ≤ minGating s.ring.gating

theorem predicted_started (gating : Sequence) : Predicted (started gating) :=
  ⟨by rintro _ ⟨⟩, Int64.le_refl _⟩

theorem predicted_step {e : Event} (hs : Predicted s) (h : step (cached n) s e = some s') :
    Predicted s' := by
  rcases step_cases hs.keeps h with ⟨c, ⟨copy, -⟩, rfl⟩ | ⟨spinning, keeps, rfl⟩ | ⟨seq, rfl⟩ |
    ⟨g, v, attached, forward, -, rfl⟩
  · refine ⟨by rintro _ ⟨⟩, ?_⟩
    rcases copy with rfl | rfl
    · exact hs.behind
    · exact Int64.le_refl _
  · exact ⟨keeps, Int64.le_refl _⟩
  · exact ⟨hs.keeps, hs.behind⟩
  · have behind := hs.behind
    rw [attached] at behind
    exact ⟨hs.keeps, Int64.le_trans behind forward⟩

/-- The sequencer without its copy. -/
def SingleProducerSequencer.forget (s : SingleProducerSequencer) : SingleProducerSequencer :=
  { s with cachedGating := kInitialCursor }

def State.forget (s : State) : State := { s with ring := s.ring.forget }

/-- What passes by the copy passes by the consumer's progress. -/
theorem SingleProducerSequencer.Passes.fresh {r : SingleProducerSequencer} {c : Int64}
    (passes : r.Passes n c) (behind : r.cachedGating ≤ minGating r.gating) :
    r.wrapPoint n ≤ minGating r.gating := by
  rcases passes with ⟨rfl | rfl, le⟩
  · exact Int64.le_trans le behind
  · exact le

theorem tryNextUncached_forget {r : SingleProducerSequencer}
    (behind : r.cachedGating ≤ minGating r.gating) (outSeq : Int64) :
    tryNextUncached n r.forget outSeq =
      ((tryNext n r outSeq).1, (tryNext n r outSeq).2.1, (tryNext n r outSeq).2.2.forget) := by
  rcases tryNext_cases (n := n) (s := r) outSeq with ⟨c, passes, call⟩ | ⟨-, full, call⟩
  · rw [call]
    exact if_neg (Int64.not_lt.mpr (passes.fresh behind))
  · rw [call]
    exact if_pos (Int64.not_le.mp full)

theorem nextRoundUncached_forget {r : SingleProducerSequencer} :
    nextRoundUncached n r.forget r.upcoming =
      ((nextRound n r r.upcoming).1, (nextRound n r r.upcoming).2.forget) := by
  rcases nextRound_cases (n := n) (s := r) with ⟨passes, round⟩ | ⟨full, round⟩
  · rw [round]
    exact if_pos passes.2
  · rw [round]
    exact if_neg full

theorem nextUncached_forget {r : SingleProducerSequencer}
    (behind : r.cachedGating ≤ minGating r.gating) :
    nextUncached n r.forget = ((next n r).1, (next n r).2.forget) := by
  rcases next_cases (n := n) (s := r) with ⟨c, passes, call⟩ | ⟨-, full, call⟩
  · rw [call]
    exact if_pos (passes.fresh behind)
  · rw [call]
    exact if_neg full

theorem rounded_forget (s : State) (seq : Int64) (r : Option Int64 × SingleProducerSequencer) :
    (s.rounded seq r).forget = s.forget.rounded seq (r.1, r.2.forget) := by
  obtain ⟨_ | claim, ring⟩ := r
  · rfl
  · rfl

/-- Without the copy every step answers and claims the same. -/
theorem step_forget (hs : Predicted s) (e : Event) :
    step (uncached n) s.forget e = (step (cached n) s e).map State.forget := by
  cases e with
  | tryNext outSeq =>
    have call := tryNextUncached_forget (n := n) hs.behind outSeq
    by_cases idle : s.spinning = none
    · simp only [step, cached, uncached, State.forget, idle, if_true, Option.map_some]
      rw [call]
      rfl
    · simp [step, State.forget, idle]
  | next =>
    have call := nextUncached_forget (n := n) hs.behind
    by_cases idle : s.spinning = none
    · simp only [step, cached, uncached, idle, if_true, Option.map_some, rounded_forget]
      rw [← call]
      simp [State.forget, idle, SingleProducerSequencer.forget]
    · simp [step, State.forget, idle]
  | spin =>
    cases waiting : s.spinning with
    | none => simp [step, State.forget, waiting]
    | some seq =>
      obtain rfl := hs.keeps seq waiting
      simp only [step, cached, uncached, waiting, Option.map_some, rounded_forget]
      rw [← nextRoundUncached_forget]
      simp [State.forget, waiting]
  | publish seq =>
    by_cases idle : s.spinning = none
    · simp [step, State.forget, SingleProducerSequencer.forget, publish, idle]
    · simp [step, State.forget, idle]
  | advance v =>
    cases attached : s.ring.gating with
    | none => simp [step, State.forget, SingleProducerSequencer.forget, attached]
    | some g =>
      by_cases allowed : g.value ≤ v ∧ v ≤ s.ring.nextValue
      · simp [step, State.forget, SingleProducerSequencer.forget, attached, allowed]
      · simp [step, State.forget, SingleProducerSequencer.forget, attached, allowed]

theorem run_forget (hs : Predicted s) (es : List Event) :
    Machine.run (step (uncached n)) s.forget es =
      (Machine.run (step (cached n)) s es).map State.forget := by
  induction es generalizing s with
  | nil => rfl
  | cons e es ih =>
    rw [Machine.run_cons, Machine.run_cons, step_forget hs]
    cases moves : step (cached n) s e with
    | none => rfl
    | some t => exact ih (predicted_step hs moves)

end Steps

/-! ## The counters -/

/-- As many slots as the largest power of two that `N` can be. -/
theorem RingSize.slots_le (n : RingSize) : n.n.toNat ≤ 2 ^ 63 := by
  by_contra more
  have below := n.n.toNat_lt
  have pred : (n.n - 1).toNat = n.n.toNat - 1 := by
    refine UInt64.toNat_sub_of_le _ _ (UInt64.le_iff_toNat_le.mpr ?_)
    simp
    omega
  have both := congrArg (fun m => m.toNat.testBit 63) n.powerOfTwo
  have top : n.n.toNat.testBit 63 = true := by
    rw [Nat.testBit_eq_decide_div_mod_eq]
    simp
    omega
  have topPred : (n.n.toNat - 1).testBit 63 = true := by
    rw [Nat.testBit_eq_decide_div_mod_eq]
    simp
    omega
  simp [pred, top, topPred] at both

theorem RingSize.slots_pos (n : RingSize) : 0 < n.n.toNat := by
  apply Nat.pos_of_ne_zero
  intro zero
  exact n.positive (UInt64.toNat_inj.mp zero)

theorem RingSize.toInt_slots (n : RingSize) :
    n.n.toInt64.toInt = (n.n.toNat : Int).bmod (2 ^ 64) :=
  BitVec.toInt_eq_toNat_bmod _

section Counters
variable {n : RingSize} {r : SingleProducerSequencer}

theorem toInt_upcoming (few : r.nextValue.toInt < 2 ^ 63 - 1) :
    r.upcoming.toInt = r.nextValue.toInt + 1 := by
  have low := r.nextValue.le_toInt
  rw [upcoming, Int64.toInt_add, Int64.toInt_one]
  exact Int.bmod_eq_of_le (by omega) (by omega)

theorem toInt_wrapPoint (low : -1 ≤ r.nextValue.toInt) (few : r.nextValue.toInt < 2 ^ 63 - 1) :
    (r.wrapPoint n).toInt = r.nextValue.toInt + 1 - n.n.toNat := by
  have le := n.slots_le
  rw [wrapPoint, Int64.toInt_sub, toInt_upcoming few, n.toInt_slots, Int.sub_bmod_bmod]
  exact Int.bmod_eq_of_le (by omega) (by omega)

/-- How far the last claim is ahead of the consumer. -/
def SingleProducerSequencer.lead (r : SingleProducerSequencer) : Int :=
  r.nextValue.toInt - (minGating r.gating).toInt

theorem remainingCapacity_eq_zero (ahead : 0 ≤ r.lead) :
    remainingCapacity n r = 0 ↔ r.lead = n.n.toNat := by
  have le := n.slots_le
  have pos := n.slots_pos
  have high := r.nextValue.toInt_lt
  have low := (minGating r.gating).le_toInt
  rw [← Int64.toInt_inj, remainingCapacity, Int64.toInt_sub, Int64.toInt_sub, n.toInt_slots,
    Int.bmod_sub_bmod, Int.sub_bmod_bmod, Int64.toInt_zero, ← Int.dvd_iff_bmod_eq_zero]
  unfold lead at *
  omega

end Counters

/-! ## Every run -/

section Runs
variable {n : RingSize} {first : Sequence} {s s' : State}

/-- The consumer starts within one ring of the producer, or something was claimed already. -/
def Window (n : RingSize) (first : Sequence) (s : State) : Prop :=
  s.claimed ≠ [] ∨ -1 - n.n.toNat ≤ first.value.toInt

structure Counted (n : RingSize) (first : Sequence) (s : State) : Prop where
  gapless : s.claimed.map Int64.toInt = (List.range s.claimed.length).map Nat.cast
  last : s.ring.nextValue.toInt = s.claimed.length - 1
  ahead : 0 ≤ s.ring.lead
  lapless : Window n first s → s.ring.lead ≤ n.n.toNat

theorem counted_started (start : first.value ≤ -1) : Counted n first (started first) := by
  rw [Int64.le_iff_toInt_le] at start
  have minusOne : (-1 : Int64).toInt = -1 := by decide
  have lead : (started first).ring.lead = -1 - first.value.toInt := by
    change (-1 : Int64).toInt - _ = _
    rw [minusOne]
    rfl
  refine ⟨rfl, minusOne, ?_, ?_⟩
  · omega
  · rintro (some | near)
    · exact absurd rfl some
    · omega

theorem step_claimed (hs : Predicted s) {e : Event} (h : step (cached n) s e = some s') :
    s.claimed.length ≤ s'.claimed.length := by
  rcases step_cases hs.keeps h with ⟨c, -, rfl⟩ | ⟨spinning, -, rfl⟩ | ⟨seq, rfl⟩ |
    ⟨g, v, -, -, -, rfl⟩
  · simp
  · exact Nat.le_refl _
  · exact Nat.le_refl _
  · exact Nat.le_refl _

theorem counted_step (predicted : Predicted s) (hs : Counted n first s) {e : Event}
    (h : step (cached n) s e = some s') (few : s'.claimed.length < 2 ^ 63) :
    Counted n first s' := by
  have last := hs.last
  have ahead := hs.ahead
  unfold lead at ahead
  rcases step_cases predicted.keeps h with ⟨c, passes, rfl⟩ | ⟨spinning, -, rfl⟩ | ⟨seq, rfl⟩ |
    ⟨g, v, attached, forward, bounded, rfl⟩
  · simp only [List.length_append, List.length_singleton] at few
    have upcoming := toInt_upcoming (r := s.ring) (by omega)
    have fresh := passes.fresh predicted.behind
    rw [Int64.le_iff_toInt_le, toInt_wrapPoint (by omega) (by omega)] at fresh
    have lead : (s.ring.claiming c).lead =
        s.ring.nextValue.toInt + 1 - (minGating s.ring.gating).toInt :=
      congrArg (· - (minGating s.ring.gating).toInt) upcoming
    refine ⟨?_, ?_, ?_, fun _ => ?_⟩
    · rw [List.map_append, hs.gapless, List.length_append, List.length_singleton,
        List.range_succ, List.map_append]
      simp [upcoming, last]
    · simp only [claiming, upcoming, List.length_append, List.length_singleton]
      omega
    · simp only [lead]
      omega
    · simp only [lead]
      omega
  · exact ⟨hs.gapless, last, ahead, hs.lapless⟩
  · exact ⟨hs.gapless, last, ahead, hs.lapless⟩
  · rw [Int64.le_iff_toInt_le] at forward bounded
    have lapless := hs.lapless
    simp only [lead, attached, minGating] at lapless ahead
    refine ⟨hs.gapless, last, ?_, fun window => ?_⟩
    · simp only [lead, minGating]
      omega
    · have := lapless window
      simp only [lead, minGating]
      omega

theorem reachable_counted (start : first.value ≤ -1)
    (h : Machine.Reachable (step (cached n)) (started first) s) :
    Predicted s ∧ (s.claimed.length < 2 ^ 63 → Counted n first s) := by
  induction h with
  | start => exact ⟨predicted_started first, fun _ => counted_started start⟩
  | next r e r' _ moves ih =>
    refine ⟨predicted_step ih.1 moves, fun few => ?_⟩
    have fewer := step_claimed ih.1 moves
    exact counted_step ih.1 (ih.2 (by omega)) moves few

/-- What the producer can rely on in a state that was reached. -/
structure Sequenced (n : RingSize) (first : Sequence) (s : State) : Prop where
  gapless : s.claimed.map Int64.toInt = (List.range s.claimed.length).map Nat.cast
  last : s.ring.nextValue.toInt = s.claimed.length - 1
  behind : s.ring.cachedGating ≤ minGating s.ring.gating
  lapless : Window n first s → s.ring.lead ≤ n.n.toNat
  full : ∀ outSeq, (tryNext n s.ring outSeq).1 = kFull ↔ n.n.toNat ≤ s.ring.lead
  noCapacity : Window n first s →
    ∀ outSeq, (tryNext n s.ring outSeq).1 = kFull ↔ remainingCapacity n s.ring = 0
  refused : ∀ outSeq, (tryNext n s.ring outSeq).1 = kFull →
    (tryNext n s.ring outSeq).2.1 = outSeq ∧
      (tryNext n s.ring outSeq).2.2.nextValue = s.ring.nextValue
  sameAnswer : ∀ outSeq, tryNextUncached n s.ring.forget outSeq =
    ((tryNext n s.ring outSeq).1, (tryNext n s.ring outSeq).2.1,
      (tryNext n s.ring outSeq).2.2.forget)

theorem Counted.full_iff (hs : Counted n first s) (predicted : Predicted s)
    (few : s.claimed.length < 2 ^ 63) (outSeq : Int64) :
    (tryNext n s.ring outSeq).1 = kFull ↔ n.n.toNat ≤ s.ring.lead := by
  have last := hs.last
  have wrap := toInt_wrapPoint (n := n) (r := s.ring) (by omega) (by omega)
  rcases tryNext_cases (n := n) (s := s.ring) outSeq with ⟨c, passes, call⟩ | ⟨-, full, call⟩
  · have fresh := passes.fresh predicted.behind
    rw [Int64.le_iff_toInt_le, wrap] at fresh
    rw [call]
    refine iff_of_false (by simp [kOk, kFull]) ?_
    unfold lead
    omega
  · rw [Int64.le_iff_toInt_le, wrap] at full
    rw [call]
    refine iff_of_true rfl ?_
    unfold lead
    omega

theorem tryNext_refused {outSeq : Int64} {r : SingleProducerSequencer}
    (full : (tryNext n r outSeq).1 = kFull) :
    (tryNext n r outSeq).2.1 = outSeq ∧ (tryNext n r outSeq).2.2.nextValue = r.nextValue := by
  rcases tryNext_cases (n := n) (s := r) outSeq with ⟨c, -, call⟩ | ⟨-, -, call⟩
  · rw [call] at full
    cases full
  · rw [call]
    exact ⟨rfl, rfl⟩

/-- Whatever the calls and the consumer did, and the same run without the copy claims the same. -/
theorem sequencer_sequenced (start : first.value ≤ -1) {es : List Event}
    (run : Machine.run (step (cached n)) (started first) es = some s)
    (few : s.claimed.length < 2 ^ 63) :
    Sequenced n first s ∧
      Machine.run (step (uncached n)) (started first).forget es = some s.forget := by
  obtain ⟨predicted, counted⟩ := reachable_counted start ⟨es, run⟩
  have hs := counted few
  constructor
  · constructor
    case gapless => exact hs.gapless
    case last => exact hs.last
    case behind => exact predicted.behind
    case lapless => exact hs.lapless
    case full => exact hs.full_iff predicted few
    case noCapacity =>
      intro window outSeq
      have within := hs.lapless window
      rw [hs.full_iff predicted few, remainingCapacity_eq_zero hs.ahead]
      omega
    case refused => exact fun outSeq full => tryNext_refused full
    case sameAnswer => exact tryNextUncached_forget predicted.behind
  · rw [run_forget (predicted_started first), run]
    rfl

end Runs

def fourSlots : RingSize := ⟨4, by decide, by decide⟩

/-- The consumer takes the first of two claims before the third. -/
theorem fourSlots_sequenced : ∃ s,
    Machine.run (step (cached fourSlots)) (started {})
      [.tryNext 0, .next, .advance 0, .tryNext 7] = some s ∧ Sequenced fourSlots {} s :=
  ⟨_, rfl, (sequencer_sequenced (by decide)
    (show Machine.run (step (cached fourSlots)) (started {})
      [.tryNext 0, .next, .advance 0, .tryNext 7] = some _ from rfl) (by decide)).1⟩

/-- A gating sequence may start further behind than the ring is long. -/
theorem full_with_negative_capacity :
    ¬∀ (n : RingSize) (first : Sequence) (es : List Event) (s : State), first.value ≤ -1 →
      Machine.run (step (cached n)) (started first) es = some s → s.claimed.length < 2 ^ 63 →
        s.ring.lead ≤ n.n.toNat ∧
          ∀ outSeq, (tryNext n s.ring outSeq).1 = kFull ↔ remainingCapacity n s.ring = 0 := by
  intro claimed
  have full := (claimed fourSlots ⟨-10⟩ [] _ (by decide) rfl (by decide)).2 0
  exact absurd (full.mp (by decide)) (by decide)

end Yellowstone.Legacy
