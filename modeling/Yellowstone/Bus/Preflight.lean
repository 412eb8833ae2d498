import Yellowstone.Bus.FanOut

/-!
# The preflight of a call is sound

A partition that `can_accept` an event still can after any number of pops, and nobody but the
call under way pushes. This needs only that the counter stays within the capacity, so it
holds also after pushes that threw.
-/

set_option autoImplicit false

namespace Yellowstone

open Machine Throwing

variable {Payload : Type}

namespace Partition
variable {merger : Merger Payload} {fault : PushPoint → Option Exn} {event : Event Payload}
  {p after : Partition Payload} {outcome : Except Failure PushResult}

/-- A push finds the key, or finds no room, or inserts unless one of its points throws. -/
theorem push_cases (h : exec (push merger fault event) p = (outcome, after)) :
    after.capacity = p.capacity ∧
      ((∃ e, outcome = .error e) ∧ after.size = p.size ∨
        outcome = .ok .coalesced ∧ EventBus.holds p event = true ∧ after.size = p.size ∨
        outcome = .ok .full ∧ p.accepts event = false ∧ after.size = p.size ∨
        outcome = .ok .inserted ∧ EventBus.holds p event = false ∧ p.size < p.capacity ∧
          after.size = p.size + 1) := by
  have absent : p.index.lookup event.key = none → EventBus.holds p event = false := fun h => by
    simp [EventBus.holds, h]
  cases push_runs h with
  | lost | mergerThrew | levelThrew | appendThrew | indexThrew =>
    exact ⟨rfl, .inl ⟨⟨_, rfl⟩, rfl⟩⟩
  | merged position stored found =>
    exact ⟨rfl, .inr (.inl ⟨rfl, by simp [EventBus.holds, found], rfl⟩)⟩
  | full new no_room => exact ⟨rfl, .inr (.inr (.inl ⟨rfl, by simp [accepts, new, no_room], rfl⟩))⟩
  | inserted new room => exact ⟨rfl, .inr (.inr (.inr ⟨rfl, absent new, room, rfl⟩))⟩

theorem popLocked_some {e : Event Payload} (h : exec popLocked p = (.ok (some e), after)) :
    after.capacity = p.capacity ∧ after.size + 1 = p.size := by
  cases popLocked_runs h with
  | took _ _ _ _ _ size => exact ⟨rfl, Nat.succ_pred_eq_of_ne_zero size⟩

end Partition

/-- Each push of the call merged if the partition held the key, and inserted otherwise. -/
def BusCall.Answered (call : BusCall Payload) : Prop :=
  ∀ p ∈ call.pushes, p.2.2 = if p.2.1 then .coalesced else .inserted

namespace Traffic

def partition (c : Traffic Payload) (t : Token) : Partition Payload := (c.objects t).partition

structure Roomy (c : Traffic Payload) : Prop where
  bounded : ∀ t, (c.partition t).size ≤ (c.partition t).capacity
  accepting : ∀ f, c.publishing = some f → ∀ t ∈ f.unpushed, t ∉ f.unchecked →
    (c.partition t).accepts f.call.event = true
  answered : ∀ f, c.publishing = some f → f.call.Answered
  ended : ∀ e ∈ c.ended, e.1.Answered

variable {c c' : Traffic Payload}

/-- A call has ended, whatever the partitions have become. -/
theorem Roomy.finish (inv : Roomy c)
    (bounded : ∀ t, (c'.partition t).size ≤ (c'.partition t).capacity)
    (publishing : c'.publishing = none) {call : BusCall Payload}
    {outcome : Except Exn PublishResult} (ended : c'.ended = c.ended ++ [(call, outcome)])
    (answered : call.Answered) : Roomy c' := by
  refine ⟨bounded, ?_, ?_, ?_⟩
  · intro f hf
    cases publishing.symm.trans hf
  · intro f hf
    cases publishing.symm.trans hf
  · intro e he
    rcases List.mem_append.mp (ended ▸ he) with he | he
    · exact inv.ended e he
    · cases List.mem_singleton.mp he
      exact answered

theorem Roomy.of_same (inv : Roomy c) (partition : ∀ t, c'.partition t = c.partition t)
    (publishing : c'.publishing = c.publishing) (ended : c'.ended = c.ended) : Roomy c' := by
  refine ⟨?_, ?_, ?_, ?_⟩
  · intro t
    rw [partition]
    exact inv.bounded t
  · intro f hf t ht unchecked
    rw [partition]
    exact inv.accepting f (publishing ▸ hf) t ht unchecked
  · intro f hf
    exact inv.answered f (publishing ▸ hf)
  · intro e he
    exact inv.ended e (ended ▸ he)

end Traffic

namespace EventBus
variable {config : BusConfig Payload} {s : EventBus Payload}

theorem partition_setPartition (t u : Token) (p : Partition Payload) :
    (s.setPartition t p).traffic.partition u = if u = t then p else s.traffic.partition u := by
  by_cases same : u = t
  · subst same
    simp [Traffic.partition, traffic, setPartition]
  · simp [Traffic.partition, traffic, setPartition, same]

theorem partition_happened (t u : Token) (h : Happening Payload) :
    (s.happened t h).traffic.partition u = s.traffic.partition u := by
  by_cases same : u = t
  · subst same
    simp [Traffic.partition, traffic, happened]
  · simp [Traffic.partition, traffic, happened, same]

theorem partition_hand (t u : Token) (event : Event Payload) :
    (s.hand t event).traffic.partition u = s.traffic.partition u := by
  by_cases same : u = t
  · subst same
    simp [Traffic.partition, traffic, hand]
  · simp [Traffic.partition, traffic, hand, same]

theorem bounded_setPartition (inv : s.traffic.Roomy) {t : Token} {p : Partition Payload}
    (bounded : p.size ≤ p.capacity) (u : Token) :
    ((s.setPartition t p).traffic.partition u).size ≤
      ((s.setPartition t p).traffic.partition u).capacity := by
  rw [partition_setPartition]
  split
  · exact bounded
  · exact inv.bounded u

/-- The event fits wherever it was found to fit, so this push inserts or merges. -/
theorem push_fits (inv : s.traffic.Roomy) {f : Frame Payload} (hf : s.publishing = some f)
    (unchecked : f.unchecked = []) {t : Token} {rest : List Token}
    (unpushed : f.unpushed = t :: rest) {fault : PushPoint → Option Exn} {result : PushResult}
    {after : Partition Payload}
    (h : exec (Partition.push config.merger fault f.call.event) (s.objects t).partition =
      (.ok result, after)) :
    result = (if holds (s.objects t).partition f.call.event then .coalesced else .inserted) ∧
      after.size ≤ after.capacity := by
  have accepts := inv.accepting f hf t (by simp [unpushed]) (by simp [unchecked])
  have bounded : (s.objects t).partition.size ≤ (s.objects t).partition.capacity := inv.bounded t
  obtain ⟨capacity, ⟨⟨e, throws⟩, -⟩ | ⟨merged, held, size⟩ | ⟨-, refuses, -⟩ |
    ⟨inserted, new, room, size⟩⟩ := Partition.push_cases h
  · cases throws
  · cases merged
    exact ⟨by simp [held], by omega⟩
  · exact absurd (accepts.symm.trans refuses) nofun
  · cases inserted
    exact ⟨by simp [new], by omega⟩

theorem roomy_pushed (inv : s.traffic.Roomy) (logged : s.traffic.Logged) {f : Frame Payload}
    (hf : s.publishing = some f) (unchecked : f.unchecked = []) {t : Token} {rest : List Token}
    (unpushed : f.unpushed = t :: rest) {fault : PushPoint → Option Exn} {result : PushResult}
    {after : Partition Payload}
    (h : exec (Partition.push config.merger fault f.call.event) (s.objects t).partition =
      (.ok result, after)) :
    ((s.setPartition t after).pushed f t rest
      (holds (s.objects t).partition f.call.event) result).traffic.Roomy := by
  obtain ⟨fits, bounded⟩ := push_fits inv hf unchecked unpushed h
  have fresh := (logged.frame f hf).fresh unpushed
  let next := f.record t rest (holds (s.objects t).partition f.call.event) result
  have moved : ((s.setPartition t after).pushed f t rest
      (holds (s.objects t).partition f.call.event) result) =
      { s.setPartition t after with publishing := some next }.happened t
        (.pushed f.call.caller f.call.ticket f.call.event) := by
    cases result with
    | inserted => rfl
    | coalesced => rfl
    | full => split at fits <;> cases fits
  have partition : ∀ u, ({ s.setPartition t after with publishing := some next }.happened t
      (.pushed f.call.caller f.call.ticket f.call.event)).traffic.partition u =
        (s.setPartition t after).traffic.partition u := fun u => partition_happened t u _
  rw [moved]
  refine ⟨?_, ?_, ?_, inv.ended⟩
  · intro u
    rw [partition]
    exact bounded_setPartition inv bounded u
  · intro g hg u hu _
    cases hg
    have other : u ≠ t := fun same => fresh (same ▸ hu)
    rw [partition, partition_setPartition, if_neg other]
    exact inv.accepting f hf u (by simp [unpushed, show u ∈ rest from hu]) (by simp [unchecked])
  · intro g hg
    cases hg
    intro p hp
    rcases List.mem_append.mp hp with hp | hp
    · exact inv.answered f hf p hp
    · cases List.mem_singleton.mp hp
      exact fits

theorem roomy_effect {a : BusAction Payload} {c : Traffic Payload} (inv : s.traffic.Roomy)
    (logged : s.traffic.Logged) (effect : Effect config s a c) : c.Roomy := by
  cases effect with
  | quiet => exact inv
  | subscribed id partition free built =>
    refine ⟨?_, ?_, ?_, inv.ended⟩
    · intro t
      by_cases same : t = s.nextToken
      · subst same
        have valid := (Partition.valid_construct built).1
        simpa [Traffic.partition] using valid.bounded
      · simpa [Traffic.partition, same, traffic] using inv.bounded t
    · intro f hf
      cases free.symm.trans hf
    · intro f hf
      cases free.symm.trans hf
  | began r targets _ free nodup issued single =>
    refine ⟨inv.bounded, ?_, ?_, inv.ended⟩
    · intro f hf t ht unchecked
      cases hf
      exact absurd ht unchecked
    · intro f hf p hp
      cases hf
      cases hp
  | accepted f t rest hf unchecked answer =>
    refine ⟨inv.bounded, ?_, ?_, inv.ended⟩
    · intro g hg u hu waits
      cases hg
      by_cases same : u = t
      · exact same ▸ answer
      · apply inv.accepting f hf u hu
        rw [unchecked]
        exact List.not_mem_cons_of_ne_of_not_mem same waits
    · intro g hg
      cases hg
      exact inv.answered f hf
  | refused f t rest hf unchecked answer =>
    exact inv.finish inv.bounded rfl rfl (inv.answered f hf)
  | copyThrew f t rest e fault _ hf unchecked unpushed =>
    exact inv.finish inv.bounded rfl rfl (inv.answered f hf)
  | pushReturned f t rest fault result after _ hf unchecked unpushed h =>
    exact roomy_pushed inv logged hf unchecked unpushed h
  | pushThrew f t rest fault e after _ hf unchecked unpushed h =>
    refine inv.finish (bounded_setPartition inv ?_) rfl rfl (inv.answered f hf)
    have before : (s.objects t).partition.size ≤ (s.objects t).partition.capacity := inv.bounded t
    obtain ⟨capacity, ⟨-, size⟩ | ⟨returns, -⟩ | ⟨returns, -⟩ | ⟨returns, -⟩⟩ :=
      Partition.push_cases h
    · omega
    all_goals cases returns
  | returned f hf unchecked unpushed => exact inv.finish inv.bounded rfl rfl (inv.answered f hf)
  | popped id t event after _ pops =>
    obtain ⟨capacity, size⟩ := Partition.popLocked_some pops
    have before : (s.objects t).partition.size ≤ (s.objects t).partition.capacity := inv.bounded t
    have partition : ∀ u,
        ((s.setPartition t after).happened t (.popped event)).traffic.partition u =
        if u = t then after else s.traffic.partition u := fun u =>
      (partition_happened t u _).trans (partition_setPartition t u after)
    refine ⟨?_, ?_, inv.answered, inv.ended⟩
    · intro u
      rw [partition]
      split
      · omega
      · exact inv.bounded u
    · intro f hf u hu unchecked
      rw [partition]
      split
      · -- room has been made
        have room : after.size < after.capacity := by omega
        simp [Partition.accepts, room]
      · exact inv.accepting f hf u hu unchecked
  | handed id t event _ => exact inv.of_same (fun u => partition_hand t u event) rfl rfl

theorem roomy_reachable (reached : Reachable (step config) (initial config) s) :
    s.traffic.Roomy := by
  induction reached with
  | start => exact ⟨fun _ => le_rfl, nofun, nofun, nofun⟩
  | next r a r' reached moves inv =>
    exact roomy_effect inv (logged_reachable reached)
      (step_effect (seated_reachable reached) moves)

end EventBus

namespace BusCall
variable {call : BusCall Payload}

theorem Answered.fits (h : call.Answered) : ∀ p ∈ call.pushes, p.2.2 ≠ .full := by
  intro p hp full
  have answer := h p hp
  rw [full] at answer
  split at answer <;> cases answer

theorem Answered.applied (h : call.Answered) : call.applied = call.pushes.map Prod.fst :=
  congrArg (List.map Prod.fst) (List.filter_eq_self.mpr fun p hp => decide_eq_true (h.fits p hp))

theorem foldl_tally {pushes : List (Token × Bool × PushResult)}
    (answered : ∀ p ∈ pushes, p.2.2 = if p.2.1 then .coalesced else .inserted)
    (result : PublishResult) : pushes.foldl (fun result p => result.tally p.2.2) result =
      ⟨result.delivered + pushes.length,
        result.coalesced + (pushes.filter fun p => p.2.1).length⟩ := by
  induction pushes generalizing result with
  | nil => rfl
  | cons p pushes ih =>
    rw [List.foldl_cons, ih fun q hq => answered q (List.mem_cons_of_mem _ hq),
      answered p List.mem_cons_self]
    cases held : p.2.1 <;> simp [PublishResult.tally, held] <;> omega

theorem Answered.tallied (h : call.Answered) :
    call.tallied = ⟨call.pushes.length, call.held.length⟩ := by
  simpa [BusCall.tallied, held] using foldl_tally h ⟨0, 0⟩

theorem Preflighted.not_refused (h : call.Preflighted) (t : Token) : (t, false) ∉ call.checks := by
  rw [h]
  simp

end BusCall

namespace EventBus
variable {config : BusConfig Payload} {s : EventBus Payload}

/-- What the preflight of a call is worth if none of its copies and pushes threw. -/
structure PreflightSound (s : EventBus Payload) (call : BusCall Payload)
    (outcome : Except Exn PublishResult) : Prop where
  targeted : call.target ≠ none → call.targets.length = 1
  delivers : call.Preflighted → (∀ p ∈ call.pushes, p.2.2 ≠ .full) ∧
    (∀ t, s.traffic.applied t call.ticket = if t ∈ call.targets then 1 else 0) ∧
    outcome = .ok ⟨call.targets.length, call.held.length⟩
  refuses : (∃ t, (t, false) ∈ call.checks) → call.pushes = [] ∧
    (∀ t, s.traffic.applied t call.ticket = 0) ∧
    outcome = .error (.overflowError (overflowText call.target))

theorem sound_of_ending {call : BusCall Payload} {outcome : Except Exn PublishResult}
    (applied : s.traffic.Applied call) (answered : call.Answered)
    (ending : call.Ending outcome) (normal : call.threw = false) :
    PreflightSound s call outcome := by
  refine ⟨applied.single, fun preflighted => ⟨answered.fits, ?_⟩, ?_⟩
  · cases ending with
    | refused passed t rest _ _ checks _ =>
      exact absurd (checks ▸ by simp) (preflighted.not_refused t)
    | interrupted t rest e threw => cases normal.symm.trans threw
    | full t held e _ _ full => exact absurd rfl (answered.fits _ full)
    | returned _ _ targets =>
      have all : call.applied = call.targets := answered.applied.trans targets.symm
      refine ⟨fun t => all ▸ applied.counted t, ?_⟩
      rw [answered.tallied, targets, List.length_map]
  · rintro ⟨u, refused⟩
    cases ending with
    | refused passed t rest _ _ _ pushes =>
      have none : call.applied = [] := by simp [BusCall.applied, pushes]
      exact ⟨pushes, fun t => (applied.counted t).trans (by simp [none]), rfl⟩
    | interrupted t rest e threw => cases normal.symm.trans threw
    | full t held e _ preflighted => exact absurd refused (preflighted.not_refused u)
    | returned _ preflighted => exact absurd refused (preflighted.not_refused u)

/-- No push of a call answers `full`, and each call that ended kept what its preflight
promised, unless one of its own copies or pushes threw. -/
theorem preflight_sound (reached : Reachable (step config) (initial config) s) :
    (∀ f, s.publishing = some f → ∀ p ∈ f.call.pushes, p.2.2 ≠ .full) ∧
      ∀ call outcome, (call, outcome) ∈ s.ended → call.threw = false →
        PreflightSound s call outcome := by
  have roomy := roomy_reachable reached
  have logged := logged_reachable reached
  refine ⟨fun f hf => (roomy.answered f hf).fits, ?_⟩
  intro call outcome he normal
  obtain ⟨applied, ending⟩ := logged.ended _ he
  exact sound_of_ending applied (roomy.ended _ he) ending normal

def publishAll (pushes : Nat) (r : PublishRequest Payload) : List (BusAction Payload) :=
  [.publish r] ++ List.replicate pushes .check ++
    List.replicate pushes (.push none fun _ => none) ++ [.publishReturn]

def sampleConfig : BusConfig Nat := ⟨2, 1, .ofFun (· + ·), by decide⟩

/-- An insertion, a coalescing one, and a call for which the partitions are full. -/
def sampleLabels : List (BusAction Nat) :=
  [.subscribe true, .subscribe true] ++ publishAll 2 ⟨none, none, 7, 70, 0⟩ ++
    publishAll 2 ⟨none, none, 7, 5, 0⟩ ++ [.publish ⟨none, none, 8, 80, 0⟩, .check]

def sampleBus : EventBus Nat :=
  (run (step sampleConfig) (initial sampleConfig) sampleLabels).getD (initial sampleConfig)

theorem sampleBus_sound :
    PreflightSound sampleBus
      ⟨none, 1, none, ⟨7, 0, 1, 5⟩, [0, 1], [(0, true), (1, true)],
        [(0, true, .coalesced), (1, true, .coalesced)], ⟨2, 2⟩, false⟩ (.ok ⟨2, 2⟩) ∧
      PreflightSound sampleBus
        ⟨none, 2, none, ⟨8, 0, 2, 80⟩, [0, 1], [(0, false)], [], ⟨0, 0⟩, false⟩
        (.error (.overflowError "one or more subscriber partitions are full")) := by
  have reached : Reachable (step sampleConfig) (initial sampleConfig) sampleBus :=
    ⟨sampleLabels, rfl⟩
  have ended := (preflight_sound reached).2
  exact ⟨ended _ _ (by decide +kernel) rfl, ended _ _ (by decide +kernel) rfl⟩

end EventBus

end Yellowstone
