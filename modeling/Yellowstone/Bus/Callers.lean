import Yellowstone.Bus.Preflight

/-!
# Whose payload a partition got

A call pushes under the name of its caller, and only the call under way pushes. So what a
caller has put into a partition is what its calls have, and a call that a full partition
refused has put nothing anywhere.
-/

set_option autoImplicit false

namespace Yellowstone

open Machine Throwing

variable {Payload : Type}

/-- A push that was part of a call of this caller. -/
def Happening.isPushBy (caller : Nat) : Happening Payload → Bool
  | .pushed c _ _ => c = some caller
  | .popped _ => false

/-- How often the calls of a caller have inserted into or merged into the partition. -/
def Subscriber.appliedBy (o : Subscriber Payload) (caller : Nat) : Nat :=
  o.history.countP (Happening.isPushBy caller)

def Traffic.appliedBy (c : Traffic Payload) (t : Token) (caller : Nat) : Nat :=
  (c.objects t).appliedBy caller

/-- No push of any caller has been added. -/
def Traffic.SamePushes (c c' : Traffic Payload) : Prop :=
  ∀ u caller, c'.appliedBy u caller = c.appliedBy u caller

/-- What one step adds to a history: pops, and pushes of the call under way. -/
def Frame.Adds (f : Frame Payload) (before after : Subscriber Payload) : Prop :=
  ∃ new, after.history = before.history ++ new ∧
    ∀ h ∈ new, h = .pushed f.call.caller f.call.ticket f.call.event ∨ ∃ event, h = .popped event

namespace Frame.Adds
variable {f : Frame Payload} {o o' : Subscriber Payload}

theorem of_same (h : o'.history = o.history) : f.Adds o o' := ⟨[], by simp [h], nofun⟩

theorem appliedBy_other (h : f.Adds o o') {caller : Nat} (other : f.call.caller ≠ some caller) :
    o'.appliedBy caller = o.appliedBy caller := by
  obtain ⟨new, history, only⟩ := h
  have none : new.countP (Happening.isPushBy caller) = 0 := by
    apply List.countP_eq_zero.mpr
    intro x hx
    rcases only x hx with rfl | ⟨event, rfl⟩
    · simpa [Happening.isPushBy] using other
    · simp [Happening.isPushBy]
  simp [Subscriber.appliedBy, history, none]

/-- The pushes under the caller's name are those of the call. -/
theorem appliedBy_own (h : f.Adds o o') {caller : Nat} (own : f.call.caller = some caller)
    (only : o.appliedBy caller = o.applied f.call.ticket) :
    o'.appliedBy caller = o'.applied f.call.ticket := by
  obtain ⟨new, history, adds⟩ := h
  have same : new.countP (Happening.isPushBy caller) =
      new.countP (Happening.isPushOf f.call.ticket) := by
    apply List.countP_congr
    intro x hx
    rcases adds x hx with rfl | ⟨event, rfl⟩
    · simp [Happening.isPushBy, Happening.isPushOf, own]
    · simp [Happening.isPushBy, Happening.isPushOf]
  rw [Subscriber.appliedBy, Subscriber.applied] at only
  simp [Subscriber.appliedBy, Subscriber.applied, history, only, same]

end Frame.Adds

namespace Partition

theorem push_throws {merger : Merger Payload} {fault : PushPoint → Option Exn}
    {event : Event Payload} {p after : Partition Payload} {e : Exn}
    (h : exec (push merger fault event) p = (.error (.thrown e), after)) :
    (∃ point, fault point = some e) ∨ ∃ current incoming, (merger current incoming).2 = some e := by
  cases push_runs h with
  | mergerThrew position stored e _ _ throws => exact .inr ⟨_, _, throws⟩
  | levelThrew e _ _ throws => exact .inl ⟨.level, throws⟩
  | appendThrew e _ _ throws => exact .inl ⟨.append, throws⟩
  | indexThrew e _ _ throws => exact .inl ⟨.index, throws⟩

end Partition

namespace EventBus
variable {config : BusConfig Payload} {s : EventBus Payload} {a : BusAction Payload}
  {c : Traffic Payload}

/-- The label or the merger makes a push throw this. -/
def CanThrow (config : BusConfig Payload) (a : BusAction Payload) (e : Exn) : Prop :=
  (∃ current incoming, (config.merger current incoming).2 = some e) ∨
    ∃ copy fault, a = .push copy fault ∧ (copy = some e ∨ ∃ point, fault point = some e)

theorem history_setPartition (t u : Token) (p : Partition Payload) :
    ((s.setPartition t p).objects u).history = (s.objects u).history := by
  by_cases same : u = t
  · subst same
    simp [setPartition]
  · simp [setPartition, same]

theorem history_happened (t u : Token) (h : Happening Payload) :
    ((s.happened t h).objects u).history =
      (s.objects u).history ++ if u = t then [h] else [] := by
  by_cases same : u = t
  · subst same
    simp [happened]
  · simp [happened, same]

theorem history_hand (t u : Token) (event : Event Payload) :
    ((s.hand t event).objects u).history = (s.objects u).history := by
  by_cases same : u = t
  · subst same
    simp [hand]
  · simp [hand, same]

theorem adds_happened (f : Frame Payload) {h : Happening Payload}
    (mine : h = .pushed f.call.caller f.call.ticket f.call.event ∨ ∃ event, h = .popped event)
    (t u : Token) : f.Adds (s.objects u) ((s.happened t h).objects u) := by
  refine ⟨_, history_happened t u h, ?_⟩
  intro x hx
  split at hx
  · exact List.mem_singleton.mp hx ▸ mine
  · cases hx

theorem adds_pushed (f : Frame Payload) (t : Token) (rest : List Token) (held : Bool)
    (result : PushResult) (u : Token) :
    f.Adds (s.objects u) ((s.pushed f t rest held result).objects u) := by
  unfold pushed
  cases result with
  | full => cases f.call.target <;> exact .of_same rfl
  | _ =>
    exact adds_happened (s := { s with publishing := some (f.record t rest held _) }) f (.inl rfl)
      t u

theorem effect_adds (effect : Effect config s a c) {f : Frame Payload}
    (hf : s.publishing = some f) (u : Token) : f.Adds (s.objects u) (c.objects u) := by
  cases effect with
  | quiet | accepted | refused | copyThrew | returned => exact .of_same rfl
  | subscribed _ _ free => cases free.symm.trans hf
  | began _ _ _ free => cases free.symm.trans hf
  | pushReturned g t rest fault result after _ hg =>
    cases hg.symm.trans hf
    obtain ⟨new, history, only⟩ := adds_pushed (s := s.setPartition t after) f t rest
      (holds (s.objects t).partition f.call.event) result u
    exact ⟨new, history.trans (by rw [history_setPartition]), only⟩
  | pushThrew g t rest fault e after => exact .of_same (history_setPartition t u after)
  | popped id t event after =>
    obtain ⟨new, history, only⟩ := adds_happened (s := s.setPartition t after) f
      (.inr ⟨event, rfl⟩) t u
    exact ⟨new, history.trans (by rw [history_setPartition]), only⟩
  | handed id t event => exact .of_same (history_hand t u event)

theorem samePushes_of_history (h : ∀ u, (c.objects u).history = (s.objects u).history) :
    s.traffic.SamePushes c := by
  intro u caller
  exact congrArg (List.countP (Happening.isPushBy caller)) (h u)

theorem samePushes_popped (t : Token) (event : Event Payload) (after : Partition Payload) :
    s.traffic.SamePushes ((s.setPartition t after).happened t (.popped event)).traffic := by
  intro u caller
  have history := history_happened (s := s.setPartition t after) t u (.popped event)
  rw [history_setPartition] at history
  refine (congrArg (List.countP (Happening.isPushBy caller)) history).trans ?_
  rw [List.countP_append]
  split <;> simp [Happening.isPushBy, Traffic.appliedBy, Subscriber.appliedBy, traffic]

/-- While no call is under way nothing is pushed. -/
theorem effect_idle (effect : Effect config s a c) (free : s.publishing = none) (u : Token)
    (caller : Nat) : c.appliedBy u caller ≤ s.traffic.appliedBy u caller := by
  cases effect with
  | quiet | began => exact le_rfl
  | subscribed id partition =>
    by_cases new : u = s.nextToken
    · subst new
      simp [Traffic.appliedBy, Subscriber.appliedBy]
    · simp [Traffic.appliedBy, traffic, new]
  | popped id t event after => exact (samePushes_popped t event after u caller).le
  | handed id t event =>
    exact (samePushes_of_history (fun v => history_hand t v event) u caller).le
  | accepted f t rest hf | refused f t rest hf | returned f hf => cases free.symm.trans hf
  | copyThrew f t rest e fault _ hf => cases free.symm.trans hf
  | pushReturned f t rest fault result after _ hf => cases free.symm.trans hf
  | pushThrew f t rest fault e after _ hf => cases free.symm.trans hf

/-- A call that has just begun has the caller of its request. -/
theorem effect_begins (effect : Effect config s a c) (free : s.publishing = none)
    {f : Frame Payload} (hf : c.publishing = some f) :
    ∃ r, a = .publish r ∧ f.call.caller = r.caller := by
  cases effect with
  | began r targets label =>
    cases hf
    exact ⟨r, label, rfl⟩
  | quiet | subscribed | popped | handed => cases free.symm.trans hf
  | accepted g t rest hg | refused g t rest hg | returned g hg => cases free.symm.trans hg
  | copyThrew g t rest e fault _ hg => cases free.symm.trans hg
  | pushReturned g t rest fault result after _ hg => cases free.symm.trans hg
  | pushThrew g t rest fault e after _ hg => cases free.symm.trans hg

/-- The call under way goes on, or ends. -/
theorem effect_follows (effect : Effect config s a c) {f : Frame Payload}
    (hf : s.publishing = some f) :
    (∃ f', c.publishing = some f' ∧ f'.call.caller = f.call.caller ∧
      f'.call.ticket = f.call.ticket) ∨
    (c.publishing = none ∧ ∃ call outcome, c.ended = s.ended ++ [(call, outcome)] ∧
      call.ticket = f.call.ticket) := by
  cases effect with
  | quiet | popped | handed => exact .inl ⟨f, hf, rfl, rfl⟩
  | subscribed _ _ free => cases free.symm.trans hf
  | began _ _ _ free => cases free.symm.trans hf
  | accepted g t rest hg =>
    cases hg.symm.trans hf
    exact .inl ⟨_, rfl, rfl, rfl⟩
  | refused g t rest hg =>
    cases hg.symm.trans hf
    exact .inr ⟨rfl, _, _, rfl, rfl⟩
  | copyThrew g t rest e fault label hg =>
    cases hg.symm.trans hf
    exact .inr ⟨rfl, _, _, rfl, rfl⟩
  | pushReturned g t rest fault result after _ hg =>
    cases hg.symm.trans hf
    cases result with
    | full =>
      cases ht : f.call.target with
      | none =>
        simp only [EventBus.pushed, ht]
        exact .inr ⟨rfl, _, _, rfl, rfl⟩
      | some id =>
        simp only [EventBus.pushed, ht]
        exact .inl ⟨_, rfl, rfl, rfl⟩
    | _ => exact .inl ⟨_, rfl, rfl, rfl⟩
  | pushThrew g t rest fault e after label hg =>
    cases hg.symm.trans hf
    exact .inr ⟨rfl, _, _, rfl, rfl⟩
  | returned g hg =>
    cases hg.symm.trans hf
    exact .inr ⟨rfl, _, _, rfl, rfl⟩

theorem mem_ended {call call' : BusCall Payload} {outcome outcome' : Except Exn PublishResult}
    (h : (call, outcome) ∈ (s.finish call' outcome').ended) :
    (call, outcome) ∈ s.ended ∨ call = call' ∧ outcome = outcome' :=
  (List.mem_append.mp h).imp_right fun last => Prod.ext_iff.mp (List.mem_singleton.mp last)

/-- A call that was broken off ended with what the step could throw. -/
theorem effect_threw (effect : Effect config s a c)
    (normal : ∀ f, s.publishing = some f → f.call.threw = false) {call : BusCall Payload}
    {e : Exn} (ended : (call, .error e) ∈ c.ended) (threw : call.threw = true) :
    (call, .error e) ∈ s.ended ∨ CanThrow config a e := by
  cases effect with
  | quiet | subscribed | began | accepted | popped | handed => exact .inl ended
  | refused f t rest hf =>
    refine (mem_ended ended).imp_right fun ⟨last, _⟩ => ?_
    cases (normal f hf).symm.trans (last ▸ threw)
  | copyThrew f t rest e' fault label =>
    refine (mem_ended ended).imp_right fun ⟨_, same⟩ => ?_
    cases same
    exact .inr ⟨_, fault, label, .inl rfl⟩
  | pushReturned f t rest fault result after _ hf =>
    have logged : (f.record t rest (holds (s.objects t).partition f.call.event) result).call.threw =
        false := normal f hf
    cases result with
    | full =>
      cases target : f.call.target with
      | none =>
        simp only [EventBus.pushed, target] at ended
        refine (mem_ended (s := s.setPartition t after) ended).imp_right fun ⟨last, _⟩ => ?_
        cases logged.symm.trans (last ▸ threw)
      | some id =>
        simp only [EventBus.pushed, target] at ended
        exact .inl ended
    | _ => exact .inl ended
  | pushThrew f t rest fault e' after label _ _ _ h =>
    refine (mem_ended (s := s.setPartition t after) ended).imp_right fun ⟨_, same⟩ => ?_
    cases same
    rcases Partition.push_throws h with throws | throws
    · exact .inr ⟨none, fault, label, .inr throws⟩
    · exact .inl throws
  | returned f hf =>
    refine (mem_ended ended).imp_right fun ⟨_, same⟩ => ?_
    cases same

/-- One step of the bus while a call is under way: only a push adds to a partition, it adds to
the next target only, and a call that has no target left can only return. -/
inductive Advances (f : Frame Payload) (c c' : Traffic Payload) : Prop
  | goes (f' : Frame Payload) : c'.publishing = some f' → f'.unpushed = f.unpushed →
    (f.unchecked = [] → f'.unchecked = []) → c.SamePushes c' → Advances f c c'
  | pushes (f' : Frame Payload) (t : Token) (rest : List Token) : c'.publishing = some f' →
    f.unpushed = t :: rest → f'.unchecked = [] → f'.unpushed = rest →
    (∀ u caller, u ≠ t → c'.appliedBy u caller = c.appliedBy u caller) → Advances f c c'
  | fails (call : BusCall Payload) (e : Exn) : f.unchecked ≠ [] ∨ f.unpushed ≠ [] →
    c'.publishing = none → c'.ended = c.ended ++ [(call, .error e)] → c.SamePushes c' →
    Advances f c c'
  | returns (call : BusCall Payload) (result : PublishResult) : c'.publishing = none →
    c'.ended = c.ended ++ [(call, .ok result)] → c.SamePushes c' → Advances f c c'

theorem history_pushed (f : Frame Payload) (t u : Token) (rest : List Token) (held : Bool)
    (result : PushResult) (other : u ≠ t) :
    ((s.pushed f t rest held result).objects u).history = (s.objects u).history := by
  unfold pushed
  cases result with
  | full => cases f.call.target <;> rfl
  | _ =>
    dsimp only
    rw [history_happened]
    simp [other]

theorem advances_pushed {f : Frame Payload} {t : Token} {rest : List Token}
    (unchecked : f.unchecked = []) (unpushed : f.unpushed = t :: rest) (after : Partition Payload)
    (held : Bool) (result : PushResult) :
    Advances f s.traffic ((s.setPartition t after).pushed f t rest held result).traffic := by
  have others : ∀ u caller, u ≠ t →
      ((s.setPartition t after).pushed f t rest held result).traffic.appliedBy u caller =
        s.traffic.appliedBy u caller := by
    intro u caller other
    have history := history_pushed (s := s.setPartition t after) f t u rest held result other
    rw [history_setPartition] at history
    exact congrArg (List.countP (Happening.isPushBy caller)) history
  cases result with
  | inserted =>
    exact .pushes (f.record t rest held .inserted) t rest rfl unpushed unchecked rfl others
  | coalesced =>
    exact .pushes (f.record t rest held .coalesced) t rest rfl unpushed unchecked rfl others
  | full =>
    cases target : f.call.target with
    | none =>
      simp only [EventBus.pushed, target]
      refine .fails _ _ (.inr (by simp [unpushed])) rfl rfl (samePushes_of_history ?_)
      exact fun u => history_setPartition t u after
    | some id =>
      simp only [EventBus.pushed, target] at others ⊢
      exact .pushes (f.record t rest held .full) t rest rfl unpushed unchecked rfl others

theorem effect_advances (effect : Effect config s a c) {f : Frame Payload}
    (hf : s.publishing = some f) : Advances f s.traffic c := by
  cases effect with
  | quiet => exact .goes f hf rfl id fun _ _ => rfl
  | popped id t event after =>
    exact .goes f hf rfl (fun none => none) (samePushes_popped t event after)
  | handed id t event =>
    exact .goes f hf rfl (fun none => none)
      (samePushes_of_history fun u => history_hand t u event)
  | subscribed _ _ free => cases free.symm.trans hf
  | began _ _ _ free => cases free.symm.trans hf
  | accepted g t rest hg unchecked =>
    cases hg.symm.trans hf
    exact .goes _ rfl rfl (fun none => by simp [unchecked] at none) fun _ _ => rfl
  | refused g t rest hg unchecked =>
    cases hg.symm.trans hf
    exact .fails _ _ (.inl (by simp [unchecked])) rfl rfl fun _ _ => rfl
  | copyThrew g t rest e fault _ hg _ unpushed =>
    cases hg.symm.trans hf
    exact .fails _ _ (.inr (by simp [unpushed])) rfl rfl fun _ _ => rfl
  | pushReturned g t rest fault result after _ hg unchecked unpushed =>
    cases hg.symm.trans hf
    exact advances_pushed unchecked unpushed after _ result
  | pushThrew g t rest fault e after _ hg _ unpushed =>
    cases hg.symm.trans hf
    refine .fails _ _ (.inr (by simp [unpushed])) rfl rfl (samePushes_of_history ?_)
    exact fun u => history_setPartition t u after
  | returned g hg =>
    cases hg.symm.trans hf
    exact .returns _ _ rfl rfl fun _ _ => rfl

/-! ## Calls that failed -/

/-- A full partition refuses the call before any partition has got it; when a copy or a push
throws, the pushes for the targets before that one have returned, and no other. -/
structure FailedCall (s : EventBus Payload) (call : BusCall Payload) (e : Exn) : Prop where
  refused : call.threw = false → e = .overflowError (overflowText call.target) ∧
    call.pushes = [] ∧ ∀ t, s.traffic.applied t call.ticket = 0
  interrupted : call.threw = true → ∃ done t rest, call.targets = done ++ t :: rest ∧
    call.pushes.map Prod.fst = done ∧
    ∀ u, s.traffic.applied u call.ticket = if u ∈ done then 1 else 0

theorem failed_of_ending {call : BusCall Payload} {e : Exn} (applied : s.traffic.Applied call)
    (answered : call.Answered) (ending : call.Ending (.error e)) : FailedCall s call e := by
  cases ending with
  | refused passed t rest normal _ _ pushes =>
    refine ⟨fun _ => ⟨rfl, pushes, ?_⟩, fun threw => nomatch normal.symm.trans threw⟩
    intro u
    exact (applied.counted u).trans (by simp [BusCall.applied, pushes])
  | interrupted t rest e threw _ targets =>
    refine ⟨fun normal => (nomatch normal.symm.trans threw), fun _ => ⟨_, t, rest, targets, rfl,
      ?_⟩⟩
    intro u
    rw [applied.counted, answered.applied]
  | full t held e _ _ full => exact absurd rfl (answered.fits _ full)

theorem failed_reachable (reached : Reachable (step config) (initial config) s)
    {call : BusCall Payload} {e : Exn} (ended : (call, .error e) ∈ s.ended) :
    FailedCall s call e := by
  obtain ⟨applied, ending⟩ := (logged_reachable reached).ended _ ended
  exact failed_of_ending applied ((roomy_reachable reached).ended _ ended) ending

/-- A push of a call concerns its next target, whether it returns or throws. -/
theorem push_others {s' : EventBus Payload} {f : Frame Payload} {copy : Option Exn}
    {fault : PushPoint → Option Exn} (h : s.push config f copy fault = some s') :
    ∃ t rest, f.unpushed = t :: rest ∧ ∀ u, u ≠ t → s'.objects u = s.objects u := by
  unfold push at h
  split at h
  · rename_i t rest _ unpushed
    refine ⟨t, rest, unpushed, fun u other => ?_⟩
    split at h
    · cases h
      rfl
    · dsimp only at h
      split at h
      · cases h
        unfold pushed
        split
        · simp [happened, setPartition, other]
        · simp [happened, setPartition, other]
        · split <;> simp [finish, setPartition, other]
      · cases h
        simp [finish, setPartition, other]
      · cases h
  · cases h

end EventBus

end Yellowstone
