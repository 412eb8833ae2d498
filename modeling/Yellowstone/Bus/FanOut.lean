import Yellowstone.Bus.EventBusTraffic

/-!
# What a call did to each partition

The log of a call against the histories of the subscriber objects: a call appears once in the
history of each object it has inserted into or merged into, and nowhere else, and its two
loops have gone through its targets in order. This holds whatever throws.
-/

set_option autoImplicit false

namespace Yellowstone

open Machine Throwing

variable {Payload : Type}

/-- A push that was part of the call with this ticket. -/
def Happening.isPushOf (ticket : Nat) : Happening Payload → Bool
  | .pushed _ k _ => k = ticket
  | .popped _ => false

/-- How often a call has inserted into or merged into the partition. -/
def Subscriber.applied (o : Subscriber Payload) (ticket : Nat) : Nat :=
  o.history.countP (Happening.isPushOf ticket)

namespace BusCall

def fits (push : Token × Bool × PushResult) : Bool := push.2.2 ≠ .full

/-- The targets whose push inserted or merged. -/
def applied (call : BusCall Payload) : List Token := (call.pushes.filter fits).map Prod.fst

def held (call : BusCall Payload) : List Token := (call.pushes.filter fun p => p.2.1).map Prod.fst

def tallied (call : BusCall Payload) : PublishResult :=
  call.pushes.foldl (fun result p => result.tally p.2.2) ⟨0, 0⟩

/-- Every `can_accept` of the call has answered true. -/
def Preflighted (call : BusCall Payload) : Prop :=
  call.checks = call.targets.map fun t => (t, true)

/-- The ways in which a call that has drawn its sequence can end. -/
inductive Ending : BusCall Payload → Except Exn PublishResult → Prop
  | refused (call : BusCall Payload) (passed : List Token) (t : Token) (rest : List Token) :
    call.threw = false → call.targets = passed ++ t :: rest →
    call.checks = passed.map (·, true) ++ [(t, false)] → call.pushes = [] →
    Ending call (.error (.overflowError (EventBus.overflowText call.target)))
  | interrupted (call : BusCall Payload) (t : Token) (rest : List Token) (e : Exn) :
    call.threw = true → call.Preflighted →
    call.targets = call.pushes.map Prod.fst ++ t :: rest → Ending call (.error e)
  | full (call : BusCall Payload) (t : Token) (held : Bool) (e : Exn) :
    call.threw = false → call.Preflighted → (t, held, .full) ∈ call.pushes →
    Ending call (.error e)
  | returned (call : BusCall Payload) : call.threw = false → call.Preflighted →
    call.targets = call.pushes.map Prod.fst → Ending call (.ok call.tallied)

theorem applied_sublist (call : BusCall Payload) :
    call.applied.Sublist (call.pushes.map Prod.fst) :=
  (List.filter_sublist).map Prod.fst

end BusCall

namespace Traffic

def applied (c : Traffic Payload) (t : Token) (ticket : Nat) : Nat := (c.objects t).applied ticket

/-- The call appears once in the history of each target it was applied to. -/
structure Applied (c : Traffic Payload) (call : BusCall Payload) : Prop where
  nodup : call.targets.Nodup
  issued : ∀ t ∈ call.targets, t < c.nextToken
  single : call.target ≠ none → call.targets.length = 1
  within : ∃ rest, call.targets = call.pushes.map Prod.fst ++ rest
  counted : ∀ t, c.applied t call.ticket = if t ∈ call.applied then 1 else 0

structure FrameLogged (c : Traffic Payload) (f : Frame Payload) : Prop where
  latest : f.call.ticket + 1 = c.tickets
  checked : f.call.targets.map (·, true) = f.call.checks ++ f.unchecked.map (·, true)
  pushed : f.call.targets = f.call.pushes.map Prod.fst ++ f.unpushed
  waiting : f.unchecked ≠ [] → f.call.pushes = []
  result : f.call.result = f.call.tallied
  normal : f.call.threw = false
  applied : c.Applied f.call

structure Logged (c : Traffic Payload) : Prop where
  fresh : ∀ t k, c.tickets ≤ k → c.applied t k = 0
  unborn : ∀ t k, c.nextToken ≤ t → c.applied t k = 0
  frame : ∀ f, c.publishing = some f → c.FrameLogged f
  older : ∀ e ∈ c.ended, e.1.ticket < c.tickets ∧
    ∀ f, c.publishing = some f → e.1.ticket < f.call.ticket
  ended : ∀ e ∈ c.ended, c.Applied e.1 ∧ BusCall.Ending e.1 e.2

variable {c c' : Traffic Payload}

theorem FrameLogged.preflighted {f : Frame Payload} (h : c.FrameLogged f)
    (unchecked : f.unchecked = []) : f.call.Preflighted := by
  have checked := h.checked
  rw [unchecked] at checked
  exact (checked.trans (List.append_nil _)).symm

/-- No target is pushed twice. -/
theorem FrameLogged.fresh {f : Frame Payload} (h : c.FrameLogged f) {t : Token}
    {rest : List Token} (unpushed : f.unpushed = t :: rest) : t ∉ rest := by
  have nodup := h.applied.nodup
  rw [h.pushed, unpushed] at nodup
  exact (List.nodup_cons.mp (List.nodup_append.mp nodup).2.1).1

theorem Applied.not_mem {call : BusCall Payload} (h : c.Applied call) {t : Token}
    (unborn : c.nextToken ≤ t) : t ∉ call.applied := by
  intro applied
  obtain ⟨rest, targets⟩ := h.within
  have target : t ∈ call.targets :=
    targets ▸ List.mem_append_left _ (call.applied_sublist.subset applied)
  exact absurd (h.issued t target) unborn.not_gt

theorem Applied.grow {call : BusCall Payload} (h : c.Applied call)
    (nextToken : c.nextToken ≤ c'.nextToken)
    (applied : ∀ t, c'.applied t call.ticket = c.applied t call.ticket) : c'.Applied call :=
  ⟨h.nodup, fun t ht => (h.issued t ht).trans_le nextToken, h.single, h.within,
    fun t => (applied t).trans (h.counted t)⟩

theorem Logged.of_same (inv : Logged c) (applied : ∀ t k, c'.applied t k = c.applied t k)
    (nextToken : c.nextToken ≤ c'.nextToken) (publishing : c'.publishing = c.publishing)
    (tickets : c'.tickets = c.tickets) (ended : c'.ended = c.ended) : Logged c' := by
  constructor
  case fresh => exact fun t k hk => (applied t k).trans (inv.fresh t k (tickets ▸ hk))
  case unborn =>
    exact fun t k ht => (applied t k).trans (inv.unborn t k (nextToken.trans ht))
  case frame =>
    intro f hf
    obtain ⟨h₁, h₂, h₃, h₄, h₅, h₆, h₇⟩ := inv.frame f (publishing ▸ hf)
    exact ⟨tickets ▸ h₁, h₂, h₃, h₄, h₅, h₆, h₇.grow nextToken fun t => applied t _⟩
  case older =>
    intro e he
    obtain ⟨h₁, h₂⟩ := inv.older e (ended ▸ he)
    exact ⟨tickets ▸ h₁, fun f hf => h₂ f (publishing ▸ hf)⟩
  case ended =>
    intro e he
    obtain ⟨h₁, h₂⟩ := inv.ended e (ended ▸ he)
    exact ⟨h₁.grow nextToken fun t => applied t _, h₂⟩

/-- The call under way moves on, and only its own pushes are counted anew. -/
theorem Logged.advance (inv : Logged c) {f f' : Frame Payload} (hf : c.publishing = some f)
    (publishing : c'.publishing = some f') (ticket : f'.call.ticket = f.call.ticket)
    (nextToken : c'.nextToken = c.nextToken) (tickets : c'.tickets = c.tickets)
    (ended : c'.ended = c.ended)
    (others : ∀ t k, k ≠ f.call.ticket → c'.applied t k = c.applied t k)
    (frame : c'.FrameLogged f') : Logged c' := by
  have latest := (inv.frame f hf).latest
  constructor
  case fresh =>
    intro t k hk
    rw [others t k (by omega)]
    exact inv.fresh t k (tickets ▸ hk)
  case unborn =>
    intro t k ht
    by_cases own : k = f.call.ticket
    · rw [own, ← ticket, frame.applied.counted, if_neg (frame.applied.not_mem ht)]
    · rw [others t k own]
      exact inv.unborn t k (nextToken ▸ ht)
  case frame =>
    intro g hg
    cases publishing.symm.trans hg
    exact frame
  case older =>
    intro e he
    obtain ⟨old, older⟩ := inv.older e (ended ▸ he)
    refine ⟨tickets ▸ old, ?_⟩
    intro g hg
    cases publishing.symm.trans hg
    exact ticket ▸ older f hf
  case ended =>
    intro e he
    obtain ⟨applied, ending⟩ := inv.ended e (ended ▸ he)
    have older := (inv.older e (ended ▸ he)).2 f hf
    exact ⟨applied.grow nextToken.ge fun t => others t _ older.ne, ending⟩

end Traffic

namespace EventBus
variable {config : BusConfig Payload} {s : EventBus Payload}

theorem applied_setPartition (t : Token) (p : Partition Payload) (u : Token) (k : Nat) :
    (s.setPartition t p).traffic.applied u k = s.traffic.applied u k := by
  by_cases same : u = t
  · subst same
    simp [Traffic.applied, traffic, setPartition, Subscriber.applied]
  · simp [Traffic.applied, traffic, setPartition, same]

theorem applied_hand (t : Token) (event : Event Payload) (u : Token) (k : Nat) :
    (s.hand t event).traffic.applied u k = s.traffic.applied u k := by
  by_cases same : u = t
  · subst same
    simp [Traffic.applied, traffic, hand, Subscriber.applied]
  · simp [Traffic.applied, traffic, hand, same]

theorem applied_happened (t : Token) (h : Happening Payload) (u : Token) (k : Nat) :
    (s.happened t h).traffic.applied u k =
      s.traffic.applied u k + if u = t ∧ h.isPushOf k = true then 1 else 0 := by
  by_cases same : u = t
  · subst same
    simp [Traffic.applied, traffic, happened, Subscriber.applied, List.countP_append,
      List.countP_singleton]
  · simp [Traffic.applied, traffic, happened, same]

theorem logged_began (inv : s.traffic.Logged)
    (r : PublishRequest Payload) {targets : List Token} (nodup : targets.Nodup)
    (issued : ∀ t ∈ targets, t < s.nextToken) (single : r.target ≠ none → targets.length = 1) :
    (s.begin r targets).traffic.Logged := by
  constructor
  case fresh => exact fun t k hk => inv.fresh t k ((Nat.le_succ _).trans hk)
  case unborn => exact inv.unborn
  case frame =>
    intro f hf
    cases hf
    refine ⟨rfl, rfl, rfl, fun _ => rfl, rfl, rfl, nodup, issued, single, ⟨targets, rfl⟩, ?_⟩
    intro t
    exact inv.fresh t s.tickets le_rfl
  case older =>
    intro e he
    have old := (inv.older e he).1
    refine ⟨old.trans (Nat.lt_succ_self _), ?_⟩
    intro f hf
    cases hf
    exact old
  case ended => exact fun e he => ⟨(inv.ended e he).1.grow le_rfl fun _ => rfl, (inv.ended e he).2⟩

/-- A call ends with what it had logged, and perhaps one more answer of `can_accept`. -/
theorem logged_finish (inv : s.traffic.Logged) {f : Frame Payload} (hf : s.publishing = some f)
    {call : BusCall Payload} {outcome : Except Exn PublishResult}
    (ticket : call.ticket = f.call.ticket) (applied : s.traffic.Applied call)
    (ending : call.Ending outcome) : (s.finish call outcome).traffic.Logged := by
  have logged := inv.frame f hf
  constructor
  case fresh => exact inv.fresh
  case unborn => exact inv.unborn
  case frame => exact nofun
  case older =>
    intro e he
    refine ⟨?_, nofun⟩
    rcases List.mem_append.mp he with he | he
    · exact (inv.older e he).1
    · cases List.mem_singleton.mp he
      exact Nat.lt_of_succ_le (ticket ▸ logged.latest.le)
  case ended =>
    intro e he
    rcases List.mem_append.mp he with he | he
    · exact ⟨(inv.ended e he).1.grow le_rfl fun _ => rfl, (inv.ended e he).2⟩
    · cases List.mem_singleton.mp he
      exact ⟨applied.grow le_rfl fun _ => rfl, ending⟩

theorem mem_applied_record {f : Frame Payload} {t u : Token} {rest : List Token} {held : Bool}
    {result : PushResult} : u ∈ (f.record t rest held result).call.applied ↔
      u ∈ f.call.applied ∨ (u = t ∧ result ≠ .full) := by
  cases result <;> simp [Frame.record, BusCall.applied, BusCall.fits]

theorem targets_record {f : Frame Payload} {t : Token} {rest : List Token} {held : Bool}
    {result : PushResult} (pushed : f.call.targets = f.call.pushes.map Prod.fst ++ t :: rest) :
    (f.record t rest held result).call.targets =
      (f.record t rest held result).call.pushes.map Prod.fst ++ rest := by
  simpa [Frame.record] using pushed

/-- The next push is to a target that the call has not been applied to. -/
theorem not_mem_applied {c : Traffic Payload} {f : Frame Payload} (logged : c.FrameLogged f)
    {t : Token} {rest : List Token} (unpushed : f.unpushed = t :: rest) :
    t ∉ f.call.applied := by
  intro applied
  have nodup := logged.applied.nodup
  rw [logged.pushed, unpushed] at nodup
  have earlier := f.call.applied_sublist.subset applied
  exact List.disjoint_of_nodup_append nodup earlier List.mem_cons_self

theorem applied_record (inv : s.traffic.Logged) {f : Frame Payload} (hf : s.publishing = some f)
    {t : Token} {rest : List Token} (unpushed : f.unpushed = t :: rest) (held : Bool)
    (result : PushResult) {c : Traffic Payload} (nextToken : c.nextToken = s.nextToken)
    (applied : ∀ u k, c.applied u k = s.traffic.applied u k +
      if u = t ∧ k = f.call.ticket ∧ result ≠ .full then 1 else 0) :
    c.Applied (f.record t rest held result).call := by
  have logged := inv.frame f hf
  refine ⟨logged.applied.nodup, fun u hu => nextToken ▸ logged.applied.issued u hu,
    logged.applied.single, ⟨rest, ?_⟩, ?_⟩
  · exact targets_record (unpushed ▸ logged.pushed)
  · intro u
    have before := logged.applied.counted u
    have absent := not_mem_applied logged unpushed
    have ticket : (f.record t rest held result).call.ticket = f.call.ticket := rfl
    rw [ticket, applied, before]
    by_cases same : u = t
    · subst same
      simp [mem_applied_record, absent]
    · simp [mem_applied_record, same]

theorem logged_pushed (inv : s.traffic.Logged) {f : Frame Payload} (hf : s.publishing = some f)
    (unchecked : f.unchecked = []) {t : Token} {rest : List Token}
    (unpushed : f.unpushed = t :: rest) (held : Bool) (result : PushResult) :
    (s.pushed f t rest held result).traffic.Logged := by
  have logged := inv.frame f hf
  have preflighted := logged.preflighted unchecked
  -- what the log of the frame says, once the histories agree with it
  have frame : ∀ c : Traffic Payload, c.nextToken = s.nextToken → c.tickets = s.tickets →
      (∀ u k, c.applied u k = s.traffic.applied u k +
        if u = t ∧ k = f.call.ticket ∧ result ≠ .full then 1 else 0) →
      c.FrameLogged (f.record t rest held result) := by
    intro c nextToken tickets applied
    refine ⟨tickets ▸ logged.latest, logged.checked, targets_record (unpushed ▸ logged.pushed),
      fun h => absurd unchecked h, ?_, logged.normal,
      applied_record inv hf unpushed held result nextToken applied⟩
    simp [Frame.record, BusCall.tallied, logged.result]
  have inserts : result ≠ .full →
      ({ s with publishing := some (f.record t rest held result) }.happened t
        (.pushed f.call.caller f.call.ticket f.call.event)).traffic.Logged := by
    intro fits
    have counts : ∀ u k, ({ s with publishing := some (f.record t rest held result) }.happened t
        (.pushed f.call.caller f.call.ticket f.call.event)).traffic.applied u k =
          s.traffic.applied u k + if u = t ∧ k = f.call.ticket ∧ result ≠ .full then 1 else 0 := by
      intro u k
      rw [applied_happened]
      simp [Happening.isPushOf, fits, traffic, Traffic.applied, eq_comm]
    refine inv.advance hf rfl rfl rfl rfl rfl ?_ (frame _ rfl rfl counts)
    intro u k other
    rw [counts]
    simp [other]
  cases result with
  | inserted =>
    apply inserts
    simp
  | coalesced =>
    apply inserts
    simp
  | full =>
    have counts : ∀ u k, s.traffic.applied u k = s.traffic.applied u k +
        if u = t ∧ k = f.call.ticket ∧ PushResult.full ≠ .full then 1 else 0 := by simp
    unfold pushed
    cases f.call.target with
    | none =>
      refine logged_finish inv hf rfl (frame _ rfl rfl counts).applied ?_
      exact .full _ t held _ logged.normal preflighted (by simp [Frame.record])
    | some id =>
      exact inv.advance hf rfl rfl rfl rfl rfl (fun _ _ _ => rfl) (frame _ rfl rfl counts)

theorem logged_effect {a : BusAction Payload} {c : Traffic Payload} (inv : s.traffic.Logged)
    (effect : Effect config s a c) : c.Logged := by
  cases effect with
  | quiet => exact inv
  | subscribed id partition free built =>
    refine inv.of_same ?_ (Nat.le_succ _) rfl rfl rfl
    intro t k
    by_cases same : t = s.nextToken
    · subst same
      refine Eq.trans ?_ (inv.unborn s.nextToken k le_rfl).symm
      simp [Traffic.applied, Subscriber.applied]
    · simp [Traffic.applied, same, traffic]
  | began r targets _ free nodup issued single => exact logged_began inv r nodup issued single
  | accepted f t rest hf unchecked answer =>
    obtain ⟨latest, checked, pushed, waiting, result, normal, applied⟩ := inv.frame f hf
    refine inv.advance hf rfl rfl rfl rfl rfl (fun _ _ _ => rfl) ⟨latest, ?_, pushed, ?_,
      result, normal, applied.nodup, applied.issued, applied.single, applied.within,
      applied.counted⟩
    · simpa [unchecked] using checked
    · intro _
      exact waiting (by simp [unchecked])
  | refused f t rest hf unchecked answer =>
    have logged := inv.frame f hf
    have checked := logged.checked
    rw [unchecked] at checked
    obtain ⟨passed, left, targets, passed_eq, left_eq⟩ := List.map_eq_append_iff.mp checked
    have injective : Function.Injective fun u : Token => (u, true) :=
      fun u v h => (Prod.ext_iff.mp h).1
    obtain rfl := injective.list_map left_eq
    refine logged_finish inv hf rfl ?_ (.refused _ passed t rest logged.normal targets ?_ ?_)
    · exact ⟨logged.applied.nodup, logged.applied.issued, logged.applied.single,
        logged.applied.within, logged.applied.counted⟩
    · simp [passed_eq]
    · exact logged.waiting (by simp [unchecked])
  | copyThrew f t rest e fault _ hf unchecked unpushed =>
    have logged := inv.frame f hf
    refine logged_finish inv hf rfl ?_ (.interrupted _ t rest e rfl ?_ ?_)
    · exact ⟨logged.applied.nodup, logged.applied.issued, logged.applied.single,
        logged.applied.within, logged.applied.counted⟩
    · exact logged.preflighted unchecked
    · exact unpushed ▸ logged.pushed
  | pushReturned f t rest fault result after _ hf unchecked unpushed _ =>
    have moved : (s.setPartition t after).traffic.Logged :=
      inv.of_same (applied_setPartition t after) le_rfl rfl rfl rfl
    exact logged_pushed moved hf unchecked unpushed _ result
  | pushThrew f t rest fault e after _ hf unchecked unpushed _ =>
    have moved : (s.setPartition t after).traffic.Logged :=
      inv.of_same (applied_setPartition t after) le_rfl rfl rfl rfl
    have logged := moved.frame f hf
    refine logged_finish moved hf rfl ?_ (.interrupted _ t rest e rfl ?_ ?_)
    · exact ⟨logged.applied.nodup, logged.applied.issued, logged.applied.single,
        logged.applied.within, logged.applied.counted⟩
    · exact logged.preflighted unchecked
    · exact unpushed ▸ logged.pushed
  | returned f hf unchecked unpushed =>
    have logged := inv.frame f hf
    rw [logged.result]
    refine logged_finish inv hf rfl logged.applied (.returned _ logged.normal ?_ ?_)
    · exact logged.preflighted unchecked
    · simpa [unpushed] using logged.pushed
  | popped id t event after _ _ =>
    refine inv.of_same ?_ le_rfl rfl rfl rfl
    intro u k
    rw [applied_happened, applied_setPartition]
    simp [Happening.isPushOf]
  | handed id t event _ => exact inv.of_same (applied_hand t event) le_rfl rfl rfl rfl

theorem logged_reachable (reached : Reachable (step config) (initial config) s) :
    s.traffic.Logged := by
  induction reached with
  | start => exact ⟨fun _ _ _ => rfl, fun _ _ _ => rfl, nofun, nofun, nofun⟩
  | next r a r' reached moves inv =>
    exact logged_effect inv (step_effect (seated_reachable reached) moves)

end EventBus

end Yellowstone
