import Yellowstone.Legacy.ObserverMailbox

/-!
# Waking the observer

If the worker's store of 0 to `m_wake` reaches memory before its next load, nobody who has
something for the worker lets it sleep.
-/

set_option autoImplicit false

namespace Yellowstone.Legacy

open Machine Threads

namespace Observer
variable {Thread : Type} [DecidableEq Thread] {s s' : Observer Thread} {a : ObserverAction Thread}

/-- The worker's store is not overtaken by the load that follows it. -/
def inOrder (s : Observer Thread) : ObserverAction Thread → Bool
  | .work _ => s.storing = false ∨ s.worker ≠ .loadCount
  | _ => true

/-- The worker has found the count zero, and will sleep unless it is woken. -/
def drowsy (place : RunAt) : Bool :=
  place = .loadStop 0 ∨ place = .loadWake ∨ place = .asleep

/-- It has found the flag false as well. -/
def unstopped : RunAt → Bool
  | .loadWake | .asleep => true
  | _ => false

structure Alert (s : Observer Thread) : Prop where
  storing : s.storing = true → s.worker = .loadCount
  armed : s.worker = .clearWake → s.wake = true
  counted : drowsy s.worker = true → s.mailboxCount ≠ 0 →
    s.wake = true ∨ ∃ c, s.place c = .waking
  stopped : unstopped s.worker = true → s.stop = true → s.wake = true ∨ s.stopper = .waking
  heard : s.worker = .asleep → s.wake = true →
    (∃ c, s.place c = .notifying) ∨ s.stopper = .notifying
  stopping : s.stopper ≠ .out → s.stop = true
  absent : s.stop = true → s.stopper = .out → s.worker = .absent

@[simp] theorem drowsy_woken (place : RunAt) : drowsy place.woken = drowsy place := by
  cases place <;> rfl

@[simp] theorem unstopped_woken (place : RunAt) : unstopped place.woken = unstopped place := by
  cases place <;> rfl

theorem woken_ne (place : RunAt) : place.woken ≠ .asleep := by
  cases place <;> simp [RunAt.woken]

theorem woken_eq_clearWake {place : RunAt} : place.woken = .clearWake ↔ place = .clearWake := by
  cases place <;> simp [RunAt.woken]

theorem someone_move {c : Thread} {x k : NotifyAt} (other : s.place c ≠ k)
    (h : ∃ d, s.place d = k) : ∃ d, (s.move c x).place d = k := by
  obtain ⟨d, here⟩ := h
  have apart : d ≠ c := fun same => other (same ▸ here)
  exact ⟨d, by simpa [move, apart] using here⟩

/-- A place where the worker has not yet found anything. -/
def inert (place : RunAt) : Bool := !drowsy place && place ≠ .clearWake

@[simp] theorem inert_enter (x : StateType) : inert x.enter = true := by cases x <;> rfl

omit [DecidableEq Thread] in
theorem Alert.of_inert (inv : Alert s) (quiet : s'.storing = false)
    (still : inert s'.worker = true) (stop : s'.stop = s.stop) (stopper : s'.stopper = s.stopper)
    (present : s.worker ≠ .absent) : Alert s' := by
  simp only [inert, Bool.and_eq_true, Bool.not_eq_true', decide_eq_true_eq] at still
  obtain ⟨awake, apart⟩ := still
  have running : unstopped s'.worker = false := by
    cases here : s'.worker <;> simp [here, drowsy] at awake <;> rfl
  refine ⟨by simp [quiet], fun h => absurd h apart, by simp [awake], by simp [running],
    fun h => ?_, ?_, fun stopped idle => ?_⟩
  · simp [h, drowsy] at awake
  · rw [stop, stopper]
    exact inv.stopping
  · rw [stop] at stopped
    rw [stopper] at idle
    exact absurd (inv.absent stopped idle) present

omit [DecidableEq Thread] in
theorem Alert.work (inv : Alert s) (ordered : s.storing = false ∨ s.worker ≠ .loadCount)
    (h : Works s s') : Alert s' := by
  have quiet : s.storing = false := by
    rcases ordered with quiet | other
    · exact quiet
    · exact Bool.eq_false_iff.mpr fun storing => other (inv.storing storing)
  cases h with
  | loadsCount here =>
    refine ⟨by simp [goto, quiet], by simp [goto], fun zero some' => ?_, by simp [goto, unstopped],
      by simp [goto], inv.stopping, fun stopped out => ?_⟩
    · exact absurd (by simpa [goto, drowsy] using zero) some'
    · cases (inv.absent stopped out).symm.trans here
  | waits here on =>
    refine ⟨by simp [goto, quiet], by simp [goto],
      fun _ => inv.counted (by simp [here, drowsy]), fun _ stopped => ?_, by simp [goto],
      inv.stopping, fun stopped => ?_⟩
    · cases on.symm.trans stopped
    · cases on.symm.trans stopped
  | wakes here wake _ =>
    refine ⟨by simp [goto, quiet], fun _ => wake, by simp [goto, drowsy],
      by simp [goto, unstopped], by simp [goto], inv.stopping, fun stopped out => ?_⟩
    cases (inv.absent stopped out).symm.trans here
  | sleeps here unarmed =>
    have asleep : s.wake = false := by simpa [quiet] using unarmed
    refine ⟨by simp [goto, quiet], by simp [goto],
      fun _ => inv.counted (by simp [here, drowsy]),
      fun _ => inv.stopped (by simp [here, unstopped]), fun _ wake => ?_, inv.stopping,
      fun stopped out => ?_⟩
    · cases asleep.symm.trans wake
    · cases (inv.absent stopped out).symm.trans here
  | clears here =>
    refine ⟨fun _ => rfl, by simp [goto], by simp [goto, drowsy], by simp [goto, unstopped],
      by simp [goto], inv.stopping, fun stopped out => ?_⟩
    cases (inv.absent stopped out).symm.trans here
  | enters x states here first =>
    exact inv.of_inert quiet (by simp [goto]) rfl rfl (by simp [here])
  | stops here | finds _ here | returns here | pops _ _ here | misses here | decrements _ here
  | closes here | gives here | releases here | releaseFinds here | releaseLoads here
  | releaseStops here | releaseWaits here | tearsDown here | terminates here =>
    exact inv.of_inert quiet rfl rfl rfl (by simp [here])

theorem Alert.step (inv : Alert s) (h : guarded step inOrder s a = some s') : Alert s' := by
  obtain ⟨ordered, h⟩ := guarded_eq_some.mp h
  cases step_moves h with
  | works future s' h => exact inv.work (by simpa [inOrder] using ordered) h
  | calls c n here | pushes c n here _ =>
    obtain ⟨storing, armed, counted, stopped, heard, stopping, absent⟩ := inv
    refine ⟨storing, armed, fun sleepy some' => ?_, stopped, fun asleep wake => ?_, stopping,
      absent⟩
    · exact (counted sleepy some').imp_right (someone_move (by simp [here]))
    · exact (heard asleep wake).imp_left (someone_move (by simp [here]))
  | counts c here =>
    obtain ⟨storing, armed, counted, stopped, heard, stopping, absent⟩ := inv
    refine ⟨storing, armed, fun _ _ => .inr ⟨c, by simp [move]⟩, stopped, fun asleep wake => ?_,
      stopping, absent⟩
    exact (heard asleep wake).imp_left (someone_move (by simp [here]))
  | wakes c here =>
    obtain ⟨storing, armed, counted, stopped, heard, stopping, absent⟩ := inv
    exact ⟨storing, fun _ => rfl, fun _ _ => .inl rfl, fun _ _ => .inl rfl,
      fun _ _ => .inl ⟨c, by simp [move]⟩, stopping, absent⟩
  | notifies c here =>
    obtain ⟨storing, armed, counted, stopped, heard, stopping, absent⟩ := inv
    refine ⟨fun h => ?_, fun woken => ?_, fun sleepy some' => ?_, ?_, fun woken => ?_, stopping,
      fun h out => ?_⟩
    · simp [storing h, RunAt.woken]
    · exact armed (woken_eq_clearWake.mp woken)
    · exact (counted (by simpa [move] using sleepy) some').imp_right (someone_move (by simp [here]))
    · simpa [move] using stopped
    · exact absurd woken (woken_ne _)
    · simp [absent h out, RunAt.woken]
  | starts out absent' =>
    obtain ⟨storing, armed, counted, stopped, heard, stopping, absent⟩ := inv
    refine ⟨fun h => ?_, by simp, by simp [drowsy], by simp [unstopped], by simp,
      fun h => absurd out h, by simp⟩
    cases (storing h).symm.trans absent'
  | stops out =>
    obtain ⟨storing, armed, counted, stopped, heard, stopping, absent⟩ := inv
    refine ⟨storing, armed, counted, fun _ _ => .inr rfl, fun asleep wake => ?_, fun _ => rfl,
      by simp⟩
    rcases heard asleep wake with some' | notifying
    · exact .inl some'
    · cases out.symm.trans notifying
  | stopWakes here =>
    obtain ⟨storing, armed, counted, stopped, heard, stopping, absent⟩ := inv
    exact ⟨storing, fun _ => rfl, fun _ _ => .inl rfl, fun _ _ => .inl rfl, fun _ _ => .inr rfl,
      fun _ => stopping (by simp [here]), by simp⟩
  | stopNotifies here =>
    obtain ⟨storing, armed, counted, stopped, heard, stopping, absent⟩ := inv
    refine ⟨fun h => ?_, fun woken => ?_, by simpa using counted, fun on stop => ?_,
      fun woken => absurd woken (woken_ne _), fun _ => stopping (by simp [here]), by simp⟩
    · simp [storing h, RunAt.woken]
    · exact armed (woken_eq_clearWake.mp woken)
    · exact .inl ((stopped (by simpa using on) stop).resolve_right (by simp [here]))
  | joins joining ended =>
    obtain ⟨storing, armed, counted, stopped, heard, stopping, absent⟩ := inv
    refine ⟨fun h => ?_, by simp, by simp [drowsy], by simp [unstopped], by simp, by simp,
      fun _ _ => rfl⟩
    rcases ended with here | here <;> cases (storing h).symm.trans here
  | arrives here =>
    obtain ⟨storing, armed, counted, stopped, heard, stopping, absent⟩ := inv
    have loading := storing here
    exact ⟨by simp, by simp [loading], by simp [loading, drowsy], by simp [loading, unstopped],
      by simp [loading], stopping, absent⟩
  | rouses here =>
    obtain ⟨storing, armed, counted, stopped, heard, stopping, absent⟩ := inv
    refine ⟨fun h => ?_, by simp [goto], fun _ => counted (by simp [here, drowsy]),
      fun _ => stopped (by simp [here, unstopped]), by simp [goto], stopping, fun h out => ?_⟩
    · cases (storing h).symm.trans here
    · cases (absent h out).symm.trans here
  | advances here =>
    have quiet : s.storing = false :=
      Bool.eq_false_iff.mpr fun storing => by cases (inv.storing storing).symm.trans here
    exact inv.of_inert quiet rfl rfl rfl (by simp [here])

theorem alert_reachable (reached : Reachable (guarded step inOrder) new s) : Alert s := by
  induction reached with
  | start => exact ⟨by simp [new], by simp [new], by simp [new, drowsy], by simp [new, unstopped],
      by simp [new], by simp [new], by simp [new]⟩
  | next r a r' _ moves inv => exact inv.step moves

omit [DecidableEq Thread] in
theorem Alert.about_to_wake (inv : Alert s) (asleep : s.worker = .asleep)
    (wanted : s.mailboxCount ≠ 0 ∨ s.stop = true) :
    (∃ c, s.place c = .waking ∨ s.place c = .notifying) ∨
      s.stopper = .waking ∨ s.stopper = .notifying := by
  have armed : s.wake = true ∨ (∃ c, s.place c = .waking) ∨ s.stopper = .waking := by
    rcases wanted with counted | stopped
    · exact (inv.counted (by simp [asleep, drowsy]) counted).imp_right .inl
    · exact (inv.stopped (by simp [asleep, unstopped]) stopped).imp_right .inr
  rcases armed with wake | ⟨c, here⟩ | here
  · rcases inv.heard asleep wake with ⟨c, here⟩ | here
    · exact .inl ⟨c, .inr here⟩
    · exact .inr (.inr here)
  · exact .inl ⟨c, .inl here⟩
  · exact .inr (.inl here)

/-- A worker that sleeps while a notice is counted, or the observer is stopped, is about to be
woken. -/
theorem woken_if_wanted (reached : Reachable (guarded step inOrder) new s)
    (asleep : s.worker = .asleep) (wanted : s.mailboxCount ≠ 0 ∨ s.stop = true) :
    (∃ c, s.place c = .waking ∨ s.place c = .notifying) ∨
      s.stopper = .waking ∨ s.stopper = .notifying :=
  (alert_reachable reached).about_to_wake asleep wanted

/-- The worker sleeps when a thread has counted its notice. -/
def sampleSleep : List (ObserverAction Bool) :=
  .start :: List.replicate 4 (.work false) ++
    [.notify false sampleNotice, .push false, .count false]

def sampleAsleep : Observer Bool :=
  (run (guarded step inOrder) new sampleSleep).getD new

theorem sampleAsleep_woken :
    (∃ c, sampleAsleep.place c = .waking ∨ sampleAsleep.place c = .notifying) ∨
      sampleAsleep.stopper = .waking ∨ sampleAsleep.stopper = .notifying := by
  have wanted : sampleAsleep.mailboxCount ≠ 0 := by decide +kernel
  exact woken_if_wanted ⟨sampleSleep, rfl⟩ rfl (.inl wanted)

/-- Two loads overtake the store: the flag that another thread sets after the first of them is
cleared, and the worker sleeps with a notice in its mailbox after `notify` has returned. -/
example : (run step (new : Observer Bool) ([.start, .notify false sampleNotice, .push false,
    .count false, .wake false, .notifyOne false] ++ List.replicate 18 (.work false) ++
    [.notify true sampleNotice, .push true, .count true, .wake true, .notifyOne true,
    .storeArrives] ++ List.replicate 2 (.work false))).map
    (fun s => (s.worker, s.mailbox, s.place false, s.place true)) =
    some (.asleep, [sampleNotice], .out, .out) := by
  decide +kernel

end Observer

end Yellowstone.Legacy
