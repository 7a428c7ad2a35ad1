import ReactiveMarkup.Proofs.Destroyed
import ReactiveMarkup.Proofs.Scheduling

/-! # Runs that break off

A scheduler whose passes fail stays marked as running, and calls of `apply` are lost from then on.
-/

namespace ReactiveMarkup.Reactive

variable {κ υ : Type} {h : Host κ υ} {s : SchedulerId} {r : Except Stop Nat} {c : Scheduler}
  {w u w' : World κ υ} {calls : List Frame} {tr tr' : List (Moment κ υ)} {j : Errand κ υ}

/-- The scheduler neither begins nor breaks off within a run of its own. -/
def Alone (s : SchedulerId) (tr : List (Moment κ υ)) : Prop :=
  ∀ m ∈ tr, .run s ∈ m.calls → m.event ≠ .breakOff s ∧ ∀ root, m.event ≠ .begin s root

theorem Alone.inside (ho : Alone s (m :: (tr ++ tr'))) : Alone s tr ∧ Alone s tr' :=
  List.forall_mem_append.mp (List.forall_mem_cons.mp ho).2

theorem Does.unbroken (h : Does calls j w tr w') (hcalls : .run s ∈ calls) (ho : Alone s tr) :
    Unbroken s tr := by
  intro m hm
  obtain ⟨hbreak, hbegin⟩ := ho m hm ((h.within m hm).subset hcalls)
  exact ⟨hbreak, fun root he => absurd he (hbegin root)⟩

theorem Does.passes_marked (hp : Does (.loop s :: .run s :: calls) j (w.setRunning s true) tr u)
    (hs : w.schedulers[s]? = some c) (ho : Alone s tr) :
    Marked s (.loop s :: .run s :: calls) tr u := by
  refine hp.marked (hp.unbroken (by simp) ho) (by simp [Enclosed]) ?_
  simp [Flagged, World.isRunning, World.setRunning, Array.getElem?_modify, hs]

theorem Does.not_failed {x : Act κ υ α} (hp : Does calls (.act x (.ok a)) w tr u) :
    ¬ ∃ e, (outcome x w).1 = .error e := by
  rw [(hp.ends : outcome x w = _)]
  simp

/-- After a run that is not nested, the scheduler is marked as running exactly if the passes failed,
and then `apply` changes nothing. -/
theorem run_leaves_running (hdoes : Does calls (.run h s r) w tr w')
    (hs : w.schedulers[s]? = some c) (hcalls : .loop s ∉ calls) (ho : Alone s tr) :
    outcome (runNow h s) w = (r, w') ∧
    (w'.isRunning s = true ↔
      ∃ e, (outcome (passesFrom h c.root maxPasses 0 none) (w.setRunning s true)).1 = .error e) ∧
    (outcome (apply s) w').2 = if w'.isRunning s || w'.isPlanned s then w' else w'.plan s := by
  have hroot := (hdoes.trail.rooted ⟨c, hs, rfl⟩).1
  refine ⟨hdoes.start.ends, ?_, ?_⟩
  · cases hdoes with
    | unscheduled hn => simp [hs] at hn
    | loopStops hs' hp =>
      obtain rfl := Option.mem_unique hs hs'
      have hflag := (hp.passes_marked hs ho.inside.1).last
      exact iff_of_true (hflag.trans (by simp)) ⟨_, congrArg Prod.fst hp.ends⟩
    | onceStops hs' hp honces =>
      obtain rfl := Option.mem_unique hs hs'
      have hu := (hp.passes_marked hs ho.inside.1).finish fun _ => hcalls
      have hflag := (honces.marked (honces.unbroken (by simp) ho.inside.2)
        (by simp [Enclosed, hcalls]) hu.last).last
      exact iff_of_false (by simp [hflag.trans, hcalls]) hp.not_failed
    | run hs' hp honces =>
      obtain rfl := Option.mem_unique hs hs'
      exact iff_of_false (Bool.not_eq_true _ ▸ any_modify_false fun _ => rfl) hp.not_failed
  · rw [apply_world, isIdle_of_rooted hroot, ← Bool.not_or]
    cases w'.isRunning s || w'.isPlanned s <;> rfl

namespace Repeat

def failing : Host Hook Unit := { host with read := fun _ => throw .failed }

def stuck : World Hook Unit := world.setRunning 0 true

theorem does_failing : Does [] (.run failing 0 (.error .failed)) world
    [⟨.begin 0 0, [], world⟩, ⟨.read 0, [.loop 0, .run 0], stuck⟩, ⟨.breakOff 0, [], stuck⟩]
    stuck := by
  have hcheck : Does [.loop 0, .run 0] (.act (check failing 0) (.error .failed)) stuck
      [⟨.read 0, [.loop 0, .run 0], stuck⟩] stuck :=
    .unread (d := 0) (by decide) rfl (.silent _ silent_throw)
  have hpass : Does [.loop 0, .run 0] (.act (pass failing 0) (.error .failed)) stuck
      [⟨.read 0, [.loop 0, .run 0], stuck⟩] stuck := by
    refine .first (.silent _ silent_get) ?_
    refine .first (.found rfl) (.first (.returned) (.first (.silent _ silent_get) (.stop ?_)))
    exact .first (.found rfl) (.stop hcheck)
  exact Does.loopStops (c := { root := 0 }) rfl (.stop hpass)

end Repeat

/-- The source of a watcher fails, and the scheduler is of no more use. -/
theorem run_leaves_running_stuck : Repeat.stuck.isRunning 0 = true ∧
    (outcome (apply 0) Repeat.stuck).2 = Repeat.stuck := by
  have ho : Alone 0 [⟨.begin 0 0, [], Repeat.world⟩, ⟨.read 0, [.loop 0, .run 0], Repeat.stuck⟩,
      ⟨.breakOff 0, [], Repeat.stuck⟩] := by simp [Alone]
  exact ⟨rfl, (run_leaves_running Repeat.does_failing rfl (by simp) ho).2.2⟩

end ReactiveMarkup.Reactive
