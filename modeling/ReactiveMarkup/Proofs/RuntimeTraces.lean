import ReactiveMarkup.Proofs.Traces

/-! # Traces of the runtime

When all hooks have traces, so has whatever the runtime does with them.
-/

namespace ReactiveMarkup.Reactive

open Array

variable {κ υ α β : Type}

/-- All user code has traces: it uses detectors, watchers, schedulers and tasks as the runtime
offers them. -/
structure Conforms (h : Host κ υ) : Prop where
  read : ∀ k, Traced (h.read k)
  key : ∀ k v n, Traced (h.key k v n)
  run : ∀ k o, Traced (h.run k o)
  buildItem : ∀ k d f n v, Traced (h.buildItem k d f n v)
  attach : ∀ k n, Traced (h.attach k n)
  construct : ∀ k n o, Traced (h.construct k n o)
  options : ∀ k, Traced (h.options k)

theorem outcome_modify_bind : outcome (modify g >>= f) w = outcome (f ⟨⟩) (g w) := by
  rfl

theorem outcome_forM_cons (w : World κ υ) : outcome ((a :: l).forM f) w =
      match outcome (f a) w with
      | (.ok _, u) => outcome (l.forM f) u
      | (.error e, u) => (.error e, u) := by
  rw [show (a :: l).forM f = (f a >>= fun _ => l.forM f) from rfl, outcome_bind]
  rcases outcome (f a) w with ⟨r, u⟩
  cases r <;> rfl

theorem modify_twice (a : Array α) : (a.modify i f).modify i g = a.modify i (fun x => g (f x)) := by
  apply ext_getElem?
  intro j
  simp only [getElem?_modify]
  split <;> simp [Function.comp_def]

theorem modify_unknown {a : Array α} (h : a[i]? = none) : a.modify i f = a := by
  apply ext_getElem?
  intro j
  rw [getElem?_modify]
  split
  · next hj => rw [← hj, h, Option.map_none]
  · rfl

theorem outcome_destroyTo_unknown {d : DetectorId}
    (hd : w.detectors[d]? = none) : outcome (destroyTo h (n + 1) d) w = (.error .failed, w) := by
  rw [destroyTo_succ, updateDetector, outcome_modify_bind, outcome_bind, outcome_find]
  simp only [modify_unknown hd, hd]

theorem outcome_destroyTo {h : Host κ υ} {n : Nat} (hd : w.detectors[d]? = some c) :
    outcome (destroyTo h (n + 1) d) w =
      match outcome (c.cleanups.forM fun k => guarded (cleanUp h n k)) (w.strike d) with
      | (.error e, u) => (.error e, u)
      | (.ok _, u) =>
        match u.detectors[d]? with
        | none => (.error .failed, u)
        | some _ => outcome ((childrenOf u d).forM (destroyTo h n)) (u.orphan d) := by
  rw [destroyTo_succ, updateDetector, outcome_modify_bind, outcome_bind, outcome_find]
  simp only [getElem?_modify, if_true, hd, Option.map_some]
  rw [updateDetector, outcome_modify_bind]
  simp only [modify_twice]
  rw [outcome_bind]
  unfold World.strike
  generalize outcome (c.cleanups.forM fun k => guarded (cleanUp h n k)) _ = p
  obtain ⟨r, u⟩ := p
  cases r with
  | error e => rfl
  | ok _ =>
    simp only
    rw [outcome_bind, outcome_find]
    cases hd' : u.detectors[d]? with
    | none => rfl
    | some c' =>
      rw [childrenOf_eq hd']
      rfl

variable {h : Host κ υ}

theorem traced_removeChild (p c : DetectorId) : Traced (removeChild p c : Act κ υ Unit) :=
  fun w _ calls => ⟨[⟨.remove p c, calls, w⟩], .remove p c w⟩

theorem traced_apply : Traced (apply s : Act κ υ Unit) :=
  fun w _ _ => ⟨_, .apply s w⟩

/-! ## Destroying -/

theorem guarded_forM_ne_failed (f : α → Act κ υ Unit) (l : List α) :
    ∀ w, (outcome (l.forM fun a => guarded (f a)) w).1 ≠ .error .failed := by
  induction l with
  | nil => exact fun w => nofun
  | cons a l ih =>
    intro w
    rw [outcome_forM_cons, outcome_guarded]
    rcases outcome (f a) w with ⟨r, u⟩
    cases r with
    | ok _ => exact ih u
    | error e =>
      cases e with
      | failed => exact ih u
      | exhausted => exact nofun

/-- What a call of `destroyTo` does; a detector that exists is destroyed, however its cleanups
end. -/
def Destroys (h : Host κ υ) (n : Nat) : Prop :=
  ∀ d w, Sound w → ∀ calls,
    (∃ tr, Does calls (.destroy h n d (outcome (destroyTo h n d) w).1) w tr
      (outcome (destroyTo h n d) w).2) ∧
    (d < w.detectors.size → (outcome (destroyTo h n d) w).1 ≠ .error .failed)

theorem Destroys.traced (hn : Destroys h n) : Traced (destroyTo h n d) :=
  fun w hw calls => by
    obtain ⟨tr, hdoes⟩ := (hn d w hw calls).1
    exact ⟨tr, .call hdoes⟩

theorem Destroys.all (hn : Destroys h n) {calls : List Frame} :
    ∀ (ds : List DetectorId) (w : World κ υ), Sound w → (∀ d ∈ ds, d < w.detectors.size) →
      (∃ tr, Does calls (.destroyAll h n ds (outcome (ds.forM (destroyTo h n)) w).1) w tr
        (outcome (ds.forM (destroyTo h n)) w).2) ∧
      (outcome (ds.forM (destroyTo h n)) w).1 ≠ .error .failed := by
  intro ds
  induction ds with
  | nil => exact fun w _ _ => ⟨⟨[], .nobody w⟩, nofun⟩
  | cons d ds ih =>
    intro w hw hknown
    obtain ⟨⟨tr, hdoes⟩, hfail⟩ := hn d w hw calls
    have hfail := hfail (hknown d List.mem_cons_self)
    have hcourse := hdoes.trail.course.1
    rw [outcome_forM_cons]
    generalize outcome (destroyTo h n d) w = p at hdoes hfail hcourse
    obtain ⟨r, u⟩ := p
    cases r with
    | error e =>
      cases e with
      | failed => exact absurd rfl hfail
      | exhausted => exact ⟨⟨tr, .nextStops hdoes⟩, nofun⟩
    | ok _ =>
      obtain ⟨⟨tr', hdoes'⟩, hfail'⟩ := ih u (hcourse.sound hw) fun e he =>
        (hknown e (.tail d he)).trans_le hcourse.detectors
      exact ⟨⟨tr ++ tr', .next hdoes hdoes'⟩, hfail'⟩

theorem Conforms.cleanUp (hh : Conforms h) (hn : Destroys h n) : Traced (cleanUp h n k) := by
  cases k with
  | hook k => exact hh.run k _
  | removeListener node l => exact (silent_changeDocument (·.removeListener node l)).traced
  | destroy j => exact hn.traced

theorem Conforms.destroys (hh : Conforms h) : ∀ n, Destroys h n := by
  intro n
  induction n with
  | zero => exact fun d w _ calls => ⟨⟨[], .tooDeep w⟩, fun _ => nofun⟩
  | succ n ih =>
    intro d w hw calls
    cases hd : w.detectors[d]? with
    | none =>
      rw [outcome_destroyTo_unknown hd]
      refine ⟨⟨_, .unknown hd⟩, fun hlt => ?_⟩
      rw [getElem?_eq_getElem hlt] at hd
      cases hd
    | some c =>
      have hcleanups : Traced (c.cleanups.forM fun k => Reactive.guarded (Reactive.cleanUp h n k)) :=
        .forM (fun k => (hh.cleanUp ih).guarded) _
      have hstruck := (Change.strike d w).course
      obtain ⟨tr, hdoes⟩ := hcleanups (w.strike d) (hstruck.sound hw) (.destroy d :: calls)
      have hcourse := hdoes.trail.course.1
      have hfail := guarded_forM_ne_failed (Reactive.cleanUp h n) c.cleanups (w.strike d)
      rw [outcome_destroyTo hd]
      generalize outcome (c.cleanups.forM fun k => Reactive.guarded (Reactive.cleanUp h n k))
        (w.strike d) = p at hdoes hfail hcourse
      obtain ⟨r, u⟩ := p
      cases r with
      | error e =>
        cases e with
        | failed => exact absurd rfl hfail
        | exhausted => exact ⟨⟨_, .cleanupStops hd hdoes⟩, fun _ => nofun⟩
      | ok _ =>
        have hu : Sound u := (hstruck.trans hcourse).sound hw
        have hsize : w.detectors.size ≤ u.detectors.size := (hstruck.trans hcourse).detectors
        have hlt := (Array.getElem?_eq_some_iff.mp hd).1
        have hd' : u.detectors[d]? = some _ := getElem?_eq_getElem (hlt.trans_le hsize)
        have horphan := (Change.orphan d u).course
        obtain ⟨⟨tr', hdoes'⟩, hfail'⟩ := ih.all (childrenOf u d) (u.orphan d)
          (horphan.sound hu) fun e he => (hu.newer d e he).2.trans_le horphan.detectors
        simp only [hd']
        exact ⟨⟨_, .destroy hd hdoes hdoes'⟩, fun _ => hfail'⟩

namespace Conforms

variable (hh : Conforms h)

include hh

theorem destroy (d : DetectorId) : Traced (destroy h d) :=
  silent_get.traced.bind fun _ => (hh.destroys _).traced

/-! ## Actions of watchers -/

theorem closed : Closed (@Traced κ υ) h where
  pure := fun a => silent_pure.traced
  stop := fun e => silent_throw.traced
  bind := fun hx hf => hx.bind hf
  guarded := fun hx => hx.guarded
  look := fun _ _ => Silent.traced (silent_get.bind fun _ => silent_pure)
  elsewhere := fun f _ hf => traced_elsewhere fun w => by
    have hcore := hf w
    simp only [World.core, Prod.mk.injEq] at hcore
    obtain ⟨hd, hw, -, hs, ht⟩ := hcore
    rw [World.frame, World.frame, hd, hw, hs, ht]
  amend := fun d _ hc hw _ _ => Silent.traced (silent_updateDetector hc hw)
  newChild := fun d => silent_newChild.traced
  removeChild := traced_removeChild
  destroy := hh.destroy
  planRender := fun _ => Silent.traced (silent_addTask fun _ => rfl)
  __ := hh

theorem perform : Traced (perform h a v) :=
  hh.closed.perform fun _ _ => hh.closed.awaitValue silent_find.traced
    (traced_elsewhere fun _ => rfl) fun _ _ => traced_elsewhere fun _ => rfl

end Conforms

/-! ## Digests -/

theorem outcome_check (hi : w.watchers[i]? = some c) : outcome (check h i) w =
      match outcome (readSource h c.source) w with
      | (.error e, u) => (.error e, u)
      | (.ok v, u) =>
        match u.watchers[i]? with
        | none => (.error .failed, u)
        | some c' =>
          if c.comparator.changed c'.value v then
            let p := outcome (perform h c.action v) (u.remember i v)
            (p.1.map fun _ => !c.readOnly, p.2)
          else (.ok false, u) := by
  rw [check, outcome_bind, outcome_find, hi]
  simp only
  rw [outcome_bind]
  rcases outcome (readSource h c.source) w with ⟨r, u⟩
  cases r with
  | error e => rfl
  | ok v =>
    simp only
    rw [outcome_bind, outcome_find]
    cases u.watchers[i]? with
    | none => rfl
    | some c' =>
      simp only
      split
      · rw [updateWatcher, outcome_modify_bind, outcome_bind]
        unfold World.remember
        generalize outcome (perform h c.action v) _ = p
        obtain ⟨r, w'⟩ := p
        cases r <;> rfl
      · rfl

namespace Conforms

variable (hh : Conforms h)

include hh

theorem check (hw : Sound w) (hi : i ∈ watchersOf w d) : TracedAt (check h i) w := by
  intro calls
  have hlt := hw.stored d i hi
  have hc : w.watchers[i]? = some _ := getElem?_eq_getElem hlt
  obtain ⟨tr, hdoes⟩ := hh.closed.readSource w hw (.read i :: calls)
  have hcourse := hdoes.trail.course.1
  rw [outcome_check hc]
  generalize outcome (Reactive.readSource h w.watchers[i].source) w = p at hdoes hcourse
  obtain ⟨r, u⟩ := p
  cases r with
  | error e => exact ⟨_, .unread hi hc hdoes⟩
  | ok v =>
    have hc' : u.watchers[i]? = some _ := getElem?_eq_getElem (hlt.trans_le hcourse.watchers)
    simp only [hc']
    split
    · next hchanged =>
      have hu : Sound (u.remember i v) := (Adds.remember u i v).sound (hcourse.sound hw)
      obtain ⟨tr', hdoes'⟩ := hh.perform _ hu calls
      exact ⟨_, .changed hi hc hdoes hc' hchanged hdoes'⟩
    · next hsame => exact ⟨_, .same hi hc hdoes hc' (Bool.eq_false_iff.mpr hsame)⟩

theorem checkFrom (d : DetectorId) (position n : Nat) :
    ∀ index last, Traced (checkFrom h d position n index last) := by
  induction n with
  | zero => exact fun index last => silent_throw.traced
  | succ n ih =>
    intro index last w hw
    refine .bind hw (silent_find.traced w hw) fun c u hfind _ => ?_
    obtain ⟨hc, rfl⟩ := returns_find.mp hfind
    cases hi : c.watchers[index]? with
    | none => exact silent_pure.traced u hw
    | some i =>
      have hmem : i ∈ watchersOf u d := by
        rw [watchersOf, hc]
        exact List.mem_of_getElem? hi
      refine .bind hw (hh.check hw hmem) fun counts v _ hv => ?_
      cases counts with
      | false => exact ih _ _ v hv
      | true => exact (silent_find.traced.bind fun _ => ih _ _) v hv

theorem runOnces : Traced (runOnces h root) :=
  silent_find.traced.bind fun _ =>
    .bind (Silent.traced (silent_updateDetector (fun _ => rfl) fun _ => rfl)) fun _ =>
      .forM (fun k => (hh.run k _).guarded) _

theorem digest (hf : Traced finish) : Traced (digest h root finish) :=
  hh.closed.digest (fun k => hh.run k _) hh.checkFrom hh.runOnces hf

end Conforms

/-! ## Schedulers and tasks -/

/-- A run of a scheduler, for whatever its passes and its waiting hooks do. -/
def schedule (passes : DetectorId → Act κ υ DigestReport) (onces : DetectorId → Act κ υ Unit)
    (s : SchedulerId) : Act κ υ Nat := do
  let c ← find World.schedulers s
  modify fun w => w.setRunning s true
  let report ← passes c.root
  modify fun w => w.setRunning s false
  onces c.root
  modify fun w => w.countRun s
  return report.passes

theorem runNow_eq :
    runNow h s = schedule (fun root => passesFrom h root maxPasses 0 none) (runOnces h) s := by
  simp only [runNow, digest, digestReport, runOnces, schedule, bind_assoc, pure_bind]
  rfl

section

variable {passes : DetectorId → Act κ υ DigestReport} {onces : DetectorId → Act κ υ Unit}
  {s : SchedulerId} {c : Scheduler} {w u w' : World κ υ} {e : Stop} {report : DigestReport}

theorem outcome_schedule_unknown (hs : w.schedulers[s]? = none) :
    outcome (schedule passes onces s) w = (.error .failed, w) := by
  rw [schedule, outcome_bind, outcome_find, hs]

theorem outcome_schedule_loopStops (hs : w.schedulers[s]? = some c)
    (hp : outcome (passes c.root) (w.setRunning s true) = (.error e, u)) :
    outcome (schedule passes onces s) w = (.error e, u) := by
  rw [schedule, outcome_bind, outcome_find, hs]
  simp only
  rw [outcome_modify_bind, outcome_bind, hp]

section

variable (hs : w.schedulers[s]? = some c)
  (hp : outcome (passes c.root) (w.setRunning s true) = (.ok report, u))
include hs hp

theorem outcome_schedule_onceStops
    (ho : outcome (onces c.root) (u.setRunning s false) = (.error e, w')) :
    outcome (schedule passes onces s) w = (.error e, w') := by
  rw [schedule, outcome_bind, outcome_find, hs]
  simp only
  rw [outcome_modify_bind, outcome_bind, hp]
  simp only
  rw [outcome_modify_bind, outcome_bind, ho]

theorem outcome_schedule (ho : outcome (onces c.root) (u.setRunning s false) = (.ok (), w')) :
    outcome (schedule passes onces s) w = (.ok report.passes, w'.countRun s) := by
  rw [schedule, outcome_bind, outcome_find, hs]
  simp only
  rw [outcome_modify_bind, outcome_bind, hp]
  simp only
  rw [outcome_modify_bind, outcome_bind, ho]
  rfl

end

end

theorem outcome_takeTask_digest : outcome (takeTask h (.digest s) rest) w =
      ((outcome (runNow h s) (w.takeDigest s rest)).1.map fun _ => (),
        (outcome (runNow h s) (w.takeDigest s rest)).2) := by
  rw [takeTask, outcome_modify_bind, runTask, updateScheduler, outcome_modify_bind, outcome_bind]
  unfold World.takeDigest
  generalize outcome (runNow h s) _ = p
  obtain ⟨r, u⟩ := p
  cases r <;> rfl

namespace Conforms

variable (hh : Conforms h)

include hh

theorem run_does (hw : Sound w) : ∃ tr, Does calls (.run h s (outcome (runNow h s) w).1) w tr
      (outcome (runNow h s) w).2 := by
  rw [runNow_eq]
  cases hs : w.schedulers[s]? with
  | none =>
    rw [outcome_schedule_unknown hs]
    exact ⟨_, .unscheduled hs⟩
  | some c =>
    have hset := (Change.setRunning s true w).course.sound hw
    obtain ⟨tr, hdoes⟩ := hh.closed.passesFrom (fun k => hh.run k _) hh.checkFrom 0
      none _ hset (.loop s :: .run s :: calls)
    have hsound := hdoes.trail.course.1.sound hset
    rcases hp : outcome (Reactive.passesFrom h c.root maxPasses 0 none) (w.setRunning s true)
      with ⟨r, u⟩
    rw [hp] at hdoes hsound
    cases r with
    | error e =>
      rw [outcome_schedule_loopStops hs hp]
      exact ⟨_, .loopStops hs hdoes⟩
    | ok report =>
      have hunset := (Change.setRunning s false u).course.sound hsound
      obtain ⟨tr', hdoes'⟩ := hh.runOnces _ hunset (.run s :: calls)
      rcases ho : outcome (Reactive.runOnces h c.root) (u.setRunning s false) with ⟨r, w'⟩
      rw [ho] at hdoes'
      cases r with
      | error e =>
        rw [outcome_schedule_onceStops hs hp ho]
        exact ⟨_, .onceStops hs hdoes hdoes'⟩
      | ok _ =>
        rw [outcome_schedule hs hp ho]
        exact ⟨_, .run hs hdoes hdoes'⟩

theorem takeTask (hw : Sound w) (ht : w.tasks = t :: rest) : TracedAt (takeTask h t rest) w := by
  intro calls
  cases t with
  | digest s =>
    have hw' : Sound (w.takeDigest s rest) := (Effect.take ht).course.sound hw
    obtain ⟨tr, hdoes⟩ := hh.run_does hw'
    rw [outcome_takeTask_digest]
    exact ⟨_, .take ht hdoes⟩
  | hook k =>
    have hw' := (Change.dropTask ht fun _ => rfl).course.sound hw
    obtain ⟨tr, hdoes⟩ := hh.run k .plain _ hw' calls
    exact ⟨tr, .other ht (fun _ => rfl) hdoes⟩
  | render i =>
    have hw' := (Change.dropTask ht fun _ => rfl).course.sound hw
    obtain ⟨tr, hdoes⟩ := hh.closed.renderSpread _ hw' calls
    exact ⟨tr, .other ht (fun _ => rfl) hdoes⟩

theorem runTasks : ∀ ran, Traced (runTasks h n ran) := by
  induction n with
  | zero => exact fun ran => silent_throw.traced
  | succ n ih =>
    intro ran w hw
    refine .bind hw (silent_get.traced w hw) fun v u hget _ => ?_
    obtain ⟨rfl, rfl⟩ := returns_get.mp hget
    cases ht : u.tasks with
    | nil => exact silent_pure.traced u hw
    | cons t rest =>
      simp only
      rw [takeTask_bind]
      exact .bind hw (hh.takeTask hw ht) fun _ v _ hv => ih _ v hv

theorem runUntilIdle : Traced (runUntilIdle h) := silent_get.traced.bind fun _ => hh.runTasks _

end Conforms

/-! ## What a trace tells of -/

def Errand.Ends : Errand κ υ → World κ υ → World κ υ → Prop
  | .act x r, w, w' => outcome x w = (r, w')
  | .destroy h n d r, w, w' => outcome (destroyTo h n d) w = (r, w')
  | .destroyAll h n ds r, w, w' => outcome (ds.forM (destroyTo h n)) w = (r, w')
  | .run h s r, w, w' => outcome (runNow h s) w = (r, w')

theorem Does.ends (hd : Does calls j w tr w') : j.Ends w w' := by
  induction hd
  all_goals simp only [Errand.Ends] at *
  case bind ih ih' =>
    rw [outcome_bind, ih]
    exact ih'
  case stop ih => rw [outcome_bind, ih]
  case guarded r _ _ _ _ ih =>
    rw [outcome_guarded, ih]
    cases r with
    | ok _ => rfl
    | error e => cases e <;> rfl
  case remove => rfl
  case call ih => exact ih
  case tooDeep => rfl
  case unknown hd => exact outcome_destroyTo_unknown hd
  case cleanupStops hd _ ih => rw [outcome_destroyTo hd, ih]
  case destroy d _ _ _ u _ _ _ _ _ w hd hdoes _ ih ih' =>
    have hsize : w.detectors.size ≤ u.detectors.size :=
      ((Change.strike d w).course.trans hdoes.trail.course.1).detectors
    have hlt := (Array.getElem?_eq_some_iff.mp hd).1
    have hd' : u.detectors[d]? = some _ := getElem?_eq_getElem (hlt.trans_le hsize)
    rw [outcome_destroyTo hd, ih]
    simp only [hd']
    exact ih'
  case nobody => rfl
  case next ih ih' =>
    rw [outcome_forM_cons, ih]
    exact ih'
  case nextStops ih => rw [outcome_forM_cons, ih]
  case unread hc _ ih => rw [outcome_check hc, ih]
  case same hc _ hc' hsame ih =>
    rw [outcome_check hc, ih]
    simp only [hc', hsame, Bool.false_eq_true, if_false]
  case changed hc _ hc' hchanged _ ih ih' =>
    rw [outcome_check hc, ih]
    simp only [hc', hchanged, if_true, ih']
  case start ih => exact ih
  case unscheduled hs => rw [runNow_eq, outcome_schedule_unknown hs]
  case loopStops hs _ ih => rw [runNow_eq, outcome_schedule_loopStops hs ih]
  case onceStops hs _ _ ih ih' => rw [runNow_eq, outcome_schedule_onceStops hs ih ih']
  case run hs _ _ ih ih' => rw [runNow_eq, outcome_schedule hs ih ih']
  case take ih => rw [outcome_takeTask_digest, ih]
  case other ih => rw [takeTask, outcome_modify_bind, ih]

/-! ## Histories -/

theorem Conforms.play (hh : Conforms h) (moves : List (Move κ)) : Traced (play h moves) := by
  refine .forM (fun m => Traced.guarded ?_) moves
  cases m with
  | user k o => exact hh.run k o
  | digest root finish =>
    exact (hh.digest (hh.closed.forM_option (fun k => hh.run k .plain) finish)).bind fun _ =>
      silent_pure.traced
  | idle => exact hh.runUntilIdle.bind fun _ => silent_pure.traced

/-! ## Traces of short computations -/

/-- The world in which no hook waits for a digest of a detector. -/
def World.served (w : World κ υ) (d : DetectorId) : World κ υ :=
  { w with detectors := w.detectors.modify d fun x => { x with onces := [] } }

theorem exists_slack (size : Nat) : ∃ n, size + slack = n + 1 + 1 :=
  ⟨size + 999998, by simp only [slack, Nat.add_assoc]⟩

namespace Does

variable {calls : List Frame} {w u w' : World κ υ} {tr tr' : List (Moment κ υ)} {x : Act κ υ α}
  {f : α → Act κ υ β} {a : α} {r : Except Stop β} {d : DetectorId} {i : WatcherId}

theorem first (hx : Does calls (.act x (.ok a)) w [] u) (hf : Does calls (.act (f a) r) u tr w') :
    Does calls (.act (x >>= f) r) w tr w' :=
  .bind hx hf

theorem last (hx : Does calls (.act x (.ok a)) w tr u) (hf : Does calls (.act (f a) r) u [] w') :
    Does calls (.act (x >>= f) r) w tr w' :=
  List.append_nil tr ▸ .bind hx hf

theorem returned : Does calls (.act (pure a) (.ok a)) w [] w :=
  .silent w silent_pure

theorem found (hn : (store w)[n]? = some a) : Does calls (.act (find store n) (.ok a)) w [] w := by
  have hdoes : Does calls (.act (find store n) _) w [] _ := .silent w silent_find
  rwa [outcome_find, hn] at hdoes

theorem one {f : α → Act κ υ Unit} (ha : Does calls (.act (f a) (.ok ())) w tr u) :
    Does calls (.act ([a].forM f) (.ok ())) w tr u :=
  last ha returned

theorem played : Does calls (.act (play h []) (.ok ())) w [] w := returned

theorem moved {r : Except Stop Unit} (hm : Does calls (.act (m.run h) (.ok ())) w p u)
    (hrest : Does calls (.act (play h moves) r) u q w') :
    Does calls (.act (play h (m :: moves)) r) w (p ++ q) w' := by
  have hguarded : Does calls (.act (Reactive.guarded (m.run h)) (.ok ())) w p u := .guarded hm
  exact .bind hguarded hrest

theorem noticed (hi : i ∈ watchersOf w d) (hc : w.watchers[i]? = some c) (hr : c.readOnly = true)
    (hread : Does (.read i :: calls) (.act (readSource h c.source) (.ok v)) w p u)
    (he : u.watchers[i]? = some e) (hv : c.comparator.changed e.value v = true)
    (hact : Does calls (.act (perform h c.action v) (.ok ())) (u.remember i v) q w') :
    Does calls (.act (check h i) (.ok false)) w
      (⟨.read i, calls, w⟩ :: (p ++ ⟨.act i, calls, u⟩ :: q)) w' := by
  have hdoes := Does.changed hi hc hread he hv hact
  rwa [hr] at hdoes

theorem passed (hd : w.detectors[d]? = some c) (hp : c.preludes = []) (hi : c.watchers[0]? = some i)
    (hcheck : Does calls (.act (Reactive.check h i) (.ok false)) w tr u)
    (he : u.detectors[d]? = some e) (hw : e.watchers[1]? = none) (hc : e.children = []) :
    Does calls (.act (passesFrom h d maxPasses 0 none) (.ok ⟨1, true, none⟩)) w tr u := by
  have hchecks : Does calls (.act (checkFrom h d 0 (w.watchers.size + slack) 0 none) (.ok none)) w tr
      u := by
    obtain ⟨n, hn⟩ := exists_slack w.watchers.size
    rw [hn]
    refine first (found hd) ?_
    simp only [hi]
    refine last hcheck (first returned ?_)
    refine first (found he) ?_
    simp only [hw]
    exact returned
  have hpass : Does calls (.act (pass h d) (.ok none)) w tr u := by
    obtain ⟨n, hn⟩ := exists_slack w.detectors.size
    refine first (.silent w silent_get) ?_
    rw [hn]
    refine first (found hd) ?_
    rw [hp]
    refine first returned (first (.silent w silent_get) (last hchecks ?_))
    refine first (found he) ?_
    rw [hc]
    exact returned
  exact last hpass returned

theorem noTask (ht : w.tasks = []) :
    Does calls (.act (runTasks h (n + 1) ran) (.ok ran)) w [] w := by
  refine first (.silent w silent_get) ?_
  simp only [ht]
  exact returned

theorem nextTask {r : Except Stop Nat} (ht : w.tasks = t :: rest)
    (htask : Does calls (.act (takeTask h t rest) (.ok ())) w tr u)
    (hrest : Does calls (.act (runTasks h n (ran + 1)) r) u tr' w') :
    Does calls (.act (runTasks h (n + 1) ran) r) w (tr ++ tr') w' := by
  refine first (.silent w silent_get) ?_
  simp only [ht]
  rw [takeTask_bind]
  exact .bind htask hrest

theorem served :
    Does calls (.act (updateDetector d fun x => { x with onces := [] }) (.ok ())) w [] (w.served d) :=
  .silent w (silent_updateDetector (fun _ => rfl) fun _ => rfl)

end Does

end ReactiveMarkup.Reactive
