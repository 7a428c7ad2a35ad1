import ReactiveMarkup.Proofs.Additions
import ReactiveMarkup.Proofs.RuntimeCode

/-! # Traces

What a computation does, as the list of its moments: a watcher is read or acted on, a child is taken
away, a detector is destroyed, a digest is asked for, taken up or begun. A moment knows the calls
that are under way and the world that it finds.
-/

namespace ReactiveMarkup.Reactive

open List

variable {κ υ : Type}

/-! ## Changes of the world -/

namespace World

variable (w : World κ υ)

/-- The world in which a detector is marked as destroyed and has nothing left but children. -/
def strike (d : DetectorId) : World κ υ :=
  { w with detectors := w.detectors.modify d fun c =>
      { c with destroyed := true, watchers := [], preludes := [], cleanups := [] } }

def orphan (d : DetectorId) : World κ υ :=
  { w with detectors := w.detectors.modify d fun c => { c with children := [] } }

def release (p c : DetectorId) : World κ υ :=
  { w with detectors := w.detectors.modify p fun d =>
      { d with children := d.children.filter (· != c) } }

def setRunning (s : SchedulerId) (b : Bool) : World κ υ :=
  { w with schedulers := w.schedulers.modify s fun c => { c with running := b } }

def plan (s : SchedulerId) : World κ υ :=
  { w with
    schedulers := w.schedulers.modify s fun c => { c with planned := true }
    tasks := w.tasks ++ [.digest s] }

def countRun (s : SchedulerId) : World κ υ :=
  { w with schedulers := w.schedulers.modify s fun c =>
      { c with running := false, digests := c.digests + 1 } }

def takeDigest (s : SchedulerId) (rest : List (Task κ)) : World κ υ :=
  { w with
    tasks := rest
    schedulers := w.schedulers.modify s fun c => { c with planned := false } }

end World

/-! ## Moments -/

/-- A call that is under way: the source of a watcher is read, a detector is destroyed, a scheduler
makes its passes, a scheduler runs. -/
inductive Frame where
  | read (i : WatcherId)
  | destroy (d : DetectorId)
  | loop (s : SchedulerId)
  | run (s : SchedulerId)
  deriving DecidableEq, Repr

inductive Event where
  | read (i : WatcherId)
  | act (i : WatcherId)
  | remove (parent child : DetectorId)
  | destroy (d : DetectorId)
  | apply (s : SchedulerId)
  | take (s : SchedulerId)
  | begin (s : SchedulerId) (root : DetectorId)
  | breakOff (s : SchedulerId)
  deriving DecidableEq, Repr

structure Moment (κ υ : Type) where
  event : Event
  calls : List Frame
  world : World κ υ

/-- A computation with its result. Destroying a detector and running a scheduler are errands of their
own, so that their course is known. -/
inductive Errand (κ υ : Type) : Type 1 where
  | act {α : Type} (x : Act κ υ α) (r : Except Stop α)
  | destroy (h : Host κ υ) (n : Nat) (d : DetectorId) (r : Except Stop Unit)
  | destroyAll (h : Host κ υ) (n : Nat) (ds : List DetectorId) (r : Except Stop Unit)
  | run (h : Host κ υ) (s : SchedulerId) (r : Except Stop Nat)

def forgive : Except Stop Unit → Except Stop Unit
  | .error .failed => .ok ()
  | r => r

theorem outcome_guarded_eq (x : Act κ υ Unit) (w : World κ υ) :
    outcome (guarded x) w = (forgive (outcome x w).1, (outcome x w).2) := by
  rw [outcome_guarded]
  rcases outcome x w with ⟨r, u⟩
  cases r with
  | ok a => rfl
  | error e => cases e <;> rfl

/-- `Does calls j w tr w'`: under the given calls, the errand goes from `w` to `w'` by the moments
`tr`. -/
inductive Does : List Frame → Errand κ υ → World κ υ → List (Moment κ υ) → World κ υ → Prop where
  | silent (w : World κ υ) : Silent x → Does calls (.act x (outcome x w).1) w [] (outcome x w).2
  | bind : Does calls (.act x (.ok a)) w tr u → Does calls (.act (f a) r) u tr' w' →
    Does calls (.act (x >>= f) r) w (tr ++ tr') w'
  | stop : Does calls (.act x (.error e)) w tr w' → Does calls (.act (x >>= f) (.error e)) w tr w'
  | guarded : Does calls (.act x r) w tr w' → Does calls (.act (guarded x) (forgive r)) w tr w'
  | remove (p c : DetectorId) (w : World κ υ) :
    Does calls (.act (removeChild p c) (.ok ())) w [⟨.remove p c, calls, w⟩] (w.release p c)
  -- destroying a detector
  | call : Does calls (.destroy h n d r) w tr w' → Does calls (.act (destroyTo h n d) r) w tr w'
  | tooDeep (w : World κ υ) : Does calls (.destroy h 0 d (.error .exhausted)) w [] w
  | unknown : w.detectors[d]? = none →
    Does calls (.destroy h (n + 1) d (.error .failed)) w [⟨.destroy d, calls, w⟩] w
  | cleanupStops : w.detectors[d]? = some c →
    Does (.destroy d :: calls)
      (.act (c.cleanups.forM fun k => guarded (cleanUp h n k)) (.error .exhausted)) (w.strike d) tr u →
    Does calls (.destroy h (n + 1) d (.error .exhausted)) w (⟨.destroy d, calls, w⟩ :: tr) u
  | destroy : w.detectors[d]? = some c →
    Does (.destroy d :: calls)
      (.act (c.cleanups.forM fun k => guarded (cleanUp h n k)) (.ok ())) (w.strike d) tr u →
    Does (.destroy d :: calls) (.destroyAll h n (childrenOf u d) r) (u.orphan d) tr' w' →
    Does calls (.destroy h (n + 1) d r) w (⟨.destroy d, calls, w⟩ :: (tr ++ tr')) w'
  | nobody (w : World κ υ) : Does calls (.destroyAll h n [] (.ok ())) w [] w
  | next : Does calls (.destroy h n d (.ok ())) w tr u →
    Does calls (.destroyAll h n ds r) u tr' w' →
    Does calls (.destroyAll h n (d :: ds) r) w (tr ++ tr') w'
  | nextStops : Does calls (.destroy h n d (.error .exhausted)) w tr w' →
    Does calls (.destroyAll h n (d :: ds) (.error .exhausted)) w tr w'
  -- checking a watcher
  | unread : i ∈ watchersOf w d → w.watchers[i]? = some c →
    Does (.read i :: calls) (.act (readSource h c.source) (.error e)) w tr u →
    Does calls (.act (check h i) (.error e)) w (⟨.read i, calls, w⟩ :: tr) u
  | same : i ∈ watchersOf w d → w.watchers[i]? = some c →
    Does (.read i :: calls) (.act (readSource h c.source) (.ok v)) w tr u →
    u.watchers[i]? = some e → c.comparator.changed e.value v = false →
    Does calls (.act (check h i) (.ok false)) w (⟨.read i, calls, w⟩ :: tr) u
  | changed : i ∈ watchersOf w d → w.watchers[i]? = some c →
    Does (.read i :: calls) (.act (readSource h c.source) (.ok v)) w tr u →
    u.watchers[i]? = some c' → c.comparator.changed c'.value v = true →
    Does calls (.act (perform h c.action v) r) (u.remember i v) tr' w' →
    Does calls (.act (check h i) (r.map fun _ => !c.readOnly)) w
      (⟨.read i, calls, w⟩ :: (tr ++ ⟨.act i, calls, u⟩ :: tr')) w'
  -- schedulers and tasks
  | apply (s : SchedulerId) (w : World κ υ) :
    Does calls (.act (apply s) (outcome (apply s) w).1) w [⟨.apply s, calls, w⟩]
      (outcome (apply s) w).2
  | start : Does calls (.run h s r) w tr w' → Does calls (.act (runNow h s) r) w tr w'
  | unscheduled : w.schedulers[s]? = none → Does calls (.run h s (.error .failed)) w [] w
  | loopStops : w.schedulers[s]? = some c →
    Does (.loop s :: .run s :: calls) (.act (passesFrom h c.root maxPasses 0 none) (.error e))
      (w.setRunning s true) tr u →
    Does calls (.run h s (.error e)) w
      (⟨.begin s c.root, calls, w⟩ :: (tr ++ [⟨.breakOff s, calls, u⟩])) u
  | onceStops : w.schedulers[s]? = some c →
    Does (.loop s :: .run s :: calls) (.act (passesFrom h c.root maxPasses 0 none) (.ok report))
      (w.setRunning s true) tr u →
    Does (.run s :: calls) (.act (runOnces h c.root) (.error e)) (u.setRunning s false) tr' w' →
    Does calls (.run h s (.error e)) w (⟨.begin s c.root, calls, w⟩ :: (tr ++ tr')) w'
  | run : w.schedulers[s]? = some c →
    Does (.loop s :: .run s :: calls) (.act (passesFrom h c.root maxPasses 0 none) (.ok report))
      (w.setRunning s true) tr u →
    Does (.run s :: calls) (.act (runOnces h c.root) (.ok ())) (u.setRunning s false) tr' w' →
    Does calls (.run h s (.ok report.passes)) w
      (⟨.begin s c.root, calls, w⟩ :: (tr ++ tr')) (w'.countRun s)
  | take : w.tasks = .digest s :: rest →
    Does calls (.run h s r) (w.takeDigest s rest) tr w' →
    Does calls (.act (takeTask h (.digest s) rest) (r.map fun _ => ())) w
      (⟨.take s, calls, w⟩ :: tr) w'
  | other : w.tasks = t :: rest → (∀ s, t.isDigestOf s = false) →
    Does calls (.act (runTask h t) r) { w with tasks := rest } tr w' →
    Does calls (.act (takeTask h t rest) r) w tr w'

/-! ## The course of the world -/

inductive Change : World κ υ → World κ υ → Prop where
  | adds : Adds w w' → Change w w'
  | strike (d : DetectorId) (w : World κ υ) : Change w (w.strike d)
  | orphan (d : DetectorId) (w : World κ υ) : Change w (w.orphan d)
  | setRunning (s : SchedulerId) (b : Bool) (w : World κ υ) : Change w (w.setRunning s b)
  | countRun (s : SchedulerId) (w : World κ υ) : Change w (w.countRun s)
  | dropTask : w.tasks = t :: rest → (∀ s, t.isDigestOf s = false) →
    Change w { w with tasks := rest }

inductive Effect : Event → World κ υ → World κ υ → Prop where
  | read : i ∈ watchersOf w d → Effect (.read i) w w
  | act (i : WatcherId) (w : World κ υ) : Effect (.act i) w w
  | remove (p c : DetectorId) (w : World κ υ) : Effect (.remove p c) w (w.release p c)
  | destroy (d : DetectorId) (w : World κ υ) : Effect (.destroy d) w w
  | apply (s : SchedulerId) (w : World κ υ) : Effect (.apply s) w (outcome (apply s) w).2
  | take : w.tasks = .digest s :: rest → Effect (.take s) w (w.takeDigest s rest)
  | begin : w.schedulers[s]? = some c → Effect (.begin s c.root) w w
  | breakOff (s : SchedulerId) (w : World κ υ) : Effect (.breakOff s) w w

/-- The moments of a trace follow one another, with changes between them. -/
inductive Trail : World κ υ → List (Moment κ υ) → World κ υ → Prop where
  | done (w : World κ υ) : Trail w [] w
  | change : Change w u → Trail u tr w' → Trail w tr w'
  | event : Effect e w u → Trail u tr w' → Trail w (⟨e, calls, w⟩ :: tr) w'

namespace Trail

variable {w u w' : World κ υ} {tr tr' : List (Moment κ υ)}

theorem append (h : Trail w tr u) (h' : Trail u tr' w') : Trail w (tr ++ tr') w' := by
  induction h with
  | done => exact h'
  | change hc _ ih => exact .change hc (ih h')
  | event he _ ih => exact .event he (ih h')

theorem split (h : Trail w (tr ++ tr') w') : ∃ u, Trail w tr u ∧ Trail u tr' w' := by
  generalize heq : tr ++ tr' = whole at h
  induction h generalizing tr with
  | done w =>
    obtain ⟨rfl, rfl⟩ := append_eq_nil_iff.mp heq
    exact ⟨w, .done w, .done w⟩
  | change hc _ ih =>
    obtain ⟨v, hv, hv'⟩ := ih heq
    exact ⟨v, .change hc hv, hv'⟩
  | @event e w u rest w' calls he hrest ih =>
    cases tr with
    | nil =>
      subst heq
      exact ⟨w, .done w, .event he hrest⟩
    | cons m tr =>
      obtain ⟨rfl, hrest'⟩ := List.cons.inj heq
      obtain ⟨v, hv, hv'⟩ := ih hrest'
      exact ⟨v, .event he hv, hv'⟩

theorem keeps {p : World κ υ → Prop} (hc : ∀ {w w'}, Change w w' → p w → p w')
    (he : ∀ {e w w'}, Effect e w w' → p w → p w') (h : Trail w tr w') (hw : p w) :
    p w' ∧ ∀ m ∈ tr, p m.world := by
  induction h with
  | done w => exact ⟨hw, nofun⟩
  | change h _ ih => exact ih (hc h hw)
  | event h _ ih =>
    obtain ⟨hend, hall⟩ := ih (he h hw)
    exact ⟨hend, forall_mem_cons.mpr ⟨hw, hall⟩⟩

end Trail

theorem Adds.remember (w : World κ υ) (i : WatcherId) (v : Value) : Adds w (w.remember i v) :=
  .of_same rfl (by simp [World.remember]) rfl rfl

/-- What holds of changes and of single moments, and of traces that follow or enclose one another
when it holds of each, holds of every trace. -/
@[elab_as_elim]
theorem Does.shape {Q : List Frame → World κ υ → List (Moment κ υ) → World κ υ → Prop}
    (quiet : ∀ {calls w w'}, Change w w' → Q calls w [] w')
    (event : ∀ {calls e w w'}, Effect e w w' → (∀ i, e ≠ .act i) → (∀ s, e ≠ .take s) →
      Q calls w [⟨e, calls, w⟩] w')
    (append : ∀ {calls w tr u tr' w'}, Q calls w tr u → Q calls u tr' w' → Q calls w (tr ++ tr') w')
    (leave : ∀ {f calls w tr w'}, Q (f :: calls) w tr w' → Q calls w tr w')
    (act : ∀ {i d calls w tr u}, i ∈ watchersOf w d → Q calls w tr u →
      Q calls w (⟨.read i, calls, w⟩ :: (tr ++ [⟨.act i, calls, u⟩])) u)
    (take : ∀ {h s calls rest r w tr w'}, w.tasks = .digest s :: rest →
      Does calls (.run h s r) (w.takeDigest s rest) tr w' → Q calls (w.takeDigest s rest) tr w' →
      Q calls w (⟨.take s, calls, w⟩ :: tr) w')
    (h : Does calls j w tr w') : Q calls w tr w' := by
  have still : ∀ {calls w}, Q calls w [] w := quiet (.adds (.refl))
  have after : ∀ {calls w u tr w'}, Change w u → Q calls u tr w' → Q calls w tr w' :=
    fun hc => append (quiet hc)
  have cons : ∀ {e calls w u tr w'}, Effect e w u → (∀ i, e ≠ .act i) → (∀ s, e ≠ .take s) →
      Q calls u tr w' → Q calls w (⟨e, calls, w⟩ :: tr) w' :=
    fun he hact htake => append (event he hact htake)
  induction h with
  | silent w hx => exact quiet (.adds (hx w))
  | bind _ _ ih ih' | next _ _ ih ih' => exact append ih ih'
  | stop _ ih | guarded _ ih | call _ ih | nextStops _ ih | start _ ih => exact ih
  | tooDeep | nobody | unscheduled => exact still
  | remove p c w => exact event (.remove p c w) nofun nofun
  | unknown => exact event (.destroy _ _) nofun nofun
  | cleanupStops _ _ ih => exact cons (.destroy _ _) nofun nofun (after (.strike _ _) (leave ih))
  | destroy _ _ _ ih ih' =>
    exact cons (.destroy _ _) nofun nofun
      (after (.strike _ _) (leave (append ih (after (.orphan _ _) ih'))))
  | unread hi _ _ ih | same hi _ _ _ _ ih => exact cons (.read hi) nofun nofun (leave ih)
  | changed hi _ _ _ _ _ ih ih' =>
    have hall := append (act hi (leave ih)) (after (.adds (.remember _ _ _)) ih')
    rwa [cons_append, append_assoc] at hall
  | apply s w => exact event (.apply s w) nofun nofun
  | loopStops hs _ ih =>
    exact cons (.begin hs) nofun nofun (after (.setRunning _ _ _)
      (append (leave (leave ih)) (event (.breakOff _ _) nofun nofun)))
  | onceStops hs _ _ ih ih' =>
    exact cons (.begin hs) nofun nofun (after (.setRunning _ _ _)
      (leave (append (leave ih) (after (.setRunning _ _ _) ih'))))
  | @run s _ _ _ _ _ _ _ _ _ hs _ _ ih ih' =>
    have honces := append ih' (quiet (.countRun s _))
    rw [append_nil] at honces
    exact cons (.begin hs) nofun nofun (after (.setRunning _ _ _)
      (leave (append (leave ih) (after (.setRunning _ _ _) honces))))
  | take ht hrun ih => exact take ht hrun ih
  | other ht hd _ ih => exact after (.dropTask ht hd) ih

theorem Does.trail (h : Does calls j w tr w') : Trail w tr w' :=
  h.shape (fun hc => .change hc (.done _)) (fun he _ _ => .event he (.done _))
    (fun ih ih' => ih.append ih') (fun ih => ih)
    (fun hi ih => .event (.read hi) (ih.append (.event (.act _ _) (.done _))))
    fun ht _ ih => .event (.take ht) ih

theorem outcome_apply : outcome (apply s) w =
      match w.schedulers[s]? with
      | some c => (.ok (), if !c.running && !c.planned then w.plan s else w)
      | none => (.error .failed, w) := by
  rw [apply, outcome_bind, outcome_find]
  cases w.schedulers[s]? with
  | none => rfl
  | some c =>
    simp only
    split <;> rfl

/-! ## Lists of detectors along a trace -/

/-- Nobody finds a new parent or another detector that lists it. -/
structure Course (w w' : World κ υ) : Prop where
  sound : Sound w → Sound w'
  detectors : w.detectors.size ≤ w'.detectors.size
  watchers : w.watchers.size ≤ w'.watchers.size
  listed : ∀ d i, i < w.watchers.size → i ∈ watchersOf w' d → i ∈ watchersOf w d
  children : ∀ d c, c < w.detectors.size → c ∈ childrenOf w' d → c ∈ childrenOf w d

namespace Course

variable {w u w' : World κ υ}

theorem of_adds (h : Adds w w') : Course w w' :=
  ⟨h.sound, h.detectors, h.watchers, fun d i hi => (h.listed d i hi).mp,
    fun d c hc => (h.children d c hc).mp⟩

theorem of_same (hd : w'.detectors = w.detectors) (hw : w'.watchers = w.watchers) :
    Course w w' := by
  cases w
  cases hd
  cases hw
  exact ⟨fun h => { h with }, le_rfl, le_rfl, fun _ _ _ hi => hi, fun _ _ _ hc => hc⟩

theorem modify
    (hc : ∀ c, (f c).children.Sublist c.children) (hw : ∀ c, (f c).watchers.Sublist c.watchers) :
    Course w { w with detectors := w.detectors.modify j f } where
  sound := fun h => by
    refine ⟨h.toHierarchy.modify j hc hw, fun i d e hd he => ?_⟩
    exact h.owner i d e ((watchersOf_modify_sublist hw).subset hd)
      ((watchersOf_modify_sublist hw).subset he)
  detectors := by simp
  watchers := le_rfl
  listed := fun d i _ hi => (watchersOf_modify_sublist hw).subset hi
  children := fun d c _ hm => (childrenOf_modify_sublist hc).subset hm

theorem refl : Course w w := of_same rfl rfl

theorem trans (h : Course w u) (h' : Course u w') : Course w w' where
  sound := fun hw => h'.sound (h.sound hw)
  detectors := h.detectors.trans h'.detectors
  watchers := h.watchers.trans h'.watchers
  listed := fun d i hi hm => h.listed d i hi (h'.listed d i (hi.trans_le h.watchers) hm)
  children := fun d c hc hm => h.children d c hc (h'.children d c (hc.trans_le h.detectors) hm)

end Course

theorem Change.course (h : Change w w') : Course w w' := by
  cases h with
  | adds h => exact .of_adds h
  | strike d => exact .modify (fun _ => .refl _) fun _ => nil_sublist _
  | orphan d => exact .modify (fun _ => nil_sublist _) fun _ => .refl _
  | setRunning s b | countRun s | dropTask => exact .of_same rfl rfl

theorem Effect.course (h : Effect e w w') : Course w w' := by
  cases h with
  | read | act | destroy | begin | breakOff => exact .refl
  | remove p c => exact .modify (fun _ => filter_sublist) fun _ => .refl _
  | apply s =>
    rw [outcome_apply]
    cases w.schedulers[s]? with
    | none => exact .refl
    | some c =>
      simp only
      split
      · exact .of_same rfl rfl
      · exact .refl
  | take => exact .of_same rfl rfl

theorem Trail.course {tr : List (Moment κ υ)} (h : Trail w tr w') :
    Course w w' ∧ ∀ m ∈ tr, Course w m.world :=
  h.keeps (fun hc hw => hw.trans hc.course) (fun he hw => hw.trans he.course) (.refl)

/-! ## Computations with traces -/

def TracedAt {α : Type} (x : Act κ υ α) (w : World κ υ) : Prop :=
  ∀ calls, ∃ tr, Does calls (.act x (outcome x w).1) w tr (outcome x w).2

def Traced {α : Type} (x : Act κ υ α) : Prop := ∀ w, Sound w → TracedAt x w

theorem TracedAt.bind {x : Act κ υ α} {f : α → Act κ υ β}
    (hw : Sound w) (hx : TracedAt x w)
    (hf : ∀ a u, outcome x w = (.ok a, u) → Sound u → TracedAt (f a) u) : TracedAt (x >>= f) w := by
  intro calls
  obtain ⟨tr, hdoes⟩ := hx calls
  rw [outcome_bind]
  generalize outcome x w = p at hdoes hf
  obtain ⟨r, u⟩ := p
  cases r with
  | error e => exact ⟨tr, .stop hdoes⟩
  | ok a =>
    obtain ⟨tr', hdoes'⟩ := hf a u rfl (hdoes.trail.course.1.sound hw) calls
    exact ⟨tr ++ tr', .bind hdoes hdoes'⟩

theorem Silent.traced {x : Act κ υ α} (h : Silent x) : Traced x :=
  fun w _ _ => ⟨[], .silent w h⟩

theorem traced_elsewhere {f : World κ υ → World κ υ} (hf : ∀ w, (f w).frame = w.frame) :
    Traced (modify f : Act κ υ PUnit) :=
  (silent_elsewhere hf).traced

namespace Traced

variable {α β : Type}

theorem bind {x : Act κ υ α} (hx : Traced x) (hf : ∀ a, Traced (f a)) :
    Traced (x >>= f) :=
  fun w hw => .bind hw (hx w hw) fun a u _ hu => hf a u hu

theorem guarded (hx : Traced x) : Traced (guarded x) := by
  intro w hw calls
  obtain ⟨tr, hdoes⟩ := hx w hw calls
  rw [outcome_guarded_eq]
  exact ⟨tr, .guarded hdoes⟩

theorem forM {f : α → Act κ υ Unit} (hf : ∀ a, Traced (f a)) : ∀ l : List α, Traced (l.forM f)
  | [] => silent_pure.traced
  | a :: l => (hf a).bind fun _ => forM hf l

end Traced

end ReactiveMarkup.Reactive
