import ReactiveMarkup.Proofs.Outcome
import ReactiveMarkup.Reactive.Scheduler

/-! # The code of the runtime

What holds of basic steps and of user code, and still holds when one computation follows another,
holds of all that the runtime makes of them. It is followed here once through mounting, items,
actions of watchers and digests.
-/

namespace ReactiveMarkup.Reactive

variable {κ υ α β : Type}

/-- What detectors, promises and the event loop are made of. -/
def World.core (w : World κ υ) :
    Array (Detector κ) × Array (Watcher κ) × Array (Promise κ) × Array Scheduler × List (Task κ) :=
  (w.detectors, w.watchers, w.promises, w.schedulers, w.tasks)

def cleanUp (h : Host κ υ) (n : Nat) : Cleanup κ → Act κ υ Unit
  | .hook k => h.run k .plain
  | .removeListener node l => changeDocument (·.removeListener node l)
  | .destroy j => destroyTo h n j

def runOnces (h : Host κ υ) (root : DetectorId) : Act κ υ Unit := do
  let onces := (← find World.detectors root).onces
  updateDetector root fun d => { d with onces := [] }
  onces.forM fun k => guarded (h.run k .plain)

theorem digest_eq (h : Host κ υ) (root : DetectorId) (finish : Act κ υ Unit) :
    digest h root finish = (do
      let report ← passesFrom h root maxPasses 0 none
      finish
      runOnces h root
      return report.passes) := by
  simp only [digest, digestReport, runOnces, bind_assoc, pure_bind]

def takeTask (h : Host κ υ) (t : Task κ) (rest : List (Task κ)) : Act κ υ Unit := do
  modify fun w => { w with tasks := rest }
  runTask h t

theorem destroyTo_succ : destroyTo h (n + 1) d = (do
      updateDetector d fun c => { c with destroyed := true, watchers := [], preludes := [] }
      let c ← find World.detectors d
      updateDetector d fun c => { c with cleanups := [] }
      c.cleanups.forM fun k => guarded (cleanUp h n k)
      let c' ← find World.detectors d
      updateDetector d fun c => { c with children := [] }
      c'.children.forM (destroyTo h n)) := by
  rfl

theorem takeTask_bind {h : Host κ υ} {t : Task κ} {rest : List (Task κ)} {x : Act κ υ α} :
    (do modify fun w => { w with tasks := rest }; runTask h t; x) =
      takeTask h t rest >>= fun _ => x := by
  simp only [takeTask, bind_assoc]

/-- User code that always fails, from which other user code is made. -/
def refusing : Host κ υ where
  read _ := throw .failed
  key _ _ _ := throw .failed
  run _ _ := throw .failed
  buildItem _ _ _ _ _ := throw .failed
  attach _ _ := throw .failed
  construct _ _ _ := throw .failed
  options _ := throw .failed
  page _ := []

/-- What is done from outside: user code, a digest, or the event loop until it is idle. -/
inductive Move (κ : Type) where
  | user (k : κ) (o : Occasion)
  | digest (root : DetectorId) (finish : Option κ)
  | idle

def Move.run (h : Host κ υ) : Move κ → Act κ υ Unit
  | .user k o => h.run k o
  | .digest root finish => do
    let _ ← Reactive.digest h root (finish.forM fun k => h.run k .plain)
  | .idle => do
    let _ ← runUntilIdle h

/-- One move after the other; a move that fails keeps none of the others from being made. -/
def play (h : Host κ υ) (moves : List (Move κ)) : Act κ υ Unit :=
  moves.forM fun m => guarded (m.run h)

/-- A property that computations keep when one follows another. Nothing is asked of steps that get
hold of a block that awaits values. -/
structure Sequential (P : ∀ {α : Type}, Act κ υ α → Prop) : Prop where
  pure : ∀ {α : Type} (a : α), P (Pure.pure a)
  stop : ∀ {α : Type} (e : Stop), P (throw e : Act κ υ α)
  bind : ∀ {α β : Type} {x : Act κ υ α} {f : α → Act κ υ β},
    P x → (∀ a, P (f a)) → P (x >>= f)
  look : ∀ {α : Type} (π : World κ υ → α), (∀ w a, π { w with awaits := a } = π w) →
    P (get >>= fun w => Pure.pure (π w))

/-- Basic steps and the hooks of a host have the property as well. -/
structure Closed (P : ∀ {α : Type}, Act κ υ α → Prop) (h : Host κ υ) : Prop extends
    Sequential P where
  guarded : ∀ {x : Act κ υ Unit}, P x → P (guarded x)
  elsewhere : ∀ f : World κ υ → World κ υ,
    (∀ w a, f { w with awaits := a } = { f w with awaits := a }) → (∀ w, (f w).core = w.core) →
    P (modify f)
  amend : ∀ (d : DetectorId) (f : Detector κ → Detector κ), (∀ c, (f c).children = c.children) →
    (∀ c, (f c).watchers = c.watchers) → (∀ c, (f c).onces = c.onces) →
    (∀ c, (f c).root = c.root) → P (updateDetector d f)
  newChild : ∀ d, P (newChild d)
  removeChild : ∀ d c, P (removeChild d c)
  destroy : ∀ d, P (destroy h d)
  planRender : ∀ i, P (addTask (.render i))
  read : ∀ k, P (h.read k)
  key : ∀ k v n, P (h.key k v n)
  run : ∀ k o, P (h.run k o)
  buildItem : ∀ k d f n v, P (h.buildItem k d f n v)
  construct : ∀ k n o, P (h.construct k n o)
  options : ∀ k, P (h.options k)

namespace Sequential

variable {P : ∀ {α : Type}, Act κ υ α → Prop} {h : Host κ υ} (hP : Sequential P)

include hP

theorem forM (hf : ∀ a, P (f a)) : ∀ l : List α, P (l.forM f)
  | [] => hP.pure ()
  | a :: l => hP.bind (hf a) fun _ => forM hf l

theorem look_bind (π : World κ υ → α)
    (hπ : ∀ w a, π { w with awaits := a } = π w) {f : α → Act κ υ β} (hf : ∀ a, P (f a)) :
    P (get >>= fun w => f (π w)) := by
  have heq : (get >>= fun w => f (π w) : Act κ υ β) =
      (get >>= fun w => Pure.pure (π w)) >>= f := by
    simp only [bind_assoc, pure_bind]
  rw [heq]
  exact hP.bind (hP.look π hπ) hf

theorem find {store : World κ υ → Array α} {i : Nat}
    (hs : ∀ w a, store { w with awaits := a } = store w) : P (find store i) := by
  have heq : Reactive.find store i =
      (get >>= fun w => ((store w)[i]?).elim (throw .failed) Pure.pure : Act κ υ α) := by
    unfold Reactive.find
    congr
    funext w
    cases (store w)[i]? <;> rfl
  rw [heq]
  refine hP.look_bind (f := fun o => o.elim (throw .failed) Pure.pure) (fun w => (store w)[i]?)
    (fun w a => by rw [hs]) fun o => ?_
  cases o with
  | none => exact hP.stop _
  | some a => exact hP.pure a

theorem found (hs : ∀ w a, store { w with awaits := a } = store w) (hf : ∀ a, P (f a)) :
    P (Reactive.find store i >>= f) :=
  hP.bind (hP.find hs) hf

theorem checkFrom (hc : ∀ i, P (check h i)) (d : DetectorId) (position n : Nat) :
    ∀ index last, P (checkFrom h d position n index last) := by
  induction n with
  | zero => exact fun index last => hP.stop _
  | succ n ih =>
    intro index last
    refine hP.found (fun _ _ => rfl) fun c => ?_
    cases c.watchers[index]? with
    | none => exact hP.pure last
    | some i =>
      refine hP.bind (hc i) fun counts => ?_
      cases counts with
      | false => exact hP.bind (hP.pure _) fun _ => ih _ _
      | true => exact hP.found (fun _ _ => rfl) fun _ => hP.bind (hP.pure _) fun _ => ih _ _

section Digests

variable (hr : ∀ k, P (h.run k .plain))
  (hc : ∀ d position n index last, P (Reactive.checkFrom h d position n index last))

include hr hc

theorem visitFrom : ∀ queue position last, P (visitFrom h n queue position last) := by
  induction n with
  | zero => exact fun queue position last => hP.stop _
  | succ n ih =>
    intro queue position last
    cases queue with
    | nil => exact hP.pure _
    | cons d queue =>
      refine hP.found (fun _ _ => rfl) fun _ => hP.bind (hP.forM hr _) fun _ => ?_
      refine hP.look_bind (f := fun m => do
          let last ← Reactive.checkFrom h d position (m + slack) 0 last
          let c ← Reactive.find World.detectors d
          Reactive.visitFrom h n (queue ++ c.children) (position + 1) last)
        (fun w => w.watchers.size) (fun _ _ => rfl) fun m => ?_
      exact hP.bind (hc _ _ _ _ _) fun _ => hP.found (fun _ _ => rfl) fun _ => ih _ _ _

theorem passesFrom : ∀ made last, P (passesFrom h root n made last) := by
  induction n with
  | zero => exact fun made last => hP.pure _
  | succ n ih =>
    intro made last
    refine hP.bind (hP.look_bind (f := fun m => Reactive.visitFrom h (m + slack) [root] 0 none)
      (fun w => w.detectors.size) (fun _ _ => rfl) fun m => hP.visitFrom hr hc _ _ _) fun r => ?_
    cases r with
    | none => exact hP.pure _
    | some l => exact ih _ _

theorem digest (ho : P (runOnces h root)) (hf : P finish) : P (digest h root finish) := by
  rw [digest_eq]
  exact hP.bind (hP.passesFrom hr hc _ _) fun _ => hP.bind hf fun _ => hP.bind ho fun _ =>
    hP.pure _

end Digests

end Sequential

namespace Closed

variable {P : ∀ {α : Type}, Act κ υ α → Prop} {h : Host κ υ} (hP : Closed P h)

include hP

/-! ## Sequences -/

theorem foldlM (hf : ∀ b a, P (f b a)) :
    ∀ (l : List α) (b : β), P (l.foldlM f b)
  | [], b => hP.pure b
  | a :: l, b => hP.bind (hf b a) fun c => foldlM hf l c

theorem mapM (hf : ∀ a, P (f a)) (l : List α) : P (l.mapM f) := by
  induction l with
  | nil => exact hP.pure []
  | cons a l ih =>
    rw [List.mapM_cons]
    exact hP.bind (hf a) fun _ => hP.bind ih fun _ => hP.pure _

theorem forM_option (hf : ∀ a, P (f a)) : ∀ o : Option α, P (o.forM f)
  | none => hP.pure ()
  | some a => hf a

/-! ## The document -/

theorem updatePoint : P (updatePoint p f) := hP.elsewhere _ (fun _ _ => rfl) fun _ => rfl

theorem updateMarkup : P (updateMarkup i f) := hP.elsewhere _ (fun _ _ => rfl) fun _ => rfl

theorem updateSpread : P (updateSpread i f) := hP.elsewhere _ (fun _ _ => rfl) fun _ => rfl

theorem updateList : P (updateList i f) := hP.elsewhere _ (fun _ _ => rfl) fun _ => rfl

theorem document : P document := hP.look _ fun _ _ => rfl

theorem changeDocument : P (changeDocument f) := hP.elsewhere _ (fun _ _ => rfl) fun _ => rfl

theorem extendDocument : P (extendDocument f) :=
  hP.bind hP.document fun _ => hP.bind hP.changeDocument fun _ => hP.pure _

theorem removeExtent : P (removeExtent extent) :=
  hP.forM_option (fun _ => hP.changeDocument) extent

theorem showMarkup : P (showMarkup h i v) := by
  refine hP.found (fun _ _ => rfl) fun b => hP.bind hP.updateMarkup fun _ =>
    hP.bind (hP.forM_option (fun _ => hP.changeDocument) _) fun _ => ?_
  split
  · exact hP.bind hP.extendDocument fun _ => hP.bind hP.document fun _ =>
      hP.bind hP.updateMarkup fun _ => hP.changeDocument
  · exact hP.pure _

theorem setSource : P (setSource i slot f) := by
  refine hP.bind hP.updateSpread fun _ => hP.found (fun _ _ => rfl) fun s => ?_
  split
  · exact hP.bind hP.updateSpread fun _ => hP.planRender i
  · exact hP.pure _

theorem renderSpread : P (renderSpread i) :=
  hP.found (fun _ _ => rfl) fun _ => hP.bind hP.document fun _ =>
    hP.bind hP.changeDocument fun _ => hP.updateSpread

/-! ## Branches -/

theorem unmount : P (unmount h p) :=
  hP.found (fun _ _ => rfl) fun _ => hP.bind hP.updatePoint fun _ =>
    hP.forM_option (fun _ => hP.bind (hP.removeChild _ _) fun _ => hP.bind (hP.destroy _) fun _ =>
      hP.removeExtent) _

theorem mountWith (hb : ∀ d f, P (build d f)) : P (mountWith p template build) :=
  hP.found (fun _ _ => rfl) fun _ => hP.bind (hP.newChild _) fun d =>
    hP.bind hP.extendDocument fun f => hP.bind (hb d f) fun _ => hP.bind hP.document fun _ =>
      hP.bind hP.changeDocument fun _ => hP.updatePoint

theorem mountBranch : P (mountBranch h p b v) :=
  hP.mountWith (fun _ _ => hP.run _ _)

theorem chooseBranch : P (chooseBranch h p main alt v) := by
  refine hP.bind hP.unmount fun _ => ?_
  split
  · exact hP.mountBranch
  · exact hP.forM_option (fun b => hP.mountBranch) alt

theorem mountSettled : P (mountSettled h b r) := by
  cases r with
  | fulfilled v | rejected v => exact hP.forM_option (fun b => hP.mountBranch) _

theorem mountComponent {options : κ} : P (mountComponent h p makers options v) := by
  refine hP.bind hP.unmount fun _ => hP.forM_option (fun maker => ?_) _
  refine hP.bind hP.extendDocument fun _ => hP.bind (hP.options _) fun _ =>
    hP.mountWith (fun detector fragment => ?_)
  exact hP.bind hP.extendDocument fun _ => hP.bind (hP.construct _ _ _) fun _ =>
    hP.bind hP.document fun _ => hP.bind (hP.forM (fun _ => hP.changeDocument) _) fun _ =>
      hP.found (fun _ _ => rfl) fun _ =>
        hP.amend _ _ (fun _ => rfl) (fun _ => rfl) (fun _ => rfl) fun _ => rfl

/-! ## Items -/

theorem keyAt : P (keyAt h keyOf v n) := by
  cases keyOf with
  | none => exact hP.pure _
  | some k => exact hP.bind (hP.key k v n) fun _ => hP.pure _

theorem dropItem : P (dropItem h owner i) :=
  hP.bind (hP.removeChild _ _) fun _ => hP.bind (hP.destroy _) fun _ => hP.removeExtent

theorem retire : ∀ kept, P (retire h owner wanted kept old) := by
  induction old with
  | nil => exact fun kept => hP.pure _
  | cons e rest ih =>
    intro kept
    rw [Reactive.retire]
    split
    · exact ih _
    · exact hP.bind hP.dropItem fun _ => ih _

theorem keepItem : P (keepItem h parent target singles nextKey reusable index value item) := by
  refine hP.bind (hP.forM_option (fun extent => hP.bind hP.document fun d => ?_) _) fun _ =>
    hP.run _ _
  split
  · exact hP.changeDocument
  · exact hP.pure _

theorem placeItem (s : Placing κ) (entry : (Value × Key) × Nat) :
    P (placeItem h b parent singles keys s entry) := by
  refine hP.bind hP.document fun d => ?_
  dsimp only
  split
  · exact hP.bind hP.keepItem fun _ => hP.pure _
  · refine hP.bind ?_ fun _ => hP.pure _
    exact hP.bind (hP.newChild _) fun _ => hP.bind hP.extendDocument fun _ =>
      hP.bind (hP.buildItem _ _ _ _ _) fun _ => hP.bind hP.document fun _ =>
        hP.bind hP.changeDocument fun _ => hP.pure _

theorem listItems : P (listItems h i v) := by
  refine hP.found (fun _ _ => rfl) fun b => hP.bind hP.document fun d => ?_
  split
  · exact hP.pure _
  · exact hP.bind (hP.mapM (fun p : Value × Nat => hP.keyAt) _) fun keys =>
      hP.found (fun _ _ => rfl) fun _ => hP.bind hP.updateList fun _ => hP.bind (hP.retire _) fun _ =>
        hP.bind (hP.foldlM hP.placeItem _ _) fun _ =>
          hP.bind (hP.forM (fun e : Key × Item κ => hP.dropItem) _) fun _ => hP.updateList

/-! ## Watchers and digests -/

theorem readSource : P (readSource h s) := by
  cases s with
  | hook k => exact hP.read k
  | truth k => exact hP.bind (hP.read k) fun _ => hP.pure _
  | property c name => exact hP.found (fun _ _ => rfl) fun _ => hP.pure _

/-! A block gets hold of itself when it is woken and when it takes a value. -/

theorem wake (hy : ∀ j g, y = .block j g → P (Reactive.find World.awaits j)) : P (wake h r y) := by
  cases y with
  | hook k => exact hP.run k _
  | block j g =>
    refine hP.bind (hy j g rfl) fun b => ?_
    split
    · exact hP.bind hP.unmount fun _ => hP.bind hP.mountSettled fun _ => hP.run _ _
    · exact hP.pure _

theorem awaitValue (hfind : P (Reactive.find World.awaits j))
    (hrenew : P (updateAwait j fun b => { b with generation := b.generation + 1 }))
    (henlist : ∀ p g, P (updatePromise p fun q => { q with waiters := q.waiters ++ [.block j g] })) :
    P (awaitValue h j v) := by
  refine hP.bind hfind fun _ => hP.bind hP.unmount fun _ => hP.bind hrenew fun _ =>
    hP.bind hfind fun b => ?_
  split
  · refine hP.bind (hP.forM_option (fun r => hP.mountBranch) _) fun _ =>
      hP.found (fun _ _ => rfl) fun q => ?_
    split
    · exact hP.wake fun _ _ hy => (Waiter.block.inj hy).1 ▸ hfind
    · exact henlist _ _
  · exact hP.mountSettled

theorem perform
    (ha : ∀ b, a = .awaitValue b → P (Reactive.awaitValue h b v)) : P (perform h a v) := by
  unfold Reactive.perform
  cases a with
  | hook k => exact hP.run k _
  | showText | showAttribute | showClasses | showStyle | showProperty => exact hP.changeDocument
  | spreadFields | spreadField => exact hP.setSource
  | chooseBranch p main alt => exact hP.chooseBranch
  | awaitValue b => exact ha b rfl
  | showMarkup b => exact hP.showMarkup
  | listItems b => exact hP.listItems
  | mountComponent p makers options => exact hP.mountComponent

section Tasks

/-! ## The event loop -/

variable (hc : ∀ d position n index last, P (checkFrom h d position n index last))
  (ho : ∀ root, P (runOnces h root))
  (hl : ∀ f : World κ υ → World κ υ,
    (∀ w a, f { w with awaits := a } = { f w with awaits := a }) →
    (∀ w, (f w).detectors = w.detectors ∧ (f w).watchers = w.watchers ∧
      (f w).promises = w.promises) → P (modify f))

include hc ho hl

theorem runNow : P (runNow h s) := by
  have hset {f : Scheduler → Scheduler} : P (updateScheduler s f) :=
    hl _ (fun _ _ => rfl) fun _ => ⟨rfl, rfl, rfl⟩
  exact hP.found (fun _ _ => rfl) fun _ => hP.bind hset fun _ =>
    hP.bind (hP.digest (fun k => hP.run k _) hc (ho _) hset) fun _ => hP.bind hset fun _ => hP.pure _

theorem runTask : P (runTask h t) := by
  cases t with
  | hook k => exact hP.run k _
  | digest s =>
    exact hP.bind (hl _ (fun _ _ => rfl) fun _ => ⟨rfl, rfl, rfl⟩) fun _ =>
      hP.bind (hP.runNow hc ho hl) fun _ => hP.pure _
  | render s => exact hP.renderSpread

theorem runTasks : ∀ ran, P (runTasks h n ran) := by
  induction n with
  | zero => exact fun ran => hP.stop _
  | succ n ih =>
    intro ran
    have heq : Reactive.runTasks h (n + 1) ran = (get >>= fun w =>
        w.tasks.head?.elim (Pure.pure ran) fun t => do
          takeTask h t w.tasks.tail
          Reactive.runTasks h n (ran + 1)) := by
      rw [Reactive.runTasks]
      congr
      funext w
      cases w.tasks with
      | nil => rfl
      | cons t rest => exact takeTask_bind
    rw [heq]
    refine hP.look_bind (f := fun l => l.head?.elim (Pure.pure ran) fun t => do
      takeTask h t l.tail
      Reactive.runTasks h n (ran + 1)) (fun w => w.tasks) (fun _ _ => rfl) fun l => ?_
    cases l with
    | nil => exact hP.pure _
    | cons t rest =>
      exact hP.bind (hP.bind (hl _ (fun _ _ => rfl) fun _ => ⟨rfl, rfl, rfl⟩) fun _ =>
        hP.runTask hc ho hl) fun _ => ih _

theorem move {m : Move κ} : P (m.run h) := by
  cases m with
  | user k o => exact hP.run k o
  | digest root finish =>
    exact hP.bind (hP.digest (fun k => hP.run k _) hc (ho root)
      (hP.forM_option (fun k => hP.run k .plain) finish)) fun _ => hP.pure _
  | idle =>
    exact hP.bind (hP.look_bind (f := fun n => Reactive.runTasks h (n + slack) 0)
      (fun w => w.tasks.length) (fun _ _ => rfl) fun _ => hP.runTasks hc ho hl _) fun _ =>
        hP.pure _

end Tasks

end Closed

end ReactiveMarkup.Reactive
