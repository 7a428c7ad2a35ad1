import Mathlib.Order.Nat
import ReactiveMarkup.Proofs.Hierarchy
import ReactiveMarkup.Proofs.PassRuns
import ReactiveMarkup.Reactive.Binding
import ReactiveMarkup.Reactive.Block
import ReactiveMarkup.Reactive.Component

/-! # Computations that only add

Most of what user code can ask for adds to the world: detectors, watchers, schedulers, tasks. It
leaves who lists whom as it was among those that existed before, and queues no digest.
-/

namespace ReactiveMarkup.Reactive

variable {κ υ α β : Type}

/-- A hierarchy in which a watcher is listed by one detector at most. -/
structure Sound (w : World κ υ) : Prop extends Hierarchy w where
  owner : ∀ i d e, i ∈ watchersOf w d → i ∈ watchersOf w e → d = e

theorem known_of_mem_childrenOf (h : c ∈ childrenOf w j) : j < w.detectors.size := by
  by_contra hj
  rw [childrenOf, Array.getElem?_eq_none (Nat.le_of_not_lt hj)] at h
  cases h

theorem known_of_mem_watchersOf (h : i ∈ watchersOf w j) : j < w.detectors.size := by
  by_contra hj
  rw [watchersOf, Array.getElem?_eq_none (Nat.le_of_not_lt hj)] at h
  cases h

theorem sound_iff : Sound w ↔
    (∀ j < w.detectors.size, (childrenOf w j).Nodup ∧ (watchersOf w j).Nodup) ∧
    (∀ j < w.detectors.size, (∀ c ∈ childrenOf w j, j < c ∧ c < w.detectors.size) ∧
      ∀ i ∈ watchersOf w j, i < w.watchers.size) ∧
    (∀ j < w.detectors.size, ∀ k < w.detectors.size,
      ∀ c ∈ childrenOf w j, c ∈ childrenOf w k → j = k) ∧
    ∀ j < w.detectors.size, ∀ k < w.detectors.size,
      ∀ i ∈ watchersOf w j, i ∈ watchersOf w k → j = k := by
  constructor
  · intro h
    exact ⟨fun j _ => ⟨h.once j, h.distinct j⟩, fun j _ => ⟨h.newer j, h.stored j⟩, fun j _ k _ c =>
      h.parent j k c, fun j _ k _ i => h.owner i j k⟩
  · rintro ⟨hnodup, hbound, hparent, howner⟩
    have hlists : ∀ j, (childrenOf w j).Nodup ∧ (watchersOf w j).Nodup := by
      intro j
      rcases Nat.lt_or_ge j w.detectors.size with hj | hj
      · exact hnodup j hj
      · simp [childrenOf, watchersOf, Array.getElem?_eq_none hj]
    refine ⟨⟨fun j => (hlists j).1, fun j c hc => ?_, fun i j c hi hj => ?_, fun j => (hlists j).2,
      fun j i hi => ?_⟩, fun i d e hd he => ?_⟩
    · exact (hbound j (known_of_mem_childrenOf hc)).1 c hc
    · exact hparent i (known_of_mem_childrenOf hi) j (known_of_mem_childrenOf hj) c hi hj
    · exact (hbound j (known_of_mem_watchersOf hi)).2 i hi
    · exact howner d (known_of_mem_watchersOf hd) e (known_of_mem_watchersOf he) i hd he

set_option synthInstance.maxSize 1000 in
instance {w : World κ υ} : Decidable (Sound w) := decidable_of_iff _ sound_iff.symm

def Task.isDigestOf (s : SchedulerId) : Task κ → Bool
  | .digest t => t == s
  | _ => false

structure Adds (w w' : World κ υ) : Prop where
  sound : Sound w → Sound w'
  detectors : w.detectors.size ≤ w'.detectors.size
  watchers : w.watchers.size ≤ w'.watchers.size
  listed : ∀ d i, i < w.watchers.size → (i ∈ watchersOf w' d ↔ i ∈ watchersOf w d)
  children : ∀ d c, c < w.detectors.size → (c ∈ childrenOf w' d ↔ c ∈ childrenOf w d)
  schedulers : ∀ s, s < w.schedulers.size → w'.schedulers[s]? = w.schedulers[s]?
  idle : ∀ (s : SchedulerId) (c : Scheduler), w.schedulers[s]? = none → w'.schedulers[s]? = some c →
    c.planned = false ∧ c.running = false
  tasks : ∃ more, w'.tasks = w.tasks ++ more ∧ ∀ t ∈ more, ∀ s, t.isDigestOf s = false

namespace Adds

variable {w u w' : World κ υ}

/-- Only the lists of detectors, the number of watchers, the schedulers and the tasks matter. -/
theorem of_lists (hd : w'.detectors.size = w.detectors.size)
    (hc : ∀ d, childrenOf w' d = childrenOf w d) (hl : ∀ d, watchersOf w' d = watchersOf w d)
    (hw : w'.watchers.size = w.watchers.size) (hs : w'.schedulers = w.schedulers)
    (ht : w'.tasks = w.tasks) : Adds w w' where
  sound := by
    intro h
    refine ⟨⟨?_, ?_, ?_, ?_, ?_⟩, ?_⟩
    · simpa only [hc] using h.once
    · simpa only [hc, hd] using h.newer
    · simpa only [hc] using h.parent
    · simpa only [hl] using h.distinct
    · simpa only [hl, hw] using h.stored
    · simpa only [hl] using h.owner
  detectors := hd.ge
  watchers := hw.ge
  listed := fun d i _ => by rw [hl]
  children := fun d c _ => by rw [hc]
  schedulers := fun s _ => by rw [hs]
  idle := fun s c hn hc => by
    rw [hs, hn] at hc
    cases hc
  tasks := ⟨[], by simp [ht], by simp⟩

theorem of_same (hd : w'.detectors = w.detectors) (hw : w'.watchers.size = w.watchers.size)
    (hs : w'.schedulers = w.schedulers) (ht : w'.tasks = w.tasks) : Adds w w' :=
  of_lists (by rw [hd]) (fun d => by simp only [childrenOf, hd])
    (fun d => by simp only [watchersOf, hd]) hw hs ht

theorem refl : Adds w w := of_same rfl rfl rfl rfl

theorem schedulers_size (h : Adds w w') : w.schedulers.size ≤ w'.schedulers.size := by
  rcases Nat.eq_zero_or_pos w.schedulers.size with hz | hpos
  · omega
  · have hlast := h.schedulers (w.schedulers.size - 1) (by omega)
    have hin : w.schedulers.size - 1 < w.schedulers.size := by omega
    rw [Array.getElem?_eq_getElem hin] at hlast
    have hlt := (Array.getElem?_eq_some_iff.mp hlast).1
    omega

theorem trans (h : Adds w u) (h' : Adds u w') : Adds w w' where
  sound := fun hw => h'.sound (h.sound hw)
  detectors := h.detectors.trans h'.detectors
  watchers := h.watchers.trans h'.watchers
  listed := fun d i hi => (h'.listed d i (hi.trans_le h.watchers)).trans (h.listed d i hi)
  children := fun d c hc => (h'.children d c (hc.trans_le h.detectors)).trans (h.children d c hc)
  schedulers := fun s hs =>
    (h'.schedulers s (hs.trans_le h.schedulers_size)).trans (h.schedulers s hs)
  idle := by
    intro s c hn hc
    cases hu : u.schedulers[s]? with
    | none => exact h'.idle s c hu hc
    | some e =>
      rw [h'.schedulers s (Array.getElem?_eq_some_iff.mp hu).1, hu] at hc
      exact h.idle s c hn (hu.trans hc)
  tasks := by
    obtain ⟨more, hm, hd⟩ := h.tasks
    obtain ⟨more', hm', hd'⟩ := h'.tasks
    refine ⟨more ++ more', by rw [hm', hm, List.append_assoc], fun t ht => ?_⟩
    exact (List.mem_append.mp ht).elim (hd t) (hd' t)

theorem modify_detector (hc : ∀ c, (f c).children = c.children)
    (hw : ∀ c, (f c).watchers = c.watchers) :
    Adds w { w with detectors := w.detectors.modify d f } :=
  of_lists (by simp) (childrenOf_modify_of hc d) (watchersOf_modify_of hw d) rfl rfl rfl

end Adds

def Silent (x : Act κ υ α) : Prop := ∀ w, Adds w (outcome x w).2

theorem silent_pure : Silent (pure a : Act κ υ α) := fun _ => .refl

theorem silent_throw : Silent (throw e : Act κ υ α) := fun _ => .refl

theorem silent_get : Silent (get : Act κ υ (World κ υ)) := fun _ => .refl

theorem silent_modify (hf : ∀ w, Adds w (f w)) : Silent (modify f : Act κ υ PUnit) := hf

theorem silent_find : Silent (find store i) := by
  intro w
  rw [outcome_find]
  cases (store w)[i]? <;> exact .refl

namespace Silent

theorem bind (hx : Silent x) (hf : ∀ a, Silent (f a)) : Silent (x >>= f) := by
  intro w
  have hw := hx w
  rw [outcome_bind]
  generalize outcome x w = p at hw
  obtain ⟨r, u⟩ := p
  cases r with
  | error e => exact hw
  | ok a => exact hw.trans (hf a u)

end Silent

/-! ## Detectors, watchers, schedulers and tasks -/

theorem silent_newChild : Silent (newChild parent : Act κ υ DetectorId) := by
  intro w
  by_cases hp : parent < w.detectors.size
  · obtain ⟨c, w', hret⟩ := newChild_returns hp
    rw [hret.world_eq]
    obtain ⟨rfl, hsize, hchildren⟩ := newChild_eq hret
    obtain ⟨ds, hworld⟩ := newChild_world hret
    have hlists := newChild_watchersOf hret
    constructor
    · intro h
      refine ⟨h.adopt hp hret, fun i d e hd he => ?_⟩
      rw [hlists] at hd he
      exact h.owner i d e hd he
    · omega
    · rw [hworld]
    · intro d i _
      rw [hlists]
    · intro d c hc
      refine ⟨newChild_settled hret d c hc, fun hm => ?_⟩
      by_cases hd : d = parent
      · rw [hd, hchildren]
        exact List.mem_append_left _ (hd ▸ hm)
      · rwa [newChild_childrenOf hret hd]
    · intro s _
      rw [hworld]
    · intro s c hn hc
      rw [hworld, hn] at hc
      cases hc
    · exact ⟨[], by rw [hworld, List.append_nil], by simp⟩
  · have hnone : w.detectors[parent]? = none := Array.getElem?_eq_none (Nat.le_of_not_lt hp)
    rw [newChild, outcome_bind, outcome_find, hnone]
    exact .refl

theorem silent_updateDetector (hc : ∀ c, (f c).children = c.children)
    (hw : ∀ c, (f c).watchers = c.watchers) : Silent (updateDetector d f : Act κ υ Unit) :=
  silent_modify fun _ => .modify_detector hc hw

theorem exists_watchersOf_watch (c : Watcher κ) : ∃ new, watchersOf { w with
        watchers := w.watchers.push c
        detectors := w.detectors.modify d fun x =>
          { x with watchers := x.watchers ++ [w.watchers.size] } } e = watchersOf w e ++ new ∧
      (new = [] ∨ e = d ∧ new = [w.watchers.size]) := by
  by_cases hd : d = e
  · subst hd
    cases hx : w.detectors[d]? with
    | none => exact ⟨[], by simp [watchersOf, Array.getElem?_modify, hx], .inl rfl⟩
    | some x =>
      exact ⟨[w.watchers.size], by simp [watchersOf, Array.getElem?_modify, hx], .inr ⟨rfl, rfl⟩⟩
  · exact ⟨[], by simp [watchersOf, Array.getElem?_modify, hd], .inl rfl⟩

theorem silent_addTask (ht : ∀ s, t.isDigestOf s = false) : Silent (addTask t : Act κ υ Unit) := by
  intro w
  change Adds w { w with tasks := w.tasks ++ [t] }
  constructor
  · exact fun h => ⟨h.toHierarchy.of_same rfl rfl, h.owner⟩
  · exact le_rfl
  · exact le_rfl
  · exact fun _ _ _ => Iff.rfl
  · exact fun _ _ _ => Iff.rfl
  · exact fun _ _ => rfl
  · intro s c hn hc
    rw [hn] at hc
    cases hc
  · exact ⟨[t], rfl, fun t' h' => by rwa [List.mem_singleton.mp h']⟩

/-! ## The other parts of the world -/

def World.frame (w : World κ υ) : Array (Detector κ) × Nat × Array Scheduler × List (Task κ) :=
  (w.detectors, w.watchers.size, w.schedulers, w.tasks)

theorem Adds.of_frame (h : w'.frame = w.frame) : Adds w w' := by
  simp only [World.frame, Prod.mk.injEq] at h
  obtain ⟨hd, hw, hs, ht⟩ := h
  exact .of_same hd hw hs ht

theorem silent_elsewhere (hf : ∀ w, (f w).frame = w.frame) : Silent (modify f : Act κ υ PUnit) :=
  silent_modify fun w => .of_frame (hf w)

theorem silent_changeDocument (f : Document (Reaction κ) → Document (Reaction κ)) :
    Silent (changeDocument f : Act κ υ Unit) :=
  silent_elsewhere fun _ => rfl

end ReactiveMarkup.Reactive
