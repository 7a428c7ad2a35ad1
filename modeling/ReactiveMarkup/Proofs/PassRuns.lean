import ReactiveMarkup.Proofs.Outcome
import ReactiveMarkup.Reactive.Digest

/-! # Runs of a pass

A pass as the calls of user code that it makes. The relations follow the code step by step, and the
code returns exactly when there is a run.
-/

namespace ReactiveMarkup.Reactive

variable {κ υ : Type}

def World.remember (w : World κ υ) (i : WatcherId) (v : Value) : World κ υ :=
  { w with watchers := w.watchers.modify i fun c => { c with value := v } }

/-- What is called: a hook before the watchers of a detector, the source of a watcher, or the action
of a watcher. -/
inductive CallKind where
  | prelude
  | read
  | act (readOnly : Bool)
  deriving DecidableEq, Repr

/-- A call of user code. It finds the world `start`, which is the world `before` apart from a value
that is remembered for an action. -/
structure Call (κ υ : Type) where
  kind : CallKind
  before : World κ υ
  start : World κ υ
  after : World κ υ

inductive Preluded (h : Host κ υ) : List κ → World κ υ → List (Call κ υ) → World κ υ → Prop where
  | nil (w : World κ υ) : Preluded h [] w [] w
  | cons (k : κ) (ks : List κ) (w u w' : World κ υ) (cs : List (Call κ υ)) :
      Returns (h.run k .plain) w () u → Preluded h ks u cs w' →
      Preluded h (k :: ks) w (⟨.prelude, w, w, u⟩ :: cs) w'

inductive Checked (h : Host κ υ) (i : WatcherId) :
    World κ υ → List (Call κ υ) → Bool → World κ υ → Prop where
  | same (c c' : Watcher κ) (v : Value) (w u : World κ υ) : w.watchers[i]? = some c →
      Returns (readSource h c.source) w v u → u.watchers[i]? = some c' →
      c.comparator.changed c'.value v = false → Checked h i w [⟨.read, w, w, u⟩] false u
  | changed (c c' : Watcher κ) (v : Value) (w u w' : World κ υ) : w.watchers[i]? = some c →
      Returns (readSource h c.source) w v u → u.watchers[i]? = some c' →
      c.comparator.changed c'.value v = true →
      Returns (perform h c.action v) (u.remember i v) () w' →
      Checked h i w [⟨.read, w, w, u⟩, ⟨.act c.readOnly, u, u.remember i v, w'⟩] (!c.readOnly) w'

variable (h : Host κ υ) (d : DetectorId) (position : Nat) in
inductive CheckedFrom :
    Nat → Nat → Option Location → World κ υ → List (Call κ υ) → Option Location → World κ υ →
      Prop where
  | done (n index : Nat) (last : Option Location) (w : World κ υ) (c : Detector κ) :
      w.detectors[d]? = some c → c.watchers[index]? = none →
      CheckedFrom (n + 1) index last w [] last w
  | quiet (n index : Nat) (last : Option Location) (w u w' : World κ υ) (c : Detector κ)
      (i : WatcherId) (cs cs' : List (Call κ υ)) (r : Option Location) :
      w.detectors[d]? = some c → c.watchers[index]? = some i → Checked h i w cs false u →
      CheckedFrom n (index + 1) last u cs' r w' →
      CheckedFrom (n + 1) index last w (cs ++ cs') r w'
  | counts (n index : Nat) (last : Option Location) (w u w' : World κ υ) (c : Detector κ)
      (i : WatcherId) (e : Watcher κ) (cs cs' : List (Call κ υ)) (r : Option Location) :
      w.detectors[d]? = some c → c.watchers[index]? = some i → Checked h i w cs true u →
      u.watchers[i]? = some e →
      CheckedFrom n (index + 1) (some ⟨position, index, e.value⟩) u cs' r w' →
      CheckedFrom (n + 1) index last w (cs ++ cs') r w'

inductive VisitedFrom (h : Host κ υ) :
    Nat → List DetectorId → Nat → Option Location → World κ υ → List (Call κ υ) →
      Option Location → World κ υ → Prop where
  | done (n position : Nat) (last : Option Location) (w : World κ υ) :
      VisitedFrom h (n + 1) [] position last w [] last w
  | next (n : Nat) (d : DetectorId) (queue : List DetectorId) (position : Nat)
      (last last' r : Option Location) (w u v w' : World κ υ) (c e : Detector κ)
      (cs cs' cs'' : List (Call κ υ)) :
      w.detectors[d]? = some c → Preluded h c.preludes w cs u →
      CheckedFrom h d position (u.watchers.size + slack) 0 last u cs' last' v →
      v.detectors[d]? = some e →
      VisitedFrom h n (queue ++ e.children) (position + 1) last' v cs'' r w' →
      VisitedFrom h (n + 1) (d :: queue) position last w (cs ++ cs' ++ cs'') r w'

def Passed (h : Host κ υ) (root : DetectorId) (w : World κ υ) (cs : List (Call κ υ))
    (r : Option Location) (w' : World κ υ) : Prop :=
  VisitedFrom h (w.detectors.size + slack) [root] 0 none w cs r w'

/-! ## Runs and code -/

variable {h : Host κ υ} {w w' : World κ υ}

theorem returns_preludes_iff :
    Returns (ks.forM fun k => h.run k .plain) w () w' ↔ ∃ cs, Preluded h ks w cs w' := by
  induction ks generalizing w with
  | nil =>
    constructor
    · intro hr
      obtain ⟨_, rfl⟩ := returns_pure.mp hr
      exact ⟨[], .nil _⟩
    · rintro ⟨_, hp⟩
      cases hp
      rfl
  | cons k ks ih =>
    rw [List.forM, returns_bind]
    constructor
    · rintro ⟨_, u, hk, hrest⟩
      obtain ⟨cs, hp⟩ := ih.mp hrest
      exact ⟨_, .cons k ks w u w' cs hk hp⟩
    · rintro ⟨_, hp⟩
      cases hp with
      | cons _ _ _ u _ cs hk hp => exact ⟨(), u, hk, ih.mpr ⟨cs, hp⟩⟩

theorem returns_check_iff : Returns (check h i) w b w' ↔ ∃ cs, Checked h i w cs b w' := by
  simp only [check, returns_bind, returns_find]
  constructor
  · rintro ⟨c, _, ⟨hc, rfl⟩, v, u, hread, c', _, ⟨hc', rfl⟩, hrest⟩
    split at hrest
    · next hch =>
      simp only [returns_bind, updateWatcher, returns_modify, returns_pure] at hrest
      obtain ⟨_, _, rfl, _, _, hact, rfl, rfl⟩ := hrest
      exact ⟨_, .changed c c' v _ _ _ hc hread hc' hch hact⟩
    · next hch =>
      obtain ⟨rfl, rfl⟩ := returns_pure.mp hrest
      exact ⟨_, .same c c' v _ _ hc hread hc' (by simpa using hch)⟩
  · rintro ⟨_, hchecked⟩
    cases hchecked with
    | same c c' v _ _ hc hread hc' hch =>
      refine ⟨c, w, ⟨hc, rfl⟩, v, w', hread, c', w', ⟨hc', rfl⟩, ?_⟩
      rw [if_neg (by simp [hch])]
      rfl
    | changed c c' v _ u _ hc hread hc' hch hact =>
      refine ⟨c, w, ⟨hc, rfl⟩, v, u, hread, c', u, ⟨hc', rfl⟩, ?_⟩
      rw [if_pos hch]
      simp only [returns_bind, updateWatcher, returns_modify, returns_pure]
      exact ⟨(), _, rfl, (), w', hact, trivial, rfl⟩

theorem returns_checkFrom_iff : Returns (checkFrom h d position n index last) w r w' ↔
      ∃ cs, CheckedFrom h d position n index last w cs r w' := by
  induction n generalizing index last w with
  | zero =>
    constructor
    · intro hr
      cases hr
    · rintro ⟨_, hc⟩
      cases hc
  | succ n ih =>
    simp only [checkFrom, returns_bind, returns_find]
    constructor
    · rintro ⟨c, _, ⟨hc, rfl⟩, hrest⟩
      cases hw : c.watchers[index]? with
      | none =>
        simp only [hw] at hrest
        obtain ⟨rfl, rfl⟩ := returns_pure.mp hrest
        exact ⟨[], .done n index _ _ c hc hw⟩
      | some i =>
        simp only [hw, returns_bind] at hrest
        obtain ⟨b, u, hcheck, hrest⟩ := hrest
        obtain ⟨cs, hchecked⟩ := returns_check_iff.mp hcheck
        cases b with
        | false =>
          simp only [Bool.false_eq_true, if_false, returns_bind, returns_pure] at hrest
          obtain ⟨_, _, ⟨rfl, rfl⟩, hrest⟩ := hrest
          obtain ⟨cs', hrun⟩ := ih.mp hrest
          exact ⟨_, .quiet n index _ _ _ _ c i cs cs' r hc hw hchecked hrun⟩
        | true =>
          simp only [if_true, returns_bind, returns_find, returns_pure] at hrest
          obtain ⟨e, _, ⟨he, rfl⟩, _, _, ⟨rfl, rfl⟩, hrest⟩ := hrest
          obtain ⟨cs', hrun⟩ := ih.mp hrest
          exact ⟨_, .counts n index _ _ _ _ c i e cs cs' r hc hw hchecked he hrun⟩
    · rintro ⟨_, hrun⟩
      cases hrun with
      | done _ _ _ _ c hc hw =>
        refine ⟨c, _, ⟨hc, rfl⟩, ?_⟩
        simp only [hw]
        rfl
      | quiet _ _ _ _ u _ c i cs cs' _ hc hw hchecked hrun =>
        refine ⟨c, w, ⟨hc, rfl⟩, ?_⟩
        simp only [hw, returns_bind]
        refine ⟨false, u, returns_check_iff.mpr ⟨cs, hchecked⟩, ?_⟩
        simp only [Bool.false_eq_true, if_false, returns_bind, returns_pure]
        exact ⟨last, u, ⟨rfl, rfl⟩, ih.mpr ⟨cs', hrun⟩⟩
      | counts _ _ _ _ u _ c i e cs cs' _ hc hw hchecked he hrun =>
        refine ⟨c, w, ⟨hc, rfl⟩, ?_⟩
        simp only [hw, returns_bind]
        refine ⟨true, u, returns_check_iff.mpr ⟨cs, hchecked⟩, ?_⟩
        simp only [if_true, returns_bind, returns_find, returns_pure]
        exact ⟨e, u, ⟨he, rfl⟩, _, u, ⟨rfl, rfl⟩, ih.mpr ⟨cs', hrun⟩⟩

theorem returns_visitFrom_iff : Returns (visitFrom h n queue position last) w r w' ↔
      ∃ cs, VisitedFrom h n queue position last w cs r w' := by
  induction n generalizing queue position last w with
  | zero =>
    constructor
    · intro hr
      cases hr
    · rintro ⟨_, hv⟩
      cases hv
  | succ n ih =>
    cases queue with
    | nil =>
      constructor
      · intro hr
        obtain ⟨rfl, rfl⟩ := returns_pure.mp hr
        exact ⟨[], .done n position _ _⟩
      · rintro ⟨_, hv⟩
        cases hv
        rfl
    | cons d queue =>
      simp only [visitFrom, returns_bind, returns_find, returns_get]
      constructor
      · rintro ⟨c, _, ⟨hc, rfl⟩, _, u, hpre, _, _, ⟨rfl, rfl⟩, last', v, hcheck, e, _, ⟨he, rfl⟩,
          hrest⟩
        obtain ⟨cs, hpre⟩ := returns_preludes_iff.mp hpre
        obtain ⟨cs', hcheck⟩ := returns_checkFrom_iff.mp hcheck
        obtain ⟨cs'', hrest⟩ := ih.mp hrest
        exact ⟨_, .next n d queue position last last' r _ _ _ _ c e cs cs' cs'' hc hpre hcheck he
          hrest⟩
      · rintro ⟨_, hv⟩
        cases hv with
        | next _ _ _ _ _ last' _ _ u v _ c e cs cs' cs'' hc hpre hcheck he hrest =>
          exact ⟨c, w, ⟨hc, rfl⟩, (), u, returns_preludes_iff.mpr ⟨cs, hpre⟩, u, u, ⟨rfl, rfl⟩,
            last', v, returns_checkFrom_iff.mpr ⟨cs', hcheck⟩, e, v, ⟨he, rfl⟩,
            ih.mpr ⟨cs'', hrest⟩⟩

theorem returns_pass_iff : Returns (pass h root) w r w' ↔ ∃ cs, Passed h root w cs r w' := by
  simp only [pass, returns_bind, returns_get]
  constructor
  · rintro ⟨_, _, ⟨rfl, rfl⟩, hvisit⟩
    exact returns_visitFrom_iff.mp hvisit
  · intro hrun
    exact ⟨w, w, ⟨rfl, rfl⟩, returns_visitFrom_iff.mpr hrun⟩

/-! ## The loop -/

variable (h) (root : DetectorId) in
/-- Passes that count changes, from `w` to `w₀`, and then one from `w₀` to `w₁` that counts none. -/
inductive Converges : World κ υ → World κ υ → List (Call κ υ) → World κ υ → Prop where
  | last (w w₁ : World κ υ) (cs : List (Call κ υ)) : Passed h root w cs none w₁ →
      Converges w w cs w₁
  | again (w u w₀ w₁ : World κ υ) (l : Location) (cs cs' : List (Call κ υ)) :
      Passed h root w cs (some l) u → Converges u w₀ cs' w₁ →
      Converges w w₀ cs' w₁

theorem converges_of_passesFrom (hr : Returns (passesFrom h root n made last) w report w')
    (hc : report.converged = true) : ∃ w₀ cs, Converges h root w w₀ cs w' := by
  induction n generalizing made last w with
  | zero =>
    obtain ⟨rfl, _⟩ := returns_pure.mp hr
    cases hc
  | succ n ih =>
    rw [passesFrom, returns_bind] at hr
    obtain ⟨r, u, hpass, hrest⟩ := hr
    obtain ⟨cs, hrun⟩ := returns_pass_iff.mp hpass
    cases r with
    | none =>
      obtain ⟨_, rfl⟩ := returns_pure.mp hrest
      exact ⟨w, cs, .last w _ cs hrun⟩
    | some l =>
      obtain ⟨w₀, cs', hconv⟩ := ih hrest
      exact ⟨w₀, cs', .again w u w₀ w' l cs cs' hrun hconv⟩

end ReactiveMarkup.Reactive
