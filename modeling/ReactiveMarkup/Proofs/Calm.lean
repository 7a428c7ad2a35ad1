import ReactiveMarkup.Proofs.PassRuns

/-! # Calm passes

A pass whose calls leave the tree of detectors and what its watchers read as they are leaves every
watcher with a value that its source confirms.
-/

namespace ReactiveMarkup.Reactive

open List

variable {κ υ : Type} {h : Host κ υ} {root d : DetectorId} {w w' w'' : World κ υ} {i : WatcherId}

/-! ## Values that pass for each other -/

theorem Value.same_refl (v : Value) : v.same v = true := by
  cases v with
  | number n =>
    cases n with
    | nan => rfl
    | infinite s => cases s <;> rfl
    | finite s m e => simp [same, Number.Binary.eq, Number.Binary.align]
  | _ => simp [same]

namespace Comparator

theorem changed_self (c : Comparator) : c.changed v v = false := by
  simp [changed, Value.same_refl]

/-- A remembered value that `v` does not change is not changed by `v'` either. -/
def Alike (c : Comparator) (v v' : Value) : Prop :=
  ∀ x, c.changed x v = false → c.changed x v' = false

theorem Alike.refl {c : Comparator} {v : Value} : c.Alike v v := fun _ h => h

theorem Alike.trans {c : Comparator} (h : c.Alike v v') (h' : c.Alike v' v'') : c.Alike v v'' :=
  fun x hx => h' x (h x hx)

end Comparator

/-! ## The tree of detectors -/

/-- Detectors that a pass from `root` reaches. -/
inductive Below (w : World κ υ) (root : DetectorId) : DetectorId → Prop where
  | root : Below w root root
  | child (d e : DetectorId) (c : Detector κ) : Below w root d → w.detectors[d]? = some c →
      e ∈ c.children → Below w root e

def Watched (w : World κ υ) (root : DetectorId) (i : WatcherId) : Prop :=
  ∃ d c, Below w root d ∧ w.detectors[d]? = some c ∧ i ∈ c.watchers

def Detector.visit (c : Detector κ) : List κ × List WatcherId × List DetectorId :=
  (c.preludes, c.watchers, c.children)

def World.visit? (w : World κ υ) (d : DetectorId) :
    Option (List κ × List WatcherId × List DetectorId) :=
  w.detectors[d]?.map Detector.visit

def SameTree (root : DetectorId) (w w' : World κ υ) : Prop :=
  ∀ d, Below w root d → w'.visit? d = w.visit? d

theorem detector_of_visit (h : w'.visit? d = w.visit? d)
    (hc : w.detectors[d]? = some c) :
    ∃ c', w'.detectors[d]? = some c' ∧ c'.preludes = c.preludes ∧ c'.watchers = c.watchers ∧
      c'.children = c.children := by
  unfold World.visit? at h
  rw [hc] at h
  obtain ⟨c', hc', hv⟩ := Option.map_eq_some_iff.mp h
  simp only [Detector.visit, Prod.mk.injEq] at hv
  exact ⟨c', hc', hv⟩

namespace SameTree

theorem refl (root : DetectorId) (w : World κ υ) : SameTree root w w := fun _ _ => rfl

section

variable (hs : SameTree root w w')
include hs

theorem below (hd : Below w root d) : Below w' root d := by
  induction hd with
  | root => exact .root
  | child d e c hd hc he ih =>
    obtain ⟨c', hc', -, -, hch⟩ := detector_of_visit (hs d hd) hc
    exact .child d e c' ih hc' (hch ▸ he)

theorem below_of (hd : Below w' root d) : Below w root d := by
  induction hd with
  | root => exact .root
  | child d e c hd hc he ih =>
    obtain ⟨c', hc', -, -, hch⟩ := detector_of_visit (hs d ih).symm hc
    exact .child d e c' ih hc' (hch ▸ he)

theorem symm : SameTree root w' w := fun d hd => (hs d (hs.below_of hd)).symm

theorem trans (h' : SameTree root w' w'') : SameTree root w w'' :=
  fun d hd => (h' d (hs.below hd)).trans (hs d hd)

theorem detector (hd : Below w root d) (hc : w.detectors[d]? = some c) :
    ∃ c', w'.detectors[d]? = some c' ∧ c'.preludes = c.preludes ∧ c'.watchers = c.watchers ∧
      c'.children = c.children :=
  detector_of_visit (hs d hd) hc

theorem watched (hi : Watched w root i) : Watched w' root i := by
  obtain ⟨d, c, hd, hc, hi⟩ := hi
  obtain ⟨c', hc', -, hw, -⟩ := hs.detector hd hc
  exact ⟨d, c', hs.below hd, hc', hw ▸ hi⟩

end

end SameTree

/-! ## Calm calls -/

def Reads (h : Host κ υ) (w : World κ υ) (s : Source κ) (v : Value) : Prop :=
  ∃ u, Returns (readSource h s) w v u

/-- The cached value of a watcher is one that its source confirms. -/
def Confirmed (h : Host κ υ) (w : World κ υ) (i : WatcherId) : Prop :=
  ∃ c v, w.watchers[i]? = some c ∧ Reads h w c.source v ∧ c.comparator.changed c.value v = false

def AllConfirmed (h : Host κ υ) (w : World κ υ) (root : DetectorId) : Prop :=
  ∀ i, Watched w root i → Confirmed h w i

/-- A call that finds `start` and leaves `after` changes neither the tree of detectors nor what its
watchers hold nor, up to their comparators, what they read. Before the call they read what they read
in `before`. -/
structure Calm (h : Host κ υ) (root : DetectorId) (before start after : World κ υ) : Prop where
  detectors : before.detectors.size ≤ after.detectors.size
  watchers : before.watchers.size ≤ after.watchers.size
  tree : SameTree root before after
  records : ∀ i, Watched before root i → after.watchers[i]? = start.watchers[i]?
  reads : ∀ i c v, Watched before root i → before.watchers[i]? = some c →
    Reads h before c.source v → ∃ v', Reads h after c.source v' ∧ c.comparator.Alike v v'

def Call.Calm (h : Host κ υ) (root : DetectorId) (c : Call κ υ) : Prop :=
  Reactive.Calm h root c.before c.start c.after

/-- What happened from `w` to `w'` disturbed nothing. -/
def Still (h : Host κ υ) (root : DetectorId) (w w' : World κ υ) : Prop := Calm h root w w w'

theorem Calm.confirmed (hc : Calm h root w w' w'') (hi : Watched w root i)
    (hr : w'.watchers[i]? = w.watchers[i]?) (hs : Confirmed h w i) : Confirmed h w'' i := by
  obtain ⟨c, v, hw, hv, hch⟩ := hs
  obtain ⟨v', hv', halike⟩ := hc.reads i c v hi hw hv
  exact ⟨c, v', ((hc.records i hi).trans hr).trans hw, hv', halike _ hch⟩

theorem Still.refl (h : Host κ υ) (root : DetectorId) (w : World κ υ) : Still h root w w where
  detectors := Nat.le_refl _
  watchers := Nat.le_refl _
  tree := .refl root w
  records _ _ := rfl
  reads _ _ v _ _ hv := ⟨v, hv, .refl⟩

theorem Still.trans (h₁ : Still h root w w') (h₂ : Still h root w' w'') : Still h root w w'' where
  detectors := Nat.le_trans h₁.detectors h₂.detectors
  watchers := Nat.le_trans h₁.watchers h₂.watchers
  tree := h₁.tree.trans h₂.tree
  records i hi := (h₂.records i (h₁.tree.watched hi)).trans (h₁.records i hi)
  reads i c v hi hc hv := by
    obtain ⟨v', hv', ha⟩ := h₁.reads i c v hi hc hv
    obtain ⟨v'', hv'', ha'⟩ := h₂.reads i c v' (h₁.tree.watched hi) ((h₁.records i hi).trans hc) hv'
    exact ⟨v'', hv'', ha.trans ha'⟩

theorem Still.allConfirmed (hs : Still h root w w') (hw : AllConfirmed h w root) :
    AllConfirmed h w' root := by
  intro i hi
  have hi' := hs.tree.symm.watched hi
  exact hs.confirmed hi' rfl (hw i hi')

/-- What a run from `w` to `w'` keeps: the tree, and that watchers are confirmed. -/
structure Carries (h : Host κ υ) (root : DetectorId) (w w' : World κ υ) : Prop where
  detectors : w.detectors.size ≤ w'.detectors.size
  watchers : w.watchers.size ≤ w'.watchers.size
  tree : SameTree root w w'
  confirmed : ∀ i, Watched w root i → Confirmed h w i → Confirmed h w' i

theorem Carries.refl : Carries h root w w :=
  ⟨Nat.le_refl _, Nat.le_refl _, .refl root w, fun _ _ hs => hs⟩

theorem Carries.trans (h₁ : Carries h root w w') (h₂ : Carries h root w' w'') :
    Carries h root w w'' where
  detectors := Nat.le_trans h₁.detectors h₂.detectors
  watchers := Nat.le_trans h₁.watchers h₂.watchers
  tree := h₁.tree.trans h₂.tree
  confirmed i hi hs := h₂.confirmed i (h₁.tree.watched hi) (h₁.confirmed i hi hs)

theorem Still.carries (hs : Still h root w w') : Carries h root w w' :=
  ⟨hs.detectors, hs.watchers, hs.tree, fun _ hi => hs.confirmed hi rfl⟩

theorem getElem?_remember : (w.remember i v).watchers[j]? =
      if i = j then w.watchers[j]?.map fun c => { c with value := v } else w.watchers[j]? := by
  rw [World.remember, Array.getElem?_modify]

theorem Calm.carries_action {u : World κ υ} (hact : Calm h root u (u.remember i v) w')
    (hi : Watched u root i) (hc : u.watchers[i]? = some c) (hv : Reads h u c.source v')
    (ha : c.comparator.Alike v v') : Carries h root u w' ∧ Confirmed h w' i := by
  have hself : Confirmed h w' i := by
    obtain ⟨v'', hv'', ha'⟩ := hact.reads i c v' hi hc hv
    refine ⟨{ c with value := v }, v'', ?_, hv'', ha.trans ha' _ c.comparator.changed_self⟩
    rw [hact.records i hi, getElem?_remember, if_pos rfl, hc]
    rfl
  refine ⟨⟨hact.detectors, hact.watchers, hact.tree, ?_⟩, hself⟩
  intro j hj hs
  by_cases hij : i = j
  · exact hij ▸ hself
  · refine hact.confirmed hj ?_ hs
    rw [getElem?_remember, if_neg hij]

/-! ## Calm runs -/

section Runs

variable {cs : List (Call κ υ)} {c : Detector κ} {queue order : List DetectorId}
  {last r : Option Location}

theorem Preluded.carries (hp : Preluded h ks w cs w') (hcalm : ∀ c ∈ cs, c.Calm h root) :
    Carries h root w w' := by
  induction hp with
  | nil w => exact .refl
  | cons k ks w u w' cs hk hp ih =>
    have hfirst : Still h root w u := hcalm _ mem_cons_self
    exact hfirst.carries.trans (ih fun c hc => hcalm c (.tail _ hc))

theorem Preluded.kind (hp : Preluded h ks w cs w') : ∀ c ∈ cs, c.kind = .prelude := by
  induction hp with
  | nil => simp
  | cons _ _ _ _ _ _ _ _ ih => simpa using ih

theorem Checked.carries (hr : Checked h i w cs b w') (hcalm : ∀ c ∈ cs, c.Calm h root)
    (hi : Watched w root i) : Carries h root w w' ∧ Confirmed h w' i := by
  cases hr with
  | same c c' v _ u hc hv hc' hch =>
    have hread : Still h root w w' := hcalm _ mem_cons_self
    have hrecord := (hread.records i hi).trans hc
    -- reading again may give another value, which the comparator takes for the same
    obtain ⟨v', hv', halike⟩ := hread.reads i c v hi hc ⟨w', hv⟩
    obtain rfl := Option.mem_unique hc' hrecord
    exact ⟨hread.carries, c', v', hc', hv', halike _ hch⟩
  | changed c c' v _ u _ hc hv hc' hch hact =>
    have hread : Still h root w u := hcalm _ mem_cons_self
    have hact : Calm h root u (u.remember i v) w' :=
      hcalm ⟨.act c.readOnly, u, u.remember i v, w'⟩ (by simp)
    have hrecord := (hread.records i hi).trans hc
    obtain ⟨v', hv', halike⟩ := hread.reads i c v hi hc ⟨u, hv⟩
    obtain ⟨hcarry, hself⟩ := hact.carries_action (hread.tree.watched hi) hrecord hv' halike
    exact ⟨hread.carries.trans hcarry, hself⟩

/-- The watchers that a detector has from an index on are confirmed, and `n` steps are enough for
them. -/
structure ConfirmsFrom (h : Host κ υ) (root d : DetectorId) (index n : Nat) (w w' : World κ υ) :
    Prop where
  carries : Carries h root w w'
  fuel : ∀ c, w.detectors[d]? = some c → c.watchers.length < index + n
  confirmed : ∀ c, w.detectors[d]? = some c → ∀ i ∈ c.watchers.drop index, Confirmed h w' i

theorem Checked.confirmsFrom (hr : Checked h i w cs b u) (hcalm : ∀ c ∈ cs, c.Calm h root)
    (hd : Below w root d) (hc : w.detectors[d]? = some c) (hi : c.watchers[index]? = some i)
    (hrest : Below u root d → ConfirmsFrom h root d (index + 1) n u w') :
    ConfirmsFrom h root d index (n + 1) w w' := by
  have hwatched : Watched w root i := ⟨d, c, hd, hc, mem_of_getElem? hi⟩
  obtain ⟨hfirst, hself⟩ := hr.carries hcalm hwatched
  have hrest := hrest (hfirst.tree.below hd)
  obtain ⟨c', hc', -, hwatchers, -⟩ := hfirst.tree.detector hd hc
  refine ⟨hfirst.trans hrest.carries, ?_, ?_⟩
  · intro e he
    obtain rfl := Option.mem_unique he hc
    have hfuel := hrest.fuel c' hc'
    rw [hwatchers] at hfuel
    omega
  · intro e he
    obtain rfl := Option.mem_unique he hc
    have hdrop := hrest.confirmed c' hc'
    rw [hwatchers] at hdrop
    obtain ⟨hlt, rfl⟩ := List.getElem?_eq_some_iff.mp hi
    rw [drop_eq_getElem_cons hlt]
    exact forall_mem_cons.mpr
      ⟨hrest.carries.confirmed _ (hfirst.tree.watched hwatched) hself, hdrop⟩

theorem CheckedFrom.confirmsFrom (hr : CheckedFrom h d position n index last w cs r w')
    (hcalm : ∀ c ∈ cs, c.Calm h root) (hd : Below w root d) :
    ConfirmsFrom h root d index n w w' := by
  induction hr with
  | done n index last w c hc hnone =>
    have hlength := getElem?_eq_none_iff.mp hnone
    refine ⟨.refl, ?_, ?_⟩
    · intro e he
      obtain rfl := Option.mem_unique he hc
      omega
    · intro e he
      obtain rfl := Option.mem_unique he hc
      simp [drop_eq_nil_of_le hlength]
  | quiet n index last w u w' c i cs cs' r hc hi hchecked _ ih
  | counts n index last w u w' c i e cs cs' r hc hi hchecked _ _ ih =>
    exact hchecked.confirmsFrom (fun c hc => hcalm c (mem_append_left _ hc)) hd hc hi
      (ih fun c hc => hcalm c (mem_append_right _ hc))

/-- The order in which a pass that leaves the tree alone visits detectors, from a queue on. -/
inductive Order (w : World κ υ) : List DetectorId → List DetectorId → Prop where
  | nil : Order w [] []
  | cons (d : DetectorId) (queue order : List DetectorId) (c : Detector κ) :
      w.detectors[d]? = some c → Order w (queue ++ c.children) order →
      Order w (d :: queue) (d :: order)

theorem Order.queue_mem (ho : Order w queue order) :
    ∀ d ∈ queue, d ∈ order := by
  induction ho with
  | nil => simp
  | cons d queue order c hc _ ih =>
    intro e he
    rcases mem_cons.mp he with rfl | he
    · exact mem_cons_self
    · exact .tail _ (ih e (mem_append_left _ he))

theorem Order.child_mem (ho : Order w queue order) :
    ∀ d ∈ order, ∀ c, w.detectors[d]? = some c → ∀ e ∈ c.children, e ∈ order := by
  induction ho with
  | nil => simp
  | cons d queue order c hc hrest ih =>
    intro d' hd' c' hc' e he
    rcases mem_cons.mp hd' with rfl | hd'
    · obtain rfl := Option.mem_unique hc' hc
      exact .tail _ (hrest.queue_mem e (mem_append_right _ he))
    · exact .tail _ (ih d' hd' c' hc' e he)

theorem Order.below_mem (ho : Order w [root] order) (hd : Below w root d) : d ∈ order := by
  induction hd with
  | root => exact ho.queue_mem root mem_cons_self
  | child d e c _ hc he ih => exact ho.child_mem d ih c hc e he

theorem below_queue (hq : ∀ e ∈ d :: queue, Below w root e) (hc : w.detectors[d]? = some c) :
    ∀ e ∈ queue ++ c.children, Below w root e := by
  intro e he
  rcases mem_append.mp he with he | he
  · exact hq e (.tail _ he)
  · exact .child d e c (hq d mem_cons_self) hc he

theorem Order.all_below (ho : Order w queue order) (hq : ∀ d ∈ queue, Below w root d) :
    ∀ d ∈ order, Below w root d := by
  induction ho with
  | nil => simp
  | cons d queue order c hc _ ih =>
    exact forall_mem_cons.mpr ⟨hq d mem_cons_self, ih (below_queue hq hc)⟩

theorem Order.of_sameTree (ho : Order w queue order) (ht : SameTree root w w')
    (hq : ∀ d ∈ queue, Below w root d) : Order w' queue order := by
  induction ho with
  | nil => exact .nil
  | cons d queue order c hc _ ih =>
    obtain ⟨c', hc', -, -, hchildren⟩ := ht.detector (hq d mem_cons_self) hc
    refine .cons d queue order c' hc' ?_
    rw [hchildren]
    exact ih (below_queue hq hc)

/-- The watchers of the detectors in an order are confirmed, and a later pass has fuel for them. -/
structure ConfirmsAlong (h : Host κ υ) (root : DetectorId) (order : List DetectorId)
    (w w' : World κ υ) : Prop where
  carries : Carries h root w w'
  fuel : ∀ d ∈ order, ∀ c, w.detectors[d]? = some c → c.watchers.length < w'.watchers.size + slack
  confirmed : ∀ d ∈ order, ∀ c, w.detectors[d]? = some c → ∀ i ∈ c.watchers, Confirmed h w' i

theorem ConfirmsFrom.along (hw : Carries h root w u) (hfrom : ConfirmsFrom h root d 0 n u v)
    (hn : n = u.watchers.size + slack) (hrest : ConfirmsAlong h root order v w')
    (hbelow : ∀ e ∈ d :: order, Below w root e) : ConfirmsAlong h root (d :: order) w w' := by
  have hcarry := hw.trans hfrom.carries
  have hwatchers := Nat.le_trans hfrom.carries.watchers hrest.carries.watchers
  refine ⟨hcarry.trans hrest.carries, ?_, ?_⟩
  · intro e he c hc
    rcases mem_cons.mp he with rfl | he'
    · obtain ⟨c', hc', -, hsame, -⟩ := hw.tree.detector (hbelow e he) hc
      have := hfrom.fuel c' hc'
      rw [hsame] at this
      omega
    · obtain ⟨c', hc', -, hsame, -⟩ := hcarry.tree.detector (hbelow e he) hc
      exact hsame ▸ hrest.fuel e he' c' hc'
  · intro e he c hc i hi
    rcases mem_cons.mp he with rfl | he'
    · obtain ⟨c', hc', -, hsame, -⟩ := hw.tree.detector (hbelow e he) hc
      have hwatched : Watched w root i := ⟨e, c, hbelow e he, hc, hi⟩
      exact hrest.carries.confirmed i (hcarry.tree.watched hwatched)
        (hfrom.confirmed c' hc' i (by simpa [hsame] using hi))
    · obtain ⟨c', hc', -, hsame, -⟩ := hcarry.tree.detector (hbelow e he) hc
      exact hrest.confirmed e he' c' hc' i (hsame ▸ hi)

theorem VisitedFrom.confirmsAlong (hr : VisitedFrom h n queue position last w cs r w')
    (hcalm : ∀ c ∈ cs, c.Calm h root) (hq : ∀ d ∈ queue, Below w root d) :
    ∃ order, Order w queue order ∧ order.length < n ∧ ConfirmsAlong h root order w w' := by
  induction hr with
  | done n position last w => exact ⟨[], .nil, Nat.zero_lt_succ n, .refl, by simp, by simp⟩
  | next n d queue position last last' r w u v w' c e cs cs' cs'' hc hpre hcheck he _ ih =>
    have hd := hq d mem_cons_self
    have hfirst : Carries h root w u := hpre.carries fun c hc => hcalm c (by simp [hc])
    have hfrom := hcheck.confirmsFrom (fun c hc => hcalm c (by simp [hc])) (hfirst.tree.below hd)
    have htree := hfirst.tree.trans hfrom.carries.tree
    obtain ⟨order, horder, hlength, hrest⟩ := ih (fun c hc => hcalm c (by simp [hc]))
      (below_queue (fun e he => htree.below (hq e he)) he)
    -- the children are read after the detector's watchers, so the order is one of `v`; the tree is
    -- the same in `w`
    have hwhole : Order v (d :: queue) (d :: order) := .cons d queue order e he horder
    have hback := hwhole.of_sameTree htree.symm fun e he => htree.below (hq e he)
    exact ⟨d :: order, hback, Nat.succ_lt_succ hlength,
      hfrom.along hfirst rfl hrest (hback.all_below hq)⟩

theorem Checked.no_act (hr : Checked h i w cs false w') :
    ∀ c ∈ cs, c.kind ≠ .act false := by
  generalize hb : false = b at hr
  cases hr with
  | same => simp
  | changed c =>
    have hreadOnly : c.readOnly = true := by simpa using hb.symm
    simp [hreadOnly]

theorem CheckedFrom.no_act (hr : CheckedFrom h d position n index last w cs r w') (hnone : r = none)
    : last = none ∧ ∀ c ∈ cs, c.kind ≠ .act false := by
  induction hr with
  | done => exact ⟨hnone, by simp⟩
  | quiet _ _ _ _ _ _ _ _ cs cs' _ _ _ hchecked _ ih =>
    obtain ⟨hlast, hrest⟩ := ih hnone
    exact ⟨hlast, fun c hc => (mem_append.mp hc).elim (hchecked.no_act c) (hrest c)⟩
  | counts _ _ _ _ _ _ _ _ _ _ _ _ _ _ _ _ _ ih => cases (ih hnone).1

theorem VisitedFrom.no_act (hr : VisitedFrom h n queue position last w cs r w') (hnone : r = none) :
    last = none ∧ ∀ c ∈ cs, c.kind ≠ .act false := by
  induction hr with
  | done => exact ⟨hnone, by simp⟩
  | next _ _ _ _ _ _ _ _ _ _ _ _ _ cs cs' cs'' _ hpre hcheck _ _ ih =>
    obtain ⟨hlast', hrest⟩ := ih hnone
    obtain ⟨hlast, hwatchers⟩ := hcheck.no_act hlast'
    refine ⟨hlast, forall_mem_append.mpr ⟨forall_mem_append.mpr ⟨?_, hwatchers⟩, hrest⟩⟩
    intro c hc
    rw [hpre.kind c hc]
    decide

end Runs

end ReactiveMarkup.Reactive
