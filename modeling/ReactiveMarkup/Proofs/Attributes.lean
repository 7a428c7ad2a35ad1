import ReactiveMarkup.Proofs.Generation

/-! # Attributes and their element

The code of an attribute asks for no variable but that of its element, and it is the code that is
made when the element's variable is given beforehand.
-/

namespace ReactiveMarkup.Template

open Markup (Attribute Element)

variable {α β γ : Type}

/-! ## Progress of a block -/

structure Work.Sound (w : Work) : Prop where
  ordered : w.addresses.Ordered
  named : w.addresses.Named w.names

/-- From `w` to `w'` statements were added and nodes were named, all of them at paths in `P`. -/
structure Advances (P : List Nat → Prop) (w w' : Work) : Prop where
  binds : w.binds <+: w'.binds
  names : w.names.count ≤ w'.names.count
  sound : w.Sound → w'.Sound
  keeps : ∀ p n, w.addresses.nameAt? p = some n → w'.addresses.nameAt? p = some n
  paths : ∀ p, w'.addresses.Has p → w.addresses.Has p ∨ ∃ q, P q ∧ p <+: q

namespace Advances

variable {P Q : List Nat → Prop} {w u w' : Work}

protected theorem refl : Advances P w w :=
  ⟨List.prefix_rfl, Nat.le_refl _, id, fun _ _ h => h, fun _ h => .inl h⟩

protected theorem trans (h : Advances P w u) (h' : Advances P u w') : Advances P w w' where
  binds := h.binds.trans h'.binds
  names := Nat.le_trans h.names h'.names
  sound hw := h'.sound (h.sound hw)
  keeps p n hn := h'.keeps p n (h.keeps p n hn)
  paths p hp := by
    rcases h'.paths p hp with hp | hp
    · exact h.paths p hp
    · exact .inr hp

theorem mono (h : Advances P w w') (hP : ∀ p, P p → Q p) : Advances Q w w' :=
  { h with paths := fun p hp => (h.paths p hp).imp_right fun ⟨q, hq, hpq⟩ => ⟨q, hP q hq, hpq⟩ }

end Advances

theorem Kept.advances (h : Kept w w') (P : List Nat → Prop) : Advances P w w' where
  binds := h.binds ▸ List.prefix_rfl
  names := h.names
  sound hw := ⟨h.addresses ▸ hw.ordered, h.addresses ▸ hw.named.mono h.names⟩
  keeps p n hn := by rw [h.addresses]; exact hn
  paths p hp := .inl (h.addresses ▸ hp)

theorem advances_emit : Advances P w { w with binds := w.binds ++ [code] } where
  binds := List.prefix_append _ _
  names := Nat.le_refl _
  sound hw := ⟨hw.ordered, hw.named⟩
  keeps _ _ hn := hn
  paths _ hp := .inl hp

theorem advances_nameAt (h : Runs s (nameAt path) w n w') :
    Advances (· = path) w w' ∧ w'.addresses.nameAt? path = some n := by
  obtain ⟨rfl, rfl⟩ := runs_nameAt.mp h
  refine ⟨⟨List.prefix_rfl, ?_, ?_, ?_, ?_⟩, ?_⟩
  · simp only [Address.claim_names]
    split
    · exact Nat.le_refl _
    · exact Nat.le_succ _
  · exact fun hw => ⟨hw.ordered.claim "el" w.names, hw.named.claim⟩
  · intro p n hn
    simp only [Address.nameAt?_claim, Address.claim_fst]
    split
    · next hp => rw [← hp, hn, Option.getD_some]
    · exact hn
  · intro p hp
    exact (w.addresses.has_claim "el" w.names hp).imp_right fun h => ⟨path, rfl, h⟩
  · simp only [Address.nameAt?_claim, if_true]

/-! ## Code for a given variable -/

/-- `g` makes what `g'` makes when the node at `path` has the variable `el`. -/
def Mirrors (path : List Nat) (el : String) (g g' : Gen α) : Prop :=
  ∀ s w a w', Runs s g w a w' → Advances (· = path) w w' ∧
    ((∀ n, w'.addresses.nameAt? path = some n → n = el) →
      ∀ v, ∃ v', Runs s g' v a v' ∧ v'.names = v.names)

section Mirrors

variable {path : List Nat} {el : String}

theorem Steady.mirrors (h : Steady g) : Mirrors path el g g := by
  intro s w a w' hr
  obtain ⟨hk, -, hany⟩ := h s w a w' hr
  refine ⟨hk.advances _, fun _ v => ?_⟩
  obtain ⟨v', hv⟩ := hany v
  exact ⟨v', hv, (h s v a v' hv).2.1⟩

theorem Mirrors.pure : Mirrors path el (pure a) (pure a) := (Steady.pure a).mirrors

theorem mirrors_nameAt : Mirrors path el (nameAt path) (pure el) := by
  intro s w n w' hr
  obtain ⟨ha, hn⟩ := advances_nameAt hr
  refine ⟨ha, fun hel v => ⟨v, ?_, rfl⟩⟩
  rw [hel n hn]
  exact runs_pure.mpr ⟨rfl, rfl⟩

theorem Mirrors.bind (hg : Mirrors path el g g') (hf : ∀ a, Mirrors path el (f a) (f' a)) :
    Mirrors path el (g >>= f) (g' >>= f') := by
  intro s w b w' hr
  obtain ⟨a, u, ha, hb⟩ := runs_bind.mp hr
  obtain ⟨hadv, hfirst⟩ := hg s w a u ha
  obtain ⟨hadv', hrest⟩ := hf a s u b w' hb
  refine ⟨hadv.trans hadv', fun hel v => ?_⟩
  obtain ⟨v₁, hv₁, hn₁⟩ := hfirst (fun n hn => hel n (hadv'.keeps path n hn)) v
  obtain ⟨v₂, hv₂, hn₂⟩ := hrest hel v₁
  exact ⟨v₂, runs_bind.mpr ⟨a, v₁, hv₁, hv₂⟩, hn₂.trans hn₁⟩

theorem Mirrors.map {f : α → β} (hg : Mirrors path el g g') :
    Mirrors path el (g >>= fun a => Pure.pure (f a)) (g' >>= fun a => Pure.pure (f a)) :=
  hg.bind fun _ => .pure

theorem Mirrors.mapM (hf : ∀ x, Mirrors path el (f x) (f' x)) {xs : List α} :
    Mirrors path el (xs.mapM f) (xs.mapM f') := by
  induction xs with
  | nil =>
    exact .pure
  | cons x xs ih =>
    rw [List.mapM_cons, List.mapM_cons]
    exact (hf x).bind fun b => ih.bind fun bs => .pure

variable (a : Attribute) (w : ElementWork) (value : Option String) (content : String)

theorem steady_expressionOf : Steady (expressionOf value content) :=
  Steady.require.map

theorem steady_liftFault : Steady (liftFault r) := by
  unfold liftFault
  split
  · exact .pure _
  · exact .fail _

theorem steady_toggleExpression : Steady (toggleExpression a) := by
  refine .guard ?_
  split
  · exact steady_unwrap
  · exact .pure _

theorem steady_classSummand : Steady (classSummand a) := by
  unfold classSummand
  split
  · exact steady_interpolate
  · exact (steady_toggleExpression a).bind fun _ => steady_quoted.map

theorem mirrors_withElement :
    Mirrors path el (withElement exp (nameAt path) code) (withElement exp (pure el) code) :=
  mirrors_nameAt.map

theorem mirrors_namedHandler : Mirrors path el (namedHandler (nameAt path) event modifiers handler)
      (namedHandler (pure el) event modifiers handler) :=
  steady_checkName.mirrors.bind fun _ => mirrors_nameAt.map

theorem mirrors_toggleCode :
    Mirrors path el (toggleCode (nameAt path) a) (toggleCode (pure el) a) :=
  (steady_toggleExpression a).mirrors.bind fun _ => mirrors_nameAt.map

theorem mirrors_scopedClasses : Mirrors path el (scopedClasses scope (nameAt path) e w)
      (scopedClasses scope (pure el) e w) := by
  unfold scopedClasses
  split
  · exact .pure
  · dsimp only
    split
    · refine Steady.resolver.mirrors.bind fun _ => ?_
      refine (Steady.mapM steady_classSummand _).mirrors.bind fun _ => ?_
      exact mirrors_nameAt.map
    · exact (Mirrors.mapM mirrors_toggleCode).map

theorem mirrors_plainCode : Mirrors path el (plainCode (nameAt path) w name value content)
      (plainCode (pure el) w name value content) := by
  unfold plainCode
  dsimp only
  split
  · exact .pure
  · split
    · exact .pure
    · refine steady_interpolate.mirrors.bind fun _ => ?_
      split
      · exact .pure
      · exact mirrors_withElement.map

theorem mirrors_classCode : Mirrors path el (classCode (nameAt path) e w directive a)
      (classCode (pure el) e w directive a) := by
  refine Steady.read.mirrors.bind fun t => ?_
  split
  · exact mirrors_scopedClasses w
  · split
    · exact (mirrors_toggleCode a).map
    · split
      · exact (mirrors_plainCode w _ _).map
      · exact .pure

theorem mirrors_styleCode : Mirrors path el (styleCode (nameAt path) property value content)
      (styleCode (pure el) property value content) := by
  unfold styleCode
  split
  · exact (steady_expressionOf _ _).mirrors.bind fun _ => mirrors_withElement
  · exact Mirrors.pure.bind fun _ => mirrors_withElement

theorem mirrors_actionCode : Mirrors path el (actionCode (nameAt path) name value content)
      (actionCode (pure el) name value content) := by
  unfold actionCode
  split
  · refine Steady.require.mirrors.bind fun _ => ?_
    refine steady_checkName.mirrors.bind fun _ => ?_
    split
    · refine (steady_expressionOf _ _).mirrors.bind fun _ => ?_
      refine Mirrors.pure.bind fun _ => ?_
      exact mirrors_nameAt.map
    · refine Mirrors.pure.bind fun _ => ?_
      exact mirrors_nameAt.map
  · refine (steady_expressionOf _ _).mirrors.bind fun _ => ?_
    exact mirrors_nameAt.map

theorem mirrors_referenceCode :
    Mirrors path el (referenceCode (nameAt path) target) (referenceCode (pure el) target) :=
  Steady.require.mirrors.bind fun _ => steady_checkName.mirrors.bind fun _ =>
    mirrors_nameAt.map

end Mirrors

def YieldsFrom (m : Names) (s : Setting) (g : Gen α) (a : α) : Prop :=
  ∀ v : Work, v.names = m → ∃ v', Runs s g v a v'

/-- With the node at `path` named on demand, `f` asks for no other node, and makes what it makes for
the variable that this node has got. -/
def Answered (path : List Nat) (f : Gen String → Gen α) : Prop :=
  ∀ s w a w', Runs s (f (nameAt path)) w a w' → Advances (· = path) w w' ∧
    ∀ el, (∀ n, w'.addresses.nameAt? path = some n → n = el) → ∃ m, YieldsFrom m s (f (pure el)) a

section Answered

variable {path : List Nat}

theorem answered_of_mirrors (h : ∀ el, Mirrors path el (f (nameAt path)) (f (pure el))) :
    Answered path f := by
  intro s w a w' hr
  refine ⟨(h "" s w a w' hr).1, fun el hel => ⟨w.names, fun v _ => ?_⟩⟩
  obtain ⟨v', hv, -⟩ := (h el s w a w' hr).2 hel v
  exact ⟨v', hv⟩

theorem Answered.after_steady {f : α → Gen String → Gen β} (hg : Steady g)
    (hf : ∀ a, Answered path (f a)) : Answered path fun element => g >>= fun a => f a element := by
  intro s w b w' hr
  obtain ⟨a, u, ha, hb⟩ := runs_bind.mp hr
  obtain ⟨hk, -, hany⟩ := hg s w a u ha
  obtain ⟨hadv, hrest⟩ := hf a s u b w' hb
  refine ⟨(hk.advances _).trans hadv, fun el hel => ?_⟩
  obtain ⟨m, hm⟩ := hrest el hel
  refine ⟨m, fun v hv => ?_⟩
  obtain ⟨v₁, hv₁⟩ := hany v
  obtain ⟨v₂, hv₂⟩ := hm v₁ ((hg s v a v₁ hv₁).2.1.trans hv)
  exact ⟨v₂, runs_bind.mpr ⟨a, v₁, hv₁, hv₂⟩⟩

theorem Answered.map (hf : Answered path f) (k : α → β) :
    Answered path fun element => f element >>= fun a => pure (k a) := by
  intro s w b w' hr
  obtain ⟨a, u, ha, hb⟩ := runs_bind.mp hr
  obtain ⟨rfl, rfl⟩ := runs_pure.mp hb
  obtain ⟨hadv, hrest⟩ := hf s w a w' ha
  refine ⟨hadv, fun el hel => ?_⟩
  obtain ⟨m, hm⟩ := hrest el hel
  refine ⟨m, fun v hv => ?_⟩
  obtain ⟨v', hv'⟩ := hm v hv
  exact ⟨v', hv'.map⟩

theorem Answered.after_fresh {f : String → Gen String → Gen α}
    (hf : ∀ n el, Mirrors path el (f n (nameAt path)) (f n (pure el))) :
    Answered path fun element => fresh stem >>= fun n => f n element := by
  intro s w a w' hr
  obtain ⟨n, u, hn, ha⟩ := runs_bind.mp hr
  have hk := Keeps.fresh s w n u hn
  refine ⟨(hk.advances _).trans (hf n "" s u a w' ha).1, fun el hel => ⟨w.names, fun v hv => ?_⟩⟩
  obtain ⟨rfl, rfl⟩ := runs_fresh.mp hn
  obtain ⟨v', hv', -⟩ := (hf _ el s _ a w' ha).2 hel
    { v with names := { count := v.names.count + 1 } }
  exact ⟨v', runs_bind.mpr ⟨_, _, runs_fresh.mpr ⟨by rw [hv], rfl⟩, hv'⟩⟩

theorem Answered.before_fresh {k : String → String → α} : Answered path fun element =>
      element >>= fun el => fresh stem >>= fun n => pure (k el n) := by
  intro s w a w' hr
  obtain ⟨el', u, hel', hr⟩ := runs_bind.mp hr
  obtain ⟨n, u', hn, ha⟩ := runs_bind.mp hr
  obtain ⟨hadv, hname⟩ := advances_nameAt hel'
  have hk := Keeps.fresh s u n u' hn
  obtain ⟨rfl, rfl⟩ := runs_pure.mp ha
  refine ⟨hadv.trans (hk.advances _), fun el hel => ⟨u.names, fun v hv => ?_⟩⟩
  obtain rfl := hel el' ((hk.advances (· = path)).keeps path el' hname)
  obtain ⟨rfl, rfl⟩ := runs_fresh.mp hn
  refine ⟨{ v with names := { count := v.names.count + 1 } }, runs_bind.mpr
    ⟨el', v, runs_pure.mpr ⟨rfl, rfl⟩, runs_bind.mpr ⟨_, _, runs_fresh.mpr ⟨rfl, rfl⟩, ?_⟩⟩⟩
  rw [hv]
  exact runs_pure.mpr ⟨rfl, rfl⟩

theorem answered_expressionHandler :
    Answered path fun element => expressionHandler element event modifiers exp := by
  unfold expressionHandler
  refine .after_steady steady_kindOf fun kind => ?_
  split
  · exact answered_of_mirrors fun el => mirrors_namedHandler
  · exact .after_fresh fun n el => mirrors_withElement
  · exact answered_of_mirrors fun el => mirrors_withElement

theorem answered_eventCode : Answered path fun element => eventCode element spec value content := by
  unfold eventCode
  split
  · exact answered_of_mirrors fun el => Steady.require.mirrors.bind fun _ =>
      mirrors_nameAt.map
  · split
    · exact answered_of_mirrors fun el => (Steady.fail _).mirrors
    · split
      · refine .after_steady (steady_expressionOf _ _) fun exp => ?_
        refine .after_steady Steady.require fun _ => ?_
        exact .after_steady steady_liftFault fun m => answered_expressionHandler
      · refine .after_steady Steady.require fun _ => ?_
        refine .after_steady steady_liftFault fun m => ?_
        exact answered_of_mirrors fun el => mirrors_namedHandler
      · exact answered_of_mirrors fun el => mirrors_nameAt.map

theorem steady_twoWayExpression (target : String) (options : List String) (value : Option String)
    (content : String) : Steady (twoWayExpression target options value content) := by
  unfold twoWayExpression
  split
  · exact (steady_expressionOf _ _).map
  · exact .pure _

theorem answered_twoWayCode :
    Answered path fun element => twoWayCode element e w spec value content := by
  refine .after_steady Steady.require fun _ => ?_
  refine .after_steady (steady_twoWayExpression _ _ _ _) fun p => ?_
  refine .after_steady Steady.require fun _ => ?_
  refine .after_steady Steady.require fun _ => ?_
  refine .after_steady steady_requireName fun _ => ?_
  exact .before_fresh

theorem steady_spreadCode : Steady (spreadCode w a object) := by
  refine steady_requireName.bind fun _ => ?_
  split
  · exact .pure _
  · exact .fail _

theorem answered_attributeCode : Answered path fun element => attributeCode element e w a := by
  unfold attributeCode
  split
  · exact Answered.map (answered_of_mirrors fun el => steady_spreadCode.mirrors) _
  · refine .after_steady steady_liftFault fun r => ?_
    split
    · exact answered_eventCode.map _
    · exact answered_twoWayCode.map _
    · exact Answered.map (answered_of_mirrors fun el => mirrors_actionCode _ _) _
    · split
      · exact Answered.map (answered_of_mirrors fun el => mirrors_referenceCode) _
      · split
        · split
          · exact Answered.map (answered_of_mirrors fun el => mirrors_plainCode _ _ _) _
          · exact Answered.map (answered_of_mirrors fun el => mirrors_styleCode _ _) _
        · exact answered_of_mirrors fun el => mirrors_classCode _ _
        · exact Answered.map (answered_of_mirrors fun el => mirrors_plainCode _ _ _) _
        · exact Answered.map (answered_of_mirrors fun el => mirrors_plainCode _ _ _) _

end Answered

end ReactiveMarkup.Template
