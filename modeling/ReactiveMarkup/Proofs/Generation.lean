import ReactiveMarkup.Template.Element
import ReactiveMarkup.Proofs.AddressTree

/-! # Runs of a generation

What a generation that succeeds does to the work in hand. Most of them leave the block in hand alone
and only take new names.
-/

namespace ReactiveMarkup.Template

variable {α β : Type}

/-- In the setting `s`, `g` succeeds with `a` and goes from `w` to `w'`. -/
def Runs (s : Setting) (g : Gen α) (w : Work) (a : α) (w' : Work) : Prop :=
  ((g.run s).run).run w = (.ok a, w')

section Steps

variable {s : Setting} {w w' : Work}

theorem runs_bind : Runs s (g >>= f) w b w' ↔ ∃ a u, Runs s g w a u ∧ Runs s (f a) u b w' := by
  unfold Runs
  change (ExceptT.bindCont (fun a => (f a).run s) (((g.run s).run).run w).1).run
    (((g.run s).run).run w).2 = _ ↔ _
  rcases ((g.run s).run).run w with ⟨r, u⟩
  cases r with
  | error d =>
    constructor
    · intro h
      cases h
    · rintro ⟨_, _, h, _⟩
      cases h
  | ok a =>
    constructor
    · intro h
      exact ⟨a, u, rfl, h⟩
    · rintro ⟨_, _, ha, h⟩
      cases ha
      exact h

theorem runs_of_run (h : ((g.run s).run).run w = (.ok a, u)) :
    Runs s g w b w' ↔ b = a ∧ w' = u := by
  rw [Runs, h, Prod.mk.injEq, Except.ok.injEq, eq_comm, eq_comm (a := u)]

@[simp] theorem runs_pure : Runs s (pure a) w b w' ↔ b = a ∧ w' = w := runs_of_run rfl

theorem Runs.map {f : α → β} (h : Runs s g w a w') :
    Runs s (g >>= fun a => pure (f a)) w (f a) w' :=
  runs_bind.mpr ⟨a, w', h, runs_pure.mpr ⟨rfl, rfl⟩⟩

@[simp] theorem runs_get : Runs s get w u w' ↔ u = w ∧ w' = w := runs_of_run rfl

@[simp] theorem runs_set : Runs s (set u) w x w' ↔ w' = u :=
  (runs_of_run rfl).trans (and_iff_right rfl)

@[simp] theorem runs_modify : Runs s (modify f) w x w' ↔ w' = f w :=
  (runs_of_run rfl).trans (and_iff_right rfl)

@[simp] theorem runs_read : Runs s read w t w' ↔ t = s ∧ w' = w := runs_of_run rfl

@[simp] theorem not_runs_throw : ¬ Runs s (throw d) w a w' := by
  intro h
  cases h

@[simp] theorem not_runs_fail : ¬ Runs s (fail f) w a w' := not_runs_throw

@[simp] theorem runs_explain {a : α} : Runs s (explain excerpt g) w a w' ↔ Runs s g w a w' := by
  unfold Runs
  change (ExceptT.tryCatch (g.run s) fun d =>
    (throw (d.orDetails excerpt) : Gen α).run s).run.run w = _ ↔ _
  unfold ExceptT.tryCatch
  have hrun : StateT.run (g.run s) w = ((g.run s).run).run w := rfl
  simp only [ExceptT.run_mk, StateT.run_bind, hrun]
  rcases ((g.run s).run).run w with ⟨r, u⟩
  cases r with
  | ok b => rfl
  | error d =>
    constructor
    · intro h
      cases h
    · intro h
      cases h

@[simp] theorem runs_require : Runs s (require c f) w x w' ↔ c = true ∧ w' = w := by
  cases c with
  | false => simp [require]
  | true => simp [require]

@[simp] theorem runs_kindOf : Runs s (kindOf code) w k w' ↔ k = s.kindOf code ∧ w' = w :=
  runs_of_run rfl

@[simp] theorem runs_requireName :
    Runs s (requireName code f) w x w' ↔ s.kindOf code = some .identifier ∧ w' = w := by
  simp [requireName, runs_bind, eq_comm]

@[simp] theorem runs_fresh : Runs s (fresh stem) w n w' ↔
      n = stem ++ toString w.names.count ∧
        w' = { w with names := { count := w.names.count + 1 } } :=
  runs_of_run rfl

@[simp] theorem runs_emit :
    Runs s (emit code) w x w' ↔ w' = { w with binds := w.binds ++ [code] } :=
  runs_modify

@[simp] theorem runs_nameAt : Runs s (nameAt path) w n w' ↔
      n = (w.addresses.claim "el" w.names path).1 ∧
        w' = { w with
          addresses := (w.addresses.claim "el" w.names path).2.1
          names := (w.addresses.claim "el" w.names path).2.2 } :=
  runs_of_run rfl

end Steps

/-! ## What leaves the block in hand alone -/

/-- The block in hand is as before; names may have been taken. -/
structure Kept (w w' : Work) : Prop where
  binds : w'.binds = w.binds
  addresses : w'.addresses = w.addresses
  names : w.names.count ≤ w'.names.count

theorem Kept.refl : Kept w w := ⟨rfl, rfl, Nat.le_refl _⟩

theorem Kept.trans (h : Kept w u) (h' : Kept u w') : Kept w w' :=
  ⟨h'.binds.trans h.binds, h'.addresses.trans h.addresses, Nat.le_trans h.names h'.names⟩

def Keeps (g : Gen α) : Prop := ∀ s w a w', Runs s g w a w' → Kept w w'

/-- The result does not depend on the work in hand, and no names are taken. -/
def Steady (g : Gen α) : Prop :=
  ∀ s w a w', Runs s g w a w' →
    Kept w w' ∧ w'.names = w.names ∧ ∀ v, ∃ v', Runs s g v a v'

theorem Steady.keeps (h : Steady g) : Keeps g := fun s w a w' hr => (h s w a w' hr).1

namespace Keeps

protected theorem pure (a : α) : Keeps (pure a) := by
  intro s w b w' hr
  obtain ⟨-, rfl⟩ := runs_pure.mp hr
  exact .refl

protected theorem bind (hg : Keeps g) (hf : ∀ a, Keeps (f a)) : Keeps (g >>= f) := by
  intro s w b w' hr
  obtain ⟨a, u, ha, hb⟩ := runs_bind.mp hr
  exact (hg s w a u ha).trans (hf a s u b w' hb)

protected theorem map {f : α → β} (hg : Keeps g) : Keeps (g >>= fun a => pure (f a)) :=
  hg.bind fun a => .pure (f a)

protected theorem fresh : Keeps (fresh stem) := by
  intro s w n w' hr
  obtain ⟨-, rfl⟩ := runs_fresh.mp hr
  exact ⟨rfl, rfl, Nat.le_succ _⟩

protected theorem fail (f : Fault) : Keeps (fail f : Gen α) :=
  fun _ _ _ _ hr => absurd hr not_runs_fail

protected theorem foldlM {xs : List α} (hf : ∀ x ∈ xs, ∀ b, Keeps (f b x)) (b : β) :
    Keeps (xs.foldlM f b) := by
  induction xs generalizing b with
  | nil =>
    exact .pure _
  | cons x xs ih =>
    exact (hf x List.mem_cons_self b).bind fun c =>
      ih (fun y hy => hf y (.tail _ hy)) c

end Keeps

namespace Steady

protected theorem pure (a : α) : Steady (pure a) := by
  intro s w b w' hr
  obtain ⟨rfl, rfl⟩ := runs_pure.mp hr
  exact ⟨.refl, rfl, fun v => ⟨v, runs_pure.mpr ⟨rfl, rfl⟩⟩⟩

protected theorem bind (hg : Steady g) (hf : ∀ a, Steady (f a)) : Steady (g >>= f) := by
  intro s w b w' hr
  obtain ⟨a, u, ha, hb⟩ := runs_bind.mp hr
  obtain ⟨hk, hn, hany⟩ := hg s w a u ha
  obtain ⟨hk', hn', hany'⟩ := hf a s u b w' hb
  refine ⟨hk.trans hk', hn'.trans hn, ?_⟩
  intro v
  obtain ⟨v₁, hv₁⟩ := hany v
  obtain ⟨v₂, hv₂⟩ := hany' v₁
  exact ⟨v₂, runs_bind.mpr ⟨a, v₁, hv₁, hv₂⟩⟩

protected theorem map {f : α → β} (hg : Steady g) : Steady (g >>= fun a => pure (f a)) :=
  hg.bind fun a => .pure (f a)

protected theorem fail (f : Fault) : Steady (fail f : Gen α) :=
  fun _ _ _ _ hr => absurd hr not_runs_fail

protected theorem throw : Steady (throw d : Gen α) :=
  fun _ _ _ _ hr => absurd hr not_runs_throw

protected theorem read : Steady (read : Gen Setting) := by
  intro s w t w' hr
  obtain ⟨rfl, rfl⟩ := runs_read.mp hr
  exact ⟨.refl, rfl, fun v => ⟨v, runs_read.mpr ⟨rfl, rfl⟩⟩⟩

protected theorem modify
    (hf : ∀ w, (f w).binds = w.binds ∧ (f w).addresses = w.addresses ∧ (f w).names = w.names) :
    Steady (modify f : Gen PUnit) := by
  intro s w x w' hr
  obtain rfl := runs_modify.mp hr
  obtain ⟨hb, ha, hn⟩ := hf w
  exact ⟨⟨hb, ha, Nat.le_of_eq (congrArg Names.count hn.symm)⟩, hn,
    fun v => ⟨f v, runs_modify.mpr rfl⟩⟩

protected theorem warn : Steady (warn text) := .modify fun _ => ⟨rfl, rfl, rfl⟩

protected theorem resolver :
    Steady (modify fun w => { w with usesResolver := true } : Gen PUnit) :=
  .modify fun _ => ⟨rfl, rfl, rfl⟩

protected theorem require : Steady (require c f) := by
  unfold Template.require
  split
  · exact .pure _
  · exact .fail f

protected theorem guard {c : Bool} {f : Fault} (hg : Steady g) :
    Steady (require c f >>= fun _ => g) :=
  Steady.require.bind fun _ => hg

protected theorem mapM (hf : ∀ x, Steady (f x)) (xs : List α) : Steady (xs.mapM f) := by
  induction xs with
  | nil =>
    exact .pure _
  | cons x xs ih =>
    rw [List.mapM_cons]
    exact (hf x).bind fun b => ih.bind fun bs => .pure _

protected theorem forM (hf : ∀ x, Steady (f x)) {xs : List α} : Steady (xs.forM f) := by
  induction xs with
  | nil => exact .pure _
  | cons x xs ih => exact (hf x).bind fun _ => ih

end Steady

theorem steady_checkName : Steady (checkName path) := by
  refine Steady.read.bind fun t => ?_
  split
  · exact .warn
  · exact .pure _

theorem steady_kindOf : Steady (kindOf code) := Steady.read.map

theorem steady_requireName : Steady (requireName code f) := steady_kindOf.bind fun _ => .require

theorem steady_escape : Steady escape := Steady.read.map

theorem steady_quoted : Steady (quoted text) := steady_escape.map

theorem steady_interpolate : Steady (interpolate text) := by
  refine steady_escape.bind fun e => ?_
  split
  · exact .pure _
  · exact .throw

theorem steady_unwrap : Steady (unwrap text) := by
  unfold unwrap
  split
  · exact .pure _
  · exact .throw

theorem steady_labelText : Steady (labelText text) :=
  Steady.read.map

theorem steady_fragmentOf : Steady (fragmentOf b) :=
  steady_quoted.map

end ReactiveMarkup.Template
