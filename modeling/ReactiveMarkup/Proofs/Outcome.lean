import ReactiveMarkup.Reactive.Mount

/-! # Outcomes of computations

A computation in a world either returns or stops. `Returns` follows those that return; `Meets` says
what holds when a computation returns and what holds when it stops.
-/

namespace ReactiveMarkup.Reactive

variable {κ υ α β : Type}

def outcome (x : Act κ υ α) (w : World κ υ) : Except Stop α × World κ υ := x.run.run w

def Returns (x : Act κ υ α) (w : World κ υ) (a : α) (w' : World κ υ) : Prop :=
  outcome x w = (.ok a, w')

/-- If `x` returns, `post` holds of what it returns and leaves; if it stops, `stop` holds. -/
def Meets (stop : Stop → World κ υ → Prop) (x : Act κ υ α) (w : World κ υ)
    (post : α → World κ υ → Prop) : Prop :=
  match outcome x w with
  | (.ok a, w') => post a w'
  | (.error s, w') => stop s w'

variable {σ : Type} (step : α → σ → σ → Prop) (s : σ) in
/-- Steps of the given kinds, one after the other and with nothing between them. -/
inductive Path : List α → σ → Prop where
  | nil : Path [] s
  | snoc : Path as t → step a t u → Path (as ++ [a]) u

theorem outcome_bind (x : Act κ υ α) (f : α → Act κ υ β) (w : World κ υ) :
    outcome (x >>= f) w =
      match outcome x w with
      | (.ok a, w') => outcome (f a) w'
      | (.error s, w') => (.error s, w') := by
  change (ExceptT.bindCont f (outcome x w).1).run (outcome x w).2 = _
  rcases outcome x w with ⟨r, w'⟩
  cases r <;> rfl

theorem outcome_find (store : World κ υ → Array α) : outcome (find store i) w =
      match (store w)[i]? with
      | some a => (.ok a, w)
      | none => (.error .failed, w) := by
  change outcome (match (store w)[i]? with
    | some a => pure a
    | none => throw .failed) w = _
  cases (store w)[i]? <;> rfl

theorem outcome_guarded (a : Act κ υ Unit) : outcome (guarded a) w =
      match outcome a w with
      | (.error .failed, w') => (.ok (), w')
      | r => r := by
  unfold outcome guarded
  simp only [tryCatch, tryCatchThe, MonadExceptOf.tryCatch, ExceptT.tryCatch, ExceptT.run_mk,
    StateT.run_bind]
  change (StateT.run (ExceptT.run a) w >>= fun _ => _) = _
  generalize StateT.run (ExceptT.run a) w = p
  obtain ⟨r, w'⟩ := p
  cases r with
  | ok u => rfl
  | error s => cases s <;> rfl

/-! ## Computations that return -/

theorem returns_bind :
    Returns (x >>= f) w b w' ↔ ∃ a v, Returns x w a v ∧ Returns (f a) v b w' := by
  unfold Returns
  rw [outcome_bind]
  rcases outcome x w with ⟨r, v⟩
  cases r with
  | error s => simp
  | ok a =>
    constructor
    · intro h
      exact ⟨a, v, rfl, h⟩
    · rintro ⟨_, _, he, h⟩
      cases he
      exact h

@[simp] theorem returns_pure : Returns (pure a : Act κ υ α) w b w' ↔ b = a ∧ w' = w := by
  change (Except.ok a, w) = (Except.ok b, w') ↔ _
  simp [eq_comm]

@[simp] theorem returns_get : Returns (get : Act κ υ (World κ υ)) w v w' ↔ v = w ∧ w' = w := by
  change (Except.ok w, w) = (Except.ok v, w') ↔ _
  simp [eq_comm]

@[simp] theorem returns_modify : Returns (modify f : Act κ υ PUnit) w u w' ↔ w' = f w := by
  change (Except.ok PUnit.unit, f w) = (Except.ok u, w') ↔ _
  simp [eq_comm]

theorem Returns.unique (ha : Returns x w a u) (hb : Returns x w b v) : a = b ∧ u = v := by
  have h := ha.symm.trans hb
  cases h
  exact ⟨rfl, rfl⟩

theorem Returns.world_eq (h : Returns x w a w') : (outcome x w).2 = w' := congrArg Prod.snd h

theorem returns_find : Returns (find store i) w a w' ↔ (store w)[i]? = some a ∧ w' = w := by
  unfold Returns
  rw [outcome_find]
  cases (store w)[i]? <;> simp [eq_comm]

/-! ## Computations that meet a condition -/

namespace Meets

variable {stop : Stop → World κ υ → Prop} {x : Act κ υ α} {w : World κ υ}
  {post : α → World κ υ → Prop}

theorem of_outcome (h : outcome x w = (.ok a, w')) : Meets stop x w post ↔ post a w' := by
  simp [Meets, h]

@[simp] theorem bind_iff {post : β → World κ υ → Prop} :
    Meets stop (x >>= f) w post ↔ Meets stop x w fun a w' => Meets stop (f a) w' post := by
  unfold Meets
  rw [outcome_bind]
  rcases outcome x w with ⟨r, w'⟩
  cases r <;> rfl

@[simp] theorem pure_iff : Meets stop (pure a) w post ↔ post a w := Iff.rfl

@[simp] theorem get_iff {post : World κ υ → World κ υ → Prop} :
    Meets stop get w post ↔ post w w := Iff.rfl

@[simp] theorem modify_iff {post : PUnit → World κ υ → Prop} :
    Meets stop (modify f) w post ↔ post ⟨⟩ (f w) := Iff.rfl

@[simp] theorem document_iff {post : Document (Reaction κ) → World κ υ → Prop} :
    Meets stop document w post ↔ post w.document w := Iff.rfl

@[simp] theorem changeDocument_iff {post : Unit → World κ υ → Prop} :
    Meets stop (changeDocument f) w post ↔ post () { w with document := f w.document } := Iff.rfl

@[simp] theorem extendDocument_iff {post : Nat → World κ υ → Prop} :
    Meets stop (extendDocument f) w post ↔
      post (f w.document).1 { w with document := (f w.document).2 } := Iff.rfl

theorem find_iff (h : (store w)[i]? = some a) : Meets stop (find store i) w post ↔ post a w :=
  of_outcome (by rw [outcome_find, h])

theorem find_of (hn : (store w)[i]? = none → stop .failed w)
    (h : ∀ a, (store w)[i]? = some a → post a w) : Meets stop (find store i) w post := by
  unfold Meets
  rw [outcome_find]
  cases ha : (store w)[i]? with
  | none => exact hn ha
  | some a => exact h a ha

theorem iff_returns : Meets stop x w post ↔
    (∀ a w', Returns x w a w' → post a w') ∧ ∀ s w', outcome x w = (.error s, w') → stop s w' := by
  unfold Meets Returns
  rcases outcome x w with ⟨r, v⟩
  cases r <;> simp

theorem mono {post post' : α → World κ υ → Prop} (h : Meets stop x w post)
    (hp : ∀ a w', post a w' → post' a w') : Meets stop x w post' := by
  obtain ⟨hpost, hstop⟩ := iff_returns.mp h
  exact iff_returns.mpr ⟨fun a w' hret => hp a w' (hpost a w' hret), hstop⟩

theorem of_returns (h : ∀ a w', Returns x w a w' → post a w')
    (hs : ∀ s w', outcome x w = (.error s, w') → stop s w') : Meets stop x w post :=
  iff_returns.mpr ⟨h, hs⟩

theorem and_returns (h : Meets stop x w post) :
    Meets stop x w fun a w' => Returns x w a w' ∧ post a w' := by
  obtain ⟨hpost, hstop⟩ := iff_returns.mp h
  exact iff_returns.mpr ⟨fun a w' hret => ⟨hret, hpost a w' hret⟩, hstop⟩

theorem always {p : World κ υ → Prop} :
    Meets (fun _ w' => p w') x w (fun _ w' => p w') ↔ p (outcome x w).2 := by
  unfold Meets
  rcases outcome x w with ⟨r, w'⟩
  cases r <;> rfl

theorem guarded {p : World κ υ → Prop} (ha : Meets (fun _ w' => p w') a w fun _ w' => p w') :
    Meets (fun _ w' => p w') (guarded a) w fun _ w' => p w' := by
  rw [always] at ha ⊢
  rw [outcome_guarded]
  split
  · next heq => rwa [heq] at ha
  · exact ha

theorem returns (h : Meets stop x w post) (hs : ∀ s w', ¬ stop s w') :
    ∃ a w', Returns x w a w' ∧ post a w' := by
  unfold Meets at h
  split at h
  · next a w' heq => exact ⟨a, w', heq, h⟩
  · exact absurd h (hs _ _)

theorem foldlM {f : β → γ → Act κ υ β} {inv : List γ → β → World κ υ → Prop} {xs : List γ}
    (step : ∀ x rest b w, inv (x :: rest) b w → Meets stop (f b x) w fun c w' => inv rest c w')
    (h : inv xs b w) : Meets stop (xs.foldlM f b) w fun c w' => inv [] c w' := by
  induction xs generalizing b w with
  | nil => exact h
  | cons x rest ih =>
    rw [List.foldlM_cons, bind_iff]
    exact (step x rest b w h).mono fun c w' hc => ih hc

theorem forM {f : γ → Act κ υ Unit} {inv : World κ υ → Prop}
    (step : ∀ x w, inv w → Meets stop (f x) w fun _ w' => inv w') (xs : List γ) (h : inv w) :
    Meets stop (xs.forM f) w fun _ w' => inv w' := by
  induction xs generalizing w with
  | nil => exact h
  | cons x rest ih =>
    rw [List.forM, bind_iff]
    exact (step x w h).mono fun _ w' hw => ih hw

theorem mapM {f : γ → Act κ υ β} {inv : World κ υ → Prop}
    (step : ∀ x w, inv w → Meets stop (f x) w fun _ w' => inv w') {xs : List γ} (h : inv w) :
    Meets stop (xs.mapM f) w fun bs w' => bs.length = xs.length ∧ inv w' := by
  induction xs generalizing w with
  | nil => exact ⟨rfl, h⟩
  | cons x rest ih =>
    simp only [List.mapM_cons, bind_iff, pure_iff]
    refine (step x w h).mono fun b w' hb => ?_
    refine (ih hb).mono fun bs w'' hbs => ?_
    exact ⟨by simp [hbs.1], hbs.2⟩

end Meets

end ReactiveMarkup.Reactive
