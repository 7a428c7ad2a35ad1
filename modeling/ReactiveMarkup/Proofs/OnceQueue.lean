import Mathlib.Logic.Relation
import ReactiveMarkup.Proofs.RuntimeTraces

/-! # Hooks that wait for a digest

A hook that is registered to run once waits at the root of its detector. Each digest of the root
ends with a service of the hooks that wait.
-/

namespace ReactiveMarkup.Reactive

open List

variable {κ υ α β : Type}

/-! ## The queue -/

inductive QueueStep (κ : Type) where
  | register (k : κ)
  | serve
  | call (k : κ)
  | served
  deriving DecidableEq, Repr

namespace QueueStep

def waiting (ks : List κ) : List (QueueStep κ) → List κ
  | [] => ks
  | .register k :: ts => waiting (ks ++ [k]) ts
  | .serve :: ts => waiting [] ts
  | .call _ :: ts => waiting ks ts
  | .served :: ts => waiting ks ts

/-- The hooks that a service calls before it ends, when `n` other services have begun in it and not
ended. -/
def calls : Nat → List (QueueStep κ) → List κ
  | _, [] => []
  | n, .register _ :: ts => calls n ts
  | n, .serve :: ts => calls (n + 1) ts
  | 0, .call k :: ts => k :: calls 0 ts
  | n + 1, .call _ :: ts => calls (n + 1) ts
  | 0, .served :: _ => []
  | n + 1, .served :: ts => calls n ts

def registered? : QueueStep κ → Option κ
  | .register k => some k
  | _ => none

def called? : QueueStep κ → Option κ
  | .call k => some k
  | _ => none

/-- Steps by which services call what they have taken, the last that began first. -/
inductive Fair : List κ → List (List κ) → List (QueueStep κ) → List κ → List (List κ) → Prop where
  | nil (ks : List κ) (taken : List (List κ)) : Fair ks taken [] ks taken
  | register : Fair (ks ++ [k]) taken ts ks' taken' → Fair ks taken (.register k :: ts) ks' taken'
  | serve : Fair [] (ks :: taken) ts ks' taken' → Fair ks taken (.serve :: ts) ks' taken'
  | call : Fair ks (rest :: taken) ts ks' taken' →
    Fair ks ((k :: rest) :: taken) (.call k :: ts) ks' taken'
  | served : Fair ks taken ts ks' taken' → Fair ks ([] :: taken) (.served :: ts) ks' taken'

namespace Fair

variable {ks ks' ks'' : List κ} {taken taken' taken'' : List (List κ)} {ts ts' : List (QueueStep κ)}

section

variable (h : Fair ks taken ts ks' taken')
include h

theorem append (h' : Fair ks' taken' ts' ks'' taken'') :
    Fair ks taken (ts ++ ts') ks'' taken'' := by
  induction h with
  | nil => exact h'
  | register _ ih => exact .register (ih h')
  | serve _ ih => exact .serve (ih h')
  | call _ ih => exact .call (ih h')
  | served _ ih => exact .served (ih h')

theorem waiting_eq : waiting ks ts = ks' := by
  induction h with
  | nil => rfl
  | register _ ih | serve _ ih | call _ ih | served _ ih => exact ih

theorem perm : (taken.flatten ++ ks ++ ts.filterMap registered?).Perm
      (ts.filterMap called? ++ taken'.flatten ++ ks') := by
  induction h with
  | nil => simp
  | @serve ks taken _ _ _ _ ih =>
    simp only [flatten_cons, append_nil] at ih
    simpa [filterMap_cons, registered?, called?] using
      (perm_append_comm.append_right _).trans ih
  | register _ ih | call _ ih | served _ ih =>
    simpa [filterMap_cons, registered?, called?] using ih

end

theorem after (h : Fair ks taken (ts ++ .serve :: ts') ks' taken') :
    ∃ taken'', Fair [] (waiting ks ts :: taken'') ts' ks' taken' := by
  induction ts generalizing ks taken with
  | nil =>
    cases h with
    | serve h => exact ⟨_, h⟩
  | cons t ts ih =>
    cases h with
    | register h | serve h | call h | served h => exact ih h

theorem calls_eq (inner : List (List κ)) (h : Fair ks (inner ++ own :: taken) ts ks' []) :
    calls inner.length ts = own := by
  generalize hall : inner ++ own :: taken = all at h
  generalize hend : ([] : List (List κ)) = last at h
  induction h generalizing inner own with
  | nil =>
    subst hend
    simp at hall
  | register _ ih => exact ih inner hall hend
  | @serve ks _ _ _ _ _ ih => exact ih (ks :: inner) (by rw [← hall, cons_append]) hend
  | call _ ih =>
    cases inner with
    | nil =>
      obtain ⟨rfl, rfl⟩ := List.cons.inj hall
      exact congrArg _ (ih [] rfl hend)
    | cons i inner =>
      obtain ⟨rfl, rfl⟩ := List.cons.inj hall
      exact ih (_ :: inner) rfl hend
  | served _ ih =>
    cases inner with
    | nil =>
      obtain ⟨rfl, -⟩ := List.cons.inj hall
      rfl
    | cons i inner => exact ih inner (List.cons.inj hall).2 hend

end Fair

end QueueStep

/-! ## Steps of computations -/

def oncesOf (w : World κ υ) (d : DetectorId) : List κ :=
  (w.detectors[d]?.map Detector.onces).getD []

/-- A computation with its result, or hooks that a service still has to call. -/
inductive Duty (κ υ : Type) : Type 1 where
  | act {α : Type} (x : Act κ υ α) (r : Except Stop α)
  | drain (ks : List κ)

variable (h : Host κ υ) (root : DetectorId) in
/-- `Deals h root j w ts w'`: on the way from `w` to `w'`, these are the steps of the queue of
`root`. -/
inductive Deals : Duty κ υ → World κ υ → List (QueueStep κ) → World κ υ → Prop where
  | quiet (w : World κ υ) : (∀ u, oncesOf (outcome x u).2 root = oncesOf u root) →
    Deals (.act x (outcome x w).1) w [] (outcome x w).2
  | bind : Deals (.act x (.ok a)) w ts u → Deals (.act (f a) r) u ts' w' →
    Deals (.act (x >>= f) r) w (ts ++ ts') w'
  | stop : Deals (.act x (.error e)) w ts w' → Deals (.act (x >>= f) (.error e)) w ts w'
  | guarded : Deals (.act x r) w ts w' → Deals (.act (guarded x) (forgive r)) w ts w'
  | register : w.detectors[d]? = some c → c.root = root → root < w.detectors.size →
    Deals (.act (once d k) (.ok ())) w [.register k] (outcome (once d k) w).2
  | elsewhere : (∀ c, w.detectors[d]? = some c → c.root ≠ root) →
    Deals (.act (once d k) (outcome (once d k) w).1) w [] (outcome (once d k) w).2
  | serve : w.detectors[root]? = some c → Deals (.drain c.onces) (w.served root) ts w' →
    Deals (.act (runOnces h root) (.ok ())) w (.serve :: (ts ++ [.served])) w'
  | drained (w : World κ υ) : Deals (.drain []) w [] w
  | call : Deals (.act (h.run k .plain) r) w ts u → forgive r = .ok () →
    Deals (.drain ks) u ts' w' → Deals (.drain (k :: ks)) w (.call k :: (ts ++ ts')) w'

def Duty.taken : Duty κ υ → List (List κ) → List (List κ) × List (List κ)
  | .act _ _, rest => (rest, rest)
  | .drain ks, rest => (ks :: rest, [] :: rest)

section Steps

variable {h : Host κ υ} {root : DetectorId} {w w' : World κ υ} {d : DetectorId}
  {f : Detector κ → Detector κ}

theorem oncesOf_eq (hc : w.detectors[d]? = some c) : oncesOf w d = c.onces := by
  rw [oncesOf, hc]
  rfl

theorem oncesOf_modify_self (hd : d < w.detectors.size) (g : List κ → List κ)
    (hf : ∀ c, (f c).onces = g c.onces) :
    oncesOf { w with detectors := w.detectors.modify d f } d = g (oncesOf w d) := by
  rw [oncesOf, Array.getElem?_modify, if_pos rfl, oncesOf, Array.getElem?_eq_getElem hd]
  exact hf _

theorem oncesOf_modify (hf : d = root → ∀ c, (f c).onces = c.onces) :
    oncesOf { w with detectors := w.detectors.modify d f } root = oncesOf w root := by
  rw [oncesOf, Array.getElem?_modify]
  split
  · next hd => cases hw : w.detectors[root]? <;> simp [oncesOf, hw, hf hd]
  · rfl

theorem outcome_once (hc : w.detectors[d]? = some c) (k : κ) :
    outcome (once d k) w = (.ok (), { w with
      detectors := w.detectors.modify c.root fun r => { r with onces := r.onces ++ [k] } }) := by
  rw [once, outcome_bind, outcome_find, hc]
  rfl

theorem Deals.fair (hd : Deals h root j w ts w') :
    ∀ rest,
      QueueStep.Fair (oncesOf w root) (j.taken rest).1 ts (oncesOf w' root) (j.taken rest).2 := by
  induction hd with
  | quiet w hx => exact fun rest => hx w ▸ .nil _ _
  | bind _ _ ih ih' => exact fun rest => (ih rest).append (ih' rest)
  | stop _ ih => exact ih
  | guarded _ ih => exact ih
  | register hc hr hroot =>
    intro rest
    rw [outcome_once hc, hr, oncesOf_modify_self hroot (· ++ [_]) fun _ => rfl]
    exact .register (.nil _ _)
  | @elsewhere d k w hd =>
    intro rest
    cases hc : w.detectors[d]? with
    | none =>
      rw [once, outcome_bind, outcome_find, hc]
      exact .nil _ _
    | some c =>
      rw [outcome_once hc, oncesOf_modify fun he => absurd he (hd c hc)]
      exact .nil _ _
  | @serve c ts w' w hc _ ih =>
    intro rest
    have hnone : oncesOf (w.served root) root = [] :=
      oncesOf_modify_self (Array.getElem?_eq_some_iff.mp hc).1 (fun _ => []) fun _ => rfl
    have hdrain := ih rest
    rw [hnone] at hdrain
    rw [oncesOf_eq hc]
    exact .serve (hdrain.append (.served (.nil _ _)))
  | drained w => exact fun rest => .nil _ _
  | call _ _ _ ih ih' => exact fun rest => .call ((ih _).append (ih' rest))

end Steps

/-! ## Computations of the runtime -/

def rootOf (w : World κ υ) (d : DetectorId) : Option DetectorId := w.detectors[d]?.map Detector.root

/-- A child has the root of its parent, and `root` is its own. -/
structure Kin (root : DetectorId) (w : World κ υ) : Prop where
  own : rootOf w root = some root
  inherited : ∀ d c, c ∈ childrenOf w d → rootOf w c = rootOf w d

/-- If it does not run out of steps, the computation deals with the queue of `root` by steps. -/
def Queued (h : Host κ υ) (root : DetectorId) {α : Type} (x : Act κ υ α) : Prop :=
  ∀ w, Kin root w → Kin root (outcome x w).2 ∧ ((outcome x w).1 = .error .exhausted ∨
    ∃ ts, Deals h root (.act x (outcome x w).1) w ts (outcome x w).2)

/-- All user code registers hooks as the runtime offers it. -/
structure Dutiful (h : Host κ υ) (root : DetectorId) : Prop where
  read : ∀ k, Queued h root (h.read k)
  key : ∀ k v n, Queued h root (h.key k v n)
  run : ∀ k o, Queued h root (h.run k o)
  buildItem : ∀ k d f n v, Queued h root (h.buildItem k d f n v)
  construct : ∀ k n o, Queued h root (h.construct k n o)
  options : ∀ k, Queued h root (h.options k)

section Runtime

variable {h : Host κ υ} {root : DetectorId} {w w' : World κ υ}

theorem Kin.known (hw : Kin root w) : root < w.detectors.size := by
  obtain ⟨c, hc, -⟩ := Option.map_eq_some_iff.mp hw.own
  exact (Array.getElem?_eq_some_iff.mp hc).1

theorem Kin.rootOf_eq (hw : Kin root w)
    (hd : Relation.ReflTransGen (fun c p => c ∈ childrenOf w p) d root) :
    rootOf w d = some root := by
  induction hd using Relation.ReflTransGen.head_induction_on with
  | refl => exact hw.own
  | head hc _ ih => rw [hw.inherited _ _ hc, ih]

theorem rootOf_modify (hf : ∀ c, (f c).root = c.root) :
    rootOf { w with detectors := w.detectors.modify d f } e = rootOf w e := by
  rw [rootOf, Array.getElem?_modify]
  split
  · cases hw : w.detectors[e]? <;> simp [rootOf, hw, hf]
  · rfl

theorem Kin.modify (hw : Kin root w) (hc : ∀ c, (f c).children.Sublist c.children)
    (hr : ∀ c, (f c).root = c.root) : Kin root { w with detectors := w.detectors.modify d f } where
  own := (rootOf_modify hr).trans hw.own
  inherited := fun e c hm => by
    rw [rootOf_modify hr, rootOf_modify hr]
    exact hw.inherited e c ((childrenOf_modify_sublist hc).subset hm)

theorem newChild_records (hret : Returns (newChild p) w c w') :
    oncesOf w' e = oncesOf w e ∧ rootOf w' e = if e = c then rootOf w p else rootOf w e := by
  obtain ⟨a, _, ha, rfl, rfl, rfl⟩ := newChild_inv hret
  refine ⟨(oncesOf_modify (by simp)).trans ?_, (rootOf_modify (by simp)).trans ?_⟩
  · by_cases he : e = w.detectors.size <;> simp [oncesOf, World.sprout, Array.getElem?_push, he]
  · by_cases he : e = w.detectors.size <;> simp [rootOf, World.sprout, Array.getElem?_push, he, ha]

theorem Kin.adopt (hw : Kin root w) (hret : Returns (newChild p) w c w') : Kin root w' := by
  obtain ⟨rfl, -, hchildren⟩ := newChild_eq hret
  have hroot : ∀ e, e ≠ w.detectors.size → rootOf w' e = rootOf w e := fun e he => by
    rw [(newChild_records hret).2, if_neg he]
  refine ⟨(hroot root hw.known.ne).trans hw.own, fun d c hm => ?_⟩
  have hold : c ∈ childrenOf w d → rootOf w' c = rootOf w' d := by
    intro hm
    have hd := known_of_mem_childrenOf hm
    have hc : c ≠ w.detectors.size := by
      rintro rfl
      have hlost := hw.inherited d _ hm
      simp [rootOf, hd] at hlost
    rw [hroot c hc, hroot d hd.ne, hw.inherited d c hm]
  by_cases hd : d = p
  · subst hd
    rw [hchildren, mem_append, mem_singleton] at hm
    rcases hm with hm | rfl
    · exact hold hm
    · rw [(newChild_records hret).2, (newChild_records hret).2, if_pos rfl, ite_self]
  · exact hold (newChild_childrenOf hret hd ▸ hm)

namespace Queued

theorem quiet (ho : ∀ u, oncesOf (outcome x u).2 root = oncesOf u root)
    (hk : ∀ u, Kin root u → Kin root (outcome x u).2) : Queued h root x :=
  fun w hw => ⟨hk w hw, .inr ⟨[], .quiet w ho⟩⟩

theorem unseen (hx : ∀ u, (outcome x u).2.detectors = u.detectors := by exact fun _ => rfl) :
    Queued h root x := by
  refine quiet (fun u => by rw [oncesOf, oncesOf, hx]) fun u hu => ⟨?_, fun d c hm => ?_⟩
  · rw [rootOf, hx]
    exact hu.own
  · rw [childrenOf, hx] at hm
    rw [rootOf, rootOf, hx]
    exact hu.inherited d c hm

theorem found : Queued h root (find store i) :=
  unseen fun u => by
    rw [outcome_find]
    cases (store u)[i]? <;> rfl

theorem update (hc : ∀ c, (f c).children.Sublist c.children)
    (hr : ∀ c, (f c).root = c.root := by exact fun _ => rfl)
    (ho : d = root → ∀ c, (f c).onces = c.onces := by exact fun _ _ => rfl) :
    Queued h root (updateDetector d f : Act κ υ Unit) :=
  quiet (fun _ => oncesOf_modify ho) fun _ hu => hu.modify hc hr

theorem bind (hx : Queued h root x) (hf : ∀ a, Queued h root (f a)) : Queued h root (x >>= f) := by
  intro w hw
  obtain ⟨hk, hd⟩ := hx w hw
  rw [outcome_bind]
  generalize outcome x w = p at hk hd
  obtain ⟨r, u⟩ := p
  cases r with
  | error e =>
    refine ⟨hk, hd.imp (congrArg _ ∘ Except.error.inj) ?_⟩
    rintro ⟨ts, ht⟩
    exact ⟨ts, .stop ht⟩
  | ok a =>
    obtain ⟨ts, ht⟩ := hd.resolve_left (by simp)
    refine ⟨(hf a u hk).1, (hf a u hk).2.imp_right ?_⟩
    rintro ⟨ts', ht'⟩
    exact ⟨ts ++ ts', .bind ht ht'⟩

theorem guarded (hx : Queued h root x) : Queued h root (guarded x) := by
  intro w hw
  obtain ⟨hk, hd⟩ := hx w hw
  rw [outcome_guarded_eq]
  refine ⟨hk, hd.imp (fun he => by rw [he]; rfl) ?_⟩
  rintro ⟨ts, ht⟩
  exact ⟨ts, .guarded ht⟩

theorem forM (hf : ∀ a, Queued h root (f a)) : ∀ l : List α, Queued h root (l.forM f)
  | [] => unseen fun _ => rfl
  | a :: l => (hf a).bind fun _ => forM hf l

theorem once : Queued h root (once d k) := by
  intro w hw
  cases hc : w.detectors[d]? with
  | none =>
    have hout : outcome (Reactive.once d k) w = (.error .failed, w) := by
      rw [Reactive.once, outcome_bind, outcome_find, hc]
    refine ⟨by rwa [hout], .inr ⟨[], .elsewhere fun c hc' => ?_⟩⟩
    rw [hc] at hc'
    cases hc'
  | some c =>
    have hout := outcome_once hc k
    refine ⟨by rw [hout]; exact hw.modify (fun _ => .refl _) fun _ => rfl, .inr ?_⟩
    by_cases hr : c.root = root
    · refine ⟨[.register k], ?_⟩
      rw [show (outcome (Reactive.once d k) w).1 = .ok () by rw [hout]]
      exact .register hc hr hw.known
    · refine ⟨[], .elsewhere fun c' hc' => ?_⟩
      rw [hc] at hc'
      cases hc'
      exact hr

theorem newChild (p : DetectorId) : Queued h root (newChild p) := by
  have hcases : ∀ u : World κ υ, (outcome (Reactive.newChild p) u).2 = u ∨
      ∃ c w', Returns (Reactive.newChild p) u c w' ∧ (outcome (Reactive.newChild p) u).2 = w' := by
    intro u
    by_cases hp : p < u.detectors.size
    · obtain ⟨c, w', hret⟩ := newChild_returns hp
      exact .inr ⟨c, w', hret, hret.world_eq⟩
    · left
      rw [Reactive.newChild, outcome_bind, outcome_find,
        Array.getElem?_eq_none (Nat.le_of_not_lt hp)]
  refine quiet (fun u => ?_) fun u hu => ?_
  · rcases hcases u with hsame | ⟨c, w', hret, hw'⟩
    · rw [hsame]
    · rw [hw', (newChild_records hret).1]
  · rcases hcases u with hsame | ⟨c, w', hret, hw'⟩
    · rwa [hsame]
    · rw [hw']
      exact hu.adopt hret

end Queued

namespace Dutiful

variable (hh : Dutiful h root)

include hh

theorem destroyTo : ∀ d, Queued h root (destroyTo h n d) := by
  induction n with
  | zero => exact fun d => .unseen
  | succ n ih =>
    intro d
    refine .bind (.update fun _ => .refl _) fun _ => Queued.found.bind fun _ =>
        .bind (.update fun _ => .refl _) fun _ =>
          .bind (Queued.forM (fun k => .guarded ?_) _) fun _ => Queued.found.bind fun _ =>
            .bind (.update fun _ => nil_sublist _) fun _ => Queued.forM ih _
    cases k with
    | hook k => exact hh.run k _
    | removeListener node l => exact .unseen
    | destroy j => exact ih j

theorem closed : Closed (Queued h root) h where
  pure := fun _ => .unseen
  stop := fun _ => .unseen
  bind := fun hx hf => hx.bind hf
  guarded := fun hx => hx.guarded
  look := fun _ _ => .unseen
  elsewhere := fun f _ hcore => .unseen fun w => (Prod.mk.inj (hcore w)).1
  amend := fun d f hc _ ho hr => .update (fun c => by rw [hc]) hr fun _ => ho
  newChild := .newChild
  removeChild := fun p _ => .update fun _ => filter_sublist
  destroy := fun d => .bind .unseen fun _ => hh.destroyTo d
  planRender := fun _ => .unseen
  __ := hh

theorem check (i : WatcherId) : Queued h root (check h i) := by
  have hP := hh.closed
  refine Queued.found.bind fun c => hP.readSource.bind fun v =>
    Queued.found.bind fun _ => ?_
  dsimp only
  split
  · refine .bind .unseen fun _ => .bind ?_ fun _ => hP.pure _
    exact hP.perform fun b _ => hP.awaitValue (.found) .unseen fun _ _ => .unseen
  · exact hP.pure _

theorem drain : ∀ w, Kin root w →
    let p := outcome (ks.forM fun k => Reactive.guarded (h.run k .plain)) w
    Kin root p.2 ∧ (p.1 = .error .exhausted ∨ p.1 = .ok () ∧
      ∃ ts, Deals h root (.drain ks) w ts p.2) := by
  induction ks with
  | nil => exact fun w hw => ⟨hw, .inr ⟨rfl, [], .drained w⟩⟩
  | cons k ks ih =>
    intro w hw
    obtain ⟨hk, hd⟩ := hh.run k .plain w hw
    rw [outcome_forM_cons, outcome_guarded_eq]
    generalize outcome (h.run k .plain) w = p at hk hd
    obtain ⟨r, u⟩ := p
    by_cases hr : r = .error .exhausted
    · subst hr
      exact ⟨hk, .inl rfl⟩
    · obtain ⟨ts, ht⟩ := hd.resolve_left hr
      have hok : forgive r = .ok () := by
        cases r with
        | ok _ => rfl
        | error e =>
          cases e with
          | failed => rfl
          | exhausted => exact absurd rfl hr
      simp only [hok]
      refine ⟨(ih u hk).1, (ih u hk).2.imp_right ?_⟩
      rintro ⟨hend, ts', ht'⟩
      exact ⟨hend, _, .call ht hok ht'⟩

theorem runOnces (d : DetectorId) : Queued h root (runOnces h d) := by
  by_cases hd : d = root
  · subst hd
    intro w hw
    obtain ⟨c, hc, -⟩ := Option.map_eq_some_iff.mp hw.own
    have hserved : Kin d (w.served d) := hw.modify (fun _ => .refl _) fun _ => rfl
    obtain ⟨hk, hd⟩ := hh.drain _ hserved
    have hrun : outcome (Reactive.runOnces h d) w =
        outcome (c.onces.forM fun k => Reactive.guarded (h.run k .plain)) (w.served d) := by
      rw [Reactive.runOnces, outcome_bind, outcome_find, hc]
      rfl
    rw [hrun]
    refine ⟨hk, hd.imp_right ?_⟩
    rintro ⟨hok, ts, ht⟩
    rw [hok]
    exact ⟨_, .serve hc ht⟩
  · exact Queued.found.bind fun _ =>
      .bind (.update (fun _ => .refl _) (fun _ => rfl) fun he => absurd he hd) fun _ =>
        Queued.forM (fun k => (hh.run k _).guarded) _

theorem play (moves : List (Move κ)) : Queued h root (play h moves) :=
  Queued.forM (fun _ => .guarded (hh.closed.move (hh.closed.checkFrom hh.check) hh.runOnces
    (fun _ _ hf => .unseen fun w => (hf w).1))) moves

end Dutiful

end Runtime

/-- A digest of the root makes its passes, finishes and then serves the hooks that wait; a hook that
is registered in the tree waits behind those that wait already. Whatever is done, a run that does not
run out of steps deals with the queue by steps, and in all such steps each service calls the hooks
that waited when it began, in their order and each of them once. -/
theorem once_hooks_served_in_order {h : Host κ υ} {root : DetectorId} (hh : Dutiful h root)
    {w : World κ υ} (hw : Kin root w) (moves : List (Move κ)) :
    (∀ finish, digest h root finish = do
      let report ← passesFrom h root maxPasses 0 none
      finish
      runOnces h root
      return report.passes) ∧
    (∀ d k, Relation.ReflTransGen (fun c p => c ∈ childrenOf w p) d root →
      Returns (once d k) w () { w with
        detectors := w.detectors.modify root fun r => { r with onces := r.onces ++ [k] } }) ∧
    ∀ r w', outcome (play h moves) w = (r, w') → Kin root w' ∧
      (r = .error .exhausted ∨ ∃ ts, Deals h root (.act (play h moves) r) w ts w') ∧
      ∀ ts, Deals h root (.act (play h moves) r) w ts w' →
        oncesOf w' root = QueueStep.waiting (oncesOf w root) ts ∧
        (∀ before after, ts = before ++ .serve :: after →
          QueueStep.calls 0 after = QueueStep.waiting (oncesOf w root) before) ∧
        (oncesOf w root ++ ts.filterMap QueueStep.registered?).Perm
          (ts.filterMap QueueStep.called? ++ oncesOf w' root) := by
  refine ⟨digest_eq h root, fun d k hd => ?_, fun r w' hrun => ?_⟩
  · obtain ⟨c, hc, hr⟩ := Option.map_eq_some_iff.mp (hw.rootOf_eq hd)
    rw [Returns, outcome_once hc, hr]
  · obtain ⟨hk, hd⟩ := hh.play moves w hw
    rw [hrun] at hk hd
    refine ⟨hk, hd, fun ts ht => ?_⟩
    have hfair := ht.fair []
    refine ⟨hfair.waiting_eq.symm, ?_, by simpa [Duty.taken] using hfair.perm⟩
    rintro before after rfl
    obtain ⟨taken, hafter⟩ := hfair.after
    exact hafter.calls_eq []

def appointments : Nat → List (DetectorId × Nat)
  | 0 => [(1, 1), (0, 2)]
  | 1 => [(0, 3)]
  | 4 => [(1, 5)]
  | _ => []

/-- A hook registers others, adds itself to the user's list, and fails if it is the hook `1`. -/
def fulfil (k : Nat) : Act Nat (List Nat) Unit := do
  (appointments k).forM fun a => once a.1 a.2
  modify fun w => { w with user := w.user ++ [k] }
  if k = 1 then throw .failed

def recalling : Host Nat (List Nat) := { refusing with run := fun k _ => fulfil k }

def couple : World Nat (List Nat) where
  user := []
  detectors := #[{ root := 0, children := [1] }, { root := 0 }]

theorem couple_kin : Kin 0 couple where
  own := rfl
  inherited := fun d c hm => by
    have hd : d < 2 := known_of_mem_childrenOf hm
    rcases d with _ | _ | d
    · rw [mem_singleton.mp hm]
      rfl
    · cases hm
    · exact absurd hd (by simp)

theorem recalling_dutiful : Dutiful recalling 0 where
  read := fun _ => .unseen
  key := fun _ _ _ => .unseen
  run := fun k _ => by
    have hbook : Queued recalling 0 ((appointments k).forM fun a => once a.1 a.2) := by
      refine .forM (fun a => ?_) _
      exact .once
    have hnote : Queued recalling 0 (modify fun w => { w with user := w.user ++ [k] }) :=
      .unseen
    refine hbook.bind fun _ => hnote.bind fun _ => ?_
    split <;> exact .unseen
  buildItem := fun _ _ _ _ _ => .unseen
  construct := fun _ _ _ => .unseen
  options := fun _ => .unseen

def visits : List (Move Nat) := [.user 0 .plain, .digest 0 (some 4), .digest 0 none]

/-- What the first digest finishes with, the hook `4`, comes before all hooks that wait. The hook `1`
fails, and `3`, which it registers, is called by the second digest. -/
theorem once_hooks_served_in_order_couple :
    ∃ r w', outcome (play recalling visits) couple = (r, w') ∧ w'.user = [0, 4, 1, 2, 5, 3] ∧
      (∃ ts, Deals recalling 0 (.act (play recalling visits) r) couple ts w') ∧
        ∀ ts, Deals recalling 0 (.act (play recalling visits) r) couple ts w' →
          ∀ before after, ts = before ++ .serve :: after →
            QueueStep.calls 0 after = QueueStep.waiting [] before := by
  have hok : (outcome (play recalling visits) couple).1.isOk = true := by decide +kernel
  obtain ⟨-, -, hserved⟩ := once_hooks_served_in_order recalling_dutiful couple_kin visits
  obtain ⟨-, hdeals, hall⟩ := hserved _ _ (Prod.eta _).symm
  refine ⟨_, _, (Prod.eta _).symm, by decide +kernel, hdeals.resolve_left fun hex => ?_,
    fun ts ht => (hall ts ht).2.1⟩
  rw [hex] at hok
  cases hok

end ReactiveMarkup.Reactive
