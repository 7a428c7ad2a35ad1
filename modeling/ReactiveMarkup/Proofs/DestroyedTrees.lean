import Mathlib.Logic.Relation
import ReactiveMarkup.Proofs.RuntimeTraces

/-! # Destroying a tree

A detector that is destroyed takes its whole tree with it.
-/

namespace ReactiveMarkup.Reactive

open List

variable {κ υ : Type}

/-! ## The order -/

def IsChild (w : World κ υ) (c p : DetectorId) : Prop := c ∈ childrenOf w p

/-- The trees below some detectors, one after the other, each detector before its children. -/
inductive TreeOrder (w : World κ υ) : List DetectorId → List DetectorId → Prop where
  | nil : TreeOrder w [] []
  | cons {d ds rest} (below) : d < w.detectors.size → TreeOrder w (childrenOf w d) below →
    TreeOrder w ds rest → TreeOrder w (d :: ds) (d :: (below ++ rest))

section Order

variable {w : World κ υ} {ds order : List DetectorId}

theorem exists_treeOrder (hw : Hierarchy w) (n : Nat) (ds : List Nat)
    (hds : ∀ d ∈ ds, d < w.detectors.size ∧ w.detectors.size ≤ n + d) :
    ∃ order, TreeOrder w ds order := by
  induction n generalizing ds with
  | zero =>
    cases ds with
    | nil => exact ⟨[], .nil⟩
    | cons d ds =>
      have := hds d mem_cons_self
      omega
  | succ n ih =>
    induction ds with
    | nil => exact ⟨[], .nil⟩
    | cons d ds ihs =>
      obtain ⟨hd, hn⟩ := hds d mem_cons_self
      obtain ⟨below, hbelow⟩ := ih (childrenOf w d) fun c hc => by
        have hnewer : d < c ∧ c < w.detectors.size := hw.newer d c hc
        omega
      obtain ⟨rest, hrest⟩ := ihs fun e he => hds e (.tail d he)
      exact ⟨_, .cons below hd hbelow hrest⟩

theorem TreeOrder.unique (ho : TreeOrder w ds order) (ho' : TreeOrder w ds order') :
    order = order' := by
  induction ho generalizing order' with
  | nil => cases ho'; rfl
  | cons _ _ _ _ ih ih' =>
    cases ho' with
    | cons _ _ hb hr => rw [ih hb, ih' hr]

theorem le_of_under (hw : Hierarchy w) (h : Relation.ReflTransGen (IsChild w) x d) : d ≤ x := by
  induction h with
  | refl => exact Nat.le_refl x
  | tail _ hc ih => exact ((hw.newer _ _ hc).1.le).trans ih

theorem TreeOrder.under (ho : TreeOrder w ds order) :
    ∀ x ∈ order, ∃ d ∈ ds, Relation.ReflTransGen (IsChild w) x d := by
  induction ho with
  | nil => simp
  | @cons d ds rest below _ _ _ ih ih' =>
    intro x hx
    rcases mem_cons.mp hx with rfl | hx
    · exact ⟨x, mem_cons_self, .refl⟩
    rcases mem_append.mp hx with hx | hx
    · obtain ⟨c, hc, hxc⟩ := ih x hx
      exact ⟨d, mem_cons_self, hxc.tail hc⟩
    · obtain ⟨e, he, hxe⟩ := ih' x hx
      exact ⟨e, .tail d he, hxe⟩

theorem TreeOrder.nodup (hw : Hierarchy w) (ho : TreeOrder w ds order) (hds : ds.Nodup)
    (hanti : ∀ a ∈ ds, ∀ b ∈ ds, Relation.ReflTransGen (IsChild w) a b → a = b) :
    order.Nodup := by
  induction ho with
  | nil => exact .nil
  | @cons d ds rest below hd hbelow hrest ih ih' =>
    obtain ⟨hnd, hds⟩ := nodup_cons.mp hds
    have hunique : Relator.RightUnique (IsChild w) := fun c p q hp hq => hw.parent p q c hp hq
    have hne : ∀ e ∈ ds, ¬ Relation.ReflTransGen (IsChild w) d e ∧
        ¬ Relation.ReflTransGen (IsChild w) e d := by
      refine fun e he => ⟨fun h => hnd ?_, fun h => hnd ?_⟩
      · rwa [hanti d mem_cons_self e (.tail d he) h]
      · rwa [← hanti e (.tail d he) d mem_cons_self h]
    have hout : ∀ x ∈ below, ∃ c ∈ childrenOf w d, Relation.ReflTransGen (IsChild w) x c :=
      hbelow.under
    refine nodup_cons.mpr ⟨fun hm => ?_, nodup_append.mpr ⟨ih (hw.once d) ?_, ih' hds ?_, ?_⟩⟩
    · rcases mem_append.mp hm with hm | hm
      · obtain ⟨c, hc, hdc⟩ := hout d hm
        exact absurd (le_of_under hw hdc) (Nat.not_le.mpr (hw.newer d c hc).1)
      · obtain ⟨e, he, hde⟩ := hrest.under d hm
        exact (hne e he).1 hde
    · intro a ha b hb hab
      rcases hab.cases_head with rfl | ⟨p, hp, hpb⟩
      · rfl
      · obtain rfl := hunique hp ha
        exact absurd (le_of_under hw hpb) (Nat.not_le.mpr (hw.newer p b hb).1)
    · exact fun a ha b hb => hanti a (.tail d ha) b (.tail d hb)
    · rintro x hx y hy rfl
      obtain ⟨c, hc, hxc⟩ := hout x hx
      obtain ⟨e, he, hxe⟩ := hrest.under x hy
      rcases (hxc.tail hc).total_of_right_unique hunique hxe with h | h
      · exact (hne e he).1 h
      · exact (hne e he).2 h

end Order

/-! ## Runs of cleanups -/

def cleanupsOf (w : World κ υ) (d : DetectorId) : List (Cleanup κ) :=
  (w.detectors[d]?.map Detector.cleanups).getD []

/-- The worlds differ in the records of some detectors at most. -/
structure SameBut (own : List DetectorId) (u v : World κ υ) : Prop where
  detectors : ∀ x, x ∉ own → v.detectors[x]? = u.detectors[x]?
  rest : { v with detectors := u.detectors } = u

variable (h : Host κ υ) (own : List DetectorId) in
/-- Cleanups run one after the other, each to its end, be it a failure. Nothing else is done but to
keep the records of the detectors `own`. -/
inductive CleanedUp : World κ υ → List (Cleanup κ) → World κ υ → Prop where
  | done : SameBut own u v → CleanedUp u [] v
  | next : SameBut own u v → outcome (cleanUp h n c) v = (r, v') → r ≠ .error .exhausted →
    CleanedUp v' cs w' → CleanedUp u (c :: cs) w'

def Detector.Spent (e : Detector κ) : Prop :=
  e.destroyed = true ∧ e.watchers = [] ∧ e.preludes = [] ∧ e.cleanups = [] ∧ e.children = []

/-- In the worlds that `inv` allows, a cleanup that has the slack comes to an end, keeps to these
worlds and leaves some detectors as they are. -/
def Harmless (h : Host κ υ) (inv : World κ υ → Prop) (own : List DetectorId) (c : Cleanup κ) : Prop :=
  ∀ n u, slack ≤ n → inv u → (outcome (cleanUp h n c) u).1 ≠ .error .exhausted ∧
    inv (outcome (cleanUp h n c) u).2 ∧
    ∀ x ∈ own, (outcome (cleanUp h n c) u).2.detectors[x]? = u.detectors[x]?

section Runs

variable {h : Host κ υ} {inv : World κ υ → Prop} {own : List DetectorId} {u v w w' : World κ υ}
  {cs cs' : List (Cleanup κ)} {d : DetectorId} {e : Detector κ} {n : Nat}

theorem SameBut.refl : SameBut own u u := ⟨fun _ _ => rfl, rfl⟩

theorem SameBut.trans (h₁ : SameBut own u v) (h₂ : SameBut own v w) : SameBut own u w :=
  ⟨fun x hx => (h₂.detectors x hx).trans (h₁.detectors x hx), by
    rw [← h₁.rest, ← h₂.rest]⟩

theorem SameBut.modify (hd : d ∈ own) :
    SameBut own u { u with detectors := u.detectors.modify d f } :=
  ⟨fun x hx => by
    have hne : d ≠ x := fun he => hx (he ▸ hd)
    rw [Array.getElem?_modify, if_neg hne], rfl⟩

theorem CleanedUp.after (ha : SameBut own u v) (hr : CleanedUp h own v cs w) :
    CleanedUp h own u cs w := by
  cases hr with
  | done ha' => exact .done (ha.trans ha')
  | next ha' hc hs hr => exact .next (ha.trans ha') hc hs hr

theorem CleanedUp.append (hr : CleanedUp h own u cs v) (hr' : CleanedUp h own v cs' w) :
    CleanedUp h own u (cs ++ cs') w := by
  induction hr with
  | done ha => exact hr'.after ha
  | next ha hc hs _ ih => exact .next ha hc hs (ih hr')

theorem cleanedUp_forM (hn : slack ≤ n) (ht : ∀ c ∈ cs, Harmless h inv own c) (hu : inv u) :
    ∃ v, outcome (cs.forM fun c => guarded (cleanUp h n c)) u = (.ok (), v) ∧ inv v ∧
      CleanedUp h own u cs v ∧ ∀ x ∈ own, v.detectors[x]? = u.detectors[x]? := by
  induction cs generalizing u with
  | nil => exact ⟨u, rfl, hu, .done (.refl), fun _ _ => rfl⟩
  | cons c cs ih =>
    obtain ⟨hs, hinv, hkeep⟩ := ht c mem_cons_self n u hn hu
    obtain ⟨v, hv, hvi, hrun, hsame⟩ := ih (fun c' hc' => ht c' (.tail c hc')) hinv
    refine ⟨v, ?_, hvi, .next (.refl) rfl hs hrun, fun x hx => (hsame x hx).trans (hkeep x hx)⟩
    rw [outcome_forM_cons, outcome_guarded_eq]
    generalize outcome (cleanUp h n c) u = o at hs hv
    obtain ⟨r, v'⟩ := o
    cases r with
    | ok _ => exact hv
    | error e =>
      cases e with
      | failed => exact hv
      | exhausted => exact absurd rfl hs

/-- What is true after the detectors `order` have been destroyed. -/
structure Gone (h : Host κ υ) (inv : World κ υ → Prop) (own order : List DetectorId)
    (cs : List (Cleanup κ)) (u u' : World κ υ) : Prop where
  inv : inv u'
  run : CleanedUp h own u cs u'
  spent : ∀ x ∈ order, ∃ e, u'.detectors[x]? = some e ∧ e.Spent
  others : ∀ x ∈ own, x ∉ order → u'.detectors[x]? = u.detectors[x]?

theorem getElem?_modify_self (hd : w.detectors[d]? = some e) :
    (w.detectors.modify d f)[d]? = some (f e) := by
  rw [Array.getElem?_modify, if_pos rfl, hd]
  rfl

theorem getElem?_modify_ne (hx : x ≠ d) : (w.detectors.modify d f)[x]? = w.detectors[x]? := by
  rw [Array.getElem?_modify, if_neg (Ne.symm hx)]

theorem Gone.append (hg : Gone h inv own below cs u v) (hg' : Gone h inv own rest cs' v w)
    (hsub : below ⊆ own) : Gone h inv own (below ++ rest) (cs ++ cs') u w where
  inv := hg'.inv
  run := hg.run.append hg'.run
  spent := fun x hx => by
    by_cases hxr : x ∈ rest
    · exact hg'.spent x hxr
    · have hxb := (mem_append.mp hx).resolve_right hxr
      rw [hg'.others x (hsub hxb) hxr]
      exact hg.spent x hxb
  others := fun x hx hout => by
    obtain ⟨hb, hr⟩ := not_or.mp (mem_append.not.mp hout)
    rw [hg'.others x hx hr, hg.others x hx hb]

/-- A detector goes, if its children do so in any world that differs from this one in `d` or outside
`own`. -/
theorem destroyTo_gone (hkeep : ∀ u, inv u → ∀ x ∈ own, inv (u.strike x) ∧ inv (u.orphan x))
    (hd : u.detectors[d]? = some e) (hin : d ∈ own) (hout : d ∉ below) (hn : slack ≤ n)
    (ht : ∀ c ∈ e.cleanups, Harmless h inv own c) (hu : inv u)
    (hchildren : ∀ v, inv v → (∀ x ∈ own, x ≠ d → v.detectors[x]? = u.detectors[x]?) →
      ∃ v', outcome (e.children.forM (destroyTo h n)) v = (.ok (), v') ∧
        Gone h inv own below cs v v') :
    ∃ u', outcome (destroyTo h (n + 1) d) u = (.ok (), u') ∧
      Gone h inv own (d :: below) (e.cleanups ++ cs) u u' := by
  obtain ⟨v, hv, hvi, hrun, hkept⟩ := cleanedUp_forM hn ht (hkeep u hu d hin).1
  have hvd : v.detectors[d]? = some { e with
      destroyed := true, watchers := [], preludes := [], cleanups := [] } :=
    (hkept d hin).trans (getElem?_modify_self hd)
  have hothers : ∀ x ∈ own, x ≠ d → (v.orphan d).detectors[x]? = u.detectors[x]? := by
    intro x hx hne
    rw [World.orphan, getElem?_modify_ne hne, hkept x hx, World.strike, getElem?_modify_ne hne]
  obtain ⟨u', hu', hgone⟩ := hchildren (v.orphan d) (hkeep v hvi d hin).2 hothers
  refine ⟨u', ?_, hgone.inv, ?_, ?_, ?_⟩
  · rw [outcome_destroyTo hd, hv]
    simp only [hvd, childrenOf_eq hvd, hu']
  · exact (hrun.after (.modify hin)).append (hgone.run.after (.modify hin))
  · refine forall_mem_cons.mpr ⟨?_, hgone.spent⟩
    rw [hgone.others d hin hout]
    exact ⟨_, getElem?_modify_self hvd, rfl, rfl, rfl, rfl, rfl⟩
  · intro x hx hnone
    obtain ⟨hne, hnb⟩ := not_or.mp (mem_cons.not.mp hnone)
    rw [hgone.others x hx hnb, hothers x hx hne]

theorem TreeOrder.gone (ho : TreeOrder w ds order) (hw : Hierarchy w)
    (hkeep : ∀ u, inv u → ∀ x ∈ own, inv (u.strike x) ∧ inv (u.orphan x))
    (hsub : order ⊆ own) (hnd : order.Nodup)
    (ht : ∀ x ∈ order, ∀ c ∈ cleanupsOf w x, Harmless h inv own c) :
    ∀ n u, (∀ d ∈ ds, w.detectors.size + slack ≤ n + d) → inv u →
      (∀ x ∈ order, u.detectors[x]? = w.detectors[x]?) →
      ∃ u', outcome (ds.forM (destroyTo h n)) u = (.ok (), u') ∧
        Gone h inv own order (order.flatMap (cleanupsOf w)) u u' := by
  induction ho with
  | nil => exact fun n u _ hu _ => ⟨u, rfl, hu, .done (.refl), by simp, fun _ _ _ => rfl⟩
  | @cons d ds rest below hd hbelow hrest ih ih' =>
    intro n u hn hu hsame
    obtain ⟨hdo, hno⟩ := nodup_cons.mp hnd
    obtain ⟨hnb, hnr, hdis⟩ := nodup_append.mp hno
    have hfuel : w.detectors.size + slack ≤ n + d := hn d mem_cons_self
    obtain ⟨m, rfl⟩ : ∃ m, n = m + 1 := ⟨n - 1, by
      omega⟩
    obtain ⟨e, he⟩ : ∃ e, w.detectors[d]? = some e := ⟨_, Array.getElem?_eq_getElem hd⟩
    have hcleanups : cleanupsOf w d = e.cleanups := by rw [cleanupsOf, he]; rfl
    have hfirst : ∃ u₁, outcome (destroyTo h (m + 1) d) u = (.ok (), u₁) ∧
        Gone h inv own (d :: below) (e.cleanups ++ below.flatMap (cleanupsOf w)) u u₁ := by
      refine destroyTo_gone hkeep ((hsame d mem_cons_self).trans he) (hsub mem_cons_self)
        (fun hm => hdo (mem_append_left rest hm)) (by omega)
        (fun c hc => ht d mem_cons_self c (hcleanups ▸ hc)) hu fun v hv hkept => ?_
      rw [← childrenOf_eq he]
      refine ih (fun x hx => hsub (by simp [hx])) hnb (fun x hx => ht x (by simp [hx])) m v
        (fun c hc => ?_) hv fun x hx => ?_
      · have hnewer : d < c := (hw.newer d c hc).1
        omega
      · rw [hkept x (hsub (by simp [hx])) fun hxd => hdo (by simp [← hxd, hx])]
        exact hsame x (by simp [hx])
    obtain ⟨u₁, hu₁, hgone⟩ := hfirst
    have hsame' : ∀ x ∈ rest, u₁.detectors[x]? = w.detectors[x]? := by
      intro x hx
      have hout : x ∉ d :: below := fun hm => by
        rcases mem_cons.mp hm with rfl | hm
        · exact hdo (by simp [hx])
        · exact hdis x hm x hx rfl
      rw [hgone.others x (hsub (by simp [hx])) hout]
      exact hsame x (by simp [hx])
    obtain ⟨u₂, hu₂, hgone'⟩ := ih' (fun x hx => hsub (by simp [hx])) hnr
      (fun x hx => ht x (by simp [hx])) (m + 1) u₁ (fun c hc => hn c (.tail d hc))
      hgone.inv hsame'
    refine ⟨u₂, ?_, ?_⟩
    · rw [outcome_forM_cons, hu₁]
      exact hu₂
    · rw [flatMap_cons, flatMap_append, hcleanups, ← append_assoc]
      exact hgone.append hgone' fun x hx => hsub (mem_append_left rest hx)

theorem modify_fixed {a : Array α} {x : α} {f : α → α} (hx : a[i]? = some x)
    (hf : f x = x) : a.modify i f = a := by
  apply Array.ext_getElem?
  intro j
  rw [Array.getElem?_modify]
  split
  · next hj => rw [← hj, hx, Option.map_some, hf]
  · rfl

theorem Detector.Spent.returns_destroy (he : e.Spent) (hd : v.detectors[d]? = some e) :
    Returns (destroy h d) v () v := by
  obtain ⟨hdestroyed, hwatchers, hpreludes, hcleanups, hchildren⟩ := he
  have hstrike : v.strike d = v := by
    rw [World.strike, modify_fixed hd (by rw [← hdestroyed, ← hwatchers, ← hpreludes, ← hcleanups])]
  have horphan : v.orphan d = v := by
    rw [World.orphan, modify_fixed hd (by rw [← hchildren])]
  obtain ⟨n, hn⟩ := exists_slack v.detectors.size
  have hrun : outcome (destroyTo h (n + 1 + 1) d) v = (.ok (), v) := by
    have hnone : outcome ([].forM fun k => guarded (cleanUp h (n + 1) k)) v = (.ok (), v) := rfl
    rw [outcome_destroyTo hd, hcleanups, hstrike, hnone]
    simp only [hd, childrenOf_eq hd, hchildren, horphan]
    rfl
  rw [destroy, returns_bind]
  exact ⟨v, v, rfl, hn ▸ hrun⟩

end Runs

/-- Cleanups that leave the detectors of a tree as they are run once each, in the order of the tree,
to whatever end they come. Then nothing is left to do for any detector of the tree, and to destroy
it again does nothing. -/
theorem destroy_runs_cleanups_once (h : Host κ υ) (w : World κ υ) (hw : Hierarchy w)
    (d : DetectorId) (hd : d < w.detectors.size) :
    ∃ order, TreeOrder w [d] order ∧ order.Nodup ∧ ∀ inv : World κ υ → Prop, inv w →
      (∀ u, inv u → ∀ x ∈ order, inv (u.strike x) ∧ inv (u.orphan x)) →
      (∀ x ∈ order, ∀ c ∈ cleanupsOf w x, Harmless h inv order c) →
      ∃ w', Returns (destroy h d) w () w' ∧
        CleanedUp h order w (order.flatMap (cleanupsOf w)) w' ∧
        ∀ x ∈ order, ∃ e, w'.detectors[x]? = some e ∧ e.Spent ∧
          ∀ v, v.detectors[x]? = some e → Returns (destroy h x) v () v := by
  obtain ⟨order, ho⟩ := exists_treeOrder hw w.detectors.size [d] (by simpa using hd)
  have hnd := ho.nodup hw (List.nodup_singleton d) (by simp)
  refine ⟨order, ho, hnd, fun inv hinv hkeep ht => ?_⟩
  obtain ⟨w', hw', hgone⟩ := ho.gone hw hkeep (List.Subset.refl order) hnd ht
    (w.detectors.size + slack) w (by simp) hinv fun _ _ => rfl
  refine ⟨w', ?_, hgone.run, fun x hx => ?_⟩
  · rw [outcome_forM_cons] at hw'
    rw [destroy, returns_bind]
    refine ⟨w, w, rfl, ?_⟩
    rw [Returns]
    generalize outcome (destroyTo h (w.detectors.size + slack) d) w = o at hw'
    obtain ⟨r, u⟩ := o
    cases r with
    | error e => cases hw'
    | ok _ => exact hw'
  · obtain ⟨e, he, hspent⟩ := hgone.spent x hx
    exact ⟨e, he, hspent, fun v hv => hspent.returns_destroy hv⟩

/-- The hook `0` fails, any other adds its number to the user's list; the hook `1` takes the detector
`1` from the children of `0` as well. -/
def ringing : Host Nat (List Nat) :=
  { refusing with
    run := fun k _ => do
      if k = 0 then throw .failed
      modify fun w => { w with user := w.user ++ [k] }
      if k = 1 then removeChild 0 1 }

def lineage (first : Nat) : World Nat (List Nat) where
  user := []
  detectors := #[{ root := 0, children := [1, 2], cleanups := [.hook first, .hook 3] },
    { root := 0, children := [3], cleanups := [.hook 4] }, { root := 0, cleanups := [.hook 5] },
    { root := 0, cleanups := [.hook 0, .hook 6] }]

theorem lineage_order : TreeOrder (lineage 0) [0] [0, 1, 3, 2] := by
  have hleaf : ∀ d, d < (lineage 0).detectors.size → childrenOf (lineage 0) d = [] →
      TreeOrder (lineage 0) [d] [d] := fun d hd hc =>
    .cons [] hd (by rw [hc]; exact .nil) .nil
  have hfirst : TreeOrder (lineage 0) [1, 2] [1, 3, 2] :=
    .cons [3] (by decide) (hleaf 3 (by decide) rfl) (hleaf 2 (by decide) rfl)
  exact .cons [1, 3, 2] (by decide) hfirst .nil

theorem destroy_runs_cleanups_once_lineage :
    ∃ w', Returns (destroy ringing 0) (lineage 0) () w' ∧ w'.user = [3, 4, 6, 5] ∧
      CleanedUp ringing [0, 1, 3, 2] (lineage 0)
        [.hook 0, .hook 3, .hook 4, .hook 0, .hook 6, .hook 5] w' ∧
      ∀ x ∈ [0, 1, 3, 2], ∃ e, w'.detectors[x]? = some e ∧ e.Spent ∧
        ∀ v, v.detectors[x]? = some e → Returns (destroy ringing x) v () v := by
  have hsound : Sound (lineage 0) := by decide
  have htame : ∀ k ∈ [0, 3, 4, 5, 6],
      Harmless ringing (fun _ => True) [0, 1, 3, 2] (.hook k) := by
    intro k hk n u _ _
    simp only [List.mem_cons, List.not_mem_nil, or_false] at hk
    rcases hk with rfl | rfl | rfl | rfl | rfl <;>
      exact ⟨fun he => (by cases he), trivial, fun _ _ => rfl⟩
  obtain ⟨order, ho, -, hrun⟩ :=
    destroy_runs_cleanups_once ringing (lineage 0) hsound.toHierarchy 0 (by decide)
  obtain rfl := ho.unique lineage_order
  obtain ⟨w', hw', hclean, hspent⟩ := hrun (fun _ => True) trivial (fun _ _ _ _ => ⟨trivial, trivial⟩)
    (by simp [cleanupsOf, lineage, htame 0, htame 3, htame 4, htame 5, htame 6])
  have hring : ∃ w', Returns (destroy ringing 0) (lineage 0) () w' ∧ w'.user = [3, 4, 6, 5] :=
    ⟨_, rfl, rfl⟩
  obtain ⟨u, hu, huser⟩ := hring
  obtain ⟨-, rfl⟩ := hw'.unique hu
  exact ⟨w', hw', huser, hclean, hspent⟩

/-- A cleanup may take away a child that was still to be destroyed. The cleanups of that child do not
run, and it is not destroyed. -/
theorem destroy_misses_released_child :
    ∃ w', Returns (destroy ringing 0) (lineage 1) () w' ∧ w'.user = [1, 3, 5] ∧
      ∃ e, w'.detectors[1]? = some e ∧ e.destroyed = false :=
  ⟨_, rfl, rfl, _, rfl, rfl⟩

end ReactiveMarkup.Reactive
