import ReactiveMarkup.Style.Scope

/-! # Scoping a sheet

Scoping a sheet scopes its selectors one after the other, in the order in which they are met, and
nothing else of it touches the scope.
-/

namespace ReactiveMarkup.Style

/-! ## Runs of scoping -/

section Runs

variable {α β : Type} {s s' : Scope}

/-- `x` succeeds with `a` and goes from `s` to `s'`. -/
def Runs (x : Scoping α) (s : Scope) (a : α) (s' : Scope) : Prop := x.run s = .ok (a, s')

theorem runs_bind : Runs (x >>= f) s b s' ↔ ∃ a u, Runs x s a u ∧ Runs (f a) u b s' := by
  unfold Runs
  rw [StateT.run_bind]
  cases x.run s with
  | error e => exact ⟨nofun, fun ⟨_, _, h, _⟩ => nomatch h⟩
  | ok p =>
    constructor
    · intro h
      exact ⟨p.1, p.2, rfl, h⟩
    · rintro ⟨a, u, ha, h⟩
      cases ha
      exact h

theorem runs_of_run (h : x.run s = .ok (a, u)) : Runs x s b s' ↔ b = a ∧ s' = u := by
  rw [Runs, h, Except.ok.injEq, Prod.mk.injEq, eq_comm, eq_comm (a := u)]

@[simp] theorem runs_pure : Runs (pure a) s b s' ↔ b = a ∧ s' = s := runs_of_run rfl

theorem runs_bind_pure {f : α → β} :
    Runs (x >>= fun a => pure (f a)) s b s' ↔ ∃ a, Runs x s a s' ∧ b = f a := by
  rw [runs_bind]
  simp

theorem runs_map : Runs (f <$> x) s b s' ↔ ∃ a, Runs x s a s' ∧ b = f a := by
  rw [← bind_pure_comp, runs_bind_pure]

@[simp] theorem runs_get : Runs get s u s' ↔ u = s ∧ s' = s := runs_of_run rfl

theorem runs_get_bind : Runs (get >>= f) s b s' ↔ Runs (f s) s b s' := by
  simp [runs_bind, and_assoc]

@[simp] theorem runs_set : Runs (set u) s x s' ↔ s' = u :=
  (runs_of_run rfl).trans (and_iff_right rfl)

@[simp] theorem runs_modify : Runs (modify f) s x s' ↔ s' = f s :=
  (runs_of_run rfl).trans (and_iff_right rfl)

@[simp] theorem runs_lift {x : Except Fault α} : Runs (liftM x) s a s' ↔ x = .ok a ∧ s' = s := by
  cases x with
  | error e => exact ⟨nofun, fun ⟨h, _⟩ => nomatch h⟩
  | ok b =>
    change Except.ok (b, s) = Except.ok (a, s') ↔ _
    simp [eq_comm]

end Runs

/-! ## Sheets -/

mutual

/-- All selectors of a sheet, as they are met. What leads a rule of keyframes is none. -/
def Node.selectors (inKeyframes : Bool) : Node → List Selector
  | .rule (.selectors list) block => (if inKeyframes then [] else list) ++ selectorsIn false block
  | .rule (.keyframe _) block => selectorsIn false block
  | .at name _ (some block) => selectorsIn (isKeyframes name) block
  | .at _ _ none | .declaration _ | .raw _ => []

def selectorsIn (inKeyframes : Bool) : List Node → List Selector
  | [] => []
  | n :: rest => n.selectors inKeyframes ++ selectorsIn inKeyframes rest

end

structure Entry where
  emptyBlock : Bool
  selector : Selector
  deriving DecidableEq, Repr

def Entry.scope (flags : BlockFlags) (e : Entry) : Scoping Selector :=
  scopeSelector flags e.emptyBlock e.selector

mutual

/-- The selectors of a sheet, each with what scoping regards of its rule. -/
def Node.entries (inKeyframes : Bool) : Node → List Entry
  | .rule (.selectors list) block =>
    (if inKeyframes then [] else list.map (⟨block.isEmpty, ·⟩)) ++ entriesIn false block
  | .rule (.keyframe _) block => entriesIn false block
  | .at name _ (some block) => entriesIn (isKeyframes name) block
  | .at _ _ none | .declaration _ | .raw _ => []

def entriesIn (inKeyframes : Bool) : List Node → List Entry
  | [] => []
  | n :: rest => n.entries inKeyframes ++ entriesIn inKeyframes rest

end

mutual

theorem map_selector_entries : ∀ (n : Node) (kf : Bool),
    (n.entries kf).map (·.selector) = n.selectors kf
  | .rule (.selectors list) block, kf => by
    rw [Node.entries, Node.selectors, List.map_append, map_selector_entriesIn block]
    cases kf <;> simp [Function.comp_def]
  | .rule (.keyframe _) block, _ | .at name _ (some block), _ => by
    rw [Node.entries, Node.selectors, map_selector_entriesIn block]
  | .at _ _ none, _ => rfl
  | .declaration _, _ => rfl
  | .raw _, _ => rfl

theorem map_selector_entriesIn : ∀ (ns : List Node) (kf : Bool),
    (entriesIn kf ns).map (·.selector) = selectorsIn kf ns
  | [], _ => rfl
  | n :: ns, kf => by
    rw [entriesIn, selectorsIn, List.map_append, map_selector_entries n, map_selector_entriesIn ns]

end

section Entries

variable {flags : BlockFlags} {s s' : Scope}

theorem runs_mapM_append {es es' : List Entry} (h : Runs (es.mapM (Entry.scope flags)) s out u)
    (h' : Runs (es'.mapM (Entry.scope flags)) u out' s') :
    Runs ((es ++ es').mapM (Entry.scope flags)) s (out ++ out') s' := by
  rw [List.mapM_append]
  exact runs_bind.mpr ⟨out, u, h, runs_bind_pure.mpr ⟨out', h', rfl⟩⟩

mutual

theorem scopeNode_runs : ∀ (n : Node) (kf : Bool) {n' : Node} {s s' : Scope},
    Runs (scopeNode flags kf n) s n' s' →
    Runs ((n.entries kf).mapM (Entry.scope flags)) s (n'.selectors kf) s'
  | .declaration d, _, n', s, s', h | .at name lead none, _, n', s, s', h
  | .raw text, _, n', s, s', h => by
    simp only [scopeNode, runs_get_bind] at h
    obtain ⟨rfl, rfl⟩ := runs_pure.mp h
    exact runs_pure.mpr ⟨rfl, rfl⟩
  | .at name lead (some block), _, n', s, s', h
  | .rule (.keyframe text) block, _, n', s, s', h => by
    simp only [scopeNode, runs_get_bind, pure_bind] at h
    obtain ⟨block', hblock, rfl⟩ := runs_bind_pure.mp h
    exact scopeNodes_runs block _ hblock
  | .rule (.selectors list) block, kf, n', s, s', h => by
    have hlist : ∃ list' u,
        Runs ((if kf then [] else list.map (⟨block.isEmpty, ·⟩)).mapM (Entry.scope flags)) s
          (if kf then [] else list') u ∧
        Runs (do return Node.rule (.selectors list') (← scopeNodes flags false block)) u n' s' := by
      rw [scopeNode] at h
      split at h
      · next hk =>
        rw [pure_bind] at h
        refine ⟨list, _, ?_, h⟩
        rw [if_pos hk, if_pos hk]
        exact runs_pure.mpr ⟨rfl, rfl⟩
      · next hk =>
        obtain ⟨_, u, hlead, hrest⟩ := runs_bind.mp h
        obtain ⟨list', hmap, rfl⟩ := runs_map.mp hlead
        refine ⟨list', u, ?_, hrest⟩
        rw [if_neg hk, if_neg hk, List.mapM_map]
        exact hmap
    obtain ⟨list', u, hentries, hrest⟩ := hlist
    obtain ⟨block', hblock, rfl⟩ := runs_bind_pure.mp hrest
    exact runs_mapM_append hentries (scopeNodes_runs block _ hblock)

theorem scopeNodes_runs : ∀ (ns : List Node) (kf : Bool) {ns' : List Node} {s s' : Scope},
    Runs (scopeNodes flags kf ns) s ns' s' →
    Runs ((entriesIn kf ns).mapM (Entry.scope flags)) s (selectorsIn kf ns') s'
  | [], _, ns', s, s', h => by
    rw [scopeNodes] at h
    obtain ⟨rfl, rfl⟩ := runs_pure.mp h
    exact runs_pure.mpr ⟨rfl, rfl⟩
  | n :: ns, kf, ns', s, s', h => by
    rw [scopeNodes] at h
    obtain ⟨n', u, hnode, hrest⟩ := runs_bind.mp h
    obtain ⟨ns', hnodes, rfl⟩ := runs_bind_pure.mp hrest
    exact runs_mapM_append (scopeNode_runs n kf hnode) (scopeNodes_runs ns kf hnodes)

end

def Scope.enter (s : Scope) (b : Markup.RawBlock) : Scope :=
  { s with
    hasExternal := s.hasExternal || b.hasAttribute "external"
    main := match (b.attributes.filter (·.name == "main")).getLast? with
      | some a => a.value
      | none => s.main }

theorem runs_addBlock {b : Markup.RawBlock} :
    Runs (addBlock parse b) s x s' ↔ ∃ nodes sheet u, parse b.content = .ok nodes ∧
      Runs (scopeNodes (blockFlags b) false nodes) (s.enter b) sheet u ∧
      s' = { u with sheets := u.sheets ++ [sheet] } := by
  constructor
  · intro h
    obtain ⟨_, _, hmodify, hrest⟩ := runs_bind.mp h
    obtain rfl := runs_modify.mp hmodify
    obtain ⟨nodes, _, hlift, hrest'⟩ := runs_bind.mp hrest
    obtain ⟨hparse, rfl⟩ := runs_lift.mp hlift
    obtain ⟨sheet, u, hnodes, hlast⟩ := runs_bind.mp hrest'
    exact ⟨nodes, sheet, u, hparse, hnodes, runs_modify.mp hlast⟩
  · rintro ⟨nodes, sheet, u, hparse, hnodes, hlast⟩
    refine runs_bind.mpr ⟨(), s.enter b, runs_modify.mpr rfl, ?_⟩
    refine runs_bind.mpr ⟨nodes, s.enter b, runs_lift.mpr ⟨hparse, rfl⟩, ?_⟩
    exact runs_bind.mpr ⟨sheet, u, hnodes, runs_modify.mpr hlast⟩

def tokensFor (blocks : List Markup.RawBlock) (o : Compile.Options) (source : Option TokenSource) :
    TokenSource :=
  source.getD (.digest (o.name ++ ":" ++ String.join (blocks.map (·.content))))

def TokenSource.start (src : TokenSource) : Scope := { id := src.next.1, tokens := src.next.2 }

theorem scopeWith_runs (h : scopeWith parse blocks o source = .ok (some scope)) :
    Runs (blocks.forM (addBlock parse)) (tokensFor blocks o source).start () scope := by
  unfold scopeWith at h
  split at h
  · cases h
  · simp only at h
    split at h
    · next heq =>
      cases h
      exact heq
    · cases h

theorem scopeWith_of_runs (hblocks : blocks ≠ [])
    (h : Runs (blocks.forM (addBlock parse)) (tokensFor blocks o source).start () scope) :
    scopeWith parse blocks o source = .ok (some scope) := by
  rw [scopeWith, if_neg (by simpa using hblocks)]
  simp only [Runs, tokensFor, TokenSource.start] at h
  simp only [h]

end Entries

end ReactiveMarkup.Style
