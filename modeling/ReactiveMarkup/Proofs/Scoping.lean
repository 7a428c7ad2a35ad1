import ReactiveMarkup.Proofs.Buckets
import ReactiveMarkup.Proofs.Marks
import ReactiveMarkup.Proofs.Outlines

/-! # Scoping keeps what rules hit

All selectors of one clean text share a bucket and its token, which static matching gives to the
elements of one way through the compounds for every element hit.
-/

namespace ReactiveMarkup.Style

open List Outline

/-! ## Selectors and buckets -/

def Filed (all : List Selector) (s : Scope) : Prop :=
  ∀ b ∈ s.buckets, b.text = b.clean.print ∧
    ∃ sel ∈ all, ∃ origin, openGlobals sel = .ok origin ∧ cleanForm origin = b.clean

inductive Scoped (s : Scope) (sel : Selector) : Selector → Prop
  | bare : openGlobals sel = .ok origin → cleanForm origin = [] → Scoped s sel origin
  | marked : openGlobals sel = .ok origin → b ∈ s.buckets → b.text = (cleanForm origin).print →
    b.local = some t → Scoped s sel (mark t none origin)

theorem Placed.scoped (h : Placed s flags origin sel') (hopen : openGlobals sel = .ok origin)
    (hf : flags.external = false ∧ flags.isGlobal = false) : Scoped s sel sel' := by
  cases h with
  | plain h =>
    rw [hf.2] at h
    exact .bare hopen (by simpa using h)
  | own _ _ hb ht hl _ => exact .marked hopen hb ht hl
  | exported _ hext | declared _ hext => cases hf.1.symm.trans hext

theorem scopeWith_scoped
    (hb : ∀ b ∈ blocks, b.hasAttribute "external" = false ∧ b.hasAttribute "global" = false)
    (h : scopeWith parse blocks o source = .ok (some scope)) :
    ∃ parsed, blocks.mapM (fun b => parse b.content) = .ok parsed ∧
      Filed (parsed.flatMap (selectorsIn false)) scope ∧
      List.Forall₂ (Scoped scope) (parsed.flatMap (selectorsIn false))
        (scope.sheets.flatMap (selectorsIn false)) := by
  obtain ⟨parsed, uses, hparsed, hlen, huses, hmet, hout⟩ := scopeWith_uses h
  obtain ⟨hsettled, _⟩ := huses.settled (.start _)
  have hflags : ∀ u ∈ uses, u.flags.external = false ∧ u.flags.isGlobal = false := by
    intro u hu
    have hmem : (u.flags, u.entry) ∈ uses.map fun u => (u.flags, u.entry) := mem_map.mpr ⟨u, hu, rfl⟩
    rw [hmet] at hmem
    obtain ⟨p, hp, hentry⟩ := mem_flatMap.mp hmem
    obtain ⟨_, _, heq⟩ := mem_map.mp hentry
    rw [← (Prod.mk.inj heq).1]
    exact hb p.1 (of_mem_zip hp).1
  have hselectors : uses.map (·.entry.selector) = parsed.flatMap (selectorsIn false) := by
    calc uses.map (·.entry.selector)
        _ = (uses.map fun u => (u.flags, u.entry)).map (·.2.selector) := by simp [Function.comp_def]
        _ = (blocks.zip parsed).flatMap fun p => selectorsIn false p.2 := by
          simp [hmet, map_flatMap, Function.comp_def, map_selector_entriesIn]
        _ = ((blocks.zip parsed).map Prod.snd).flatMap (selectorsIn false) := by
          rw [flatMap_map]
        _ = parsed.flatMap (selectorsIn false) := by rw [map_snd_zip hlen.le]
  refine ⟨parsed, hparsed, fun b hbucket => ?_, ?_⟩
  · obtain ⟨u, hu, origin, hopen, hclean⟩ := hsettled.clean b hbucket
    exact ⟨hsettled.consistent.printed b hbucket, u.entry.selector,
      hselectors ▸ mem_map.mpr ⟨u, hu, rfl⟩, origin, hopen, hclean⟩
  · rw [← hselectors, ← hout, List.forall₂_map_left_iff, List.forall₂_map_right_iff]
    refine List.forall₂_same.mpr fun u hu => ?_
    obtain ⟨origin, hopen, hplaced⟩ := hsettled.placed u hu
    exact hplaced.scoped hopen (hflags u hu)

/-! ## Tokens of elements -/

theorem mapM_ok {f : α → Except ε β} {l : List α} {r : List β} (h : l.mapM f = .ok r) :
    (∀ a ∈ l, ∃ b ∈ r, f a = .ok b) ∧ ∀ b ∈ r, ∃ a ∈ l, f a = .ok b := by
  induction l generalizing r with
  | nil =>
    cases h
    exact ⟨nofun, nofun⟩
  | cons a l ih =>
    rw [mapM_cons] at h
    cases ha : f a with
    | error e =>
      rw [ha] at h
      cases h
    | ok b =>
      cases hl : l.mapM f with
      | error e =>
        rw [ha, hl] at h
        cases h
      | ok bs =>
        rw [ha, hl] at h
        cases h
        obtain ⟨hleft, hright⟩ := ih hl
        simp only [mem_cons, forall_eq_or_imp, exists_eq_or_imp]
        exact ⟨⟨Or.inl ha, fun x hx => Or.inr (hleft x hx)⟩,
          ⟨Or.inl ha, fun x hx => Or.inr (hright x hx)⟩⟩

theorem select_ok {o : Outline} (h : o.select s = .ok ms) :
    ∃ chain, compounds s = .ok chain ∧ ∀ k path, o.matchAt chain k = some path →
      k < o.elements.length → (⟨o.sourceAt k, path.map o.sourceAt⟩ : Match) ∈ ms := by
  unfold select at h
  cases hc : compounds s with
  | error e =>
    rw [hc] at h
    cases h
  | ok chain =>
    rw [hc] at h
    cases h
    refine ⟨chain, rfl, fun k path hk hlt => ?_⟩
    exact mem_filterMap.mpr ⟨k, mem_range.mpr hlt, by rw [hk]; rfl⟩

def Bucket.Grants (b : Bucket) (o : Outline) (id : Nat) (t : String) : Prop :=
  b.local = some t ∧ ∃ ms, o.select b.clean = .ok ms ∧ ∃ m ∈ ms, id = m.node ∨ id ∈ m.path

theorem grants_ok {s : Scope} {root : Markup.Root} {gs : List (Nat × String)}
    (h : s.grants root = .ok gs) :
    (∀ b ∈ s.buckets, b.local.isSome → ∃ ms, (ofRoot root).select b.clean = .ok ms) ∧
      ∀ id t, (id, t) ∈ gs ↔ ∃ b ∈ s.buckets, b.Grants (ofRoot root) id t := by
  obtain ⟨f, hbucket, hgranted⟩ : ∃ f : Bucket → Except Fault (List (Nat × String)),
      (∀ b l, f b = .ok l → (b.local.isSome → ∃ ms, (ofRoot root).select b.clean = .ok ms) ∧
        ∀ id t, b.Grants (ofRoot root) id t ↔ (id, t) ∈ l) ∧
      (do return (← s.buckets.mapM f).flatten) = .ok gs := by
    refine ⟨_, ?_, h⟩
    intro b l hl
    cases hlocal : b.local with
    | none =>
      simp only [hlocal, Except.ok.injEq] at hl
      simp [← hl, Bucket.Grants, hlocal]
    | some token =>
      simp only [hlocal] at hl
      cases hselect : (ofRoot root).select b.clean with
      | error e => simp [hselect] at hl
      | ok ms =>
        simp only [hselect, Except.ok.injEq] at hl
        refine ⟨fun _ => ⟨ms, rfl⟩, fun id t => ?_⟩
        rw [← hl, Bucket.Grants, hlocal, hselect]
        simp only [mem_flatMap, mem_map, mem_cons, Prod.mk.injEq]
        constructor
        · rintro ⟨ht, _, hms, m, hm, hid⟩
          cases hms
          cases ht
          exact ⟨m, hm, id, hid, rfl, rfl⟩
        · rintro ⟨m, hm, _, hid, rfl, rfl⟩
          exact ⟨rfl, ms, rfl, m, hm, hid⟩
  cases hm : s.buckets.mapM f with
  | error e =>
    rw [hm] at hgranted
    cases hgranted
  | ok lists =>
    rw [hm] at hgranted
    cases hgranted
    obtain ⟨hleft, hright⟩ := mapM_ok hm
    refine ⟨fun b hb hl => ?_, fun id t => ?_⟩
    · obtain ⟨l, _, hfb⟩ := hleft b hb
      exact (hbucket b l hfb).1 hl
    · rw [mem_flatten]
      constructor
      · rintro ⟨l, hl, hid⟩
        obtain ⟨b, hb, hfb⟩ := hright l hl
        exact ⟨b, hb, ((hbucket b l hfb).2 id t).mpr hid⟩
      · rintro ⟨b, hb, hgrants⟩
        obtain ⟨l, hl, hfb⟩ := hleft b hb
        exact ⟨l, hl, ((hbucket b l hfb).2 id t).mp hgrants⟩

theorem mem_classes_grantAll {gs : List (Nat × String)} {e : Markup.Element} :
    t ∈ (gs.foldl (fun e g => e.addClass g.2) e).classes ↔
      t ∈ e.classes ∨ ∃ g ∈ gs, g.2 = t := by
  induction gs generalizing e with
  | nil => simp
  | cons g gs ih =>
    have hadd : t ∈ (e.addClass g.2).classes ↔ t ∈ e.classes ∨ g.2 = t := by
      unfold Markup.Element.addClass
      split
      · next hg =>
        refine ⟨Or.inl, ?_⟩
        rintro (ht | rfl)
        · exact ht
        · exact hg
      · simp [eq_comm]
    rw [foldl_cons, ih, hadd]
    simp only [mem_cons, or_and_right, exists_or, exists_eq_left, or_assoc]

def grantTo (granted : List (Nat × String)) (e : Markup.Element) : Markup.Element :=
  (granted.filter (·.1 == e.id)).foldl (fun e g => e.addClass g.2) e

theorem mem_classes_grantTo {gs : List (Nat × String)} {e : Markup.Element} :
    t ∈ (grantTo gs e).classes ↔ t ∈ e.classes ∨ (e.id, t) ∈ gs := by
  rw [grantTo, mem_classes_grantAll]
  refine or_congr_right ⟨?_, fun h => ⟨_, mem_filter.mpr ⟨h, by simp⟩, rfl⟩⟩
  rintro ⟨g, hg, rfl⟩
  obtain ⟨hg, hid⟩ := mem_filter.mp hg
  rwa [← beq_iff_eq.mp hid]

theorem grantTo_eq (gs : List (Nat × String)) (e : Markup.Element) :
    grantTo gs e = { e with classes := (grantTo gs e).classes } := by
  unfold grantTo
  generalize gs.filter (·.1 == e.id) = own
  induction own generalizing e with
  | nil => rfl
  | cons g own ih =>
    rw [foldl_cons]
    refine (ih _).trans ?_
    unfold Markup.Element.addClass
    split <;> rfl

theorem apply_ok {s : Scope} (h : s.apply root = .ok root') :
    ∃ gs, s.grants root = .ok gs ∧ root' = root.mapElements (grantTo gs) := by
  unfold Scope.apply at h
  cases hg : s.grants root with
  | error e =>
    rw [hg] at h
    cases h
  | ok gs =>
    rw [hg] at h
    cases h
    exact ⟨gs, rfl, rfl⟩

theorem unseen_grantTo (gs : List (Nat × String)) : Unseen (grantTo gs) where
  id := fun e => by rw [grantTo_eq]
  name := fun e => by rw [grantTo_eq]
  attributes := fun e => by rw [grantTo_eq]

def Tagged (root : Markup.Root) (t : String) (k : Nat) : Prop :=
  ∃ e, root.elements[k]? = some e ∧ t ∈ e.classes

theorem tagged_of_granted (hk : k < (ofRoot root).elements.length)
    (hg : ((ofRoot root).sourceAt k, t) ∈ gs) : Tagged (root.mapElements (grantTo gs)) t k := by
  have hids : root.elements[k]?.map (·.id) = (ofRoot root).elements[k]?.map (·.source) := by
    rw [← getElem?_map, ← getElem?_map, sources_ofRoot]
  rw [sourceAt, ← hids] at hg
  rw [getElem?_eq_getElem hk] at hids
  obtain ⟨e, he, _⟩ := Option.map_eq_some_iff.mp hids
  rw [he] at hg
  refine ⟨grantTo gs e, ?_, mem_classes_grantTo.mpr (Or.inr hg)⟩
  rw [Markup.Root.elements_mapElements, getElem?_map, he]
  rfl

theorem chain_tagged {s : Scope} (h : s.apply root = .ok root') (hb : b ∈ s.buckets)
    (hl : b.local = some t) :
    ∃ chain, compounds b.clean = .ok chain ∧ ∀ k, Chain (ofRoot root) (fun _ => True) chain k →
      Chain (ofRoot root) (Tagged root' t) chain k := by
  obtain ⟨gs, hgranted, rfl⟩ := apply_ok h
  obtain ⟨hmatched, hgrants⟩ := grants_ok hgranted
  obtain ⟨ms, hselect⟩ := hmatched b hb (by rw [hl]; rfl)
  obtain ⟨chain, hchain, hms⟩ := select_ok hselect
  refine ⟨chain, hchain, fun k hk => ?_⟩
  obtain ⟨path, hpath⟩ := hk.matchAt
  obtain ⟨hlt, hlts⟩ := matchAt_lt hpath
  have hm := hms k path hpath hlt
  have hgrant : ∀ id, id = (ofRoot root).sourceAt k ∨ id ∈ path.map (ofRoot root).sourceAt →
      (id, t) ∈ gs := fun id hid =>
    (hgrants id t).mpr ⟨b, hb, hl, ms, hselect, _, hm, hid⟩
  refine chain_of_matchAt hpath (tagged_of_granted hlt (hgrant _ (Or.inl rfl))) fun j hj => ?_
  exact tagged_of_granted (hlts j hj) (hgrant _ (Or.inr (mem_map_of_mem hj)))

/-! ## What scoped selectors hit -/

/-- No selector of another clean form has the same clean text. -/
def Unclashed (all : List Selector) (sel : Selector) : Prop :=
  ∀ other ∈ all, ∀ origin, openGlobals other = .ok origin →
    (cleanForm origin).print = (cleanForm sel).print → cleanForm origin = cleanForm sel

theorem inserts_mark (h : Own sel) : Inserts t sel (mark t none sel)
      (markBack { kind := .«class» t } false sel.reverse).reverse where
  whole := by rw [mark_own h, map_reverse]
  source := by
    rw [filter_reverse, map_reverse, map_markBack_filter, reverse_reverse]
  inserted := fun x hx => eq_of_mem_markBack x (mem_reverse.mp hx)

theorem scoped_matches {all : List Selector} (h : Scoped s sel sel') (hs : Filed all s)
    (happly : s.apply root = .ok root') (hown : Own sel) (hsingle : SingleNames sel)
    (hclash : Unclashed all sel) : ∃ t row, Inserts t sel sel' row ∧ ∀ k,
      Matches (ofRoot root) (fun x => x.1.relation?) (MarkedTest (ofRoot root) (Tagged root' t)) row k ↔
        Matches (ofRoot root) Item.relation? (ofRoot root).Passes sel k := by
  cases h with
  | bare hopen hc =>
    rw [openGlobals_own hown] at hopen
    cases hopen
    obtain ⟨lead, trail, heq, hlead, htrail⟩ := cleanForm_own hown
    rw [hc, append_nil] at heq
    have hall : ∀ i ∈ sel, i.relation?.isSome := by
      intro i hi
      rw [heq] at hi
      rw [isSome_relation?]
      exact (mem_append.mp hi).elim (hlead i) (htrail i)
    have hrow : Inserts "" sel sel (sel.map (·, false)) :=
      ⟨by simp [Function.comp_def], by simp [filter_map, Function.comp_def], by simp⟩
    refine ⟨"", _, hrow, fun k => ?_⟩
    refine iff_of_false (not_matches_of_boundaries ?_) (not_matches_of_boundaries hall)
    intro x hx
    obtain ⟨i, hi, rfl⟩ := mem_map.mp hx
    exact hall i hi
  | @marked origin b t hopen hb htext hl =>
    rw [openGlobals_own hown] at hopen
    cases hopen
    obtain ⟨hprinted, other, hother, form, hform, hclean⟩ := hs b hb
    have hbucket : b.clean = cleanForm sel := by
      rw [← hclean]
      refine hclash other hother form hform ?_
      rw [hclean, ← hprinted]
      exact htext
    obtain ⟨chain, hchain, htagged⟩ := chain_tagged happly hb hl
    rw [hbucket] at hchain
    have hmatch : ∀ P k, Matches (ofRoot root) Item.relation? ((ofRoot root).PassesAmong P) sel k ↔
        Chain (ofRoot root) P chain k := fun P k => by
      rw [← matches_cleanForm hown]
      exact matches_iff_chain (singleNames_cleanForm hown hsingle) hchain
    refine ⟨t, _, inserts_mark hown, fun k => ?_⟩
    rw [matches_markBack rfl, ← passesAmong_true, hmatch, hmatch]
    exact ⟨fun hk => hk.mono fun _ _ => trivial, htagged k⟩

/-- A selector that shares its clean text with no other clean form hits, with its inserted tokens
tested on the tokens of elements, what it hit before. Elements take the tokens that matches of
buckets name them for, and no others. -/
theorem scope_keeps_hits (parse : String → Except Fault (List Node))
    (blocks : List Markup.RawBlock) (o : Compile.Options) (source : Option TokenSource)
    (scope : Scope) (root root' : Markup.Root)
    (hlocal : ∀ b ∈ blocks, b.hasAttribute "external" = false ∧ b.hasAttribute "global" = false)
    (hscope : scopeWith parse blocks o source = .ok (some scope))
    (happly : scope.apply root = .ok root') :
    ∃ parsed, blocks.mapM (fun b => parse b.content) = .ok parsed ∧
      List.Forall₂ (fun sel sel' => Own sel → SingleNames sel →
          Unclashed (parsed.flatMap (selectorsIn false)) sel →
          ∃ t row, Inserts t sel sel' row ∧ ∀ k,
            Matches (ofRoot root') (fun x => x.1.relation?)
                (MarkedTest (ofRoot root') (Tagged root' t)) row k ↔
              Matches (ofRoot root) Item.relation? (ofRoot root).Passes sel k)
        (parsed.flatMap (selectorsIn false)) (scope.sheets.flatMap (selectorsIn false)) ∧
      List.Forall₂ (fun e e' => e' = { e with classes := e'.classes } ∧ ∀ t, t ∈ e'.classes ↔
          t ∈ e.classes ∨ ∃ b ∈ scope.buckets, b.local = some t ∧
            ∃ ms, (ofRoot root).select b.clean = .ok ms ∧ ∃ m ∈ ms, e.id = m.node ∨ e.id ∈ m.path)
        root.elements root'.elements := by
  obtain ⟨parsed, hparsed, hfiled, hscoped⟩ := scopeWith_scoped hlocal hscope
  obtain ⟨granted, hgranted, rfl⟩ := apply_ok happly
  have houtline := ofRoot_mapElements (unseen_grantTo granted) root
  refine ⟨parsed, hparsed, hscoped.imp fun sel sel' hs hown hsingle hclash => ?_, ?_⟩
  · rw [houtline]
    exact scoped_matches hs hfiled happly hown hsingle hclash
  · rw [Markup.Root.elements_mapElements, List.forall₂_map_right_iff]
    refine List.forall₂_same.mpr fun e _ => ⟨grantTo_eq granted e, fun t => ?_⟩
    rw [mem_classes_grantTo, (grants_ok hgranted).2]
    rfl

/-! A link in a paragraph, and a rule for such links. -/

def plainElement (id : Nat) (name openTag : String) : Markup.Element :=
  { id, name, arg := none, attributes := [], openTag, closed := false, void := false }

def linkRoot : Markup.Root where
  body := [.element (plainElement 0 "p" "<p>")
    [.element (plainElement 1 "a" "<a>") [] ⟨3, 10⟩] ⟨0, 14⟩]
  span := ⟨0, 14⟩

theorem scopeOf_linkStyles :
    scopeOf [linkStyles] {} (some (.numbered "p" 0)) = .ok (some linkScope) :=
  scopeWith_of_runs (by decide) <| runs_bind.mpr ⟨(), linkScope, addBlock_linkStyles, rfl⟩

/-- Both elements have the token, and the scoped rule hits the link as before. -/
theorem scope_keeps_hits_linkStyles :
    ∃ root', linkScope.apply linkRoot = .ok root' ∧
      root'.elements.map (·.classes) = [["p0"], ["p0"]] ∧
      ∃ t row, Inserts t linkSelector (mark "p0" none linkSelector) row ∧ ∀ k,
        Matches (ofRoot root') (fun x => x.1.relation?)
            (MarkedTest (ofRoot root') (Tagged root' t)) row k ↔
          Matches (ofRoot linkRoot) Item.relation? (ofRoot linkRoot).Passes linkSelector k := by
  have happly : linkScope.apply linkRoot = .ok (linkRoot.mapElements (·.addClass "p0")) := rfl
  obtain ⟨parsed, hparsed, hhits, _⟩ := scope_keeps_hits parseSheet [linkStyles] {}
    (some (.numbered "p" 0)) linkScope linkRoot _ (by decide) scopeOf_linkStyles happly
  have hsheet : parsed = [[.rule (.selectors [linkSelector]) []]] := by
    rw [List.mapM_cons, parse_linkStyles] at hparsed
    cases hparsed
    rfl
  subst hsheet
  refine ⟨_, happly, by decide, ?_⟩
  cases hhits with
  | cons hfirst _ =>
    refine hfirst (by decide) (by decide) fun other hother origin hopen _ => ?_
    rw [List.mem_singleton.mp hother, openGlobals_own (by decide)] at hopen
    cases hopen
    rfl

end ReactiveMarkup.Style
