import ReactiveMarkup.Proofs.Matching
import ReactiveMarkup.Proofs.Outlines

/-! # Expansions

What a component shows at run time is a forest without blocks: a loop has become any number of
copies of its body, and of a condition or an await one part is shown or none. Static matching looks
at one outline for all these forests.
-/

namespace ReactiveMarkup.Style

open List Markup

/-! ## Run-time forests -/

def isPlain : Node → Bool
  | .text .. | .comment .. | .raw _ | .sysTag .. => true
  | _ => false

/-- What a body can become at run time. Slots and fragments, which are filled elsewhere, have no
expansion. -/
inductive Expands : List Node → List Node → Prop
  | nil : Expands [] []
  | plain : isPlain n = true → Expands ns xs → Expands (n :: ns) (n :: xs)
  | element : Expands body shown → Expands ns xs →
    Expands (.element e body s :: ns) (.element e shown s :: xs)
  | done : Expands ns xs → Expands (.each h body s :: ns) xs
  | again : Expands body copy → Expands (.each h body s :: ns) xs →
    Expands (.each h body s :: ns) (copy ++ xs)
  | branch : part ∈ [[], body, alt] → Expands part shown → Expands ns xs →
    Expands (.cond h body hasElse alt s :: ns) (shown ++ xs)
  | outcome : part ∈ [[], main, thenBody, catchBody] → Expands part shown → Expands ns xs →
    Expands (.await h main th thenBody ch catchBody s :: ns) (shown ++ xs)

/-- Where an instance of an element stands: the element and the elements around it from the inside
to the outside, each with the elements before it in its own row, nearest first. -/
abbrev Place := List (Element × List Element)

def element? : Node → Option Element
  | .element e _ _ => some e
  | _ => none

mutual

/-- Every instance of an element in a node that stands below `up` and behind `earlier`. -/
def placesIn (up : Place) (earlier : List Element) : Node → List Place
  | .element e body _ => ((e, earlier) :: up) :: placesOf ((e, earlier) :: up) [] body
  | _ => []

def placesOf (up : Place) (earlier : List Element) : List Node → List Place
  | [] => []
  | n :: ns => placesIn up earlier n ++ placesOf up ((element? n).toList ++ earlier) ns

end

/-! ## Matching in a forest -/

/-- The tests of a compound see the name and the attributes of an element. -/
def Compound.accepts (c : Compound) (e : Element) : Bool := c.holds (Outline.describe [] [] e)

inductive Reaches : Relation → Place → Place → Prop
  | descendant (nearer : Place) : Reaches .descendant (x :: (nearer ++ p)) p
  | child : Reaches .child (x :: p) p
  | adjacent : Reaches .adjacent ((e, f :: earlier) :: up) ((f, earlier) :: up)
  | sibling (nearer : List Element) :
    Reaches .sibling ((e, nearer ++ f :: earlier) :: up) ((f, earlier) :: up)

/-- A row of compounds, the last one first, matches an instance. -/
inductive Fits : List Compound → Place → Prop
  | first : c.accepts e = true → Fits [c] ((e, earlier) :: up)
  | behind : c.accepts e = true → Reaches c.relation ((e, earlier) :: up) q → Fits cs q →
    Fits (c :: cs) ((e, earlier) :: up)

def Relation.looksUp : Relation → Bool
  | .descendant | .child => true
  | .adjacent | .sibling => false

def LooksUp (s : Selector) : Prop := ∀ i ∈ s, i.relation?.all Relation.looksUp = true

instance (s : Selector) : Decidable (LooksUp s) :=
  inferInstanceAs (Decidable (∀ i ∈ s, i.relation?.all Relation.looksUp = true))

theorem relation_add {c c' : Compound} (h : c.add k = some c') : c'.relation = c.relation := by
  unfold Compound.add at h
  split at h
  · split at h <;> cases h
    rfl
  all_goals cases h
  all_goals rfl

theorem relation_compoundsFrom {P : Relation → Prop} {s : Selector}
    (hs : ∀ i ∈ s, ∀ r, i.relation? = some r → P r) (hdone : ∀ x ∈ done, P x.relation)
    (hc : P c.relation) (h : compoundsFrom done c isOpen s = some chain) :
    ∀ x ∈ chain, P x.relation := by
  induction s generalizing done c isOpen with
  | nil =>
    cases h
    cases isOpen <;> simpa [hc] using hdone
  | cons i s ih =>
    have hrest := fun j hj => hs j (.tail i hj)
    rw [compoundsFrom] at h
    split at h
    · next r hr =>
      have hr' : P r := hs i mem_cons_self r hr
      split at h
      · exact ih hrest (by simpa [hc] using hdone) hr' h
      · exact ih hrest hdone hr' h
    · split at h
      · next c' ha => exact ih hrest hdone (relation_add ha ▸ hc) h
      · cases h

theorem looksUp_compoundsFrom (hs : LooksUp s)
    (hdone : ∀ x ∈ done, x.relation.looksUp = true) (hc : c.relation.looksUp = true)
    (h : compoundsFrom done c isOpen s = some chain) : ∀ x ∈ chain, x.relation.looksUp = true := by
  refine relation_compoundsFrom (P := fun r => r.looksUp = true) (fun i hi r hr => ?_) hdone hc h
  have hlook := hs i hi
  rwa [hr] at hlook

theorem compounds_eq_ok (h : compounds s = .ok chain) :
    compoundsFrom [] {} false s = some chain := by
  unfold compounds at h
  split at h
  · next c cs hfrom =>
    cases h
    exact hfrom
  · cases h

/-! ## The outline mirrors every forest -/

namespace Outline

mutual

theorem prefix_plant : ∀ (n : Node) (anc : List Nat) (o : Outline),
    o.elements <+: (plant anc o n).elements
  | .element e body s, anc, o => by
    rw [plant]
    refine IsPrefix.trans ?_ (prefix_plantAll body _ _)
    rw [elements_push]
    exact prefix_append _ _
  | .each _ body _, anc, o | .slot _ body _, anc, o
  | .fragment _ body _, anc, o => prefix_plantAll body anc o
  | .cond _ body _ alt _, anc, o =>
    (prefix_plantAll body anc o).trans (prefix_plantAll alt anc _)
  | .await _ main _ thenBody _ catchBody _, anc, o =>
    ((prefix_plantAll main anc o).trans (prefix_plantAll thenBody anc _)).trans
      (prefix_plantAll catchBody anc _)
  | .text .., _, _ | .comment .., _, _ | .raw _, _, _ | .sysTag .., _, _ => prefix_rfl

theorem prefix_plantAll : ∀ (ns : List Node) (anc : List Nat) (o : Outline),
    o.elements <+: (plantAll anc o ns).elements
  | [], _, _ => prefix_rfl
  | n :: ns, anc, o => (prefix_plant n anc o).trans (prefix_plantAll ns anc _)

end

/-- Positions in an outline that hold the given elements, each below those that follow it. -/
inductive Lineage (o : Outline) : List Nat → List Element → Prop
  | nil : Lineage o [] []
  | cons : o.elements[k]? = some (describe ks earlier e) → Lineage o ks es →
    Lineage o (k :: ks) (e :: es)

theorem Lineage.mono (h : Lineage o ks es) (ho : o.elements <+: o'.elements) :
    Lineage o' ks es := by
  induction h with
  | nil => exact .nil
  | cons hk _ ih =>
    have hlt := (List.getElem?_eq_some_iff.mp hk).1
    obtain ⟨added, hadded⟩ := ho
    exact .cons (by rw [← hadded, getElem?_append_left hlt]; exact hk) ih

end Outline

theorem placesOf_append (earlier : List Element) :
    ∃ later, placesOf up earlier (xs ++ ys) = placesOf up earlier xs ++ placesOf up later ys := by
  induction xs generalizing earlier with
  | nil => exact ⟨earlier, rfl⟩
  | cons x xs ih =>
    obtain ⟨later, hl⟩ := ih ((element? x).toList ++ earlier)
    exact ⟨later, by rw [cons_append, placesOf, placesOf, hl, append_assoc]⟩

namespace Outline

/-- Every instance in `xs` has a source in the outline of `ns`, and the elements around it are the
sources of the elements around the instance. -/
def Mirrors (ns xs : List Node) : Prop :=
  ∀ (up : Place) (earlier : List Element) (ancestors : List Nat) (o : Outline),
    Lineage o ancestors (up.map (·.1)) → ∀ p ∈ placesOf up earlier xs,
      ∃ ks, Lineage (plantAll ancestors o ns) ks (p.map (·.1))

/-- The body `part` joins the outline on the way from `o` to `o'`. -/
def Joins (ancestors : List Nat) (o o' : Outline) (part : List Node) : Prop :=
  ∃ u, o.elements <+: u.elements ∧ (plantAll ancestors u part).elements <+: o'.elements

theorem Mirrors.skip (h : Mirrors ns xs) : Mirrors (n :: ns) xs := by
  intro up earlier anc o hup p hp
  exact h up earlier anc _ (hup.mono (prefix_plant n anc o)) p hp

theorem Mirrors.unfold (hj : ∀ anc o, Joins anc o (plant anc o n) part)
    (hpart : Mirrors part shown) (h : Mirrors (n :: ns) xs) : Mirrors (n :: ns) (shown ++ xs) := by
  intro up earlier anc o hup p hp
  obtain ⟨later, hsplit⟩ := placesOf_append earlier
  rw [hsplit, mem_append] at hp
  rcases hp with hp | hp
  · obtain ⟨u, hgrown, hjoined⟩ := hj anc o
    obtain ⟨ks, hks⟩ := hpart up earlier anc u (hup.mono hgrown) p hp
    exact ⟨ks, hks.mono (hjoined.trans (prefix_plantAll ns anc _))⟩
  · exact h up later anc o hup p hp

theorem Mirrors.element {inner : List Node} (hbody : Mirrors body inner) (h : Mirrors ns xs) :
    Mirrors (.element e body s :: ns) (.element e inner s :: xs) := by
  intro up earlier anc o hup p hp
  have hnext : (o.push (describe anc (o.children anc.head?).reverse e)).elements[
      o.elements.length]? = some (describe anc (o.children anc.head?).reverse e) := by
    simp
  have hself := Lineage.cons hnext (hup.mono (by simp))
  rw [placesOf, placesIn, cons_append, mem_cons, mem_append] at hp
  rcases hp with rfl | hp | hp
  · exact ⟨_, hself.mono ((prefix_plantAll body _ _).trans (prefix_plantAll ns _ _))⟩
  · obtain ⟨ks, hks⟩ := hbody ((e, earlier) :: up) [] _ _ hself p hp
    exact ⟨ks, hks.mono (prefix_plantAll ns _ _)⟩
  · exact h.skip up _ anc o hup p hp

section Parts

variable {h : String} {body alt main thenBody catchBody part : List Node} {th ch : Option String}
  {hasElse : Bool} {s : Text.Span}

theorem joins_each (anc : List Nat) (o : Outline) :
    Joins anc o (plant anc o (.each h body s)) body :=
  ⟨o, prefix_rfl, prefix_rfl⟩

theorem joins_cond (hp : part ∈ [[], body, alt]) (anc : List Nat) (o : Outline) :
    Joins anc o (plant anc o (.cond h body hasElse alt s)) part := by
  simp only [mem_cons, not_mem_nil, or_false] at hp
  rcases hp with rfl | rfl | rfl
  · exact ⟨o, prefix_rfl, prefix_plant _ anc o⟩
  · exact ⟨o, prefix_rfl, prefix_plantAll alt anc _⟩
  · exact ⟨_, prefix_plantAll body anc o, prefix_rfl⟩

theorem joins_await (hp : part ∈ [[], main, thenBody, catchBody]) (anc : List Nat) (o : Outline) :
    Joins anc o (plant anc o (.await h main th thenBody ch catchBody s)) part := by
  simp only [mem_cons, not_mem_nil, or_false] at hp
  rcases hp with rfl | rfl | rfl | rfl
  · exact ⟨o, prefix_rfl, prefix_plant _ anc o⟩
  · refine ⟨o, prefix_rfl, ?_⟩
    exact (prefix_plantAll thenBody anc _).trans (prefix_plantAll catchBody anc _)
  · exact ⟨_, prefix_plantAll main anc o, prefix_plantAll catchBody anc _⟩
  · refine ⟨_, ?_, prefix_rfl⟩
    exact (prefix_plantAll main anc o).trans (prefix_plantAll thenBody anc _)

end Parts

theorem mirrors_of_expands (h : Expands ns xs) : Mirrors ns xs := by
  induction h with
  | nil =>
    intro up earlier anc o _ p hp
    cases hp
  | @plain n ns xs hn _ ih =>
    intro up earlier anc o hup p hp
    have hnone : placesIn up earlier n = [] := by
      cases n with
      | element => cases hn
      | _ => rfl
    rw [placesOf, hnone, nil_append] at hp
    exact ih.skip up _ anc o hup p hp
  | element _ _ ihbody ih => exact ihbody.element ih
  | done _ ih => exact ih.skip
  | again _ _ ihcopy ih => exact ihcopy.unfold joins_each ih
  | branch hpart _ _ ihpart ih => exact ihpart.unfold (joins_cond hpart) ih.skip
  | outcome hpart _ _ ihpart ih => exact ihpart.unfold (joins_await hpart) ih.skip

/-! ## Matches -/

theorem holds_describe (c : Compound) : c.holds (describe anc earlier e) = c.accepts e := by
  rw [describe_eq]
  rfl

theorem Lineage.behind (h : Lineage o ks (es ++ fs)) :
    ∃ front back, ks = front ++ back ∧ Lineage o back fs := by
  induction es generalizing ks with
  | nil => exact ⟨[], ks, rfl, h⟩
  | cons e es ih =>
    cases h with
    | @cons k ks _ _ _ _ h =>
      obtain ⟨front, back, rfl, hb⟩ := ih h
      exact ⟨k :: front, back, rfl, hb⟩

theorem candidate_of_reaches (hr : r.looksUp = true) (h : Reaches r ((e, before) :: up) q)
    (hl : Lineage o ks (up.map (·.1))) (hq : q ≠ []) :
    ∃ j js, j ∈ candidates (describe ks earlier e) r ∧ Lineage o (j :: js) (q.map (·.1)) := by
  have hancestors : (describe ks earlier e).ancestors = ks := by rw [describe_eq]
  cases h with
  | descendant nearer =>
    rw [map_append] at hl
    obtain ⟨front, back, rfl, hback⟩ := hl.behind
    obtain ⟨x, q, rfl⟩ := exists_cons_of_ne_nil hq
    cases hback with
    | @cons j js _ _ _ hj hjs =>
      refine ⟨j, js, ?_, .cons hj hjs⟩
      simp [candidates, hancestors]
  | child =>
    obtain ⟨x, q, rfl⟩ := exists_cons_of_ne_nil hq
    cases hl with
    | @cons j js _ _ _ hj hjs =>
      refine ⟨j, js, ?_, .cons hj hjs⟩
      simp [candidates, StaticElement.parent, hancestors]
  | adjacent => cases hr
  | sibling => cases hr

theorem chain_of_fits (h : Fits cs p) (hr : ∀ c ∈ cs, c.relation.looksUp = true)
    (hl : Lineage o (k :: ks) (p.map (·.1))) : Chain o (fun _ => True) cs k := by
  induction h generalizing k ks with
  | @first c e _ up hc =>
    cases hl with
    | cons hk _ => exact .start hk ((holds_describe c).trans hc) trivial
  | @behind e before up q cs c hc hreach hfits ih =>
    cases hl with
    | @cons _ _ earlier _ _ hk hup =>
      have hq : q ≠ [] := by
        rintro rfl
        cases hfits
      obtain ⟨j, js, hj, hjs⟩ :=
        candidate_of_reaches (hr c mem_cons_self) hreach hup hq
      refine .before hk ((holds_describe c).trans hc) trivial hj (ih ?_ hjs)
      exact fun x hx => hr x (.tail c hx)

end Outline

/-- Static matching covers every forest that a component can show: an instance of an element that
matches a selector without sibling combinators has its source among the reported elements. -/
theorem select_covers_expansions (root : Root) (xs : List Node) (hx : Expands root.body xs)
    (s : Selector) (hs : LooksUp s) (chain : List Compound) (hc : compounds s = .ok chain)
    (e : Element) (earlier : List Element) (up : Place)
    (hp : (e, earlier) :: up ∈ placesOf [] [] xs) (hm : Fits chain ((e, earlier) :: up)) :
    ∃ ms, (Outline.ofRoot root).select s = .ok ms ∧ ∃ m ∈ ms, m.node = e.id := by
  obtain ⟨ks, hks⟩ := Outline.mirrors_of_expands hx [] [] [] {} .nil _ hp
  cases hks with
  | @cons k ks before _ _ hk hup =>
    have hlook : ∀ c ∈ chain, c.relation.looksUp = true :=
      looksUp_compoundsFrom hs (by simp) rfl (compounds_eq_ok hc)
    have hchain := Outline.chain_of_fits hm hlook (.cons hk hup)
    obtain ⟨path, hpath⟩ := hchain.matchAt
    have hlt := (List.getElem?_eq_some_iff.mp hk).1
    have hsource : (Outline.ofRoot root).sourceAt k = e.id := by
      change (Option.map _ (Outline.plantAll [] {} root.body).elements[k]?).getD 0 = e.id
      rw [hk, Option.map_some, Option.getD_some, Outline.source_describe]
    refine ⟨_, by rw [Outline.select, hc]; rfl,
      ⟨(Outline.ofRoot root).sourceAt k, path.map (Outline.ofRoot root).sourceAt⟩, ?_, hsource⟩
    exact List.mem_filterMap.mpr ⟨k, List.mem_range.mpr hlt, congrArg (Option.map _) hpath⟩

/-! A list whose entries are shown in a loop, with a mark in those that need one. -/

section Sample

def sampleElement (id : Nat) (name : String) : Element :=
  { id, name, arg := none, attributes := [], openTag := "", closed := false, void := false }

def listMark : Node := .element (sampleElement 2 "b") [] ⟨0, 0⟩

def markedList : Root where
  body := [.element (sampleElement 0 "ul")
    [.each "#each xs as x" [.element (sampleElement 1 "li")
      [.cond "#if x" [listMark] false [] ⟨0, 0⟩] ⟨0, 0⟩] ⟨0, 0⟩] ⟨0, 0⟩]
  span := ⟨0, 0⟩

def markedForest : List Node :=
  [.element (sampleElement 0 "ul")
    [.element (sampleElement 1 "li") [] ⟨0, 0⟩,
      .element (sampleElement 1 "li") [listMark] ⟨0, 0⟩] ⟨0, 0⟩]

def markSelector : Selector :=
  [{ kind := .type "ul" }, { kind := .combinator .child }, { kind := .type "li" },
    { kind := .space }, { kind := .type "b" }]

def markPlace : Place :=
  [(sampleElement 2 "b", []), (sampleElement 1 "li", [sampleElement 1 "li"]),
    (sampleElement 0 "ul", [])]

theorem markedForest_expands : Expands markedList.body markedForest := by
  have hbare : Expands [.cond "#if x" [listMark] false [] ⟨0, 0⟩] [] :=
    @Expands.branch [listMark] [] [] [] [] [] "#if x" false ⟨0, 0⟩ (by simp) .nil .nil
  have hmarked : Expands [.cond "#if x" [listMark] false [] ⟨0, 0⟩] [listMark] :=
    @Expands.branch [listMark] [] [listMark] [listMark] [] [] "#if x" false ⟨0, 0⟩ (by simp)
      (.element .nil .nil) .nil
  exact .element (.again (.element hbare .nil) (.again (.element hmarked .nil) (.done .nil))) .nil

theorem select_covers_expansions_markedList :
    Expands markedList.body markedForest ∧ LooksUp markSelector ∧
      markPlace ∈ placesOf [] [] markedForest ∧
      ∃ ms, (Outline.ofRoot markedList).select markSelector = .ok ms ∧ ∃ m ∈ ms, m.node = 2 := by
  have hlook : LooksUp markSelector := by decide
  have hplace : markPlace ∈ placesOf [] [] markedForest := by decide
  have hfits : Fits [{ tag := some "b" }, { relation := .child, tag := some "li" },
      { tag := some "ul" }] markPlace := by
    refine .behind (by decide) (.descendant []) (.behind (by decide) .child (.first (by decide)))
  exact ⟨markedForest_expands, hlook, hplace,
    select_covers_expansions markedList markedForest markedForest_expands markSelector hlook _ rfl
      _ _ _ hplace hfits⟩

end Sample

end ReactiveMarkup.Style
