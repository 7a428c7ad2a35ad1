import ReactiveMarkup.Proofs.Forest

/-! # Kept templates

Which tree stands at a node, and that a fragment of a text of markup holds the tree of that text, as
long as no node of a kept template is touched.
-/

namespace ReactiveMarkup.Reactive

open List Nat

namespace Document

variable {ρ : Type} {d e : Document ρ} {page : PageReader}

/-! ## Trees at nodes -/

mutual

/-- The tree stands at the node, on nodes that are `ok`, each numbered before those below it. -/
def Holds (d : Document ρ) (ok : NodeId → Prop) : Rose Content → Nat → Prop
  | .node c cs, i =>
    ok i ∧ d.content i = c ∧ (∀ j : Nat, j ∈ d.children i → i < j) ∧ HoldsAll d ok cs (d.children i)

def HoldsAll (d : Document ρ) (ok : NodeId → Prop) : List (Rose Content) → List NodeId → Prop
  | [], is => is = []
  | t :: ts, is => ∃ i rest, is = i :: rest ∧ Holds d ok t i ∧ HoldsAll d ok ts rest

end

/-- The nodes that are `ok` have their contents and children in `e` as well. -/
def Agrees (ok ok' : NodeId → Prop) (d e : Document ρ) : Prop :=
  ∀ j : Nat, ok j → ok' j ∧ e.content j = d.content j ∧ e.children j = d.children j

mutual

theorem Holds.agrees (ha : Agrees ok ok' d e) :
    ∀ (t : Rose Content) (i : NodeId), d.Holds ok t i → e.Holds ok' t i
  | .node c cs, i, ⟨hi, hc, hlt, hcs⟩ => by
    obtain ⟨hi', hcontent, hchildren⟩ := ha i hi
    refine ⟨hi', hcontent.trans hc, ?_, ?_⟩
    · rw [hchildren]
      exact hlt
    · rw [hchildren]
      exact HoldsAll.agrees ha cs _ hcs

theorem HoldsAll.agrees (ha : Agrees ok ok' d e) :
    ∀ (ts : List (Rose Content)) (is : List NodeId), d.HoldsAll ok ts is → e.HoldsAll ok' ts is
  | [], _, h => h
  | t :: ts, _, ⟨i, rest, rfl, ht, hts⟩ =>
    ⟨i, rest, rfl, Holds.agrees ha t i ht, HoldsAll.agrees ha ts rest hts⟩

end

mutual

theorem Holds.above :
    ∀ (t : Rose Content) (i : Nat), d.Holds ok t i → n < i → d.Holds (fun j => ok j ∧ n < j) t i
  | .node _ cs, _, ⟨hi, hc, hlt, hcs⟩, hn =>
    ⟨⟨hi, hn⟩, hc, hlt, HoldsAll.above cs _ hcs fun j hj => lt_trans hn (hlt j hj)⟩

theorem HoldsAll.above : ∀ (ts : List (Rose Content)) (is : List NodeId), d.HoldsAll ok ts is →
      (∀ j : Nat, j ∈ is → n < j) → d.HoldsAll (fun j => ok j ∧ n < j) ts is
  | [], _, h, _ => h
  | t :: ts, _, ⟨i, rest, rfl, ht, hts⟩, hn =>
    ⟨i, rest, rfl, Holds.above t i ht (hn i mem_cons_self),
      HoldsAll.above ts rest hts fun j hj => hn j (.tail i hj)⟩

end

theorem HoldsAll.mem (h : d.HoldsAll ok ts is) (hi : i ∈ is) : ∃ t ∈ ts, d.Holds ok t i := by
  induction ts generalizing is with
  | nil =>
    obtain rfl : is = [] := h
    cases hi
  | cons t ts ih =>
    obtain ⟨j, rest, rfl, ht, hts⟩ := h
    rcases mem_cons.mp hi with rfl | hi
    · exact ⟨t, mem_cons_self, ht⟩
    · obtain ⟨u, hu, hi⟩ := ih hts hi
      exact ⟨u, .tail t hu, hi⟩

theorem Holds.root : ∀ {t : Rose Content}, d.Holds ok t i → ok i
  | .node _ _, h => h.1

theorem Holds.parts {P : Rose Content → Prop} (hP : ∀ c ts, P (.node c ts) → ∀ t ∈ ts, P t)
    (h : d.Holds ok t i) (ht : P t) :
    ∀ j ∈ (d.idsTo n i).preorder, ∃ u, P u ∧ d.Holds ok u j := by
  induction n generalizing t i with
  | zero =>
    intro j hj
    rw [mem_singleton.mp hj]
    exact ⟨t, ht, h⟩
  | succ n ih =>
    intro j hj
    obtain rfl | ⟨k, hk, hj⟩ := mem_idsTo_succ.mp hj
    · exact ⟨t, ht, h⟩
    · obtain ⟨c, ts⟩ := t
      obtain ⟨u, hu, hk⟩ := h.2.2.2.mem hk
      exact ih hk (hP c ts ht u hu) j hj

theorem Holds.nodes (h : d.Holds ok t i) : ∀ j ∈ (d.idsTo n i).preorder, ok j := by
  intro j hj
  obtain ⟨u, -, hu⟩ := h.parts (P := fun _ => True) (fun _ _ _ _ _ => trivial) trivial j hj
  exact hu.root

mutual

theorem Holds.idsTo (hok : ∀ j : Nat, ok j → j < d.nodes.size) :
    ∀ (t : Rose Content) (i n : Nat), d.Holds ok t i → d.nodes.size ≤ n + i →
      (d.idsTo n i).map d.content = t
  | .node c cs, i, n, ⟨hi, hc, hlt, hcs⟩, hn => by
    have hi := hok i hi
    obtain ⟨m, rfl⟩ : ∃ m, n = m + 1 := ⟨n - 1, by omega⟩
    have hbelow : Rose.mapAll d.content ((d.children i).map (d.idsTo m)) = cs := by
      refine HoldsAll.idsTo hok cs _ m hcs fun j hj => ?_
      have := hlt j hj
      omega
    rw [Document.idsTo, Rose.map, hc, hbelow]

theorem HoldsAll.idsTo (hok : ∀ j : Nat, ok j → j < d.nodes.size) :
    ∀ (ts : List (Rose Content)) (is : List NodeId) (n : Nat), d.HoldsAll ok ts is →
      (∀ j : Nat, j ∈ is → d.nodes.size ≤ n + j) → Rose.mapAll d.content (is.map (d.idsTo n)) = ts
  | [], _, _, rfl, _ => rfl
  | t :: ts, _, n, ⟨i, rest, rfl, ht, hts⟩, hn => by
    rw [map_cons, Rose.mapAll, Holds.idsTo hok t i n ht (hn i mem_cons_self),
      HoldsAll.idsTo hok ts rest n hts fun j hj => hn j (.tail i hj)]

end

theorem Holds.contents (h : d.Holds ok t i) (hok : ∀ j : Nat, ok j → j < d.nodes.size) :
    d.contents i = t :=
  Holds.idsTo hok t i d.nodes.size h (le_add_right _ _)

/-! ## Planted trees -/

theorem content_of_node (h : e.nodes[j]? = d.nodes[j]?) : e.content j = d.content j := by
  rw [content, content, h]

theorem children_of_node (h : e.nodes[j]? = d.nodes[j]?) : e.children j = d.children j := by
  rw [children, children, h]

theorem content_link : (d.link p n).content j = d.content j := by
  unfold link
  rw [content_update_of_eq p j _ (by simp), content_update_of_eq n j _ (by simp)]

mutual

theorem templates_plant : ∀ (t : Rose Content) (d : Document ρ),
    (plant t d).2.templates = d.templates
  | .node c cs, d => templates_plantAll cs (d.add c).2

theorem templates_plantAll : ∀ (ts : List (Rose Content)) (d : Document ρ),
    (plantAll p ts d).templates = d.templates
  | [], _ => rfl
  | t :: ts, d => by
    rw [plantAll, templates_plantAll ts, ← templates_plant t d]
    rfl

end

mutual

theorem plant_holds : ∀ (t : Rose Content) (d : Document ρ), d.Linked →
    (∀ c ∈ Rose.preorderAll t.children, c.kind ≠ .fragment) →
    (plant t d).2.Holds (fun j : Nat => d.nodes.size ≤ j ∧ j < (plant t d).2.nodes.size) t
      d.nodes.size
  | .node c cs, d, h, hc => by
    obtain ⟨is, hchildren, hcontent, hholds, hnew⟩ :=
      plantAll_holds cs (d.add c).2 d.nodes.size (linked_add h) (by simp) hc
    have hgrown := (plant_copied (.node c cs) d h hc).2.grown
    have hnil : (d.add c).2.children d.nodes.size = [] := by
      rw [children_add, children]
      simp
    rw [hnil, nil_append] at hchildren
    change (plantAll d.nodes.size cs (d.add c).2).Holds _ _ _
    refine ⟨⟨le_refl _, hgrown⟩, ?_, ?_, ?_⟩
    · rw [hcontent, content, getElem?_add, if_pos rfl]
      rfl
    · intro j hj
      rw [hchildren] at hj
      have := hnew j hj
      rw [size_add] at this
      omega
    · rw [hchildren]
      refine HoldsAll.agrees ?_ cs is hholds
      rintro j ⟨hlow, hhigh⟩
      rw [size_add] at hlow
      exact ⟨⟨by omega, hhigh⟩, rfl, rfl⟩

theorem plantAll_holds : ∀ (ts : List (Rose Content)) (d : Document ρ) (p : Nat), d.Linked →
    p < d.nodes.size → (∀ c ∈ Rose.preorderAll ts, c.kind ≠ .fragment) →
    ∃ is, (plantAll p ts d).children p = d.children p ++ is ∧
      (plantAll p ts d).content p = d.content p ∧
      (plantAll p ts d).HoldsAll
        (fun j : Nat => d.nodes.size ≤ j ∧ j < (plantAll p ts d).nodes.size) ts is ∧
      ∀ j : Nat, j ∈ is → d.nodes.size ≤ j
  | [], d, p, _, _, _ => ⟨[], by simp [plantAll], rfl, rfl, by simp⟩
  | t :: ts, d, p, h, hp, hts => by
    obtain ⟨hroot, hbelow, hrest⟩ := Rose.forall_preorderAll_cons.mp hts
    obtain ⟨-, hcopied⟩ := plant_copied t d h hbelow
    have hfirst := plant_holds t d h hbelow
    have hpe : p < (plant t d).2.nodes.size := lt_trans hp hcopied.grown
    have hlinked := linked_link hcopied.linked hpe hcopied.grown
      hcopied.loose (by rw [hcopied.kind]; exact hroot)
    have hplanted := plantAll_planted ts ((plant t d).2.link p d.nodes.size) p hlinked
      (by simpa using hpe) hrest
    obtain ⟨is, hchildren, hcontent, hholds, hnew⟩ :=
      plantAll_holds ts ((plant t d).2.link p d.nodes.size) p hlinked (by simpa using hpe) hrest
    rw [plantAll_cons]
    have hsize := hplanted.grown
    have hgrown := hcopied.grown
    rw [size_link] at hsize
    refine ⟨d.nodes.size :: is, ?_, ?_, ⟨d.nodes.size, is, rfl, ?_, ?_⟩, ?_⟩
    · rw [hchildren, children_link hpe, if_pos rfl, hcopied.children_of_lt hp]
      simp
    · rw [hcontent, content_link, content_of_node (hcopied.others p hp)]
    · -- what comes later changes no node of the first tree but its root, which gets a parent
      refine Holds.agrees ?_ t _ hfirst
      rintro j ⟨hlow, hhigh⟩
      have hne : j ≠ p := by omega
      have hsame := hplanted.others j (by simpa using hhigh) hne
      refine ⟨⟨hlow, by omega⟩, ?_, ?_⟩
      · rw [content_of_node hsame, content_link]
      · rw [children_of_node hsame, children_link hpe, if_neg hne]
    · refine HoldsAll.agrees ?_ ts is hholds
      rintro j ⟨hlow, hhigh⟩
      rw [size_link] at hlow
      exact ⟨⟨by omega, hhigh⟩, rfl, rfl⟩
    · intro j hj
      rcases mem_cons.mp hj with rfl | hj
      · exact le_refl _
      · have := hnew j hj
        rw [size_link] at this
        omega

end

theorem clone_holds (h : d.Linked) (i : NodeId) :
    (d.clone i true).2.Holds (fun j : Nat => d.nodes.size ≤ j ∧ j < (d.clone i true).2.nodes.size)
      (d.contents i) d.nodes.size :=
  plant_holds (d.contents i) d h (plain_contents h)

/-! ## Fragments of markup -/

def markupTree (page : PageReader) (html : String) (svg : Bool) : Rose Content :=
  .node { kind := .fragment } (page.trees html svg)

def Away (d : Document ρ) (avoid : NodeId → Prop) (j : Nat) : Prop := j < d.nodes.size ∧ ¬ avoid j

/-- Each kept template holds the tree of its text, and none contains a node that is to be
avoided. -/
def Faithful (d : Document ρ) (page : PageReader) (avoid : NodeId → Prop) : Prop :=
  ∀ t ∈ d.templates, d.Holds (d.Away avoid) (markupTree page t.1.1 t.1.2) t.2

theorem Faithful.agrees (hf : d.Faithful page avoid) (ht : e.templates = d.templates)
    (ha : Agrees (d.Away avoid) (e.Away avoid') d e) : e.Faithful page avoid' := by
  intro t hm
  rw [ht] at hm
  exact Holds.agrees ha _ _ (hf t hm)

theorem agrees_of_imp (ha : ∀ q, avoid' q → avoid q) : Agrees (d.Away avoid) (d.Away avoid') d d :=
  fun _ hj => ⟨⟨hj.1, fun hq => hj.2 (ha _ hq)⟩, rfl, rfl⟩

theorem Faithful.mono (hf : d.Faithful page avoid) (ha : ∀ q, avoid' q → avoid q) :
    d.Faithful page avoid' :=
  hf.agrees rfl (agrees_of_imp ha)

theorem agrees_grown (hn : d.nodes.size ≤ e.nodes.size)
    (hsame : ∀ n < d.nodes.size, e.nodes[n]? = d.nodes[n]?) (hf : d.nodes.size ≤ f) :
    Agrees (d.Away avoid) (e.Away fun q => avoid q ∨ q = f) d e := by
  rintro j ⟨hj, hnot⟩
  have hne : j ≠ f := Nat.ne_of_lt (Nat.lt_of_lt_of_le hj hf)
  exact ⟨⟨lt_of_lt_of_le hj hn, by simp [hnot, hne]⟩, content_of_node (hsame j hj),
    children_of_node (hsame j hj)⟩

theorem Faithful.copied (hf : d.Faithful page avoid) (hc : Copied c d e)
    (ht : e.templates = d.templates) : e.Faithful page fun q => avoid q ∨ q = d.nodes.size :=
  hf.agrees ht (agrees_grown (le_of_lt hc.grown) hc.others (le_refl _))

/-- What is true of a document `e` to which a fragment `f` of a text of markup has been added. -/
structure Fetched (page : PageReader) (html : String) (svg : Bool) (d : Document ρ) (f : NodeId)
    (e : Document ρ) : Prop where
  linked : e.Linked
  new : d.nodes.size ≤ f
  known : f < e.nodes.size
  others : ∀ n < d.nodes.size, e.nodes[n]? = d.nodes[n]?
  kind : e.kind f = .fragment
  holds : e.Holds (fun j : Nat => d.nodes.size ≤ j ∧ j < e.nodes.size) (markupTree page html svg) f

theorem markupTree_plain (html : String) (svg : Bool) :
    ∀ c ∈ Rose.preorderAll (markupTree page html svg).children, c.kind ≠ .fragment :=
  page.plain_trees.all

def keep (d : Document ρ) (html : String) (svg : Bool) (t : NodeId) : Document ρ :=
  { d with templates := d.templates ++ [((html, svg), t)] }

theorem Linked.keep (h : d.Linked) {html : String} {svg : Bool} {t : NodeId} :
    (d.keep html svg t).Linked :=
  ⟨h.parent_of_mem, h.mem_of_parent, h.nodup, h.plain⟩

theorem Faithful.keep (hf : d.Faithful page avoid) {html : String}
    (ht : d.Holds (d.Away avoid) (markupTree page html svg) t) :
    (d.keep html svg t).Faithful page avoid := by
  have hsame : Agrees (d.Away avoid) ((d.keep html svg t).Away avoid) d (d.keep html svg t) :=
    fun _ hj => ⟨hj, rfl, rfl⟩
  exact forall_mem_append.mpr ⟨fun x hx => Holds.agrees hsame _ _ (hf x hx),
    forall_mem_singleton.mpr (Holds.agrees hsame _ _ ht)⟩

section

variable (h : d.Linked) (hf : d.Faithful page avoid) (hold : ∀ q : Nat, avoid q → q < d.nodes.size)
  (html : String) (svg : Bool)
include h hf hold html

/-- A text is read once, and from then on its kept template is copied. Either way its tree is
planted. -/
theorem fragment_eq :
    ∃ k : Document ρ, d.fragment page html svg = plant (markupTree page html svg) k ∧ k.Linked ∧
      k.Faithful page avoid ∧ d.nodes.size ≤ k.nodes.size ∧
      ∀ n < d.nodes.size, k.nodes[n]? = d.nodes[n]? := by
  unfold Document.fragment
  split
  · next t hfind =>
    have hkey : t.1 = (html, svg) := by simpa using find?_some hfind
    have hholds := hf t (mem_of_find?_eq_some hfind)
    rw [hkey] at hholds
    have hcontents := hholds.contents fun j hj => hj.1
    exact ⟨d, by rw [clone, if_pos rfl, hcontents], h, hf, le_refl _, fun _ _ => rfl⟩
  · obtain ⟨hroot, hcopied⟩ := plant_copied (markupTree page html svg) d h
      (markupTree_plain html svg)
    have hholds := plant_holds (markupTree page html svg) d h (markupTree_plain html svg)
    have hold' := hf.copied hcopied (templates_plant _ _)
    obtain ⟨e, he⟩ : ∃ e, plant (markupTree page html svg) d = (d.nodes.size, e) :=
      ⟨_, Prod.ext hroot rfl⟩
    have he' : plant (.node { kind := .fragment } (page.trees html svg)) d =
        (d.nodes.size, e) := he
    rw [he']
    change ∃ k : Document ρ, (e.keep html svg d.nodes.size).clone d.nodes.size true = _ ∧ _
    rw [he] at hcopied hholds hold'
    have hnew : (e.keep html svg d.nodes.size).Holds
        (fun j : Nat => d.nodes.size ≤ j ∧ j < e.nodes.size) (markupTree page html svg)
        d.nodes.size := by
      refine Holds.agrees ?_ _ _ hholds
      exact fun j hj => ⟨hj, rfl, rfl⟩
    -- the nodes to be avoided are older than the template
    have hkept : (e.keep html svg d.nodes.size).Faithful page avoid := by
      refine (hold'.mono fun _ hq => .inl hq).keep ?_
      refine Holds.agrees ?_ _ _ hholds
      rintro j ⟨hlow, hhigh⟩
      refine ⟨⟨hhigh, fun hq => ?_⟩, rfl, rfl⟩
      have := hold j hq
      omega
    have hcontents := hnew.contents fun j hj => hj.2
    refine ⟨e.keep html svg d.nodes.size, ?_, hcopied.linked.keep, hkept,
      le_of_lt hcopied.grown, hcopied.others⟩
    simp only [clone, if_true, hcontents]

theorem fragment_fetched :
    Fetched page html svg d (d.fragment page html svg).1 (d.fragment page html svg).2 ∧
      (d.fragment page html svg).2.Faithful page fun q =>
        avoid q ∨ q = (d.fragment page html svg).1 := by
  obtain ⟨k, heq, hlinked, hkept, hsize, hsame⟩ := fragment_eq h hf hold html svg
  obtain ⟨hroot, hcopied⟩ := plant_copied (markupTree page html svg) k hlinked
    (markupTree_plain html svg)
  have hholds := plant_holds (markupTree page html svg) k hlinked (markupTree_plain html svg)
  rw [heq, hroot]
  refine ⟨⟨hcopied.linked, hsize, hcopied.grown, ?_, hcopied.kind, ?_⟩,
    hkept.copied hcopied (templates_plant _ _)⟩
  · intro n hn
    rw [hcopied.others n (lt_of_lt_of_le hn hsize), hsame n hn]
  · exact Holds.agrees (fun j hj => ⟨⟨le_trans hsize hj.1, hj.2⟩, rfl, rfl⟩) _ _ hholds

end

/-! ## Changes of place -/

theorem children_detachAll_other (h : d.Linked) {ns : List NodeId}
    (hns : ∀ n ∈ ns, n ∈ d.children p) (hq : q ≠ p) :
    (ns.foldl detach d).children q = d.children q := by
  rw [children_detachAll h, filter_eq_self]
  intro x hx
  have hnot : x ∉ ns := fun hm => hq (h.same_parent hx (hns x hm))
  simpa using hnot

theorem children_giveAll_other (hq : q ≠ parent)
    (d : Document ρ) : (d.giveAll parent reference ns).children q = d.children q := by
  induction ns generalizing d with
  | nil => rfl
  | cons c ns ih =>
    -- a node without a parent is taken from no list
    have hdetach : (d.setParent c none).detach c = (d.setParent c none).setParent c none := by
      rw [detach_eq, parent?_setParent_none, if_pos rfl]
    refine (ih _).trans ?_
    change ((d.setParent c none).place parent c reference).children q = _
    rcases place_form with h | ⟨siblings, h⟩
    · rw [h, children_setParent]
    · rw [h, hdetach, children_setParent, Document.setChildren, children_update,
        if_neg (Ne.symm hq), children_setParent, children_setParent]

theorem children_insertFragment_other (hk : d.kind f = .fragment) (hp : q ≠ parent) (hf : q ≠ f) :
    (d.insertBefore parent f reference).children q = d.children q := by
  unfold Document.insertBefore
  split
  · rfl
  · change ((d.setChildren f []).giveAll parent reference (d.children f)).children q = _
    rw [children_giveAll_other hp, Document.setChildren, children_update, if_neg (Ne.symm hf)]

theorem agrees_detachAll {ns : List NodeId} (h : d.Linked) (hns : ∀ n ∈ ns, n ∈ d.children p) :
    Agrees (d.Away (· = p)) ((ns.foldl detach d).Away (· = p)) d (ns.foldl detach d) := by
  have hr := Rearranged.detachAll (d := d) ns
  rintro j ⟨hj, hne⟩
  exact ⟨⟨hr.size ▸ hj, hne⟩, hr.content j, children_detachAll_other h hns hne⟩

theorem agrees_insertFragment (hk : d.kind f = .fragment) (reference : Option NodeId) :
    Agrees (d.Away fun q => q = p ∨ q = f) ((d.insertBefore p f reference).Away (· = p)) d
      (d.insertBefore p f reference) := by
  have hr := Rearranged.insertBefore (d := d) p f reference
  rintro j ⟨hj, hne⟩
  obtain ⟨hp, hf⟩ := not_or.mp hne
  exact ⟨⟨hr.size ▸ hj, hp⟩, hr.content j, children_insertFragment_other hk hp hf⟩

theorem Faithful.detachAll {ns : List NodeId} (h : d.Linked) (hf : d.Faithful page (· = p))
    (hns : ∀ n ∈ ns, n ∈ d.children p) : (ns.foldl detach d).Faithful page (· = p) :=
  hf.agrees (Rearranged.detachAll ns).templates (agrees_detachAll h hns)

theorem Faithful.insertFragment (hk : d.kind f = .fragment)
    (hf : d.Faithful page fun q => q = p ∨ q = f) :
    (d.insertBefore p f reference).Faithful page (· = p) :=
  hf.agrees (Rearranged.insertBefore p f reference).templates (agrees_insertFragment hk reference)

end Document

end ReactiveMarkup.Reactive
