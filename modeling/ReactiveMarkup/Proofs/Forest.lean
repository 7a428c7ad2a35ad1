import Mathlib.Logic.Relation
import ReactiveMarkup.Proofs.Copies
import ReactiveMarkup.Proofs.Ranges
import ReactiveMarkup.Reactive.Fragment.Tree

/-! # Documents are forests

However a document is edited, its nodes form a forest, as long as no node is put into itself or into
one that stands below it: parents and lists of children agree, no fragment has a parent, and no node
is above itself.
-/

namespace ReactiveMarkup.Reactive

open List Rose

namespace Document

variable {ρ : Type} {d e : Document ρ}

/-! ## Ancestors -/

def IsParent (d : Document ρ) (c p : NodeId) : Prop := d.parent? c = some p

def Under (d : Document ρ) (c a : NodeId) : Prop := Relation.ReflTransGen d.IsParent c a

def Acyclic (d : Document ρ) : Prop := ∀ i, ¬ Relation.TransGen d.IsParent i i

theorem not_under_of_loose (hl : d.parent? c = none) (hne : c ≠ a) : ¬ d.Under c a := by
  intro hu
  rcases hu.cases_head with heq | ⟨p, hp, _⟩
  · exact hne heq
  · rw [IsParent, hl] at hp
    cases hp

theorem not_under_of_childless (h : d.Linked) (hc : d.children a = []) (hne : c ≠ a) :
    ¬ d.Under c a := by
  intro hu
  rcases hu.cases_tail with heq | ⟨b, _, hb⟩
  · exact hne heq.symm
  · have hm := h.mem_of_parent hb
    rw [hc] at hm
    cases hm

theorem Acyclic.gather (ha : d.Acyclic) (parent : NodeId) (ns : List NodeId)
    (hp : ∀ c p, e.IsParent c p → (c ∈ ns ∧ p = parent) ∨ d.IsParent c p)
    (hn : ∀ n ∈ ns, ¬ d.Under parent n) : e.Acyclic := by
  -- a way up in `e` is one in `d`, or leads to a moved node and goes on from the parent
  have hway : ∀ {a b}, Relation.TransGen e.IsParent a b →
      Relation.TransGen d.IsParent a b ∨ ∃ n ∈ ns, d.Under a n ∧ d.Under parent b := by
    intro a b hab
    induction hab with
    | single hab =>
      rcases hp _ _ hab with ⟨hm, rfl⟩ | hold
      · exact Or.inr ⟨a, hm, .refl, .refl⟩
      · exact Or.inl (.single hold)
    | @tail b c _ hbc ih =>
      rcases hp _ _ hbc with ⟨hm, rfl⟩ | hold
      · rcases ih with hab | ⟨_, _, _, hpb⟩
        · exact Or.inr ⟨b, hm, hab.to_reflTransGen, .refl⟩
        · exact absurd hpb (hn b hm)
      · rcases ih with hab | ⟨n, hm, han, hpb⟩
        · exact Or.inl (hab.tail hold)
        · exact Or.inr ⟨n, hm, han, hpb.tail hold⟩
  intro i hi
  rcases hway hi with hold | ⟨n, hm, hin, hpi⟩
  · exact ha i hold
  · exact hn n hm (hpi.trans hin)

theorem Acyclic.of_fewer (ha : d.Acyclic) (hp : ∀ c p, e.IsParent c p → d.IsParent c p) :
    e.Acyclic :=
  ha.gather 0 [] (fun c p h => Or.inr (hp c p h)) (by simp)

structure Forest (d : Document ρ) : Prop where
  linked : d.Linked
  acyclic : d.Acyclic

theorem forest_empty : ({} : Document ρ).Forest where
  linked := linked_empty
  acyclic := by
    intro i hi
    obtain ⟨p, hp, _⟩ := Relation.TransGen.head'_iff.mp hi
    simp [IsParent, parent?] at hp

/-! ## Taking out -/

theorem Forest.detach (h : d.Forest) : (d.detach i).Forest where
  linked := linked_detach h.linked
  acyclic := by
    refine h.acyclic.of_fewer fun c p hp => ?_
    rw [IsParent, parent?_detach] at hp
    split at hp
    · cases hp
    · exact hp

theorem Forest.detachAll (h : d.Forest) (ns : List NodeId) : (ns.foldl Document.detach d).Forest := by
  induction ns generalizing d with
  | nil => exact h
  | cons n ns ih => exact ih h.detach

/-! ## Putting in -/

theorem linked_insertBefore (h : d.Linked) (hp : parent < d.nodes.size)
    (hn : n < d.nodes.size) : (d.insertBefore parent n reference).Linked ∧
      ∀ c p, (d.insertBefore parent n reference).IsParent c p →
        (p = parent ∧ (c = n ∨ c ∈ d.children n)) ∨ d.IsParent c p := by
  by_cases hr : reference = some n
  · rw [Document.insertBefore, if_pos hr]
    exact ⟨h, fun _ _ hcp => Or.inr hcp⟩
  by_cases hk : d.kind n = .fragment
  · obtain ⟨hlinked, -, hpar⟩ := linked_fragment h hp hn hk hr
    refine ⟨hlinked, fun c p hcp => ?_⟩
    rw [IsParent, hpar] at hcp
    split at hcp
    · next hc =>
      split at hcp
      · cases hcp
      · exact Or.inl ⟨(Option.some.inj hcp).symm, Or.inr hc⟩
    · exact Or.inr hcp
  · rw [insertBefore_plain hk]
    refine ⟨linked_place h hp hn hk, fun c p hcp => ?_⟩
    rw [IsParent, parent?_place h.parent_of_mem hn hr] at hcp
    split at hcp
    · next hcn => exact Or.inl ⟨(Option.some.inj hcp).symm, Or.inl hcn⟩
    · exact Or.inr hcp

theorem Forest.insertBefore (h : d.Forest) (hp : parent < d.nodes.size) (hn : n < d.nodes.size)
    (hu : reference ≠ some n → ¬ d.Under parent n) :
    (d.insertBefore parent n reference).Forest := by
  by_cases hr : reference = some n
  · rw [Document.insertBefore, if_pos hr]
    exact h
  have hu := hu hr
  obtain ⟨hlinked, hpar⟩ := linked_insertBefore h.linked hp hn
  refine ⟨hlinked, h.acyclic.gather parent (n :: d.children n) (fun c p hcp => ?_) ?_⟩
  · rcases hpar c p hcp with ⟨hpp, hc⟩ | hold
    · exact Or.inl ⟨mem_cons.mpr hc, hpp⟩
    · exact Or.inr hold
  · intro c hc huc
    rcases mem_cons.mp hc with rfl | hc
    · exact hu huc
    · exact hu (huc.tail (h.linked.parent_of_mem hc))

theorem Forest.replaceChild (h : d.Forest) (hp : parent < d.nodes.size) (hn : n < d.nodes.size)
    (hu : n ≠ old → ¬ d.Under parent n) : (d.replaceChild parent n old).Forest := by
  unfold Document.replaceChild
  split
  · exact h
  · next hne => exact (h.insertBefore hp hn fun _ => hu hne).detach

/-! ## New nodes -/

theorem Forest.add (h : d.Forest) : (d.add c).2.Forest where
  linked := linked_add h.linked
  acyclic := h.acyclic.of_fewer fun x p hp => by rwa [IsParent, parent?_add] at hp

theorem not_under_new (h : d.Linked) (hi : i < d.nodes.size) :
    ¬ (d.add c).2.Under i d.nodes.size := by
  refine not_under_of_childless (linked_add h) ?_ hi.ne
  rw [children_add]
  simp [children]

theorem Copied.lt_of_under (hc : Copied c d e) (h : d.Linked) (hp : p < d.nodes.size)
    (hu : e.Under p a) : a < d.nodes.size := by
  induction hu with
  | refl => exact hp
  | tail _ hab ih =>
    rw [IsParent, hc.parent?_of_lt ih] at hab
    exact lt_size_of_child (h.mem_of_parent hab)

theorem Forest.link (h : d.Forest) (hp : p < d.nodes.size) (hn : n < d.nodes.size)
    (hl : d.parent? n = none) (hk : d.kind n ≠ .fragment) (hu : ¬ d.Under p n) :
    (d.link p n).Forest where
  linked := linked_link h.linked hp hn hl hk
  acyclic := by
    refine h.acyclic.gather p [n] (fun c q hcq => ?_) (by simpa using hu)
    rw [IsParent, parent?_link hn] at hcq
    split at hcq
    · next hcn => exact Or.inl ⟨by simp [hcn], (Option.some.inj hcq).symm⟩
    · exact Or.inr hcq

mutual

theorem plant_forest : ∀ (t : Rose Content) (d : Document ρ), d.Forest →
    (∀ c ∈ preorderAll t.children, c.kind ≠ .fragment) → (plant t d).2.Forest
  | .node c cs, d, h, hc => plantAll_forest cs (d.add c).2 d.nodes.size h.add (by simp) hc

theorem plantAll_forest : ∀ (ts : List (Rose Content)) (d : Document ρ) (p : NodeId), d.Forest →
    p < d.nodes.size → (∀ c ∈ preorderAll ts, c.kind ≠ .fragment) → (plantAll p ts d).Forest
  | [], d, p, h, _, _ => h
  | t :: ts, d, p, h, hp, hts => by
    obtain ⟨hroot, hbelow, hrest⟩ := forall_preorderAll_cons.mp hts
    obtain ⟨-, hcopied⟩ := plant_copied t d h.linked hbelow
    have hlinked := (plant_forest t d h hbelow).link
      (hp.trans hcopied.grown) hcopied.grown hcopied.loose (hcopied.kind ▸ hroot)
      (fun hu => Nat.lt_irrefl _ (hcopied.lt_of_under h.linked hp hu))
    rw [plantAll_cons]
    exact plantAll_forest ts _ p hlinked (by simpa using hp.trans hcopied.grown) hrest

end

theorem Forest.clone (h : d.Forest) : (d.clone i deep).2.Forest := by
  unfold Document.clone
  split
  · exact plant_forest _ _ h (plain_contents h.linked)
  · exact h.add

/-! ## Texts -/

theorem Forest.updateContent (h : d.Forest) (hf : ∀ c, (f c).kind ≠ .fragment) :
    (d.updateContent i f).Forest where
  linked := h.linked.update (fun _ => rfl) (fun _ => rfl) fun n hc => absurd hc (hf n.content)
  acyclic := by
    refine h.acyclic.of_fewer fun c p hcp => ?_
    exact (parent?_update_of_eq i c _ (by simp)).symm.trans hcp

theorem Forest.setText (h : d.Forest) (hi : i < d.nodes.size) : (d.setText i s).Forest := by
  unfold Document.setText
  split
  · exact h.updateContent fun _ => by simp
  · exact h.updateContent fun _ => by simp
  · have hcleared := h.detachAll (d.children i)
    have hsize : i < ((d.children i).foldl Document.detach d).nodes.size := by simpa using hi
    refine hcleared.add.insertBefore ?_ ?_ fun _ => not_under_new hcleared.linked hsize
    · rw [size_add]
      exact Nat.lt_succ_of_lt hsize
    · rw [size_add]
      exact Nat.lt_succ_self _

end Document

/-! ## Markup -/

namespace PageNode

/-- The trees that page markup stands for. Texts and comments have nothing below them. -/
inductive Built : Rose Content → Prop
  | text (s : String) : Built (.node { kind := .text s } [])
  | comment (s : String) : Built (.node { kind := .comment s } [])
  | element (name : String) (svg : Bool) (attributes : List (String × String))
      {ts : List (Rose Content)} : (∀ t ∈ ts, Built t) →
      Built (.node { kind := .element name svg, attributes } ts)

def Plain (ts : List (Rose Content)) : Prop := ∀ t ∈ ts, Built t

theorem Built.plain (h : Built t) : ∀ c ∈ t.preorder, c.kind ≠ .fragment := by
  induction h with
  | text | comment => simp [preorder, preorderAll]
  | element _ _ _ _ ih =>
    refine forall_mem_cons.mpr ⟨by simp, fun c hc => ?_⟩
    obtain ⟨t, ht, hc⟩ := mem_preorderAll.mp hc
    exact ih t ht c hc

theorem Plain.all (h : Plain ts) : ∀ c ∈ preorderAll ts, c.kind ≠ .fragment := by
  intro c hc
  obtain ⟨t, ht, hc⟩ := mem_preorderAll.mp hc
  exact (h t ht).plain c hc

mutual

theorem plain_trees : ∀ n : PageNode, Plain (n.trees svg)
  | .text s => forall_mem_singleton.mpr (.text s)
  | .comment s => forall_mem_singleton.mpr (.comment s)
  | .element name _ cs => forall_mem_singleton.mpr (.element name svg _ (plain_treesOf cs))
  | .other => nofun

theorem plain_treesOf : ∀ ns : List PageNode, Plain (treesOf svg ns)
  | [] => nofun
  | n :: ns => forall_mem_append.mpr ⟨plain_trees n, plain_treesOf ns⟩

end

end PageNode

theorem PageReader.plain_trees (page : PageReader) : PageNode.Plain (page.trees html svg) := by
  unfold PageReader.trees
  split <;> exact PageNode.plain_treesOf _

namespace Document

variable {ρ : Type} {d : Document ρ} {page : PageReader}

section

variable (h : d.Forest) (page) (html : String) (svg : Bool)
include h page html

theorem Forest.fragment_eq_clone :
    ∃ (e : Document ρ) (t : NodeId), e.Forest ∧ d.fragment page html svg = e.clone t true := by
  unfold Document.fragment
  split
  · exact ⟨d, _, h, rfl⟩
  · have hplanted := plant_forest (.node { kind := .fragment } (page.trees html svg)) d h
      page.plain_trees.all
    refine ⟨_, _, ?_, rfl⟩
    -- keeping a template changes no node
    exact ⟨⟨hplanted.linked.parent_of_mem, hplanted.linked.mem_of_parent, hplanted.linked.nodup,
      hplanted.linked.plain⟩, hplanted.acyclic⟩

theorem Forest.fragment : (d.fragment page html svg).2.Forest := by
  obtain ⟨e, t, he, heq⟩ := h.fragment_eq_clone page html svg
  rw [heq]
  exact he.clone

theorem Forest.fragment_lt_size :
    (d.fragment page html svg).1 < (d.fragment page html svg).2.nodes.size := by
  obtain ⟨e, t, he, heq⟩ := h.fragment_eq_clone page html svg
  obtain ⟨hroot, hcopied⟩ := clone_copied he.linked
  rw [heq, hroot]
  exact hcopied.grown

end

mutual

theorem cleanBelow_forest : ∀ (t : Rose NodeId) (d : Document ρ), d.Forest →
    (∀ i ∈ t.preorder, i < d.nodes.size) →
    (cleanBelow t d).Forest ∧ d.nodes.size ≤ (cleanBelow t d).nodes.size
  | .node p cs, d, h, hk => by
    rw [cleanBelow]
    exact cleanAll_forest cs p d h (hk p mem_cons_self) fun i hi =>
      hk i (.tail p hi)

theorem cleanAll_forest : ∀ (ts : List (Rose NodeId)) (p : NodeId) (d : Document ρ), d.Forest →
    p < d.nodes.size → (∀ i ∈ preorderAll ts, i < d.nodes.size) →
    (cleanAll p ts d).Forest ∧ d.nodes.size ≤ (cleanAll p ts d).nodes.size
  | [], p, d, h, _, _ => by
    rw [cleanAll]
    exact ⟨h, le_rfl⟩
  | .node i cs :: ts, p, d, h, hp, hk => by
    obtain ⟨hi : i < _, hcs, hts⟩ := forall_preorderAll_cons.mp hk
    rw [cleanAll]
    split
    · have hsize : (d.add { kind := .text "" }).2.nodes.size = d.nodes.size + 1 := size_add
      have hnew : ((d.add { kind := .text "" }).2.replaceChild p d.nodes.size i).Forest :=
        h.add.replaceChild (hsize ▸ Nat.lt_succ_of_lt hp) (hsize ▸ Nat.lt_succ_self _) fun _ =>
          not_under_new h.linked hp
      have hsize' : ((d.add { kind := .text "" }).2.replaceChild p d.nodes.size i).nodes.size =
          d.nodes.size + 1 := by
        rw [Document.replaceChild, if_neg hi.ne', size_detach, size_insertBefore, hsize]
      obtain ⟨hforest, hgrown⟩ := cleanAll_forest ts p _ hnew (hsize' ▸ Nat.lt_succ_of_lt hp)
        fun j hj => hsize' ▸ Nat.lt_succ_of_lt (hts j hj)
      rw [hsize'] at hgrown
      exact ⟨hforest, Nat.le_of_succ_le hgrown⟩
    · obtain ⟨hbelow, hgrown⟩ := cleanAll_forest cs i d h hi hcs
      obtain ⟨hforest, hgrown'⟩ := cleanAll_forest ts p _ hbelow (hp.trans_le hgrown)
        fun j hj => (hts j hj).trans_le hgrown
      exact ⟨hforest, hgrown.trans hgrown'⟩

end

theorem Forest.cleanFragment (h : d.Forest) {html : String} :
    (d.cleanFragment page html).2.Forest := by
  have hforest := h.fragment page html false
  exact (cleanBelow_forest _ _ hforest (lt_size_of_mem_ids hforest.linked
    (h.fragment_lt_size page html false))).1

/-! ## Walks along siblings -/

variable (d) (last : Option NodeId) in
/-- The nodes met on the way from a node along next siblings, through `last` or, when it is not met,
to the end. -/
inductive SiblingWalk : NodeId → List NodeId → Prop
  | found : last = some i → SiblingWalk i [i]
  | ended : last ≠ some i → d.nextSibling? i = none → SiblingWalk i [i]
  | step : last ≠ some i → d.nextSibling? i = some j → SiblingWalk j ns → SiblingWalk i (i :: ns)

theorem siblingWalk_of_loose (hl : d.parent? i = none) : SiblingWalk d last i [i] := by
  by_cases hi : last = some i
  · exact .found hi
  · exact .ended hi (by simp [nextSibling?, place?, hl])

theorem siblingWalk_children (h : d.Linked) (hc : d.children p = front ++ i :: back) :
    SiblingWalk d last i (last.elim (i :: back) (through · (i :: back))) := by
  induction back generalizing front i with
  | nil =>
    have hend : SiblingWalk d last i [i] := by
      by_cases hi : last = some i
      · exact .found hi
      · exact .ended hi (nextSibling?_eq h hc)
    cases last with
    | none => exact hend
    | some l => simpa [through] using hend
  | cons j back ih =>
    have hnext : d.nextSibling? i = some j := nextSibling?_eq h hc
    have hrest : d.children p = (front ++ [i]) ++ j :: back := by rw [hc]; simp
    have hwalk := ih hrest
    cases last with
    | none => exact .step (by simp) hnext hwalk
    | some l =>
      by_cases hi : some l = some i
      · have hfound : SiblingWalk d (some l) i [i] := .found hi
        simpa [through, Option.some.inj hi] using hfound
      · have hstep := SiblingWalk.step hi hnext hwalk
        have hne : i ≠ l := fun he => hi (he ▸ rfl)
        simpa [through, hne] using hstep

theorem siblingWalk_ends (h : d.Linked) (i : NodeId) : ∃ ns, SiblingWalk d none i ns := by
  cases hp : d.parent? i with
  | none => exact ⟨[i], siblingWalk_of_loose hp⟩
  | some p =>
    obtain ⟨front, back, hc⟩ := append_of_mem (h.mem_of_parent hp)
    exact ⟨_, siblingWalk_children h hc⟩

theorem siblingWalk_range (h : d.Linked) (first last : NodeId) :
    SiblingWalk d (some last) first (d.range first last) := by
  cases hp : d.parent? first with
  | none =>
    rw [range_of_loose hp]
    exact siblingWalk_of_loose hp
  | some p =>
    obtain ⟨front, back, hc⟩ := append_of_mem (h.mem_of_parent hp)
    rw [range_from h hc]
    exact siblingWalk_children h hc

/-! ## Edits -/

/-- What can be asked of a document that bears on the places of its nodes. -/
inductive Edit
  | create (k : NodeKind)
  | insertBefore (parent node : NodeId) (reference : Option NodeId)
  | appendChild (parent node : NodeId)
  | replaceChild (parent node old : NodeId)
  | remove (node : NodeId)
  | removeRange (first last : NodeId)
  | clone (node : NodeId) (deep : Bool)
  | setText (node : NodeId) (s : String)
  | fragment (html : String) (svg : Bool)
  | cleanFragment (html : String)

namespace Edit

def apply (page : PageReader) (d : Document ρ) : Edit → Document ρ
  | create k => (d.create k).2
  | insertBefore p n r => d.insertBefore p n r
  | appendChild p n => d.appendChild p n
  | replaceChild p n old => d.replaceChild p n old
  | remove n => d.detach n
  | removeRange first last => d.removeRange first last
  | clone n deep => (d.clone n deep).2
  | setText n s => d.setText n s
  | fragment html svg => (d.fragment page html svg).2
  | cleanFragment html => (d.cleanFragment page html).2

def nodes : Edit → List NodeId
  | create _ | fragment _ _ | cleanFragment _ => []
  | insertBefore p n r => p :: n :: r.toList
  | appendChild p n => [p, n]
  | replaceChild p n old => [p, n, old]
  | remove n | clone n _ | setText n _ => [n]
  | removeRange first last => [first, last]

/-- The node an edit inserts, after its new parent. A node stays where it is when it is asked to
stand before itself or to replace itself. -/
def insertion? : Edit → Option (NodeId × NodeId)
  | insertBefore p n r => if r = some n then none else some (p, n)
  | appendChild p n => some (p, n)
  | replaceChild p n old => if n = old then none else some (p, n)
  | _ => none

attribute [simp] nodes insertion?

/-- An edit names nodes of the document and inserts no node into itself or into one below it. -/
structure Allowed (d : Document ρ) (e : Edit) : Prop where
  known : ∀ i ∈ e.nodes, i < d.nodes.size
  apart : ∀ p n, e.insertion? = some (p, n) → ¬ d.Under p n

theorem forest_apply (h : d.Forest) (e : Edit) (he : e.Allowed d) : (e.apply page d).Forest := by
  obtain ⟨hk, hu⟩ := he
  cases e with
  | create k => exact h.add
  | insertBefore p n r =>
    refine h.insertBefore (hk p (by simp)) (hk n (by simp)) fun hr => ?_
    exact hu p n (if_neg hr)
  | appendChild p n =>
    have happ : (d.insertBefore p n none).Forest :=
      h.insertBefore (hk p (by simp)) (hk n (by simp)) fun _ => hu p n rfl
    exact happ
  | replaceChild p n old =>
    refine h.replaceChild (hk p (by simp)) (hk n (by simp)) fun hne => ?_
    exact hu p n (if_neg hne)
  | remove n => exact h.detach
  | removeRange first last => exact h.detachAll _
  | clone n deep => exact h.clone
  | setText n s => exact h.setText (hk n (by simp))
  | fragment html svg => exact h.fragment page html svg
  | cleanFragment html => exact h.cleanFragment

end Edit

/-- The documents that allowed edits make of the empty one. -/
inductive Edited (page : PageReader) : Document ρ → Prop
  | start : Edited page {}
  | step {d : Document ρ} (e : Edit) : Edited page d → e.Allowed d → Edited page (e.apply page d)

theorem Edited.forest (h : Edited page d) : d.Forest := by
  induction h with
  | start => exact forest_empty
  | step e _ he ih => exact e.forest_apply ih he

/-- However markup is read, a document made by edits is a forest, and walks along its siblings
end. -/
theorem edited_forest (h : Edited page d) :
    (∀ p c, c ∈ d.children p ↔ d.parent? c = some p) ∧
    (∀ p, (d.children p).Nodup) ∧
    (∀ p q c, c ∈ d.children p → c ∈ d.children q → p = q) ∧
    (∀ c, d.kind c = .fragment → d.parent? c = none) ∧
    (∀ i, ¬ Relation.TransGen d.IsParent i i) ∧
    (∀ i, ∃ ns, SiblingWalk d none i ns) ∧
    (∀ first last, SiblingWalk d (some last) first (d.range first last)) := by
  have ⟨hlinked, hacyclic⟩ := h.forest
  refine ⟨fun p c => ⟨hlinked.parent_of_mem, hlinked.mem_of_parent⟩, hlinked.nodup,
    fun p q c => hlinked.same_parent, fun c hk => ?_, hacyclic, siblingWalk_ends hlinked,
    siblingWalk_range hlinked⟩
  cases hp : d.parent? c with
  | none => rfl
  | some p => exact absurd hk (hlinked.plain (hlinked.mem_of_parent hp))

/-- A list of two items: the second goes before the first, which gives way to a copy of the list. -/
def turnedList : List Edit :=
  [.create (.element "ul" false), .create .fragment, .create (.text "a"), .create (.text "b"),
    .appendChild 1 2, .appendChild 1 3, .appendChild 0 1, .insertBefore 0 3 (some 2), .clone 0 true,
    .replaceChild 0 4 2]

theorem edited_turnedList :
    Edited Fragment.read (turnedList.foldl (Edit.apply Fragment.read) ({} : Document Unit)) := by
  have hloose : ∀ (d : Document Unit) (p n : NodeId), d.parent? p = none → p ≠ n →
      ∀ p' n', some (p, n) = some (p', n') → ¬ d.Under p' n' := by
    rintro d p n hl hne p' n' heq
    cases heq
    exact not_under_of_loose hl hne
  simp only [turnedList, foldl_cons, foldl_nil]
  refine .step _ (.step _ (.step _ (.step _ (.step _ (.step _ (.step _ (.step _ (.step _
    (.step _ .start ?_) ?_) ?_) ?_) ?_) ?_) ?_) ?_) ?_) ?_
  · exact ⟨by decide, by simp⟩
  · exact ⟨by decide, by simp⟩
  · exact ⟨by decide, by simp⟩
  · exact ⟨by decide, by simp⟩
  · exact ⟨by decide, hloose _ 1 2 (by decide) (by decide)⟩
  · exact ⟨by decide, hloose _ 1 3 (by decide) (by decide)⟩
  · exact ⟨by decide, hloose _ 0 1 (by decide) (by decide)⟩
  · exact ⟨by decide, hloose _ 0 3 (by decide) (by decide)⟩
  · exact ⟨by decide, by simp⟩
  · exact ⟨by decide, hloose _ 0 4 (by decide) (by decide)⟩

theorem edited_forest_turnedList :
    ∃ d : Document Unit, Edited Fragment.read d ∧ d.children 0 = [3, 4] ∧ d.children 4 = [5, 6] ∧
      SiblingWalk d (some 4) 3 (d.range 3 4) :=
  ⟨_, edited_turnedList, by decide, by decide,
    (edited_forest edited_turnedList).2.2.2.2.2.2 3 4⟩

end Document

end ReactiveMarkup.Reactive
