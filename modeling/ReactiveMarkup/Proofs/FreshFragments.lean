import ReactiveMarkup.Proofs.TemplateCache

/-! # Fresh fragments

Kept templates stand among the other nodes of a document. Whoever names only nodes that a document
has returned, or that were found by going from such nodes to others, never comes upon a node of a
template.
-/

namespace ReactiveMarkup.Reactive

open List Option

namespace Document

variable {ρ : Type} {d e : Document ρ} {page : PageReader} {mine : NodeId → Prop}

/-! ## Sealed templates -/

/-- The nodes that are `mine` are linked with each other only, and no kept template has one. -/
structure Sealed (page : PageReader) (d : Document ρ) (mine : NodeId → Prop) : Prop where
  linked : d.Linked
  known : ∀ i : Nat, mine i → i < d.nodes.size
  closed : ∀ {p c : NodeId}, c ∈ d.children p → (mine p ↔ mine c)
  faithful : d.Faithful page mine

theorem Sealed.parent (h : Sealed page d mine) (hi : mine i) (hp : d.parent? i = some p) : mine p :=
  (h.closed (h.linked.mem_of_parent hp)).mpr hi

section

variable (h : Sealed page d mine) (hl : e.Linked)
include h hl

theorem Sealed.change (hs : e.nodes.size = d.nodes.size) (ht : e.templates = d.templates)
    (hsame : ∀ j : Nat, ¬ mine j → e.nodes[j]? = d.nodes[j]?) : Sealed page e mine where
  linked := hl
  known := fun i hi => hs ▸ h.known i hi
  closed := by
    intro p c hc
    constructor
    · intro hp
      by_contra hnot
      -- the child is as it was, so its parent is an old one
      have hparent : d.parent? c = some p := by
        rw [parent?, ← hsame c hnot]
        exact hl.parent_of_mem hc
      exact hnot ((h.closed (h.linked.mem_of_parent hparent)).mp hp)
    · intro hmine
      by_contra hnot
      rw [children_of_node (hsame p hnot)] at hc
      exact hnot ((h.closed hc).mpr hmine)
  faithful := by
    refine h.faithful.agrees ht fun j hj => ?_
    have hj' := hsame j hj.2
    exact ⟨⟨hs ▸ hj.1, hj.2⟩, content_of_node hj', children_of_node hj'⟩

theorem closed_grown
    (hsame : ∀ n < d.nodes.size, e.nodes[n]? = d.nodes[n]?) (hc : c ∈ e.children p) :
    (p < d.nodes.size ∧ c < d.nodes.size ∧ (mine p ↔ mine c)) ∨
      (d.nodes.size ≤ p ∧ d.nodes.size ≤ c) := by
  by_cases hp : p < d.nodes.size
  · rw [children_of_node (hsame p hp)] at hc
    exact Or.inl ⟨hp, h.linked.lt_size hc, h.closed hc⟩
  · refine Or.inr ⟨Nat.le_of_not_lt hp, Nat.le_of_not_lt fun hlt => hp ?_⟩
    have hparent : d.parent? c = some p := by
      rw [parent?, ← hsame c hlt]
      exact hl.parent_of_mem hc
    exact lt_size_of_child (h.linked.mem_of_parent hparent)

theorem Sealed.beside (hs : d.nodes.size ≤ e.nodes.size)
    (hf : e.Faithful page mine) (hsame : ∀ n < d.nodes.size, e.nodes[n]? = d.nodes[n]?) :
    Sealed page e mine where
  linked := hl
  known := fun i hi => (h.known i hi).trans_le hs
  closed := by
    intro p c hc
    rcases closed_grown h hl hsame hc with ⟨_, _, hiff⟩ | ⟨hp, hc⟩
    · exact hiff
    · refine iff_of_false (fun hm => ?_) fun hm => ?_
      · exact absurd (h.known p hm) (Nat.not_lt.mpr hp)
      · exact absurd (h.known c hm) (Nat.not_lt.mpr hc)
  faithful := hf

theorem Sealed.grow (hs : d.nodes.size ≤ e.nodes.size)
    (ht : e.templates = d.templates) (hsame : ∀ n < d.nodes.size, e.nodes[n]? = d.nodes[n]?) :
    Sealed page e fun j : Nat => mine j ∨ d.nodes.size ≤ j ∧ j < e.nodes.size where
  linked := hl
  known := by
    rintro i (hi | ⟨_, hi⟩)
    · exact (h.known i hi).trans_le hs
    · exact hi
  closed := by
    intro p c hc
    rcases closed_grown h hl hsame hc with ⟨hp, hc, hiff⟩ | ⟨hp', hc'⟩
    · rw [hiff, iff_false_intro (Nat.not_le.mpr hp), iff_false_intro (Nat.not_le.mpr hc),
        false_and, false_and]
    · exact iff_of_true (Or.inr ⟨hp', lt_size_of_child hc⟩) (Or.inr ⟨hc', hl.lt_size hc⟩)
  faithful := by
    refine h.faithful.agrees ht ?_
    rintro j ⟨hj, hnot⟩
    refine ⟨⟨hj.trans_le hs, ?_⟩, content_of_node (hsame j hj),
      children_of_node (hsame j hj)⟩
    rintro (hm | ⟨hle, _⟩)
    · exact hnot hm
    · omega

end

/-! ## Changes of nodes -/

theorem getElem?_update_of_ne (h : j ≠ i) : (d.update i f).nodes[j]? = d.nodes[j]? := by
  rw [getElem?_update, if_neg (Ne.symm h)]

theorem getElem?_detach (hi : j ≠ i) (hp : d.parent? i ≠ some j) :
    (d.detach i).nodes[j]? = d.nodes[j]? := by
  rw [detach_eq]
  cases hparent : d.parent? i with
  | none => exact getElem?_update_of_ne hi
  | some p =>
    have hne : j ≠ p := fun he => hp (he ▸ hparent)
    exact (getElem?_update_of_ne hi).trans (getElem?_update_of_ne hne)

theorem getElem?_place (hn : j ≠ n) (hparent : j ≠ parent) (hp : d.parent? n ≠ some j) :
    (d.place parent n reference).nodes[j]? = d.nodes[j]? := by
  rcases place_form with h | ⟨siblings, h⟩
  · rw [h]
  · rw [h, setParent, getElem?_update_of_ne hn, setChildren, getElem?_update_of_ne hparent,
      getElem?_detach hn hp]

theorem getElem?_giveAll (hparent : j ≠ parent) (hns : j ∉ ns) :
    (d.giveAll parent reference ns).nodes[j]? = d.nodes[j]? := by
  induction ns generalizing d with
  | nil => rfl
  | cons n ns ih =>
    rw [mem_cons, not_or] at hns
    have hloose : (d.setParent n none).parent? n ≠ some j := by simp [parent?_setParent_none]
    refine (ih hns.2).trans ((getElem?_place hns.1 hparent hloose).trans ?_)
    exact getElem?_update_of_ne hns.1

theorem getElem?_insertBefore (hn : j ≠ n) (hparent : j ≠ parent) (hc : j ∉ d.children n)
    (hp : d.parent? n ≠ some j) : (d.insertBefore parent n reference).nodes[j]? = d.nodes[j]? := by
  rcases insertBefore_form with h | h | h
  · rw [h]
  · rw [h, getElem?_giveAll hparent hc]
    exact getElem?_update_of_ne hn
  · rw [h, getElem?_place hn hparent hp]

theorem ne_of_mine (hj : ¬ mine j) (hi : mine i) : j ≠ i := fun he => hj (he ▸ hi)

namespace Sealed

/-- The answer to a request is `mine` as well, and nothing is lost. -/
def Goes (page : PageReader) (mine : NodeId → Prop) (answer : Option NodeId) (e : Document ρ) :
    Prop :=
  ∃ mine' : NodeId → Prop, Sealed page e mine' ∧ (∀ i, mine i → mine' i) ∧ ∀ i ∈ answer, mine' i

section

variable (h : Sealed page d mine)
include h

theorem update (hi : mine i) (hc : ∀ n, (f n).children = n.children)
    (hp : ∀ n, (f n).parent = n.parent)
    (hk : ∀ n, (f n).content.kind = .fragment → n.content.kind = .fragment) :
    Sealed page (d.update i f) mine := by
  refine h.change (h.linked.update hc hp hk) (size_update i f) rfl fun j hj => ?_
  exact getElem?_update_of_ne (ne_of_mine hj hi)

theorem updateContent (hi : mine i)
    (hk : ∀ c, (f c).kind = .fragment → c.kind = .fragment) :
    Sealed page (d.updateContent i f) mine :=
  h.update hi (fun _ => rfl) (fun _ => rfl) fun n => hk n.content

theorem detach (hi : mine i) : Sealed page (d.detach i) mine := by
  refine h.change (linked_detach h.linked) size_detach Rearranged.detach.templates ?_
  intro j hj
  exact getElem?_detach (ne_of_mine hj hi) fun hp => hj (h.parent hi hp)

theorem detachAll {ns : List NodeId} (hns : ∀ n ∈ ns, mine n) :
    Sealed page (ns.foldl Document.detach d) mine := by
  induction ns generalizing d with
  | nil => exact h
  | cons n ns ih =>
    exact ih (h.detach (hns n mem_cons_self)) fun m hm => hns m (.tail n hm)

theorem insertBefore {parent n : NodeId} (hp : mine parent) (hn : mine n)
    (reference : Option NodeId) : Sealed page (d.insertBefore parent n reference) mine := by
  have hr := Rearranged.insertBefore (d := d) parent n reference
  refine h.change (linked_insertBefore h.linked (h.known parent hp) (h.known n hn)).1
    hr.size hr.templates fun j hj => ?_
  refine getElem?_insertBefore (ne_of_mine hj hn) (ne_of_mine hj hp) (fun hc => ?_)
    fun hp => hj (h.parent hn hp)
  exact hj ((h.closed hc).mp hn)

theorem replaceChild {parent n old : NodeId} (hp : mine parent) (hn : mine n)
    (hold : mine old) : Sealed page (d.replaceChild parent n old) mine := by
  unfold Document.replaceChild
  split
  · exact h
  · exact (h.insertBefore hp hn (some old)).detach hold

theorem siblings (hf : mine first) : ∀ n ∈ d.range first last, mine n := by
  intro n hn
  have hthrough : ∀ cs : List NodeId, ∀ m ∈ through last cs, m ∈ cs := by
    intro cs
    induction cs with
    | nil => simp [through]
    | cons c cs ih =>
      intro m hm
      rw [through] at hm
      split at hm
      · exact mem_cons.mpr (Or.inl (mem_singleton.mp hm))
      · rcases mem_cons.mp hm with rfl | hm
        · exact mem_cons_self
        · exact .tail c (ih m hm)
  unfold range at hn
  split at hn
  · rwa [mem_singleton.mp hn]
  · next p hparent =>
    have hm := (dropWhile_sublist _).mem (hthrough _ n hn)
    exact (h.closed hm).mp (h.parent hf hparent)

theorem below (hi : mine i) : ∀ j ∈ (d.idsTo n i).preorder, mine j := by
  induction n generalizing i with
  | zero =>
    intro j hj
    rwa [mem_singleton.mp hj]
  | succ n ih =>
    intro j hj
    obtain rfl | ⟨c, hc, hj⟩ := mem_idsTo_succ.mp hj
    · exact hi
    · exact ih ((h.closed hc).mp hi) j hj

/-! ## New nodes -/

theorem add (c : Content) :
    Sealed page (d.add c).2
      fun j : Nat => mine j ∨ d.nodes.size ≤ j ∧ j < (d.add c).2.nodes.size := by
  refine h.grow (linked_add h.linked) (by simp) rfl fun n hn => ?_
  rw [getElem?_add, if_neg (hn.ne)]

theorem plant (ht : ∀ c ∈ Rose.preorderAll t.children, c.kind ≠ .fragment) :
    Sealed page (plant t d).2
      fun j : Nat => mine j ∨ d.nodes.size ≤ j ∧ j < (Document.plant t d).2.nodes.size := by
  obtain ⟨_, hcopied⟩ := plant_copied t d h.linked ht
  exact h.grow hcopied.linked hcopied.grown.le (templates_plant t d) hcopied.others

theorem clone : Sealed page (d.clone i deep).2
      fun j : Nat => mine j ∨ d.nodes.size ≤ j ∧ j < (d.clone i deep).2.nodes.size := by
  unfold Document.clone
  split
  · exact h.plant (plain_contents h.linked)
  · exact h.add _

theorem clone_new :
    d.nodes.size ≤ (d.clone i deep).1 ∧ (d.clone i deep).1 < (d.clone i deep).2.nodes.size := by
  cases deep with
  | true =>
    obtain ⟨hroot, hcopied⟩ := clone_copied h.linked
    rw [hroot]
    exact ⟨le_rfl, hcopied.grown⟩
  | false => exact ⟨le_rfl, by simp [Document.clone, Document.add]⟩

theorem stays : Goes page mine none d := ⟨mine, h, fun _ hi => hi, by simp⟩

theorem setText {i : NodeId} (hi : mine i) : Goes page mine none (d.setText i s) := by
  unfold Document.setText
  split
  · exact stays (h.updateContent hi (by simp))
  · exact stays (h.updateContent hi (by simp))
  · have hbelow : ∀ c ∈ d.children i, mine c := fun c hc => (h.closed hc).mp hi
    have hcleared := h.detachAll hbelow
    refine ⟨_, (hcleared.add { kind := .text s }).insertBefore (Or.inl hi) (Or.inr ?_) none,
      fun _ hj => Or.inl hj, by simp⟩
    exact ⟨le_rfl, by simp⟩

theorem fragment {html : String} {svg : Bool} :
    Goes page mine (d.fragment page html svg).1 (d.fragment page html svg).2 := by
  obtain ⟨k, heq, hlinked, hfaithful, hsize, hsame⟩ :=
    fragment_eq h.linked h.faithful h.known html svg
  have hk := h.beside hlinked hsize hfaithful hsame
  obtain ⟨hroot, hcopied⟩ := plant_copied (markupTree page html svg) k hlinked
    (markupTree_plain html svg)
  rw [heq, hroot]
  refine ⟨_, hk.plant (markupTree_plain html svg), fun _ hi => Or.inl hi, ?_⟩
  intro i hi
  obtain rfl : k.nodes.size = i := by simpa using hi
  exact Or.inr ⟨le_rfl, hcopied.grown⟩

end

theorem Goes.mono (h : Goes page mine' answer e) (hm : ∀ i, mine i → mine' i) :
    Goes page mine answer e := by
  obtain ⟨mine'', hs, hle, ha⟩ := h
  exact ⟨mine'', hs, fun i hi => hle i (hm i hi), ha⟩

mutual

theorem cleanBelow : ∀ (t : Rose NodeId) {d : Document ρ} {mine : NodeId → Prop},
    Sealed page d mine →
    (∀ i ∈ t.preorder, mine i) → Goes page mine none (cleanBelow t d)
  | .node p cs, _, _, h, hm => by
    rw [Document.cleanBelow]
    exact cleanAll cs h (hm p mem_cons_self) fun i hi => hm i (.tail p hi)

theorem cleanAll : ∀ (ts : List (Rose NodeId)) {p : NodeId} {d : Document ρ}
    {mine : NodeId → Prop}, Sealed page d mine → mine p → (∀ i ∈ Rose.preorderAll ts, mine i) →
      Goes page mine none (cleanAll p ts d)
  | [], _, _, _, h, _, _ => by
    rw [Document.cleanAll]
    exact h.stays
  | .node i cs :: ts, p, d, mine, h, hp, hm => by
    obtain ⟨hi : mine i, hcs, hts⟩ := Rose.forall_preorderAll_cons.mp hm
    rw [Document.cleanAll]
    split
    · have hadded := h.add { kind := .text "" }
      have hreplaced :
          Sealed page ((d.add { kind := .text "" }).2.replaceChild p d.nodes.size i) _ :=
        hadded.replaceChild (Or.inl hp) (Or.inr ⟨le_rfl, by simp⟩) (Or.inl hi)
      exact (cleanAll ts hreplaced (Or.inl hp) fun j hj => Or.inl (hts j hj)).mono
        fun _ hj => Or.inl hj
    · obtain ⟨mine', hsealed, hle, _⟩ := cleanAll cs h hi hcs
      exact (cleanAll ts hsealed (hle p hp) fun j hj => hle j (hts j hj)).mono hle

end

theorem cleanFragment (h : Sealed page d mine) {html : String} :
    Goes page mine (d.cleanFragment page html).1 (d.cleanFragment page html).2 := by
  obtain ⟨mine', hsealed, hle, hroot⟩ := h.fragment
  have hroot := hroot _ rfl
  obtain ⟨mine'', hclean, hle', _⟩ := hsealed.cleanBelow ((d.fragment page html false).2.ids
    (d.fragment page html false).1) (hsealed.below hroot)
  refine ⟨mine'', hclean, fun i hi => hle' i (hle i hi), ?_⟩
  intro i hi
  obtain rfl : (d.fragment page html false).1 = i := some.inj hi
  exact hle' _ hroot

end Sealed

/-! ## Requests -/

inductive Request (ρ : Type)
  | edit (e : Edit)
  | setAttribute (node : NodeId) (name value : String)
  | removeAttribute (node : NodeId) (name : String)
  | toggleClass (node : NodeId) (name : String) (on : Bool)
  | setStyle (node : NodeId) (property : String) (value : Option String)
  | setProperty (node : NodeId) (name : String) (value : Value)
  | addListener (node : NodeId) (event : String) (reaction : ρ)
  | removeListener (node : NodeId) (id : ListenerId)

def Edit.answer (page : PageReader) (d : Document ρ) : Edit → Option NodeId
  | create k => (d.create k).1
  | clone n deep => (d.clone n deep).1
  | fragment html svg => (d.fragment page html svg).1
  | cleanFragment html => (d.cleanFragment page html).1
  | _ => none

namespace Request

def apply (page : PageReader) (d : Document ρ) : Request ρ → Document ρ
  | edit e => e.apply page d
  | setAttribute i name value => d.setAttribute i name value
  | removeAttribute i name => d.removeAttribute i name
  | toggleClass i name on => d.toggleClass i name on
  | setStyle i property value => d.setStyle i property value
  | setProperty i name value => d.setProperty i name value
  | addListener i event reaction => (d.addListener i event reaction).2
  | removeListener i id => d.removeListener i id

def answer (page : PageReader) (d : Document ρ) : Request ρ → Option NodeId
  | edit e => e.answer page d
  | _ => none

def nodes : Request ρ → List NodeId
  | edit e => e.nodes
  | setAttribute i _ _ | removeAttribute i _ | toggleClass i _ _ | setStyle i _ _
  | setProperty i _ _ | addListener i _ _ | removeListener i _ => [i]

attribute [simp] nodes

end Request

inductive Shows (d : Document ρ) (i : NodeId) : NodeId → Prop
  | parent : d.parent? i = some p → Shows d i p
  | child : c ∈ d.children i → Shows d i c
  | next : d.nextSibling? i = some j → Shows d i j
  | previous : d.previousSibling? i = some j → Shows d i j
  | along : j ∈ d.range i last → Shows d i j
  | named : j ∈ d.elementsByTag i name → Shows d i j

variable (page) in
/-- A document that began empty, and the nodes that are known of it: those it has returned and
those found from known ones. Only known nodes are named in requests. -/
inductive Used : Document ρ → List NodeId → Prop
  | start : Used {} []
  | look {d : Document ρ} : Used d known → i ∈ known → d.Shows i j → Used d (j :: known)
  | ask {d : Document ρ} (r : Request ρ) : Used d known → (∀ i ∈ r.nodes, i ∈ known) →
    Used (r.apply page d) ((r.answer page d).toList ++ known)

namespace Sealed

theorem shows (h : Sealed page d mine) (hi : mine i) (hs : d.Shows i j) : mine j := by
  have hplace : ∀ {p k}, d.place? i = some (p, k) → mine p := by
    intro p k hp
    obtain ⟨q, hq, hk⟩ := bind_eq_some_iff.mp hp
    obtain ⟨l, _, hl⟩ := bind_eq_some_iff.mp hk
    cases hl
    exact h.parent hi hq
  cases hs with
  | parent hp => exact h.parent hi hp
  | child hc => exact (h.closed hc).mp hi
  | next hn =>
    obtain ⟨⟨p, k⟩, hp, hj⟩ := bind_eq_some_iff.mp hn
    exact (h.closed (mem_of_getElem? hj)).mp (hplace hp)
  | previous hn =>
    obtain ⟨⟨p, k⟩, hp, hj⟩ := bind_eq_some_iff.mp hn
    simp only at hj
    split at hj
    · cases hj
    · exact (h.closed (mem_of_getElem? hj)).mp (hplace hp)
  | along hn => exact h.siblings hi _ hn
  | named hn =>
    have hm := mem_of_mem_drop (mem_filter.mp hn).1
    exact h.below hi _ hm

theorem edit (h : Sealed page d mine) {r : Edit} (hr : ∀ i ∈ r.nodes, mine i) :
    Goes page mine (r.answer page d) (r.apply page d) := by
  cases r with
  | create k =>
    refine ⟨_, h.add { kind := k }, fun _ hi => Or.inl hi, ?_⟩
    intro i hi
    obtain rfl : d.nodes.size = i := some.inj hi
    exact Or.inr ⟨le_rfl, by simp⟩
  | insertBefore p n r =>
    exact (h.insertBefore (hr p (by simp)) (hr n (by simp)) r).stays
  | appendChild p n =>
    exact (h.insertBefore (hr p (by simp)) (hr n (by simp)) none).stays
  | replaceChild p n old =>
    exact (h.replaceChild (hr p (by simp)) (hr n (by simp))
      (hr old (by simp))).stays
  | remove n => exact (h.detach (hr n (by simp))).stays
  | removeRange first last =>
    exact (h.detachAll (h.siblings (hr first (by simp)))).stays
  | clone n deep =>
    refine ⟨_, h.clone, fun _ hi => Or.inl hi, ?_⟩
    intro i hi
    obtain rfl : (d.clone n deep).1 = i := some.inj hi
    exact Or.inr h.clone_new
  | setText n s => exact h.setText (hr n (by simp))
  | fragment html svg => exact h.fragment
  | cleanFragment html => exact h.cleanFragment

theorem ask (h : Sealed page d mine) {r : Request ρ} (hr : ∀ i ∈ r.nodes, mine i) :
    Goes page mine (r.answer page d) (r.apply page d) := by
  cases r with
  | edit e => exact h.edit hr
  | setAttribute i | removeAttribute i | setStyle i | setProperty i =>
    have hi := hr i (by simp)
    apply stays
    simp only [Request.apply]
    exact h.updateContent hi (by simp)
  | toggleClass i name on =>
    have hi := hr i (by simp)
    change Goes page mine none (d.toggleClass i name on)
    simp only [Document.toggleClass]
    split
    · exact h.stays
    · exact stays (h.updateContent hi (by simp))
  | addListener i event reaction =>
    have hcount : Sealed page { d with lastListener := d.lastListener + 1 } mine :=
      h.change ⟨h.linked.parent_of_mem, h.linked.mem_of_parent, h.linked.nodup, h.linked.plain⟩ rfl
        rfl fun _ _ => rfl
    exact stays (hcount.update (hr i (by simp)) (fun _ => rfl) (fun _ => rfl)
      fun _ hc => hc)
  | removeListener i id =>
    exact stays (h.update (hr i (by simp)) (fun _ => rfl) (fun _ => rfl)
      fun _ hc => hc)

end Sealed

/-- No request, and no step from one known node to another, leads into a kept template. -/
theorem Used.sealed {known : List NodeId} (h : Used page d known) :
    ∃ mine : NodeId → Prop, Sealed page d mine ∧ ∀ i ∈ known, mine i := by
  induction h with
  | start =>
    refine ⟨fun _ => False, ⟨linked_empty, by simp, ?_, ?_⟩, by simp⟩
    · intro p c hc
      simp
    · intro t ht
      cases ht
  | look _ hi hs ih =>
    obtain ⟨mine, hsealed, hknown⟩ := ih
    exact ⟨mine, hsealed, forall_mem_cons.mpr ⟨hsealed.shows (hknown _ hi) hs, hknown⟩⟩
  | ask r _ hr ih =>
    obtain ⟨mine, hsealed, hknown⟩ := ih
    obtain ⟨mine', hsealed', hle, hanswer⟩ := hsealed.ask fun i hi => hknown i (hr i hi)
    exact ⟨mine', hsealed', forall_mem_append.mpr
      ⟨fun k hk => hanswer k (mem_toList.mp hk), fun k hk => hle k (hknown k hk)⟩⟩

/-! ## Fragments and copies -/

/-- A document has returned a new tree: its nodes are new ones, no other node has changed, and it
reads and prints as the tree `t`. -/
structure Fresh (d : Document ρ) (answer : NodeId × Document ρ) (t : Rose Content) : Prop where
  new : ∀ j ∈ (answer.2.ids answer.1).preorder, d.nodes.size ≤ j ∧ j < answer.2.nodes.size
  loose : answer.2.parent? answer.1 = none
  others : ∀ n < d.nodes.size, answer.2.nodes[n]? = d.nodes[n]?
  contents : answer.2.contents answer.1 = t
  html : answer.2.html answer.1 = t.foldText Content.html

theorem fresh_of_holds (hh : e.Holds (fun j : Nat => d.nodes.size ≤ j ∧ j < e.nodes.size) t i)
    (hl : e.parent? i = none) (ho : ∀ n < d.nodes.size, e.nodes[n]? = d.nodes[n]?) :
    Fresh d (i, e) t := by
  have hcontents := hh.contents fun _ hj => hj.2
  exact ⟨hh.nodes, hl, ho, hcontents, congrArg (Rose.foldText Content.html) hcontents⟩

theorem fresh_clone (h : d.Linked) (i : NodeId) : Fresh d (d.clone i true) (d.contents i) := by
  obtain ⟨hroot, hcopied⟩ := clone_copied h
  have hh := clone_holds h i
  generalize d.clone i true = answer at hroot hcopied hh
  obtain ⟨c, e⟩ := answer
  obtain rfl : c = d.nodes.size := hroot
  exact fresh_of_holds hh hcopied.loose hcopied.others

theorem Sealed.fresh_fragment (h : Sealed page d mine) (html : String) (svg : Bool) :
    Fresh d (d.fragment page html svg) (markupTree page html svg) := by
  obtain ⟨k, heq, hlinked, _, hsize, hsame⟩ := fragment_eq h.linked h.faithful h.known html svg
  have hplain : ∀ c ∈ Rose.preorderAll (markupTree page html svg).children, c.kind ≠ .fragment :=
    markupTree_plain html svg
  obtain ⟨hroot, hcopied⟩ := plant_copied (markupTree page html svg) k hlinked hplain
  have hh := plant_holds (markupTree page html svg) k hlinked hplain
  rw [heq]
  generalize Document.plant (markupTree page html svg) k = answer at hroot hcopied hh
  obtain ⟨f, e⟩ := answer
  obtain rfl : f = k.nodes.size := hroot
  refine fresh_of_holds (Holds.agrees ?_ _ _ hh) hcopied.loose fun n hn => ?_
  · exact fun j hj => ⟨⟨hsize.trans hj.1, hj.2⟩, rfl, rfl⟩
  · rw [hcopied.others n (hn.trans_le hsize), hsame n hn]

/-- Templates are kept out of sight, however markup is read. In a document that has only been used
through the nodes known of it, a fragment of a text of markup is the tree of that text on new nodes,
whatever was done before. No known node is in a kept template, and a deep copy changes no node that
was there. -/
theorem fragments_stay_fresh {known : List NodeId} (h : Used page d known) :
    (∀ html svg, Fresh d (d.fragment page html svg) (markupTree page html svg)) ∧
    (∀ i ∈ known, Fresh d (d.clone i true) (d.contents i)) ∧
    ∀ t ∈ d.templates, ∀ j ∈ (d.ids t.2).preorder, j ∉ known := by
  obtain ⟨mine, hsealed, hknown⟩ := h.sealed
  refine ⟨hsealed.fresh_fragment, fun i _ => fresh_clone hsealed.linked i, fun t ht j hj hk => ?_⟩
  exact ((hsealed.faithful t ht).nodes j hj).2 (hknown j hk)

/-! A text is fetched, and its element gets another content. -/

section Sample

def fetchNote : Request Unit := .edit (.fragment "<i>1</i>" false)

def rewriteNote : Request Unit := .edit (.setText 4 "2")

def rewritten : Document Unit :=
  rewriteNote.apply Fragment.read (fetchNote.apply Fragment.read {})

theorem used_rewritten : Used Fragment.read rewritten [4, 3] := by
  have hanswer : fetchNote.answer Fragment.read {} = some 3 := by decide +kernel
  have hfetched : Used Fragment.read (fetchNote.apply Fragment.read {}) [3] := by
    have hask : Used Fragment.read _ _ := Used.start.ask fetchNote
      (by simp [fetchNote, Request.nodes, Edit.nodes])
    rwa [hanswer] at hask
  have hchild : (4 : NodeId) ∈ (fetchNote.apply Fragment.read {}).children 3 := by decide +kernel
  have hseen := hfetched.look (by simp) (.child hchild)
  exact hseen.ask rewriteNote (by simp [rewriteNote, Request.nodes, Edit.nodes])

theorem fragments_stay_fresh_rewritten :
    Used Fragment.read rewritten [4, 3] ∧ rewritten.html 3 = "<i>2</i>" ∧
      (rewritten.fragment Fragment.read "<i>1</i>" false).2.html 7 = "<i>1</i>" ∧
      Fresh rewritten (rewritten.fragment Fragment.read "<i>1</i>" false)
        (markupTree Fragment.read "<i>1</i>" false) :=
  ⟨used_rewritten, by decide +kernel, by decide +kernel,
    (fragments_stay_fresh used_rewritten).1 "<i>1</i>" false⟩

end Sample

end Document

end ReactiveMarkup.Reactive
