import ReactiveMarkup.Proofs.Copies
import ReactiveMarkup.Proofs.OwnedChildren
import ReactiveMarkup.Proofs.Ranges

/-! # Mount points

After a label stand the nodes of what is mounted there and no others, and its detector is a child of
the owner. What other code has put around it stays. User code is taken to leave the point alone and
to keep to the nodes of its own branch.
-/

namespace ReactiveMarkup.Reactive

open Meets Document

variable {κ υ : Type}

/-- Where a point is, and the templates that are mounted there. -/
structure Site where
  point : PointId
  owner : DetectorId
  label : NodeId
  parent : NodeId
  templates : List NodeId

/-- What other code has put around a point: the nodes before the label and after what is mounted,
and the other children of the owner. -/
structure Around where
  front : List NodeId
  back : List NodeId
  others : List DetectorId

/-- After the label stand the nodes `own` of what is mounted, and only they. -/
structure Stands (s : Site) (a : Around) (m : Option Mounted) (own : List NodeId)
    (w : World κ υ) : Prop where
  point : w.points[s.point]? = some { owner := s.owner, label := s.label, mounted := m }
  alive : s.owner < w.detectors.size
  children : (childrenOf w s.owner).Perm (a.others ++ m.toList.map (·.detector))
  bounded : ∀ c ∈ a.others, c < w.detectors.size
  apart : ∀ x, m = some x → x.detector ∉ a.others
  newer : ∀ x, m = some x → s.owner < x.detector
  linked : w.document.Linked
  known : s.parent < w.document.nodes.size
  templates : ∀ t ∈ s.templates, t < w.document.nodes.size ∧ w.document.kind t = .fragment
  siblings : w.document.children s.parent = a.front ++ s.label :: (own ++ a.back)
  extent : ends own = m.bind (·.extent)

/-- From `w` to `w'` code of the user has run that leaves a point alone. The nodes that stand there,
`own`, are now `own'`. -/
structure Clear (s : Site) (own own' : List NodeId) (w w' : World κ υ) : Prop where
  point : w'.points[s.point]? = w.points[s.point]?
  detectors : w.detectors.size ≤ w'.detectors.size
  children : childrenOf w' s.owner = childrenOf w s.owner
  linked : w'.document.Linked
  nodes : w.document.nodes.size ≤ w'.document.nodes.size
  kinds : ∀ n < w.document.nodes.size,
    (w'.document.kind n = .fragment ↔ w.document.kind n = .fragment)
  siblings : ∀ front back, w.document.children s.parent = front ++ s.label :: (own ++ back) →
    w'.document.children s.parent = front ++ s.label :: (own' ++ back)

theorem Clear.refl (hl : w.document.Linked) : Clear s own own w w :=
  ⟨rfl, le_rfl, rfl, hl, le_rfl, fun _ _ => Iff.rfl, fun _ _ h => h⟩

def Follows (s : Site) (own : List NodeId) (w : World κ υ) : Prop :=
  w.document.Linked ∧
    ∃ front back, w.document.children s.parent = front ++ s.label :: (own ++ back)

/-- The steps by which a point is filled and emptied keep `inv`. -/
structure Upkept (s : Site) (inv : World κ υ → Prop) : Prop where
  arrange : ∀ w (e : Document (Reaction κ)), inv w → inv { w with document := e }
  adopt : ∀ w c w', inv w → Returns (newChild s.owner) w c w' → inv w'
  release : ∀ w c w', inv w → Returns (removeChild s.owner c) w () w' → inv w'
  point : ∀ w m, inv w →
    inv { w with points := w.points.modify s.point fun p => { p with mounted := m } }

namespace Stands

variable {s : Site} {a : Around} {m : Option Mounted} {own own' : List NodeId} {w w' : World κ υ}

theorem of_same (hs : Stands s a m own w) (hp : w'.points = w.points)
    (hd : w'.detectors = w.detectors) (he : w'.document = w.document) : Stands s a m own w' := by
  cases w
  cases hp
  cases hd
  cases he
  exact { hs with }

end Stands

section Steps

variable {h : Host κ υ} {s : Site} {a : Around} {w w' : World κ υ} {inv : World κ υ → Prop}
  {stop : Stop → World κ υ → Prop}

theorem removeExtent_iff (hl : w.document.Linked)
    (hc : w.document.children parent = before ++ own ++ after) (hx : ends own = extent) :
    Meets stop (removeExtent extent) w post ↔
      post () { w with document := own.foldl detach w.document } := by
  cases extent with
  | none =>
    rw [ends_eq_none_iff] at hx
    subst hx
    exact Iff.rfl
  | some x =>
    rw [← removeRange_eq hl hc hx]
    exact Iff.rfl

theorem Stands.emptied (hs : Stands s a m own w)
    (hv : v.points[s.point]? = some { owner := s.owner, label := s.label })
    (hsize : v.detectors.size = w.detectors.size) (hdoc : v.document = w.document)
    (hchildren : (childrenOf v s.owner).Perm a.others) (hc : Clear s own own' v u) :
    Stands s a none [] { u with document := own'.foldl detach u.document } := by
  have hsib : u.document.children s.parent = (a.front ++ [s.label]) ++ own' ++ a.back := by
    rw [hc.siblings a.front a.back (hdoc ▸ hs.siblings)]
    simp
  constructor
  · exact hc.point.trans hv
  · exact (hsize ▸ hs.alive).trans_le hc.detectors
  · have hsame : (childrenOf u s.owner).Perm a.others := hc.children ▸ hchildren
    rw [Option.toList_none, List.map_nil, List.append_nil]
    exact hsame
  · exact fun c hm => (hsize ▸ hs.bounded c hm).trans_le hc.detectors
  · simp
  · simp
  · exact linked_detachAll hc.linked
  · simpa using (hdoc ▸ hs.known).trans_le hc.nodes
  · intro t ht
    obtain ⟨hlt, hkind⟩ := hs.templates t ht
    rw [← hdoc] at hlt hkind
    simpa using ⟨hlt.trans_le hc.nodes, (hc.kinds t hlt).mpr hkind⟩
  · have hnd := hc.linked.nodup s.parent
    rw [hsib] at hnd
    rw [children_detachAll hc.linked, hsib, filter_not_mem_middle hnd]
    simp
  · rfl

theorem unmount_meets (hk : Upkept s inv) (hs : Stands s a m own w) (hi : inv w)
    (hdestroy : ∀ x, m = some x → ∀ v v', inv v → Follows s own v →
      Returns (destroy h x.detector) v () v' →
      inv v' ∧ ∃ own', ends own' = x.extent ∧ Clear s own own' v v')
    (hstop : ∀ x, m = some x → ∀ v st v', outcome (destroy h x.detector) v = (.error st, v') →
      stop st v') :
    Meets stop (unmount h s.point) w fun _ w' => inv w' ∧ Stands s a none [] w' := by
  have hpoint : (w.points.modify s.point fun p => { p with mounted := none })[s.point]? =
      some { owner := s.owner, label := s.label } := by
    rw [Array.getElem?_modify, if_pos rfl, hs.point]
    rfl
  have hi₁ := hk.point w none hi
  unfold unmount
  rw [bind_iff, find_iff hs.point]
  simp only [updatePoint, bind_iff, modify_iff]
  cases m with
  | none =>
    obtain rfl : own = [] := ends_eq_none_iff.mp hs.extent
    exact ⟨hi₁, { hs with point := hpoint }⟩
  | some x =>
    simp only [Option.forM, bind_iff]
    obtain ⟨v, hremove⟩ : ∃ v, Returns (removeChild s.owner x.detector)
      { w with points := w.points.modify s.point fun p => { p with mounted := none } } () v :=
      ⟨_, rfl⟩
    rw [of_outcome hremove]
    obtain ⟨hsize, hchildren⟩ := removeChild_eq hremove
    obtain ⟨hdoc, hpoint'⟩ : v.document = w.document ∧
        v.points[s.point]? = some { owner := s.owner, label := s.label } := by
      cases hremove
      exact ⟨rfl, hpoint⟩
    have hothers : (childrenOf v s.owner).Perm a.others := by
      rw [hchildren]
      refine (hs.children.filter _).trans ?_
      have hkeep : a.others.filter (· != x.detector) = a.others := by
        rw [List.filter_eq_self]
        intro c hc
        have hne : c ≠ x.detector := fun heq => hs.apart x rfl (heq ▸ hc)
        simpa using hne
      simp [hkeep]
    refine of_returns ?_ fun st u ho => hstop x rfl v st u ho
    intro _ u hret
    have hsib : v.document.children s.parent = a.front ++ s.label :: (own ++ a.back) :=
      hdoc ▸ hs.siblings
    obtain ⟨hi₂, own', hx, hclear⟩ := hdestroy x rfl v u (hk.release _ _ v hi₁ hremove)
      ⟨hdoc ▸ hs.linked, _, _, hsib⟩ hret
    have hsib' : u.document.children s.parent = (a.front ++ [s.label]) ++ own' ++ a.back := by
      rw [hclear.siblings _ _ hsib]
      simp
    rw [removeExtent_iff hclear.linked hsib' hx]
    exact ⟨hk.arrange u _ hi₂, hs.emptied hpoint' hsize hdoc hothers hclear⟩

/-- A copy of a template that the code of a branch has bound, with the value it was given. -/
def Branch.Built (h : Host κ υ) (inv : World κ υ → Prop) (br : Branch κ) (v : Option Value)
    (m : Mounted) : Prop :=
  ∃ (e : Document (Reaction κ)) (f : NodeId) (u u' : World κ υ), inv u ∧
    e.clone br.template true = (f, u.document) ∧
    Returns (h.run br.build (.built m.detector f v)) u () u' ∧
    m.extent = u'.document.extent? f

theorem insertAfter_iff (hl : w.document.Linked)
    (hc : w.document.children parent = front ++ label :: back) :
    Meets stop (insertAfter label f) w post ↔
      post () { w with document := w.document.insertBefore parent f back.head? } := by
  have hm : label ∈ w.document.children parent := by
    rw [hc]
    simp
  rw [insertAfter, changeDocument_iff, hl.parent_of_mem hm,
    ← nextSibling?_eq hl hc]

theorem Stands.filled (hs : Stands s a none [] w) (hk : k.kind = .fragment)
    (hm : m.detector = w.detectors.size) (hsize : v.detectors.size = w.detectors.size + 1)
    (hchildren : childrenOf v s.owner = childrenOf w s.owner ++ [m.detector])
    (hpoint : v.points = w.points) (hcopied : Document.Copied k w.document v.document)
    (hc : Clear s [] [] v u) (hx : m.extent = u.document.extent? w.document.nodes.size) :
    Stands s a (some m) (u.document.children w.document.nodes.size)
      { u with
        document := u.document.insertBefore s.parent w.document.nodes.size a.back.head?
        points := u.points.modify s.point fun p => { p with mounted := some m } } := by
  have hknown : s.parent < u.document.nodes.size :=
    hs.known.trans_le (Nat.le_trans hcopied.grown.le hc.nodes)
  have hsib : u.document.children s.parent = (a.front ++ [s.label]) ++ a.back := by
    rw [hc.siblings a.front a.back ((hcopied.children_of_lt hs.known).trans hs.siblings)]
    simp
  obtain ⟨hg, hafter⟩ := insertFragment_between hc.linked hknown
    (hcopied.grown.trans_le hc.nodes)
    ((hc.kinds _ hcopied.grown).mpr (hcopied.kind.trans hk)) hs.known.ne hsib
  constructor
  · rw [Array.getElem?_modify, if_pos rfl, hc.point, hpoint, hs.point]
    rfl
  · exact hs.alive.trans_le (Nat.le_trans (by omega) hc.detectors)
  · have hold : (childrenOf w s.owner).Perm a.others := by simpa using hs.children
    have hnew : childrenOf u s.owner = childrenOf w s.owner ++ [m.detector] :=
      hc.children.trans hchildren
    change (childrenOf u s.owner).Perm (a.others ++ [m.detector])
    rw [hnew]
    exact hold.append_right _
  · exact fun x hx => (hs.bounded x hx).trans_le (Nat.le_trans (by omega) hc.detectors)
  · rintro x hsome hmem
    obtain rfl : m = x := Option.some.inj hsome
    exact Nat.lt_irrefl _ (hm ▸ hs.bounded _ hmem)
  · rintro x hsome
    obtain rfl : m = x := Option.some.inj hsome
    exact hm ▸ hs.alive
  · exact hg.linked
  · simpa using hknown
  · intro t ht
    obtain ⟨hlt, hkind⟩ := hs.templates t ht
    have hlt' := hlt.trans hcopied.grown
    simpa using ⟨hlt'.trans_le hc.nodes,
      (hc.kinds t hlt').mpr ((hcopied.kind_of_lt hlt).trans hkind)⟩
  · change (u.document.insertBefore s.parent _ _).children s.parent = _
    rw [hafter]
    simp
  · rw [Option.bind_some, hx, extent?_eq_ends]

theorem mountBranch_meets (hk : Upkept s inv) (hs : Stands s a none [] w) (hi : inv w)
    (ht : br.template ∈ s.templates)
    (hbuild : ∀ c f v v', inv v → Follows s [] v →
      Returns (h.run br.build (.built c f value)) v () v' → inv v' ∧ Clear s [] [] v v')
    (hstop : ∀ c f v st v', outcome (h.run br.build (.built c f value)) v = (.error st, v') →
      stop st v') : Meets stop (mountBranch h s.point br value) w fun _ w' => inv w' ∧
      ∃ m own, br.Built h inv value m ∧ Stands s a (some m) own w' := by
  unfold mountBranch mountWith
  rw [bind_iff, find_iff hs.point]
  simp only [bind_iff]
  obtain ⟨c, v, hchild⟩ := newChild_returns hs.alive
  rw [of_outcome hchild, extendDocument_iff]
  obtain ⟨hc, hsize, hchildren⟩ := newChild_eq hchild
  have hi₁ := hk.adopt w c v hi hchild
  obtain ⟨ds, rfl⟩ := newChild_world hchild
  obtain ⟨hf, hcopied⟩ := clone_copied hs.linked
  generalize hclone : w.document.clone br.template true = copy at hf hcopied
  obtain ⟨f, e⟩ := copy
  obtain rfl : f = w.document.nodes.size := hf
  have hsib : e.children s.parent = a.front ++ s.label :: ([] ++ a.back) :=
    (hcopied.children_of_lt hs.known).trans hs.siblings
  refine of_returns ?_ fun st u ho => hstop _ _ _ st u ho
  intro _ u hret
  have hi₂ := hk.arrange _ e hi₁
  obtain ⟨hi₃, hclear⟩ := hbuild c _ _ u hi₂ ⟨hcopied.linked, _, _, hsib⟩ hret
  have hsib' : u.document.children s.parent = a.front ++ s.label :: a.back := by
    simpa using hclear.siblings _ _ hsib
  simp only [document_iff, insertAfter_iff hclear.linked hsib', updatePoint,
    modify_iff]
  have hi₄ := hk.point _ (some ⟨c, u.document.extent? w.document.nodes.size⟩)
    (hk.arrange u (u.document.insertBefore s.parent w.document.nodes.size a.back.head?) hi₃)
  refine ⟨hi₄, ⟨c, u.document.extent? w.document.nodes.size⟩,
    u.document.children w.document.nodes.size,
    ⟨w.document, _, _, u, hi₂, hclone, hret, rfl⟩, ?_⟩
  exact hs.filled (v := { w with detectors := ds, document := e }) (hs.templates _ ht).2 hc hsize
    hchildren rfl hcopied hclear rfl

end Steps

end ReactiveMarkup.Reactive
