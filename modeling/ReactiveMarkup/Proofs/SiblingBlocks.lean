import Mathlib.Logic.Function.Basic
import ReactiveMarkup.Proofs.Calm
import ReactiveMarkup.Proofs.Hierarchy
import ReactiveMarkup.Proofs.MountPoint
import ReactiveMarkup.Proofs.TemplateCache
import ReactiveMarkup.Reactive.Block

/-! # Blocks under one parent

Blocks that choose a branch and blocks that show markup, registered with one detector at labels that
are children of one parent. What a block shows stands right after its label, and no block touches
what is another's. User code is taken to leave them alone too.
-/

namespace ReactiveMarkup.Reactive

open List Function Document

variable {κ υ : Type}

/-! ## Blocks and what is known about them -/

inductive BlockKind (κ : Type) where
  | choice (main : Branch κ) (alt : Option (Branch κ))
  | markup

namespace BlockKind

def branches : BlockKind κ → List (Branch κ)
  | choice main alt => main :: alt.toList
  | markup => []

def view : BlockKind κ → Value → Value
  | choice .., v => .bool v.isTruthy
  | markup, v => v

/-- The branch for what was seen last; none before anything has been seen. -/
def chosen : BlockKind κ → Value → Option (Branch κ)
  | choice main alt, .bool b => if b then some main else alt
  | _, _ => none

def register (d : DetectorId) (label : NodeId) (k : κ) : BlockKind κ → Act κ υ Unit
  | choice main alt => ifBlock d label k main alt
  | markup => markupBlock d label k

end BlockKind

/-- A block with the numbers of its watcher and of its record, which is a point or a block of
markup. -/
structure Sibling (κ : Type) where
  kind : BlockKind κ
  label : NodeId
  hook : κ
  watcher : WatcherId
  record : Nat

/-- What a block remembers: the value it has seen last, what is mounted, the last node of its
markup and the trees of it. -/
structure Note where
  seen : Value := .undefined
  mounted : Option Mounted := none
  last : Option NodeId := none
  trees : List (Rose Content) := []

/-- The trees of a value that is shown as markup; a falsy one shows nothing. -/
def Value.trees (page : PageReader) (v : Value) : List (Rose Content) :=
  if v.isTruthy then page.trees v.text false else []

namespace Sibling

def slot (b : Sibling κ) : PointId ⊕ MarkupId :=
  match b.kind with
  | .choice .. => .inl b.record
  | .markup => .inr b.record

def watch (b : Sibling κ) (v : Value) : Watcher κ :=
  match b.kind with
  | .choice main alt =>
    { source := .truth b.hook, action := .chooseBranch b.record main alt, value := v }
  | .markup =>
    { source := .hook b.hook, action := .showMarkup b.record, readOnly := true, value := v }

def record? (b : Sibling κ) (w : World κ υ) : Option (Point ⊕ MarkupBlock) :=
  match b.kind with
  | .choice .. => w.points[b.record]?.map .inl
  | .markup => w.markups[b.record]?.map .inr

def entry (b : Sibling κ) (owner : DetectorId) (x : Note) : Point ⊕ MarkupBlock :=
  match b.kind with
  | .choice .. => .inl { owner, label := b.label, mounted := x.mounted }
  | .markup => .inr { label := b.label, last := x.last }

theorem watch_remember (b : Sibling κ) : { b.watch v with value := v' } = b.watch v' := by
  unfold watch
  cases b.kind <;> rfl

theorem watch_value (b : Sibling κ) : (b.watch v).value = v := by
  unfold watch
  cases b.kind <;> rfl

theorem watch_comparator (b : Sibling κ) : (b.watch v).comparator = .identity := by
  unfold watch
  cases b.kind <;> rfl

end Sibling

/-- Blocks of one owner at children of one parent, whose children were `base` before. Their markup is
read by `page`. -/
structure Family (κ : Type) where
  page : PageReader
  owner : DetectorId
  parent : NodeId
  base : List NodeId
  blocks : List (Sibling κ)

variable {s : Family κ} {b x : Sibling κ} {others others' : List DetectorId}
  {note note' : NodeId → Note} {own own' : NodeId → List NodeId} {d e : Document (Reaction κ)}
  {w w' : World κ υ}

namespace Family

structure Formed (s : Family κ) : Prop where
  base : s.base.Nodup
  labels : (s.blocks.map (·.label)).Nodup
  watchers : (s.blocks.map (·.watcher)).Nodup
  slots : (s.blocks.map (·.slot)).Nodup
  inside : ∀ b ∈ s.blocks, b.label ∈ s.base

variable (s note) in
def mounted : List DetectorId :=
  s.blocks.filterMap fun b => (note b.label).mounted.map (·.detector)

theorem Formed.update (hs : s.Formed) (hb : b ∈ s.blocks) (hx : x ∈ s.blocks)
    (f : NodeId → α) (a : α) :
    x = b ∧ update f b.label a x.label = a ∨
      x ≠ b ∧ x.label ≠ b.label ∧ update f b.label a x.label = f x.label := by
  by_cases hxb : x = b
  · left
    refine ⟨hxb, ?_⟩
    rw [hxb, update_self]
  · right
    have hne : x.label ≠ b.label := fun he =>
      hxb (inj_on_of_nodup_map hs.labels hx hb he)
    exact ⟨hxb, hne, update_of_ne hne _ _⟩

theorem mounted_renote {x : Note} (hx : x.mounted = (note l).mounted) :
    s.mounted (update note l x) = s.mounted note := by
  refine filterMap_congr fun b _ => ?_
  by_cases hl : b.label = l
  · rw [hl, update_self, hx]
  · rw [update_of_ne hl]

theorem Formed.mounted_update (hs : s.Formed) (hb : b ∈ s.blocks)
    (hm : (note' b.label).mounted = some m) (hn : (note b.label).mounted = none)
    (hsame : ∀ l, l ≠ b.label → (note' l).mounted = (note l).mounted) :
    (s.mounted note').Perm (m.detector :: s.mounted note) := by
  obtain ⟨before, after, hsplit⟩ := append_of_mem hb
  have hlabels := hs.labels
  rw [hsplit, map_append, map_cons] at hlabels
  have hnot := (nodup_middle.mp hlabels).notMem
  have hkeep : ∀ bs : List (Sibling κ), (∀ y ∈ bs, y.label ≠ b.label) →
      bs.filterMap (fun y => (note' y.label).mounted.map (·.detector)) =
        bs.filterMap fun y => (note y.label).mounted.map (·.detector) := by
    intro bs hbs
    apply filterMap_congr
    intro y hy
    rw [hsame _ (hbs y hy)]
  have hbefore : ∀ y ∈ before, y.label ≠ b.label := fun y hy he =>
    hnot (mem_append_left _ (he ▸ mem_map_of_mem hy))
  have hafter : ∀ y ∈ after, y.label ≠ b.label := fun y hy he =>
    hnot (mem_append_right _ (he ▸ mem_map_of_mem hy))
  unfold mounted
  rw [hsplit, filterMap_append, filterMap_append, hkeep before hbefore]
  simp only [filterMap_cons, hm, hn, Option.map_some, Option.map_none]
  rw [hkeep after hafter]
  exact perm_middle

end Family

/-! ## What stands in the document -/

variable (s own d) in
/-- The document as the blocks have left it: after each child of the parent that was there before
stand the nodes `own` of the block at that label. -/
structure Drawn : Prop where
  linked : d.Linked
  known : s.parent < d.nodes.size
  templates : ∀ b ∈ s.blocks, ∀ br ∈ b.kind.branches,
    br.template < d.nodes.size ∧ d.kind br.template = .fragment
  faithful : d.Faithful s.page (· = s.parent)
  siblings : d.children s.parent = s.base.flatMap fun n => n :: own n

theorem flatMap_update {base : List NodeId} (hd : base.Nodup) (hl : label ∈ base) :
    ∃ front back, ∀ ns, (base.flatMap fun n => n :: update own label ns n) =
      front ++ [label] ++ ns ++ back := by
  obtain ⟨before, after, rfl⟩ := append_of_mem hl
  have hnot := (nodup_middle.mp hd).notMem
  have hkeep : ∀ (cs : List NodeId) (ns : List NodeId), label ∉ cs →
      (cs.flatMap fun n => n :: update own label ns n) =
        cs.flatMap fun n => n :: own n := by
    intro cs ns hcs
    apply flatMap_congr
    intro n hn
    have hne : n ≠ label := fun he => hcs (he ▸ hn)
    rw [update_of_ne hne]
  refine ⟨before.flatMap fun n => n :: own n, after.flatMap fun n => n :: own n, fun ns => ?_⟩
  rw [flatMap_append, flatMap_cons, hkeep before ns (fun h => hnot (by simp [h])),
    hkeep after ns (fun h => hnot (by simp [h])), update_self]
  simp

namespace Drawn

theorem grown (hd : Drawn s own d) (hl : e.Linked) (hn : d.nodes.size ≤ e.nodes.size)
    (hsame : ∀ n < d.nodes.size, e.nodes[n]? = d.nodes[n]?)
    (hf : e.Faithful s.page (· = s.parent)) : Drawn s own e where
  linked := hl
  known := hd.known.trans_le hn
  templates := by
    intro b hb br hbr
    obtain ⟨hlt, hkind⟩ := hd.templates b hb br hbr
    refine ⟨hlt.trans_le hn, ?_⟩
    rw [kind, content_of_node (hsame _ hlt)]
    exact hkind
  faithful := hf
  siblings := (children_of_node (hsame _ hd.known)).trans hd.siblings

section

variable (hd : Drawn s own d) (hs : s.Formed) (hb : b ∈ s.blocks)
include hd hs hb

theorem around :
    ∃ front back, d.children s.parent = front ++ [b.label] ++ own b.label ++ back ∧
      ∀ ns, (s.base.flatMap fun n => n :: update own b.label ns n) =
        front ++ [b.label] ++ ns ++ back := by
  obtain ⟨front, back, hsplit⟩ := flatMap_update hs.base (hs.inside b hb)
  refine ⟨front, back, ?_, hsplit⟩
  rw [hd.siblings, ← hsplit, update_eq_self]

theorem own_mem : ∀ n ∈ own b.label, n ∈ d.children s.parent ∧ n ∉ s.base := by
  obtain ⟨front, back, hnow, hsplit⟩ := hd.around hs hb
  have hnodup := hd.linked.nodup s.parent
  rw [hnow] at hnodup ⊢
  intro n hn
  refine ⟨by simp [hn], fun hbase => ?_⟩
  -- a child that was there before stands before or after the nodes of the block
  have hother : n ∈ front ++ [b.label] ++ [] ++ back := by
    rw [← hsplit []]
    exact mem_flatMap.mpr ⟨n, hbase, mem_cons_self⟩
  obtain ⟨hfront, -, hback⟩ := nodup_append.mp hnodup
  rw [append_nil] at hother
  rcases mem_append.mp hother with h | h
  · exact (nodup_append.mp hfront).2.2 n h n hn rfl
  · exact hback n (mem_append_right _ hn) n h rfl

theorem removed :
    Drawn s (update own b.label []) ((own b.label).foldl detach d) := by
  obtain ⟨front, back, hnow, hsplit⟩ := hd.around hs hb
  have hmem : ∀ n ∈ own b.label, n ∈ d.children s.parent := by
    intro n hn
    rw [hnow]
    simp [hn]
  constructor
  · exact linked_detachAll hd.linked
  · simpa using hd.known
  · simpa using hd.templates
  · exact hd.faithful.detachAll hd.linked hmem
  · have hnodup := hd.linked.nodup s.parent
    rw [hnow] at hnodup
    rw [children_detachAll hd.linked, hnow, filter_not_mem_middle hnodup, hsplit]
    simp

theorem clear_eq (hl : (own b.label).getLast? = some last) : (match d.nextSibling? b.label with
      | some first => d.removeRange first last
      | none => d) = (own b.label).foldl detach d := by
  obtain ⟨front, back, hnow, -⟩ := hd.around hs hb
  obtain ⟨first, rest, hown⟩ : ∃ first rest, own b.label = first :: rest := by
    cases hns : own b.label with
    | nil => simp [hns] at hl
    | cons first rest => exact ⟨first, rest, rfl⟩
  have hends : ends (own b.label) = some (first, last) := by
    rw [ends, hl, hown]
    rfl
  have hfirst : d.nextSibling? b.label = some first := by
    rw [nextSibling?_eq hd.linked (by simpa using hnow), hown]
    rfl
  rw [hfirst]
  exact removeRange_eq hd.linked hnow hends

theorem inserted (hempty : own b.label = []) (hf : f < d.nodes.size) (hk : d.kind f = .fragment)
    (hne : s.parent ≠ f) (hfaith : d.Faithful s.page fun q => q = s.parent ∨ q = f) :
    Drawn s (update own b.label (d.children f))
      (d.insertBefore s.parent f (d.nextSibling? b.label)) := by
  obtain ⟨front, back, hnow, hsplit⟩ := hd.around hs hb
  rw [hempty, append_nil] at hnow
  obtain ⟨hg, hafter⟩ := insertFragment_between hd.linked hd.known hf hk hne hnow
  rw [nextSibling?_eq hd.linked (by simpa using hnow)]
  constructor
  · exact hg.linked
  · simpa using hd.known
  · simpa using hd.templates
  · exact hfaith.insertFragment hk
  · rw [hafter, hsplit]

theorem mem_siblings : b.label ∈ d.children s.parent := by
  obtain ⟨front, back, hnow, -⟩ := hd.around hs hb
  rw [hnow]
  simp

end

end Drawn

theorem Meets.insertAfter_iff (hd : Drawn s own w.document) (hs : s.Formed) (hb : b ∈ s.blocks) :
    Meets stop (insertAfter b.label f) w post ↔
      post () { w with
        document := w.document.insertBefore s.parent f (w.document.nextSibling? b.label) } := by
  rw [insertAfter, Meets.changeDocument_iff, hd.linked.parent_of_mem (hd.mem_siblings hs hb)]

variable (s note own) in
/-- The trees of each block of markup stand at its nodes, away from the nodes to be avoided. -/
def Worded (avoid : NodeId → Prop) (d : Document (Reaction κ)) : Prop :=
  ∀ b ∈ s.blocks, b.kind = .markup →
    d.HoldsAll (d.Away avoid) (note b.label).trees (own b.label)

namespace Worded

variable {avoid avoid' : NodeId → Prop}

section

variable (hw : Worded s note own avoid d)
include hw

theorem agrees
    (ha : Document.Agrees (d.Away avoid) (e.Away avoid') d e) : Worded s note own avoid' e :=
  fun b hb hk => Document.HoldsAll.agrees ha _ _ (hw b hb hk)

theorem mono (ha : ∀ q, avoid' q → avoid q) : Worded s note own avoid' d :=
  hw.agrees (agrees_of_imp ha)

theorem change (hs : s.Formed) (hb : b ∈ s.blocks) (x : Note)
    (ns : List NodeId) (hx : b.kind = .markup → d.HoldsAll (d.Away avoid) x.trees ns) :
    Worded s (update note b.label x) (update own b.label ns) avoid d := by
  intro y hy hk
  rcases hs.update hb hy note x with ⟨rfl, he⟩ | ⟨_, hne, he⟩
  · rw [he, update_self]
    exact hx hk
  · rw [he, update_of_ne hne]
    exact hw y hy hk

theorem renote (hs : s.Formed) (hb : b ∈ s.blocks) (x : Note)
    (hx : x.trees = (note b.label).trees) :
    Worded s (update note b.label x) own avoid d := by
  have hchange := hw.change hs hb x (own b.label) fun hk => hx ▸ hw b hb hk
  rwa [update_eq_self] at hchange

end

end Worded

/-! ## What is on record -/

variable (s others note w) in
/-- The records as the blocks have left them: the owner has the children `others` and those of what
is mounted, and each block has its watcher and its record. -/
structure Filed : Prop where
  alive : s.owner < w.detectors.size
  hierarchy : Hierarchy w
  children : (childrenOf w s.owner).Perm (others ++ s.mounted note)
  listed : ∀ b ∈ s.blocks, b.watcher ∈ watchersOf w s.owner
  watchers : ∀ b ∈ s.blocks, w.watchers[b.watcher]? = some (b.watch (note b.label).seen)
  records : ∀ b ∈ s.blocks, b.record? w = some (b.entry s.owner (note b.label))

namespace Filed

theorem dismiss (hf : Filed s (c :: others) note w) (hret : Returns (removeChild s.owner c) w () w')
    : Filed s others note w' := by
  obtain ⟨hsize, hchildren⟩ := removeChild_eq hret
  have hlisted : watchersOf w' s.owner = watchersOf w s.owner := by
    cases hret
    exact watchersOf_modify_of
      (f := fun d => { d with children := d.children.filter (· != c) }) (fun _ => rfl) _ _
  have hrest : (others ++ s.mounted note).filter (· != c) = others ++ s.mounted note := by
    have hnodup := hf.children.nodup (hf.hierarchy.once s.owner)
    rw [cons_append, nodup_cons] at hnodup
    rw [filter_eq_self]
    intro x hx
    have hne : x ≠ c := fun he => hnodup.1 (he ▸ hx)
    simpa using hne
  cases hret
  refine ⟨hsize ▸ hf.alive, ?_, ?_, hlisted ▸ hf.listed, hf.watchers, hf.records⟩
  · exact hf.hierarchy.modify s.owner (fun _ => filter_sublist) fun _ => .refl _
  · rw [hchildren]
    refine (hf.children.filter _).trans ?_
    rw [cons_append, filter_cons_of_neg (by simp), hrest]

variable (hf : Filed s others note w)
include hf

theorem arrange (e : Document (Reaction κ)) :
    Filed s others note { w with document := e } :=
  ⟨hf.alive, hf.hierarchy.of_same rfl rfl, hf.children, hf.listed, hf.watchers, hf.records⟩

theorem newer (hb : b ∈ s.blocks) (hm : (note b.label).mounted = some m) : s.owner < m.detector := by
  have hmounted : m.detector ∈ s.mounted note := mem_filterMap.mpr ⟨b, hb, by rw [hm]; rfl⟩
  have hchild : m.detector ∈ childrenOf w s.owner :=
    hf.children.mem_iff.mpr (mem_append_right others hmounted)
  exact (hf.hierarchy.newer s.owner _ hchild).1

theorem adopt (hret : Returns (newChild s.owner) w c w') :
    Filed s (c :: others) note w' := by
  have htree := hf.hierarchy.adopt hf.alive hret
  obtain ⟨hc, hsize, hchildren⟩ := newChild_eq hret
  have hlisted := newChild_watchersOf hret s.owner
  obtain ⟨ds, rfl⟩ := newChild_world hret
  refine ⟨?_, htree, ?_, ?_, hf.watchers, hf.records⟩
  · rw [hsize]
    exact Nat.lt_succ_of_lt hf.alive
  · rw [hchildren]
    exact (perm_append_comm.trans (hf.children.cons c))
  · rw [hlisted]
    exact hf.listed

variable (hs : s.Formed) (hb : b ∈ s.blocks)
include hs hb

theorem remember : Filed s others (update note b.label { note b.label with seen := v })
      (w.remember b.watcher v) := by
  refine ⟨hf.alive, hf.hierarchy.of_same rfl (by simp [World.remember]), ?_, hf.listed, ?_, ?_⟩
  · rw [Family.mounted_renote]
    · exact hf.children
    · rfl
  · intro x hx
    rw [World.remember, Array.getElem?_modify]
    rcases hs.update hb hx note { note b.label with seen := v } with ⟨rfl, he⟩ | ⟨hxb, _, he⟩
    · rw [he, if_pos rfl, hf.watchers x hx, Option.map_some, x.watch_remember]
    · have hne : b.watcher ≠ x.watcher := fun h =>
        hxb (inj_on_of_nodup_map hs.watchers hx hb h.symm)
      rw [he, if_neg hne, hf.watchers x hx]
  · intro x hx
    refine (hf.records x hx).trans ?_
    rcases hs.update hb hx note { note b.label with seen := v } with ⟨rfl, he⟩ | ⟨_, _, he⟩ <;>
      rw [he]
    rfl

theorem refile {x : Note} (hx : x.seen = (note b.label).seen) (hd : w'.detectors = w.detectors)
    (hw : w'.watchers = w.watchers) (hown : b.record? w' = some (b.entry s.owner x))
    (hpoints : ∀ r, .inl r ≠ b.slot → w'.points[r]? = w.points[r]?)
    (hmarkups : ∀ r, .inr r ≠ b.slot → w'.markups[r]? = w.markups[r]?)
    (hperm : (others ++ s.mounted note).Perm
      (others' ++ s.mounted (update note b.label x))) :
    Filed s others' (update note b.label x) w' := by
  have hchildren : childrenOf w' s.owner = childrenOf w s.owner := by simp only [childrenOf, hd]
  have hlisted : watchersOf w' s.owner = watchersOf w s.owner := by simp only [watchersOf, hd]
  constructor
  · rw [hd]
    exact hf.alive
  · exact hf.hierarchy.of_same hd (by rw [hw])
  · rw [hchildren]
    exact hf.children.trans hperm
  · rw [hlisted]
    exact hf.listed
  · intro y hy
    rw [hw, hf.watchers y hy]
    rcases hs.update hb hy note x with ⟨rfl, he⟩ | ⟨_, _, he⟩
    · rw [he, hx]
    · rw [he]
  · intro y hy
    rcases hs.update hb hy note x with ⟨rfl, he⟩ | ⟨hyb, _, he⟩
    · rw [he, hown]
    · have hne : y.slot ≠ b.slot := fun h => hyb (inj_on_of_nodup_map hs.slots hy hb h)
      rw [he, ← hf.records y hy]
      unfold Sibling.record?
      rw [Sibling.slot.eq_def y] at hne
      cases hkind : y.kind with
      | choice main alt =>
        rw [hkind] at hne
        simp only [hpoints _ hne]
      | markup =>
        rw [hkind] at hne
        simp only [hmarkups _ hne]

/-- Another branch is mounted at the point of a block, or none; its detector comes from `others` or
goes there. -/
theorem point (hk : b.kind = .choice main alt) (hperm : (others ++ s.mounted note).Perm
      (others' ++ s.mounted (update note b.label { note b.label with mounted := m }))) :
    Filed s others' (update note b.label { note b.label with mounted := m })
      { w with points := w.points.modify b.record fun p => { p with mounted := m } } := by
  have hpoint := hf.records b hb
  simp only [Sibling.record?, Sibling.entry, hk, Option.map_eq_some_iff, Sum.inl.injEq,
    exists_eq_right] at hpoint
  refine hf.refile hs hb rfl rfl rfl ?_ (fun r hr => ?_) (fun _ _ => rfl) hperm
  · simp [Sibling.record?, Sibling.entry, hk, Array.getElem?_modify, hpoint]
  · have hne : b.record ≠ r := by simpa [Sibling.slot, hk, eq_comm] using hr
    rw [Array.getElem?_modify, if_neg hne]

theorem mark (hk : b.kind = .markup) : Filed s others
      (update note b.label { note b.label with last := last, trees := trees })
      { w with markups := w.markups.modify b.record fun p => { p with last := last } } := by
  have hmarkup := hf.records b hb
  simp only [Sibling.record?, Sibling.entry, hk, Option.map_eq_some_iff, Sum.inr.injEq,
    exists_eq_right] at hmarkup
  refine hf.refile hs hb rfl rfl rfl ?_ (fun _ _ => rfl) (fun r hr => ?_)
    (by rw [Family.mounted_renote]; rfl)
  · simp [Sibling.record?, Sibling.entry, hk, Array.getElem?_modify, hmarkup]
  · have hne : b.record ≠ r := by simpa [Sibling.slot, hk, eq_comm] using hr
    rw [Array.getElem?_modify, if_neg hne]

end Filed

end ReactiveMarkup.Reactive
