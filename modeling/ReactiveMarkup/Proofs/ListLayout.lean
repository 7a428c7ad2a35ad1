import Mathlib.Data.List.Flatten
import ReactiveMarkup.Proofs.Copies
import ReactiveMarkup.Proofs.OwnedChildren
import ReactiveMarkup.Proofs.Places
import ReactiveMarkup.Reactive.Items

/-! # The layout of lists

User code is taken to touch nothing but the range of the item it is of.
-/

namespace ReactiveMarkup.Reactive

open Meets Document
open List hiding after forM mapM foldlM getElem?_eq_some_iff

variable {κ υ : Type}

def Item.nodes (d : Document (Reaction κ)) (i : Item κ) : List NodeId :=
  match i.extent with
  | some e => d.range e.1 e.2
  | none => []

def nodesOf (d : Document (Reaction κ)) (e : Key × Item κ) : List NodeId := e.2.nodes d

/-- What stands before the items of a list: its label and all before that, or nothing. -/
inductive Anchor.Heads (parent : NodeId) : Anchor → List NodeId → Prop where
  | after (before : List NodeId) (label : NodeId) : Heads parent (.after label) (before ++ [label])
  | inside : Heads parent (.inside parent) []

structure Layout (parent : NodeId) (front : List NodeId) (live : List (Key × Item κ))
    (back : List NodeId) (d : Document (Reaction κ)) : Prop where
  known : parent < d.nodes.size
  linked : d.Linked
  extents : ∀ e ∈ live, ends (nodesOf d e) = e.2.extent
  children : d.children parent = front ++ live.flatMap (nodesOf d) ++ back

theorem Layout.nodup (hl : Layout p front live back d) :
    (front ++ live.flatMap (nodesOf d) ++ back).Nodup := hl.children ▸ hl.linked.nodup p

theorem Layout.nodup_live (hl : Layout p front live back d) :
    (live.flatMap (nodesOf d)).Nodup := (nodup_append.mp (nodup_append.mp hl.nodup).1).2.1

theorem Layout.single (hl : Layout p front live back d) (he : e ∈ live)
    (hs : e.2.single? = some t) : nodesOf d e = [t] := by
  have hown : (nodesOf d e).Nodup := (nodup_flatMap.mp hl.nodup_live).1 e he
  refine eq_singleton_of_ends hown ((hl.extents e he).trans ?_)
  obtain ⟨⟨a, z⟩, hx, hif⟩ := Option.bind_eq_some_iff.mp hs
  have haz : a = z := by
    by_contra hne
    simp [hne] at hif
  subst haz
  obtain rfl : a = t := by simpa using hif
  exact hx

/-! ## User code -/

/-- From `w` to `w'`, nothing under `parent` has changed but the range `own`, which is now `own'`;
of the nodes `kin` none that had been taken out has been put anywhere. -/
structure Confined (i : ListId) (parent : NodeId) (kin own own' : List NodeId)
    (w w' : World κ υ) : Prop where
  block : w'.lists[i]? = w.lists[i]?
  detectors : w.detectors.size ≤ w'.detectors.size
  nodes : w.document.nodes.size ≤ w'.document.nodes.size
  linked : w'.document.Linked
  kinds : ∀ n < w.document.nodes.size,
    (w'.document.kind n = .fragment ↔ w.document.kind n = .fragment)
  loose : ∀ n ∈ kin, w.document.parent? n = none → w'.document.parent? n = none
  siblings : ∀ front back, w.document.children parent = front ++ own ++ back →
    w'.document.children parent = front ++ own' ++ back

def InPlace (parent : NodeId) (own : List NodeId) (w : World κ υ) : Prop :=
  w.document.Linked ∧ ∃ front back, w.document.children parent = front ++ own ++ back

def kinOf (b : ListBlock κ) (d : Document (Reaction κ)) : List NodeId := b.live.flatMap (nodesOf d)

/-- What a list does by itself between two calls of user code. -/
inductive Upkeep (i : ListId) (b : ListBlock κ) (w : World κ υ) : World κ υ → Prop where
  | arrange (e : Document (Reaction κ)) : Upkeep i b w { w with document := e }
  | adopt (c : DetectorId) (w' : World κ υ) : Returns (newChild b.owner) w c w' → Upkeep i b w w'
  | release (e : Key × Item κ) (w' : World κ υ) : e ∈ b.live →
      Returns (removeChild b.owner e.2.detector) w () w' → Upkeep i b w w'
  | relist (live : List (Key × Item κ)) (w' : World κ υ) :
      Returns (updateList i fun c => { c with live := live }) w () w' → Upkeep i b w w'

/-- In the worlds `valid`, the code of each item touches only the item's own range, whose ends stay.
A new item is built within a new copy of the template, and keys are only read. -/
structure StaysInside (h : Host κ υ) (i : ListId) (b : ListBlock κ) (parent : NodeId)
    (d : Document (Reaction κ)) (valid : World κ υ → Prop) : Prop where
  upkeep : ∀ w w', valid w → Upkeep i b w w' → valid w'
  key : ∀ k, b.keyOf = some k → ∀ v n w r w', valid w → InPlace parent [] w →
    Returns (h.key k v n) w r w' → valid w' ∧ Confined i parent (kinOf b d) [] [] w w'
  build : ∀ detector f n v (e : Document (Reaction κ)) w r w', valid w → InPlace parent [] w →
    parent < e.nodes.size → e.clone b.template true = (f, w.document) →
    Returns (h.buildItem b.build detector f n v) w r w' →
    valid w' ∧ Confined i parent (kinOf b d) [] [] w w'
  rebind : ∀ e ∈ b.live, ∀ n v w w', valid w → InPlace parent (nodesOf d e) w →
    Returns (h.run e.2.rebind (.rebound n v)) w () w' →
    valid w' ∧ ∃ own', ends own' = e.2.extent ∧
      Confined i parent (kinOf b d) (nodesOf d e) own' w w'
  drop : ∀ e ∈ b.live, ∀ w w', valid w → InPlace parent (nodesOf d e) w →
    Returns (destroy h e.2.detector) w () w' →
    valid w' ∧ ∃ own', ends own' = e.2.extent ∧
      Confined i parent (kinOf b d) (nodesOf d e) own' w w'

/-- Code of a list, or the destruction of one of its items, has stopped with `s` in `w'`. -/
inductive Stopped (h : Host κ υ) (b : ListBlock κ) (s : Stop) (w' : World κ υ) : Prop where
  | key (k : κ) (v : Value) (n : Nat) (w : World κ υ) :
      b.keyOf = some k → outcome (h.key k v n) w = (.error s, w') → Stopped h b s w'
  | build (detector f n : Nat) (v : Value) (w : World κ υ) :
      outcome (h.buildItem b.build detector f n v) w = (.error s, w') → Stopped h b s w'
  | rebind (e : Key × Item κ) (n : Nat) (v : Value) (w : World κ υ) :
      e ∈ b.live → outcome (h.run e.2.rebind (.rebound n v)) w = (.error s, w') → Stopped h b s w'
  | drop (e : Key × Item κ) (w : World κ υ) :
      e ∈ b.live → outcome (destroy h e.2.detector) w = (.error s, w') → Stopped h b s w'

/-- How an item came to a position with its nodes: it was kept and told its new index and value, or
it was built in a new copy of the template. -/
inductive Origin (h : Host κ υ) (b : ListBlock κ) (d : Document (Reaction κ)) (index : Nat)
    (value : Value) (item : Item κ) (nodes : List NodeId) : Prop where
  | kept (key : Key) (w w' : World κ υ) : (key, item) ∈ b.live →
      Returns (h.run item.rebind (.rebound index value)) w () w' →
      item.nodes w.document = item.nodes d → nodes = item.nodes w'.document →
      Origin h b d index value item nodes
  | built (f : NodeId) (e : Document (Reaction κ)) (w w' : World κ υ) :
      e.clone b.template true = (f, w.document) →
      Returns (h.buildItem b.build item.detector f index value) w item.rebind w' →
      nodes = w'.document.children f → Origin h b d index value item nodes

/-! ## What all steps keep -/

section Steps

variable {h : Host κ υ} {i : ListId} {b : ListBlock κ} {p : NodeId} {front back : List NodeId}
  {d : Document (Reaction κ)} {valid : World κ υ → Prop} {w w' : World κ υ} {keys : List Key}

structure Ready (i : ListId) (b : ListBlock κ) (parent : NodeId) (valid : World κ υ → Prop)
    (w : World κ υ) : Prop where
  block : ∃ live, w.lists[i]? = some { b with live := live }
  owner : b.owner < w.detectors.size
  known : parent < w.document.nodes.size
  template : b.template < w.document.nodes.size
  fragment : w.document.kind b.template = .fragment
  linked : w.document.Linked
  valid : valid w

variable (hu : StaysInside h i b p d valid) (hr : Ready i b p valid w)

namespace Ready

include hr in
theorem confined (hv : valid w') (hc : Confined i p kin own own' w w') : Ready i b p valid w' where
  block := by rw [hc.block]; exact hr.block
  owner := hr.owner.trans_le hc.detectors
  known := hr.known.trans_le hc.nodes
  template := hr.template.trans_le hc.nodes
  fragment := (hc.kinds _ hr.template).mpr hr.fragment
  linked := hc.linked
  valid := hv

include hu hr in
theorem arrange (hl : e.Linked) (hs : w.document.nodes.size ≤ e.nodes.size)
    (hk : e.kind b.template = w.document.kind b.template) :
    Ready i b p valid { w with document := e } where
  block := hr.block
  owner := hr.owner
  known := hr.known.trans_le hs
  template := hr.template.trans_le hs
  fragment := hk.trans hr.fragment
  linked := hl
  valid := hu.upkeep _ _ hr.valid (.arrange e)

include hr in
theorem inPlace : InPlace p [] w := ⟨hr.linked, w.document.children p, [], by simp⟩

end Ready

include hu hr in
theorem newChild_meets :
    Meets (Stopped h b) (newChild b.owner) w fun _ w' =>
      Ready i b p valid w' ∧ w'.document = w.document := by
  obtain ⟨c, w', hret⟩ := newChild_returns hr.owner
  obtain ⟨-, hsize, -⟩ := newChild_eq hret
  obtain ⟨ds, rfl⟩ := newChild_world hret
  refine (of_outcome hret).mpr ⟨?_, rfl⟩
  exact
    { hr with
      owner := by
        rw [hsize]
        exact Nat.lt_succ_of_lt hr.owner
      valid := hu.upkeep _ _ hr.valid (.adopt c _ hret) }

include hu hr in
theorem removeChild_meets (he : e ∈ b.live) :
    Meets (Stopped h b) (removeChild b.owner e.2.detector) w fun _ w' =>
      Ready i b p valid w' ∧ w'.document = w.document := by
  have hret : Returns (removeChild b.owner e.2.detector) w () _ := rfl
  refine (of_outcome hret).mpr ⟨?_, rfl⟩
  exact
    { hr with
      owner := by simpa using hr.owner
      valid := hu.upkeep _ _ hr.valid (.release e _ he hret) }

/-! ## Dropping -/

include hu in
theorem dropItem_meets (he : e ∈ b.live) (hr : Ready i b p valid w) (before after : List NodeId)
    (hc : w.document.children p = before ++ nodesOf d e ++ after) :
    Meets (Stopped h b) (dropItem h b.owner e.2) w fun _ w' =>
      Ready i b p valid w' ∧ w'.document.children p = before ++ after := by
  simp only [dropItem, bind_iff]
  refine (removeChild_meets hu hr he).mono ?_
  rintro _ v ⟨hr', hdoc⟩
  rw [← hdoc] at hc
  refine of_returns ?_ fun s w' hs => Stopped.drop e _ he hs
  intro _ w' hret
  obtain ⟨hv, own', hends, hconf⟩ :=
    hu.drop e he v w' hr'.valid ⟨hr'.linked, before, after, hc⟩ hret
  have hr'' := hr'.confined hv hconf
  have hsib := hconf.siblings before after hc
  cases hx : e.2.extent with
  | none =>
    rw [hx, ends_eq_none_iff] at hends
    subst hends
    exact ⟨hr'', by simpa using hsib⟩
  | some x =>
    rw [hx] at hends
    have heq := removeRange_eq hr''.linked hsib hends
    change Ready i b p valid { w' with document := w'.document.removeRange x.1 x.2 } ∧
      (w'.document.removeRange x.1 x.2).children p = _
    rw [heq]
    refine ⟨hr''.arrange hu (linked_detachAll hr''.linked) (by simp) (by simp), ?_⟩
    have hnd := hr''.linked.nodup p
    rw [hsib] at hnd
    rw [children_detachAll hr''.linked, hsib]
    exact filter_not_mem_middle hnd

structure Kept (b : ListBlock κ) (wanted : List Key) (kept : List (Key × Item κ)) : Prop where
  keys : (kept.map (·.1)).Nodup
  wanted : ∀ e ∈ kept, e.1 ∈ wanted
  live : kept.Sublist b.live

include hu in
theorem retire_carries (wanted : List Key)
    (inv : List (Key × Item κ) → List (Key × Item κ) → World κ υ → Prop)
    (hkeep : ∀ kept e rest v, (wanted.contains e.1 && !kept.any (·.1 == e.1)) = true →
      inv kept (e :: rest) v → inv (kept ++ [e]) rest v)
    (hdrop : ∀ kept e rest v v', (wanted.contains e.1 && !kept.any (·.1 == e.1)) = false →
      e ∈ b.live → Ready i b p valid v → Returns (dropItem h b.owner e.2) v () v' →
      inv kept (e :: rest) v → inv kept rest v')
    (rest kept : List (Key × Item κ)) (hk : (kept.map (·.1)).Nodup) (hw : ∀ e ∈ kept, e.1 ∈ wanted)
    (hs : (kept ++ rest).Sublist b.live) (hr : Ready i b p valid w)
    (hc : w.document.children p = front ++ (kept ++ rest).flatMap (nodesOf d) ++ back)
    (hi : inv kept rest w) :
    Meets (Stopped h b) (retire h b.owner wanted kept rest) w fun kept' w' =>
      (Kept b wanted kept' ∧ Ready i b p valid w' ∧
        w'.document.children p = front ++ kept'.flatMap (nodesOf d) ++ back) ∧
      inv kept' [] w' := by
  induction rest generalizing kept w with
  | nil =>
    rw [append_nil] at hs hc
    exact ⟨⟨⟨hk, hw, hs⟩, hr, hc⟩, hi⟩
  | cons e rest ih =>
    rw [retire]
    split
    · next hif =>
      have hwanted := hif
      simp only [Bool.and_eq_true, contains_eq_mem, decide_eq_true_eq, Bool.not_eq_true',
        any_eq_false, beq_iff_eq] at hwanted
      refine ih (kept ++ [e]) ?_ ?_ (by simpa using hs) hr (by simpa using hc)
        (hkeep kept e rest w hif hi)
      · rw [map_append, nodup_append]
        refine ⟨hk, by simp, ?_⟩
        rintro x hx y hy rfl
        obtain ⟨f, hf, rfl⟩ := mem_map.mp hx
        exact hwanted.2 f hf (by simpa using hy)
      · exact forall_mem_append.mpr ⟨hw, forall_mem_singleton.mpr hwanted.1⟩
    · next hif =>
      have he : e ∈ b.live := hs.subset (by simp)
      rw [bind_iff]
      refine (dropItem_meets hu he hr (front ++ kept.flatMap (nodesOf d))
        (rest.flatMap (nodesOf d) ++ back) (by rw [hc]; simp)).and_returns.mono ?_
      rintro _ w' ⟨hret, hr', hc'⟩
      refine ih kept hk hw ?_ hr' (by rw [hc']; simp)
        (hdrop kept e rest w w' (by simpa using hif) he hr hret hi)
      exact List.Sublist.trans
        (List.Sublist.append_left (sublist_cons_self e rest) kept) hs

/-! ## Filling a position -/

theorem nextPlace_eq (hl : e.Linked) (hc : e.children p = before ++ after) :
    nextPlace e p before.getLast? = after.head? := by
  rcases eq_nil_or_concat before with rfl | ⟨before, _, rfl⟩
  · simp [nextPlace, firstChild?, hc]
  · rw [concat_eq_append, getLast?_concat]
    exact nextSibling?_eq hl (by simpa using hc)

theorem moveItem_placed (hp : Placed seg p front placed back (before ++ entry :: after) outs e)
    (hd : ((before ++ entry :: after).flatMap seg).Nodup) (hx : ends (seg entry) = some (a, z))
    (ht : target = (standing seg (before ++ entry :: after) outs ++ back).head?)
    (hne : target ≠ some a) (swaps : Bool) (hs : swaps = true → a = z ∧
      ∀ t, target = some t → ∃ x ∈ before ++ entry :: after, seg x = [t]) :
    ∃ outs', Placed seg p front (placed ++ seg entry) back (before ++ after) outs'
      (moveItem e p target swaps (a, z)) := by
  have hmove : moveItem e p target false (a, z) =
      (seg entry).foldl (fun d n => d.insertBefore p n target) e := by
    rw [moveItem, hp.range_eq hd hx]
    simp
  have hmoved := hp.move hd hx (ht ▸ hne)
  rw [← ht, ← hmove] at hmoved
  cases swaps with
  | false => exact ⟨_, hmoved⟩
  | true =>
    cases htarget : target with
    | none =>
      rw [htarget] at hmoved
      exact ⟨_, hmoved⟩
    | some t =>
      obtain ⟨rfl, hsingle⟩ := hs rfl
      obtain ⟨x, hm, hxt⟩ := hsingle t htarget
      have hta : t ≠ a := by
        rintro rfl
        exact hne htarget
      exact ⟨_, hp.swap hd hx (eq_singleton_of_ends (Placed.nodup_entry hd) hx) (ht ▸ htarget) hta
        hm hxt⟩

theorem Placed.confined (hp : Placed seg p front (placed ++ own) back waiting outs w.document)
    (hc : Confined i p kin own own' w w') (hk : ∀ x ∈ waiting, ∀ n ∈ seg x, n ∈ kin) :
    Placed seg p front (placed ++ own') back waiting outs w'.document := by
  refine hp.carry hc.linked hc.nodes hc.kinds ?_ ?_
  · intro t ht
    obtain ⟨hl, _, _, x, hx, hs⟩ := hp.out t ht
    exact hc.loose t (hk x hx t (by simp [hs])) hl
  · have hsplit : w.document.children p =
        (front ++ placed) ++ own ++ (standing seg waiting outs ++ back) := by
      rw [hp.children]
      simp
    rw [hc.siblings _ _ hsplit]
    simp

theorem Item.nodes_eq {item : Item κ} (hl : e.Linked)
    (hc : e.children p = before ++ own ++ after) (hx : ends own = item.extent) :
    item.nodes e = own := by
  unfold Item.nodes
  cases hext : item.extent with
  | none =>
    rw [hext, ends_eq_none_iff] at hx
    exact hx.symm
  | some x =>
    rw [hext] at hx
    exact range_eq hl hc hx

theorem shape_moveItem {e : Document (Reaction κ)} :
    (moveItem e p target swaps extent).nodes.size = e.nodes.size ∧
      ∀ j, (moveItem e p target swaps extent).kind j = e.kind j := by
  have hfold : ∀ (ns : List NodeId) (e : Document (Reaction κ)),
      let f := ns.foldl (fun d n => d.insertBefore p n target) e
      f.nodes.size = e.nodes.size ∧ ∀ j, f.kind j = e.kind j := by
    intro ns
    induction ns with
    | nil => exact fun e => ⟨rfl, fun _ => rfl⟩
    | cons n ns ih =>
      intro e
      obtain ⟨hs, hk⟩ := ih (e.insertBefore p n target)
      exact ⟨hs.trans (by simp), fun j => (hk j).trans (by simp)⟩
  unfold moveItem
  split
  · unfold replaceChild
    split
    · exact ⟨rfl, fun _ => rfl⟩
    · simp
  · exact hfold _ e

/-- The item at the next position has come to stand after those placed before it. -/
structure Joined (h : Host κ υ) (i : ListId) (b : ListBlock κ) (parent : NodeId)
    (front placed back : List NodeId) (d : Document (Reaction κ)) (valid : World κ υ → Prop)
    (index : Nat) (value : Value) (waiting : List (Key × Item κ)) (item : Item κ)
    (own : List NodeId) (w : World κ υ) : Prop where
  ready : Ready i b parent valid w
  extent : ends own = item.extent
  origin : Origin h b d index value item own
  placed : ∃ outs, Placed (nodesOf d) parent front (placed ++ own) back waiting outs w.document

section Position

variable {placed outs : List NodeId} {target : Option NodeId}

/-- How the nodes of a kept item come to their place, before its own code runs. -/
def moveKept (parent : NodeId) (target : Option NodeId) (singles : List NodeId)
    (nextKey : Option Key) (reusable : List (Key × Item κ)) (item : Item κ) : Act κ υ Unit :=
  item.extent.forM fun extent => do
    let d ← document
    if target != some extent.1 then
      let swaps := item.single?.isSome && target.any singles.contains &&
        nextIsKept d target nextKey reusable
      changeDocument fun d => moveItem d parent target swaps extent

theorem keepItem_eq :
    keepItem h p target singles nextKey reusable index value item = (do
      moveKept p target singles nextKey reusable item
      h.run item.rebind (.rebound index value)) := rfl

/-- `entry`, one of the items that wait, is the next to be placed. -/
structure Movable (b : ListBlock κ) (parent : NodeId) (front placed back : List NodeId)
    (d : Document (Reaction κ)) (before : List (Key × Item κ)) (entry : Key × Item κ)
    (after : List (Key × Item κ)) (outs : List NodeId) (target : Option NodeId)
    (singles : List NodeId) (w : World κ υ) : Prop where
  live : ∀ x ∈ before ++ entry :: after, x ∈ b.live
  placed : Placed (nodesOf d) parent front placed back (before ++ entry :: after) outs w.document
  nodup : ((before ++ entry :: after).flatMap (nodesOf d)).Nodup
  extent : ends (nodesOf d entry) = entry.2.extent
  next : target = (standing (nodesOf d) (before ++ entry :: after) outs ++ back).head?
  single : ∀ t ∈ singles, target = some t → ∃ x ∈ before ++ entry :: after, nodesOf d x = [t]

include hu hr in
theorem moveKept_meets
    (hm : Movable b p front placed back d before entry after outs target singles w) :
    Meets (Stopped h b) (moveKept p target singles nextKey reusable entry.2) w fun _ v =>
      (∃ e, v = { w with document := e }) ∧ Ready i b p valid v ∧
        ∃ outs', Placed (nodesOf d) p front (placed ++ nodesOf d entry) back
          (before ++ after) outs' v.document := by
  have hx := hm.extent
  unfold moveKept
  cases hext : entry.2.extent with
  | none =>
    rw [hext, ends_eq_none_iff] at hx
    exact ⟨⟨_, rfl⟩, hr, _, hm.placed.settle_nil hm.nodup hx⟩
  | some x =>
    obtain ⟨a, z⟩ := x
    rw [hext] at hx
    simp only [Option.forM, bind_iff, document_iff]
    split
    · next hne =>
      rw [changeDocument_iff]
      obtain ⟨outs', hp'⟩ := moveItem_placed hm.placed hm.nodup hx hm.next (by simpa using hne)
        (entry.2.single?.isSome && target.any singles.contains &&
          nextIsKept w.document target nextKey reusable) (by
        intro hsw
        simp only [Bool.and_eq_true, Option.any_eq_true, contains_eq_mem,
          decide_eq_true_eq, Item.single?, hext] at hsw
        obtain ⟨⟨hsingle, t, htarget, hmem⟩, _⟩ := hsw
        constructor
        · by_contra haz
          simp [haz] at hsingle
        · rintro u hu
          obtain rfl : t = u := by simpa [htarget] using hu
          exact hm.single t hmem htarget)
      obtain ⟨hsize, hkind⟩ := shape_moveItem
      exact ⟨⟨_, rfl⟩, hr.arrange hu hp'.linked (Nat.le_of_eq hsize.symm) (hkind _), outs', hp'⟩
    · next heq =>
      have hta : target = some a := by simpa using heq
      exact ⟨⟨_, rfl⟩, hr, _, hm.placed.stay hm.nodup hx (hm.next ▸ hta)⟩

include hu hr in
theorem keepItem_meets
    (hm : Movable b p front placed back d before entry after outs target singles w) :
    Meets (Stopped h b)
      (keepItem h p target singles nextKey reusable index value entry.2) w fun _ w' =>
        (∃ own, Joined h i b p front placed back d valid index value (before ++ after) entry.2
          own w') ∧
        ∃ e, entry.2.nodes e = nodesOf d entry ∧ valid { w with document := e } ∧
          Returns (h.run entry.2.rebind (.rebound index value)) { w with document := e } () w' := by
  have hentry : entry ∈ b.live := hm.live entry (by simp)
  -- the nodes are moved first; the item's own code runs when they stand in their place
  rw [keepItem_eq, bind_iff]
  refine (moveKept_meets hu hr hm).mono ?_
  rintro _ v ⟨⟨e, rfl⟩, hr', outs', hp'⟩
  refine of_returns ?_ fun s w' hs => Stopped.rebind entry index value _ hentry hs
  intro _ w' hret
  have hplace : e.children p = (front ++ placed) ++ nodesOf d entry ++
      (standing (nodesOf d) (before ++ after) outs' ++ back) := by
    rw [hp'.children]
    simp
  obtain ⟨hv, own, hends, hconf⟩ := hu.rebind entry hentry index value _ w' hr'.valid
    ⟨hr'.linked, _, _, hplace⟩ hret
  have hnodes := Item.nodes_eq hr'.linked hplace hm.extent
  have hp'' := hp'.confined hconf (by
    intro x hx n hn
    refine mem_flatMap.mpr ⟨x, hm.live x ?_, hn⟩
    rcases mem_append.mp hx with hx | hx <;> simp [hx])
  refine ⟨⟨own, hr'.confined hv hconf, hends, ?_, outs', hp''⟩, e, hnodes, hr'.valid, hret⟩
  refine Origin.kept entry.1 _ w' hentry hret hnodes ?_
  exact (Item.nodes_eq hconf.linked (hconf.siblings _ _ hplace) hends).symm

include hu hr in
theorem buildItem_meets (hlive : ∀ x ∈ waiting, x ∈ b.live)
    (hp : Placed (nodesOf d) p front placed back waiting outs w.document)
    (ht : target = (standing (nodesOf d) waiting outs ++ back).head?) :
    Meets (Stopped h b) (buildItem h b p target index value) w fun item w' =>
      ∃ own, Joined h i b p front placed back d valid index value waiting item own w' := by
  simp only [buildItem, bind_iff]
  refine (newChild_meets hu hr).mono ?_
  rintro detector v ⟨hr', hdoc⟩
  have hp' : Placed (nodesOf d) p front placed back waiting outs v.document := hdoc ▸ hp
  obtain ⟨hf, hcopied⟩ := clone_copied hr'.linked
  generalize hclone : v.document.clone b.template true = c at hf hcopied
  obtain ⟨f, e⟩ := c
  obtain rfl : f = v.document.nodes.size := hf
  rw [extendDocument_iff, hclone]
  have hgrown := hcopied.grown.le
  have hr2 := hr'.arrange hu hcopied.linked hgrown (hcopied.kind_of_lt hr'.template)
  have hp2 := hp'.carry hcopied.linked hgrown (fun n hn => by rw [hcopied.kind_of_lt hn])
    (fun t ht => (hcopied.parent?_of_lt (hp'.out t ht).2.1).trans (hp'.out t ht).1)
    ((hcopied.children_of_lt hp'.known).trans hp'.children)
  refine of_returns ?_ fun s w' hs => Stopped.build detector _ index value _ hs
  intro rebind w' hret
  obtain ⟨hv, hconf⟩ := hu.build detector _ index value v.document _ rebind w' hr2.valid hr2.inPlace
    hp'.known hclone hret
  have hsize : v.document.nodes.size < w'.document.nodes.size :=
    hcopied.grown.trans_le hconf.nodes
  have hkind : w'.document.kind v.document.nodes.size = .fragment :=
    (hconf.kinds _ hcopied.grown).mpr (hcopied.kind.trans hr'.fragment)
  have hp3 := (by simpa using hp2 : Placed (nodesOf d) p front (placed ++ []) back waiting
    outs _).confined hconf fun x hx n hn => mem_flatMap.mpr ⟨x, hlive x hx, hn⟩
  rw [append_nil] at hp3
  have hp4 := hp3.insertFragment hsize hkind hp'.known.ne
  rw [← ht] at hp4
  simp only [document_iff, changeDocument_iff, pure_iff]
  refine ⟨w'.document.children v.document.nodes.size, ?_, ?_, ?_, outs, hp4⟩
  · exact (hr2.confined hv hconf).arrange hu hp4.linked (by simp) (by simp)
  · exact extent?_eq_ends.symm
  · exact Origin.built _ v.document _ w' hclone hret rfl

end Position

/-! ## All positions -/

theorem Kept.split {wanted : List Key} (hk : Kept b (key :: wanted) kept)
    (hf : kept.find? (·.1 == key) = some e) :
    e.1 = key ∧ ∃ before after, kept = before ++ e :: after ∧
      kept.filter (·.1 != key) = before ++ after := by
  obtain ⟨hkey, before, after, rfl, hbefore⟩ := find?_eq_some_iff_append.mp hf
  obtain rfl : e.1 = key := by simpa using hkey
  refine ⟨rfl, before, after, rfl, ?_⟩
  have hnd := hk.keys
  rw [map_append, map_cons, nodup_append, nodup_cons] at hnd
  rw [filter_append, filter_cons_of_neg (by simp)]
  congr 1
  · rw [filter_eq_self]
    intro x hx
    simpa using hbefore x hx
  · rw [filter_eq_self]
    intro x hx
    have : x.1 ≠ e.1 := fun he => hnd.2.1.1 (he ▸ mem_map_of_mem hx)
    simpa using this

theorem Kept.rest {wanted : List Key} (hk : Kept b (key :: wanted) kept) :
    Kept b wanted (kept.filter (·.1 != key)) where
  keys := hk.keys.sublist (filter_sublist.map _)
  wanted := by
    intro e he
    obtain ⟨hm, hne⟩ := mem_filter.mp he
    have hne : e.1 ≠ key := by simpa using hne
    exact (mem_cons.mp (hk.wanted e hm)).resolve_left hne
  live := filter_sublist.trans hk.live

theorem getElem?_of_forall₂ {R : α → β → Prop} {xs : List α} {ys : List β}
    (hr : List.Forall₂ R xs ys) {k : Nat} {x : α} (hx : xs[k]? = some x) :
    ∃ y, ys[k]? = some y ∧ R x y := by
  induction hr generalizing k with
  | nil => simp at hx
  | cons hxy _ ih =>
    cases k with
    | zero =>
      obtain rfl := Option.some.inj hx
      exact ⟨_, rfl, hxy⟩
    | succ k => exact ih hx

/-- A filled position: its key and item, and the nodes that the item has. -/
def Fills (h : Host κ υ) (b : ListBlock κ) (d : Document (Reaction κ))
    (entry : (Value × Key) × Nat) (slot : (Key × Item κ) × List NodeId) : Prop :=
  slot.1.1 = entry.1.2 ∧ Origin h b d entry.2 entry.1.1 slot.1.2 slot.2

/-- The positions `done` have been filled by `slots`, and those of the keys `rest` are to come. -/
structure Filling (h : Host κ υ) (i : ListId) (b : ListBlock κ) (parent : NodeId)
    (front back : List NodeId) (d : Document (Reaction κ)) (valid : World κ υ → Prop)
    (done : List ((Value × Key) × Nat)) (slots : List ((Key × Item κ) × List NodeId))
    (rest : List Key) (s : Placing κ) (w : World κ υ) : Prop where
  ready : Ready i b parent valid w
  kept : Kept b rest s.reusable
  previous : s.previous = (front ++ slots.flatMap (·.2)).getLast?
  entries : s.placed = slots.map (·.1)
  filled : List.Forall₂ (Fills h b d) done slots
  extents : ∀ slot ∈ slots, ends slot.2 = slot.1.2.extent
  placed : ∃ outs, Placed (nodesOf d) parent front (slots.flatMap (·.2)) back s.reusable outs
    w.document

section Filling

variable {done : List ((Value × Key) × Nat)} {slots : List ((Key × Item κ) × List NodeId)}
  {key : Key} {rest : List Key} {s : Placing κ} {singles outs : List NodeId}
  {e : Key × Item κ}

def Placing.put (s : Placing κ) (key : Key) (item : Item κ) : Placing κ where
  previous := (item.extent.map (·.2)).or s.previous
  reusable := s.reusable.filter (·.1 != key)
  placed := s.placed ++ [(key, item)]

theorem Filling.join (hf : Filling h i b p front back d valid done slots (key :: rest) s w)
    (hj : Joined h i b p front (slots.flatMap (·.2)) back d valid index value
      (s.reusable.filter (·.1 != key)) item own w') :
    Filling h i b p front back d valid (done ++ [((value, key), index)])
      (slots ++ [((key, item), own)]) rest (s.put key item) w' where
  ready := hj.ready
  kept := hf.kept.rest
  previous := by
    rw [Placing.put, ← hj.extent, hf.previous]
    cases hown : ends own with
    | none =>
      rw [ends_eq_none_iff] at hown
      simp [hown]
    | some x =>
      have hlast := (ends_eq_some hown).2
      simp [hlast]
  entries := by simp [Placing.put, hf.entries]
  filled := rel_append hf.filled (.cons ⟨rfl, hj.origin⟩ .nil)
  extents := forall_mem_append.mpr ⟨hf.extents, forall_mem_singleton.mpr hj.extent⟩
  placed := by
    obtain ⟨outs, hp⟩ := hj.placed
    exact ⟨outs, by simpa [Placing.put] using hp⟩

theorem Filling.target (hf : Filling h i b p front back d valid done slots rest s w)
    (hp : Placed (nodesOf d) p front (slots.flatMap (·.2)) back s.reusable outs w.document) :
    nextPlace w.document p s.previous =
      (standing (nodesOf d) s.reusable outs ++ back).head? := by
  rw [hf.previous]
  exact nextPlace_eq hp.linked hp.children

theorem Filling.movable (hf : Filling h i b p front back d valid done slots (key :: rest) s w)
    (hl : Layout p front b.live back d) (hs : ∀ t ∈ singles, ∃ e ∈ b.live, nodesOf d e = [t])
    (hfind : s.reusable.find? (·.1 == key) = some e) :
    e.1 = key ∧ ∃ before after outs, s.reusable.filter (·.1 != key) = before ++ after ∧
      s.reusable = before ++ e :: after ∧
      Movable b p front (slots.flatMap (·.2)) back d before e after outs
        (nextPlace w.document p s.previous) singles w := by
  obtain ⟨outs, hp⟩ := hf.placed
  have htarget := hf.target hp
  obtain ⟨rfl, before, after, hsplit, hfilter⟩ := hf.kept.split hfind
  have hlive : ∀ x ∈ s.reusable, x ∈ b.live := fun x hx => hf.kept.live.subset hx
  have hwait : (s.reusable.flatMap (nodesOf d)).Nodup :=
    hl.nodup_live.sublist (hf.kept.live.flatMap _)
  -- a single node that stands next is all of an item that waits, since `back` holds none
  have hsingle : ∀ t ∈ singles, nextPlace w.document p s.previous = some t →
      ∃ x ∈ s.reusable, nodesOf d x = [t] := by
    intro t ht hnext
    obtain ⟨y, hy, hyt⟩ := hs t ht
    have hty : t ∈ nodesOf d y := by simp [hyt]
    rw [htarget] at hnext
    rcases mem_append.mp (mem_of_head? hnext) with hst | hb
    · obtain ⟨x, hx, htx⟩ := mem_flatMap.mp (mem_filter.mp hst).1
      exact ⟨x, hx, hyt ▸ same_range hl.nodup_live (hlive x hx) hy htx hty⟩
    · have hm : t ∈ front ++ b.live.flatMap (nodesOf d) :=
        mem_append_right _ (mem_flatMap.mpr ⟨y, hy, hty⟩)
      exact absurd rfl ((nodup_append.mp hl.nodup).2.2 t hm t hb)
  have hx := hl.extents e (hlive e (by simp [hsplit]))
  rw [hsplit] at hlive hp hwait htarget hsingle
  exact ⟨rfl, before, after, outs, hfilter, hsplit, hlive, hp, hwait, hx, htarget, hsingle⟩

theorem filter_of_find?_none {kept : List (Key × Item κ)} (hf : kept.find? (·.1 == key) = none) :
    kept.filter (·.1 != key) = kept := by
  rw [filter_eq_self]
  intro x hx
  simpa using find?_eq_none.mp hf x hx

inductive Supplied (h : Host κ υ) (b : ListBlock κ) (parent : NodeId) (d : Document (Reaction κ))
    (valid : World κ υ → Prop) (waiting : List (Key × Item κ)) (key : Key) (index : Nat)
    (value : Value) (item : Item κ) (w w' : World κ υ) : Prop where
  | built (target : Option NodeId) : waiting.find? (·.1 == key) = none →
      Returns (buildItem h b parent target index value) w item w' →
      Supplied h b parent d valid waiting key index value item w w'
  | kept (e : Document (Reaction κ)) (before after : List (Key × Item κ)) :
      waiting.find? (·.1 == key) = some (key, item) →
      waiting = before ++ (key, item) :: after →
      waiting.filter (·.1 != key) = before ++ after → item.nodes e = item.nodes d →
      valid { w with document := e } →
      Returns (h.run item.rebind (.rebound index value)) { w with document := e } () w' →
      Supplied h b parent d valid waiting key index value item w w'

include hu in
theorem placeItem_meets (hl : Layout p front b.live back d)
    (hs : ∀ t ∈ singles, ∃ e ∈ b.live, nodesOf d e = [t])
    (hf : Filling h i b p front back d valid done slots (entry.1.2 :: rest) s w) :
    Meets (Stopped h b) (placeItem h b p singles keys s entry) w fun s' w' =>
      (∃ slot, Filling h i b p front back d valid (done ++ [entry]) (slots ++ [slot]) rest s'
        w') ∧
      ∃ item, Supplied h b p d valid s.reusable entry.1.2 entry.2 entry.1.1 item w w' ∧
        s' = s.put entry.1.2 item := by
  obtain ⟨⟨value, key⟩, index⟩ := entry
  simp only [placeItem, bind_iff, document_iff]
  cases hfind : s.reusable.find? (·.1 == key) with
  | none =>
    obtain ⟨outs, hp⟩ := hf.placed
    have hlive : ∀ x ∈ s.reusable, x ∈ b.live := fun x hx => hf.kept.live.subset hx
    simp only [bind_iff, pure_iff]
    refine (buildItem_meets hu hf.ready hlive hp (hf.target hp)).and_returns.mono ?_
    rintro item w' ⟨hret, own, hj⟩
    rw [← filter_of_find?_none hfind] at hj
    exact ⟨⟨_, hf.join hj⟩, item, .built _ hfind hret, rfl⟩
  | some e =>
    obtain ⟨rfl, before, after, outs, hfilter, hwait, hm⟩ := hf.movable hl hs hfind
    simp only [bind_iff, pure_iff]
    refine (keepItem_meets hu hf.ready hm).mono ?_
    rintro _ w' ⟨⟨own, hj⟩, x, hnodes, hv, hret⟩
    rw [← hfilter] at hj
    exact ⟨⟨_, hf.join hj⟩, e.2, .kept x before after hfind hwait hfilter hnodes hv hret, rfl⟩

theorem Filling.nodes_eq (hf : Filling h i b p front back d valid done slots rest s w) :
    ∀ slot ∈ slots, nodesOf w.document slot.1 = slot.2 := by
  intro slot hm
  obtain ⟨outs, hp⟩ := hf.placed
  have hends := hf.extents slot hm
  obtain ⟨before, after, rfl⟩ := append_of_mem hm
  have hc : w.document.children p = (front ++ before.flatMap (·.2)) ++ slot.2 ++
      (after.flatMap (·.2) ++ (standing (nodesOf d) s.reusable outs ++ back)) := by
    rw [hp.children]
    simp
  exact Item.nodes_eq hp.linked hc hends

theorem Filling.reusable_nil (hf : Filling h i b p front back d valid done slots [] s w) :
    s.reusable = [] := by
  rw [eq_nil_iff_forall_not_mem]
  intro e he
  simpa using hf.kept.wanted e he

theorem Filling.layout (hf : Filling h i b p front back d valid done slots [] s w) :
    Layout p front s.placed back w.document where
  known := hf.ready.known
  linked := hf.ready.linked
  extents := by
    intro e he
    rw [hf.entries] at he
    obtain ⟨slot, hm, rfl⟩ := mem_map.mp he
    rw [hf.nodes_eq slot hm]
    exact hf.extents slot hm
  children := by
    obtain ⟨outs, hp⟩ := hf.placed
    have hflat : slots.flatMap (·.2) = (slots.map (·.1)).flatMap (nodesOf w.document) := by
      rw [flatMap_map]
      exact flatMap_congr fun slot hm => (hf.nodes_eq slot hm).symm
    rw [hp.children, hf.reusable_nil, hf.entries, hflat]
    simp [standing]

theorem keys_of_entries {values : List Value} (hn : keys.length = values.length) :
    (values.zip keys).zipIdx.map (·.1.2) = keys := by
  calc (values.zip keys).zipIdx.map (·.1.2)
      = ((values.zip keys).zipIdx.map (·.1)).map (·.2) := by rw [map_map]; rfl
    _ = keys := by rw [zipIdx_map_fst, map_snd_zip (by omega)]

theorem Filling.position {values : List Value}
    (hf : Filling h i b p front back d valid (values.zip keys).zipIdx slots [] s w)
    (hn : keys.length = values.length) :
    s.placed.map (·.1) = keys ∧ ∀ k value, values[k]? = some value → ∃ e,
      s.placed[k]? = some e ∧ Origin h b d k value e.2 (nodesOf w.document e) := by
  rw [hf.entries]
  constructor
  · have hkeys : (values.zip keys).zipIdx.map (·.1.2) = slots.map (·.1.1) := by
      rw [← forall₂_eq_eq_eq, forall₂_map_left_iff, forall₂_map_right_iff]
      exact hf.filled.imp fun _ _ hfill => hfill.1.symm
    rw [map_map, ← keys_of_entries hn, hkeys]
    rfl
  · intro k value hv
    obtain ⟨key, hk⟩ : ∃ key, keys[k]? = some key := by
      have hlt := (List.getElem?_eq_some_iff.mp hv).1
      exact ⟨_, getElem?_eq_getElem (by omega)⟩
    have hentry : (values.zip keys).zipIdx[k]? = some ((value, key), k) := by
      have hzip : (values.zip keys)[k]? = some (value, key) :=
        getElem?_zip_eq_some.mpr ⟨hv, hk⟩
      simp [hzip]
    obtain ⟨slot, hslot, _, horigin⟩ := getElem?_of_forall₂ hf.filled hentry
    refine ⟨slot.1, by simp [hslot], ?_⟩
    rw [hf.nodes_eq slot (mem_of_getElem? hslot)]
    exact horigin

end Filling

/-! ## The whole list -/

include hu in
theorem keys_carries (inv : World κ υ → Prop)
    (hstep : ∀ k v n w r w', b.keyOf = some k → valid w → Returns (h.key k v n) w r w' → inv w → inv w')
    (hr : Ready i b p valid w) (hb : w.lists[i]? = some b) (hi : inv w)
    (entries : List (Value × Nat)) :
    Meets (Stopped h b) (entries.mapM fun x => keyAt h b.keyOf x.1 x.2) w fun keys w' =>
      keys.length = entries.length ∧ Ready i b p valid w' ∧ w'.lists[i]? = some b ∧
        w'.document.children p = w.document.children p ∧ inv w' := by
  refine mapM ?_ ⟨hr, hb, rfl, hi⟩
  rintro x v ⟨hr, hb, hc, hi⟩
  unfold keyAt
  cases hk : b.keyOf with
  | none => exact ⟨hr, hb, hc, hi⟩
  | some k =>
    simp only [bind_iff, pure_iff]
    refine of_returns ?_ fun s w' hs => Stopped.key k x.1 x.2 v hk hs
    intro r w' hret
    obtain ⟨hv, hconf⟩ := hu.key k hk x.1 x.2 v r w' hr.valid hr.inPlace hret
    refine ⟨hr.confined hv hconf, hconf.block.trans hb, ?_, hstep _ _ _ _ _ _ hk hr.valid hret hi⟩
    have hsib := hconf.siblings (v.document.children p) [] (by simp)
    rw [← hc]
    simpa using hsib

include hu hr in
theorem updateList_ready (live : List (Key × Item κ)) :
    Meets (Stopped h b) (updateList i fun c => { c with live := live }) w fun _ w' =>
      Ready i b p valid w' ∧ w'.lists[i]? = some { b with live := live } ∧
        w'.document = w.document := by
  have hret : Returns (updateList i fun c => { c with live := live }) w () _ := rfl
  obtain ⟨old, hold⟩ := hr.block
  have hnew : (w.lists.modify i fun c => { c with live := live })[i]? =
      some { b with live := live } := by
    rw [Array.getElem?_modify, if_pos rfl, hold]
    rfl
  refine (of_outcome hret).mpr ⟨?_, hnew, rfl⟩
  exact
    { hr with
      block := ⟨live, hnew⟩
      valid := hu.upkeep _ _ hr.valid (.relist live _ hret) }

theorem Anchor.Heads.parent?_eq {a : Anchor} (hh : a.Heads p front)
    (hl : Layout p front b.live back d) : a.parent? d = some p := by
  cases hh with
  | inside => rfl
  | after before label =>
    refine hl.linked.parent_of_mem ?_
    rw [hl.children]
    simp

theorem Anchor.Heads.start?_eq {a : Anchor} (hh : a.Heads p front) : a.start? = front.getLast? := by
  cases hh with
  | inside => rfl
  | after before label => simp [Anchor.start?]

theorem filling_start (h : Host κ υ) (hh : b.anchor.Heads p front) (hk : Kept b keys kept)
    (hr : Ready i b p valid w)
    (hc : w.document.children p = front ++ kept.flatMap (nodesOf d) ++ back)
    {values : List Value} (hn : keys.length = values.length) :
    Filling h i b p front back d valid [] [] ((values.zip keys).zipIdx.map (·.1.2))
      { previous := b.anchor.start?, reusable := kept } w := by
  rw [keys_of_entries hn]
  refine ⟨hr, hk, by simpa using hh.start?_eq, rfl, .nil, by simp, [], ?_⟩
  exact ⟨hr.linked, hr.known, by simpa [standing] using hc, by simp⟩

include hu in
theorem fillAll_carries (hl : Layout p front b.live back d) {kept : List (Key × Item κ)}
    (hkept : kept.Sublist b.live) (keys : List Key) (entries : List ((Value × Key) × Nat))
    (inv : List ((Value × Key) × Nat) → Placing κ → World κ υ → Prop)
    (hstep : ∀ done entry rest s w item w', done ++ entry :: rest = entries → valid w →
      Supplied h b p d valid s.reusable entry.1.2 entry.2 entry.1.1 item w w' → inv done s w →
      inv (done ++ [entry]) (s.put entry.1.2 item) w')
    (hf : Filling h i b p front back d valid [] [] (entries.map (·.1.2)) s w) (hi : inv [] s w) :
    Meets (Stopped h b)
      (entries.foldlM (placeItem h b p (kept.filterMap (·.2.single?)) keys) s) w fun s' w' =>
        (∃ slots, Filling h i b p front back d valid entries slots [] s' w') ∧
        inv entries s' w' := by
  have hs : ∀ t ∈ kept.filterMap (·.2.single?), ∃ e ∈ b.live, nodesOf d e = [t] := by
    intro t ht
    obtain ⟨e, he, hsingle⟩ := mem_filterMap.mp ht
    exact ⟨e, hkept.subset he, hl.single (hkept.subset he) hsingle⟩
  let all (rest : List ((Value × Key) × Nat)) (s : Placing κ) (w : World κ υ) : Prop :=
    ∃ done slots, done ++ rest = entries ∧
      Filling h i b p front back d valid done slots (rest.map (·.1.2)) s w ∧ inv done s w
  have hstart : all entries s w := ⟨[], [], rfl, hf, hi⟩
  refine (foldlM ?_ hstart).mono ?_
  · rintro entry rest s v ⟨done, slots, hdone, hf, hi⟩
    refine (placeItem_meets hu hl hs hf).mono ?_
    rintro s' w' ⟨⟨slot, hf'⟩, item, hsupplied, rfl⟩
    exact ⟨done ++ [entry], slots ++ [slot], by simpa using hdone, hf',
      hstep _ _ _ _ _ _ _ hdone hf.ready.valid hsupplied hi⟩
  · rintro s' w' ⟨done, slots, hdone, hf, hi⟩
    rw [append_nil] at hdone
    exact ⟨⟨slots, hdone ▸ hf⟩, hdone ▸ hi⟩

end Steps

/-- For every new array the items stand in its order between what was before and after them, each
kept or built for its position, and no other nodes. Only code of the user can keep a list from
getting there. -/
theorem listItems_layout (h : Host κ υ) (i : ListId) (v : Value) (w : World κ υ) (b : ListBlock κ)
    (parent : NodeId) (front back : List NodeId) (valid : World κ υ → Prop)
    (hb : w.lists[i]? = some b) (hh : b.anchor.Heads parent front)
    (hl : Layout parent front b.live back w.document) (hr : Ready i b parent valid w)
    (hu : StaysInside h i b parent w.document valid) :
    Meets (Stopped h b) (listItems h i v) w fun _ w' =>
      ∃ keys live w₁,
        Returns ((v.items?.getD []).zipIdx.mapM fun p => keyAt h b.keyOf p.1 p.2) w keys w₁ ∧
        live.map (·.1) = keys ∧ live.length = (v.items?.getD []).length ∧
        w'.lists[i]? = some { b with live := live } ∧ Ready i b parent valid w' ∧
        Layout parent front live back w'.document ∧
        ∀ k value, (v.items?.getD [])[k]? = some value → ∃ e, live[k]? = some e ∧
          Origin h b w.document k value e.2 (nodesOf w'.document e) := by
  unfold listItems
  generalize v.items?.getD [] = values
  rw [Meets.bind_iff, Meets.find_iff hb, Meets.bind_iff, Meets.document_iff, hh.parent?_eq hl]
  simp only [Meets.bind_iff]
  refine (keys_carries hu (fun _ => True) (fun _ _ _ _ _ _ _ _ _ _ => trivial) hr hb trivial
    values.zipIdx).and_returns.mono ?_
  rintro keys w₁ ⟨hkeys, hlen, hr₁, hb₁, hc₁, -⟩
  rw [length_zipIdx] at hlen
  rw [Meets.find_iff hb₁]
  refine (updateList_ready hu hr₁ []).mono ?_
  rintro _ w₂ ⟨hr₂, _, hdoc₂⟩
  refine (retire_carries hu keys (fun _ _ _ => True) (fun _ _ _ _ _ _ => trivial)
    (fun _ _ _ _ _ _ _ _ _ _ => trivial) b.live [] (by simp) (by simp) (by simp) hr₂ (by
    rw [hdoc₂, hc₁, hl.children]
    rfl) trivial).mono ?_
  rintro kept w₃ ⟨⟨hkept, hr₃, hc₃⟩, -⟩
  refine (fillAll_carries hu hl hkept.live keys _ (fun _ _ _ => True)
    (fun _ _ _ _ _ _ _ _ _ _ _ => trivial) (filling_start h hh hkept hr₃ hc₃ hlen)
    trivial).mono ?_
  rintro s w₄ ⟨⟨slots, hf⟩, -⟩
  rw [hf.reusable_nil, List.forM, Meets.pure_iff]
  obtain ⟨hkeys₄, hpos⟩ := hf.position hlen
  refine (updateList_ready hu hf.ready s.placed).mono ?_
  rintro _ w₅ ⟨hr₅, hb₅, hdoc₅⟩
  refine ⟨keys, s.placed, w₁, hkeys, hkeys₄, ?_, hb₅, hr₅, ?_, ?_⟩
  · rw [← hlen, ← hkeys₄, length_map]
  · rw [hdoc₅]
    exact hf.layout
  · rw [hdoc₅]
    exact hpos

/-! A list of two items that swap places while a third one is built between them. -/

section Sample

def Quiet (w : World κ υ) : Prop := ∀ c ∈ w.detectors, c.cleanups = []

theorem Quiet.modify (hq : Quiet w) (j : DetectorId) {f : Detector κ → Detector κ}
    (hf : ∀ c, c.cleanups = [] → (f c).cleanups = []) :
    Quiet { w with detectors := w.detectors.modify j f } := by
  intro c hc
  obtain ⟨k, hk, rfl⟩ := Array.mem_iff_getElem.mp hc
  have hk' : k < w.detectors.size := by simpa using hk
  have hold : w.detectors[k].cleanups = [] := hq _ (Array.getElem_mem hk')
  rw [Array.getElem_modify]
  split
  · exact hf _ hold
  · exact hold

theorem Quiet.sprout (hq : Quiet w) : Quiet (w.sprout root) := by
  intro c hc
  rcases Array.mem_push.mp hc with hc | rfl
  · exact hq c hc
  · rfl

theorem destroyTo_quiet {stop : Stop → World κ υ → Prop} (hs : ∀ s w, stop s w)
    (j : DetectorId) (hw : Quiet w ∧ w.document = e ∧ w.lists = lists ∧ w.detectors.size = size) :
    Meets stop (destroyTo h n j) w fun _ w' =>
      Quiet w' ∧ w'.document = e ∧ w'.lists = lists ∧ w'.detectors.size = size := by
  induction n generalizing j w with
  | zero => exact hs _ _
  | succ n ih =>
    obtain ⟨hq, he, hl, hn⟩ := hw
    simp only [destroyTo, updateDetector, bind_iff, modify_iff]
    have hq₁ := hq.modify j
      (f := fun c => { c with destroyed := true, watchers := [], preludes := [] })
      fun c hc => hc
    refine find_of (fun _ => hs _ _) fun c hc => ?_
    rw [hq₁ c (Array.mem_of_getElem? hc), List.forM, pure_iff]
    have hq₂ := hq₁.modify j (f := fun c => { c with cleanups := [] }) fun c hc => rfl
    refine find_of (fun _ => hs _ _) fun c' _ => ?_
    have hq₃ := hq₂.modify j (f := fun c => { c with children := [] }) fun c hc => hc
    refine forM (fun k v hv => ih k hv) c'.children ⟨hq₃, he, hl, ?_⟩
    simpa using hn

def idle : Host Unit Unit where
  read _ := pure .undefined
  key _ v _ := pure v
  run _ _ := pure ()
  buildItem _ _ _ _ _ := pure ()
  attach _ _ := pure { destroy := (), setters := [] }
  construct _ _ _ := throw .failed
  options _ := pure {}
  page _ := []

theorem Confined.of_same (hl : w.document.Linked)
    (hd : w'.document = w.document) (hi : w'.lists = w.lists)
    (hn : w'.detectors.size = w.detectors.size) : Confined i p kin own own w w' where
  block := by rw [hi]
  detectors := Nat.le_of_eq hn.symm
  nodes := Nat.le_of_eq (by rw [hd])
  linked := hd ▸ hl
  kinds := by simp [hd]
  loose := by simp [hd]
  siblings := by simp [hd]

section Idle

variable {b : ListBlock Unit} {d : Document (Reaction Unit)}
  (hx : ∀ e ∈ b.live, ends (nodesOf d e) = e.2.extent)
include hx

theorem idle_stays {valid : World Unit Unit → Prop}
    (hup : ∀ w w', valid w → Upkeep i b w w' → valid w')
    (hdrop : ∀ e ∈ b.live, ∀ w w', valid w → Returns (destroy idle e.2.detector) w () w' →
      valid w' ∧ w'.document = w.document ∧ w'.lists = w.lists ∧
        w'.detectors.size = w.detectors.size) : StaysInside idle i b p d valid where
  upkeep := hup
  key := by
    intro k _ v n w r w' hw hin hret
    cases hret
    exact ⟨hw, .of_same hin.1 rfl rfl rfl⟩
  build := by
    intro detector f n v e w r w' hw hin _ _ hret
    cases hret
    exact ⟨hw, .of_same hin.1 rfl rfl rfl⟩
  rebind := by
    intro e he n v w w' hw hin hret
    cases hret
    exact ⟨hw, _, hx e he, .of_same hin.1 rfl rfl rfl⟩
  drop := by
    intro e he w w' hw hin hret
    obtain ⟨hw', hd, hl, hn⟩ := hdrop e he w w' hw hret
    exact ⟨hw', _, hx e he, .of_same hin.1 hd hl hn⟩

theorem idle_staysInside : StaysInside idle i b p d Quiet := by
  refine idle_stays hx ?_ fun e he w w' hq hret => ?_
  · intro w w' hq hup
    cases hup with
    | arrange e => exact hq
    | adopt c _ hret =>
      obtain ⟨_, _, -, -, rfl, rfl⟩ := newChild_inv hret
      exact hq.sprout.modify _ fun _ hc => hc
    | release e _ he hret =>
      cases hret
      exact hq.modify _ fun _ hc => hc
    | relist live _ hret =>
      cases hret
      exact hq
  · have hmeets : Meets (fun _ _ => True) (destroy idle e.2.detector) w fun _ w' =>
        Quiet w' ∧ w'.document = w.document ∧ w'.lists = w.lists ∧
          w'.detectors.size = w.detectors.size := by
      simp only [destroy, bind_iff, get_iff]
      exact destroyTo_quiet (fun _ _ => trivial) _ ⟨hq, rfl, rfl, rfl⟩
    rwa [of_outcome hret] at hmeets

end Idle

def sampleDocument : Document (Reaction Unit) :=
  let text (s : String) : Rose Content := .node { kind := .text s } []
  let list : Rose Content :=
    .node { kind := .element "ul" false }
      [.node { kind := .comment "" } [], text "first", text "second", text "end"]
  (Document.plant (.node { kind := .fragment } [text ""]) (Document.plant list {}).2).2

def sampleBlock : ListBlock Unit where
  owner := 0
  anchor := .after 1
  template := 5
  build := ()
  keyOf := none
  live := [(.string "a", ⟨1, some (2, 2), ()⟩), (.string "b", ⟨2, some (3, 3), ()⟩)]

def sampleWorld : World Unit Unit where
  user := ()
  document := sampleDocument
  detectors := #[{ root := 0, children := [1, 2] }, { root := 0 }, { root := 0 }]
  lists := #[sampleBlock]

theorem linked_sampleDocument : sampleDocument.Linked := by
  refine (plant_copied _ _ (plant_copied _ _ linked_empty ?_).2.linked
    ?_).2.linked
  · decide
  · decide

theorem listItems_layout_sample :
    Meets (Stopped idle sampleBlock)
      (listItems idle 0 (.array 0 [.string "b", .string "c", .string "a"])) sampleWorld fun _ w' =>
        ∃ keys live w₁,
          Returns ([(Value.string "b", 0), (.string "c", 1), (.string "a", 2)].mapM fun p =>
            keyAt idle none p.1 p.2) sampleWorld keys w₁ ∧
          live.map (·.1) = keys ∧ live.length = 3 ∧
          w'.lists[0]? = some { sampleBlock with live := live } ∧
          Ready 0 sampleBlock 0 Quiet w' ∧ Layout 0 [1] live [4] w'.document ∧
          ∀ k value, [Value.string "b", .string "c", .string "a"][k]? = some value → ∃ e,
            live[k]? = some e ∧
              Origin idle sampleBlock sampleDocument k value e.2 (nodesOf w'.document e) := by
  have hlayout : Layout 0 [1] sampleBlock.live [4] sampleDocument :=
    ⟨by decide, linked_sampleDocument, by decide, by decide⟩
  have hquiet : Quiet sampleWorld := by
    intro c hc
    simp only [sampleWorld, mem_toArray, mem_cons, not_mem_nil, or_false] at hc
    rcases hc with rfl | rfl | rfl <;> rfl
  have hready : Ready 0 sampleBlock 0 Quiet sampleWorld :=
    ⟨⟨sampleBlock.live, rfl⟩, by decide, by decide, by decide, rfl, linked_sampleDocument, hquiet⟩
  exact listItems_layout idle 0 (.array 0 [.string "b", .string "c", .string "a"]) sampleWorld
    sampleBlock 0 [1] [4] Quiet rfl (.after [] 1) hlayout hready
    (idle_staysInside hlayout.extents)

end Sample

end ReactiveMarkup.Reactive
