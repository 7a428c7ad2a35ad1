import ReactiveMarkup.Proofs.ListLayout

/-! # The identity of list items

Which items an update of a list keeps, makes and lets go, and which detectors its owner holds.
-/

namespace ReactiveMarkup.Reactive

open List hiding after

variable {κ υ : Type} {h : Host κ υ} {i : ListId} {b : ListBlock κ} {p : NodeId}
  {front back : List NodeId} {d : Document (Reaction κ)} {valid : World κ υ → Prop}
  {w w' start : World κ υ} {made : List DetectorId} {keys : List Key} {n : Nat} {s : Placing κ}
  {values : List Value}

/-! ## What becomes of each item -/

/-- Of the live items, `e` is the first with its key, and the key is wanted. -/
def stays (keys : List Key) (old : List (Key × Item κ)) (e : Key × Item κ) : Bool :=
  keys.contains e.1 && (old.find? (·.1 == e.1)).any (·.2.detector == e.2.detector)

/-- The live item that is kept for position `k`: the first with the key of that position, unless an
earlier position has the same key. -/
def keptAt? (keys : List Key) (old : List (Key × Item κ)) (k : Nat) : Option (Item κ) :=
  keys[k]?.bind fun key =>
    if key ∈ keys.take k then none else (old.find? (·.1 == key)).map (·.2)

inductive Deed (κ : Type) where
  | drop (item : Item κ)
  | rebind (item : Item κ) (index : Nat) (value : Value)
  | build (item : Item κ) (index : Nat) (value : Value)

def deedAt (keys : List Key) (old : List (Key × Item κ)) (value : Value) (k : Nat)
    (item : Item κ) : Deed κ :=
  match keptAt? keys old k with
  | some _ => .rebind item k value
  | none => .build item k value

variable (h b p d) in
/-- A deed takes one world to another. A kept item is rebound when it has been moved, with the nodes
that it had in `d`. -/
inductive Deed.Takes : Deed κ → World κ υ → World κ υ → Prop where
  | drop {w w' : World κ υ} : Returns (dropItem h b.owner item) w () w' → Takes (.drop item) w w'
  | rebind {w w' : World κ υ} (e : Document (Reaction κ)) : item.nodes e = item.nodes d →
      Returns (h.run item.rebind (.rebound index value)) { w with document := e } () w' →
      Takes (.rebind item index value) w w'
  | build {w w' : World κ υ} (target : Option NodeId) :
      Returns (buildItem h b p target index value) w item w' → Takes (.build item index value) w w'

section Stays

variable {done rest : List (Key × Item κ)} {e : Key × Item κ}

theorem find?_append_of_first (hf : ∀ x ∈ done, x.1 ≠ e.1) :
    (done ++ e :: rest).find? (·.1 == e.1) = some e := by
  have hnone : done.find? (·.1 == e.1) = none := by
    rw [find?_eq_none]
    intro x hx
    simpa using hf x hx
  simp [hnone]

theorem stays_iff (hn : ((done ++ e :: rest).map (·.2.detector)).Nodup) :
    stays keys (done ++ e :: rest) e = true ↔ e.1 ∈ keys ∧ ∀ x ∈ done, x.1 ≠ e.1 := by
  simp only [stays, Bool.and_eq_true, contains_eq_mem, decide_eq_true_eq, Option.any_eq_true,
    beq_iff_eq]
  refine and_congr_right fun _ => ⟨?_, ?_⟩
  · rintro ⟨x, hx, hd⟩ y hy hkey
    -- an item of that key among `done` would be found before `e`, with the detector of `e`
    obtain ⟨z, hz⟩ : ∃ z, done.find? (·.1 == e.1) = some z :=
      Option.isSome_iff_exists.mp (find?_isSome.mpr ⟨y, hy, by simpa using hkey⟩)
    rw [find?_append, hz] at hx
    obtain rfl : z = x := by simpa using hx
    have hz := mem_of_find?_eq_some hz
    rw [map_append, map_cons, nodup_append] at hn
    exact hn.2.2 _ (mem_map_of_mem hz) _ mem_cons_self hd
  · intro hf
    exact ⟨e, find?_append_of_first hf, rfl⟩

theorem stays_eq (hn : ((done ++ e :: rest).map (·.2.detector)).Nodup) :
    (keys.contains e.1 && !(done.filter (stays keys (done ++ e :: rest))).any (·.1 == e.1)) =
      stays keys (done ++ e :: rest) e := by
  rw [Bool.eq_iff_iff, stays_iff hn]
  simp only [Bool.and_eq_true, contains_eq_mem, decide_eq_true_eq, Bool.not_eq_true',
    any_eq_false, mem_filter, beq_iff_eq]
  refine and_congr_right fun hwanted => ⟨?_, fun hf x hx => hf x hx.1⟩
  intro hf x hx hkey
  -- the first of `done` with that key stays
  obtain ⟨z, hz⟩ : ∃ z, done.find? (·.1 == e.1) = some z :=
    Option.isSome_iff_exists.mp (find?_isSome.mpr ⟨x, hx, by simpa using hkey⟩)
  obtain ⟨hzkey, before, after, rfl, hbefore⟩ := find?_eq_some_iff_append.mp hz
  have hzkey : z.1 = e.1 := by simpa using hzkey
  refine hf z ⟨by simp, ?_⟩ hzkey
  have hsplit : before ++ z :: after ++ e :: rest = before ++ z :: (after ++ e :: rest) := by simp
  rw [hsplit] at hn ⊢
  rw [stays_iff hn]
  refine ⟨hzkey ▸ hwanted, fun y hy => ?_⟩
  rw [hzkey]
  simpa using hbefore y hy

theorem find?_stays {old : List (Key × Item κ)} (hn : (old.map (·.2.detector)).Nodup)
    (hk : key ∈ keys) :
    (old.filter (stays keys old)).find? (·.1 == key) = old.find? (·.1 == key) := by
  cases hf : old.find? (·.1 == key) with
  | none =>
    rw [find?_eq_none] at hf ⊢
    intro x hx
    exact hf x (mem_filter.mp hx).1
  | some e =>
    obtain ⟨hkey, before, after, rfl, hbefore⟩ := find?_eq_some_iff_append.mp hf
    obtain rfl : e.1 = key := by simpa using hkey
    have hs : stays keys (before ++ e :: after) e = true :=
      (stays_iff hn).mpr ⟨hk, fun x hx => by simpa using hbefore x hx⟩
    rw [filter_append, filter_cons_of_pos hs]
    exact find?_append_of_first fun x hx => by simpa using hbefore x (mem_filter.mp hx).1

theorem stays_of_keptAt? (hn : (old.map (·.2.detector)).Nodup) (hk : keptAt? keys old k = some item)
    (he : e ∈ old) (hd : e.2.detector = item.detector) : stays keys old e = true := by
  obtain ⟨key, hkey, hif⟩ := Option.bind_eq_some_iff.mp hk
  split at hif
  · cases hif
  · obtain ⟨x, hx, rfl⟩ := Option.map_eq_some_iff.mp hif
    obtain rfl : e = x := inj_on_of_nodup_map hn he (mem_of_find?_eq_some hx) hd
    obtain rfl : e.1 = key := by simpa using find?_some hx
    simp [stays, hx, mem_of_getElem? hkey]

end Stays

/-! ## User code -/

/-- The code of each item keeps to the range of the item, and it leaves the children alone that the
owner of the list has. -/
structure StaysOwn (h : Host κ υ) (i : ListId) (b : ListBlock κ) (parent : NodeId)
    (d : Document (Reaction κ)) (valid : World κ υ → Prop) : Prop extends
    StaysInside h i b parent d valid where
  never : h.NeverRevives
  spareKey : ∀ k, b.keyOf = some k → ∀ v n w r w', valid w → Returns (h.key k v n) w r w' →
    Spared b.owner (· < w.detectors.size) w w'
  spareBuild : ∀ detector f n v w r w', valid w →
    Returns (h.buildItem b.build detector f n v) w r w' →
    Spared b.owner (· < w.detectors.size) w w'
  spareRebind : ∀ e ∈ b.live, ∀ n v w w', valid w →
    Returns (h.run e.2.rebind (.rebound n v)) w () w' → Spared b.owner (· < w.detectors.size) w w'
  spareDrop : ∀ e ∈ b.live, ∀ w w', valid w → Returns (destroy h e.2.detector) w () w' →
    Spared b.owner (· < w.detectors.size) w w'

variable (hu : StaysOwn h i b p d valid)

include hu in
theorem dropItem_held (hv : valid w) (he : e ∈ b.live)
    (hh : Held b.owner made (before ++ e.2.detector :: after) w)
    (hret : Returns (dropItem h b.owner e.2) w () w') :
    w.detectors.size ≤ w'.detectors.size ∧ Held b.owner made (before ++ after) w' ∧
      Destroyed w' e.2.detector ∧ ∀ c, Destroyed w c → Destroyed w' c := by
  obtain ⟨_, v, hremove, hrest⟩ := returns_bind.mp hret
  obtain ⟨_, u, hdestroy, hextent⟩ := returns_bind.mp hrest
  have hheld := removeChild_held hh hremove
  have hsame : w'.detectors = u.detectors := by
    unfold removeExtent at hextent
    cases hx : e.2.extent with
    | none | some x =>
      rw [hx] at hextent
      cases hextent
      rfl
  have hspared := hu.spareDrop e he v u (hu.upkeep _ _ hv (.release e v he hremove)) hdestroy
  obtain ⟨hsize, hkeep⟩ : v.detectors.size = w.detectors.size ∧
      ∀ c, Destroyed w c → Destroyed v c := by
    cases hremove
    exact ⟨by simp, fun c hc => hc.modify _ fun _ hd => hd⟩
  refine ⟨?_, (hheld.spared hspared hheld.known).of_detectors hsame, ?_, fun c hc => ?_⟩
  · rw [hsame, ← hsize]
    exact hspared.grown
  · have hlt := hheld.known _ (hh.ours e.2.detector (by simp))
    exact (destroy_destroys hu.never (.inr ⟨rfl, hlt⟩) hdestroy).of_detectors hsame
  · exact (destroy_destroys hu.never (.inl (hkeep c hc)) hdestroy).of_detectors hsame

include hu in
theorem buildItem_held (hv : valid w) (hh : Held b.owner made present w)
    (hret : Returns (buildItem h b p target index value) w item w') :
    item.detector = w.detectors.size ∧
      Held b.owner (made ++ [item.detector]) (present ++ [item.detector]) w' ∧
      ∀ c, Destroyed w c → Destroyed w' c := by
  obtain ⟨c, v, hchild, hret₁⟩ := returns_bind.mp hret
  obtain ⟨f, u, hclone, hret₂⟩ := returns_bind.mp hret₁
  obtain ⟨r, t, hbuild, hinsert⟩ := returns_bind.mp hret₂
  obtain ⟨hdet, hvalid⟩ : u.detectors = v.detectors ∧ valid u := by
    cases hclone
    exact ⟨rfl, hu.upkeep _ _ (hu.upkeep _ _ hv (.adopt c v hchild)) (.arrange _)⟩
  cases hinsert
  have hspared := hu.spareBuild c f index value u r t hvalid hbuild
  have hheld := (newChild_held hh hchild).of_detectors hdet
  have hkeep : ∀ x, Destroyed w x → Destroyed t x := by
    intro x hx
    have hkept := hu.never.build b.build c f index value u x
      ((newChild_destroyed hchild hx).of_detectors hdet)
    rwa [hbuild.world_eq] at hkept
  refine ⟨(newChild_eq hchild).1, ?_, fun x hx => (hkeep x hx).of_detectors rfl⟩
  exact (hheld.spared hspared hheld.known).of_detectors rfl

/-! ## Retiring -/

/-- Of the live items, all but `rest` have been gone through; those that do not stay have been
dropped since `start`. -/
structure Retiring (h : Host κ υ) (b : ListBlock κ) (parent : NodeId) (d : Document (Reaction κ))
    (keys : List Key) (made : List DetectorId) (start : World κ υ)
    (done rest : List (Key × Item κ)) (w : World κ υ) : Prop where
  live : b.live = done ++ rest
  grown : start.detectors.size ≤ w.detectors.size
  held : Held b.owner made ((done.filter (stays keys b.live) ++ rest).map (·.2.detector)) w
  deeds : Path (Deed.Takes h b parent d) start ((done.filter (!stays keys b.live ·)).map (.drop ·.2)) w
  gone : ∀ e ∈ done, stays keys b.live e = false → Destroyed w e.2.detector

namespace Retiring

variable {done rest : List (Key × Item κ)} {e : Key × Item κ}

theorem keep (ht : Retiring h b p d keys made start done (e :: rest) w)
    (hs : stays keys b.live e = true) : Retiring h b p d keys made start (done ++ [e]) rest w where
  live := by rw [ht.live]; simp
  grown := ht.grown
  held := by simpa [filter_append, hs] using ht.held
  deeds := by simpa [filter_append, hs] using ht.deeds
  gone := forall_mem_append.mpr ⟨ht.gone, by simp [hs]⟩

include hu in
theorem drop (hv : valid w) (ht : Retiring h b p d keys made start done (e :: rest) w)
    (hs : stays keys b.live e = false) (hret : Returns (dropItem h b.owner e.2) w () w') :
    Retiring h b p d keys made start (done ++ [e]) rest w' := by
  have he : e ∈ b.live := by rw [ht.live]; simp
  obtain ⟨hgrown, hheld, hgone, hkeep⟩ := dropItem_held hu hv he (by simpa using ht.held) hret
  constructor
  · rw [ht.live]
    simp
  · exact ht.grown.trans hgrown
  · simpa [filter_append, hs] using hheld
  · simpa [filter_append, hs] using ht.deeds.snoc (.drop hret)
  · exact forall_mem_append.mpr ⟨fun x hx hxs => hkeep _ (ht.gone x hx hxs),
      forall_mem_singleton.mpr fun _ => hgone⟩

end Retiring

include hu in
theorem retire_follows (hr : Ready i b p valid w)
    (hc : w.document.children p = front ++ b.live.flatMap (nodesOf d) ++ back)
    (hh : Held b.owner made (b.live.map (·.2.detector)) w) :
    Meets (Stopped h b) (retire h b.owner keys [] b.live) w fun kept w' =>
      (Kept b keys kept ∧ Ready i b p valid w' ∧
        w'.document.children p = front ++ kept.flatMap (nodesOf d) ++ back) ∧
      kept = b.live.filter (stays keys b.live) ∧
      Retiring h b p d keys made w b.live [] w' := by
  let inv (kept rest : List (Key × Item κ)) (v : World κ υ) : Prop := ∃ done,
    kept = done.filter (stays keys b.live) ∧ Retiring h b p d keys made w done rest v
  have hstart : inv [] b.live w := ⟨[], rfl, rfl, le_rfl, by simpa using hh, .nil, by simp⟩
  -- the test that the code makes says whether the next item stays
  have htest : ∀ {done e rest v}, Retiring h b p d keys made w done (e :: rest) v →
      (keys.contains e.1 && !(done.filter (stays keys b.live)).any (·.1 == e.1)) =
        stays keys b.live e := by
    intro done e rest v ht
    have hnd := hh.once
    rw [ht.live] at hnd ⊢
    exact stays_eq hnd
  refine (retire_carries hu.toStaysInside keys inv ?_ ?_ b.live [] (by simp) (by simp) (by simp) hr
    (by simpa using hc) hstart).mono ?_
  · rintro _ e rest v hif ⟨done, rfl, ht⟩
    rw [htest ht] at hif
    exact ⟨done ++ [e], by simp [hif], ht.keep hif⟩
  · rintro _ e rest v v' hif _ hr hret ⟨done, rfl, ht⟩
    rw [htest ht] at hif
    exact ⟨done ++ [e], by simp [hif], ht.drop hu hr.valid hif hret⟩
  · rintro kept w' ⟨hkept, done, rfl, ht⟩
    have hdone : b.live = done := by simpa using ht.live
    rw [← hdone] at ht
    exact ⟨hkept, by rw [← hdone], ht⟩

/-! ## Filling the positions -/

/-- The detectors of the items that were not there when there were `n` detectors. -/
def freshOf (n : Nat) (live : List (Key × Item κ)) : List DetectorId :=
  (live.map (·.2.detector)).filter (n ≤ ·)

/-- The item that has come to a position: the one that is kept for it, or a new one. -/
def Settles (keys : List Key) (old : List (Key × Item κ)) (n : Nat)
    (entry : (Value × Key) × Nat) (e : Key × Item κ) : Prop :=
  e.1 = entry.1.2 ∧
    match keptAt? keys old entry.2 with
    | some item => e.2 = item
    | none => n ≤ e.2.detector

/-- Since `start`, when there were `n` detectors and the list had made `made`, all items that do not
stay have been dropped and the positions `done` have been filled. -/
structure Following (h : Host κ υ) (b : ListBlock κ) (parent : NodeId) (d : Document (Reaction κ))
    (keys : List Key) (made : List DetectorId) (n : Nat) (start : World κ υ)
    (done : List ((Value × Key) × Nat)) (s : Placing κ) (w : World κ υ) : Prop where
  grown : n ≤ w.detectors.size
  waiting : s.reusable =
    (b.live.filter (stays keys b.live)).filter (!(done.map (·.1.2)).contains ·.1)
  items : List.Forall₂ (Settles keys b.live n) done s.placed
  held : Held b.owner (made ++ freshOf n s.placed) ((s.reusable ++ s.placed).map (·.2.detector)) w
  deeds : Path (Deed.Takes h b parent d) start
    ((b.live.filter (!stays keys b.live ·)).map (.drop ·.2) ++
      (done.zip s.placed).map fun p => deedAt keys b.live p.1.1.1 p.1.2 p.2.2) w
  gone : ∀ e ∈ b.live, stays keys b.live e = false → Destroyed w e.2.detector

theorem entries_split (hn : keys.length = values.length)
    (hs : done ++ entry :: rest = (values.zip keys).zipIdx) :
    keys[entry.2]? = some entry.1.2 ∧ keys.take entry.2 = done.map (·.1.2) := by
  have hget : (values.zip keys).zipIdx[done.length]? = some entry := by
    rw [← hs]
    simp
  rw [getElem?_zipIdx, Option.map_eq_some_iff] at hget
  obtain ⟨⟨value, key⟩, hzip, rfl⟩ := hget
  have hkeys := keys_of_entries hn
  rw [← hs, map_append] at hkeys
  constructor
  · simpa using (getElem?_zip_eq_some.mp hzip).2
  · rw [← hkeys]
    simp

namespace Following

variable {done : List ((Value × Key) × Nat)} {value : Value} {key : Key} {index : Nat}

section

variable (hf : Following h b p d keys made n start done s w)
include hf

theorem find?_eq (hnd : (b.live.map (·.2.detector)).Nodup) (hk : keys[index]? = some key)
    (ht : keys.take index = done.map (·.1.2)) :
    (s.reusable.find? (·.1 == key)).map (·.2) = keptAt? keys b.live index := by
  rw [keptAt?, hk, Option.bind_some, ht, hf.waiting]
  split
  · next hm =>
    rw [Option.map_eq_none_iff, find?_eq_none]
    intro e he hek
    have hnot : e.1 ∉ done.map (·.1.2) := by simpa using (mem_filter.mp he).2
    obtain rfl : e.1 = key := by simpa using hek
    exact hnot hm
  · next hm =>
    have hsame : ∀ e : Key × Item κ,
        decide ((!(done.map (·.1.2)).contains e.1) = true ∧ (e.1 == key) = true) = (e.1 == key) := by
      intro e
      by_cases hek : e.1 = key
      · simp [hek, hm]
      · simp [hek]
    simp only [find?_filter, hsame]
    rw [← find?_stays hnd (mem_of_getElem? hk), find?_filter]

theorem put (hgrown : w.detectors.size ≤ w'.detectors.size)
    (hitem : Settles keys b.live n ((value, key), index) (key, item))
    (hheld : Held b.owner (made ++ freshOf n (s.placed ++ [(key, item)]))
      ((s.reusable.filter (·.1 != key) ++ (s.placed ++ [(key, item)])).map (·.2.detector)) w')
    (hdeed : (deedAt keys b.live value index item).Takes h b p d w w')
    (hkeep : ∀ c, Destroyed w c → Destroyed w' c) :
    Following h b p d keys made n start (done ++ [((value, key), index)]) (s.put key item)
      w' where
  grown := hf.grown.trans hgrown
  waiting := by
    rw [Placing.put, hf.waiting, filter_filter]
    refine filter_congr fun e _ => ?_
    rw [Bool.eq_iff_iff, map_append]
    simp only [Bool.and_eq_true, bne_iff_ne, Bool.not_eq_true', contains_eq_mem,
      decide_eq_false_iff_not, mem_append, map_cons, map_nil, mem_singleton,
      not_or]
    exact and_comm
  items := rel_append hf.items (.cons hitem .nil)
  held := hheld
  deeds := by
    rw [Placing.put, zip_append hf.items.length_eq, map_append, ← append_assoc]
    exact hf.deeds.snoc hdeed
  gone e he hes := hkeep _ (hf.gone e he hes)

theorem build
    (hu : StaysOwn h i b p d valid) (hv : valid w) (hkept : keptAt? keys b.live index = none)
    (hfind : s.reusable.filter (·.1 != key) = s.reusable)
    (hret : Returns (buildItem h b p target index value) w item w') :
    Following h b p d keys made n start (done ++ [((value, key), index)]) (s.put key item)
      w' := by
  obtain ⟨hdet, hheld, hkeep⟩ := buildItem_held hu hv hf.held hret
  have hfresh : freshOf n (s.placed ++ [(key, item)]) = freshOf n s.placed ++ [item.detector] := by
    simp [freshOf, hdet, hf.grown]
  have hlt := hheld.known item.detector (by simp)
  rw [hdet] at hlt
  refine hf.put hlt.le ⟨rfl, ?_⟩ ?_ ?_ hkeep
  · rw [hkept, hdet]
    exact hf.grown
  · rw [hfresh, ← append_assoc, hfind]
    simpa using hheld
  · rw [deedAt, hkept]
    exact .build target hret

theorem keep (hu : StaysOwn h i b p d valid) (hv : valid { w with document := e })
    (hold : item.detector < n) (hlive : (key, item) ∈ b.live)
    (hkept : keptAt? keys b.live index = some item)
    (hwait : s.reusable = before ++ (key, item) :: after)
    (hfilter : s.reusable.filter (·.1 != key) = before ++ after)
    (hnodes : item.nodes e = item.nodes d)
    (hret : Returns (h.run item.rebind (.rebound index value)) { w with document := e } () w') :
    Following h b p d keys made n start (done ++ [((value, key), index)]) (s.put key item)
      w' := by
  have hfresh : freshOf n (s.placed ++ [(key, item)]) = freshOf n s.placed := by
    simp [freshOf, hold]
  have hperm : (s.reusable ++ s.placed).Perm (before ++ after ++ (s.placed ++ [(key, item)])) := by
    rw [hwait, ← append_assoc]
    exact (perm_middle.append_right s.placed).trans (perm_append_singleton _ _).symm
  have hspared := hu.spareRebind _ hlive index value _ w' hv hret
  have hheld : Held b.owner (made ++ freshOf n s.placed)
      ((before ++ after ++ (s.placed ++ [(key, item)])).map (·.2.detector))
      { w with document := e } :=
    (hf.held.perm (hperm.map (·.2.detector))).of_detectors rfl
  refine hf.put hspared.grown ⟨rfl, by rw [hkept]⟩ ?_ ?_ fun c hc => ?_
  · rw [hfresh, hfilter]
    exact hheld.spared hspared hheld.known
  · rw [deedAt, hkept]
    exact .rebind e hnodes hret
  · have hkeep := hu.never.run item.rebind (.rebound index value) { w with document := e } c
      (hc.of_detectors rfl)
    rwa [hret.world_eq] at hkeep

end

end Following

include hu in
theorem Following.supplied (hv : valid w) (hlen : keys.length = values.length)
    (hlive : s.reusable.Sublist b.live) (hknown : ∀ e ∈ b.live, e.2.detector < n)
    (hnd : (b.live.map (·.2.detector)).Nodup)
    (hsplit : done ++ entry :: rest = (values.zip keys).zipIdx)
    (hsupplied : Supplied h b p d valid s.reusable entry.1.2 entry.2 entry.1.1 item w w')
    (ht : Following h b p d keys made n start done s w) :
    Following h b p d keys made n start (done ++ [entry]) (s.put entry.1.2 item)
      w' := by
  obtain ⟨hkey, htake⟩ := entries_split hlen hsplit
  have hkept := ht.find?_eq hnd hkey htake
  cases hsupplied with
  | built target hfind hret =>
    rw [hfind] at hkept
    exact ht.build hu hv hkept.symm (filter_of_find?_none hfind) hret
  | kept x before after hfind hwait hfilter hnodes hv hret =>
    have he := hlive.subset (mem_of_find?_eq_some hfind)
    rw [hfind] at hkept
    exact ht.keep hu hv (hknown _ he) he hkept.symm hwait hfilter hnodes hret

/-! ## One update -/

/-- A list whose items stand in their places and whose code keeps to them. -/
structure Orderly (h : Host κ υ) (i : ListId) (b : ListBlock κ) (parent : NodeId)
    (front back : List NodeId) (valid : World κ υ → Prop) (w : World κ υ) : Prop where
  heads : b.anchor.Heads parent front
  layout : Layout parent front b.live back w.document
  ready : Ready i b parent valid w
  code : StaysOwn h i b parent w.document valid

/-- An update to the array of `values` has taken `w`, where the list had made the detectors `made`,
to `w'`. All it has done with items are the `deeds`: dropping those that do not stay, and then
rebinding or building one for each position, in order. -/
structure Reconciled (h : Host κ υ) (i : ListId) (b : ListBlock κ) (parent : NodeId)
    (front back : List NodeId) (valid : World κ υ → Prop) (values : List Value)
    (made : List DetectorId) (w w' : World κ υ) (keys : List Key) (live : List (Key × Item κ)) :
    Prop where
  block : w'.lists[i]? = some { b with live := live }
  ready : Ready i b parent valid w'
  layout : Layout parent front live back w'.document
  entries : live.map (·.1) = keys
  length : live.length = values.length
  deeds : ∃ w₁ w₂ w₃,
    Returns (values.zipIdx.mapM fun p => keyAt h b.keyOf p.1 p.2) w keys w₁ ∧
    Returns (updateList i fun c => { c with live := [] }) w₁ () w₂ ∧
    Path (Deed.Takes h b parent w.document) w₂
      ((b.live.filter (!stays keys b.live ·)).map (.drop ·.2) ++
        (values.zip live).zipIdx.map fun p => deedAt keys b.live p.1.1 p.2 p.1.2.2) w₃ ∧
    Returns (updateList i fun c => { c with live := live }) w₃ () w'
  kept : ∀ k item, keptAt? keys b.live k = some item → live[k]?.map (·.2) = some item
  built : ∀ k e, keptAt? keys b.live k = none → live[k]? = some e →
    w.detectors.size ≤ e.2.detector
  held : Held b.owner (made ++ freshOf w.detectors.size live) (live.map (·.2.detector)) w'
  gone : ∀ e ∈ b.live, stays keys b.live e = false →
    Destroyed w' e.2.detector ∧ e.2.detector ∉ childrenOf w' b.owner

theorem deeds_entries {live old : List (Key × Item κ)}
    (hk : keys.length = values.length) (hl : live.length = values.length) :
    (((values.zip keys).zipIdx.zip live).map fun p => deedAt keys old p.1.1.1 p.1.2 p.2.2) =
      (values.zip live).zipIdx.map fun p => deedAt keys old p.1.1 p.2 p.1.2.2 := by
  refine ext_getElem ?_ ?_
  · simp [hk, hl]
  · intro k _ _
    simp

namespace Following

section

variable (hf : Following h b p d keys made n start (values.zip keys).zipIdx s w)
  (hlen : keys.length = values.length)
include hf hlen

theorem position (hk : k < keys.length) :
    ∃ e, s.placed[k]? = some e ∧ match keptAt? keys b.live k with
      | some item => e.2 = item
      | none => n ≤ e.2.detector := by
  have hentry : (values.zip keys).zipIdx[k]? = some ((values[k], keys[k]), k) := by
    have hzip : (values.zip keys)[k]? = some (values[k], keys[k]) := by
      rw [getElem?_zip_eq_some]
      exact ⟨getElem?_eq_getElem _, getElem?_eq_getElem hk⟩
    simp [hzip]
  obtain ⟨e, he, -, hmatch⟩ := getElem?_of_forall₂ hf.items hentry
  exact ⟨e, he, hmatch⟩

theorem kept (hk : keptAt? keys b.live k = some item) : s.placed[k]?.map (·.2) = some item := by
  obtain ⟨key, hkey, -⟩ := Option.bind_eq_some_iff.mp hk
  obtain ⟨x, hx, hmatch⟩ := hf.position hlen (List.getElem?_eq_some_iff.mp hkey).1
  rw [hk] at hmatch
  rw [hx, Option.map_some, hmatch]

theorem built (hk : keptAt? keys b.live k = none)
    (he : s.placed[k]? = some e) : n ≤ e.2.detector := by
  have hlt := (List.getElem?_eq_some_iff.mp he).1
  have hall : (values.zip keys).zipIdx.length = s.placed.length := hf.items.length_eq
  obtain ⟨x, hx, hmatch⟩ := hf.position hlen (k := k) (by
    rw [List.length_zipIdx, List.length_zip, hlen, Nat.min_self] at hall
    omega)
  rw [hk] at hmatch
  obtain rfl := Option.mem_unique hx he
  exact hmatch

theorem not_live (hnd : (b.live.map (·.2.detector)).Nodup)
    (hn : ∀ e ∈ b.live, e.2.detector < n) (he : e ∈ b.live) (hs : stays keys b.live e = false) :
    e.2.detector ∉ s.placed.map (·.2.detector) := by
  intro hm
  obtain ⟨x, hx, hd⟩ := mem_map.mp hm
  obtain ⟨k, hk⟩ := getElem?_of_mem hx
  cases hkept : keptAt? keys b.live k with
  | none => exact absurd (hn e he) (Nat.not_lt.mpr (hd ▸ hf.built hlen hkept hk))
  | some item =>
    have hitem := hf.kept hlen hkept
    rw [hk, Option.map_some, Option.some.injEq] at hitem
    have hstays := stays_of_keptAt? hnd hkept he (by rw [← hd, hitem])
    simp [hs] at hstays

end

end Following

theorem listItems_reconciles (hw : Orderly h i b p front back valid w)
    (hb : w.lists[i]? = some b) (hh : Held b.owner made (b.live.map (·.2.detector)) w) (v : Value) :
    Meets (Stopped h b) (listItems h i v) w fun _ w' => ∃ keys live,
      Reconciled h i b p front back valid (v.items?.getD []) made w w' keys live := by
  obtain ⟨heads, hl, hr, hu⟩ := hw
  have hin := hu.toStaysInside
  have hknown : ∀ e ∈ b.live, e.2.detector < w.detectors.size := fun e he =>
    hh.known _ (hh.ours _ (mem_map_of_mem he))
  unfold listItems
  generalize v.items?.getD [] = values
  rw [Meets.bind_iff, Meets.find_iff hb, Meets.bind_iff, Meets.document_iff, heads.parent?_eq hl]
  simp only [Meets.bind_iff]
  -- the keys
  let inv (v : World κ υ) : Prop := Held b.owner made (b.live.map (·.2.detector)) v ∧
    w.detectors.size ≤ v.detectors.size
  have hkey : ∀ k v n u r u', b.keyOf = some k → valid u → Returns (h.key k v n) u r u' →
      inv u → inv u' := by
    rintro k v n u r u' hk hv hret ⟨hh, hn⟩
    have hspared := hu.spareKey k hk v n u r u' hv hret
    exact ⟨hh.spared hspared hh.known, hn.trans hspared.grown⟩
  refine (keys_carries hin inv hkey hr hb ⟨hh, le_rfl⟩ values.zipIdx).and_returns.mono ?_
  rintro keys w₁ ⟨hkeys, hlen, hr₁, hb₁, hc₁, hh₁, hn₁⟩
  rw [length_zipIdx] at hlen
  rw [Meets.find_iff hb₁]
  refine (updateList_ready hin hr₁ []).and_returns.mono ?_
  rintro _ w₂ ⟨hclear, hr₂, _, hdoc₂⟩
  have hdet₂ : w₂.detectors = w₁.detectors := by
    cases hclear
    rfl
  -- the items that do not stay
  refine (retire_follows hu hr₂ (by rw [hdoc₂, hc₁, hl.children]) (hh₁.of_detectors hdet₂)).mono ?_
  rintro _ w₃ ⟨⟨hkept, hr₃, hc₃⟩, rfl, ht⟩
  have hfollow : Following h b p w.document keys made w.detectors.size w₂ []
      { previous := b.anchor.start?, reusable := b.live.filter (stays keys b.live) } w₃ := by
    refine ⟨?_, by simp, .nil, ?_, ?_, ht.gone⟩
    · exact hn₁.trans (hdet₂ ▸ ht.grown)
    · simpa [freshOf] using ht.held
    · simpa using ht.deeds
  -- the positions
  refine (fillAll_carries hin hl hkept.live keys _ (Following h b p w.document keys made _ w₂)
    (fun _ _ _ _ _ _ _ hdone hv hs ht =>
      ht.supplied hu hv hlen (ht.waiting ▸ filter_sublist.trans hkept.live) hknown hh.once hdone
        hs)
    (filling_start h heads hkept hr₃ hc₃ hlen) hfollow).mono ?_
  rintro s w₄ ⟨⟨slots, hf⟩, ht₄⟩
  rw [hf.reusable_nil, List.forM, Meets.pure_iff]
  obtain ⟨hkeys₄, -⟩ := hf.position hlen
  refine (updateList_ready hin hf.ready s.placed).and_returns.mono ?_
  rintro _ w₅ ⟨hstore, hr₅, hb₅, hdoc₅⟩
  have hdet₅ : w₅.detectors = w₄.detectors := by
    cases hstore
    rfl
  have hlive : s.placed.length = values.length := by rw [← hlen, ← hkeys₄, length_map]
  have hheld : Held b.owner (made ++ freshOf w.detectors.size s.placed)
      (s.placed.map (·.2.detector)) w₅ := by
    have hheld := ht₄.held
    rw [hf.reusable_nil] at hheld
    exact hheld.of_detectors hdet₅
  refine ⟨keys, s.placed, hb₅, hr₅, hdoc₅ ▸ hf.layout, hkeys₄, hlive, ?_,
    fun _ _ hk => ht₄.kept hlen hk, fun _ _ hk he => ht₄.built hlen hk he, hheld, ?_⟩
  · refine ⟨w₁, w₂, w₄, hkeys, hclear, ?_, hstore⟩
    rw [← deeds_entries hlen hlive]
    exact ht₄.deeds
  · intro e he hes
    refine ⟨(ht₄.gone e he hes).of_detectors hdet₅, ?_⟩
    have hmade : e.2.detector ∈ made := hh.ours _ (mem_map_of_mem he)
    have hcount := hheld.count e.2.detector (mem_append_left _ hmade)
    rw [← count_eq_zero, hcount, count_eq_zero]
    exact ht₄.not_live hlen hh.once hknown he hes

/-! ## Runs -/

variable (h i b) in
/-- The worlds that a list gets to: it starts without items, other code runs that leaves the list
and its children alone, and the list is updated, any number of times. Along the way it makes the
detectors of the first argument. -/
inductive Driven : List DetectorId → World κ υ → Prop where
  | registered {w : World κ υ} : w.lists[i]? = some { b with live := [] } →
      b.owner < w.detectors.size → (∀ c ∈ childrenOf w b.owner, c < w.detectors.size) → Driven [] w
  | between {made : List DetectorId} {w w' : World κ υ} : Driven made w →
      w'.lists[i]? = w.lists[i]? → Spared b.owner (· ∈ made) w w' → Driven made w'
  | updated {made : List DetectorId} {w w' : World κ υ} {front back : List NodeId}
      {valid : World κ υ → Prop} : Driven made w → w.lists[i]? = some { b with live := live } →
      Orderly h i { b with live := live } parent front back valid w →
      Returns (listItems h i v) w () w' → w'.lists[i]? = some { b with live := live' } →
      Driven (made ++ freshOf w.detectors.size live') w'

theorem Driven.held (hd : Driven h i b made w) :
    ∃ live, w.lists[i]? = some { b with live := live } ∧
      Held b.owner made (live.map (·.2.detector)) w := by
  induction hd with
  | registered hb halive hbounded =>
    exact ⟨[], hb, halive, by simp, by simp, by simp, by simp, hbounded, by simp⟩
  | between _ hb hs ih =>
    obtain ⟨live, hlive, hh⟩ := ih
    exact ⟨live, hb.trans hlive, hh.spared hs fun _ hc => hc⟩
  | @updated live p v live' made w w' front back valid _ hb hw hret hb' ih =>
    obtain ⟨live₀, hlive, hh⟩ := ih
    obtain rfl : live₀ = live := by
      rw [hb] at hlive
      simpa using hlive.symm
    have hmeets := listItems_reconciles hw hb hh v
    rw [Meets.of_outcome hret] at hmeets
    obtain ⟨keys, live₁, hrec⟩ := hmeets
    obtain rfl : live₁ = live' := by
      have heq := hrec.block
      rw [hb'] at heq
      simpa using heq.symm
    exact ⟨live₁, hb', hrec.held⟩

/-- In every world that a list gets to, an update keeps the first live item of each wanted key, with
its detector and its nodes, and rebinds it once to its new index and value; it builds a new item for
every other position; it drops every other item once. The children that the list has then given to
its owner are those of the live items. Only code of the user can keep an update from getting there.
-/
theorem listItems_identity (h : Host κ υ) (i : ListId) (b : ListBlock κ) (made : List DetectorId)
    (live : List (Key × Item κ)) (w : World κ υ) (v : Value) (parent : NodeId)
    (front back : List NodeId) (valid : World κ υ → Prop) (hd : Driven h i b made w)
    (hb : w.lists[i]? = some { b with live := live })
    (hw : Orderly h i { b with live := live } parent front back valid w) :
    Meets (Stopped h { b with live := live }) (listItems h i v) w fun _ w' => ∃ keys live',
      Reconciled h i { b with live := live } parent front back valid (v.items?.getD []) made w w'
        keys live' ∧
      ((childrenOf w' b.owner).filter
        ((made ++ freshOf w.detectors.size live').contains ·)).Perm (live'.map (·.2.detector)) ∧
      Driven h i b (made ++ freshOf w.detectors.size live') w' := by
  obtain ⟨live₀, hlive, hh⟩ := hd.held
  obtain rfl : live₀ = live := by
    rw [hb] at hlive
    simpa using hlive.symm
  refine (listItems_reconciles hw hb hh v).and_returns.mono ?_
  rintro _ w' ⟨hret, keys, live', hrec⟩
  exact ⟨keys, live', hrec, hrec.held.contributed, hd.updated hb hw hret hrec.block⟩

/-! A list of two items with one key and a third one, of which the second goes, while two new items
come, one of them for a key that is already there. -/

section Sample

/-- No detector but the owner has children, and nothing is to be done when one is destroyed. -/
structure Flat (owner : DetectorId) (w : World κ υ) : Prop where
  quiet : Quiet w
  single : ∀ j, j ≠ owner → childrenOf w j = []

theorem Flat.modify (hw : Flat owner w) (j : DetectorId)
    (hf : ∀ c, c.cleanups = [] → (f c).cleanups = [])
    (hc : j = owner ∨ ∀ c, c.children = [] → (f c).children = []) :
    Flat owner { w with detectors := w.detectors.modify j f } where
  quiet := hw.quiet.modify j hf
  single := by
    intro k hk
    by_cases hj : j = k
    · subst hj
      have hflat := hw.single j hk
      unfold childrenOf at hflat ⊢
      cases he : w.detectors[j]? with
      | none => simp [Array.getElem?_modify, he]
      | some e =>
        rw [he] at hflat
        simpa [Array.getElem?_modify, he] using (hc.resolve_left hk) e hflat
    · rw [childrenOf_modify_ne hj]
      exact hw.single k hk

theorem Flat.adopt (hw : Flat owner w) (hret : Returns (newChild owner) w c w') :
    Flat owner w' := by
  obtain ⟨p, _, -, -, rfl, rfl⟩ := newChild_inv hret
  refine Flat.modify ⟨hw.quiet.sprout, fun k hk => ?_⟩ owner (fun _ hc => hc) (.inl rfl)
  have hflat := hw.single k hk
  unfold childrenOf at hflat ⊢
  by_cases hlast : k = w.detectors.size
  · simp [World.sprout, hlast]
  · simpa [World.sprout, Array.getElem?_push, hlast] using hflat

theorem Flat.lone (hd : w.detectors = #[c]) (hc : c.cleanups = []) : Flat 0 w where
  quiet := by simp [Quiet, hd, hc]
  single := fun j hj => by simp [childrenOf, hd, hj]

theorem Flat.upkeep (hw : Flat b.owner w) (hup : Upkeep i b w w') : Flat b.owner w' := by
  cases hup with
  | arrange e => exact ⟨hw.quiet, hw.single⟩
  | adopt c _ hret => exact hw.adopt hret
  | release e _ he hret =>
    cases hret
    exact hw.modify b.owner (fun _ hc => hc) (.inl rfl)
  | relist live _ hret =>
    cases hret
    exact ⟨hw.quiet, hw.single⟩

def World.retire (w : World κ υ) (j : DetectorId) : World κ υ :=
  { w with
    detectors := ((w.detectors.modify j
      fun c => { c with destroyed := true, watchers := [], preludes := [] }).modify j
      fun c => { c with cleanups := [] }).modify j fun c => { c with children := [] } }

section

variable (hj : j ≠ owner) (hw : Flat owner w) (hret : Returns (destroy h j) w () w')
include hj hw hret

theorem destroy_flat_eq : w' = w.retire j ∧ Flat owner (w.retire j) := by
  have hw₁ := hw.modify j
    (f := fun c => { c with destroyed := true, watchers := [], preludes := [] })
    (fun _ hc => hc) (.inr fun _ hc => hc)
  have hw₂ := hw₁.modify j (f := fun c => { c with cleanups := [] }) (fun _ _ => rfl)
    (.inr fun _ hc => hc)
  have hw₃ := hw₂.modify j (f := fun c => { c with children := [] }) (fun _ hc => hc)
    (.inr fun _ _ => rfl)
  have hmeets : ∀ n, Meets (fun _ _ => True) (destroyTo h n j) w fun _ w' => w' = w.retire j := by
    intro n
    cases n with
    | zero => trivial
    | succ n =>
      simp only [destroyTo, updateDetector, Meets.bind_iff, Meets.modify_iff]
      refine Meets.find_of (fun _ => trivial) fun c hc => ?_
      rw [hw₁.quiet c (Array.mem_of_getElem? hc), List.forM, Meets.pure_iff]
      refine Meets.find_of (fun _ => trivial) fun c' hc' => ?_
      have hnone : c'.children = [] := (childrenOf_eq hc').symm.trans (hw₂.single j hj)
      rw [hnone, List.forM, Meets.pure_iff]
      rfl
  have hdestroy : Meets (fun _ _ => True) (destroy h j) w fun _ w' => w' = w.retire j := by
    simp only [destroy, Meets.bind_iff, Meets.get_iff]
    exact hmeets _
  rw [Meets.of_outcome hret] at hdestroy
  exact ⟨hdestroy, hw₃⟩

theorem destroy_flat : Flat owner w' ∧ w'.detectors.size = w.detectors.size ∧
      childrenOf w' owner = childrenOf w owner ∧ ∃ ds, w' = { w with detectors := ds } := by
  obtain ⟨rfl, hflat⟩ := destroy_flat_eq hj hw hret
  refine ⟨hflat, by simp [World.retire], ?_, _, rfl⟩
  simp [World.retire, childrenOf, Array.getElem?_modify, hj]

end

theorem Spared.of_same {some : DetectorId → Prop} (hn : w'.detectors.size = w.detectors.size)
    (hc : childrenOf w' owner = childrenOf w owner) : Spared owner some w w' where
  grown := hn.symm.le
  children := fun c _ => by rw [hc]
  bounded := by
    rw [hc, hn]
    exact fun hb => hb

theorem idle_staysOwn {b : ListBlock Unit} {d : Document (Reaction Unit)}
    (hx : ∀ e ∈ b.live, ends (nodesOf d e) = e.2.extent) (hne : ∀ e ∈ b.live, e.2.detector ≠ b.owner) :
    StaysOwn idle i b p d (Flat b.owner) where
  toStaysInside := idle_stays hx (fun _ _ hw hup => hw.upkeep hup) fun e he w w' hw hret => by
    obtain ⟨hflat, hn, -, ds, rfl⟩ := destroy_flat (hne e he) hw hret
    exact ⟨hflat, rfl, rfl, hn⟩
  never := ⟨fun _ _ _ _ hc => hc, fun _ _ _ _ _ _ _ hc => hc⟩
  spareKey := by
    intro k _ v n w r w' _ hret
    cases hret
    exact .of_same rfl rfl
  spareBuild := by
    intro detector f n v w r w' _ hret
    cases hret
    exact .of_same rfl rfl
  spareRebind := by
    intro e _ n v w w' _ hret
    cases hret
    exact .of_same rfl rfl
  spareDrop := fun e he w w' hw hret =>
    .of_same (destroy_flat (hne e he) hw hret).2.1 (destroy_flat (hne e he) hw hret).2.2.1

def emptyWorld : World Unit Unit :=
  { sampleWorld with
    detectors := #[{ root := 0 }]
    lists := #[{ sampleBlock with live := [] }] }

theorem emptyWorld_orderly :
    Driven idle 0 sampleBlock [] emptyWorld ∧
      emptyWorld.lists[0]? = some { sampleBlock with live := [] } ∧
      Orderly idle 0 { sampleBlock with live := [] } 0 [1] [2, 3, 4] (Flat 0) emptyWorld := by
  refine ⟨.registered rfl (by decide) (by decide), rfl, .after [] 1, ?_, ?_, ?_⟩
  · exact ⟨by decide, linked_sampleDocument, by simp, by decide⟩
  · exact ⟨⟨[], rfl⟩, by decide, by decide, by decide, rfl, linked_sampleDocument, .lone rfl rfl⟩
  · exact idle_staysOwn (by simp) (by simp)

theorem listItems_identity_sample :
    ∃ live made w, Driven idle 0 sampleBlock made w ∧
      live.map (·.1) = [.string "a", .string "a", .string "b"] ∧
      Meets (Stopped idle { sampleBlock with live := live })
        (listItems idle 0 (.array 0 [.string "b", .string "c", .string "a", .string "b"])) w
        fun _ w' => ∃ keys live',
          Reconciled idle 0 { sampleBlock with live := live } 0 [1] [2, 3, 4] (Flat 0)
            [.string "b", .string "c", .string "a", .string "b"] made w w' keys live' ∧
          ((childrenOf w' 0).filter
            ((made ++ freshOf w.detectors.size live').contains ·)).Perm
              (live'.map (·.2.detector)) ∧
          Driven idle 0 sampleBlock (made ++ freshOf w.detectors.size live') w' := by
  obtain ⟨w₀, hd₀, hb₀, hw₀⟩ : ∃ w, Driven idle 0 sampleBlock [] w ∧
      w.lists[0]? = some { sampleBlock with live := [] } ∧
      Orderly idle 0 { sampleBlock with live := [] } 0 [1] [2, 3, 4] (Flat 0) w :=
    ⟨emptyWorld, emptyWorld_orderly⟩
  -- without items there is nothing whose code could stop
  have hgoes : ∀ s w', ¬ Stopped idle { sampleBlock with live := [] } s w' := by
    intro s w' hs
    cases hs with
    | key k v n w hk => cases hk
    | build detector f n v w ho => cases ho
    | rebind e n v w he => cases he
    | drop e w he => cases he
  obtain ⟨_, w, -, keys, live, hrec, -, hd⟩ := (listItems_identity idle 0 sampleBlock [] [] w₀
    (.array 0 [.string "a", .string "a", .string "b"]) 0 [1] [2, 3, 4] (Flat 0) hd₀ hb₀
    hw₀).returns hgoes
  have hkeys : keys = [.string "a", .string "a", .string "b"] := by
    obtain ⟨w₁, _, _, hkeys, -⟩ := hrec.deeds
    have hsame : Returns ([(Value.string "a", 0), (.string "a", 1), (.string "b", 2)].mapM fun p =>
      keyAt idle none p.1 p.2) w₀ [.string "a", .string "a", .string "b"] w₀ := rfl
    exact (hkeys.unique hsame).1
  have hne : ∀ e ∈ live, e.2.detector ≠ 0 := by
    intro e he
    obtain ⟨k, hk⟩ := List.getElem?_of_mem he
    have hnew := hrec.built k e (by simp [keptAt?]) hk
    exact (hw₀.ready.owner.trans_le hnew).ne'
  refine ⟨live, _, w, hd, hrec.entries.trans hkeys, ?_⟩
  exact listItems_identity idle 0 sampleBlock _ live w
    (.array 0 [.string "b", .string "c", .string "a", .string "b"]) 0 [1] [2, 3, 4] (Flat 0) hd
    hrec.block ⟨.after [] 1, hrec.layout, { hrec.ready with }, idle_staysOwn hrec.layout.extents hne⟩

end Sample

end ReactiveMarkup.Reactive
