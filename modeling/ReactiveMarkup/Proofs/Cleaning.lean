import ReactiveMarkup.Proofs.ChildLists
import ReactiveMarkup.Proofs.FreshFragments
import ReactiveMarkup.Session.Scope

/-! # Cleaned labels

Cleaning puts an empty text in the place of each empty comment of a fragment.
-/

namespace ReactiveMarkup.Reactive

open List Rose
open Session (descend?)

theorem Rose.preorderAll_eq {ts : List (Rose α)} : preorderAll ts = ts.flatMap preorder := by
  induction ts with
  | nil => rfl
  | cons t ts ih => rw [preorderAll, ih, flatMap_cons]

namespace Document

variable {ρ : Type} {d e : Document ρ} {p i : Nat} {σ : NodeId → Nat}

/-! ## Trees of nodes -/

theorem Linked.idsTo_meet (h : d.Linked) (hx : x ∈ (d.idsTo n i).preorder)
    (hx' : x ∈ (d.idsTo m j).preorder) :
    i ∈ (d.idsTo m j).preorder ∨ j ∈ (d.idsTo n i).preorder := by
  induction n generalizing i with
  | zero => exact .inl (mem_singleton.mp hx ▸ hx')
  | succ n ih =>
    obtain rfl | ⟨c, hc, hx⟩ := mem_idsTo_succ.mp hx
    · exact .inl hx'
    · rcases ih hx with hm | hm
      · obtain rfl | ⟨q, hq, hcq⟩ := mem_idsTo hm
        · exact .inr (mem_idsTo_succ.mpr (.inr ⟨c, hc, by cases n <;> exact mem_cons_self⟩))
        · exact .inl (h.same_parent hc hcq ▸ hq)
      · exact .inr (mem_idsTo_succ.mpr (.inr ⟨c, hc, hm⟩))

/-- A tree that is held shows no node twice: a node has one parent, and is numbered before all that
stands below it. -/
theorem Holds.nodup (hl : d.Linked) (h : d.Holds ok t i) : (d.idsTo n i).preorder.Nodup := by
  induction n generalizing t i with
  | zero => exact nodup_singleton i
  | succ n ih =>
    obtain ⟨c, ts⟩ := t
    obtain ⟨-, -, hlt, hts⟩ := h
    have habove : ∀ j ∈ d.children i, i ∉ (d.idsTo n j).preorder := by
      intro j hj hi
      obtain ⟨t, -, ht⟩ := hts.mem hj
      exact absurd ((ht.above t j (hlt j hj)).nodes i hi).2 (Nat.lt_irrefl i)
    have hapart : ∀ a ∈ d.children i, ∀ b ∈ d.children i, a ≠ b → a ∉ (d.idsTo n b).preorder := by
      intro a ha b hb hne hm
      obtain hab | ⟨q, hq, haq⟩ := mem_idsTo hm
      · exact hne hab
      · exact habove b hb (hl.same_parent ha haq ▸ hq)
    rw [Document.idsTo, preorder, preorderAll_eq, flatMap_map, nodup_cons, nodup_flatMap]
    refine ⟨by simpa using habove, fun j hj => ?_, ?_⟩
    · obtain ⟨t, -, ht⟩ := hts.mem hj
      exact ih ht
    · refine (hl.nodup i).pairwise_of_forall_ne fun a ha b hb hne x hx hx' => ?_
      rcases hl.idsTo_meet hx hx' with hm | hm
      · exact hapart a ha b hb hne hm
      · exact hapart b hb a ha hne.symm hm

theorem Holds.closed (h : d.Holds (fun j : Nat => j < d.nodes.size) t i)
    (hn : d.nodes.size ≤ n + i) (hj : j ∈ (d.idsTo n i).preorder) (hc : c ∈ d.children j) :
    c ∈ (d.idsTo n i).preorder := by
  induction n generalizing t i with
  | zero =>
    have := h.root
    omega
  | succ n ih =>
    obtain ⟨_, ts⟩ := t
    obtain ⟨-, -, hlt, hts⟩ := h
    refine mem_idsTo_succ.mpr (.inr ?_)
    obtain rfl | ⟨k, hk, hj⟩ := mem_idsTo_succ.mp hj
    · exact ⟨c, hc, by cases n <;> exact mem_cons_self⟩
    · obtain ⟨t, -, ht⟩ := hts.mem hk
      have := hlt k hk
      exact ⟨k, hk, ih ht (by omega) hj⟩

/-! ## Replaced comments -/

/-- What cleaning makes of `d`: where `j` stood, `σ j` stands, which is `j` itself or, for an empty
comment, a new empty text. -/
structure Cleaned (d e : Document ρ) (σ : NodeId → Nat) : Prop where
  linked : e.Linked
  size : d.nodes.size ≤ e.nodes.size
  content : ∀ j : Nat, j < d.nodes.size → e.content j = d.content j
  children : ∀ j : Nat, j < d.nodes.size → e.children j = (d.children j).map σ
  moved : ∀ j, σ j ≠ j → isEmptyComment (d.content j) = true ∧ d.nodes.size ≤ σ j ∧
    σ j < e.nodes.size ∧ e.content (σ j) = { kind := .text "" } ∧ e.children (σ j) = []

theorem Cleaned.refl (h : d.Linked) : Cleaned d d id :=
  ⟨h, le_rfl, fun _ _ => rfl, fun j _ => (map_id (d.children j)).symm, fun _ h => (h rfl).elim⟩

theorem map_update {is : List NodeId} (h : i ∉ is) : is.map (Function.update σ i n) = is.map σ :=
  map_congr_left fun _ hx => Function.update_of_ne (ne_of_mem_of_not_mem hx h) n σ

theorem Cleaned.replace (h : Cleaned d e σ) (hd : d.Linked) (hi : i ∈ d.children p) (hσ : σ i = i)
    (hempty : isEmptyComment (d.content i) = true) :
    Cleaned d ((e.add { kind := .text "" }).2.replaceChild p e.nodes.size i)
      (Function.update σ i e.nodes.size) := by
  let a := (e.add { kind := .text "" }).2
  have hsize := h.size
  have hpd : p < d.nodes.size := lt_size_of_child hi
  have hpe : p < e.nodes.size := Nat.lt_of_lt_of_le hpd hsize
  have hie : i < e.nodes.size := Nat.lt_of_lt_of_le (hd.lt_size hi) hsize
  have hnew : ∀ q, e.nodes.size ∉ e.children q :=
    fun q hm => Nat.lt_irrefl _ (h.linked.lt_size hm)
  obtain ⟨front, back, hc⟩ := append_of_mem hi
  have hnodup := hd.nodup p
  rw [hc] at hnodup
  have hchildren : (a.children p).erase e.nodes.size = front.map σ ++ i :: back.map σ := by
    rw [children_add, erase_of_not_mem (hnew p), h.children p hpd, hc]
    simp [hσ]
  have hreg := replaceChild_regroups (linked_add h.linked)
    (size_add ▸ Nat.lt_succ_of_lt hpe) (by simp) hpe.ne hie.ne hchildren
  have hmoved : a.moved e.nodes.size = [e.nodes.size] := by
    rw [Document.moved, kind_add, if_pos rfl, if_neg (by simp)]
  have hr : Rearranged a (a.replaceChild p e.nodes.size i) := by
    rw [replaceChild, if_neg hie.ne']
    exact (Rearranged.insertBefore ..).trans .detach
  rw [hmoved] at hreg
  have hothers : ∀ q, q ≠ p → (a.replaceChild p e.nodes.size i).children q = e.children q := by
    intro q hq
    rw [hreg.others q hq, children_add, filter_eq_self]
    intro x hx
    simpa using ne_of_mem_of_not_mem hx (hnew q)
  have hcontent : ∀ j : Nat, j < e.nodes.size →
      (a.replaceChild p e.nodes.size i).content j = e.content j := by
    intro j hj
    rw [hr.content, content_add, if_neg hj.ne]
  refine ⟨hreg.linked, ?_, fun j hj => ?_, fun j hj => ?_, fun j hj => ?_⟩
  · rw [hr.size, size_add]
    omega
  · rw [hcontent j (by omega), h.content j hj]
  · by_cases hjp : j = p
    · subst hjp
      have hfront : i ∉ front := fun hm => disjoint_of_nodup_append hnodup hm mem_cons_self
      have hback : i ∉ back := (nodup_cons.mp (nodup_append.mp hnodup).2.1).1
      rw [hreg.children, hc, map_append, map_cons, map_update hfront, map_update hback]
      simp
    · have hij : i ∉ d.children j := fun hm => hjp (hd.same_parent hm hi)
      rw [hothers j hjp, h.children j hj, map_update hij]
  · by_cases hji : j = i
    · subst hji
      rw [Function.update_self, hothers _ (by omega), hr.content, hr.size, content_add, if_pos rfl]
      exact ⟨hempty, hsize, by simp [a], rfl, by simp [Document.children]⟩
    · rw [Function.update_of_ne hji] at hj ⊢
      obtain ⟨hj, hlow, hhigh, hcont, hch⟩ := h.moved j hj
      rw [hcontent _ hhigh, hothers _ (by omega), hr.size, size_add]
      exact ⟨hj, hlow, by omega, hcont, hch⟩

/-- The tree shows nodes that stand below `p`, and nothing below an empty comment. -/
inductive Below (d : Document ρ) : NodeId → Rose NodeId → Prop
  | node {p i : NodeId} : i ∈ d.children p → (isEmptyComment (d.content i) = true → us = []) →
    (∀ u ∈ us, Below d i u) → Below d p (.node i us)

theorem below_idsTo (hi : i ∈ d.children p) (hleaf : ∀ j ∈ (d.idsTo n i).preorder,
    isEmptyComment (d.content j) = true → d.children j = []) : Below d p (d.idsTo n i) := by
  induction n generalizing i p with
  | zero => exact .node hi (fun _ => rfl) nofun
  | succ n ih =>
    refine .node hi (fun he => by rw [hleaf i mem_cons_self he, map_nil]) fun u hu => ?_
    obtain ⟨c, hc, rfl⟩ := mem_map.mp hu
    exact ih hc fun j hj => hleaf j (mem_idsTo_succ.mpr (.inr ⟨c, hc, hj⟩))

theorem Cleaned.cleanAll (hd : d.Linked) : ∀ (us : List (Rose NodeId)) {p : NodeId}
    {e : Document ρ} {σ : NodeId → Nat}, Cleaned d e σ → (∀ u ∈ us, Below d p u) →
    (preorderAll us).Nodup → (∀ j ∈ preorderAll us, σ j = j) → ∃ τ, Cleaned d (cleanAll p us e) τ ∧
      (∀ j ∉ preorderAll us, τ j = σ j) ∧
      ∀ j ∈ preorderAll us, isEmptyComment (d.content j) = true → τ j ≠ j
  | [], _, _, σ, h, _, _, _ => ⟨σ, by rwa [Document.cleanAll], fun _ _ => rfl, nofun⟩
  | .node (i : Nat) us :: rest, p, e, σ, h, hbelow, hnodup, hσ => by
    obtain ⟨⟨hi, hleaf, hus⟩, hrest⟩ := forall_mem_cons.mp hbelow
    have hid : i < d.nodes.size := hd.lt_size hi
    rw [preorderAll, preorder, cons_append] at hnodup hσ ⊢
    obtain ⟨hfresh, hnodup⟩ := nodup_cons.mp hnodup
    obtain ⟨hnu, hnr, hdisj⟩ := nodup_append.mp hnodup
    obtain ⟨hσi, hσ⟩ := forall_mem_cons.mp hσ
    obtain ⟨hσu, hσr⟩ := forall_mem_append.mp hσ
    rw [Document.cleanAll, h.content i hid]
    split
    · next hempty =>
      obtain rfl := hleaf hempty
      have hne : ∀ j ∈ preorderAll rest, j ≠ i := fun j hj => ne_of_mem_of_not_mem hj hfresh
      obtain ⟨τ, hτ, hsame, hall⟩ := cleanAll hd rest (h.replace hd hi hσi hempty) hrest hnr
        fun j hj => by rw [Function.update_of_ne (hne j hj), hσr j hj]
      refine ⟨τ, hτ, fun j hj => ?_, forall_mem_cons.mpr ⟨fun _ => ?_, hall⟩⟩
      · obtain ⟨hji, hj⟩ := not_or.mp (mt mem_cons.mpr hj)
        rw [hsame j hj, Function.update_of_ne hji]
      · have := h.size
        rw [hsame i fun hm => hne i hm rfl, Function.update_self]
        omega
    · next hempty =>
      obtain ⟨τ, hτ, hsame, hall⟩ := cleanAll hd us h hus hnu hσu
      have hout : ∀ j ∈ preorderAll rest, j ∉ preorderAll us := fun j hj hm => hdisj j hm j hj rfl
      obtain ⟨υ, hυ, hsame', hall'⟩ := cleanAll hd rest hτ hrest hnr fun j hj => by
        rw [hsame j (hout j hj), hσr j hj]
      refine ⟨υ, hυ, fun j hj => ?_, forall_mem_cons.mpr ⟨fun he => absurd he hempty,
        forall_mem_append.mpr ⟨fun j hj he => ?_, hall'⟩⟩⟩
      · simp only [mem_cons, mem_append, not_or] at hj
        rw [hsame' j hj.2.2, hsame j hj.2.1]
      · rw [hsame' j fun hm => hout j hm hj]
        exact hall j hj he

/-! ## Paths -/

def cleaned (c : Content) : Content := if isEmptyComment c then { kind := .text "" } else c

/-- Each path from the root leads to as many nodes, and to the same content but for cleaning. -/
def KeepsPaths (before after : NodeId × Document ρ) : Prop :=
  ∀ path, (descend? after.2 path after.1).map after.2.content =
    (descend? before.2 path before.1).map fun i => cleaned (before.2.content i)

theorem Cleaned.descend (h : Cleaned d e σ) {nodes : List NodeId}
    (hsize : ∀ j : Nat, j ∈ nodes → j < d.nodes.size)
    (hclosed : ∀ j ∈ nodes, ∀ c ∈ d.children j, c ∈ nodes)
    (hleaf : ∀ j ∈ nodes, isEmptyComment (d.content j) = true → d.children j = [] ∧ σ j ≠ j)
    (hi : i ∈ nodes) (path : List Nat) : (descend? e path (σ i)).map e.content =
      (descend? d path i).map fun j => cleaned (d.content j) := by
  have hnode : ∀ j ∈ nodes, e.content (σ j) = cleaned (d.content j) ∧
      e.children (σ j) = (d.children j).map σ := by
    intro j hj
    by_cases hσ : σ j = j
    · have hempty : isEmptyComment (d.content j) ≠ true := fun he => (hleaf j hj he).2 hσ
      rw [hσ, cleaned, if_neg hempty]
      exact ⟨h.content j (hsize j hj), h.children j (hsize j hj)⟩
    · obtain ⟨hempty, -, -, hcontent, hchildren⟩ := h.moved j hσ
      rw [cleaned, if_pos hempty, (hleaf j hj hempty).1]
      exact ⟨hcontent, hchildren⟩
  induction path generalizing i with
  | nil => exact congrArg some (hnode i hi).1
  | cons k path ih =>
    rw [descend?, descend?, (hnode i hi).2, getElem?_map]
    cases hc : (d.children i)[k]? with
    | none => rfl
    | some c => exact ih (hclosed i hi c (mem_of_getElem? hc))

/-- Nothing is below a tree that is an empty comment, and below others are trees of markup. -/
def Tidy (t : Rose Content) : Prop :=
  PageNode.Plain t.children ∧ (isEmptyComment t.label = true → t.children = [])

theorem tidy_built (h : PageNode.Built t) : Tidy t := by
  cases h with
  | text | comment => exact ⟨nofun, fun _ => rfl⟩
  | element _ _ _ h => exact ⟨h, nofun⟩

theorem Holds.cleaned (hl : d.Linked) (hts : PageNode.Plain ts)
    (h : d.Holds (fun j : Nat => j < d.nodes.size) (.node { kind := .fragment } ts) i) :
    KeepsPaths (i, d) (i, cleanBelow (d.ids i) d) := by
  have hempty : ∀ j ∈ (d.ids i).preorder, isEmptyComment (d.content j) = true →
      d.children j = [] := by
    intro j hj he
    obtain ⟨⟨c, us⟩, hu, -, rfl, -, hus⟩ := h.parts (P := Tidy)
      (fun _ _ ht u hu => tidy_built (ht.1 u hu)) ⟨hts, nofun⟩ j hj
    obtain rfl : us = [] := hu.2 he
    exact hus
  have hnodup : (d.ids i).preorder.Nodup := h.nodup hl
  have hclosed : ∀ j ∈ (d.ids i).preorder, ∀ c ∈ d.children j, c ∈ (d.ids i).preorder :=
    fun j hj c hc => h.closed (Nat.le_add_right _ _) hj hc
  have hsize : ∀ j : Nat, j ∈ (d.ids i).preorder → j < d.nodes.size := h.nodes
  have hroot := h.root
  obtain ⟨n, hn⟩ : ∃ n, d.nodes.size = n + 1 := ⟨d.nodes.size - 1, by omega⟩
  have hids : d.ids i = .node i ((d.children i).map (d.idsTo n)) := by rw [ids, hn, Document.idsTo]
  rw [hids] at hempty hnodup hclosed hsize ⊢
  obtain ⟨hi, hnodup⟩ := nodup_cons.mp hnodup
  have hbelow : ∀ u ∈ (d.children i).map (d.idsTo n), Below d i u :=
    forall_mem_map.mpr fun c hc => below_idsTo hc fun j hj =>
      hempty j (mem_idsTo_succ.mpr (.inr ⟨c, hc, hj⟩))
  obtain ⟨τ, hτ, hsame, hall⟩ :=
    (Cleaned.refl hl).cleanAll hl _ hbelow hnodup fun _ _ => rfl
  have hτi : τ i = i := hsame i hi
  intro path
  have hpath := hτ.descend hsize hclosed (fun j hj he => ⟨hempty j hj he, ?_⟩) mem_cons_self path
  · rwa [hτi] at hpath
  · rcases mem_cons.mp hj with rfl | hj
    · rw [h.2.1] at he
      cases he
    · exact hall j hj he

theorem cleaned_plant (hd : d.Linked) (hts : PageNode.Plain ts)
    (h : plant (.node { kind := .fragment } ts) d = (f, e)) :
    KeepsPaths (f, e) (f, cleanBelow (e.ids f) e) := by
  obtain ⟨hroot, hcopied⟩ := plant_copied (.node { kind := .fragment } ts) d hd hts.all
  have hh := plant_holds (.node { kind := .fragment } ts) d hd hts.all
  rw [← hroot] at hh
  rw [h] at hcopied hh
  exact Holds.cleaned hcopied.linked hts (Holds.agrees (fun j hj => ⟨hj.2, rfl, rfl⟩) _ _ hh)

/-- Label cleaning keeps every address, however markup is read. In a document that has only been used
through the nodes known of it, a path leads into the cleaned fragment of a text exactly if it leads
into the plain one, and to the same content, but an empty text for each empty comment. The same is
true of any trees that markup may stand for. -/
theorem cleaning_keeps_paths :
    (∀ (page : PageReader) (d : Document ρ) (known : List NodeId), Used page d known → ∀ html,
      KeepsPaths (d.fragment page html false) (d.cleanFragment page html)) ∧
    ∀ (d : Document ρ) (ts : List (Rose Content)), d.Linked → PageNode.Plain ts →
      ∀ f e, plant (.node { kind := .fragment } ts) d = (f, e) →
        KeepsPaths (f, e) (f, cleanBelow (e.ids f) e) := by
  refine ⟨fun page d known h html => ?_, fun d ts hd hts f e => cleaned_plant hd hts⟩
  obtain ⟨mine, hsealed, -⟩ := h.sealed
  obtain ⟨k, heq, hlinked, -⟩ :=
    fragment_eq hsealed.linked hsealed.faithful hsealed.known html false
  exact cleaned_plant hlinked page.plain_trees heq.symm

/-- Two labels after a text. -/
def labels : NodeId × Document Unit := cleanFragment {} Fragment.read "a<!----><!---->"

theorem cleaning_keeps_paths_labels : Used Fragment.read ({} : Document Unit) [] ∧ ∀ k ∈ [1, 2],
    ((descend? labels.2 [k] labels.1).map labels.2.content).map Content.kind = some (.text "") := by
  refine ⟨.start, fun k hk => ?_⟩
  rw [labels, cleaning_keeps_paths.1 Fragment.read {} [] .start _ [k]]
  revert k
  decide +kernel

end Document

end ReactiveMarkup.Reactive
