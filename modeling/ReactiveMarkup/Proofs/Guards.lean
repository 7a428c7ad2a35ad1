import ReactiveMarkup.Proofs.Addresses
import ReactiveMarkup.Proofs.Copies
import ReactiveMarkup.Proofs.Ranges

/-! # Guarded blocks

The template of a guarded block does not end in a label.
-/

namespace ReactiveMarkup.Template

open List

open Markup (Element Node)
open Reactive (Content Document NodeId NodeKind ends)

def Static.isLabel : Static → Bool
  | .label _ => true
  | _ => false

/-! ## The last node of a template -/

section Templates

variable {c : Scene} {s : Setting} {path : List Nat} {onlyChild : Bool}

theorem NodeBound.labelAfter_eq (h : NodeBound c s path n st)
    (ho : onlyChild = false ∨ isEach n = false) (hl : st.isLabel = true) :
    labelAfter onlyChild last (.part (plan generateNode n)) = true := by
  cases h with
  | label hlabels => cases hlabels <;> simp_all [labelAfter, isEach]
  | _ => cases hl

theorem elim_getLast?_cons :
    (st :: ss).getLast?.elim last Static.isLabel = ss.getLast?.elim st.isLabel Static.isLabel := by
  rw [getLast?_cons]
  cases ss.getLast? <;> rfl

theorem ItemsBound.label (h : ItemsBound c s path onlyChild index items ss)
    (hl : ss.getLast?.elim last Static.isLabel = true) :
    items.foldl (labelAfter onlyChild) last = true := by
  induction items generalizing index ss last with
  | nil =>
    cases h
    exact hl
  | cons item items ih =>
    cases h with
    | text _ hmore | hole _ _ _ _ _ hmore =>
      rw [elim_getLast?_cons] at hl
      exact ih hmore hl
    | node n more heach hnode hmore =>
      rw [elim_getLast?_cons] at hl
      refine ih hmore ?_
      cases hlast : more.getLast? with
      | none => exact hnode.labelAfter_eq heach (by simpa [hlast] using hl)
      | some t => simpa [hlast] using hl
    | fill => simpa [labelAfter] using hl

end Templates

/-! ## Ranges of mounted blocks -/

/-- The nodes of a template stand in a row, each label with the nodes that its block shows after
it. -/
structure Filled {ρ : Type} (d : Document ρ) (parent : NodeId) (front back : List NodeId)
    (rows : List (Static × NodeId)) (own : NodeId → List NodeId) : Prop where
  linked : d.Linked
  known : parent < d.nodes.size
  siblings : d.children parent = front ++ rows.flatMap (fun r => r.2 :: own r.2) ++ back
  bare : ∀ r ∈ rows, r.1.isLabel = false → own r.2 = []

namespace Filled

variable {ρ : Type} {d : Document ρ} {parent first last f : NodeId}
  {front back : List NodeId} {rows : List (Static × NodeId)} {own : NodeId → List NodeId}
  {r : Static × NodeId}

theorem range (h : Filled d parent front back rows own)
    (hlast : ∀ r ∈ rows.getLast?, r.1.isLabel = false)
    (hends : ends (rows.map Prod.snd) = some (first, last)) :
    d.range first last = rows.flatMap fun r => r.2 :: own r.2 := by
  refine Document.range_eq h.linked h.siblings ?_
  rw [← hends]
  rcases eq_nil_or_concat rows with rfl | ⟨init, r, rfl⟩
  · rfl
  · have hbare : own r.2 = [] := h.bare r (by simp) (hlast r (by simp))
    cases init <;> simp [ends, hbare, getLast?_cons]

theorem insert (h : Filled d parent front back rows own) (hr : r ∈ rows)
    (hlabel : r.1.isLabel = true) (hf : f < d.nodes.size) (hk : d.kind f = .fragment)
    (hne : f ≠ parent) :
    Filled (d.insertBefore parent f (d.nextSibling? r.2)) parent front back rows
      (Function.update own r.2 (d.children f ++ own r.2)) := by
  obtain ⟨xs, ys, rfl⟩ := append_of_mem hr
  have hc : d.children parent = front ++ (xs.flatMap (fun r => r.2 :: own r.2)) ++
      r.2 :: (own r.2 ++ ys.flatMap (fun r => r.2 :: own r.2) ++ back) := by
    rw [h.siblings]
    simp
  -- the label is the node of no other row
  have hother : ∀ q ∈ xs ++ ys, q.2 ≠ r.2 := by
    have hnodup := h.linked.nodup parent
    rw [hc, nodup_middle] at hnodup
    intro q hq heq
    refine (nodup_cons.mp hnodup).1 (heq ▸ ?_)
    simp only [mem_append, mem_flatMap, mem_cons]
    rcases mem_append.mp hq with hq | hq
    · exact .inl (.inr ⟨q, hq, .inl rfl⟩)
    · exact .inr (.inl (.inr ⟨q, hq, .inl rfl⟩))
  have hkept : ∀ qs : List (Static × NodeId), (∀ q ∈ qs, q ∈ xs ++ ys) →
      (qs.flatMap fun q => q.2 :: Function.update own r.2 (d.children f ++ own r.2) q.2) =
        qs.flatMap fun q => q.2 :: own q.2 := fun qs hqs =>
    flatMap_congr fun q hq => by rw [Function.update_of_ne (hother q (hqs q hq))]
  have hc' : d.children parent = front ++ xs.flatMap (fun r => r.2 :: own r.2) ++ [r.2] ++
      (own r.2 ++ ys.flatMap (fun r => r.2 :: own r.2) ++ back) := by
    simp [hc]
  obtain ⟨hgathered, hchildren⟩ :=
    Document.insertFragment_between h.linked h.known hf hk hne.symm hc'
  rw [Document.nextSibling?_eq h.linked hc]
  refine ⟨hgathered.linked, by simpa using h.known, ?_, fun q hq hplain => ?_⟩
  · rw [hchildren, flatMap_append, flatMap_cons, hkept xs (by simp_all),
      hkept ys (by simp_all), Function.update_self]
    simp
  · have hin : q ∈ xs ++ ys := by
      have hqr : q ≠ r := fun heq => by simp [heq, hlabel] at hplain
      simpa [hqr] using hq
    rw [Function.update_of_ne (hother q hin)]
    exact h.bare q hq hplain

end Filled

/-- A guarded block ends in a node that is no label. So the range of a mounted copy holds all that
the blocks in it show after their labels, also when another fragment is put after one. -/
theorem guarded_block_ends_in_stable_node {s : Setting} {body : List Node} {holder : Holder}
    {o : BlockOptions} {w w' : Work} {b : Block} (hguarded : o.guarded = true)
    (hr : Runs s (generate body holder o) w b w') :
    (∀ st ∈ b.template.getLast?, st.isLabel = false) ∧
    (areFilled body = true → areSeparate b.template = true) ∧
    ∀ {ρ : Type} {d : Document ρ} {parent first last : NodeId} {front back : List NodeId}
      {rows : List (Static × NodeId)} {own : NodeId → List NodeId},
      Filled d parent front back rows own → rows.map Prod.fst = b.template →
      ends (rows.map Prod.snd) = some (first, last) →
      (d.range first last = rows.flatMap fun r => r.2 :: own r.2) ∧
      ∀ r ∈ rows, r.1.isLabel = true → ∀ f < d.nodes.size, d.kind f = .fragment → f ≠ parent →
        Filled (d.insertBefore parent f (d.nextSibling? r.2)) parent front back rows
          (Function.update own r.2 (d.children f ++ own r.2)) ∧
        ∀ n ∈ d.children f, n ∈ (d.insertBefore parent f (d.nextSibling? r.2)).range first last := by
  obtain ⟨lookups, c, ss, -, htemplate, hall⟩ := generate_bound hr
  rw [hguarded, Bool.and_true] at htemplate
  have hstable : ∀ st ∈ b.template.getLast?, st.isLabel = false := by
    intro st hst
    split at htemplate
    · obtain rfl : .guard = st := by simpa [htemplate] using hst
      rfl
    · next hends =>
      by_contra hlabel
      rw [htemplate] at hst
      exact hends (hall.label (by simpa [Option.mem_def.mp hst] using hlabel))
  refine ⟨hstable, fun hfilled => ?_, fun hd hrows hends => ?_⟩
  · have hsep := (hall.separate (spaced_shownItems hfilled)).1
    rw [htemplate]
    split
    · exact areSeparate_guard hsep
    · exact hsep
  · rename_i d parent first last front back rows own
    have hlast : ∀ r ∈ rows.getLast?, r.1.isLabel = false := fun r hr => by
      refine hstable r.1 ?_
      rw [← hrows, List.getLast?_map, Option.mem_def.mp hr]
      rfl
    refine ⟨hd.range hlast hends, fun r hr hlabel f hf hk hne => ?_⟩
    have hfilled := hd.insert hr hlabel hf hk hne
    refine ⟨hfilled, fun n hn => ?_⟩
    rw [hfilled.range hlast hends, List.mem_flatMap]
    exact ⟨r, hr, by simp [hn]⟩

/-- A mounted copy of a text with a block after it, and what the block is to show. -/
def mountedCopy : Document Unit :=
  let leaf (kind : NodeKind) : Reactive.Rose Content := .node { kind } []
  let row := [leaf (.text "a"), leaf (.comment " #if open "), leaf (.comment "")]
  (Document.plant (.node { kind := .fragment } [leaf (.text "b")])
    (Document.plant (.node { kind := .element "p" false } row) {}).2).2

theorem guarded_block_ends_in_stable_node_cond : ∃ b w',
    Runs sampleSetting (generate [.text "a" ⟨0, 1⟩, .cond "#if open" [] false [] ⟨1, 15⟩] .other
      guarded) {} b w' ∧ b.text = "a<!-- #if open --><!---->" ∧ areSeparate b.template = true ∧
    (∀ st ∈ b.template.getLast?, st.isLabel = false) ∧
    ∃ rows, rows.map Prod.fst = b.template ∧
      Filled mountedCopy 0 [] [] rows (fun _ => []) ∧ mountedCopy.range 1 3 = [1, 2, 3] ∧
      Filled (mountedCopy.insertBefore 0 4 (some 3)) 0 [] [] rows
        (Function.update (fun _ => []) 2 [5]) ∧
      5 ∈ (mountedCopy.insertBefore 0 4 (some 3)).range 1 3 := by
  have hstart : ((generate [.text "a" ⟨0, 1⟩, .cond "#if open" [] false [] ⟨1, 15⟩] .other
      guarded).start sampleSetting).1.toOption.map Block.template =
      some [.text "a", .label "<!-- #if open -->", .guard] := by rfl
  obtain ⟨b, w', hr, htemplate⟩ := runs_of_start hstart
  obtain ⟨hstable, hseparate, hmounted⟩ := guarded_block_ends_in_stable_node rfl hr
  have hlinked : mountedCopy.Linked := by
    refine (Document.plant_copied _ _ (Document.plant_copied _ _ Document.linked_empty ?_).2.linked
      ?_).2.linked
    · decide
    · decide
  let rows : List (Static × NodeId) :=
    [(.text "a", 1), (.label "<!-- #if open -->", 2), (.guard, 3)]
  have hfilled : Filled mountedCopy 0 [] [] rows fun _ => [] :=
    ⟨hlinked, by decide, by decide, fun _ _ _ => rfl⟩
  obtain ⟨hrange, hinsert⟩ := hmounted hfilled htemplate.symm rfl
  obtain ⟨hfilled', hshown⟩ := hinsert (.label "<!-- #if open -->", 2) (by simp [rows]) rfl 4
    (by decide) (by decide) (by decide)
  have hnext : mountedCopy.nextSibling? 2 = some 3 := by decide
  have hbody : mountedCopy.children 4 = [5] := by decide
  rw [hnext, hbody] at hfilled' hshown
  refine ⟨b, w', hr, ?_, hseparate (by decide), hstable, rows, htemplate.symm, hfilled, hrange,
    hfilled', hshown 5 (by simp)⟩
  rw [Block.text, htemplate]
  decide

end ReactiveMarkup.Template
