import ReactiveMarkup.Markup.Walk
import ReactiveMarkup.Style.Match

/-! # Outlines and elements

The outline of a component lists its elements in document order, and it depends on their names and
attributes only.
-/

namespace ReactiveMarkup

namespace Markup

def Visit.element? : Visit → Option Element
  | .element e => some e
  | _ => none

def Node.elements (n : Node) : List Element := (n.visits fun _ => false).filterMap Visit.element?

def elementsOf (ns : List Node) : List Element :=
  (visitsOf (fun _ => false) ns).filterMap Visit.element?

section Equations

variable (e : Element) (body alt main tb cb : List Node) (h : String) (th ch : Option String)
  (hasElse : Bool) (s : Text.Span)

@[simp] theorem elementsOf_nil : elementsOf [] = [] := rfl

@[simp] theorem elementsOf_cons : elementsOf (n :: ns) = n.elements ++ elementsOf ns := by
  simp [elementsOf, Node.elements, visitsOf]

@[simp] theorem elements_element : (Node.element e body s).elements = e :: elementsOf body := rfl

@[simp] theorem elements_each : (Node.each h body s).elements = elementsOf body := rfl

@[simp] theorem elements_slot : (Node.slot h body s).elements = elementsOf body := rfl

@[simp] theorem elements_fragment : (Node.fragment h body s).elements = elementsOf body := rfl

@[simp] theorem elements_cond :
    (Node.cond h body hasElse alt s).elements = elementsOf body ++ elementsOf alt :=
  List.filterMap_append

@[simp] theorem elements_await : (Node.await h main th tb ch cb s).elements =
    elementsOf main ++ elementsOf tb ++ elementsOf cb := by
  change (visitsOf _ main ++ visitsOf _ tb ++ visitsOf _ cb).filterMap Visit.element? = _
  rw [List.filterMap_append, List.filterMap_append]
  rfl

end Equations

mutual

theorem elements_mapElements (f : Element → Element) :
    ∀ n : Node, (n.mapElements f).elements = n.elements.map f
  | .element e body s | .each h body s | .slot h body s | .fragment h body s => by
    simp [Node.mapElements, elementsOf_mapElements body]
  | .cond h body hasElse alt s => by
    simp [Node.mapElements, elementsOf_mapElements body, elementsOf_mapElements alt]
  | .await h main th tb ch cb s => by
    simp [Node.mapElements, elementsOf_mapElements main, elementsOf_mapElements tb,
      elementsOf_mapElements cb]
  | .text v s => rfl
  | .comment c s => rfl
  | .raw b => rfl
  | .sysTag h s => rfl

theorem elementsOf_mapElements :
    ∀ ns : List Node, elementsOf (mapAllElements f ns) = (elementsOf ns).map f
  | [] => rfl
  | n :: ns => by
    simp [mapAllElements, elements_mapElements f n, elementsOf_mapElements ns]

end

theorem Root.elements_mapElements {root : Root} :
    (root.mapElements f).elements = root.elements.map f := by
  exact elementsOf_mapElements root.body

end Markup

namespace Style

open Markup

namespace Outline

theorem describe_eq : describe anc earlier e =
    { describe [] [] e with source := e.id, ancestors := anc, earlier } := by
  have hfold : ∀ (as : List Markup.Attribute) (x : StaticElement),
      as.foldl addAttribute { x with source := e.id, ancestors := anc, earlier } =
        { as.foldl addAttribute x with source := e.id, ancestors := anc, earlier } := by
    intro as
    induction as with
    | nil => exact fun _ => rfl
    | cons a as ih =>
      intro x
      have hstep : addAttribute { x with source := e.id, ancestors := anc, earlier } a =
          { addAttribute x a with source := e.id, ancestors := anc, earlier } := by
        unfold addAttribute
        split
        · rfl
        · split
          · rfl
          · split <;> rfl
      rw [List.foldl_cons, List.foldl_cons, hstep, ih]
  exact hfold e.attributes
    { source := e.id, name := e.name, id := none, classes := [], attributes := [], ancestors := []
      earlier := [] }

theorem parent_describe : (describe anc earlier e).parent = anc.head? := by
  rw [describe_eq]
  rfl

theorem source_describe : (describe anc earlier e).source = e.id := by
  rw [describe_eq]

@[simp] theorem elements_push {o : Outline} : (o.push x).elements = o.elements ++ [x] := by
  unfold push
  cases x.parent <;> rfl

mutual

theorem sources_plant : ∀ (n : Node) (anc : List Nat) (o : Outline),
    (plant anc o n).elements.map (·.source) =
      o.elements.map (·.source) ++ n.elements.map (·.id)
  | .element e body s, anc, o => by
    rw [plant, sources_plantAll body]
    simp [source_describe]
  | .each h body s, anc, o => by rw [plant, sources_plantAll body, elements_each]
  | .slot h body s, anc, o => by rw [plant, sources_plantAll body, elements_slot]
  | .fragment h body s, anc, o => by rw [plant, sources_plantAll body, elements_fragment]
  | .cond h body hasElse alt s, anc, o => by
    rw [plant, sources_plantAll alt, sources_plantAll body]
    simp
  | .await h main th tb ch cb s, anc, o => by
    rw [plant, sources_plantAll cb, sources_plantAll tb, sources_plantAll main]
    simp
  | .text v s, _, o | .comment c s, _, o | .raw b, _, o | .sysTag h s, _, o =>
    (List.append_nil _).symm

theorem sources_plantAll : ∀ (ns : List Node) (anc : List Nat) (o : Outline),
    (plantAll anc o ns).elements.map (·.source) =
      o.elements.map (·.source) ++ (elementsOf ns).map (·.id)
  | [], _, o => (List.append_nil _).symm
  | n :: ns, anc, o => by
    rw [plantAll, sources_plantAll ns, sources_plant n]
    simp

end

theorem sources_ofRoot (root : Root) :
    (ofRoot root).elements.map (·.source) = root.elements.map (·.id) := by
  exact sources_plantAll root.body [] {}

/-! ## Lists of children -/

def positions (o : Outline) (p : StaticElement → Bool) : List Nat :=
  (o.elements.zipIdx.filter fun e => p e.1).map (·.2)

/-- The children that are listed for an element, or as roots, are those that name it as parent, or
none, in their order. -/
structure Linked (o : Outline) : Prop where
  length : o.below.length = o.elements.length
  children : ∀ up, o.children up = o.positions fun e => e.parent == up

theorem positions_push {o : Outline} :
    (o.push x).positions p = o.positions p ++ if p x then [o.elements.length] else [] := by
  rw [positions, elements_push, List.zipIdx_append, List.filter_append, List.map_append, positions]
  cases hp : p x <;> simp [hp]

theorem linked_empty : ({} : Outline).Linked := by
  refine ⟨rfl, fun up => ?_⟩
  cases up <;> simp [children, positions]

theorem Linked.push {o : Outline} (h : o.Linked)
    (hx : ∀ p, x.parent = some p → p < o.elements.length) : (o.push x).Linked := by
  have hlength := h.length
  have hnew : ∀ (rows : List (List Nat)) (q : Nat),
      (rows ++ [[]])[q]?.getD [] = rows[q]?.getD [] := by
    grind
  refine ⟨?_, fun up => ?_⟩
  · unfold Outline.push
    cases x.parent <;> simp [hlength]
  · rw [positions_push, ← h.children]
    unfold Outline.push Outline.children
    cases hp : x.parent with
    | none => cases up <;> simp [hnew]
    | some p =>
      cases up with
      | none => simp
      | some q =>
        have hlt := hx p hp
        simp only [hnew, List.getElem?_modify]
        grind

/-! ## Changes that leave the outline as it is -/

structure Unseen (f : Element → Element) : Prop where
  id : ∀ e, (f e).id = e.id
  name : ∀ e, (f e).name = e.name
  attributes : ∀ e, (f e).attributes = e.attributes

variable {f : Element → Element}

mutual

theorem plant_mapElements (hf : Unseen f) : ∀ (n : Node) (anc : List Nat) (o : Outline),
    plant anc o (n.mapElements f) = plant anc o n
  | .element e body s, anc, o => by
    rw [Node.mapElements, plant, plant, plantAll_mapElements hf body, describe, describe, hf.id,
      hf.name, hf.attributes]
  | .each h body s, anc, o | .slot h body s, anc, o
  | .fragment h body s, anc, o => by
    rw [Node.mapElements, plant, plant, plantAll_mapElements hf body]
  | .cond h body hasElse alt s, anc, o => by
    rw [Node.mapElements, plant, plant, plantAll_mapElements hf body, plantAll_mapElements hf alt]
  | .await h main th tb ch cb s, anc, o => by
    rw [Node.mapElements, plant, plant, plantAll_mapElements hf main, plantAll_mapElements hf tb,
      plantAll_mapElements hf cb]
  | .text v s, _, _ => rfl
  | .comment c s, _, _ => rfl
  | .raw b, _, _ => rfl
  | .sysTag h s, _, _ => rfl

theorem plantAll_mapElements (hf : Unseen f) :
    ∀ (ns : List Node) (anc : List Nat) (o : Outline),
      plantAll anc o (mapAllElements f ns) = plantAll anc o ns
  | [], _, _ => rfl
  | n :: ns, anc, o => by
    rw [mapAllElements, plantAll, plantAll, plant_mapElements hf n, plantAll_mapElements hf ns]

end

theorem ofRoot_mapElements (hf : Unseen f) (root : Root) :
    ofRoot (root.mapElements f) = ofRoot root :=
  plantAll_mapElements hf root.body [] {}

end Outline

end Style

end ReactiveMarkup
