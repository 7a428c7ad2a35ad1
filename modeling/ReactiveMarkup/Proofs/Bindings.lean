import ReactiveMarkup.Proofs.NestedBlocks

/-! # Bindings of a block

When a block runs, its variables hold nodes of its template, and its statements use the variables.
`NodeBound` and `ItemsBound` say which statements there are for a node of the markup and which node
of the template they are about.
-/

namespace ReactiveMarkup.Template

open Markup (Attribute Element Node)

variable {α : Type}

def nodeAt? (forest : List Static) (path : List Nat) : Option Static :=
  match path.getLast? with
  | some i => (childrenAt forest path.dropLast).bind (·[i]?)
  | none => none

theorem nodeAt?_concat (h : childrenAt forest path = some all) :
    nodeAt? forest (path ++ [i]) = all[i]? := by
  simp [nodeAt?, h]

theorem childrenAt_of_nodeAt? (h : nodeAt? forest path = some st) :
    childrenAt forest path = some st.children := by
  unfold nodeAt? at h
  cases hlast : path.getLast? with
  | none => simp [hlast] at h
  | some i =>
    rw [hlast] at h
    obtain ⟨all, hall, hi⟩ := Option.bind_eq_some_iff.mp h
    have hpath : path = path.dropLast ++ [i] := by
      obtain ⟨rest, rfl⟩ := List.getLast?_eq_some_iff.mp hlast
      simp
    rw [hpath, childrenAt_append, hall]
    simp [childrenAt, hi]

/-! ## Statements about nodes -/

def Yields (s : Setting) (g : Gen α) (a : α) : Prop := ∃ v v', Runs s g v a v'

/-- What a block consists of when it runs: the forest of its template, the nodes that its variables
hold, and its statements. -/
structure Scene where
  forest : List Static
  locals : Locals
  binds : List String

def Scene.Holds (c : Scene) (path : List Nat) (el : String) : Prop := c.locals.lookup el = some path

/-- The block has a statement that the code makes of a variable of the node at a path. -/
def Scene.States (c : Scene) (s : Setting) (path : List Nat) (code : String → Gen String) : Prop :=
  ∃ el text, c.Holds path el ∧ Yields s (code el) text ∧ text ∈ c.binds

/-- The constructs that are marked by a comment: the text of the comment, and the code that is made
of a variable of the comment. -/
inductive Labels : Node → String → (String → Gen String) → Prop where
  | component : e.isComponent = true →
      Labels (.element e body span) e.name (componentCode e (planAll generateNode body))
  | slot : e.isComponent = false → e.name = "slot" →
      Labels (.element e body span) ("Slot " ++ e.arg.getD "default") fun el =>
        slotCode (e.arg.getD "default") el e (planAll generateNode body)
  | fragment : e.isComponent = false → e.name = "fragment" →
      Labels (.element e body span) ("Fragment " ++ e.name) (fragmentUse e)
  | each : Labels (.each header body span) header fun el =>
      eachCode header (planAll generateNode body) el false
  | cond : Labels (.cond header body hasElse alt span) header
      (conditionCode header (planAll generateNode body)
        (if hasElse then some (planAll generateNode alt) else none))
  | await : Labels (.await header main thenHeader thenBody catchHeader catchBody span) header
      (awaitCode header (planAll generateNode main)
        (thenHeader.map fun t => (t, planAll generateNode thenBody))
        (catchHeader.map fun t => (t, planAll generateNode catchBody)))
  | html : htmlOf? header = some exp →
      Labels (.sysTag header span) "html" fun el => return htmlCode exp el

def isEach : Node → Bool
  | .each .. => true
  | _ => false

/-- Elements that stand in the template themselves. -/
def IsPlain (e : Element) : Prop := e.isComponent = false ∧ e.name ≠ "slot" ∧ e.name ≠ "fragment"

section

variable (c : Scene) (s : Setting)

/-- What an attribute of the element at a path leaves. Its statement, if it has one, is the code for
a variable of that element, or one that mentions no element. -/
def AttributeBound (path : List Nat) (e : Element) (w : ElementWork) (a : Attribute) (bound : Bound)
    (w' : ElementWork) : Prop :=
  match bound.code with
  | none => ∃ el, Yields s (attributeCode (pure el) e w a) (bound, w')
  | some code => code ∈ c.binds ∧
    ((∃ el, c.Holds path el ∧ Yields s (attributeCode (pure el) e w a) (bound, w')) ∨
      ∀ el, Yields s (attributeCode (pure el) e w a) (bound, w'))

inductive AttributesBound (path : List Nat) (e : Element) :
    List Attribute → ElementWork → List String → ElementWork → Prop where
  | nil : AttributesBound path e [] w [] w
  | cons : AttributeBound c s path e w a bound w₁ → AttributesBound path e rest w₁ more w' →
      AttributesBound path e (a :: rest) w (bound.tag.toList ++ more) w'

/-- The object for the attributes of an element with a spread is made for that element. -/
def SpreadBound (path : List Nat) (e : Element) (w w' : ElementWork) : Prop :=
  if hasSpread e then
    ∃ spread el, c.Holds path el ∧ spreadObjectCode spread el (spreadScope s.scope w).2 ∈ c.binds ∧
      w' = { (spreadScope s.scope w).1 with spread := some spread }
  else w' = w

mutual

/-- What a node leaves at a path: it is `st`, and the statements of the node are about it. -/
inductive NodeBound : List Nat → Node → Static → Prop where
  | raw : NodeBound path (.raw b) (.verbatim (b.openTag ++ b.content ++ "</template>"))
  | comment : NodeBound path (.comment text span) (.verbatim text)
  | label : Labels n text code → Yields s (labelText text) label →
      nodeAt? c.forest path = some (.label label) → c.States s path code →
      NodeBound path n (.label label)
  | closed : IsPlain e → e.closed = true →
      SpreadBound c s path e { classes := e.classes } w₀ →
      AttributesBound c s path e e.attributes w₀ attributes w →
      tag = tagText e attributes w ++ (if e.void then "/>" else "></" ++ e.name ++ ">") →
      nodeAt? c.forest path = some (.element tag "" []) →
      NodeBound path (.element e body span) (.element tag "" [])
  | opened : IsPlain e → e.closed = false →
      SpreadBound c s path e { classes := e.classes } w₀ →
      AttributesBound c s path e e.attributes w₀ attributes w →
      tag = tagText e attributes w ++ ">" →
      nodeAt? c.forest path = some (.element tag ("</" ++ e.name ++ ">") below) →
      ItemsBound path (body.length == 1) 0 (shownItems s (planAll generateNode body)) below →
      NodeBound path (.element e body span) (.element tag ("</" ++ e.name ++ ">") below)

/-- What the items of a body leave below the node at a path, from an index on. -/
inductive ItemsBound : List Nat → Bool → Nat → List Item → List Static → Prop where
  | nil : ItemsBound path onlyChild index [] []
  | text : hasBrace value = false → ItemsBound path onlyChild (index + 1) rest more →
      ItemsBound path onlyChild index (.text value :: rest) (.text value :: more)
  | hole : hasBrace value = true → Yields s (interpolate value) exp →
      nodeAt? c.forest (path ++ [index]) = some .hole → c.Holds (path ++ [index]) el →
      textCode el exp ∈ c.binds → ItemsBound path onlyChild (index + 1) rest more →
      ItemsBound path onlyChild index (.text value :: rest) (.hole :: more)
  | node (n : Node) (more : List Static) : onlyChild = false ∨ isEach n = false →
      NodeBound (path ++ [index]) n st → ItemsBound path onlyChild (index + 1) rest more →
      ItemsBound path onlyChild index (.part (plan generateNode n) :: rest) (st :: more)
  | fill (header : String) (body : List Node) (span : Text.Span) :
      c.States s path (fun el => eachCode header (planAll generateNode body) el true) →
      ItemsBound path true index [.part (plan generateNode (.each header body span))] []

end

end

/-! ## Work and scenes -/

/-- The scene has the statements of a work, and the variables that they use hold their nodes. -/
structure Covers (w : Work) (c : Scene) : Prop where
  binds : ∀ t ∈ w.binds, t ∈ c.binds
  locals : ∀ t ∈ w.binds, ∀ p el, w.addresses.nameAt? p = some el → c.Holds p el

theorem Covers.of_advances (hc : Covers w' c) (h : Advances P w w') : Covers w c where
  binds t ht := hc.binds t (h.binds.subset ht)
  locals t ht p el hel := hc.locals t (h.binds.subset ht) p el (h.keeps p el hel)

/-- Paths of the node `st` and of what is below it, if it stands at `path`. -/
def Below (path : List Nat) (st : Static) (q : List Nat) : Prop :=
  ∃ r, q = path ++ r ∧ Reaches st.children r

theorem below_self (h : q = path) : Below path st q := ⟨[], by simp [h], rfl⟩

/-- What generating a node at a place leaves there and in the work. -/
inductive Leaves (s : Setting) (n : Node) (place : Place) (w w' : Work) : List Static → Prop where
  | node (st : Static) : place.onlyChild = false ∨ isEach n = false →
      Advances (Below place.path st) w w' →
      (∀ c, Covers w' c → nodeAt? c.forest place.path = some st →
        NodeBound c s place.path n st) →
      Leaves s n place w w' [st]
  | fill (header : String) (body : List Node) (span : Text.Span) : n = .each header body span →
      place.onlyChild = true → Advances (· = place.path.dropLast) w w' →
      (∀ c, Covers w' c → c.States s place.path.dropLast fun el =>
        eachCode header (planAll generateNode body) el true) →
      Leaves s n place w w' []
  | nothing : (n.isText || isHidden true n) = true → Advances (fun _ => False) w w' →
      Leaves s n place w w' []

section Runs

variable {s : Setting} {w w' : Work}

theorem states_of_runs (hk : ∀ el, Keeps (code el)) (hel : Runs s (nameAt path) w el u)
    (hcode : Runs s (code el) u text u') (hemit : Runs s (emit text) u' () w') :
    Advances (· = path) w w' ∧ ∀ c, Covers w' c → c.States s path code := by
  obtain ⟨hname, hheld⟩ := advances_nameAt hel
  have hkept := hk el s u text u' hcode
  obtain rfl := runs_emit.mp hemit
  refine ⟨(hname.trans (hkept.advances _)).trans advances_emit, ?_⟩
  intro c hc
  have htext : text ∈ u'.binds ++ [text] := by simp
  refine ⟨el, text, hc.locals text htext path el ?_, ⟨u, u', hcode⟩, hc.binds text htext⟩
  exact (hkept.advances (· = path)).keeps path el hheld

theorem labelled_leaves (hl : Labels n text code) (hk : ∀ el, Keeps (code el))
    (ho : place.onlyChild = false ∨ isEach n = false)
    (hr : Runs s (labelled text place.path code) w ss w') : Leaves s n place w w' ss := by
  unfold labelled at hr
  simp only [runs_bind, runs_pure] at hr
  obtain ⟨label, u, hlabel, el, u₁, hel, stmt, u₂, hcode, _, u₃, hemit, rfl, rfl⟩ := hr
  have hkept := steady_labelText.keeps s w label u hlabel
  obtain ⟨hadv, hstates⟩ := states_of_runs hk hel hcode hemit
  refine .node (.label label) ho ?_ ?_
  · exact ((hkept.advances _).trans hadv).mono fun q hq => below_self hq
  · intro c hc hnode
    exact .label hl ⟨w, u, hlabel⟩ hnode (hstates c hc)

theorem openSpread_bound (hr : Runs s (openSpread path e x) w y w') :
    Advances (· = path) w w' ∧ ∀ c, Covers w' c → SpreadBound c s path e x y := by
  unfold openSpread at hr
  unfold SpreadBound
  split at hr
  · next hspread =>
    simp only [runs_bind, runs_read, runs_pure] at hr
    obtain ⟨spread, u, hfresh, s, _, ⟨rfl, rfl⟩, el, u₁, hel, _, u₂, hemit, rfl, rfl⟩ := hr
    have hkept := Keeps.fresh _ w spread _ hfresh
    obtain ⟨hname, hheld⟩ := advances_nameAt hel
    obtain rfl := runs_emit.mp hemit
    refine ⟨((hkept.advances _).trans hname).trans advances_emit, ?_⟩
    intro c hc
    rw [if_pos hspread]
    have hstmt := List.mem_append_right u₁.binds (List.mem_singleton_self
      (spreadObjectCode spread el (spreadScope s.scope x).2))
    exact ⟨spread, el, hc.locals _ hstmt path el hheld, hc.binds _ hstmt, rfl⟩
  · next hspread =>
    obtain ⟨rfl, rfl⟩ := runs_pure.mp hr
    refine ⟨.refl, ?_⟩
    intro c _
    rw [if_neg hspread]

theorem attributeCode_bound (hcode : Runs s (attributeCode (nameAt path) e x a) w (bound, y) u)
    (hemit : Runs s (bound.code.forM emit) u () w') :
    Advances (· = path) w w' ∧ ∀ c, Covers w' c → AttributeBound c s path e x a bound y := by
  obtain ⟨hadv, hgiven⟩ := answered_attributeCode s w (bound, y) u hcode
  have hyields : ∀ el, (∀ n, u.addresses.nameAt? path = some n → n = el) →
      Yields s (attributeCode (pure el) e x a) (bound, y) := by
    intro el hel
    obtain ⟨m, hm⟩ := hgiven el hel
    obtain ⟨v', hv⟩ := hm { names := m } rfl
    exact ⟨_, v', hv⟩
  unfold AttributeBound
  cases hb : bound.code with
  | none =>
    rw [hb] at hemit
    obtain ⟨-, rfl⟩ := runs_pure.mp hemit
    refine ⟨hadv, fun c _ => ?_⟩
    exact ⟨(w'.addresses.nameAt? path).getD "", hyields _ fun n hn => by rw [hn]; rfl⟩
  | some code =>
    rw [hb] at hemit
    obtain rfl := runs_emit.mp hemit
    refine ⟨hadv.trans advances_emit, fun c hc => ?_⟩
    have hstmt : code ∈ u.binds ++ [code] := by simp
    refine ⟨hc.binds code hstmt, ?_⟩
    cases hname : u.addresses.nameAt? path with
    | none => exact .inr fun el => hyields el fun n hn => absurd (hname.symm.trans hn) (by simp)
    | some el =>
      refine .inl ⟨el, hc.locals code hstmt path el hname, hyields el fun n hn => ?_⟩
      exact Option.mem_unique hn hname

theorem generateAttributes_bound (hr : Runs s (generateAttributes path e as x) w (kept, y) w') :
    Advances (· = path) w w' ∧ ∀ c, Covers w' c → AttributesBound c s path e as x kept y := by
  induction as generalizing x y kept w with
  | nil =>
    obtain ⟨hxy, rfl⟩ := runs_pure.mp hr
    cases hxy
    exact ⟨.refl, fun c _ => .nil⟩
  | cons a as ih =>
    obtain ⟨⟨bound, x₁⟩, u, hcode, hr⟩ := runs_bind.mp hr
    obtain ⟨_, v, hemit, hr⟩ := runs_bind.mp hr
    obtain ⟨⟨more, y₁⟩, v', hrest, hr⟩ := runs_bind.mp hr
    obtain ⟨hend, rfl⟩ := runs_pure.mp hr
    cases hend
    obtain ⟨hadv, hbound⟩ := attributeCode_bound hcode hemit
    obtain ⟨hadv', hbounds⟩ := ih hrest
    refine ⟨hadv.trans hadv', fun c hc => ?_⟩
    exact .cons (hbound c (hc.of_advances hadv')) (hbounds c hc)

end Runs

end ReactiveMarkup.Template
