import ReactiveMarkup.Proofs.Attributes

/-! # Blocks within blocks

A block that is built while another is in hand leaves that one alone. So does the code of every
construct that holds blocks.
-/

namespace ReactiveMarkup.Template

open List

open Markup (Attribute Element Node)

variable {α β : Type}

/-! ## Names are only added -/

def Grows (g : Gen α) : Prop := ∀ s w a w', Runs s g w a w' → w.names.count ≤ w'.names.count

theorem Keeps.grows (h : Keeps g) : Grows g := fun s w a w' hr => (h s w a w' hr).names

namespace Grows

protected theorem pure : Grows (pure a) := (Keeps.pure a).grows

protected theorem bind (hg : Grows g) (hf : ∀ a, Grows (f a)) : Grows (g >>= f) := by
  intro s w b w' hr
  obtain ⟨a, u, ha, hb⟩ := runs_bind.mp hr
  exact Nat.le_trans (hg s w a u ha) (hf a s u b w' hb)

protected theorem emit : Grows (emit code) := by
  intro s w x w' hr
  obtain rfl := runs_emit.mp hr
  exact Nat.le_refl _

protected theorem nameAt : Grows (nameAt path) :=
  fun _ _ _ _ hr => (advances_nameAt hr).1.names

protected theorem explain (hg : Grows g) : Grows (explain excerpt g) :=
  fun s w a w' hr => hg s w a w' (runs_explain.mp hr)

protected theorem forM {xs : List α} (hf : ∀ x ∈ xs, Grows (f x)) : Grows (xs.forM f) := by
  induction xs with
  | nil => exact .pure
  | cons x xs ih =>
    exact (hf x mem_cons_self).bind fun _ => ih fun y hy => hf y (.tail _ hy)

end Grows

mutual

theorem count_lookups (stem : String) : ∀ (a : Address) (base : String) (steps : List Nat)
    (names : Names), names.count ≤ (a.lookups stem base steps names).2.count
  | .node (some n) cs, base, steps, names => count_lookupsOf cs n [] names
  | .node none cs, base, steps, names => by
    unfold Address.lookups
    by_cases hcs : 1 < cs.length
    · simp only [hcs, if_true]
      exact Nat.le_of_succ_le (count_lookupsOf cs _ [] { count := names.count + 1 })
    · simp only [hcs, if_false]
      exact count_lookupsOf cs base steps names

theorem count_lookupsOf : ∀ (cs : List (Nat × Address)) (base : String)
    (steps : List Nat) (names : Names), names.count ≤ (lookupsOf stem base steps names cs).2.count
  | [], _, _, _ => Nat.le_refl _
  | (i, a) :: cs, base, steps, names =>
    Nat.le_trans (count_lookups stem a base (steps ++ [i]) names)
      (count_lookupsOf cs base steps _)

end

/-! ## What building a block does -/

def shownItems (s : Setting) (parts : List Part) : List Item :=
  itemsOf (parts.filter fun p => !isHidden s.options.preserveComments p.node)

theorem runs_openBody : Runs s (openBody parts) w items w' ↔
      Runs s (defineFragments parts) w () w' ∧ items = shownItems s parts := by
  unfold openBody
  simp only [runs_bind, runs_read, runs_pure]
  constructor
  · rintro ⟨_, u, hdef, _, _, ⟨rfl, rfl⟩, rfl, rfl⟩
    exact ⟨hdef, rfl⟩
  · rintro ⟨hdef, rfl⟩
    exact ⟨(), w', hdef, s, w', ⟨rfl, rfl⟩, rfl, rfl⟩

/-- The statement that shows a finished block in the work, given the block's own work. -/
structure Finished (o : BlockOptions) (u : Work) (b : Block) (names : Names)
    (lookups : List Lookup) : Prop where
  idle : u.binds = [] → b.binder = "$runtime.noop" ∧ b.source = "" ∧ lookups = [] ∧ names = u.names
  busy : u.binds ≠ [] → b.source = binderSource b.binder o.parameters lookups u.binds ∧
    (lookups, names) =
      u.addresses.lookups "el" "$parentElement" [] (u.names.fresh "$$build").2

theorem runs_buildBlock (hr : Runs s (buildBlock parts holder o) w b w') :
    ∃ body u₁ u lookups names,
      Runs s (defineFragments parts) { w with binds := [], addresses := .empty } () u₁ ∧
      Runs s (generateItems [] (holder = .element && parts.length == 1) 0 (shownItems s parts)) u₁
        body u ∧
      b.template = (if endsInLabel (holder = .element && parts.length == 1) (shownItems s parts) &&
        o.guarded then body ++ [.guard] else body) ∧ Finished o u b names lookups ∧
      w' = { u with binds := w.binds, addresses := w.addresses, names } := by
  unfold buildBlock at hr
  simp only [runs_bind, runs_get, runs_set, runs_openBody] at hr
  obtain ⟨_, _, ⟨rfl, rfl⟩, _, _, rfl, items, u₁, ⟨hdef, rfl⟩, body, x, hitems, y, u, ⟨hx, hy⟩,
    hend⟩ := hr
  subst hx hy
  refine ⟨body, u₁, u, ?_⟩
  split at hend
  · next hempty =>
    obtain ⟨_, _, rfl, rfl, rfl⟩ := hend
    have hbinds := isEmpty_iff.mp hempty
    exact ⟨[], _, hdef, hitems, rfl, ⟨fun _ => ⟨rfl, rfl, rfl, rfl⟩, fun h => absurd hbinds h⟩, rfl⟩
  · next hempty =>
    obtain ⟨_, _, rfl, rfl, rfl⟩ := hend
    exact ⟨_, _, hdef, hitems, rfl, ⟨fun h => absurd (isEmpty_iff.mpr h) hempty,
      fun _ => ⟨rfl, rfl⟩⟩, rfl⟩

/-- A part that takes names only from the supply, and so do the parts of its bodies. -/
inductive Part.Tame : Part → Prop where
  | mk (n : Node) (act : Place → Gen (List Static)) (bodies : List (List Part)) :
      (∀ place, Grows (act place)) → (∀ b ∈ bodies, ∀ p ∈ b, Tame p) → Tame (.mk n act bodies)

theorem Part.Tame.generate {p : Part} (h : p.Tame) : Grows (p.generate place) := by
  cases h with
  | mk n act bodies hact _ => exact hact place

theorem Part.Tame.body {p : Part} (h : p.Tame) : ∀ q ∈ p.body, q.Tame := by
  cases h with
  | mk n act bodies _ hbodies =>
    intro q hq
    cases bodies with
    | nil => cases hq
    | cons b bodies => exact hbodies b mem_cons_self q hq

theorem part_mem_itemsOf (h : .part p ∈ itemsOf ps) : p ∈ ps ∧ p.node.isText = false := by
  induction ps with
  | nil => cases h
  | cons q ps ih =>
    have hlater : .part p ∈ itemsOf ps → p ∈ q :: ps ∧ p.node.isText = false := fun h =>
      (ih h).imp_left (.tail q)
    have h : Item.part p ∈ addItem q (itemsOf ps) := h
    unfold addItem at h
    split at h
    · next hrest =>
      rcases mem_cons.mp h with h | h
      · cases h
      · exact hlater (hrest ▸ mem_cons_of_mem _ h)
    · rcases mem_cons.mp h with h | h
      · cases h
      · exact hlater h
    · next htext _ =>
      rcases mem_cons.mp h with h | h
      · obtain rfl := Item.part.inj h
        refine ⟨mem_cons_self, ?_⟩
        cases hn : p.node with
        | text v span => exact absurd hn (htext v span)
        | _ => rfl
      · exact hlater h

theorem part_mem_shownItems (h : .part p ∈ shownItems s ps) :
    p ∈ ps ∧ (p.node.isText || isHidden s.options.preserveComments p.node) = false := by
  obtain ⟨hmem, htext⟩ := part_mem_itemsOf h
  obtain ⟨hmem, hshown⟩ := mem_filter.mp hmem
  exact ⟨hmem, by simpa [htext] using hshown⟩

theorem length_itemsOf_le : (itemsOf ps).length ≤ ps.length := by
  induction ps with
  | nil => exact Nat.le_refl _
  | cons p ps ih =>
    change (addItem p (itemsOf ps)).length ≤ ps.length + 1
    unfold addItem
    split
    · next hrest =>
      rw [hrest] at ih
      exact Nat.le_succ_of_le ih
    · exact Nat.succ_le_succ ih
    · exact Nat.succ_le_succ ih

section Blocks

variable {parts : List Part}

theorem grows_defineFragments (hp : ∀ p ∈ parts, p.Tame) : Grows (defineFragments parts) := by
  refine .forM fun p hmem => ?_
  have htame := hp p (mem_filter.mp hmem).1
  exact htame.generate.explain.bind fun _ => .pure

theorem grows_bindText : Grows (bindText path value) := by
  unfold bindText
  split
  · refine steady_interpolate.keeps.grows.bind fun _ => ?_
    exact Grows.nameAt.bind fun _ => Grows.emit.bind fun _ => .pure
  · exact .pure

theorem grows_generateItems (index : Nat)
    (hp : ∀ p, .part p ∈ items → p.Tame) : Grows (generateItems path onlyChild index items) := by
  induction items generalizing index with
  | nil => exact .pure
  | cons item items ih =>
    have hrest : ∀ here : List Static,
        Grows (do return here ++ (← generateItems path onlyChild (index + 1) items)) := fun here =>
      (ih (index + 1) fun p hmem => hp p (.tail _ hmem)).bind fun _ => .pure
    cases item with
    | text value => exact grows_bindText.explain.bind hrest
    | part p => exact (((hp p mem_cons_self).generate).explain).bind hrest

theorem keeps_buildBlock (hp : ∀ p ∈ parts, p.Tame) : Keeps (buildBlock parts holder o) := by
  intro s w b w' hr
  obtain ⟨body, u₁, u, lookups, names, hdef, hitems, -, hfinished, rfl⟩ := runs_buildBlock hr
  have hfirst := grows_defineFragments hp _ _ _ _ hdef
  have htame := fun p hmem => hp p (part_mem_shownItems (s := s) hmem).1
  have hsecond := grows_generateItems _ htame _ _ _ _ hitems
  refine ⟨rfl, rfl, Nat.le_trans hfirst (Nat.le_trans hsecond ?_)⟩
  by_cases hbinds : u.binds = []
  · obtain ⟨-, -, -, rfl⟩ := hfinished.idle hbinds
    exact Nat.le_refl _
  · have hcount := count_lookups "el" u.addresses "$parentElement" [] (u.names.fresh "$$build").2
    rw [← (hfinished.busy hbinds).2] at hcount
    exact Nat.le_of_succ_le hcount

end Blocks

/-! ## Slots and fragments -/

theorem steady_longForm : Steady (longForm a) := by
  unfold longForm
  split
  · exact steady_unwrap.map.guard
  · split
    · exact .pure _
    · exact .fail _

theorem steady_slotArgument (a : Attribute) : Steady (slotArgument a) := by
  refine steady_longForm.bind fun p => ?_
  refine .guard ?_
  split
  · exact steady_unwrap.map
  · exact steady_quoted.map

theorem steady_fragmentParameter (a : String) : Steady (fragmentParameter a) :=
  Steady.require.map

theorem steady_fragmentParameters : Steady (fragmentParameters args) := by
  unfold fragmentParameters
  split
  · exact .pure _
  · exact .mapM steady_fragmentParameter _

theorem steady_callbackOf : Steady (callbackOf exp) := by
  refine steady_kindOf.bind fun kind => ?_
  split
  · exact steady_checkName.map
  · exact .pure _
  · exact steady_quoted.map

theorem steady_fragmentEvent : Steady (fragmentEvent spec a) := by
  unfold fragmentEvent
  split
  · exact .pure _
  · refine .guard ?_
    split
    · exact steady_unwrap.bind fun _ => steady_callbackOf.map
    · exact steady_checkName.map
    · exact .pure _

theorem steady_fragmentArgument : Steady (fragmentArgument a) := by
  refine steady_longForm.bind fun p => ?_
  refine .guard ?_
  split
  · exact steady_unwrap.map
  · exact steady_quoted.map

theorem steady_fragmentUse : Steady (fragmentUse e label) := by
  refine .guard ?_
  refine (Steady.mapM (fun a => ?_) _).map
  split
  · exact steady_fragmentEvent
  · exact steady_fragmentArgument

/-! ## Attributes of component tags -/

section

variable (a : Attribute) (i : Invocation)

theorem keeps_addTwoWay {inner : String} : Keeps (addTwoWay inner a i) := by
  have houter : Steady (boundExpression inner a) := by
    unfold boundExpression
    split
    · exact steady_unwrap
    · exact .pure _
  refine houter.keeps.bind fun _ => Steady.require.keeps.bind fun _ => ?_
  exact steady_requireName.keeps.bind fun _ => Keeps.fresh.map

theorem steady_addSpread : Steady (addSpread object i) :=
  steady_requireName.map

theorem steady_addComponentEvent : Steady (addComponentEvent spec a i) := by
  refine .guard ?_
  split
  · exact steady_unwrap.bind fun _ => steady_callbackOf.map.guard
  · exact steady_checkName.map.guard
  · exact .pure _

theorem keeps_addComponentClass : Keeps (addComponentClass a i) := by
  unfold addComponentClass
  split
  · exact .fail _
  · split
    · exact .fail _
    · refine steady_interpolate.keeps.bind fun _ => Keeps.fresh.bind fun _ => ?_
      exact Steady.resolver.keeps.map

theorem steady_addProperty : Steady (addProperty name value i) := by
  refine .guard ?_
  split
  · exact .pure _
  · split
    · exact steady_interpolate.map
    · exact steady_quoted.map

theorem keeps_addAttribute : Keeps (addAttribute a i) := by
  unfold addAttribute
  split
  · exact steady_checkName.map.guard.guard.keeps
  · split
    · refine steady_unwrap.keeps.bind fun inner => ?_
      split
      · exact (steady_addSpread i).keeps
      · exact steady_requireName.keeps.bind fun _ => (steady_addProperty i).keeps
    · split
      · exact (steady_addComponentEvent a i).keeps
      · split
        · exact keeps_addComponentClass a i
        · exact (steady_addProperty i).keeps

end

theorem keeps_firstAttribute : Keeps (firstAttribute acc a) := by
  unfold firstAttribute
  dsimp only
  split
  · exact .pure _
  · split
    · exact (keeps_addTwoWay a _).map
    · split
      · split
        · exact .fail _
        · exact steady_unwrap.keeps.map
      · exact .pure _

theorem steady_dynamicName : Steady (dynamicName e) := by
  unfold dynamicName
  split
  · split
    · exact .fail _
    · split
      · exact steady_unwrap.map
      · exact .pure _
  · exact .pure _

/-! ## Code that holds blocks -/

theorem mem_of_mem_trimBody (h : p ∈ trimBody body) : p ∈ body := by
  unfold trimBody at h
  split at h
  · exact mem_of_mem_take h
  · have h := (dropWhile_sublist _).subset (mem_reverse.mp h)
    exact (dropWhile_sublist _).subset (mem_reverse.mp h)

theorem steady_conditionCall : Steady (conditionCall shown alt) := by
  unfold conditionCall
  split
  · exact steady_fragmentOf.map
  · exact .pure _

theorem steady_outcomeParameters : Steady (outcomeParameters header) := by
  unfold outcomeParameters
  split
  · exact .pure _
  · exact Steady.require.map

section Bodies

variable {body : List Part} (hp : ∀ p ∈ body, p.Tame)
include hp

theorem keeps_codeOfBlock {holder : Holder} {o : BlockOptions} {code : Block → String → α} :
    Keeps (do
      let b ← buildBlock body holder o
      let fragment ← fragmentOf b
      return code b fragment) :=
  (keeps_buildBlock hp).bind fun _ => steady_fragmentOf.keeps.map

theorem keeps_slotDefault : Keeps (slotDefault body label) := by
  unfold slotDefault
  split
  · exact .pure _
  · exact keeps_codeOfBlock hp

theorem keeps_slotCode : Keeps (slotCode name label e body) :=
  (Steady.mapM steady_slotArgument _).keeps.bind fun _ =>
    (keeps_slotDefault hp).map

theorem keeps_fragmentCode : Keeps (fragmentCode header body) := by
  unfold fragmentCode
  split
  · exact .fail _
  · refine Steady.require.keeps.bind fun _ => ?_
    refine steady_fragmentParameters.keeps.bind fun _ => ?_
    split
    · exact Steady.warn.keeps.map
    · exact keeps_codeOfBlock hp

theorem keeps_slotContentCode : Keeps (slotContentCode { name, header, body }) := by
  refine Steady.require.keeps.bind fun _ => ?_
  refine (Steady.forM (fun _ => .require)).keeps.bind fun _ => ?_
  exact keeps_codeOfBlock hp

theorem tame_foldlM_addSlotContent {slots found : List SlotContent}
    (hs : ∀ c ∈ slots, ∀ p ∈ c.body, p.Tame)
    (h : body.foldlM addSlotContent slots = .ok found) : ∀ c ∈ found, ∀ p ∈ c.body, p.Tame := by
  induction body generalizing slots with
  | nil =>
    cases h
    exact hs
  | cons q body ih =>
    rw [foldlM_cons] at h
    cases hadd : addSlotContent slots q with
    | error f =>
      rw [hadd] at h
      cases h
    | ok slots' =>
      rw [hadd] at h
      refine ih (fun p hmem => hp p (.tail _ hmem)) ?_ h
      unfold addSlotContent at hadd
      split at hadd
      · dsimp only at hadd
        split at hadd
        · cases hadd
        · cases hadd
          exact forall_mem_append.mpr
            ⟨hs, forall_mem_singleton.mpr (hp q mem_cons_self).body⟩
      · cases hadd
        exact hs

theorem tame_slotsOf (h : slotsOf body = .ok slots) : ∀ c ∈ slots, ∀ p ∈ c.body, p.Tame := by
  unfold slotsOf at h
  cases hfound : body.foldlM addSlotContent [] with
  | error f =>
    rw [hfound] at h
    cases h
  | ok found =>
    rw [hfound] at h
    have hslots := tame_foldlM_addSlotContent hp (by simp) hfound
    have h : (if found.any (·.name == "default") || (body.filter _).all Part.isBlankText then
      Except.ok found else .ok (found ++ [_])) = .ok slots := h
    split at h
    · cases h
      exact hslots
    · cases h
      exact forall_mem_append.mpr ⟨hslots, forall_mem_singleton.mpr fun p hmem =>
        hp p (mem_filter.mp hmem).1⟩

theorem keeps_openInvocation : Keeps (openInvocation body) := by
  unfold openInvocation
  split
  · exact .pure _
  · split
    · exact .fail _
    · next slots hslots =>
      refine .foldlM (fun c hc i => ?_) _
      have htame := tame_slotsOf hp hslots c hc
      exact (keeps_slotContentCode htame).map

theorem keeps_componentCode (label : String) : Keeps (componentCode e body label) := by
  refine steady_dynamicName.keeps.bind fun _ => (keeps_openInvocation hp).bind fun i => ?_
  refine (Keeps.foldlM (fun a _ acc => keeps_firstAttribute) _).bind fun acc => ?_
  refine (Keeps.foldlM (fun a _ i => keeps_addAttribute a i) _).bind fun i => ?_
  split
  · exact .pure _
  · exact Keeps.fresh.map

theorem keeps_conditionCode (ha : ∀ b, alt = some b → ∀ p ∈ b, p.Tame) :
    Keeps (conditionCode header body alt label) := by
  unfold conditionCode
  split
  · exact .fail _
  · refine Keeps.fresh.bind fun _ => (keeps_buildBlock hp).bind fun main => ?_
    have halt : Keeps (alt.mapM fun body => buildBlock body .other guarded) := by
      cases alt with
      | none => exact .pure _
      | some b => exact (keeps_buildBlock (ha b rfl)).map
    refine halt.bind fun other => steady_fragmentOf.keeps.bind fun _ => ?_
    exact steady_conditionCall.keeps.map

theorem keeps_eachCode (header el : String) (onlyChild : Bool) :
    Keeps (eachCode header body el onlyChild) := by
  have htrim : ∀ p ∈ trimBody body, p.Tame := fun p hmem => hp p (mem_of_mem_trimBody hmem)
  refine (keeps_buildBlock htrim).bind fun b => Steady.read.keeps.bind fun t => ?_
  split
  · exact .fail _
  · exact steady_fragmentOf.keeps.map

theorem keeps_awaitPart : Keeps (awaitPart body parameters template) := by
  unfold awaitPart
  split
  · exact .pure _
  · exact keeps_codeOfBlock hp

theorem keeps_awaitParts (hf : ∀ h b, fulfilled = some (h, b) → ∀ p ∈ b, p.Tame) :
    Keeps (awaitParts header name body fulfilled) := by
  unfold awaitParts
  split
  · exact .fail _
  · exact Steady.require.keeps.bind fun _ => (keeps_awaitPart hp).map
  · next h b =>
    refine steady_outcomeParameters.keeps.bind fun _ => ?_
    refine (keeps_awaitPart hp).bind fun _ => ?_
    exact (keeps_awaitPart (hf h b rfl)).map
  · exact (keeps_awaitPart hp).map

theorem keeps_awaitCode (hf : ∀ h b, fulfilled = some (h, b) → ∀ p ∈ b, p.Tame)
    (hr : ∀ h b, rejected = some (h, b) → ∀ p ∈ b, p.Tame) :
    Keeps (awaitCode header body fulfilled rejected el) := by
  have houtcome : Keeps (outcomeCode rejected "tpl_catch") := by
    unfold outcomeCode
    split
    · exact .pure _
    · next h b =>
      exact steady_outcomeParameters.keeps.bind fun _ => keeps_awaitPart (hr h b rfl)
  unfold awaitCode
  split
  · exact .fail _
  · exact (keeps_awaitParts hp hf).bind fun _ => houtcome.map

end Bodies

end ReactiveMarkup.Template
