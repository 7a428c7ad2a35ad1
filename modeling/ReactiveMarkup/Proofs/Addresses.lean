import ReactiveMarkup.Proofs.Bindings
import ReactiveMarkup.Proofs.Printing

/-! # Addresses of a block

The variables of a block hold the nodes that its statements are about. The template of a block is
read as a forest in which every text, element, comment and raw template is one node.
-/

namespace ReactiveMarkup.Template

open List hiding span

open Markup (Element Node PlainComment)

/-! ## Bodies -/

/-- Paths of the node at `path` and of what the nodes `ss`, which stand below it from `index` on,
hold. -/
def Within (path : List Nat) (index : Nat) (ss : List Static) (q : List Nat) : Prop :=
  q = path ∨ ∃ i st r, ss[i]? = some st ∧ q = path ++ (index + i) :: r ∧ Reaches st.children r

theorem within_head (h : Below (path ++ [index]) st q) : Within path index (st :: ss) q := by
  obtain ⟨r, rfl, hr⟩ := h
  exact .inr ⟨0, st, r, rfl, by simp, hr⟩

theorem within_tail (h : Within path (index + 1) ss q) : Within path index (st :: ss) q := by
  rcases h with h | ⟨i, t, r, hi, hq, hr⟩
  · exact .inl h
  · exact .inr ⟨i + 1, t, r, by simpa using hi, by rw [hq, Nat.add_assoc, Nat.add_comm 1], hr⟩

theorem Within.below (h : Within path 0 ss q) (openTag closeTag : String) :
    Below path (.element openTag closeTag ss) q := by
  rcases h with h | ⟨i, st, r, hi, hq, hr⟩
  · exact below_self h
  · refine ⟨i :: r, by rw [hq, Nat.zero_add], ?_⟩
    simpa [Reaches, childrenAt, Static.children, hi] using hr

theorem drop_of_prefix {x : α} {xs all : List α} (h : x :: xs <+: all.drop i) :
    all[i]? = some x ∧ xs <+: all.drop (i + 1) := by
  obtain ⟨rest, hrest⟩ := h
  have hdrop : all.drop (i + 1) = xs ++ rest := by
    rw [← drop_drop, ← hrest]
    rfl
  constructor
  · have := congrArg List.head? hrest
    simpa [head?_drop] using this.symm
  · exact ⟨rest, hdrop.symm⟩

structure Generated (n : Node) : Prop where
  tame : (plan generateNode n).Tame
  leaves : ∀ s place w ss w', Runs s ((plan generateNode n).generate place) w ss w' →
    Leaves s n place w w' ss

section Runs

variable {s : Setting} {w w' : Work} {path : List Nat} {sole : Bool} {index : Nat}
  {ss : List Static} {n : Node}

theorem bindText_bound (hr : Runs s (bindText (path ++ [index]) value) w ss w') :
    ∃ st, ss = [st] ∧ Advances (· = path ++ [index]) w w' ∧ ∀ c sole rest more, Covers w' c →
      nodeAt? c.forest (path ++ [index]) = some st →
      ItemsBound c s path sole (index + 1) rest more →
      ItemsBound c s path sole index (.text value :: rest) (st :: more) := by
  unfold bindText at hr
  split at hr
  · next hbrace =>
    simp only [runs_bind, runs_pure] at hr
    obtain ⟨exp, u, hexp, el, u₁, hel, _, u₂, hemit, rfl, rfl⟩ := hr
    have hkept := steady_interpolate.keeps s w exp u hexp
    obtain ⟨hname, hheld⟩ := advances_nameAt hel
    obtain rfl := runs_emit.mp hemit
    refine ⟨.hole, rfl, ((hkept.advances _).trans hname).trans advances_emit, ?_⟩
    intro c sole rest more hc hnode hmore
    have hstmt : textCode el exp ∈ u₁.binds ++ [textCode el exp] := by simp
    exact .hole hbrace ⟨w, u, hexp⟩ hnode
      (hc.locals _ hstmt _ el hheld) (hc.binds _ hstmt) hmore
  · next hbrace =>
    obtain ⟨rfl, rfl⟩ := runs_pure.mp hr
    refine ⟨.text value, rfl, .refl, ?_⟩
    intro c sole rest more _ _ hmore
    exact .text (by simpa using hbrace) hmore

theorem generateItems_bound {items : List Item}
    (hparts : ∀ p, .part p ∈ items → ∃ n, p = plan generateNode n ∧ Generated n ∧
      (n.isText || isHidden true n) = false) (hone : sole = true → items.length ≤ 1)
    (hr : Runs s (generateItems path sole index items) w ss w') :
    Advances (Within path index ss) w w' ∧ ∀ c all, Covers w' c →
      childrenAt c.forest path = some all → ss <+: all.drop index →
      ItemsBound c s path sole index items ss := by
  induction items generalizing index w ss with
  | nil =>
    obtain ⟨rfl, rfl⟩ := runs_pure.mp hr
    exact ⟨.refl, fun c all _ _ _ => .nil⟩
  | cons item items ih =>
    have hparts' := fun p hp => hparts p (.tail item hp)
    have hone' : sole = true → items.length ≤ 1 := fun h => Nat.le_of_succ_le (hone h)
    cases item with
    | text value =>
      simp only [generateItems, runs_bind, runs_explain, runs_pure] at hr
      obtain ⟨here, u, htext, more, u', hmore, rfl, rfl⟩ := hr
      obtain ⟨st, rfl, hadv, hbound⟩ := bindText_bound htext
      obtain ⟨hadv', hbounds⟩ := ih hparts' hone' hmore
      refine ⟨(hadv.mono fun q hq => within_head (below_self hq)).trans
        (hadv'.mono fun q hq => within_tail hq), ?_⟩
      intro c all hc hall hss
      obtain ⟨hst, hrest⟩ := drop_of_prefix hss
      exact hbound c sole items more (hc.of_advances hadv')
        ((nodeAt?_concat hall).trans hst) (hbounds c all hc hall hrest)
    | part p =>
      obtain ⟨n, rfl, hn, hshown⟩ := hparts p mem_cons_self
      simp only [generateItems, runs_bind, runs_explain, runs_pure] at hr
      obtain ⟨here, u, hnode, more, u', hmore, rfl, rfl⟩ := hr
      obtain ⟨hadv', hbounds⟩ := ih hparts' hone' hmore
      cases hn.leaves s _ w here u hnode with
      | node st heach hadv hbound =>
        refine ⟨(hadv.mono fun q hq => within_head hq).trans
          (hadv'.mono fun q hq => within_tail hq), ?_⟩
        intro c all hc hall hss
        obtain ⟨hst, hrest⟩ := drop_of_prefix hss
        refine .node n more heach ?_ (hbounds c all hc hall hrest)
        exact hbound c (hc.of_advances hadv') ((nodeAt?_concat hall).trans hst)
      | fill header body span heq honly hadv hstates =>
        -- nothing follows a loop that fills its element
        obtain rfl : items = [] := by
          have := hone honly
          simpa using this
        obtain ⟨rfl, rfl⟩ := runs_pure.mp hmore
        simp only [dropLast_concat] at hadv hstates
        refine ⟨hadv.mono fun q hq => .inl hq, ?_⟩
        intro c all hc _ _
        obtain rfl : sole = true := honly
        subst heq
        exact .fill header body span (hstates c hc)
      | nothing hleft => rw [hleft] at hshown; cases hshown

theorem advances_forM {f : α → Gen Unit} {xs : List α}
    (hf : ∀ x ∈ xs, ∀ w w', Runs s (f x) w () w' → Advances P w w')
    (hr : Runs s (xs.forM f) w () w') : Advances P w w' := by
  induction xs generalizing w with
  | nil =>
    obtain ⟨-, rfl⟩ := runs_pure.mp hr
    exact .refl
  | cons x xs ih =>
    obtain ⟨_, u, hx, hxs⟩ := runs_bind.mp hr
    exact (hf x mem_cons_self w u hx).trans
      (ih (fun y hy => hf y (.tail x hy)) hxs)

theorem planAll_eq_map : planAll act ns = ns.map (plan act) := by
  induction ns with
  | nil => rfl
  | cons n ns ih => rw [planAll, ih, map_cons]

@[simp] theorem node_plan : (plan act n).node = n := by
  cases n <;> rfl

variable {ns : List Node}

theorem mem_planAll : p ∈ planAll act ns ↔ ∃ n ∈ ns, plan act n = p := by
  rw [planAll_eq_map, mem_map]

theorem length_planAll : (planAll act ns).length = ns.length := by
  rw [planAll_eq_map, length_map]

theorem advances_fragment (hp : ∀ p ∈ parts, p.Tame)
    (hr : Runs s (do emit (← fragmentCode header parts); return []) w ss w') :
    Advances (fun _ => False) w w' ∧ ss = [] := by
  simp only [runs_bind, runs_pure] at hr
  obtain ⟨code, u, hcode, _, u', hemit, rfl, rfl⟩ := hr
  have hkept := keeps_fragmentCode hp s w code u hcode
  obtain rfl := runs_emit.mp hemit
  exact ⟨(hkept.advances _).trans advances_emit, rfl⟩

theorem isHidden_of_true (h : isHidden true n = true) : isHidden keep n = true := by
  cases n with
  | comment text span => cases h
  | _ => exact h

theorem length_shownItems_le : (shownItems s (planAll generateNode ns)).length ≤ ns.length := by
  calc (shownItems s (planAll generateNode ns)).length
      ≤ ((planAll generateNode ns).filter _).length := length_itemsOf_le
    _ ≤ (planAll generateNode ns).length := length_filter_le _ _
    _ = ns.length := length_planAll

variable (hn : ∀ n ∈ ns, Generated n)
include hn

theorem tame_planAll : ∀ p ∈ planAll generateNode ns, p.Tame := by
  intro p hp
  obtain ⟨n, hmem, rfl⟩ := mem_planAll.mp hp
  exact (hn n hmem).tame

theorem advances_defineFragments
    (hr : Runs s (defineFragments (planAll generateNode ns)) w () w') : Advances P w w' := by
  refine advances_forM (fun p hp v v' hv => ?_) hr
  obtain ⟨hmem, hfragment⟩ := mem_filter.mp hp
  obtain ⟨n, hin, rfl⟩ := mem_planAll.mp hmem
  simp only [runs_bind, runs_explain, runs_pure] at hv
  obtain ⟨ss, u, hgen, -, rfl⟩ := hv
  rw [node_plan] at hfragment
  cases n with
  | fragment header body span =>
    have htame : ∀ p ∈ planAll generateNode body, p.Tame := (hn _ hin).tame.body
    exact (advances_fragment htame hgen).1.mono fun _ h => h.elim
  | _ => cases hfragment

theorem shownItems_parts (p : Part) (hp : .part p ∈ shownItems s (planAll generateNode ns)) :
    ∃ n, p = plan generateNode n ∧ Generated n ∧ (n.isText || isHidden true n) = false := by
  obtain ⟨hmem, hshown⟩ := part_mem_shownItems hp
  obtain ⟨n, hin, rfl⟩ := mem_planAll.mp hmem
  rw [node_plan] at hshown
  refine ⟨n, rfl, hn n hin, ?_⟩
  cases hidden : isHidden true n with
  | true => simp [isHidden_of_true hidden] at hshown
  | false => simpa [hidden] using (Bool.or_eq_false_iff.mp hshown).1

theorem body_bound (honly : sole = true → ns.length = 1)
    (hdef : Runs s (defineFragments (planAll generateNode ns)) w () u)
    (hr : Runs s (generateItems path sole 0 (shownItems s (planAll generateNode ns))) u ss
      w') : Advances (Within path 0 ss) w w' ∧ ∀ c all, Covers w' c →
      childrenAt c.forest path = some all → ss <+: all →
      ItemsBound c s path sole 0 (shownItems s (planAll generateNode ns)) ss := by
  have hone : sole = true → (shownItems s (planAll generateNode ns)).length ≤ 1 := fun h =>
    honly h ▸ length_shownItems_le
  obtain ⟨hadv, hbound⟩ := generateItems_bound (shownItems_parts hn) hone hr
  exact ⟨(advances_defineFragments hn hdef).trans hadv, hbound⟩

theorem generateElement_bound (hplain : IsPlain e)
    (hr : Runs s (generateElement path e (planAll generateNode ns)) w st w') :
    Advances (Below path st) w w' ∧ ∀ c, Covers w' c → nodeAt? c.forest path = some st →
      NodeBound c s path (.element e ns span) st := by
  unfold generateElement at hr
  obtain ⟨x, u, hspread, hr⟩ := runs_bind.mp hr
  obtain ⟨⟨attributes, y⟩, v, hattributes, hr⟩ := runs_bind.mp hr
  obtain ⟨hadv₁, hspread⟩ := openSpread_bound hspread
  obtain ⟨hadv₂, hattributes⟩ := generateAttributes_bound hattributes
  have hself : ∀ st, Advances (Below path st) w v := fun st =>
    (hadv₁.trans hadv₂).mono fun q hq => below_self hq
  dsimp only at hr
  split at hr
  · next hclosed =>
    obtain ⟨rfl, rfl⟩ := runs_pure.mp hr
    refine ⟨hself _, fun c hc hnode => ?_⟩
    refine .closed hplain hclosed (hspread c (hc.of_advances hadv₂)) (hattributes c hc) ?_ hnode
    split
    · rfl
    · simp only [String.append_assoc]
  · next hopen =>
    obtain ⟨ss, v', hbody, hr⟩ := runs_bind.mp hr
    obtain ⟨rfl, rfl⟩ := runs_pure.mp hr
    unfold generateBody at hbody
    obtain ⟨items, v₁, hitems, hbody⟩ := runs_bind.mp hbody
    obtain ⟨hdef, rfl⟩ := runs_openBody.mp hitems
    rw [length_planAll] at hbody
    obtain ⟨hadv, hbound⟩ := body_bound hn (by simp) hdef hbody
    refine ⟨(hself _).trans (hadv.mono fun q hq => hq.below _ _), fun c hc hnode => ?_⟩
    have hc₂ := hc.of_advances hadv
    exact .opened hplain (by simpa using hopen)
      (hspread c (hc₂.of_advances hadv₂)) (hattributes c hc₂) rfl hnode
      (hbound c ss hc (childrenAt_of_nodeAt? hnode) prefix_rfl)

/-! ## Nodes -/

theorem generateTag_leaves
    (hr : Runs s (generateTag e (planAll generateNode ns) place) w ss w') :
    Leaves s (.element e ns span) place w w' ss := by
  have htame := tame_planAll hn
  unfold generateTag at hr
  split at hr
  · next hcomponent =>
    exact labelled_leaves (.component hcomponent) (keeps_componentCode htame) (.inr rfl) hr
  · next hcomponent =>
    have hcomponent : e.isComponent = false := by simpa using hcomponent
    split at hr
    · next hslot =>
      exact labelled_leaves (.slot hcomponent (by simpa using hslot))
        (fun el => keeps_slotCode htame) (.inr rfl) hr
    · next hslot =>
      split at hr
      · next hfragment =>
        exact labelled_leaves (.fragment hcomponent (by simpa using hfragment))
          (fun el => steady_fragmentUse.keeps) (.inr rfl) hr
      · next hfragment =>
        obtain ⟨st, u, hst, hr⟩ := runs_bind.mp hr
        obtain ⟨rfl, rfl⟩ := runs_pure.mp hr
        have hplain : IsPlain e := ⟨hcomponent, by simpa using hslot, by simpa using hfragment⟩
        obtain ⟨hadv, hbound⟩ := generateElement_bound hn hplain hst
        exact .node st (.inr rfl) hadv hbound

theorem generateEach_leaves
    (hr : Runs s (generateEach header (planAll generateNode ns) place) w ss w') :
    Leaves s (.each header ns span) place w w' ss := by
  have htame := tame_planAll hn
  unfold generateEach at hr
  split at hr
  · next honly =>
    simp only [runs_bind, runs_pure] at hr
    obtain ⟨el, u, hel, code, u', hcode, _, _, hemit, rfl, rfl⟩ := hr
    have hkeeps := fun el => keeps_eachCode htame header el true
    obtain ⟨hadv, hstates⟩ := states_of_runs hkeeps hel hcode hemit
    exact .fill header ns span rfl honly hadv hstates
  · next honly =>
    exact labelled_leaves .each (fun el => keeps_eachCode htame header el false)
      (.inl (by simpa using honly)) hr

end Runs

theorem Leaves.grows (h : Leaves s n place w w' ss) : w.names.count ≤ w'.names.count := by
  cases h with
  | node _ _ hadv _ | fill _ _ _ _ _ hadv _ | nothing _ hadv => exact hadv.names

theorem generated_of_leaves (hplan : plan generateNode n = .mk n (generateNode n bodies) bodies)
    (hbodies : ∀ b ∈ bodies, ∀ p ∈ b, p.Tame)
    (hleaves : ∀ s place w ss w', Runs s (generateNode n bodies place) w ss w' →
      Leaves s n place w w' ss) : Generated n where
  tame := by
    rw [hplan]
    exact .mk n _ bodies (fun place s w ss w' hr => (hleaves s place w ss w' hr).grows) hbodies
  leaves s place w ss w' hr := by
    rw [hplan] at hr
    exact hleaves s place w ss w' hr

theorem generated_verbatim (hplan : plan generateNode n = .mk n (generateNode n []) [])
    (hact : ∀ place, generateNode n [] place = pure [.verbatim text]) (heach : isEach n = false)
    (hbound : ∀ c s path, NodeBound c s path n (.verbatim text)) : Generated n := by
  refine generated_of_leaves hplan (by simp) fun s place w ss w' hr => ?_
  rw [hact] at hr
  obtain ⟨rfl, rfl⟩ := runs_pure.mp hr
  exact .node _ (.inr heach) (.refl) fun c _ _ => hbound c s place.path

mutual

theorem generated : ∀ n : Node, Generated n
  | .element e body span => by
    have hbody := generated_all body
    refine generated_of_leaves rfl (by simpa using tame_planAll hbody) fun s place w ss w' hr => ?_
    exact generateTag_leaves hbody hr
  | .each header body span => by
    have hbody := generated_all body
    refine generated_of_leaves rfl (by simpa using tame_planAll hbody) fun s place w ss w' hr => ?_
    exact generateEach_leaves hbody hr
  | .fragment header body span => by
    have htame := tame_planAll (generated_all body)
    refine generated_of_leaves rfl (by simpa using htame) fun s place w ss w' hr => ?_
    obtain ⟨hadv, rfl⟩ := advances_fragment htame hr
    exact .nothing rfl hadv
  | .slot header body span => by
    have htame := tame_planAll (generated_all body)
    refine generated_of_leaves rfl (by simpa using htame) fun s place w ss w' hr => ?_
    obtain ⟨rfl, rfl⟩ := runs_pure.mp hr
    exact .nothing rfl (.refl)
  | .cond header body hasElse alt span => by
    have htame := tame_planAll (generated_all body)
    have halt := tame_planAll (generated_all alt)
    refine generated_of_leaves rfl (by simpa using ⟨htame, halt⟩) fun s place w ss w' hr => ?_
    refine labelled_leaves .cond (fun el => ?_) (.inr rfl) hr
    refine keeps_conditionCode htame (fun b hb => ?_)
    split at hb
    · obtain rfl := Option.some.inj hb
      exact halt
    · cases hb
  | .await header main thenHeader thenBody catchHeader catchBody span => by
    have hmain := tame_planAll (generated_all main)
    have hthen := tame_planAll (generated_all thenBody)
    have hcatch := tame_planAll (generated_all catchBody)
    refine generated_of_leaves rfl (by simpa using ⟨hmain, hthen, hcatch⟩)
      fun s place w ss w' hr => ?_
    refine labelled_leaves .await (fun el => ?_) (.inr rfl) hr
    refine keeps_awaitCode hmain (fun h b hb => ?_) (fun h b hb => ?_)
    · obtain ⟨_, -, ht⟩ := Option.map_eq_some_iff.mp hb
      cases ht
      exact hthen
    · obtain ⟨_, -, ht⟩ := Option.map_eq_some_iff.mp hb
      cases ht
      exact hcatch
  | .sysTag header span => by
    refine generated_of_leaves rfl (by simp) fun s place w ss w' hr => ?_
    unfold generateNode at hr
    dsimp only at hr
    split at hr
    · exact absurd hr not_runs_fail
    · next exp hexp =>
      exact labelled_leaves (.html hexp) (fun el => .pure _) (.inr rfl) hr
  | .text value span => by
    refine generated_of_leaves rfl (by simp) fun s place w ss w' hr => ?_
    obtain ⟨rfl, rfl⟩ := runs_pure.mp hr
    exact .nothing rfl (.refl)
  | .comment text span => generated_verbatim rfl (fun _ => rfl) rfl fun c s path => .comment
  | .raw b => generated_verbatim rfl (fun _ => rfl) rfl fun c s path => .raw

theorem generated_all : ∀ ns : List Node, ∀ n ∈ ns, Generated n
  | [] => by simp
  | n :: ns => forall_mem_cons.mpr ⟨generated n, generated_all ns⟩

end

/-! ## Texts of a template -/

def Static.isText : Static → Bool
  | .text _ | .hole => true
  | _ => false

mutual

/-- In the node and below it, no text is empty and no two texts are neighbours, so that each is one
node of the document that is read from the template. -/
def Static.isSeparate : Static → Bool
  | .text value => !value.isEmpty
  | .element _ _ body => areSeparate body
  | _ => true

def areSeparate : List Static → Bool
  | [] => true
  | st :: rest => st.isSeparate && !(st.isText && rest.head?.any Static.isText) && areSeparate rest

end

mutual

/-- No text of the node is empty. What a block or a component holds belongs to other templates. -/
def isFilled : Node → Bool
  | .text value _ => !value.isEmpty
  | .element _ body _ => areFilled body
  | _ => true

def areFilled : List Node → Bool
  | [] => true
  | n :: rest => isFilled n && areFilled rest

end

theorem areFilled_iff : areFilled ns = true ↔ ∀ n ∈ ns, isFilled n = true := by
  induction ns with
  | nil => simp [areFilled]
  | cons n ns ih => simp [areFilled, ih]

def Item.isText : Item → Bool
  | .text _ => true
  | .part _ => false

/-- No text is empty and no two texts are neighbours; the nodes are filled. -/
inductive Spaced : List Item → Prop where
  | nil : Spaced []
  | text (value : String) (rest : List Item) : value ≠ "" → rest.head?.any Item.isText = false →
      Spaced rest → Spaced (.text value :: rest)
  | part (p : Part) (rest : List Item) : isFilled p.node = true → Spaced rest →
      Spaced (.part p :: rest)

theorem spaced_addItem (hp : isFilled p.node = true) (h : Spaced items) :
    Spaced (addItem p items) := by
  unfold addItem
  split
  · next value _ other rest hnode =>
    rw [hnode] at hp
    cases h with
    | text _ _ _ hrest h =>
      refine .text _ rest ?_ hrest h
      intro hempty
      have : value = "" := (String.append_eq_empty_iff.mp hempty).1
      simp [isFilled, this] at hp
  · next value _ hnode hrest =>
    rw [hnode] at hp
    refine .text value _ (by simpa [isFilled] using hp) ?_ h
    cases h with
    | nil => rfl
    | text other rest => exact (hrest other rest rfl).elim
    | part p rest => rfl
  · exact .part p _ hp h

theorem spaced_shownItems (h : areFilled ns = true) :
    Spaced (shownItems s (planAll generateNode ns)) := by
  have hfold : ∀ ps : List Part, (∀ p ∈ ps, isFilled p.node = true) → Spaced (itemsOf ps) := by
    intro ps hps
    induction ps with
    | nil => exact .nil
    | cons p ps ih =>
      exact spaced_addItem (hps p mem_cons_self)
        (ih fun q hq => hps q (.tail p hq))
  refine hfold _ fun p hp => ?_
  have hmem := (mem_filter.mp hp).1
  obtain ⟨n, hin, rfl⟩ := mem_planAll.mp hmem
  rw [node_plan]
  exact areFilled_iff.mp h n hin

section Separate

variable {c : Scene} {s : Setting}

mutual

theorem NodeBound.separate : ∀ {path : List Nat} {n : Node} {st : Static},
    NodeBound c s path n st → isFilled n = true → st.isText = false ∧ st.isSeparate = true
  | _, _, _, .raw, _ | _, _, _, .comment, _ | _, _, _, .label .., _ | _, _, _, .closed .., _ =>
    ⟨rfl, rfl⟩
  | _, _, _, .opened _ _ _ _ _ _ hbelow, hfilled =>
    ⟨rfl, (hbelow.separate (spaced_shownItems hfilled)).1⟩

theorem ItemsBound.separate : ∀ {path : List Nat} {sole : Bool} {index : Nat}
    {items : List Item} {ss : List Static}, ItemsBound c s path sole index items ss →
    Spaced items →
    areSeparate ss = true ∧ (items.head?.any Item.isText = false →
      ss.head?.any Static.isText = false)
  | _, _, _, _, _, .nil, _ => ⟨rfl, fun _ => rfl⟩
  | _, _, _, _, _, .text _ hmore, .text _ _ hvalue hrest hspaced => by
    obtain ⟨hsep, hhead⟩ := hmore.separate hspaced
    refine ⟨?_, by simp [Item.isText]⟩
    simp [areSeparate, Static.isSeparate, hvalue, hhead hrest, hsep]
  | _, _, _, _, _, .hole _ _ _ _ _ hmore, .text _ _ _ hrest hspaced => by
    obtain ⟨hsep, hhead⟩ := hmore.separate hspaced
    refine ⟨?_, by simp [Item.isText]⟩
    simp [areSeparate, Static.isSeparate, hhead hrest, hsep]
  | _, _, _, _, _, .node _ _ _ hnode hmore, .part _ _ hfilled hspaced => by
    obtain ⟨htext, hst⟩ := hnode.separate (by simpa using hfilled)
    obtain ⟨hsep, -⟩ := hmore.separate hspaced
    refine ⟨?_, by simp [htext]⟩
    simp [areSeparate, htext, hst, hsep]
  | _, _, _, _, _, .fill .., _ => ⟨rfl, fun _ => rfl⟩

end

end Separate

theorem areSeparate_guard (h : areSeparate ss = true) : areSeparate (ss ++ [.guard]) = true := by
  induction ss with
  | nil => rfl
  | cons st ss ih =>
    simp only [areSeparate, Bool.and_eq_true, cons_append] at h ⊢
    refine ⟨⟨h.1.1, ?_⟩, ih h.2⟩
    cases ss with
    | nil => simp [Static.isText]
    | cons t ss => exact h.1.2

/-! ## Blocks -/

theorem Reaches.append (h : Reaches forest path) : Reaches (forest ++ more) path := by
  cases path with
  | nil => rfl
  | cons i path =>
    unfold Reaches at *
    rw [childrenAt] at *
    cases hi : forest[i]? with
    | none => simp [hi] at h
    | some st =>
      rw [hi] at h
      rw [List.getElem?_append_left (List.getElem?_eq_some_iff.mp hi).1, hi]
      exact h

theorem execute_block {u : Work} (hu : u.Sound) (names : Names)
    (hnames : u.names.count ≤ names.count) (hreaches : ∀ p, u.addresses.Has p → Reaches forest p) :
    ∃ env, execute forest [("$parentElement", [])]
        (u.addresses.lookups "el" "$parentElement" [] names).1 = some env ∧
      ∀ p n, u.addresses.nameAt? p = some n → env.lookup n = some p := by
  have hother : ∀ k, [("$parentElement", ([] : List Nat))].lookup (elementName k) = none := by
    intro k
    rw [lookup_cons_eq, if_neg elementName_ne_parent]
    rfl
  have hnamed := hu.named.mono hnames
  have hfits : Fits forest ([] ++ []) u.addresses names [("$parentElement", [])] := by
    refine ⟨hu.ordered, hnamed, ?_, fun k _ => hother k, hreaches⟩
    intro p n hn
    obtain ⟨k, -, rfl⟩ := hnamed.below p n hn
    exact hother k
  obtain ⟨env, hrun, hdef⟩ := execute_lookups u.addresses "$parentElement" [] [] names _ rfl hfits
  exact ⟨env, hrun, hdef.named⟩

/-- A block as it runs: its variables are defined from the root of its template, and then its
statements are executed. A block without statements needs no code. -/
structure Plays (o : BlockOptions) (b : Block) (lookups : List Lookup) (c : Scene) : Prop where
  forest : c.forest = b.template
  defined : execute b.template [("$parentElement", [])] lookups = some c.locals
  idle : c.binds = [] → b.binder = "$runtime.noop" ∧ b.source = "" ∧ lookups = []
  busy : c.binds ≠ [] → b.source = binderSource b.binder o.parameters lookups c.binds

theorem plays_of_finished (h : Finished o u b names lookups) (hu : u.Sound)
    (hreaches : ∀ p, u.addresses.Has p → Reaches b.template p) :
    ∃ c, Plays o b lookups c ∧ Covers u c := by
  by_cases hbinds : u.binds = []
  · obtain ⟨hbinder, hsource, rfl, -⟩ := h.idle hbinds
    refine ⟨⟨b.template, [("$parentElement", [])], []⟩, ⟨rfl, rfl, fun _ => ?_, ?_⟩, ?_, ?_⟩
    · exact ⟨hbinder, hsource, rfl⟩
    · exact fun hc => absurd rfl hc
    · simp [hbinds]
    · simp [hbinds]
  · obtain ⟨hsource, hlookups⟩ := h.busy hbinds
    obtain ⟨env, hrun, hnamed⟩ := execute_block hu (u.names.fresh "$$build").2 (Nat.le_succ _)
      hreaches
    rw [← hlookups] at hrun
    exact ⟨⟨b.template, env, u.binds⟩, ⟨rfl, hrun, fun hc => absurd hc hbinds, fun _ => hsource⟩,
      fun t ht => ht, fun t _ p el hel => hnamed p el hel⟩

theorem generate_bound (hr : Runs s (generate body holder o) w b w') :
    ∃ lookups c ss, Plays o b lookups c ∧
      b.template = (if endsInLabel (holder = .element && body.length == 1)
        (shownItems s (planAll generateNode body)) && o.guarded then ss ++ [.guard] else ss) ∧
      ItemsBound c s [] (holder = .element && body.length == 1) 0
        (shownItems s (planAll generateNode body)) ss := by
  obtain ⟨ss, u₁, u, lookups, names, hdef, hitems, htemplate, hfinished, -⟩ := runs_buildBlock hr
  rw [length_planAll] at hitems htemplate
  obtain ⟨hadv, hbound⟩ := body_bound (generated_all body) (by simp) hdef hitems
  have hprefix : ss <+: b.template := by
    rw [htemplate]
    split
    · exact prefix_append _ _
    · exact prefix_rfl
  -- every node that was named is one of the template
  have hreaches : ∀ p, u.addresses.Has p → Reaches b.template p := by
    intro p hp
    rcases hadv.paths p hp with hp | ⟨q, hq, hpq⟩
    · obtain rfl := Address.has_empty.mp hp
      rfl
    · obtain ⟨r, rfl, hr⟩ := hq.below "" ""
      obtain ⟨more, hmore⟩ := hprefix
      rw [← hmore]
      exact (Reaches.append hr).of_isPrefix hpq
  have hsound := hadv.sound ⟨Address.ordered_empty, Address.named_empty _⟩
  obtain ⟨c, hplays, hcovers⟩ := plays_of_finished hfinished hsound hreaches
  exact ⟨lookups, c, ss, hplays, htemplate,
    hbound c b.template hcovers (by rw [hplays.forest]; rfl) hprefix⟩

/-- A block whose texts are not empty: its variables can be defined one after the other, each once
and from a node that is there, and every statement uses the variable of the node that it was made
for. -/
theorem generate_addresses {s : Setting} {body : List Node} {holder : Holder} {o : BlockOptions}
    {w w' : Work} {b : Block} (hfilled : areFilled body = true)
    (hr : Runs s (generate body holder o) w b w') :
    ∃ lookups c ss, Plays o b lookups c ∧ areSeparate b.template = true ∧
      (b.template = ss ∨ b.template = ss ++ [.guard]) ∧
      ItemsBound c s [] (holder = .element && body.length == 1) 0
        (shownItems s (planAll generateNode body)) ss := by
  obtain ⟨lookups, c, ss, hplays, htemplate, hall⟩ := generate_bound hr
  have hsep := (hall.separate (spaced_shownItems hfilled)).1
  refine ⟨lookups, c, ss, hplays, ?_⟩
  split at htemplate
  · exact ⟨htemplate ▸ areSeparate_guard hsep, .inr htemplate, hall⟩
  · exact ⟨htemplate ▸ hsep, .inl htemplate, hall⟩

/-! ## A sample -/

theorem runs_of_start {g : Gen α} {f : α → β} {x : β}
    (h : (g.start s).1.toOption.map f = some x) : ∃ a w', Runs s g {} a w' ∧ f a = x := by
  rcases hstart : g.start s with ⟨r, w'⟩
  rw [hstart] at h
  cases r with
  | error d => cases h
  | ok a => exact ⟨a, w', hstart, Option.some.inj h⟩

def sampleTag (name : String) (attributes : List Markup.Attribute) : Element where
  id := 0
  name := name
  arg := none
  attributes := attributes
  openTag := "<" ++ name ++ ">"
  closed := false
  void := false

def sampleSetting : Setting where
  options := {}
  script := { source := "" }
  scope := none

def sampleBody : List Node :=
  [.text "Dear " ⟨0, 5⟩, .comment "<!-- who -->" ⟨5, 17⟩, .text "\x7bname\x7d" ⟨17, 23⟩,
    .element (sampleTag "ul" []) [.each "#each items as item" [.text "\x7bitem\x7d" ⟨48, 54⟩]
      ⟨27, 61⟩] ⟨23, 66⟩,
    .cond "#if open" [.text "open" ⟨76, 80⟩] false [] ⟨66, 85⟩,
    .element (sampleTag "b" [.plain "title" (some "\x7bname\x7d")])
      [.text "\x7bname\x7d" ⟨103, 109⟩] ⟨85, 113⟩]

theorem generate_addresses_sample : areFilled sampleBody = true ∧ ∃ b w',
    Runs sampleSetting (generate sampleBody .other {}) {} b w' ∧
    b.text = " <ul></ul><!-- #if open --><b> </b>" ∧
    ∃ lookups c ss, Plays {} b lookups c ∧ areSeparate b.template = true ∧
      (b.template = ss ∨ b.template = ss ++ [.guard]) ∧
      ItemsBound c sampleSetting [] (Holder.other = .element && sampleBody.length == 1) 0
        (shownItems sampleSetting (planAll generateNode sampleBody)) ss := by
  have hfilled : areFilled sampleBody = true := by decide
  have hstart : ((generate sampleBody .other {}).start sampleSetting).1.toOption.map Block.text =
      some " <ul></ul><!-- #if open --><b> </b>" := by decide +kernel
  obtain ⟨b, w', hr, htext⟩ := runs_of_start hstart
  exact ⟨hfilled, b, w', hr, htext, generate_addresses hfilled hr⟩

/-! ## Loops without a label

A loop that is all its holder has is shown within the holder. That is an element of the template, or
the root of a block that is said to be held by an element.
-/

variable (s : Setting) (header : String) (body : List Node) in
/-- The loop is all that the element at `way` has, from the holder of some items on. They have their
numbers from `index` on. -/
inductive Lone : Bool → Nat → List Item → List Nat → Prop where
  | here (index : Nat) (span : Text.Span) :
      Lone true index [.part (plan generateNode (.each header body span))] []
  | later (item : Item) : Lone onlyChild (index + 1) items way →
      Lone onlyChild index (item :: items) way
  | inside (e : Element) (inner : List Node) (span : Text.Span) : IsPlain e → e.closed = false →
      Lone (inner.length == 1) 0 (shownItems s (planAll generateNode inner)) way →
      Lone onlyChild index (.part (plan generateNode (.element e inner span)) :: rest)
        (index :: way)

theorem ItemsBound.lone (hl : Lone s header body sole index items way)
    (h : ItemsBound c s path sole index items ss) :
    c.States s (path ++ way) (fun el => eachCode header (planAll generateNode body) el true) ∧
      (way ≠ [] → ∃ tag close inner,
        nodeAt? c.forest (path ++ way) = some (.element tag close inner)) := by
  induction hl generalizing path ss with
  | here index span =>
    generalize hp : plan generateNode (.each header body span) = p at h
    have hnode := congrArg Part.node hp
    cases h with
    | node n _ heach =>
      obtain rfl : .each header body span = n := by simpa using hnode
      simp [isEach] at heach
    | fill header' body' span' hstates =>
      obtain ⟨rfl, rfl, -⟩ : header = header' ∧ body = body' ∧ span = span' := by simpa using hnode
      exact ⟨by simpa using hstates, fun hne => absurd rfl hne⟩
  | later item hl ih =>
    cases h with
    | text _ hmore | hole _ _ _ _ _ hmore | node _ _ _ _ hmore => exact ih hmore
    | fill => cases hl
  | @inside way _ _ _ e inner span he hclosed hl ih =>
    generalize hp : plan generateNode (.element e inner span) = p at h
    have hnode := congrArg Part.node hp
    cases h with
    | node n _ _ hbound =>
      obtain rfl : .element e inner span = n := by simpa using hnode
      cases hbound with
      | label hlabels => cases hlabels <;> simp_all [IsPlain]
      | closed => simp_all
      | opened _ _ _ _ _ hat hitems =>
        obtain ⟨hstates, hdeep⟩ := ih hitems
        rw [append_assoc] at hstates hdeep
        refine ⟨hstates, fun _ => ?_⟩
        cases way with
        | nil => exact ⟨_, _, _, hat⟩
        | cons i way => exact hdeep nofun
    | fill => simp at hnode

theorem Lone.of_root (hl : Lone s header body sole index items []) : sole = true := by
  generalize hw : [] = way at hl
  induction hl with
  | here => rfl
  | later _ _ ih => exact ih hw
  | inside => cases hw

/-- In every block, a loop without a label is given the element that holds it, or the root if it is
the whole body of a block that is said to be held by an element. -/
theorem lone_loops_anchored (hr : Runs s (generate body holder o) w b w') :
    ∃ lookups c, Plays o b lookups c ∧ ∀ header inner way,
      Lone s header inner (holder = .element && body.length == 1) 0
        (shownItems s (planAll generateNode body)) way →
      c.States s way (fun el => eachCode header (planAll generateNode inner) el true) ∧
        ((∃ tag close below, nodeAt? b.template way = some (.element tag close below)) ∨
          way = [] ∧ holder = .element ∧ body.length = 1) := by
  obtain ⟨lookups, c, ss, hplays, -, hitems⟩ := generate_bound hr
  refine ⟨lookups, c, hplays, fun header inner way hl => ?_⟩
  obtain ⟨hstates, hdeep⟩ := hitems.lone hl
  rw [← hplays.forest]
  refine ⟨hstates, ?_⟩
  cases way with
  | nil => exact .inr ⟨rfl, by simpa using hl.of_root⟩
  | cons i way => exact .inl (hdeep nofun)

/-- The default body of a slot, which is said to be held by an element. -/
theorem lone_loops_anchored_default :
    let row : List Node := [.text "\x7brow\x7d" ⟨19, 24⟩]
    let body : List Node := [.each "#each rows as row" row ⟨0, 31⟩]
    ∃ b w' lookups c, Runs sampleSetting (generate body .element {}) {} b w' ∧ b.template = [] ∧
      Plays {} b lookups c ∧ c.States sampleSetting [] fun el =>
        eachCode "#each rows as row" (planAll generateNode row) el true := by
  intro row body
  have hstart : ((generate body .element {}).start sampleSetting).1.toOption.map
      (·.template.isEmpty) = some true := by decide +kernel
  obtain ⟨b, w', hr, hempty⟩ := runs_of_start hstart
  obtain ⟨lookups, c, hplays, hall⟩ := lone_loops_anchored hr
  exact ⟨b, w', lookups, c, hr, by simpa using hempty, hplays, (hall _ _ _ (.here 0 ⟨0, 31⟩)).1⟩

/-! ## Labels as comments

A label has the header of its block as it is written.
-/

theorem infix_concat_ne {cs : List Char} (hc : c ≠ '>') :
    "-->".toList <:+: cs ++ [c] ↔ "-->".toList <:+: cs := by
  rw [infix_concat_iff, or_iff_right]
  intro hs
  have hlast := hs.getLast nofun
  exact hc (by simpa using hlast.symm)

theorem plainComment_label {text : String} :
    PlainComment ("<!-- " ++ text ++ " -->") ↔ ¬ "-->".toList <:+: text.toList := by
  have hend : "-->".toList <:+: text.toList ++ [' '] ++ ['-'] ++ ['-'] ↔
      "-->".toList <:+: text.toList := by
    iterate 3 rw [infix_concat_ne (by decide)]
  have hlabel : "-->".toList <:+: ("<!-- " ++ text ++ " -->").toList.dropLast ↔
      "-->".toList <:+: text.toList := by
    have hbody : ("<!-- " ++ text ++ " -->").toList.dropLast =
        '<' :: '!' :: '-' :: '-' :: ' ' :: (text.toList ++ [' '] ++ ['-'] ++ ['-']) := by
      have hsplit : ("<!-- " ++ text ++ " -->").toList =
          '<' :: '!' :: '-' :: '-' :: ' ' :: (text.toList ++ [' '] ++ ['-'] ++ ['-']) ++ ['>'] := by
        simp
      rw [hsplit, dropLast_concat]
    rw [← hend, hbody]
    simp [infix_cons_iff]
  constructor
  · exact fun h => mt hlabel.2 h.first
  · exact fun h => ⟨⟨' ' :: text.toList ++ " -->".toList, by simp⟩,
        ⟨"<!-- ".toList ++ text.toList ++ [' '], by simp⟩, mt hlabel.1 h⟩

/-- A placeholder of a block is one comment, whose first `-->` ends it, exactly if labels are hidden
or the text that it names its block by has no `-->`. -/
theorem labels_are_comments_iff {label : String} (h : NodeBound c s path n (.label label)) :
    ∃ text code, Labels n text code ∧
      (PlainComment label ↔ s.options.hideLabel = true ∨ ¬ "-->".toList <:+: text.toList) := by
  cases h with
  | label hlabels hyields =>
    refine ⟨_, _, hlabels, ?_⟩
    obtain ⟨v, v', hr⟩ := hyields
    simp only [labelText, runs_bind, runs_read, runs_pure] at hr
    obtain ⟨_, _, ⟨rfl, rfl⟩, rfl, rfl⟩ := hr
    split
    case isTrue hhide =>
      have hempty : PlainComment "<!---->" :=
        ⟨⟨"-->".toList, rfl⟩, ⟨"<!--".toList, rfl⟩, by simp [infix_cons_iff]⟩
      simp [hhide, hempty]
    case isFalse hhide => simp [plainComment_label, hhide]

/-- The condition `a-->b` counts `a` down. -/
theorem labels_are_comments_iff_countdown :
    let n : Node := .cond "#if a-->b" [.text "x" ⟨11, 12⟩] false [] ⟨0, 17⟩
    ∃ b w' c label, Runs sampleSetting (generate [n] .other {}) {} b w' ∧
      b.text = "<!-- #if a-->b -->" ∧ NodeBound c sampleSetting [0] n (.label label) ∧
      ¬ PlainComment label := by
  intro n
  have hstart : ((generate [n] .other {}).start sampleSetting).1.toOption.map Block.text =
      some "<!-- #if a-->b -->" := by decide +kernel
  obtain ⟨b, w', hr, htext⟩ := runs_of_start hstart
  obtain ⟨-, c, ss, -, -, hitems⟩ := generate_bound hr
  have hshown : shownItems sampleSetting (planAll generateNode [n]) =
    [.part (plan generateNode n)] := rfl
  rw [hshown] at hitems
  generalize hp : plan generateNode n = p at hitems
  have hnode := congrArg Part.node hp
  cases hitems with
  | node m _ _ hbound =>
    obtain rfl : .cond "#if a-->b" [.text "x" ⟨11, 12⟩] false [] ⟨0, 17⟩ = m := by simpa using hnode
    have hlabel := hbound
    cases hbound with
    | label =>
      obtain ⟨_, _, ⟨⟩, hiff⟩ := labels_are_comments_iff hlabel
      refine ⟨b, w', c, _, hr, htext, hlabel, ?_⟩
      have hinfix : "-->".toList <:+: "#if a-->b".toList := ⟨"#if a".toList, ['b'], by simp⟩
      exact fun hone => (hiff.1 hone).elim nofun (· hinfix)

end ReactiveMarkup.Template
