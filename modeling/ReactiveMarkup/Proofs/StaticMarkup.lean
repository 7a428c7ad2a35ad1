import ReactiveMarkup.Proofs.RoundTrip
import ReactiveMarkup.Proofs.Splices

/-! # Static markup

Markup in which nothing is computed: texts without braces, and elements with plain attributes.
-/

namespace ReactiveMarkup

open List hiding span

namespace Markup

/-! ## Trees without computed parts -/

def directiveLeads : List String := ["on:", "bind:", "use:", "style:", "class:"]

structure PlainName (n : String) : Prop where
  bare : BareName n
  mark : ∀ c ∈ ['@', ':', '*', '#'], n.toList.head? ≠ some c
  lead : ∀ l ∈ directiveLeads, ¬ l.toList <+: n.toList

instance (n : String) : Decidable (PlainName n) :=
  decidable_of_iff
    ((n.toList ≠ [] ∧ n.toList.all isNameChar = true) ∧
      (['@', ':', '*', '#'].all fun c => n.toList.head? != some c) = true ∧
      ∀ l ∈ directiveLeads, ¬ l.toList <+: n.toList)
    ⟨fun ⟨⟨hsome, hchars⟩, hmark, hlead⟩ => ⟨⟨hsome, hchars⟩, by simpa using hmark, hlead⟩,
      fun h => ⟨⟨h.bare.some, h.bare.chars⟩, by simpa using h.mark, h.lead⟩⟩

/-- A plain attribute: a name alone, or a name with a quoted value that has no braces. -/
inductive Attribute.Static : Attribute → Prop
  | bare : PlainName n → Attribute.Static ⟨n, none, n⟩
  | quoted : PlainName n → '"' ∉ v.toList → '\x7b' ∉ v.toList →
    Attribute.Static ⟨n, some v, n ++ "=\"" ++ v ++ "\""⟩

theorem lower_of_all {n : String} (h : n.toList.all (fun c => !c.isUpper) = true) :
    ∀ c ∈ n.toList, c.isUpper = false := by
  simpa using h

/-- An element of static markup. It is closed at once exactly when it is void. -/
structure Element.Static (e : Element) : Prop where
  name : isTagName e.name.toList = true
  lower : ∀ c ∈ e.name.toList, c.isUpper = false
  ordinary : e.name ∉ ["script", "style", "template", "component", "slot", "fragment"]
  arg : e.arg = none
  attributes : ∀ a ∈ e.attributes, a.Static
  void : e.void = voidNames.contains e.name
  closed : e.closed = e.void
  unscoped : e.classes = []

mutual

def Node.Static : Node → Prop
  | .element e body _ => e.Static ∧ (e.void = true → body = []) ∧ AllStatic body
  | .text v _ => '<' ∉ v.toList ∧ '\x7b' ∉ v.toList
  | _ => False

def AllStatic : List Node → Prop
  | [] => True
  | n :: ns => n.Static ∧ AllStatic ns

end

theorem AllStatic.mem (h : AllStatic ns) : ∀ n ∈ ns, n.Static := by
  induction ns with
  | nil => simp
  | cons m ns ih => exact forall_mem_cons.mpr ⟨h.1, ih h.2⟩

/-- Static markup as it is written: void elements end with a slash, all others have a close tag. -/
def canonical (ns : List Node) : String := printAll (fun _ => true) ns

/-! ## Reading -/

theorem Attribute.Static.written {a : Attribute} (h : a.Static) : a.Written := by
  cases h with
  | bare hn => exact .bare hn.bare
  | quoted hn hv _ => exact .quoted hn.bare hv

theorem Element.Static.written {e : Element} (h : e.Static) : e.Written where
  name := h.name
  ordinary := by
    have hname := h.ordinary
    unfold rawKind?
    split
    · next heq => simp [heq] at hname
    · next heq => simp [heq] at hname
    · next heq => simp [heq] at hname
    · rfl
  arg := by
    intro a ha
    rw [h.arg] at ha
    cases ha
  attributes := fun a ha => (h.attributes a ha).written
  void := h.void
  closed := fun hv => h.closed.trans hv
  unscoped := h.unscoped

theorem BareName.braceless (h : BareName n) : '\x7b' ∉ n.toList := by
  intro hm
  have hchar := all_eq_true.mp h.chars _ hm
  revert hchar
  decide

theorem plainText_of_static (h : (Node.text v s).Static) (hv : v ≠ "") : PlainText v where
  some := by simpa using hv
  plain := by
    refine ⟨h.1, fun m _ hin => h.2 ?_⟩
    exact hin.subset mem_cons_self

theorem tidy_text (hv : (Node.text v s).Static) (hw : AllWritten ms) (hs : AllStatic ms) :
    ∃ ms', AllWritten ms' ∧ AllStatic ms' ∧
      printAll (fun _ => true) ms' = v ++ printAll (fun _ => true) ms := by
  by_cases hempty : v = ""
  · exact ⟨ms, hw, hs, by rw [hempty, String.empty_append]⟩
  have halone : ms.head?.any Node.isText = false →
      ∃ ms', AllWritten ms' ∧ AllStatic ms' ∧
        printAll (fun _ => true) ms' = v ++ printAll (fun _ => true) ms := fun hnext =>
    ⟨.text v s :: ms, ⟨plainText_of_static hv hempty, fun _ => hnext, hw⟩, ⟨hv, hs⟩, rfl⟩
  match ms, hw, hs with
  | .text u t :: rest, ⟨_, hnext, hrest⟩, ⟨hu, hsrest⟩ =>
    have hjoined : (Node.text (v ++ u) t).Static := by
      simp only [Node.Static, String.toList_append, mem_append, not_or]
      exact ⟨⟨hv.1, hu.1⟩, ⟨hv.2, hu.2⟩⟩
    have hne : v ++ u ≠ "" := fun h => hempty (String.append_eq_empty_iff.mp h).1
    exact ⟨.text (v ++ u) t :: rest, ⟨plainText_of_static hjoined hne, hnext, hrest⟩,
      ⟨hjoined, hsrest⟩, String.append_assoc⟩
  | [], _, _ | .element .. :: _, _, _ => exact halone rfl

mutual

/-- Empty texts and texts side by side are not read again as they were. Static markup without them
is printed alike. -/
theorem Node.Static.tidy : ∀ n : Node, n.Static → n.isText = false →
    ∃ m : Node, m.Written ∧ m.Static ∧ m.isText = false ∧
      m.print (fun _ => true) = n.print (fun _ => true)
  | .element e body s, ⟨he, hv, hb⟩, _ => by
    obtain ⟨ms, hw, hs, hp⟩ := AllStatic.tidy body hb
    by_cases hc : e.closed = true
    · have hbody : body = [] := hv (he.closed ▸ hc)
      exact ⟨.element e [] s, ⟨he.written, fun _ => rfl, trivial⟩, ⟨he, fun _ => rfl, trivial⟩, rfl,
        by rw [hbody]⟩
    · refine ⟨.element e ms s, ⟨he.written, fun h => absurd h hc, hw⟩,
        ⟨he, fun h => absurd (he.closed.trans h) hc, hs⟩, rfl, ?_⟩
      rw [Node.print, Node.print, hp]

theorem AllStatic.tidy : ∀ ns : List Node, AllStatic ns →
    ∃ ms, AllWritten ms ∧ AllStatic ms ∧ printAll (fun _ => true) ms = printAll (fun _ => true) ns
  | [], _ => ⟨[], trivial, trivial, rfl⟩
  | n :: ns, ⟨hn, hns⟩ => by
    obtain ⟨ms, hw, hs, hp⟩ := AllStatic.tidy ns hns
    cases htext : n.isText with
    | false =>
      obtain ⟨m, hmw, hms, hmt, hmp⟩ := Node.Static.tidy n hn htext
      refine ⟨m :: ms, ⟨hmw, fun h => ?_, hw⟩, ⟨hms, hs⟩, by rw [printAll, printAll, hmp, hp]⟩
      rw [hmt] at h
      cases h
    | true =>
      cases n with
      | text v s =>
        obtain ⟨ms', hw', hs', hp'⟩ := tidy_text hn hw hs
        exact ⟨ms', hw', hs', by rw [hp', hp, printAll, Node.print]⟩
      | _ => cases htext

end

mutual

theorem Node.Static.of_forget : ∀ m n : Node, m.Static → n.forget = m.forget → n.Static ∧
    n.print (fun _ => true) = m.print (fun _ => true)
  | .text v s, n, hm, h => by
    cases n with
    | text v' s' =>
      cases h
      exact ⟨hm, rfl⟩
    | _ => cases h
  | .element e body s, n, ⟨he, hvoid, hbody⟩, h => by
    cases n with
    | element e' body' s' =>
      obtain ⟨id, name, arg, attributes, openTag, closed, void, classes⟩ := e
      obtain ⟨id', name', arg', attributes', openTag', closed', void', classes'⟩ := e'
      simp only [Node.forget, Node.element.injEq, Element.mk.injEq, true_and, and_true] at h
      obtain ⟨⟨rfl, rfl, rfl, rfl, rfl, rfl⟩, hforget⟩ := h
      obtain ⟨hs, hp⟩ := AllStatic.of_forget body body' hbody hforget
      refine ⟨⟨⟨he.name, he.lower, he.ordinary, he.arg, he.attributes, he.void, he.closed,
        he.unscoped⟩, fun hv => ?_, hs⟩, ?_⟩
      · rw [hvoid hv] at hforget
        cases body' with
        | nil => rfl
        | cons _ _ => cases hforget
      · rw [Node.print, Node.print, hp]
        rfl
    | _ => cases h
  | .comment .., _, hm, _ => hm.elim
  | .raw _, _, hm, _ => hm.elim
  | .each .., _, hm, _ => hm.elim
  | .cond .., _, hm, _ => hm.elim
  | .await .., _, hm, _ => hm.elim
  | .slot .., _, hm, _ => hm.elim
  | .fragment .., _, hm, _ => hm.elim
  | .sysTag .., _, hm, _ => hm.elim

theorem AllStatic.of_forget : ∀ ms ns : List Node, AllStatic ms → forgetAll ns = forgetAll ms →
    AllStatic ns ∧ printAll (fun _ => true) ns = printAll (fun _ => true) ms
  | [], ns, _, h => by
    cases ns with
    | nil => exact ⟨trivial, rfl⟩
    | cons _ _ => cases h
  | m :: ms, ns, ⟨hm, hms⟩, h => by
    cases ns with
    | nil => cases h
    | cons n ns =>
      rw [forgetAll, forgetAll, List.cons.injEq] at h
      obtain ⟨hn, hp⟩ := Node.Static.of_forget m n hm h.1
      obtain ⟨hns, hps⟩ := AllStatic.of_forget ms ns hms h.2
      exact ⟨⟨hn, hns⟩, by rw [printAll, printAll, hp, hps]⟩

end

theorem AllStatic.parse (h : AllStatic ns) :
    ∃ root, parse (canonical ns) = .ok root ∧ AllStatic root.body ∧
      canonical root.body = canonical ns := by
  obtain ⟨ms, hw, hs, hp⟩ := h.tidy
  have hgrows : Grows (canonical ns).toList ms [] := by
    rw [canonical, ← hp]
    exact grows_printAll _ ms hw [] (Or.inl rfl)
  obtain ⟨root, hparse, hforget⟩ := parse_of_grows hgrows
  obtain ⟨hbody, hprint⟩ := hs.of_forget ms root.body hforget
  exact ⟨root, hparse, hbody, hprint.trans hp⟩

end Markup

namespace Template

open Markup (Attribute Element Node AllStatic canonical printAll attributesText)

variable {s : Setting} {w : Work}

/-! ## Plain attributes -/

theorem braced?_eq_none (h : '\x7b' ∉ n.toList) : braced? n = none := by
  rw [braced?, Option.map_eq_none_iff]
  unfold Expression.unwrapChars
  split
  · next heq => exact absurd (heq ▸ mem_cons_self) h
  · rfl

theorem splitDirective?_eq_some (h : splitDirective? n = some (word, arg)) :
    n.toList = word.toList ++ ':' :: arg.toList ∧ word.toList ≠ [] := by
  unfold splitDirective? at h
  dsimp only at h
  split at h
  · next rest hrest =>
    split at h
    · cases h
    · next hne =>
      cases h
      have hsplit := take_append_drop (n.toList.takeWhile Text.isWord).length n.toList
      have htake := prefix_iff_eq_take.mp (List.takeWhile_prefix Text.isWord (l := n.toList))
      rw [hrest, ← htake] at hsplit
      rw [String.toList_ofList, String.toList_ofList]
      exact ⟨hsplit.symm, by simpa using hne⟩
  · cases h

theorem word_ne_of_plain (hn : Markup.PlainName n) (h : splitDirective? n = some (word, arg))
    (hl : (l ++ ":") ∈ Markup.directiveLeads) : word ≠ l := by
  rintro rfl
  refine hn.lead _ hl ?_
  rw [(splitDirective?_eq_some h).1, String.toList_append]
  exact ⟨arg.toList, by simp⟩

theorem after?_mark_eq_none (h : text.toList.head? ≠ some '#') : after? "#" text = none := by
  rw [Option.eq_none_iff_forall_ne_some]
  intro rest hrest
  simp [after?_eq_some.mp hrest] at h

/-- How a plain attribute is read: by its name, or by a word that is no directive and the rest. -/
structure ReadPlain (a : Attribute) (name : String) (argument : Option String) : Prop where
  directive : readDirective a = .ok { directive := .named name argument, value := a.value }
  unmarked : after? "#" name = none
  style : name = "style" → argument = none
  «class» : name = "class" → argument = none

theorem readPlain (hn : Markup.PlainName a.name) : ∃ name argument, ReadPlain a name argument := by
  have hbrace := hn.bare.braceless
  have hread : ∃ d, readDirective a = .ok { directive := d, value := a.value } ∧
      (splitDirective? a.name = none → d = .named a.name none) ∧
      ∀ word arg, splitDirective? a.name = some (word, arg) → word ≠ "on" → word ≠ "bind" →
        word ≠ "use" → d = .named word (some arg) := by
    unfold readDirective
    split
    · next rest heq => exact absurd (by rw [heq]; rfl) (hn.mark '@' (by simp))
    · next rest heq => exact absurd (by rw [heq]; rfl) (hn.mark ':' (by simp))
    · next rest heq => exact absurd (by rw [heq]; rfl) (hn.mark '*' (by simp))
    · split
      · next inner _ heq =>
        rw [braced?_eq_none hbrace] at heq
        cases heq
      · refine ⟨_, rfl, fun hsplit => by rw [hsplit], fun word arg hsplit hon hbind huse => ?_⟩
        rw [hsplit]
        split
        · next heq => exact absurd (Prod.mk.inj (Option.some.inj heq)).1 hon
        · next heq => exact absurd (Prod.mk.inj (Option.some.inj heq)).1 hbind
        · next heq => exact absurd (Prod.mk.inj (Option.some.inj heq)).1 huse
        · next heq =>
          cases heq
          rfl
        · next heq => cases heq
  obtain ⟨d, hread, hnone, hsome⟩ := hread
  have hmark : a.name.toList.head? ≠ some '#' := hn.mark '#' (by simp)
  cases hsplit : splitDirective? a.name with
  | none =>
    refine ⟨a.name, none, by rw [hread, hnone hsplit], after?_mark_eq_none hmark, fun _ => rfl,
      fun _ => rfl⟩
  | some parts =>
    obtain ⟨word, arg⟩ := parts
    obtain ⟨hname, hne⟩ := splitDirective?_eq_some hsplit
    have hword : ∀ l, l ++ ":" ∈ Markup.directiveLeads → word ≠ l := fun l hl =>
      word_ne_of_plain hn hsplit hl
    have hnamed := hsome word arg hsplit (hword "on" (by decide)) (hword "bind" (by decide))
      (hword "use" (by decide))
    refine ⟨word, some arg, by rw [hread, hnamed], after?_mark_eq_none ?_, ?_, ?_⟩
    · rw [hname] at hmark
      obtain ⟨c, cs, hcs⟩ := exists_cons_of_ne_nil hne
      rw [hcs] at hmark ⊢
      exact hmark
    · exact fun h => absurd h (hword "style" (by decide))
    · exact fun h => absurd h (hword "class" (by decide))

theorem runs_plainCode (hx : x.spread = none) (hv : value.any hasBrace = false) :
    Runs s (plainCode element x name value content) w { tag := some content } w := by
  unfold plainCode
  cases value with
  | none => simp [hx]
  | some v =>
    have hbrace : hasBrace v = false := hv
    simp [hx, hbrace]

theorem runs_attributeCode (hs : s.scope = none) (ha : a.Static) (element : Gen String)
    (e : Element) (hx : x.spread = none) :
    Runs s (attributeCode element e x a) w (({ tag := some a.content } : Bound), x) w := by
  have hn : Markup.PlainName a.name := by cases ha <;> assumption
  have hplain : a.value.any hasBrace = false := by
    cases ha with
    | bare _ => rfl
    | quoted _ _ hv => simpa [hasBrace] using hv
  obtain ⟨name, argument, hread⟩ := readPlain hn
  have hspread : spreadOf? a = none := by
    unfold spreadOf?
    rw [braced?_eq_none hn.bare.braceless]
    cases a.value <;> rfl
  have hcode : ∀ full, Runs s (do return (← plainCode element x full a.value a.content, x)) w
      (({ tag := some a.content } : Bound), x) w := fun full =>
    (runs_plainCode hx hplain).map
  unfold attributeCode
  simp only [hspread, hread.directive, liftFault, pure_bind, hread.unmarked]
  split
  · cases hread.style rfl
  · obtain rfl := hread.class rfl
    refine runs_bind.mpr ⟨s, w, runs_read.mpr ⟨rfl, rfl⟩, ?_⟩
    simp [hs, hplain]
  · exact hcode _
  · exact hcode _

theorem runs_generateAttributes (hs : s.scope = none) (path : List Nat) (e : Element)
    (ha : ∀ a ∈ attributes, a.Static) (hx : x.spread = none) :
    Runs s (generateAttributes path e attributes x) w (attributes.map (·.content), x) w := by
  induction attributes with
  | nil => exact runs_pure.mpr ⟨rfl, rfl⟩
  | cons a attributes ih =>
    have hfirst := runs_attributeCode (w := w) hs (ha a mem_cons_self) (nameAt path) e hx
    have hrest := ih fun b hb => ha b (.tail a hb)
    refine runs_bind.mpr ⟨_, w, hfirst, ?_⟩
    exact hrest.map

/-! ## Elements -/

theorem intercalate_attributes :
    " ".intercalate (first :: attributes.map (·.content)) = first ++ attributesText attributes := by
  induction attributes generalizing first with
  | nil => simp [attributesText]
  | cons a attributes ih =>
    rw [map_cons, String.intercalate_cons_cons, ih, attributesText]
    simp only [String.append_assoc]

theorem tagText_static (he : e.Static) (hx : x.classes = []) :
    tagText e (e.attributes.map (·.content)) x ++ (if e.void then "/>" else ">") =
      e.tagText fun _ => true := by
  unfold tagText Element.tagText
  simp only [hx, isEmpty_nil, if_true, append_nil, intercalate_attributes, he.arg,
    Markup.argText, he.closed, Bool.or_true, Bool.and_true, String.append_empty]

theorem runs_openSpread (he : e.Static) : Runs s (openSpread path e x) w x w := by
  have hnone : hasSpread e = false := by
    unfold hasSpread
    rw [any_eq_false]
    intro a ha hstart
    have hbrace : '\x7b' ∉ a.name.toList := by
      cases he.attributes a ha with
      | bare hn | quoted hn _ _ => exact hn.bare.braceless
    obtain ⟨rest, hrest⟩ := Option.isSome_iff_exists.mp hstart
    exact hbrace (by simp [after?_eq_some.mp hrest])
  unfold openSpread
  simp [hnone]

theorem unlabelled_static {e : Element} (he : e.Static) :
    e.isComponent = false ∧ (e.name == "slot") = false ∧ (e.name == "fragment") = false := by
  have hname := he.ordinary
  simp only [mem_cons, not_mem_nil, or_false, not_or] at hname
  have hupper : e.name.toList.head?.any Char.isUpper = false := by
    cases hn : e.name.toList with
    | nil => rfl
    | cons c cs => exact he.lower c (by rw [hn]; exact mem_cons_self)
  simp [Element.isComponent, hname, hupper]

/-! ## Bodies -/

/-- Items that leave their print in the template and do nothing else. -/
inductive Still (s : Setting) : List Item → String → Prop
  | nil : Still s [] ""
  | text : hasBrace v = false → Still s items t → Still s (.text v :: items) (v ++ t)
  | part : p.node = .element e body span → e.Static →
    (∀ place w, ∃ ss, Runs s (p.generate place) w ss w ∧ printStatic ss = u) → Still s items t →
    Still s (.part p :: items) (u ++ t)

theorem Still.generateItems (h : Still s items t) (index : Nat) :
    ∃ ss, Runs s (generateItems path onlyChild index items) w ss w ∧ printStatic ss = t := by
  induction h generalizing index with
  | nil => exact ⟨[], runs_pure.mpr ⟨rfl, rfl⟩, rfl⟩
  | @text v t items hv _ ih =>
    obtain ⟨ss, hr, hp⟩ := ih (index + 1)
    refine ⟨.text v :: ss, ?_, by rw [printStatic, Static.print, hp]⟩
    refine runs_bind.mpr ⟨[.text v], w, ?_, hr.map⟩
    simp [bindText, hv]
  | @part p _ _ _ t u items _ _ hpart _ ih =>
    obtain ⟨here, hhere, hu⟩ := hpart ⟨path ++ [index], onlyChild⟩ w
    obtain ⟨ss, hr, hp⟩ := ih (index + 1)
    refine ⟨here ++ ss, ?_, by rw [printStatic_append, hu, hp]⟩
    exact runs_bind.mpr ⟨here, w, runs_explain.mpr hhere, hr.map⟩

theorem Still.endsInLabel (h : Still s items t) (onlyChild : Bool) :
    endsInLabel onlyChild items = false := by
  unfold Template.endsInLabel
  induction h with
  | nil => rfl
  | text _ _ ih => exact ih
  | part hnode he _ _ ih =>
    obtain ⟨hcomponent, hslot, hfragment⟩ := unlabelled_static he
    rw [foldl_cons]
    simp only [labelAfter, hnode, hcomponent, hslot, hfragment, Bool.or_false]
    exact ih

theorem Still.addText (h : Still s items t) (hv : hasBrace v = false) (hp : p.node = .text v span) :
    Still s (addItem p items) (v ++ t) := by
  unfold addItem
  rw [hp]
  cases h with
  | nil => exact .text hv .nil
  | @text u t items hu h =>
    have hjoined : hasBrace (v ++ u) = false := by
      simpa [hasBrace] using ⟨by simpa [hasBrace] using hv, by simpa [hasBrace] using hu⟩
    rw [← String.append_assoc]
    exact .text hjoined h
  | part hnode he hpart h => exact .text hv (.part hnode he hpart h)

theorem runs_openStatic (h : AllStatic ns) :
    Runs s (openBody (planAll generateNode ns)) w (itemsOf (planAll generateNode ns)) w := by
  have hkinds : ∀ p ∈ planAll generateNode ns, isFragment p.node = false ∧
      ∀ keep, isHidden keep p.node = false := by
    intro p hp
    obtain ⟨n, hn, rfl⟩ := mem_planAll.mp hp
    have hstatic := h.mem n hn
    cases n with
    | element e body span | text v span => exact ⟨rfl, fun _ => rfl⟩
    | _ => exact hstatic.elim
  have hnone : (planAll generateNode ns).filter (fun p => isFragment p.node) = [] := by
    rw [filter_eq_nil_iff]
    intro p hp
    simp [(hkinds p hp).1]
  have hall : ∀ keep, (planAll generateNode ns).filter (fun p => !isHidden keep p.node) =
      planAll generateNode ns := by
    intro keep
    rw [filter_eq_self]
    intro p hp
    simp [(hkinds p hp).2 keep]
  refine runs_openBody.mpr ⟨?_, by rw [shownItems, hall]⟩
  unfold defineFragments
  rw [hnone]
  exact runs_pure.mpr ⟨rfl, rfl⟩

theorem runs_generateTag (he : e.Static) (h : Runs s (generateElement place.path e parts) w st w) :
    Runs s (generateTag e parts place) w [st] w := by
  obtain ⟨hcomponent, hslot, hfragment⟩ := unlabelled_static he
  unfold generateTag
  simp only [hcomponent, hslot, hfragment, Bool.false_eq_true, if_false]
  exact h.map

theorem runs_generateElement (hs : s.scope = none) (he : e.Static)
    (hbody : ∃ ss, Runs s (generateBody path parts) w ss w ∧ printStatic ss = t) :
    ∃ st, Runs s (generateElement path e parts) w st w ∧
      st.print = e.tagText (fun _ => true) ++ if e.closed then "" else t ++ "</" ++ e.name ++ ">" := by
  have hattributes := runs_generateAttributes (w := w) hs path e he.attributes
    (x := { classes := e.classes }) rfl
  have htag := tagText_static he (x := { classes := e.classes }) he.unscoped
  unfold generateElement
  cases hclosed : e.closed with
  | true =>
    rw [he.closed.symm.trans hclosed] at htag
    refine ⟨.element (tagText e (e.attributes.map (·.content)) { classes := e.classes } ++ "/>") "" [],
      runs_bind.mpr ⟨_, w, runs_openSpread he, runs_bind.mpr ⟨_, w, hattributes, ?_⟩⟩, ?_⟩
    · exact runs_pure.mpr ⟨by simp [he.closed.symm.trans hclosed], rfl⟩
    · rw [Static.print, printStatic]
      simpa using htag
  | false =>
    obtain ⟨ss, hrun, rfl⟩ := hbody
    rw [he.closed.symm.trans hclosed] at htag
    refine ⟨.element (tagText e (e.attributes.map (·.content)) { classes := e.classes } ++ ">")
        ("</" ++ e.name ++ ">") ss,
      runs_bind.mpr ⟨_, w, runs_openSpread he, runs_bind.mpr ⟨_, w, hattributes, ?_⟩⟩, ?_⟩
    · exact hrun.map
    · rw [Static.print, ← htag]
      simp [String.append_assoc]

mutual

theorem generates_element (hs : s.scope = none) : ∀ n : Node, n.Static → n.isText = false →
    ∀ place w, ∃ ss, Runs s ((plan generateNode n).generate place) w ss w ∧
      printStatic ss = n.print fun _ => true
  | .element e body span, ⟨he, _, hbody⟩, _, place, w => by
    have hstill := still_items hs body hbody
    obtain ⟨ss, hitems, hprint⟩ := hstill.generateItems 0
    have hrun : Runs s (generateBody place.path (planAll generateNode body)) w ss w :=
      runs_bind.mpr ⟨_, w, runs_openStatic hbody, hitems⟩
    obtain ⟨st, helement, hst⟩ := runs_generateElement hs he ⟨ss, hrun, hprint⟩
    refine ⟨[st], runs_generateTag he helement, ?_⟩
    rw [printStatic, printStatic, String.append_empty, hst, Node.print]

theorem still_items (hs : s.scope = none) : ∀ ns : List Node, AllStatic ns →
    Still s (itemsOf (planAll generateNode ns)) (printAll (fun _ => true) ns)
  | [], _ => .nil
  | n :: ns, ⟨hn, hns⟩ => by
    have hrest := still_items hs ns hns
    rw [printAll]
    cases htext : n.isText with
    | true =>
      cases n with
      | text v span => exact hrest.addText (by simpa [hasBrace] using hn.2) rfl
      | _ => cases htext
    | false =>
      cases n with
      | element e body span => exact .part rfl hn.1 (generates_element hs _ hn rfl) hrest
      | text v span => cases htext
      | _ => exact hn.elim

end

/-! ## Blocks -/

theorem runs_buildStatic (hs : s.scope = none) (h : AllStatic ns) (holder : Holder)
    (o : BlockOptions) (w : Work) :
    ∃ block, Runs s (generate ns holder o) w block w ∧ block.text = canonical ns ∧
      block.binder = "$runtime.noop" ∧ block.source = "" := by
  have hstill := still_items hs ns h
  have hends := hstill.endsInLabel (holder = .element && (planAll generateNode ns).length == 1)
  obtain ⟨ss, hitems, hprint⟩ := hstill.generateItems 0
  refine ⟨⟨"$runtime.noop", ss, "", isSvg (itemsOf (planAll generateNode ns))⟩, ?_, hprint, rfl, rfl⟩
  refine runs_bind.mpr ⟨w, w, runs_get.mpr ⟨rfl, rfl⟩, runs_bind.mpr ⟨(), _, runs_set.mpr rfl, ?_⟩⟩
  refine runs_bind.mpr ⟨_, _, runs_openStatic h, runs_bind.mpr ⟨ss, _, hitems, ?_⟩⟩
  refine runs_bind.mpr ⟨_, _, runs_get.mpr ⟨rfl, rfl⟩, ?_⟩
  rw [hends]
  exact runs_bind.mpr ⟨(), w, runs_set.mpr rfl, runs_pure.mpr ⟨rfl, rfl⟩⟩

/-- Static markup compiles to itself: what is written is read, and without a style scope the block
of what is read has the written text for its template. The block binds nothing and takes no name. -/
theorem static_compiles_to_itself (ns : List Node) (h : AllStatic ns) (s : Setting)
    (hs : s.scope = none) (holder : Holder) (o : BlockOptions) (w : Work) :
    ∃ root block, Markup.parse (canonical ns) = .ok root ∧
      Runs s (generate root.body holder o) w block w ∧ block.text = canonical ns ∧
      block.binder = "$runtime.noop" ∧ block.source = "" := by
  obtain ⟨root, hparse, hstatic, hprint⟩ := h.parse
  obtain ⟨block, hrun, htext, hidle⟩ := runs_buildStatic hs hstatic holder o w
  exact ⟨root, block, hparse, hrun, htext.trans hprint, hidle⟩

def plainBody : List Node :=
  [.element
    (sampleTag "p" [⟨"class", some "note", "class=\"note\""⟩, ⟨"data:on", none, "data:on"⟩])
    [.text "" ⟨0, 0⟩, .text "a" ⟨0, 0⟩, .text " b\x7d " ⟨0, 0⟩,
      .element { sampleTag "br" [] with closed := true, void := true } [] ⟨0, 0⟩,
      .element (sampleTag "i" []) [] ⟨0, 0⟩] ⟨0, 0⟩]

theorem static_compiles_to_itself_plainBody :
    AllStatic plainBody ∧ ∃ root block,
      Markup.parse (canonical plainBody) = .ok root ∧
      Runs sampleSetting (generate root.body .other {}) {} block {} ∧
      block.text = "<p class=\"note\" data:on>a b\x7d <br/><i></i></p>" ∧
      block.binder = "$runtime.noop" ∧ block.source = "" := by
  have hstatic : AllStatic plainBody := by
    have hattributes : ∀ a ∈ ([⟨"class", some "note", "class=\"note\""⟩,
        ⟨"data:on", none, "data:on"⟩] : List Attribute), a.Static := by
      simp only [List.forall_mem_cons, List.not_mem_nil, false_imp_iff, implies_true, and_true]
      exact ⟨.quoted (n := "class") (v := "note") (by decide) (by decide) (by decide),
        .bare (by decide)⟩
    exact ⟨⟨⟨by decide, Markup.lower_of_all (by decide), by decide, rfl, hattributes, by decide, rfl,
      rfl⟩, fun h => Bool.noConfusion h,
      ⟨by decide, by decide⟩, ⟨by decide, by decide⟩, ⟨by decide, by decide⟩,
      ⟨⟨by decide, Markup.lower_of_all (by decide), by decide, rfl, by simp [sampleTag], by decide,
        rfl, rfl⟩, fun _ => rfl, trivial⟩,
      ⟨⟨by decide, Markup.lower_of_all (by decide), by decide, rfl, by simp [sampleTag], by decide,
        rfl, rfl⟩, fun _ => rfl, trivial⟩, trivial⟩, trivial⟩
  have h := static_compiles_to_itself plainBody hstatic sampleSetting rfl .other {} {}
  exact ⟨hstatic, h⟩

end Template

end ReactiveMarkup
