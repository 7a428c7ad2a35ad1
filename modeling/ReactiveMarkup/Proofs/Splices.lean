import Mathlib.Data.List.Forall2
import ReactiveMarkup.Proofs.Addresses
import ReactiveMarkup.Proofs.TemplateLiteral

/-! # Text spliced into code

The expressions of events and the values of attributes are written into the code of a block, as they
are or escaped for a template literal. A name in braces is short for an attribute of that name.
-/

namespace ReactiveMarkup.Template

open List hiding span

open Interpolation (Escape backquote readLiteral)
open Markup (Attribute Element Node)

def Setting.escape (s : Setting) : Escape :=
  if s.options.inlineTemplate then .inline else .template

def Unescaped (e : Escape) (cs : List Char) : Prop :=
  '\\' ∉ cs ∧ backquote ∉ cs ∧ ¬ ['$', '\x7b'] <:+: cs ∧ (e = .inline → '\n' ∉ cs)

theorem unescaped_cons {e : Escape} :
    Unescaped e (c :: cs) ↔ e.one c cs = [c] ∧ Unescaped e cs := by
  have hdollar : ['$', '\x7b'] <:+: c :: cs ↔
      c = '$' ∧ cs.head? = some '\x7b' ∨ ['$', '\x7b'] <:+: cs := by
    rw [infix_cons_iff, cons_prefix_cons]
    cases cs with
    | nil => simp
    | cons d ds => rw [cons_prefix_cons]; simp [@eq_comm _ '$', @eq_comm _ '\x7b']
  simp only [Unescaped, hdollar, mem_cons, Escape.one, not_or]
  grind

theorem one_cases (e : Escape) (c : Char) (cs : List Char) :
    e.one c cs = [c] ∨ ∃ d, (d = c ∨ d = 'n') ∧ e.one c cs = ['\\', d] := by
  unfold Escape.one
  grind

theorem length_chars (e : Escape) (cs : List Char) : cs.length ≤ (e.chars cs).length := by
  induction cs with
  | nil => exact Nat.le_refl _
  | cons c cs ih =>
    rw [Escape.chars_cons]
    rcases one_cases e c cs with h | ⟨d, -, h⟩ <;> simp [h] <;> omega

theorem chars_eq_self : e.chars cs = cs ↔ Unescaped e cs := by
  induction cs with
  | nil => simp [Escape.chars, Unescaped]
  | cons c cs ih =>
    rw [unescaped_cons, ← ih, Escape.chars_cons]
    rcases one_cases e c cs with h | ⟨d, -, h⟩
    · simp [h]
    · have := length_chars e cs
      refine iff_of_false (fun heq => ?_) (by simp [h])
      have := congrArg List.length heq
      simp [h] at this
      omega

theorem apply_eq_self (e : Escape) (t : String) : e.apply t = t ↔ Unescaped e t.toList := by
  rw [← chars_eq_self, Escape.apply, ← String.toList_inj, String.toList_ofList]

/-! ## Expressions of events -/

theorem unwrapChars_braces (t : String) :
    Expression.unwrapChars ('\x7b' :: (t.toList ++ ['\x7d'])) = some t.toList := by
  simp [Expression.unwrapChars]

def aroundElement (exp el : String) (code : String → String) : String :=
  if mentionsElement exp then s!"\x7b\nlet $element={el};\n" ++ code "$element" ++ "\n\x7d"
  else code el

section Runs

variable {s : Setting} {w w' : Work}

theorem runs_map {f : α → β} {g : Gen α} :
    Runs s (f <$> g) w b w' ↔ ∃ a, Runs s g w a w' ∧ b = f a := by
  rw [map_eq_pure_bind, runs_bind]
  simp

theorem runs_quoted : Runs s (quoted t) w a w' ↔ a = s.escape.apply t ∧ w' = w := runs_of_run rfl

theorem runs_liftFault {r : Except Fault α} :
    Runs s (liftFault r) w a w' ↔ r = .ok a ∧ w' = w := by
  cases r <;> simp [liftFault, eq_comm]

theorem withElement_eq_map :
    withElement exp element code = (aroundElement exp · code) <$> element := by
  simp [withElement, aroundElement]

theorem runs_callbackOf (hk : s.kindOf exp = none) : Runs s (callbackOf exp) w t w' ↔
    t = "($event) => \x7b" ++ s.escape.apply exp ++ "\x7d" ∧ w' = w := by
  simp [callbackOf, runs_bind, hk, runs_map, runs_quoted, and_comm]

theorem unwrap_braces : unwrap ("\x7b" ++ t ++ "\x7d") = pure t := by
  have hne : ("\x7b" ++ t ++ "\x7d").isEmpty = false := by simp
  simp [unwrap, Expression.unwrap, hne, unwrapChars_braces]

theorem expressionOf_braces (ht : t ≠ "") :
    expressionOf (some ("\x7b" ++ t ++ "\x7d")) content = pure t := by
  simp [expressionOf, braced?, unwrapChars_braces, require, ht]

theorem after?_eq_some : after? lead t = some rest ↔ t = lead ++ rest := by
  rw [after?, ← String.toList_inj, String.toList_append]
  split
  · next h =>
    obtain ⟨tail, ht⟩ := isPrefixOf_iff_prefix.mp h
    simp [← ht, ← String.toList_inj, ← String.length_toList]
  · next h =>
    refine iff_of_false (by simp) fun ht => h (List.isPrefixOf_iff_prefix.mpr ⟨_, ht.symm⟩)

theorem eventOf?_name (h : eventOf? a = some spec) :
    a.name = "@" ++ spec ∨ a.name = "on:" ++ spec := by
  unfold eventOf? at h
  cases hat : after? "@" a.name with
  | some t =>
    rw [hat] at h
    exact .inl (after?_eq_some.mp (hat.trans h))
  | none =>
    rw [hat] at h
    exact .inr (after?_eq_some.mp h)

theorem readDirective_event (h : eventOf? a = some spec) (hv : a.value = some v) :
    readDirective a = .ok { directive := .event spec, value := some v } := by
  have hword : Text.isWord ':' = false ∧ Text.isWord 'o' ∧ Text.isWord 'n' := by decide
  rcases eventOf?_name h with hname | hname
  · simp [readDirective, hname, hv]
  · simp [readDirective, hname, hv, splitDirective?, hword]

/-- On an element the statement of the handler is the expression as it stands. On a component and a
fragment it is escaped as if it stood in a template literal. -/
theorem event_statement (h : eventOf? a = some spec)
    (hv : a.value = some ("\x7b" ++ exp ++ "\x7d")) (hk : s.kindOf exp = none)
    (hexp : exp ≠ "") (hspec : spec ≠ "@") (hparts : directiveParts spec = event :: options) :
    (∀ element e x r, Runs s (attributeCode element e x a) w r w' ↔
      event ≠ "" ∧ ∃ m el, modifiersCode options = .ok m ∧ Runs s element w el w' ∧
        r = ({ code := some (aroundElement exp el fun target =>
          eventCall target event s!"{m} {exp}; $$apply();") }, x)) ∧
    (∀ i i', Runs s (addAttribute a i) w i' w' ↔
      event ≠ "" ∧ options = [] ∧ w' = w ∧
        i' = i.addEvent event ("($event) => \x7b" ++ s.escape.apply exp ++ "\x7d")) ∧
    (∀ t, Runs s (fragmentEvent spec a) w t w' ↔ ∃ name,
      (splitChars (· == ':') spec).headD "" = name ∧ Expression.isSimpleName name ∧ w' = w ∧
        t = s!"events.{name} = " ++ ("($event) => \x7b" ++ s.escape.apply exp ++ "\x7d") ++ ";") ∧
    (s.escape.apply exp = exp ↔ Unescaped s.escape exp.toList) := by
  refine ⟨?_, ?_, ?_, apply_eq_self _ _⟩
  · intro element e x r
    have hspread : spreadOf? a = none := by simp [spreadOf?, hv]
    simp only [attributeCode, hspread, readDirective_event h hv, liftFault, pure_bind]
    simp [eventCode, hspec, hparts, expressionOf_braces hexp, expressionHandler, runs_bind,
      hk, runs_map, runs_liftFault, withElement_eq_map, and_assoc]
  · intro i i'
    have hmark : after? "#" a.name = none := by
      rcases eventOf?_name h with hname | hname <;> simp [hname, after?]
    have hopen : startsWith "\x7b" a.name = false := by
      rcases eventOf?_name h with hname | hname <;> simp [hname, startsWith, after?]
    simp [addAttribute, hmark, hopen, h, addComponentEvent, hv, hparts, unwrap_braces, runs_bind,
      runs_map, runs_callbackOf hk, and_assoc]
  · intro t
    simp [fragmentEvent, hspec, hv, unwrap_braces, runs_bind, runs_map, runs_callbackOf hk,
      and_assoc]

/-- A call with a template literal in it: its backquotes are escaped outside elements. -/
theorem event_statement_call :
    let a : Attribute := .plain "@click" (some "\x7bgo(\x60a\x60)\x7d")
    Runs sampleSetting (addAttribute a {}) {}
      (({} : Invocation).addEvent "click" "($event) => \x7bgo(\\\x60a\\\x60)\x7d") {} := by
  intro a
  have hv : a.value = some ("\x7b" ++ "go(\x60a\x60)" ++ "\x7d") := by decide
  have hk : sampleSetting.kindOf "go(\x60a\x60)" = none := by decide +kernel
  have hparts : directiveParts "click" = ["click"] := by decide
  have hcode : "($event) => \x7b" ++ sampleSetting.escape.apply "go(\x60a\x60)" ++ "\x7d" =
      "($event) => \x7bgo(\\\x60a\\\x60)\x7d" := by decide
  refine ((event_statement (by decide) hv hk (by decide) (by decide) hparts).2.1 _ _).mpr ?_
  exact ⟨by decide, rfl, rfl, by rw [hcode]⟩

/-! ## Values of attributes -/

/-- The characters that do not stand for themselves in a string literal. -/
def quoteBreakers : List Char := ['\x27', '\\', '\n', '\r']

variable (stands : List Char → List Char → Prop) in
/-- A string literal after its opening quote: what it stands for, and what follows it. `stands` says
what escape sequences stand for. -/
inductive StringLiteral : List Char → List Char → List Char → Prop
  | close : StringLiteral ('\x27' :: rest) [] rest
  | char (hc : c ∉ quoteBreakers) (h : StringLiteral cs v rest) :
    StringLiteral (c :: cs) (c :: v) rest
  | escape (hx : stands xs x) (h : StringLiteral cs v rest) :
    StringLiteral ('\\' :: xs ++ cs) (x ++ v) rest

theorem StringLiteral.plain (hstands : ∀ xs x, stands xs x → x.length ≤ xs.length)
    (h : StringLiteral stands cs v rest) : v.length + rest.length < cs.length ∧
      (cs.length = v.length + rest.length + 1 → ∀ c ∈ v, c ∉ quoteBreakers) := by
  induction h with
  | close => simp
  | char hc h ih =>
    refine ⟨by simp; omega, fun hl => ?_⟩
    exact forall_mem_cons.mpr ⟨hc, ih.2 (by simp at hl; omega)⟩
  | escape hx h ih =>
    have := hstands _ _ hx
    refine ⟨by simp; omega, fun hl => ?_⟩
    simp at hl
    omega

theorem stringLiteral_self (hstands : ∀ xs x, stands xs x → x.length ≤ xs.length) :
    StringLiteral stands (v ++ '\x27' :: rest) v rest ↔ ∀ c ∈ v, c ∉ quoteBreakers := by
  refine ⟨fun h => (h.plain hstands).2 (by simp; omega), fun h => ?_⟩
  induction v with
  | nil => exact .close
  | cons c v ih =>
    obtain ⟨hc, hv⟩ := forall_mem_cons.mp h
    exact .char hc (ih hv)

/-- The line ends of a source, as a template literal has them. -/
def lineFeeds : List Char → List Char
  | [] => []
  | c :: cs =>
    if c = '\r' then if cs.head? = some '\n' then lineFeeds cs else '\n' :: lineFeeds cs
    else c :: lineFeeds cs

theorem return_not_mem_lineFeeds (cs : List Char) : '\r' ∉ lineFeeds cs := by
  fun_induction lineFeeds cs <;> simp_all [eq_comm]

theorem lineFeeds_append (h : '\r' ∉ cs) : lineFeeds (cs ++ t) = cs ++ lineFeeds t := by
  induction cs with
  | nil => rfl
  | cons c cs ih => grind [lineFeeds]

theorem return_not_mem_readLiteral (h : '\r' ∉ cs) : '\r' ∉ (readLiteral cs).1 := by
  fun_induction readLiteral cs <;> simp_all [Interpolation.taken]
  split <;> simp_all

theorem return_not_mem_chars {e : Escape} (h : '\r' ∉ cs) : '\r' ∉ e.chars cs := by
  induction cs with
  | nil => exact h
  | cons c cs ih =>
    rw [Escape.chars_cons]
    rcases one_cases e c cs with hone | ⟨d, hd, hone⟩ <;> grind

theorem readLiteral_lineFeeds (e : Escape) (v rest : List Char) :
    readLiteral (lineFeeds (e.chars v ++ backquote :: rest)) = (v, .closed (lineFeeds rest)) ↔
      '\r' ∉ v := by
  constructor
  · intro h
    have := return_not_mem_readLiteral (return_not_mem_lineFeeds (e.chars v ++ backquote :: rest))
    rwa [h] at this
  · intro h
    rw [lineFeeds_append (return_not_mem_chars h), lineFeeds, if_neg (by decide),
      Interpolation.readLiteral_chars e v (by simp [backquote]), Interpolation.readLiteral_closed,
      append_nil]

theorem startsWith_eq_false : startsWith lead t = false ↔ ∀ rest, t ≠ lead ++ rest := by
  simp [startsWith, Option.eq_none_iff_forall_ne_some, after?_eq_some]

theorem startsWith_simpleName (h : Expression.isSimpleName n) : startsWith "\x7b" n = false := by
  rw [startsWith_eq_false]
  rintro rest rfl
  have hbrace : Expression.isPathChar '\x7b' = false := by decide
  simp [Expression.isSimpleName, hbrace] at h

theorem startsWith_brace (h : hasBrace v = false) : startsWith "\x7b" v = false := by
  rw [startsWith_eq_false]
  rintro rest rfl
  simp [hasBrace] at h

theorem runs_longForm (ha : a.value = some v) : Runs s (longForm a) w p w' ↔
    startsWith "\x7b" a.name = false ∧ p = (a.name, v) ∧ w' = w := by
  rw [longForm]
  cases startsWith "\x7b" a.name <;> simp [ha, runs_bind]

/-- A value without braces goes to a spread in a string literal, which stands for it only if nothing
in it breaks the literal. Components, fragments and slots get a template literal. -/
theorem static_value (hv : hasBrace v = false)
    (hstands : ∀ xs x, stands xs x → x.length ≤ xs.length) :
    (∀ element x spread name content r, x.spread = some spread →
      (Runs s (plainCode element x name (some v) content) w r w' ↔
        w' = w ∧ r = { code := some s!"{spread}.attr('{name}', '{v}');" })) ∧
    (∀ name i i', Runs s (addProperty name (some v) i) w i' w' ↔
      Expression.isSimpleName name ∧ w' = w ∧ i' = (i.writeProperty .fixed).addHead
        (s!"{(i.writeProperty .fixed).target}.{name} = " ++ backquoted (s.escape.apply v) ++ ";")) ∧
    (∀ a t, a.value = some v → (Runs s (fragmentArgument a) w t w' ↔
      Expression.isSimpleName a.name ∧ w' = w ∧
        t = s!"args.{a.name} = " ++ backquoted (s.escape.apply v) ++ ";")) ∧
    (∀ a t, a.value = some v → (Runs s (slotArgument a) w t w' ↔
      Expression.isSimpleName a.name ∧ w' = w ∧ t = s!"if('set_{a.name}' in s) s.set_{a.name}(" ++
        backquoted (s.escape.apply v) ++ ");")) ∧
    (∀ rest, StringLiteral stands (v.toList ++ '\x27' :: rest) v.toList rest ↔
      ∀ c ∈ v.toList, c ∉ quoteBreakers) ∧
    (∀ rest, readLiteral (lineFeeds ((s.escape.apply v).toList ++ backquote :: rest)) =
      (v.toList, .closed (lineFeeds rest)) ↔ '\r' ∉ v.toList) := by
  refine ⟨?_, ?_, ?_, ?_, fun _ => stringLiteral_self hstands, fun rest => ?_⟩
  · intro element x spread name content r hx
    simp [plainCode, hv, hx, and_comm]
  · intro name i i'
    simp [addProperty, hv, runs_bind, runs_map, runs_quoted, and_assoc]
  · intro a t ha
    simp +contextual [fragmentArgument, runs_bind, runs_longForm ha, startsWith_simpleName, hv,
      runs_map, runs_quoted, and_assoc]
  · intro a t ha
    simp +contextual [slotArgument, runs_bind, runs_longForm ha, startsWith_simpleName,
      startsWith_brace hv, runs_map, runs_quoted, and_assoc]
  · rw [Escape.apply, String.toList_ofList]
    exact readLiteral_lineFeeds _ _ _

/-- An apostrophe closes the literal of a spread, and no other. -/
theorem static_value_apostrophe :
    hasBrace "it's" = false ∧
      ¬ StringLiteral Eq ("it's".toList ++ ['\x27']) "it's".toList [] ∧
      readLiteral (lineFeeds ((sampleSetting.escape.apply "it's").toList ++ [backquote])) =
        ("it's".toList, .closed []) := by
  have hv : hasBrace "it's" = false := by decide
  obtain ⟨-, -, -, -, hquote, hliteral⟩ :=
    @static_value sampleSetting {} {} "it's" Eq hv fun _ _ h => h ▸ Nat.le_refl _
  exact ⟨hv, fun h => (hquote []).mp h '\x27' (by decide) (by decide),
    (hliteral []).mpr (by decide)⟩

end Runs

/-! ## Short forms -/

def IsIdentifier (n : String) : Prop := n ≠ "" ∧ ∀ c ∈ n.toList, Expression.isPathChar c

def shortForm (n content : String) : Attribute := ⟨"\x7b" ++ n ++ "\x7d", none, content⟩

def fullForm (n content : String) : Attribute := ⟨n, some ("\x7b" ++ n ++ "\x7d"), content⟩

def attach (e : Element) (openTag : String) (attributes : List Attribute) : Element :=
  { e with openTag, attributes }

section Forms

variable {n content content' : String} (hn : IsIdentifier n)

include hn

theorem IsIdentifier.after?_eq_none
    (hl : lead.toList.any fun c => !Expression.isPathChar c) : after? lead n = none := by
  rw [Option.eq_none_iff_forall_ne_some]
  intro rest h
  obtain rfl := after?_eq_some.mp h
  obtain ⟨c, hc, hp⟩ := any_eq_true.mp hl
  simp [hn.2 c (by simp [hc])] at hp

theorem readDirective_fullForm : readDirective (fullForm n content) =
    .ok { directive := .named n none, value := (fullForm n content).value } := by
  have hsplit : splitDirective? n = none := by
    unfold splitDirective?
    dsimp only
    split
    · next h => cases hn.2 ':' (mem_of_mem_drop (h ▸ mem_cons_self))
    · rfl
  unfold readDirective
  split
  · next h => cases hn.2 '@' (h ▸ mem_cons_self)
  · next h => cases hn.2 ':' (h ▸ mem_cons_self)
  · next h => cases hn.2 '*' (h ▸ mem_cons_self)
  · simp [fullForm, hsplit]

theorem attributeCode_shortForm (hclass : n ≠ "class") (element : Gen String) (e : Element)
    (x : ElementWork) : attributeCode element e x (shortForm n content) =
      attributeCode element e x (fullForm n content') := by
  have hdots : after? "..." n = none := hn.after?_eq_none (by decide)
  have hmark : after? "#" n = none := hn.after?_eq_none (by decide)
  have hshort : spreadOf? (shortForm n content) = none := by
    simp [spreadOf?, shortForm, braced?, unwrapChars_braces, hdots]
  have hfull : spreadOf? (fullForm n content') = none := by simp [spreadOf?, fullForm]
  have hread : readDirective (shortForm n content) =
      .ok { directive := .named n none, value := (fullForm n content').value } := by
    simp [readDirective, shortForm, fullForm, braced?, unwrapChars_braces]
  simp only [attributeCode, hshort, hfull, hread, readDirective_fullForm hn, liftFault, pure_bind,
    hmark]
  simp [plainCode, fullForm, hasBrace]

theorem not_spread : after? "\x7b..." ("\x7b" ++ n ++ "\x7d") = none := by
  cases hcs : n.toList with
  | nil => exact absurd (String.toList_eq_nil_iff.mp hcs) hn.1
  | cons c cs =>
    have hc : '.' ≠ c := by
      rintro rfl
      cases hn.2 '.' (hcs ▸ mem_cons_self)
    simp [after?, hcs, hc]

end Forms

theorem generateAttributes_congr (h : List.Forall₂ (fun a a' => ∀ x,
      attributeCode (nameAt path) e x a = attributeCode (nameAt path) e' x a') as as') :
    generateAttributes path e as = generateAttributes path e' as' := by
  induction h with
  | nil => rfl
  | cons h _ ih =>
    simp only [generateAttributes, h, ih]

/-- Attributes may be exchanged for others that mean the same, by themselves and to each other. -/
theorem generateElement_congr (hspread : hasSpread (attach e t as) = hasSpread (attach e t' as'))
    (hclasses : as.filter isClassAttribute = as'.filter isClassAttribute)
    (htwo : twoWayProperty (attach e t as) = twoWayProperty (attach e t' as'))
    (h : List.Forall₂ (fun a a' => ∀ element e x,
      attributeCode element e x a = attributeCode element e x a') as as') :
    generateElement path (attach e t as) body = generateElement path (attach e t' as') body := by
  have hsame : ∀ a x, attributeCode (nameAt path) (attach e t as) x a =
      attributeCode (nameAt path) (attach e t' as') x a := by
    intro a x
    have hfilter : (attach e t as).attributes.filter isClassAttribute =
      (attach e t' as').attributes.filter isClassAttribute := hclasses
    simp only [attributeCode, twoWayCode, classCode, scopedClasses, htwo, hfilter]
  have hall : generateAttributes path (attach e t as) as =
      generateAttributes path (attach e t' as') as' :=
    generateAttributes_congr (h.imp fun a _ ha x => (hsame a x).trans (ha _ _ x))
  unfold generateElement openSpread
  rw [hspread]
  change (_ >>= fun x => generateAttributes path _ as x >>= _) = _
  rw [hall]
  rfl

theorem generateElement_shortForm {before after : List Attribute} (t' content' : String)
    (hn : IsIdentifier n) (hclass : n ≠ "class")
    (htype : n = "type" → ∀ a ∈ before ++ after, a.name ≠ "type") :
    generateElement path (attach e t (before ++ shortForm n content :: after)) body =
      generateElement path (attach e t' (before ++ fullForm n content' :: after)) body := by
  refine generateElement_congr ?_ ?_ (funext fun target => ?_) (rel_append
    (List.forall₂_same.mpr fun _ _ _ _ _ => rfl) (.cons (attributeCode_shortForm hn hclass)
      (List.forall₂_same.mpr fun _ _ _ _ _ => rfl)))
  · have hopen : after? "\x7b..." n = none := hn.after?_eq_none (by decide)
    simp [hasSpread, attach, shortForm, fullForm, startsWith, not_spread hn, hopen]
  · have hlead : after? "class:" n = none := hn.after?_eq_none (by decide)
    have hshort : isClassAttribute (shortForm n content) = false := by
      simp [isClassAttribute, shortForm, startsWith, after?, ← String.toList_inj]
    have hfull : isClassAttribute (fullForm n content') = false := by
      simp [isClassAttribute, fullForm, startsWith, hclass, hlead]
    simp [hshort, hfull]
  · have hne : ("\x7b" ++ n ++ "\x7d" == "type") = false := by simp [← String.toList_inj]
    by_cases h : n = "type"
    · have hnone : (before ++ after).find? (·.name == "type") = none :=
        find?_eq_none.mpr fun a ha => by simpa using htype h a ha
      rw [find?_append, Option.or_eq_none_iff] at hnone
      simp [twoWayProperty, attach, Element.attribute?, shortForm, fullForm, h, hnone]
    · simp [twoWayProperty, attach, Element.attribute?, shortForm, fullForm, hne, h]

theorem generateTag_plain (he : IsPlain e) :
    generateTag e body place = do return [← generateElement place.path e body] := by
  obtain ⟨hkind, hslot, hfragment⟩ := he
  simp [generateTag, hkind, hslot, hfragment]

/-- Class attributes apart, and the type of an input that has more than one, an attribute in short
form is the same to a block as in full. -/
theorem short_form_eq_full {before after : List Attribute} (hn : IsIdentifier n)
    (hclass : n ≠ "class") (he : IsPlain e)
    (htype : n = "type" → ∀ a ∈ before ++ after, a.name ≠ "type") :
    Runs s (generate [.element (attach e t (before ++ shortForm n content :: after)) body span]
        holder o) w b w' ↔
      Runs s (generate [.element (attach e t' (before ++ fullForm n content' :: after)) body span]
        holder o) w b w' := by
  have hplain : ∀ t as, IsPlain (attach e t as) := fun _ _ => he
  have hname : ∀ t as, (attach e t as).name = e.name := fun _ _ => rfl
  -- The body has one part, so the block runs as the element does.
  simp [generate, planAll, plan, plan.prepare, buildBlock, openBody, defineFragments, Part.node,
    isFragment, isHidden, itemsOf, addItem, endsInLabel, labelAfter, (hplain _ _).1, hname, isSvg,
    Item.elementName?, Node.elementName?, generateItems, Part.generate, generateNode,
    generateTag_plain (hplain _ _), runs_bind,
    generateElement_shortForm t' content' hn hclass htype]

theorem short_form_eq_full_title :
    let e := sampleTag "p" []
    let block a :=
      generate [.element (attach e "" ([.plain "class" (some "a")] ++ [a])) [] ⟨0, 0⟩] .other {}
    ∃ b w', Runs sampleSetting (block (shortForm "title" "")) {} b w' ∧
      Runs sampleSetting (block (fullForm "title" "")) {} b w' ∧
      b.text = "<p class=\"a\"></p>" := by
  intro e block
  have hstart : ((block (shortForm "title" "")).start sampleSetting).1.toOption.map Block.text =
      some "<p class=\"a\"></p>" := by decide +kernel
  obtain ⟨b, w', hr, htext⟩ := runs_of_start hstart
  have hn : IsIdentifier "title" := ⟨by decide, List.all_eq_true.mp (by decide)⟩
  have he : IsPlain e := by unfold IsPlain; decide
  exact ⟨b, w', hr, (short_form_eq_full hn (by decide) he (by decide)).mp hr, htext⟩

end ReactiveMarkup.Template
