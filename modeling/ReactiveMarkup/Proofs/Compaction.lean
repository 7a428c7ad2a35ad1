import Mathlib.Data.List.Chain
import Mathlib.Data.List.Forall2
import ReactiveMarkup.Proofs.BlankEnds

/-! # Compaction

Compaction changes blanks and nothing else. What it may do in a body depends on who owns the body
and on the nodes around a blank, and those stay the same when the blank goes, so that there is
nothing left to do a second time.
-/

namespace ReactiveMarkup.Markup

open List Node Text

open Text (Span leading trailing trimChars)

/-! ## Bodies -/

def Preformatted (e : Element) : Prop := e.name = "pre" ∨ e.name = "textarea"

instance (e : Element) : Decidable (Preformatted e) := inferInstanceAs (Decidable (_ ∨ _))

theorem preformatted_iff : Preformatted e ↔ keepsBlanks e.name = true := by
  rw [keepsBlanks, Bool.or_eq_true, beq_iff_eq, beq_iff_eq, Preformatted]

namespace Node

/-- The bodies of a node in which blanks are layout, with their owners. -/
def bodies : Node → List (Owner × List Node)
  | element e body _ => if Preformatted e then [] else [(.element e.name, body)]
  | each _ body _ => [(.each, body)]
  | slot _ body _ | fragment _ body _ => [(.block, body)]
  | cond _ body _ alt _ => [(.block, body), (.block, alt)]
  | await _ main _ thenBody _ catchBody _ =>
    [(.block, main), (.block, thenBody), (.block, catchBody)]
  | _ => []

end Node

mutual

/-- Changes all those bodies in a node, from the inside out. -/
def Node.rebuild (f : Owner → List Node → List Node) : Node → Node
  | .element e body s =>
    if Preformatted e then .element e body s
    else .element e (f (.element e.name) (rebuildAll f body)) s
  | .each h body s => .each h (f .each (rebuildAll f body)) s
  | .slot h body s => .slot h (f .block (rebuildAll f body)) s
  | .fragment h body s => .fragment h (f .block (rebuildAll f body)) s
  | .cond h body hasElse alt s =>
    .cond h (f .block (rebuildAll f body)) hasElse (f .block (rebuildAll f alt)) s
  | .await h main thenHeader thenBody catchHeader catchBody s =>
    .await h (f .block (rebuildAll f main)) thenHeader (f .block (rebuildAll f thenBody)) catchHeader
      (f .block (rebuildAll f catchBody)) s
  | n => n

def rebuildAll (f : Owner → List Node → List Node) : List Node → List Node
  | [] => []
  | n :: rest => n.rebuild f :: rebuildAll f rest

end

section Rebuild

variable {f g f' : Owner → List Node → List Node}

section

variable (f : Owner → List Node → List Node)

theorem rebuildAll_eq : rebuildAll f l = l.map (rebuild f) := by
  induction l with
  | nil => rfl
  | cons n l ih => rw [rebuildAll, ih, map_cons]

theorem Node.isText_rebuild (n : Node) : (n.rebuild f).isText = n.isText := by
  cases n with
  | element e body s =>
    rw [rebuild]
    split <;> rfl
  | _ => rfl

theorem Node.bodies_rebuild {n : Node} :
    (n.rebuild f).bodies = n.bodies.map fun b => (b.1, f b.1 (rebuildAll f b.2)) := by
  cases n with
  | element e body s =>
    rw [rebuild, bodies]
    split
    · next h => rw [bodies, if_pos h, map_nil]
    · next h => rw [bodies, if_neg h, map_singleton]
  | _ => rfl

end

mutual

theorem Node.rebuild_rebuild (h : ∀ o l, (∀ n ∈ l, (n.rebuild g).rebuild f = n.rebuild f') →
      f o (rebuildAll f (g o (rebuildAll g l))) = f' o (rebuildAll f' l)) :
    ∀ n : Node, (n.rebuild g).rebuild f = n.rebuild f'
  | .element e body s => by
    by_cases he : Preformatted e
    · simp only [rebuild, if_pos he]
    · simp only [rebuild, if_neg he, h _ _ (rebuildAll_rebuildAll h body)]
  | .each _ body _ | .slot _ body _ | .fragment _ body _ => by
    simp only [rebuild, h _ _ (rebuildAll_rebuildAll h body)]
  | .cond _ body _ alt _ => by
    simp only [rebuild, h _ _ (rebuildAll_rebuildAll h body),
      h _ _ (rebuildAll_rebuildAll h alt)]
  | .await _ main _ thenBody _ catchBody _ => by
    simp only [rebuild, h _ _ (rebuildAll_rebuildAll h main),
      h _ _ (rebuildAll_rebuildAll h thenBody), h _ _ (rebuildAll_rebuildAll h catchBody)]
  | .text .. | .comment .. | .raw _ | .sysTag .. => rfl

theorem rebuildAll_rebuildAll (h : ∀ o l, (∀ n ∈ l, (n.rebuild g).rebuild f = n.rebuild f') →
      f o (rebuildAll f (g o (rebuildAll g l))) = f' o (rebuildAll f' l)) :
    ∀ l : List Node, ∀ n ∈ l, (n.rebuild g).rebuild f = n.rebuild f'
  | [], _, hn => absurd hn not_mem_nil
  | m :: l, n, hn =>
    (mem_cons.mp hn).elim (fun heq => heq ▸ Node.rebuild_rebuild h m)
      (rebuildAll_rebuildAll h l n)

end

mutual

theorem Node.compact_eq : ∀ n : Node, n.compact = n.rebuild compactSiblings
  | .element e body s => by
    rw [compact, rebuild, compactAll_eq body]
    simp only [preformatted_iff]
  | .each _ body _ | .slot _ body _ | .fragment _ body _ => by
    rw [compact, rebuild, compactAll_eq body]
  | .cond _ body _ alt _ => by
    rw [compact, rebuild, compactAll_eq body, compactAll_eq alt]
  | .await _ main _ thenBody _ catchBody _ => by
    rw [compact, rebuild, compactAll_eq main, compactAll_eq thenBody,
      compactAll_eq catchBody]
  | .text .. | .comment .. | .raw _ | .sysTag .. => rfl

theorem compactAll_eq : ∀ l : List Node, compactAll l = rebuildAll compactSiblings l
  | [] => rfl
  | n :: l => by rw [compactAll, rebuildAll, Node.compact_eq n, compactAll_eq l]

end

end Rebuild

/-! ## Joined texts -/

/-- Puts a node in front of others, of which a text joins with a text. -/
def prepend : Node → List Node → List Node
  | .text v s, .text w t :: rest => .text (v ++ w) ⟨s.start, t.stop⟩ :: rest
  | n, rest => n :: rest

def joined (l : List Node) : List Node := l.foldr prepend []

theorem joined_cons : joined (n :: l) = prepend n (joined l) := rfl

theorem joinTexts_eq : joinTexts l = joined l := by
  induction l with
  | nil => rfl
  | cons n l ih =>
    rw [joined_cons, ← ih]
    cases n with
    | text v s =>
      rw [joinTexts]
      generalize joinTexts l = m
      cases m with
      | nil => rfl
      | cons m rest => cases m <;> rfl
    | _ => rfl

def Apart (l : List Node) : Prop := l.IsChain fun a b => a.isText = true → b.isText = false

theorem apart_cons :
    Apart (n :: l) ↔ (n.isText = true → ∀ m ∈ l.head?, m.isText = false) ∧ Apart l := by
  rw [Apart, isChain_cons]
  exact and_congr_left fun _ => ⟨fun h ht m hm => h m hm ht, fun h m hm ht => h ht m hm⟩

theorem apart_prepend (h : Apart l) : Apart (prepend n l) := by
  cases n with
  | text v s =>
    cases l with
    | nil => exact .singleton _
    | cons m l =>
      obtain ⟨hm, hl⟩ := apart_cons.mp h
      cases m with
      | text w t => exact apart_cons.mpr ⟨hm, hl⟩
      | _ =>
        refine apart_cons.mpr ⟨?_, h⟩
        rintro - m ⟨⟩
        rfl
  | _ => exact apart_cons.mpr ⟨nofun, h⟩

theorem apart_joined : Apart (joined l) := by
  induction l with
  | nil => exact .nil
  | cons n l ih => exact apart_prepend ih

theorem prepend_eq_cons (h : n.isText = true → ∀ m ∈ l.head?, m.isText = false) :
    prepend n l = n :: l := by
  cases n with
  | text v s =>
    cases l with
    | nil => rfl
    | cons m l =>
      cases m with
      | text w t => cases h rfl _ rfl
      | _ => rfl
  | _ => rfl

theorem joined_of_apart (h : Apart l) : joined l = l := by
  induction l with
  | nil => rfl
  | cons n l ih => rw [joined_cons, ih (apart_cons.mp h).2, prepend_eq_cons (apart_cons.mp h).1]

theorem Apart.map (h : Apart l) (hf : ∀ n, (f n).isText = n.isText) : Apart (l.map f) := by
  rw [Apart, isChain_map]
  simp only [hf]
  exact h

theorem prepend_rebuildAll :
    prepend (n.rebuild f) (rebuildAll f l) = rebuildAll f (prepend n l) := by
  cases n with
  | text v s =>
    cases l with
    | nil => rfl
    | cons m l =>
      cases m with
      | element e => by_cases he : Preformatted e <;> simp [prepend, rebuildAll, rebuild, he]
      | _ => rfl
  | element e => by_cases he : Preformatted e <;> simp [prepend, rebuildAll, rebuild, he]
  | _ => rfl

theorem joined_rebuildAll : joined (rebuildAll f l) = rebuildAll f (joined l) := by
  induction l with
  | nil => rfl
  | cons n l ih => rw [rebuildAll, joined_cons, ih, prepend_rebuildAll, joined_cons]

/-! ## Dropped blanks -/

section Dropped

variable {o : Owner} {prev next : Option Node} {l : List Node}

theorem filterMap_dropBlanks {g : Node → Option α}
    (hg : ∀ n : Node, n.isBlankText = true → g n = none) :
    (dropBlanks o prev l).filterMap g = l.filterMap g := by
  induction l generalizing prev with
  | nil => rfl
  | cons n l ih =>
    rw [dropBlanks]
    split
    · next h => rw [ih, filterMap_cons_none (hg n (Bool.and_eq_true_iff.mp h).1)]
    · rw [filterMap_cons, filterMap_cons, ih]

theorem isText_of_isBlankText {n : Node} (h : n.isBlankText = true) : n.isText = true := by
  cases n with
  | text v s => rfl
  | _ => cases h

theorem head?_dropBlanks (h : ∀ n ∈ l.head?, n.isText = false) :
    (dropBlanks o prev l).head? = l.head? := by
  cases l with
  | nil => rfl
  | cons n l =>
    rw [dropBlanks, if_neg]
    · rfl
    · intro hdrop
      have htext := isText_of_isBlankText (Bool.and_eq_true_iff.mp hdrop).1
      rw [h n rfl] at htext
      cases htext

theorem Apart.dropBlanks (h : Apart l) : Apart (dropBlanks o prev l) := by
  induction l generalizing prev with
  | nil => exact .nil
  | cons n l ih =>
    obtain ⟨hn, hl⟩ := apart_cons.mp h
    rw [Markup.dropBlanks]
    split
    · exact ih hl
    · refine apart_cons.mpr ⟨fun ht m hm => ?_, ih hl⟩
      rw [head?_dropBlanks (hn ht)] at hm
      exact hn ht m hm

/-- Both neighbours of a blank that is kept are kept, so it is kept again. -/
theorem dropBlanks_dropBlanks (h : Apart l) :
    dropBlanks o prev (dropBlanks o prev l) = dropBlanks o prev l := by
  induction l generalizing prev with
  | nil => rfl
  | cons n l ih =>
    obtain ⟨hn, hl⟩ := apart_cons.mp h
    by_cases hdrop : (n.isBlankText && removable o prev l.head?) = true
    · rw [dropBlanks, if_pos hdrop, ih hl]
    · have hkeep : dropBlanks o prev (n :: l) = n :: dropBlanks o (some n) l := by
        rw [dropBlanks, if_neg hdrop]
      have hagain : ¬ (n.isBlankText &&
          removable o prev (dropBlanks o (some n) l).head?) = true := by
        intro hdrop'
        have hblank := (Bool.and_eq_true_iff.mp hdrop').1
        rw [head?_dropBlanks (hn (isText_of_isBlankText hblank))] at hdrop'
        exact hdrop hdrop'
      rw [hkeep, dropBlanks, if_neg hagain, ih hl]

theorem mem_of_mem_dropBlanks (h : n ∈ dropBlanks o prev l) : n ∈ l := by
  induction l generalizing prev with
  | nil => exact h
  | cons m l ih =>
    rw [dropBlanks] at h
    split at h
    · exact .tail m (ih h)
    · exact (mem_cons.mp h).elim (fun heq => heq ▸ mem_cons_self) fun hl =>
        .tail m (ih hl)

/-- The root, and the blocks that remove what is between their first and their last node. -/
def Owner.KeepsEnds (o : Owner) : Prop := o = .root ∨ o = .block

theorem removable_of_keepsEnds (ho : o.KeepsEnds) (hend : prev = none ∨ next = none) :
    removable o prev next = false := by
  rcases hend with rfl | rfl
  · rcases ho with rfl | rfl <;> cases next <;> rfl
  · rcases ho with rfl | rfl <;> cases prev <;> rfl

theorem head?_dropBlanks_of_keepsEnds (ho : o.KeepsEnds) :
    (dropBlanks o none l).head? = l.head? := by
  cases l with
  | nil => rfl
  | cons n l =>
    rw [dropBlanks, removable_of_keepsEnds ho (.inl rfl), Bool.and_false]
    rfl

theorem getLast?_dropBlanks_of_keepsEnds (ho : o.KeepsEnds) :
    (dropBlanks o prev l).getLast? = l.getLast? := by
  induction l generalizing prev with
  | nil => rfl
  | cons n l ih =>
    rw [dropBlanks]
    split
    · next h =>
      cases l with
      | nil =>
        rw [head?_nil, removable_of_keepsEnds ho (.inr rfl), Bool.and_false] at h
        cases h
      | cons m l => rw [ih, getLast?_cons_cons]
    · rw [getLast?_cons, ih, getLast?_cons]

end Dropped

/-! ## Nodes without blanks -/

namespace Node

def trimmed : Node → Node
  | text v s => text (Text.trim v) s
  | n => n

/-- The node, trimmed if it is a text; none if nothing is left of it. -/
def worded? : Node → Option Node
  | text v s => if Text.trim v = "" then none else some (text (Text.trim v) s)
  | n => some n

/-- What a text says, blanks included; none for a blank text. -/
def wording? : Node → Option String
  | text v _ => if Text.trim v = "" then none else some v
  | _ => none

end Node

def eraseBlanks (l : List Node) : List Node := (joined l).filterMap Node.worded?

def Node.erase (n : Node) : Node := n.rebuild fun _ => eraseBlanks

/-- A tree without the blanks of its texts, but for those that are content. -/
def Root.erase (root : Root) : Root := { root with body := eraseBlanks (root.body.map Node.erase) }

section Erased

variable {o : Owner}

theorem trim_eq_empty_iff : trim v = "" ↔ allBlank v = true := by
  rw [allBlank_iff, ← String.toList_inj, trim, String.toList_ofList, String.toList_empty]

theorem trim_tidy : trim (tidyText v) = trim v := by
  rw [trim, trim_tidyText, trim]

theorem Node.isText_tidy (n : Node) : n.tidy.isText = n.isText := by
  cases n <;> rfl

theorem Node.worded?_eq_none {n : Node} (h : n.isBlankText = true) : n.worded? = none := by
  cases n with
  | text v s => exact if_pos (trim_eq_empty_iff.mpr h)
  | _ => cases h

theorem Node.wording?_eq_none {n : Node} (h : n.isBlankText = true) : n.wording? = none := by
  cases n with
  | text v s => exact if_pos (trim_eq_empty_iff.mpr h)
  | _ => cases h

theorem compactSiblings_eq :
    compactSiblings o l = dropBlanks o none ((joined l).map tidy) := by
  rw [compactSiblings, joinTexts_eq]

theorem apart_tidied : Apart ((joined l).map tidy) :=
  apart_joined.map isText_tidy

theorem apart_compactSiblings : Apart (compactSiblings o l) := by
  rw [compactSiblings_eq]
  exact apart_tidied.dropBlanks

theorem filterMap_compactSiblings {g : Node → Option α}
    (hg : ∀ n : Node, n.isBlankText = true → g n = none) (ht : ∀ n : Node, g n.tidy = g n) :
    (compactSiblings o l).filterMap g = (joined l).filterMap g := by
  rw [compactSiblings_eq, filterMap_dropBlanks hg, filterMap_map]
  exact congrArg (fun k => (joined l).filterMap k) (funext ht)

theorem Node.tidy_of_not_isText {n : Node} (h : n.isText = false) : n.tidy = n := by
  cases n with
  | text v s => cases h
  | _ => rfl

theorem filter_joined (hp : ∀ n : Node, n.isText = true → p n = false) :
    (joined l).filter p = l.filter p := by
  have hprepend : ∀ n r, (prepend n r).filter p = (n :: r).filter p := by
    intro n r
    cases n with
    | text v s =>
      cases r with
      | nil => rfl
      | cons m r =>
        cases m with
        | text w t => simp [prepend, hp (.text _ _) rfl]
        | _ => rfl
    | _ => rfl
  induction l with
  | nil => rfl
  | cons n l ih => rw [joined_cons, hprepend, filter_cons, ih, filter_cons]

theorem filter_compactSiblings {p : Node → Bool} (hp : ∀ n : Node, n.isText = true → p n = false) :
    (compactSiblings o l).filter p = l.filter p := by
  have hblank : ∀ n : Node, n.isBlankText = true → Option.guard (p ·) n = none := by
    intro n hn
    simp [Option.guard, hp n (isText_of_isBlankText hn)]
  have htidy : ∀ n : Node, Option.guard (p ·) n.tidy = Option.guard (p ·) n := by
    intro n
    cases hn : n.isText with
    | true => simp [Option.guard, hp n hn, hp n.tidy ((isText_tidy n).trans hn)]
    | false => rw [tidy_of_not_isText hn]
  rw [← filterMap_eq_filter, filterMap_compactSiblings hblank htidy, filterMap_eq_filter,
    filter_joined hp]

theorem Node.rebuild_of_isText {n : Node} (h : n.isText = true) : n.rebuild f = n := by
  cases n with
  | text v s => rfl
  | _ => cases h

theorem eraseBlanks_compactSiblings (o : Owner) (l : List Node) :
    eraseBlanks (rebuildAll (fun _ => eraseBlanks) (compactSiblings o l)) =
      eraseBlanks (rebuildAll (fun _ => eraseBlanks) l) := by
  rw [eraseBlanks, eraseBlanks, joined_rebuildAll, joined_rebuildAll,
    joined_of_apart apart_compactSiblings, rebuildAll_eq, rebuildAll_eq, filterMap_map,
    filterMap_map]
  refine filterMap_compactSiblings (fun n hn => ?_) (fun n => ?_)
  · rw [Function.comp_apply, rebuild_of_isText (isText_of_isBlankText hn)]
    exact worded?_eq_none hn
  · cases n with
    | text v s => simp only [tidy, Function.comp_apply, rebuild, worded?, trim_tidy]
    | _ => rfl

theorem Node.erase_compact {n : Node} : n.compact.erase = n.erase := by
  rw [compact_eq]
  refine rebuild_rebuild (fun o l hl => ?_) n
  rw [eraseBlanks_compactSiblings, rebuildAll_eq _, rebuildAll_eq _,
    rebuildAll_eq _, map_map]
  exact congrArg eraseBlanks (map_congr_left hl)

end Erased

/-! ## Corresponding bodies -/

def solid (l : List Node) : List Node := l.filter fun n => !n.isText

/-- A body of a tree by its place. A step gives the number of a node among those that are no texts,
and the number of one of its bodies. -/
def bodyAt? : List (Nat × Nat) → Owner × List Node → Option (Owner × List Node)
  | [], b => some b
  | (k, j) :: path, b => do
    let n ← (solid b.2)[k]?
    let c ← n.bodies[j]?
    bodyAt? path c

/-- `w` is `v` with one space for the blanks at each end. -/
structure Evened (v w : String) : Prop where
  core : trimChars w.toList = trimChars v.toList
  front : leading w.toList = oneSpace (leading v.toList)
  back : trailing w.toList = oneSpace (trailing v.toList)

def Node.isPreformatted : Node → Bool
  | .element e _ _ => decide (Preformatted e)
  | _ => false

structure Tidied (o : Owner) (before after : List Node) : Prop where
  preformatted : after.filter Node.isPreformatted = before.filter Node.isPreformatted
  texts : List.Forall₂ Evened ((joined before).filterMap Node.wording?)
    (after.filterMap Node.wording?)
  first : o.KeepsEnds →
    after.head?.map (·.erase.trimmed) = (joined before).head?.map (·.erase.trimmed)
  last : o.KeepsEnds →
    after.getLast?.map (·.erase.trimmed) = (joined before).getLast?.map (·.erase.trimmed)

section Tidied

variable {o : Owner}

theorem evened_tidyText (h : trim v ≠ "") : Evened v (tidyText v) := by
  have hcore : trimChars v.toList ≠ [] := by
    rwa [Ne, trim_eq_empty_iff, allBlank_iff] at h
  exact ⟨trim_tidyText, leading_tidyText hcore, trailing_tidyText hcore⟩

def compactIn (o : Owner) (l : List Node) : List Node := compactSiblings o (compactAll l)

theorem compactIn_eq : compactIn o l =
    dropBlanks o none ((rebuildAll compactSiblings (joined l)).map tidy) := by
  rw [compactIn, compactSiblings_eq, compactAll_eq, joined_rebuildAll]

theorem filter_compactIn (ht : ∀ n : Node, n.isText = true → p n = false)
    (hc : ∀ n : Node, p n.compact = p n) :
    (compactIn o l).filter p = (l.filter p).map compact := by
  have hp : p ∘ rebuild compactSiblings = p := funext fun n => by
    rw [Function.comp_apply, ← compact_eq, hc]
  rw [compactIn, filter_compactSiblings ht, compactAll_eq, rebuildAll_eq, filter_map, hp]
  exact map_congr_left fun n _ => (compact_eq n).symm

theorem Node.isText_compact {n : Node} : n.compact.isText = n.isText := by
  rw [compact_eq, isText_rebuild]

theorem solid_compactIn : solid (compactIn o l) = (solid l).map compact :=
  filter_compactIn (fun n hn => by rw [hn]; rfl) (fun n => by rw [isText_compact])

theorem Node.isPreformatted_compact (n : Node) : n.compact.isPreformatted = n.isPreformatted := by
  cases n with
  | element e body s =>
    rw [compact]
    split <;> rfl
  | _ => rfl

theorem Node.compact_of_isPreformatted {n : Node} (h : n.isPreformatted = true) : n.compact = n := by
  cases n with
  | element e body s => rw [compact, if_pos (preformatted_iff.mp (of_decide_eq_true h))]
  | _ => cases h

theorem preformatted_compactIn :
    (compactIn o l).filter isPreformatted = l.filter isPreformatted := by
  have htext : ∀ n : Node, n.isText = true → n.isPreformatted = false := by
    intro n hn
    cases n with
    | text v s => rfl
    | _ => cases hn
  rw [filter_compactIn htext isPreformatted_compact]
  refine (map_congr_left fun n hn => ?_).trans (map_id _)
  exact compact_of_isPreformatted (mem_filter.mp hn).2

theorem texts_compactIn : (compactIn o l).filterMap wording? =
      ((joined l).filterMap wording?).map tidyText := by
  have hword : ∀ n : Node, (n.rebuild compactSiblings).tidy.wording? = n.wording?.map tidyText := by
    intro n
    cases n with
    | text v s =>
      simp only [rebuild, tidy, wording?, trim_tidy]
      split <;> rfl
    | element e body s =>
      rw [rebuild]
      split <;> rfl
    | _ => rfl
  rw [compactIn_eq, filterMap_dropBlanks fun n => wording?_eq_none, rebuildAll_eq,
    map_map, filterMap_map, map_filterMap]
  exact congrArg (fun k => (joined l).filterMap k) (funext hword)

theorem Node.trimmed_erase_tidy (n : Node) :
    (n.rebuild compactSiblings).tidy.erase.trimmed = n.erase.trimmed := by
  cases hn : n.isText with
  | true =>
    cases n with
    | text v s => exact congrArg (text · s) trim_tidy
    | _ => cases hn
  | false =>
    rw [tidy_of_not_isText ((n.isText_rebuild _).trans hn), ← compact_eq,
      erase_compact]

theorem tidied_compactIn (o : Owner) (l : List Node) : Tidied o l (compactIn o l) where
  preformatted := preformatted_compactIn
  texts := by
    rw [texts_compactIn, forall₂_map_right_iff, forall₂_same]
    intro v hv
    obtain ⟨n, -, hn⟩ := mem_filterMap.mp hv
    cases n with
    | text w s =>
      rw [wording?] at hn
      split at hn
      · cases hn
      · next h =>
        cases hn
        exact evened_tidyText h
    | _ => cases hn
  first := by
    intro ho
    rw [compactIn_eq, head?_dropBlanks_of_keepsEnds ho, rebuildAll_eq, map_map, head?_map,
      Option.map_map]
    exact congrArg (fun k => (joined l).head?.map k) (funext trimmed_erase_tidy)
  last := by
    intro ho
    rw [compactIn_eq, getLast?_dropBlanks_of_keepsEnds ho, rebuildAll_eq, map_map,
      getLast?_map, Option.map_map]
    exact congrArg (fun k => (joined l).getLast?.map k) (funext trimmed_erase_tidy)

theorem Node.bodies_compact (n : Node) :
    n.compact.bodies = n.bodies.map fun b => (b.1, compactIn b.1 b.2) := by
  simp only [compact_eq, bodies_rebuild, compactIn, compactAll_eq]

theorem bodyAt?_compactIn (path : List (Nat × Nat)) (b : Owner × List Node) :
    bodyAt? path (b.1, compactIn b.1 b.2) =
      (bodyAt? path b).map fun c => (c.1, compactIn c.1 c.2) := by
  induction path generalizing b with
  | nil => rfl
  | cons step path ih =>
    obtain ⟨k, j⟩ := step
    simp only [bodyAt?, solid_compactIn, getElem?_map]
    cases (solid b.2)[k]? with
    | none => rfl
    | some n =>
      simp only [Option.map_some, Option.bind_eq_bind, Option.bind_some, bodies_compact,
        getElem?_map]
      cases n.bodies[j]? with
      | none => rfl
      | some c => exact ih c

end Tidied

/-- Without blanks, the two trees are equal. Each body of one is at the place of a body of the
other, with the same owner, and is tidied as it should be. -/
theorem compact_changes_blanks_only (root : Root) :
    root.compact.erase = root.erase ∧
      ∀ path, Option.Rel (fun b c => c.1 = b.1 ∧ Tidied b.1 b.2 c.2)
        (bodyAt? path (.root, root.body)) (bodyAt? path (.root, root.compact.body)) := by
  constructor
  · have hbody := eraseBlanks_compactSiblings .root (compactAll root.body)
    have hnodes : (compactAll root.body).map Node.erase = root.body.map Node.erase := by
      rw [compactAll_eq, rebuildAll_eq, map_map]
      refine map_congr_left fun n _ => ?_
      rw [Function.comp_apply, ← Node.compact_eq, Node.erase_compact]
    rw [rebuildAll_eq, rebuildAll_eq] at hbody
    exact congrArg (Root.mk · root.span) (hbody.trans (congrArg eraseBlanks hnodes))
  · intro path
    have hplace := bodyAt?_compactIn path (.root, root.body)
    change bodyAt? path (.root, root.compact.body) = _ at hplace
    rw [hplace]
    cases bodyAt? path (.root, root.body) with
    | none => exact .none
    | some b => exact .some ⟨rfl, tidied_compactIn b.1 b.2⟩

/-! ## A second time -/

theorem Node.tidy_tidy (n : Node) : n.tidy.tidy = n.tidy := by
  cases n with
  | text v s => exact congrArg (text · s) tidyText_tidyText
  | _ => rfl

theorem compactSiblings_compactSiblings :
    compactSiblings o (compactSiblings o l) = compactSiblings o l := by
  have htidy : (compactSiblings o l).map tidy = compactSiblings o l := by
    refine (map_congr_left fun n hn => ?_).trans (map_id _)
    obtain ⟨m, -, rfl⟩ := mem_map.mp (mem_of_mem_dropBlanks hn)
    exact m.tidy_tidy
  rw [compactSiblings_eq, joined_of_apart apart_compactSiblings, htidy,
    compactSiblings_eq, dropBlanks_dropBlanks apart_tidied]

theorem mem_compactSiblings (h : n ∈ compactSiblings o l) (hn : n.isText = false) : n ∈ l := by
  have hfilter : n ∈ (compactSiblings o l).filter fun m => !m.isText :=
    mem_filter.mpr ⟨h, by rw [hn]; rfl⟩
  rw [filter_compactSiblings fun m hm => by rw [hm]; rfl] at hfilter
  exact (mem_filter.mp hfilter).1

theorem rebuildAll_compactSiblings (h : ∀ n ∈ l, n.rebuild compactSiblings = n) :
    rebuildAll compactSiblings (compactSiblings o l) = compactSiblings o l := by
  rw [rebuildAll_eq]
  refine (map_congr_left fun n hn => ?_).trans (map_id _)
  cases ht : n.isText with
  | true => exact rebuild_of_isText ht
  | false => exact h n (mem_compactSiblings hn ht)

theorem compactSiblings_rebuildAll (o : Owner)
    (h : ∀ n ∈ l, (n.rebuild compactSiblings).rebuild compactSiblings = n.rebuild compactSiblings) :
    compactSiblings o
        (rebuildAll compactSiblings (compactSiblings o (rebuildAll compactSiblings l))) =
      compactSiblings o (rebuildAll compactSiblings l) := by
  rw [rebuildAll_compactSiblings, compactSiblings_compactSiblings]
  rw [rebuildAll_eq]
  exact forall_mem_map.mpr h

theorem compact_idempotent (root : Root) : root.compact.compact = root.compact := by
  have hnodes : ∀ n ∈ root.body, (n.rebuild compactSiblings).rebuild compactSiblings =
      n.rebuild compactSiblings := fun n _ =>
    Node.rebuild_rebuild (fun o l => compactSiblings_rebuildAll o) n
  have hbody := compactSiblings_rebuildAll .root hnodes
  simp only [← compactAll_eq] at hbody
  exact congrArg (Root.mk · root.span) hbody

end ReactiveMarkup.Markup
