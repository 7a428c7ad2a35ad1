import Mathlib.Data.List.TakeDrop
import Mathlib.Data.List.TakeWhile
import ReactiveMarkup.Proofs.SheetRuns

/-! # Names of animations

Scoping renames every `@keyframes` rule. A declaration follows it only if it refers to one animation
by a plain name.
-/

namespace ReactiveMarkup.Style

open List

def IsWord (n : String) : Prop := n ≠ "" ∧ n.toList.all (!Text.isBlank ·) = true

theorem wordsFrom_word (current : List Char) (hb : cs.all (!Text.isBlank ·) = true)
    (hne : current.reverse ++ cs ≠ []) : Text.wordsFrom current cs = [current.reverse ++ cs] := by
  induction cs generalizing current with
  | nil => simp_all [Text.wordsFrom]
  | cons c cs ih =>
    obtain ⟨hc, hcs⟩ : Text.isBlank c = false ∧ cs.all (!Text.isBlank ·) = true := by simpa using hb
    have hrest := ih (c :: current) hcs (by simp)
    simpa [Text.wordsFrom, hc] using hrest

theorem IsWord.words (h : IsWord n) : Text.words n = [n] := by
  simp [Text.words, wordsFrom_word [] h.2 (by simpa using h.1)]

theorem IsWord.suffixed (h : IsWord n) (id : String) : suffixFirstWord id n = n ++ "-" ++ id := by
  have hspan : (n.toList.span fun c => !Text.isBlank c) = (n.toList, []) := by
    have hall := all_eq_true.mp h.2
    rw [span_eq_takeWhile_dropWhile, takeWhile_eq_self_iff.mpr hall, dropWhile_eq_nil_iff.mpr hall]
  unfold suffixFirstWord
  rw [hspan]
  split
  · next heq => exact absurd (by simpa using heq) h.1
  · next heq =>
    cases heq
    simp
  · next heq => cases heq

theorem isWord_list (hne : names ≠ []) (hn : ∀ n ∈ names, IsWord n) :
    IsWord (",".intercalate names) := by
  induction names with
  | nil => exact absurd rfl hne
  | cons n names ih =>
    have hfirst := hn n mem_cons_self
    cases names with
    | nil => simpa [String.intercalate_singleton] using hfirst
    | cons m names =>
      have hrest := ih nofun fun x hx => hn x (.tail n hx)
      rw [String.intercalate_cons_cons]
      refine ⟨by simp, ?_⟩
      simp only [String.toList_append, all_append, hfirst.2, hrest.2]
      rfl

theorem length_list_lt {id : String} (hne : names ≠ []) : (",".intercalate names).length <
      (",".intercalate (names.map (· ++ "-" ++ id))).length := by
  have hdash : "-".length = 1 := rfl
  induction names with
  | nil => exact absurd rfl hne
  | cons n names ih =>
    cases names with
    | nil =>
      simp only [map_cons, map_nil, String.intercalate_singleton, String.length_append]
      omega
    | cons m names =>
      have hrest := ih nofun
      simp only [map_cons, String.intercalate_cons_cons, String.length_append] at hrest ⊢
      omega

theorem comma_notMem (h : isAnimationName n = true) : ',' ∉ n.toList := by
  have hplain : ∀ c (cs : List Char), ((c.isAlpha || c == '_') &&
      cs.all fun c => c.isAlphanum || c == '_' || c == '-') = true → ',' ∉ c :: cs := by
    intro c cs hall
    rw [Bool.and_eq_true, all_eq_true] at hall
    rintro (_ | hmem)
    · exact absurd hall.1 (by decide)
    · exact absurd (hall.2 _ ‹_›) (by decide)
  unfold isAnimationName at h
  split at h
  · next cs hdash =>
    cases cs with
    | nil => cases h
    | cons c cs => simpa [hdash] using hplain c cs h
  · generalize n.toList = cs at h
    cases cs with
    | nil => cases h
    | cons c cs => exact hplain c cs h

theorem isAnimationName_list (hne : names ≠ []) :
    isAnimationName (",".intercalate names) = true ↔
      ∃ n, names = [n] ∧ isAnimationName n = true := by
  match names, hne with
  | [n], _ => simp
  | n :: m :: names, _ =>
    refine iff_of_false (fun h => comma_notMem h ?_) (by simp)
    simp

theorem scopeNode_reference {s : Scope} (h : IsWord v) :
    Runs (scopeNode flags inKeyframes (.declaration ⟨"animation-name", v, b⟩)) s
      (.declaration ⟨"animation-name", if isAnimationName v then v ++ "-" ++ s.id else v, b⟩) s := by
  simp only [scopeNode, runs_get_bind, renameAnimation, h.words]
  by_cases hv : isAnimationName v = true
  · simp [hv]
  · simp [hv]

theorem scopeNode_keyframes (h : IsWord n) (hframes : isKeyframes name = true)
    (hr : Runs (scopeNode flags inKeyframes (.at name n block)) s out s') :
    ∃ block', out = .at name (n ++ "-" ++ s.id) block' := by
  cases block with
  | none =>
    simp only [scopeNode, runs_get_bind, hframes, if_true, h.suffixed] at hr
    exact ⟨_, (runs_pure.mp hr).1⟩
  | some nodes =>
    simp only [scopeNode, runs_get_bind, hframes, if_true, h.suffixed] at hr
    obtain ⟨nodes', -, rfl⟩ := runs_bind_pure.mp hr
    exact ⟨_, rfl⟩

/-- A declaration with the names of some `@keyframes` rules comes to list the names that these have
after scoping exactly if it lists one, and of plain characters. Otherwise it stays as it is. -/
theorem animation_names_followed (s : Scope) (flags : BlockFlags) (inKeyframes important : Bool)
    (names : List String) (hne : names ≠ []) (hn : ∀ n ∈ names, IsWord n) :
    (∀ n ∈ names, ∀ name block out s', isKeyframes name = true →
      Runs (scopeNode flags inKeyframes (.at name n block)) s out s' →
      ∃ block', out = .at name (n ++ "-" ++ s.id) block') ∧
    ∃ value, Runs (scopeNode flags inKeyframes
        (.declaration ⟨"animation-name", ",".intercalate names, important⟩)) s
        (.declaration ⟨"animation-name", value, important⟩) s ∧
      (value = ",".intercalate (names.map (· ++ "-" ++ s.id)) ↔
        ∃ n, names = [n] ∧ isAnimationName n = true) ∧
      ((¬ ∃ n, names = [n] ∧ isAnimationName n = true) → value = ",".intercalate names) := by
  constructor
  · intro n hmem name block out s' hframes hr
    exact scopeNode_keyframes (hn n hmem) hframes hr
  · have hone := isAnimationName_list hne
    refine ⟨_, scopeNode_reference (isWord_list hne hn), ?_, fun hno => if_neg (mt hone.mp hno)⟩
    split
    · next h =>
      obtain ⟨n, rfl, hname⟩ := hone.mp h
      simp [hname]
    · next h =>
      refine iff_of_false (fun heq => ?_) (mt hone.mpr h)
      exact absurd (congrArg String.length heq) (length_list_lt hne).ne

/-- Two rules are renamed, and a list of both keeps their old names. -/
theorem animation_names_two :
    let s : Scope := { id := "p0", tokens := .numbered "p" 1 }
    (∀ n ∈ ["a", "b"], IsWord n ∧ ∀ block out s',
      Runs (scopeNode {} false (.at "keyframes" n block)) s out s' →
      ∃ block', out = .at "keyframes" (n ++ "-" ++ s.id) block') ∧
    Runs (scopeNode {} false (.declaration ⟨"animation-name", "a,b", false⟩)) s
      (.declaration ⟨"animation-name", "a,b", false⟩) s := by
  intro s
  have hwords : ∀ n ∈ ["a", "b"], IsWord n := by
    unfold IsWord
    decide
  obtain ⟨hrules, value, hr, -, hsame⟩ :=
    animation_names_followed s {} false false ["a", "b"] nofun hwords
  obtain rfl := hsame (by simp)
  exact ⟨fun n hn => ⟨hwords n hn, fun block out s' => hrules n hn "keyframes" block out s' rfl⟩, hr⟩

end ReactiveMarkup.Style
