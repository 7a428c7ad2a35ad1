import Mathlib.Data.List.Pairwise
import Mathlib.Data.Set.List
import ReactiveMarkup.Proofs.Buckets

/-! # Class maps

A class map has an entry for each bucket that is a class, perhaps with tests of attributes. A class
that is met with different tests has several.
-/

namespace ReactiveMarkup.Style

open List

/-- What an object literal has under a name: of the pairs with one name the last counts. -/
def literalValue (pairs : List (String × α)) (name : String) : Option α := pairs.reverse.lookup name

theorem mem_of_literalValue {pairs : List (String × α)} (h : literalValue pairs name = some a) :
    (name, a) ∈ pairs := by
  obtain ⟨before, after, heq, -⟩ := lookup_eq_some_iff.mp h
  rw [← mem_reverse, heq]
  simp

theorem literalValue_eq_iff {pairs : List (String × α)} :
    (∀ p ∈ pairs, literalValue pairs p.1 = some p.2) ↔
      ∀ p ∈ pairs, ∀ q ∈ pairs, p.1 = q.1 → p.2 = q.2 := by
  constructor
  · intro h p hp q hq heq
    have hvalue := h p hp
    rw [heq, h q hq] at hvalue
    exact (Option.some.inj hvalue).symm
  · intro h p hp
    cases hv : literalValue pairs p.1 with
    | none =>
      have hno := lookup_eq_none_iff.mp hv p (mem_reverse.mpr hp)
      simp at hno
    | some a => exact congrArg some (h (p.1, a) (mem_of_literalValue hv) p hp rfl)

/-! ## Buckets of classes -/

namespace Bucket

def IsClass (b : Bucket) (name : String) (tests : List AttributeTest) : Prop :=
  b.clean.map (·.kind) = .«class» name :: tests.map .«attribute»

theorem isClass_iff {b : Bucket} : (∃ tests, b.IsClass name tests) ↔
    isSingleClass b.clean = true ∧ b.className? = some name := by
  unfold IsClass isSingleClass className?
  cases b.clean with
  | nil => simp
  | cons i s =>
    have htests := Set.ext_iff.mp (Set.range_list_map ItemKind.«attribute») (s.map (·.kind))
    obtain ⟨kind, isGlobal⟩ := i
    constructor
    · rintro ⟨tests, h⟩
      obtain ⟨rfl, hs⟩ := cons.inj h
      refine ⟨all_eq_true.mpr fun i hi => ?_, rfl⟩
      obtain ⟨t, ht⟩ := htests.mp ⟨tests, hs.symm⟩ i.kind (mem_map_of_mem hi)
      rw [← ht]
    · rintro ⟨h, hname⟩
      rw [Bool.and_eq_true, all_eq_true] at h
      have hall : ∀ k ∈ s.map (·.kind), k ∈ Set.range ItemKind.«attribute» := by
        intro k hk
        obtain ⟨i, hi, rfl⟩ := mem_map.mp hk
        have htest := h.2 i hi
        cases hk : i.kind <;> simp_all
      obtain ⟨tests, ht⟩ := htests.mpr hall
      refine ⟨tests, ?_⟩
      cases kind <;> simp_all

theorem IsClass.print {b b' : Bucket} (h : b.IsClass name tests) (h' : b'.IsClass name tests) :
    b.clean.print = b'.clean.print := by
  have hprint := congrArg (map ItemKind.print) (h.trans h'.symm)
  rw [map_map, map_map] at hprint
  exact congrArg String.join hprint

def pair? (field : Bucket → Option α) (b : Bucket) : Option (String × α) :=
  if b.isSimple then b.className?.bind fun n => (field b).map (n, ·) else none

end Bucket

theorem Consistent.pair?_iff (hs : Consistent s) (hb : b ∈ s.buckets) {field : Bucket → Option α} :
    b.pair? field = some (name, a) ↔ ∃ tests, b.IsClass name tests ∧ field b = some a := by
  rw [exists_and_right, Bucket.isClass_iff, Bucket.pair?, hs.simple b hb]
  split
  · next h => simp [h, Option.bind_eq_some_iff]
  · next h => simp [h]

def Scope.Lists (s : Scope) (field : Bucket → Option α) (name : String)
    (tests : List AttributeTest) (a : α) : Prop :=
  ∃ b ∈ s.buckets, b.IsClass name tests ∧ field b = some a

structure MapsClasses (s : Scope) (field : Bucket → Option α) (pairs : List (String × α)) :
    Prop where
  mem : ∀ name a, (name, a) ∈ pairs ↔ ∃ tests, s.Lists field name tests a
  once : (pairs.map Prod.fst).Nodup ↔ ∀ name tests tests' a a',
    s.Lists field name tests a → s.Lists field name tests' a' → tests = tests'
  kept : (∀ p ∈ pairs, literalValue pairs p.1 = some p.2) ↔ ∀ name tests tests' a a',
    s.Lists field name tests a → s.Lists field name tests' a' → a = a'

theorem nodup_names_iff (hs : Consistent s) {field : Bucket → Option α} :
    ((s.buckets.filterMap (·.pair? field)).map Prod.fst).Nodup ↔ ∀ name tests tests' a a',
      s.Lists field name tests a → s.Lists field name tests' a' → tests = tests' := by
  rw [Nodup, pairwise_map, pairwise_filterMap]
  constructor
  · rintro h name tests tests' a a' ⟨b, hb, hl⟩ ⟨b', hb', hl'⟩
    have hbb : b = b' := by
      by_contra hne
      have hsymm : Std.Symm fun x y : Bucket => ∀ p, x.pair? field = some p →
          ∀ q, y.pair? field = some q → p.1 ≠ q.1 :=
        ⟨fun x y hxy p hp q hq heq => hxy q hq p hp heq.symm⟩
      exact h.forall hb hb' hne _ ((hs.pair?_iff hb).mpr ⟨tests, hl⟩) _
        ((hs.pair?_iff hb').mpr ⟨tests', hl'⟩) rfl
    subst hbb
    have hkinds := (cons.inj (hl.1.symm.trans hl'.1)).2
    exact map_injective_iff.mpr (fun _ _ => ItemKind.attribute.inj) hkinds
  · intro h
    refine (hs.texts.of_map _).pairwise_of_forall_ne fun b hb b' hb' hne => ?_
    rintro ⟨name, a⟩ he ⟨_, a'⟩ he' rfl
    obtain ⟨tests, hl⟩ := (hs.pair?_iff hb).mp he
    obtain ⟨tests', hl'⟩ := (hs.pair?_iff hb').mp he'
    obtain rfl := h name tests tests' a a' ⟨b, hb, hl⟩ ⟨b', hb', hl'⟩
    refine hne (hs.eq_of_text hb hb' ?_)
    rw [hs.printed b hb, hs.printed b' hb', hl.1.print hl'.1]

theorem mapsClasses (hs : Consistent s) {field : Bucket → Option α} :
    MapsClasses s field (s.buckets.filterMap (·.pair? field)) := by
  have hmem : ∀ name a, (name, a) ∈ s.buckets.filterMap (·.pair? field) ↔
      ∃ tests, s.Lists field name tests a := by
    intro name a
    rw [mem_filterMap]
    constructor
    · rintro ⟨b, hb, he⟩
      obtain ⟨tests, hl⟩ := (hs.pair?_iff hb).mp he
      exact ⟨tests, b, hb, hl⟩
    · rintro ⟨tests, b, hb, hl⟩
      exact ⟨b, hb, (hs.pair?_iff hb).mpr ⟨tests, hl⟩⟩
  refine ⟨hmem, nodup_names_iff hs, literalValue_eq_iff.trans ?_⟩
  constructor
  · intro h name tests tests' a a' hl hl'
    exact h (name, a) ((hmem _ _).mpr ⟨tests, hl⟩) (name, a') ((hmem _ _).mpr ⟨tests', hl'⟩) rfl
  · rintro h ⟨name, a⟩ hp ⟨_, a'⟩ hq rfl
    obtain ⟨tests, hl⟩ := (hmem _ _).mp hp
    obtain ⟨tests', hl'⟩ := (hmem _ _).mp hq
    exact h name tests tests' a a' hl hl'

/-- A class map lists a class once exactly if the class has a token with one list of tests only. The
object literal with its entries keeps all of them exactly if they agree for each class. -/
theorem class_maps_list_once_iff (parse : String → Except Fault (List Node))
    (blocks : List Markup.RawBlock) (o : Compile.Options) (source : Option TokenSource)
    (scope : Scope) (h : scopeWith parse blocks o source = .ok (some scope)) :
    MapsClasses scope (·.local) scope.classTokens ∧
      MapsClasses scope (·.external) scope.classAliases := by
  obtain ⟨parsed, uses, -, -, huses, -, -⟩ := scopeWith_uses h
  obtain ⟨hsettled, -⟩ := huses.settled (.start _)
  exact ⟨mapsClasses hsettled.consistent, mapsClasses hsettled.consistent⟩

/-! A class, alone and with a test. -/

def testedStyles : Markup.RawBlock :=
  { classStyles [] "<style>" ⟨0, 26⟩ with content := ".a\x7b\x7d.a[b]\x7b\x7d" }

def testedSelector : Selector := classSelector "a" ++ [{ kind := .«attribute» { name := "b" } }]

def testedScope : Scope where
  id := "p0"
  sheets := [[.rule (.selectors [classSelector "a" ++ classSelector "p1"]) [],
    .rule (.selectors [testedSelector ++ classSelector "p2"]) []]]
  buckets :=
    [{ text := ".a", clean := classSelector "a", isSimple := true, «local» := some "p1",
       origin := ".a" },
     { text := ".a[b]", clean := testedSelector, isSimple := true, «local» := some "p2",
       origin := ".a[b]" }]
  index := [(".a[b]", 1), (".a", 0)]
  tokens := .numbered "p" 3

theorem scopeOf_testedStyles :
    scopeOf [testedStyles] {} (some (.numbered "p" 0)) = .ok (some testedScope) :=
  have hparse : parseSheet testedStyles.content = .ok _ :=
    parseSheet_eq [[classSelector "a"], [testedSelector]] (by decide +kernel)
  scopeWith_of_runs (by decide) <| runs_bind.mpr ⟨(), testedScope, runs_addBlock.mpr
    ⟨_, _, { testedScope with sheets := [] }, hparse, rfl, rfl⟩, rfl⟩

/-- The class has two entries, of which the literal keeps the second, and two lists of tests. -/
theorem class_maps_list_once_iff_tested :
    scopeOf [testedStyles] {} (some (.numbered "p" 0)) = .ok (some testedScope) ∧
      testedScope.classTokens = [("a", "p1"), ("a", "p2")] ∧
      literalValue testedScope.classTokens "a" = some "p2" ∧
      ∃ name tests tests' a a', testedScope.Lists (·.local) name tests a ∧
        testedScope.Lists (·.local) name tests' a' ∧ tests ≠ tests' := by
  obtain ⟨htokens, -⟩ :=
    class_maps_list_once_iff parseSheet [testedStyles] {} (some (.numbered "p" 0)) testedScope
      scopeOf_testedStyles
  refine ⟨scopeOf_testedStyles, rfl, rfl, ?_⟩
  by_contra hall
  have hnodup : (testedScope.classTokens.map Prod.fst).Nodup := htokens.once.mpr <| by
    intro name tests tests' a a' hl hl'
    by_contra hne
    exact hall ⟨name, tests, tests', a, a', hl, hl', hne⟩
  exact absurd hnodup (by decide)

end ReactiveMarkup.Style
