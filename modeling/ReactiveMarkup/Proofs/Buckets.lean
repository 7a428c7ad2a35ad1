import Mathlib.Data.List.Nodup
import Mathlib.Data.List.Perm.Basic
import ReactiveMarkup.Proofs.Compounds
import ReactiveMarkup.Proofs.SheetRuns

/-! # Buckets of selectors

Every clean text has one bucket, made by the first selector that has it. Its tokens are given on
first use and stay.
-/

namespace ReactiveMarkup.Style

open List

/-! ## Tokens -/

namespace TokenSource

def after (src : TokenSource) (n : Nat) : TokenSource := { src with drawn := src.drawn + n }

def first (src : TokenSource) (n : Nat) : List String :=
  (List.range n).map fun k => src.stream (src.drawn + k)

theorem first_succ {src : TokenSource} {n : Nat} :
    src.first (n + 1) = src.first n ++ [(src.after n).next.1] := by
  rw [first, range_succ, map_append]
  rfl

end TokenSource

inductive Draws (src : TokenSource) : List String → TokenSource → Prop
  | none : Draws src [] src
  | one : Draws src [src.next.1] src.next.2

def Bucket.ownTokens (b : Bucket) : List String :=
  if b.isSimple then b.local.toList ++ (b.external.bind Alias.token?).toList else []

def Scope.ownTokens (s : Scope) : List String := s.buckets.flatMap Bucket.ownTokens

def Scope.cleanForms (s : Scope) : List Selector := s.buckets.map (·.clean)

/-- All tokens that have been drawn are in use, each in one place. -/
def Drawn (src : TokenSource) (s : Scope) : Prop :=
  ∃ n, s.tokens = src.after n ∧ (s.id :: s.ownTokens).Perm (src.first n)

theorem drawn_start : Drawn src src.start := ⟨1, rfl, .refl _⟩

theorem Drawn.draws (h : Drawn src s) (hd : Draws s.tokens ts k) (hk : s'.tokens = k)
    (hid : s'.id = s.id) (hown : s'.ownTokens.Perm (ts ++ s.ownTokens)) : Drawn src s' := by
  obtain ⟨n, htokens, hperm⟩ := h
  cases hd with
  | none =>
    refine ⟨n, hk.trans htokens, ?_⟩
    rw [hid]
    exact (hown.cons _).trans hperm
  | one =>
    refine ⟨n + 1, by rw [hk, htokens]; rfl, ?_⟩
    rw [hid, TokenSource.first_succ, ← htokens]
    calc s.id :: s'.ownTokens
        _ ~ s.id :: s.tokens.next.1 :: s.ownTokens := hown.cons _
        _ ~ s.tokens.next.1 :: s.id :: s.ownTokens := .swap _ _ _
        _ ~ s.tokens.next.1 :: src.first n := hperm.cons _
        _ ~ src.first n ++ [s.tokens.next.1] := (perm_append_singleton _ _).symm

/-! ## Changes of buckets -/

structure Bucket.Grows (b b' : Bucket) : Prop where
  text : b'.text = b.text
  clean : b'.clean = b.clean
  isSimple : b'.isSimple = b.isSimple
  origin : b'.origin = b.origin
  «local» : ∀ t, b.local = some t → b'.local = some t
  «external» : ∀ a, b.external = some a → b'.external = some a

namespace Bucket.Grows

theorem refl (b : Bucket) : b.Grows b := ⟨rfl, rfl, rfl, rfl, fun _ => id, fun _ => id⟩

theorem trans {b c d : Bucket} (h : b.Grows c) (h' : c.Grows d) : b.Grows d where
  text := h'.text.trans h.text
  clean := h'.clean.trans h.clean
  isSimple := h'.isSimple.trans h.isSimple
  origin := h'.origin.trans h.origin
  «local» := fun t ht => h'.local t (h.local t ht)
  «external» := fun a ha => h'.external a (h.external a ha)

end Bucket.Grows

structure Kept (s s' : Scope) : Prop where
  id : s'.id = s.id
  buckets : ∀ (k : Nat) (b : Bucket), s.buckets[k]? = some b →
    ∃ b', s'.buckets[k]? = some b' ∧ b.Grows b'

namespace Kept

theorem refl (s : Scope) : Kept s s := ⟨rfl, fun _ b hb => ⟨b, hb, .refl b⟩⟩

theorem trans {s u s' : Scope} (h : Kept s u) (h' : Kept u s') : Kept s s' := by
  refine ⟨h'.id.trans h.id, fun k b hb => ?_⟩
  obtain ⟨c, hc, hbc⟩ := h.buckets k b hb
  obtain ⟨d, hd, hcd⟩ := h'.buckets k c hc
  exact ⟨d, hd, hbc.trans hcd⟩

theorem mem (h : Kept s s') (hb : b ∈ s.buckets) : ∃ b' ∈ s'.buckets, b.Grows b' := by
  obtain ⟨k, hk⟩ := getElem?_of_mem hb
  obtain ⟨b', hb', hg⟩ := h.buckets k b hk
  exact ⟨b', mem_of_getElem? hb', hg⟩

end Kept

structure Consistent (s : Scope) : Prop where
  index : ∀ text k, s.index.lookup text = some k ↔ s.cleanTexts[k]? = some text
  printed : ∀ b ∈ s.buckets, b.text = b.clean.print
  simple : ∀ b ∈ s.buckets, b.isSimple = isSingleClass b.clean
  /-- Only a lone class has tokens of its own. -/
  shared : ∀ b ∈ s.buckets, b.isSimple = false →
    b.external = none ∧ ∀ t, b.local = some t → t = s.id

theorem consistent_start {src : TokenSource} : Consistent src.start := by
  constructor <;> simp [TokenSource.start, Scope.cleanTexts]

namespace Consistent

variable {s : Scope}

theorem texts (h : Consistent s) : s.cleanTexts.Nodup := by
  rw [nodup_iff_getElem?_ne_getElem?]
  intro i j hij hj heq
  obtain ⟨text, htext⟩ : ∃ text, s.cleanTexts[j]? = some text := ⟨_, getElem?_eq_getElem hj⟩
  have hi := (h.index text i).mpr (heq.trans htext)
  exact Nat.ne_of_lt hij (Option.some.inj (hi.symm.trans ((h.index text j).mpr htext)))

theorem eq_of_text (h : Consistent s) (hb : b ∈ s.buckets) (hb' : b' ∈ s.buckets)
    (ht : b.text = b'.text) : b = b' :=
  inj_on_of_nodup_map h.texts hb hb' ht

theorem bucket?_iff (h : Consistent s) (text : String) (k : Nat) (b : Bucket) :
    s.bucket? text = some (k, b) ↔ s.buckets[k]? = some b ∧ b.text = text := by
  simp only [Scope.bucket?, Option.bind_eq_bind, Option.bind_eq_some_iff, h.index,
    Scope.cleanTexts, getElem?_map, Option.map_eq_some_iff, Option.pure_def, Option.some.injEq,
    Prod.mk.injEq]
  constructor
  · rintro ⟨k, ⟨c, hc, rfl⟩, b, hb, rfl, rfl⟩
    exact ⟨hb, by rw [← Option.some.inj (hb.symm.trans hc)]⟩
  · rintro ⟨hb, rfl⟩
    exact ⟨k, ⟨b, hb, rfl⟩, b, hb, rfl, rfl⟩

end Consistent

structure Advance (src : TokenSource) (s s' : Scope) : Prop where
  consistent : Consistent s'
  drawn : Drawn src s'
  kept : Kept s s'
  sheets : s'.sheets = s.sheets

/-! ## What selectors carry -/

variable (s : Scope) (flags : BlockFlags) (origin : Selector) in
/-- What becomes of a selector: in blocks that are not global, the token that its bucket has for
the kind of block is inserted. -/
inductive Placed : Selector → Prop
  | plain : cleanForm origin = [] ∨ flags.isGlobal = true → Placed origin
  | own : flags.isGlobal = false → flags.external = false → b ∈ s.buckets →
    b.text = (cleanForm origin).print → b.local = some t →
    Inserts t origin (mark t none origin) row → Placed (mark t none origin)
  | exported : flags.isGlobal = false → flags.external = true → b ∈ s.buckets →
    b.text = (cleanForm origin).print → b.external = some (.token t) →
    Inserts t origin (mark t none origin) row → Placed (mark t none origin)
  | declared : flags.isGlobal = false → flags.external = true → b ∈ s.buckets →
    b.text = (cleanForm origin).print → b.external = some .passthrough → Placed origin

theorem Placed.kept (h : Placed s flags origin sel) (hk : Kept s s') :
    Placed s' flags origin sel := by
  cases h with
  | plain h => exact .plain h
  | own hglobal hlocal hb ht hl hrow =>
    obtain ⟨b', hb', hg⟩ := hk.mem hb
    exact .own hglobal hlocal hb' (hg.text.trans ht) (hg.local _ hl) hrow
  | exported hglobal hext hb ht ha hrow =>
    obtain ⟨b', hb', hg⟩ := hk.mem hb
    exact .exported hglobal hext hb' (hg.text.trans ht) (hg.external _ ha) hrow
  | declared hglobal hext hb ht ha =>
    obtain ⟨b', hb', hg⟩ := hk.mem hb
    exact .declared hglobal hext hb' (hg.text.trans ht) (hg.external _ ha)

/-! ## Runs over one selector -/

section Steps

variable {src : TokenSource} {s s' : Scope}

theorem Advance.refl (hs : Consistent s) (hd : Drawn src s) : Advance src s s := ⟨hs, hd, .refl s, rfl⟩

theorem Advance.trans (h : Advance src s u) (h' : Advance src u s') : Advance src s s' :=
  ⟨h'.consistent, h'.drawn, h.kept.trans h'.kept, h'.sheets.trans h.sheets⟩

theorem lookup_index_cons {texts : List String} {index : List (String × Nat)} (hnew : t ∉ texts)
    (h : ∀ text k, index.lookup text = some k ↔ texts[k]? = some text) (text : String) (k : Nat) :
    ((t, texts.length) :: index).lookup text = some k ↔ (texts ++ [t])[k]? = some text := by
  have hold := h text k
  rw [lookup_cons, getElem?_append]
  by_cases heq : text = t
  · have hno : ∀ j : Nat, texts[j]? ≠ some text := fun j hj => hnew (heq ▸ mem_of_getElem? hj)
    grind
  · grind

theorem bucketOf_advance (h : Runs (bucketOf clean origin) s (k, b) s') (hs : Consistent s)
    (hd : Drawn src s) : Advance src s s' ∧ s'.buckets[k]? = some b ∧ b.text = clean.print ∧
      ∀ f ∈ s'.cleanForms, f ∈ s.cleanForms ∨ f = clean := by
  rw [bucketOf, runs_get_bind] at h
  simp only at h
  split at h
  · next found hfind =>
    obtain ⟨rfl, rfl⟩ := runs_pure.mp h
    obtain ⟨hb, ht⟩ := (hs.bucket?_iff _ _ _).mp hfind
    exact ⟨.refl hs hd, hb, ht, fun _ => Or.inl⟩
  · next hfind =>
    have hnew : clean.print ∉ s.cleanTexts := by
      intro hmem
      obtain ⟨c, hc, htext⟩ := mem_map.mp hmem
      obtain ⟨k, hk⟩ := getElem?_of_mem hc
      rw [(hs.bucket?_iff _ k c).mpr ⟨hk, htext⟩] at hfind
      cases hfind
    obtain ⟨_, hset, heq⟩ := runs_bind_pure.mp h
    obtain ⟨rfl, rfl⟩ := Prod.mk.inj heq
    obtain rfl := runs_set.mp hset
    refine ⟨⟨⟨?_, fun c hc => ?_, fun c hc => ?_, fun c hc hsimple => ?_⟩, ?_,
      ⟨rfl, fun k c hc => ?_⟩, rfl⟩, by simp, rfl, by simp [Scope.cleanForms]⟩
    · simpa [Scope.cleanTexts] using lookup_index_cons hnew hs.index
    · rcases mem_append.mp hc with hc | hc
      · exact hs.printed c hc
      · rw [mem_singleton.mp hc]
    · rcases mem_append.mp hc with hc | hc
      · exact hs.simple c hc
      · rw [mem_singleton.mp hc]
    · rcases mem_append.mp hc with hc | hc
      · exact hs.shared c hc hsimple
      · rw [mem_singleton.mp hc]
        exact ⟨rfl, nofun⟩
    · -- the new bucket has no token yet
      refine hd.draws .none rfl rfl ?_
      simp [Scope.ownTokens, Bucket.ownTokens]
    · exact ⟨c, by rw [List.getElem?_append_left (List.getElem?_eq_some_iff.mp hc).1, hc], .refl c⟩

theorem putBucket_advance (h : Runs (do putBucket k b'; return t) { s with tokens := r } t' s')
    (hs : Consistent s) (hd : Drawn src s) (hb : s.buckets[k]? = some b) (hg : b.Grows b')
    (hk : Draws s.tokens ts r) (hown : b'.ownTokens.Perm (ts ++ b.ownTokens))
    (hshared : b'.isSimple = false → b'.external = none ∧ ∀ t, b'.local = some t → t = s.id) :
    t' = t ∧ Advance src s s' ∧ b' ∈ s'.buckets ∧ s'.cleanForms = s.cleanForms := by
  obtain ⟨_, hput, rfl⟩ := runs_bind_pure.mp h
  obtain rfl := runs_modify.mp hput
  obtain ⟨hlt, rfl⟩ := List.getElem?_eq_some_iff.mp hb
  have hold := getElem_mem hlt
  have hmem : ∀ c ∈ s.buckets.set k b', c = b' ∨ c ∈ s.buckets := fun c hc =>
    (mem_or_eq_of_mem_set hc).symm
  have hsame {β : Type} {f : Bucket → β} (hf : f b' = f s.buckets[k]) :
      (s.buckets.set k b').map f = s.buckets.map f := by
    have hlt' : k < (s.buckets.map f).length := by simpa using hlt
    rw [map_set, hf, ← getElem_map f (h := hlt'), set_getElem_self]
  refine ⟨rfl, ⟨⟨?_, fun c hc => ?_, fun c hc => ?_, fun c hc hsimple => ?_⟩, ?_,
    ⟨rfl, fun i c hc => ?_⟩, rfl⟩, mem_set hlt b', hsame hg.clean⟩
  · rw [Scope.cleanTexts, hsame hg.text]
    exact hs.index
  · rcases hmem c hc with rfl | hc
    · rw [hg.text, hg.clean]
      exact hs.printed _ hold
    · exact hs.printed c hc
  · rcases hmem c hc with rfl | hc
    · rw [hg.isSimple, hg.clean]
      exact hs.simple _ hold
    · exact hs.simple c hc
  · rcases hmem c hc with rfl | hc
    · exact hshared hsimple
    · exact hs.shared c hc hsimple
  · refine hd.draws hk rfl rfl ?_
    calc (s.buckets.set k b').flatMap Bucket.ownTokens
        _ ~ b'.ownTokens ++ (s.buckets.eraseIdx k).flatMap Bucket.ownTokens :=
          (set_perm_cons_eraseIdx hlt b').flatMap_right _
        _ ~ ts ++ s.buckets[k].ownTokens ++ (s.buckets.eraseIdx k).flatMap Bucket.ownTokens :=
          hown.append_right _
        _ ~ ts ++ s.buckets.flatMap Bucket.ownTokens := by
          rw [append_assoc]
          exact ((getElem_cons_eraseIdx_perm hlt).flatMap_right _).append_left ts
  · by_cases hik : k = i
    · subst hik
      obtain rfl := Option.some.inj (hb.symm.trans hc)
      exact ⟨b', getElem?_set_self hlt, hg⟩
    · exact ⟨c, (getElem?_set_ne hik).trans hc, .refl c⟩

theorem freshToken_draws (h : Runs freshToken s t s') :
    t = s.tokens.next.1 ∧ s' = { s with tokens := s.tokens.next.2 } := by
  rw [freshToken, runs_get_bind] at h
  obtain ⟨_, hset, ht⟩ := runs_bind_pure.mp h
  exact ⟨ht, runs_set.mp hset⟩

theorem localToken_advance (h : Runs (localToken k b) s t s') (hs : Consistent s)
    (hd : Drawn src s) (hb : s.buckets[k]? = some b) :
    Advance src s s' ∧ (∃ b' ∈ s'.buckets, b'.text = b.text ∧ b'.local = some t) ∧
      s'.cleanForms = s.cleanForms := by
  unfold localToken at h
  split at h
  · next hl =>
    obtain ⟨rfl, rfl⟩ := runs_pure.mp h
    exact ⟨.refl hs hd, ⟨b, mem_of_getElem? hb, rfl, hl⟩, rfl⟩
  · next hl =>
    have hg : ∀ t', b.Grows { b with «local» := some t' } := fun t' =>
      ⟨rfl, rfl, rfl, rfl, fun _ ht => by simp [hl] at ht, fun _ => id⟩
    split at h
    · next hsimple =>
      obtain ⟨_, _, hfresh, hrest⟩ := runs_bind.mp h
      obtain ⟨rfl, rfl⟩ := freshToken_draws hfresh
      obtain ⟨rfl, hadvance, hmem, hclean⟩ := putBucket_advance hrest hs hd hb (hg _) .one
        (by simp [Bucket.ownTokens, hsimple, hl]) (by simp [hsimple])
      exact ⟨hadvance, ⟨_, hmem, rfl, rfl⟩, hclean⟩
    · next hsimple =>
      have hshared := hs.shared b (mem_of_getElem? hb) (by simpa using hsimple)
      obtain ⟨rfl, hadvance, hmem, hclean⟩ := putBucket_advance h hs hd hb (hg _) .none
        (by simp [Bucket.ownTokens, hsimple])
        (fun _ => ⟨hshared.1, fun t ht => (Option.some.inj ht).symm⟩)
      exact ⟨hadvance, ⟨_, hmem, rfl, rfl⟩, hclean⟩

theorem externalToken_advance (h : Runs (externalToken k b emptyBlock) s t s') (hs : Consistent s)
    (hd : Drawn src s) (hb : s.buckets[k]? = some b) : Advance src s s' ∧
      (∃ b' ∈ s'.buckets, b'.text = b.text ∧ ∃ a, b'.external = some a ∧ a.token? = t) ∧
      s'.cleanForms = s.cleanForms := by
  unfold externalToken at h
  split at h
  · cases h
  · next hsimple =>
    simp only [Bool.not_eq_true, Bool.not_eq_false'] at hsimple
    split at h
    · next a ha =>
      obtain ⟨rfl, rfl⟩ := runs_pure.mp h
      exact ⟨.refl hs hd, ⟨b, mem_of_getElem? hb, rfl, a, ha, rfl⟩, rfl⟩
    · next ha =>
      have hg : ∀ a, b.Grows { b with «external» := some a } := fun a =>
        ⟨rfl, rfl, rfl, rfl, fun _ => id, fun _ ht => by simp [ha] at ht⟩
      split at h
      · rw [pure_bind] at h
        obtain ⟨rfl, hadvance, hmem, hclean⟩ := putBucket_advance h hs hd hb (hg _) .none
          (by simp [Bucket.ownTokens, ha, Alias.token?]) (by simp [hsimple])
        exact ⟨hadvance, ⟨_, hmem, rfl, _, rfl, rfl⟩, hclean⟩
      · obtain ⟨_, _, hmap, hrest⟩ := runs_bind.mp h
        obtain ⟨_, hfresh, rfl⟩ := runs_map.mp hmap
        obtain ⟨rfl, rfl⟩ := freshToken_draws hfresh
        obtain ⟨rfl, hadvance, hmem, hclean⟩ := putBucket_advance hrest hs hd hb (hg _) .one
          (by
            simp only [Bucket.ownTokens, hsimple, ha, if_true, Option.bind_some, Option.bind_none,
              Alias.token?, Option.toList_some, Option.toList_none, append_nil]
            exact perm_append_singleton _ _)
          (by simp [hsimple])
        exact ⟨hadvance, ⟨_, hmem, rfl, _, rfl, rfl⟩, hclean⟩

theorem scopeSelector_advance (h : Runs (scopeSelector flags emptyBlock sel) s sel' s')
    (hs : Consistent s) (hd : Drawn src s) :
    ∃ origin, openGlobals sel = .ok origin ∧ Advance src s s' ∧ Placed s' flags origin sel' ∧
      ∀ f ∈ s'.cleanForms, f ∈ s.cleanForms ∨ f = cleanForm origin := by
  obtain ⟨origin, s, hlift, hrest⟩ := runs_bind.mp h
  obtain ⟨hopen, rfl⟩ := runs_lift.mp hlift
  refine ⟨origin, hopen, ?_⟩
  simp only at hrest
  split at hrest
  · cases hrest
  split at hrest
  · next hplain =>
    obtain ⟨rfl, rfl⟩ := runs_pure.mp hrest
    refine ⟨.refl hs hd, .plain ?_, fun _ => Or.inl⟩
    simpa [List.isEmpty_iff] using hplain
  · next hplain =>
    have hglobal : flags.isGlobal = false := by
      simp only [Bool.or_eq_true, not_or, Bool.not_eq_true] at hplain
      exact hplain.2
    obtain ⟨⟨k, b⟩, u, hbucket, hmark⟩ := runs_bind.mp hrest
    obtain ⟨hu, hb, htext, hfrom⟩ := bucketOf_advance hbucket hs hd
    split at hmark
    · next hext =>
      obtain ⟨token, htoken, rfl⟩ := runs_bind_pure.mp hmark
      obtain ⟨hv, ⟨b', hb', htext', a, ha, rfl⟩, hkeep⟩ :=
        externalToken_advance htoken hu.consistent hu.drawn hb
      refine ⟨hu.trans hv, ?_, hkeep ▸ hfrom⟩
      cases a with
      | passthrough => exact .declared hglobal hext hb' (htext'.trans htext) ha
      | token t =>
        obtain ⟨row, hrow, _⟩ := exists_inserts_mark none
        exact .exported hglobal hext hb' (htext'.trans htext) ha hrow
    · next hext =>
      obtain ⟨token, htoken, rfl⟩ := runs_bind_pure.mp hmark
      obtain ⟨t, hlocal, rfl⟩ := runs_map.mp htoken
      obtain ⟨hv, ⟨b', hb', htext', hl⟩, hkeep⟩ := localToken_advance hlocal hu.consistent hu.drawn hb
      obtain ⟨row, hrow, _⟩ := exists_inserts_mark none
      exact ⟨hu.trans hv, .own hglobal (by simpa using hext) hb' (htext'.trans htext) hl hrow,
        hkeep ▸ hfrom⟩

end Steps

/-! ## Runs over style blocks -/

structure Use where
  flags : BlockFlags
  entry : Entry
  result : Selector

/-- Selectors are scoped one after the other; between them a scope changes in other parts only. -/
inductive Uses (s₀ : Scope) : List Use → Scope → Prop
  | start : Uses s₀ [] s₀
  | next (use : Use) : Uses s₀ done s → Runs (use.entry.scope use.flags) s use.result s' →
    Uses s₀ (done ++ [use]) s'
  | aside : Uses s₀ done s → s'.id = s.id → s'.buckets = s.buckets → s'.index = s.index →
    s'.tokens = s.tokens → Uses s₀ done s'

structure Settled (src : TokenSource) (uses : List Use) (s : Scope) : Prop where
  consistent : Consistent s
  drawn : Drawn src s
  placed : ∀ u ∈ uses, ∃ origin, openGlobals u.entry.selector = .ok origin ∧
    Placed s u.flags origin u.result
  clean : ∀ b ∈ s.buckets, ∃ u ∈ uses, ∃ origin, openGlobals u.entry.selector = .ok origin ∧
    cleanForm origin = b.clean

namespace Settled

variable {src : TokenSource} {s s' : Scope} {done : List Use}

theorem start (src : TokenSource) : Settled src [] src.start :=
  ⟨consistent_start, drawn_start, nofun, by simp [TokenSource.start]⟩

theorem next (h : Settled src done s) (use : Use)
    (hrun : Runs (use.entry.scope use.flags) s use.result s') :
    Settled src (done ++ [use]) s' ∧ Advance src s s' := by
  obtain ⟨origin, hopen, hadvance, hplaced, hclean⟩ := scopeSelector_advance hrun h.consistent h.drawn
  refine ⟨⟨hadvance.consistent, hadvance.drawn, fun u hu => ?_, fun b hb => ?_⟩, hadvance⟩
  · rcases mem_append.mp hu with hu | hu
    · obtain ⟨form, hform, hu'⟩ := h.placed u hu
      exact ⟨form, hform, hu'.kept hadvance.kept⟩
    · rw [mem_singleton.mp hu]
      exact ⟨origin, hopen, hplaced⟩
  · rcases hclean b.clean (mem_map_of_mem hb) with hold | heq
    · obtain ⟨b₀, hb₀, heq⟩ := mem_map.mp hold
      obtain ⟨u, hu, form, hform, hu'⟩ := h.clean b₀ hb₀
      exact ⟨u, mem_append_left _ hu, form, hform, hu'.trans heq⟩
    · exact ⟨use, by simp, origin, hopen, heq.symm⟩

theorem aside (h : Settled src done s) (hid : s'.id = s.id) (hbuckets : s'.buckets = s.buckets)
    (hindex : s'.index = s.index) (htokens : s'.tokens = s.tokens) :
    Settled src done s' ∧ Kept s s' := by
  have hkept : Kept s s' := ⟨hid, fun k b hb => ⟨b, hbuckets ▸ hb, .refl b⟩⟩
  refine ⟨⟨⟨?_, hbuckets ▸ h.consistent.printed, hbuckets ▸ h.consistent.simple, ?_⟩, ?_,
    fun u hu => ?_, hbuckets ▸ h.clean⟩, hkept⟩
  · rw [Scope.cleanTexts, hbuckets, hindex]
    exact h.consistent.index
  · rw [hbuckets, hid]
    exact h.consistent.shared
  · refine h.drawn.draws .none htokens hid ?_
    rw [Scope.ownTokens, hbuckets]
    exact .refl _
  · obtain ⟨origin, hopen, hplaced⟩ := h.placed u hu
    exact ⟨origin, hopen, hplaced.kept hkept⟩

end Settled

namespace Uses

variable {src : TokenSource} {s₀ s s' : Scope} {done uses : List Use}

theorem settled (h : Uses s₀ uses s) (h₀ : Settled src done s₀) :
    Settled src (done ++ uses) s ∧ Kept s₀ s := by
  induction h with
  | start => exact ⟨by simpa using h₀, .refl _⟩
  | next use _ hrun ih =>
    obtain ⟨hsettled, hadvance⟩ := ih.1.next use hrun
    exact ⟨by simpa using hsettled, ih.2.trans hadvance.kept⟩
  | aside _ hid hbuckets hindex htokens ih =>
    obtain ⟨hsettled, hkept⟩ := ih.1.aside hid hbuckets hindex htokens
    exact ⟨hsettled, ih.2.trans hkept⟩

theorem split {before after : List Use} (h : Uses s₀ (before ++ after) s) :
    ∃ u, Uses s₀ before u ∧ Uses u after s := by
  generalize heq : before ++ after = uses at h
  induction h generalizing after with
  | start =>
    obtain ⟨rfl, rfl⟩ := append_eq_nil_iff.mp heq
    exact ⟨s₀, .start, .start⟩
  | @next done t t' use hdone hrun ih =>
    rcases eq_nil_or_concat after with rfl | ⟨others, last, rfl⟩
    · rw [append_nil] at heq
      rw [heq]
      exact ⟨t', hdone.next use hrun, .start⟩
    · rw [concat_eq_append, ← append_assoc] at heq
      obtain ⟨hothers, hlast⟩ := append_inj' heq rfl
      obtain ⟨u, hbefore, hafter⟩ := ih hothers
      cases hlast
      rw [concat_eq_append]
      exact ⟨u, hbefore, hafter.next use hrun⟩
  | aside _ hid hbuckets hindex htokens ih =>
    obtain ⟨u, hbefore, hafter⟩ := ih heq
    exact ⟨u, hbefore, hafter.aside hid hbuckets hindex htokens⟩

theorem entries {es : List Entry} (h : Uses s₀ done s) (h₀ : Settled src [] s₀)
    (hrun : Runs (es.mapM (Entry.scope flags)) s out s') :
    ∃ later, Uses s₀ (done ++ later) s' ∧ s'.sheets = s.sheets ∧
      later.map (fun u => (u.flags, u.entry)) = es.map (flags, ·) ∧ later.map (·.result) = out := by
  induction es generalizing s out done with
  | nil =>
    obtain ⟨rfl, rfl⟩ := runs_pure.mp hrun
    exact ⟨[], by simpa using h, rfl, rfl, rfl⟩
  | cons e es ih =>
    rw [mapM_cons] at hrun
    obtain ⟨sel, u, hfirst, hrest⟩ := runs_bind.mp hrun
    obtain ⟨out, hes, rfl⟩ := runs_bind_pure.mp hrest
    let use : Use := ⟨flags, e, sel⟩
    obtain ⟨_, hadvance⟩ := (h.settled h₀).1.next use hfirst
    obtain ⟨later, hall, hsheets, hentries, hout⟩ := ih (h.next use hfirst) hes
    refine ⟨use :: later, by simpa using hall, hsheets.trans hadvance.sheets, ?_, ?_⟩
    · rw [map_cons, hentries, map_cons]
    · rw [map_cons, hout]

theorem block {x : Unit} (h : Uses s₀ done s) (h₀ : Settled src [] s₀)
    (hrun : Runs (addBlock parse b) s x s') :
    ∃ nodes sheet later, parse b.content = .ok nodes ∧ Uses s₀ (done ++ later) s' ∧
      s'.sheets = s.sheets ++ [sheet] ∧
      later.map (fun u => (u.flags, u.entry)) = (entriesIn false nodes).map (blockFlags b, ·) ∧
      later.map (·.result) = selectorsIn false sheet := by
  obtain ⟨nodes, sheet, u, hparse, hnodes, rfl⟩ := runs_addBlock.mp hrun
  have hentered : Uses s₀ done (s.enter b) := h.aside rfl rfl rfl rfl
  obtain ⟨later, hlater, hsheets, hmet, hout⟩ :=
    hentered.entries h₀ (scopeNodes_runs nodes false hnodes)
  exact ⟨nodes, sheet, later, hparse, hlater.aside rfl rfl rfl rfl, by rw [hsheets]; rfl, hmet, hout⟩

theorem blocks {bs : List Markup.RawBlock} (h : Uses s₀ done s) (h₀ : Settled src [] s₀)
    (hrun : Runs (bs.forM (addBlock parse)) s x s') :
    ∃ parsed sheets later, bs.mapM (fun b => parse b.content) = .ok parsed ∧
      parsed.length = bs.length ∧ Uses s₀ (done ++ later) s' ∧ s'.sheets = s.sheets ++ sheets ∧
      later.map (fun u => (u.flags, u.entry)) =
        (bs.zip parsed).flatMap (fun p => (entriesIn false p.2).map (blockFlags p.1, ·)) ∧
      later.map (·.result) = sheets.flatMap (selectorsIn false) := by
  induction bs generalizing s done with
  | nil =>
    obtain ⟨_, rfl⟩ := runs_pure.mp hrun
    exact ⟨[], [], [], rfl, rfl, by simpa using h, by simp, rfl, rfl⟩
  | cons b bs ih =>
    obtain ⟨_, u, hfirst, hrest⟩ := runs_bind.mp hrun
    obtain ⟨nodes, sheet, now, hparse, hnow, hsheet, hmet, hout⟩ := h.block h₀ hfirst
    obtain ⟨parsed, sheets, later, hparsed, hlen, hlater, hsheets, hmet', hout'⟩ := ih hnow hrest
    refine ⟨nodes :: parsed, sheet :: sheets, now ++ later, ?_, by simp [hlen],
      by simpa using hlater, by simp [hsheets, hsheet], ?_, ?_⟩
    · rw [mapM_cons, hparse, hparsed]
      rfl
    · rw [map_append, hmet, hmet', zip_cons_cons, flatMap_cons]
    · rw [map_append, hout, hout', flatMap_cons]

end Uses

/-- All selectors of all blocks are scoped, in order, and make up the sheets of the scope. -/
theorem scopeWith_uses {blocks : List Markup.RawBlock}
    (h : scopeWith parse blocks o source = .ok (some scope)) :
    ∃ parsed uses, blocks.mapM (fun b => parse b.content) = .ok parsed ∧
      parsed.length = blocks.length ∧ Uses (tokensFor blocks o source).start uses scope ∧
      uses.map (fun u => (u.flags, u.entry)) =
        (blocks.zip parsed).flatMap (fun p => (entriesIn false p.2).map (blockFlags p.1, ·)) ∧
      uses.map (·.result) = scope.sheets.flatMap (selectorsIn false) := by
  obtain ⟨parsed, sheets, uses, hparsed, hlen, huses, hsheets, hmet, hout⟩ :=
    Uses.start.blocks (.start _) (scopeWith_runs h)
  exact ⟨parsed, uses, hparsed, hlen, huses, hmet, by rw [hout, hsheets]; rfl⟩

/-- Buckets stay consistent over all selectors of all blocks: there is one for each clean text, and
what it has stays to the end. The tokens in use are those drawn. In the end every selector carries
the token that the bucket of its clean text has for its kind of block. -/
theorem buckets_stay_consistent (parse : String → Except Fault (List Node))
    (blocks : List Markup.RawBlock) (o : Compile.Options) (source : Option TokenSource)
    (scope : Scope) (h : scopeWith parse blocks o source = .ok (some scope)) :
    ∃ parsed uses, blocks.mapM (fun b => parse b.content) = .ok parsed ∧
      uses.map (fun u => (u.flags, u.entry)) =
        (blocks.zip parsed).flatMap (fun p => (entriesIn false p.2).map (blockFlags p.1, ·)) ∧
      uses.map (·.result) = scope.sheets.flatMap (selectorsIn false) ∧
      (∀ before after, uses = before ++ after →
        ∃ s, Uses (tokensFor blocks o source).start before s ∧ Uses s after scope ∧ Consistent s ∧
          s.cleanTexts.Nodup ∧
          (∀ text k b, s.bucket? text = some (k, b) ↔ s.buckets[k]? = some b ∧ b.text = text) ∧
          Kept s scope) ∧
      (∃ n, scope.tokens = (tokensFor blocks o source).after n ∧
        (scope.id :: scope.ownTokens).Perm ((tokensFor blocks o source).first n) ∧
        (((tokensFor blocks o source).first n).Nodup → (scope.id :: scope.ownTokens).Nodup)) ∧
      (∀ b ∈ scope.buckets, ∃ u ∈ uses, ∃ origin, openGlobals u.entry.selector = .ok origin ∧
        cleanForm origin = b.clean) ∧
      ∀ u ∈ uses, ∃ origin, openGlobals u.entry.selector = .ok origin ∧
        Placed scope u.flags origin u.result := by
  obtain ⟨parsed, uses, hparsed, _, huses, hmet, hout⟩ := scopeWith_uses h
  obtain ⟨hsettled, _⟩ := huses.settled (.start _)
  obtain ⟨n, htokens, hperm⟩ := hsettled.drawn
  refine ⟨parsed, uses, hparsed, hmet, hout, ?_, ⟨n, htokens, hperm, hperm.nodup_iff.mpr⟩,
    hsettled.clean, hsettled.placed⟩
  rintro before after rfl
  obtain ⟨s, hbefore, hafter⟩ := huses.split
  obtain ⟨hs, _⟩ := hbefore.settled (.start _)
  obtain ⟨_, hkept⟩ := hafter.settled hs
  exact ⟨s, hbefore, hafter, hs.consistent, hs.consistent.texts, hs.consistent.bucket?_iff, hkept⟩

/-- In a block that is neither global nor lent, a selector with something clean carries the local
token of its bucket, as far as marking goes in each of its compounds, and is otherwise as it was,
`:global(…)` opened. -/
theorem local_compounds_are_scoped (parse : String → Except Fault (List Node))
    (blocks : List Markup.RawBlock) (o : Compile.Options) (source : Option TokenSource)
    (scope : Scope) (h : scopeWith parse blocks o source = .ok (some scope)) :
    ∃ (parsed : List (List Node)) (uses : List Use),
      blocks.mapM (fun b => parse b.content) = .ok parsed ∧
      uses.map (fun u => (u.flags, u.entry)) =
        (blocks.zip parsed).flatMap (fun p => (entriesIn false p.2).map (blockFlags p.1, ·)) ∧
      uses.map (·.result) = scope.sheets.flatMap (selectorsIn false) ∧
      ∀ u ∈ uses, u.flags.isGlobal = false → u.flags.external = false →
        ∃ origin, openGlobals u.entry.selector = .ok origin ∧ (cleanForm origin ≠ [] →
          ∃ b ∈ scope.buckets, ∃ t, b.text = (cleanForm origin).print ∧ b.local = some t ∧
            (∃ row, Inserts t origin u.result row) ∧
            List.Forall₂ (CompoundScoped t) (compoundsOf origin) (compoundsOf u.result)) := by
  obtain ⟨parsed, uses, hparsed, _, huses, hmet, hout⟩ := scopeWith_uses h
  obtain ⟨hsettled, _⟩ := huses.settled (.start _)
  refine ⟨parsed, uses, hparsed, hmet, hout, fun u hu hglobal hlocal => ?_⟩
  obtain ⟨origin, hopen, hplaced⟩ := hsettled.placed u hu
  refine ⟨origin, hopen, fun hclean => ?_⟩
  generalize u.result = result at hplaced
  cases hplaced with
  | plain hplain => simp_all
  | @own b t row _ _ hb htext htoken hrow =>
    exact ⟨b, hb, t, htext, htoken, ⟨row, hrow⟩, compounds_mark t origin⟩
  | exported _ hext => simp_all
  | declared _ hext => simp_all

/-! A rule for links in paragraphs, and a class in three blocks: one of the component, one of what it
lends, and one of the document. -/

def linkStyles : Markup.RawBlock :=
  { kind := .style, attributes := [], openTag := "<style>", content := "p a\x7b\x7d",
    span := ⟨14, 34⟩ }

def linkSelector : Selector := [{ kind := .type "p" }, { kind := .space }, { kind := .type "a" }]

/-- The selectors of a sheet whose rules are empty: these can be compared, nodes cannot. -/
def emptyRules : List Node → Option (List (List Selector))
  | [] => some []
  | .rule (.selectors list) [] :: rest => (emptyRules rest).map (list :: ·)
  | _ => none

theorem eq_of_emptyRules (h : emptyRules nodes = some lists) :
    nodes = lists.map fun list => .rule (.selectors list) [] := by
  fun_induction emptyRules nodes generalizing lists with
  | case1 => cases h; rfl
  | case2 list rest ih =>
    obtain ⟨others, hrest, rfl⟩ := Option.map_eq_some_iff.mp h
    rw [ih hrest, map_cons]
  | case3 => cases h

theorem parseSheet_eq (lists : List (List Selector))
    (h : (parseSheet text).toOption.bind emptyRules = some lists) :
    parseSheet text = .ok (lists.map fun list => .rule (.selectors list) []) := by
  cases hparse : parseSheet text with
  | error _ =>
    rw [hparse] at h
    cases h
  | ok nodes =>
    rw [hparse] at h
    rw [eq_of_emptyRules h]

theorem parse_linkStyles :
    parseSheet linkStyles.content = .ok [.rule (.selectors [linkSelector]) []] :=
  parseSheet_eq [[linkSelector]] (by decide +kernel)

def classStyles (attributes : List Markup.Attribute) (openTag : String) (span : Text.Span) :
    Markup.RawBlock :=
  { kind := .style, attributes, openTag, content := ".a\x7b\x7d", span }

def classSelector (name : String) : Selector := [{ kind := .«class» name }]

theorem parse_classStyles : parseSheet ".a\x7b\x7d" =
    .ok [.rule (.selectors [classSelector "a"]) []] :=
  parseSheet_eq [[classSelector "a"]] (by decide +kernel)

def lentStyles : List Markup.RawBlock :=
  [linkStyles, classStyles [] "<style>" ⟨34, 53⟩,
    classStyles [.plain "external" none] "<style external>" ⟨53, 81⟩,
    classStyles [.plain "global" none] "<style global>" ⟨81, 107⟩]

def linkScope : Scope where
  id := "p0"
  sheets := [[.rule (.selectors [mark "p0" none linkSelector]) []]]
  buckets := [{ text := "p a", clean := linkSelector, isSimple := false, «local» := some "p0",
                origin := "p a" }]
  index := [("p a", 0)]
  tokens := .numbered "p" 1

def classScope (lent : Option Alias) (selectors : List Selector) : Scope where
  id := "p0"
  hasExternal := lent.isSome
  sheets := linkScope.sheets ++ selectors.map fun s => [.rule (.selectors [s]) []]
  buckets := linkScope.buckets ++
    [{ text := ".a", clean := classSelector "a", isSimple := true, «local» := some "p1",
       «external» := lent, origin := ".a" }]
  index := (".a", 1) :: linkScope.index
  tokens := .numbered "p" 2

def lentScope : Scope :=
  classScope (some .passthrough)
    [classSelector "a" ++ classSelector "p1", classSelector "a", classSelector "a"]

theorem addBlock_linkStyles :
    Runs (addBlock parseSheet linkStyles) { id := "p0", tokens := .numbered "p" 1 } () linkScope :=
  runs_addBlock.mpr ⟨_, _, { linkScope with sheets := [] }, parse_linkStyles, rfl, rfl⟩

theorem scopeOf_lentStyles :
    scopeOf lentStyles {} (some (.numbered "p" 0)) = .ok (some lentScope) := by
  have hown : Runs (addBlock parseSheet (classStyles [] "<style>" ⟨34, 53⟩)) linkScope ()
      (classScope none [classSelector "a" ++ classSelector "p1"]) :=
    runs_addBlock.mpr ⟨_, _, classScope none [], parse_classStyles, rfl, rfl⟩
  have hlent : Runs (addBlock parseSheet
        (classStyles [.plain "external" none] "<style external>" ⟨53, 81⟩))
      (classScope none [classSelector "a" ++ classSelector "p1"]) ()
      (classScope (some .passthrough) [classSelector "a" ++ classSelector "p1", classSelector "a"]) :=
    runs_addBlock.mpr ⟨_, _, classScope (some .passthrough) [classSelector "a" ++ classSelector "p1"],
      parse_classStyles, rfl, rfl⟩
  have hglobal : Runs (addBlock parseSheet
        (classStyles [.plain "global" none] "<style global>" ⟨81, 107⟩))
      (classScope (some .passthrough) [classSelector "a" ++ classSelector "p1", classSelector "a"]) ()
      lentScope :=
    runs_addBlock.mpr ⟨_, _, _, parse_classStyles, rfl, rfl⟩
  exact scopeWith_of_runs (by decide) <| runs_bind.mpr ⟨(), _, addBlock_linkStyles,
    runs_bind.mpr ⟨(), _, hown, runs_bind.mpr ⟨(), _, hlent, runs_bind.mpr ⟨(), _, hglobal, rfl⟩⟩⟩⟩

/-- The two tokens of the scope are distinct, and of the four selectors the first two carry them. -/
theorem buckets_stay_consistent_lentStyles :
    scopeOf lentStyles {} (some (.numbered "p" 0)) = .ok (some lentScope) ∧
      lentScope.id :: lentScope.ownTokens = ["p0", "p1"] ∧
      (∃ n, ((TokenSource.numbered "p" 0).first n).Perm ["p0", "p1"]) ∧
      ∃ uses : List Use, uses.map (·.result) =
          [mark "p0" none linkSelector, classSelector "a" ++ classSelector "p1", classSelector "a",
            classSelector "a"] ∧
        ∀ u ∈ uses, ∃ origin, openGlobals u.entry.selector = .ok origin ∧
          Placed lentScope u.flags origin u.result := by
  obtain ⟨parsed, uses, _, _, hout, _, ⟨n, _, hperm, _⟩, _, hplaced⟩ :=
    buckets_stay_consistent parseSheet lentStyles {} (some (.numbered "p" 0)) lentScope
      scopeOf_lentStyles
  exact ⟨scopeOf_lentStyles, rfl, ⟨n, hperm.symm⟩, uses, hout, hplaced⟩

/-- The rule for links carries the token of the component in both of its compounds. -/
theorem local_compounds_are_scoped_lentStyles :
    scopeOf lentStyles {} (some (.numbered "p" 0)) = .ok (some lentScope) ∧
      ∃ u : Use, u.flags = {} ∧ u.entry = ⟨true, linkSelector⟩ ∧ cleanForm linkSelector ≠ [] ∧
        ∃ b ∈ lentScope.buckets, ∃ t, b.local = some t ∧
          List.Forall₂ (CompoundScoped t) (compoundsOf linkSelector) (compoundsOf u.result) := by
  refine ⟨scopeOf_lentStyles, ?_⟩
  obtain ⟨parsed, uses, hparsed, hmet, _, hscoped⟩ :=
    local_compounds_are_scoped parseSheet lentStyles {} (some (.numbered "p" 0)) lentScope
      scopeOf_lentStyles
  have hall : lentStyles.mapM (fun b => parseSheet b.content) =
      .ok ([.rule (.selectors [linkSelector]) []] ::
        List.replicate 3 [.rule (.selectors [classSelector "a"]) []]) := by
    simp only [lentStyles, classStyles, List.mapM_cons, List.mapM_nil, parse_linkStyles,
      parse_classStyles]
    rfl
  cases hparsed.symm.trans hall
  have hmem : (({}, ⟨true, linkSelector⟩) : BlockFlags × Entry) ∈
      uses.map fun u => (u.flags, u.entry) := by
    rw [hmet]
    exact List.mem_cons_self
  obtain ⟨u, hu, heq⟩ := List.mem_map.mp hmem
  obtain ⟨hflags, hentry⟩ := Prod.mk.inj heq
  obtain ⟨origin, hopen, hcarried⟩ := hscoped u hu (by rw [hflags]) (by rw [hflags])
  rw [hentry] at hopen
  cases hopen
  have hclean : cleanForm linkSelector ≠ [] := by decide
  obtain ⟨b, hb, t, _, ht, _, hcompounds⟩ := hcarried hclean
  exact ⟨u, hflags, hentry, hclean, b, hb, t, ht, hcompounds⟩

end ReactiveMarkup.Style
