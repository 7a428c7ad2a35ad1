import ReactiveMarkup.Proofs.ListIdentity
import ReactiveMarkup.Proofs.SiblingDigest

/-! # Rounds of blocks under one parent

Blocks are registered, and then values are given and digested, round after round.
-/

namespace ReactiveMarkup.Reactive

open List Value Nat

variable {κ υ : Type}

/-! ## Registration -/

/-- A detector and a parent for which blocks can be registered. -/
structure Prepared (page : PageReader) (owner : DetectorId) (parent : NodeId) (w : World κ υ) :
    Prop where
  alive : owner < w.detectors.size
  hierarchy : Hierarchy w
  linked : w.document.Linked
  known : parent < w.document.nodes.size
  faithful : w.document.Faithful page (· = parent)

def World.family (w : World κ υ) (page : PageReader) (owner : DetectorId) (parent : NodeId)
    (blocks : List (Sibling κ)) : Family κ where
  page := page
  owner := owner
  parent := parent
  base := w.document.children parent
  blocks := blocks

def World.nextBlock (w : World κ υ) (kind : BlockKind κ) (label : NodeId) (k : κ) : Sibling κ where
  kind := kind
  label := label
  hook := k
  watcher := w.watchers.size
  record := match kind with
    | .choice .. => w.points.size
    | .markup => w.markups.size

variable (page : PageReader) (owner : DetectorId) (parent : NodeId) (w₀ : World κ υ) in
/-- Blocks are registered one after the other, and other code runs between them. -/
inductive Enrolled : List (Sibling κ) → World κ υ → Prop where
  | start : Enrolled [] w₀
  | block (kind : BlockKind κ) (label : NodeId) (k : κ) :
      Enrolled bs w → label ∈ w₀.document.children parent →
      label ∉ bs.map (·.label) →
      (∀ br ∈ kind.branches,
        br.template < w.document.nodes.size ∧ w.document.kind br.template = .fragment) →
      Returns (kind.register owner label k) w () w' →
      Enrolled (bs ++ [w.nextBlock kind label k]) w'
  | other : Enrolled bs w → Apart (w₀.family page owner parent bs) w w' → Enrolled bs w'

section Registration

variable {page : PageReader} {owner : DetectorId} {parent : NodeId} {w₀ w w' : World κ υ}
  {bs : List (Sibling κ)}

theorem Family.mounted_blank {s : Family κ} : s.mounted (fun _ => {}) = [] := by
  rw [Family.mounted, filterMap_eq_nil_iff]
  intro b _
  rfl

structure Registers (owner : DetectorId) (b : Sibling κ) (w w' : World κ υ) : Prop where
  document : w'.document = w.document
  detectors : w'.detectors.size = w.detectors.size
  children : ∀ j, childrenOf w' j = childrenOf w j
  listed : watchersOf w' owner = watchersOf w owner ++ [b.watcher]
  elsewhere : ∀ j, j ≠ owner → watchersOf w' j = watchersOf w j
  watchers : w'.watchers = w.watchers.push (b.watch .undefined)
  record : b.record? w' = some (b.entry owner {})
  others : ∀ x : Sibling κ, (x.record? w).isSome → x.slot ≠ b.slot ∧ x.record? w' = x.record? w

theorem watchersOf_watch (hd : d < w.detectors.size) (i : WatcherId) :
    watchersOf { w with detectors := w.detectors.modify d fun c =>
      { c with watchers := c.watchers ++ [i] } } d = watchersOf w d ++ [i] := by
  simp [watchersOf, Array.getElem_modify, hd]

theorem watchersOf_modify_ne (hne : j ≠ i) :
    watchersOf { w with detectors := w.detectors.modify i f } j = watchersOf w j := by
  simp [watchersOf, Array.getElem?_modify, hne.symm]

theorem registers (hd : owner < w.detectors.size)
    (hret : Returns (kind.register owner label k) w () w') :
    Registers owner (w.nextBlock kind label k) w w' := by
  have hchildren := childrenOf_modify_of (w := w)
    (f := fun c => { c with watchers := c.watchers ++ [w.watchers.size] }) (fun _ => rfl) owner
  have hlisted := watchersOf_watch hd w.watchers.size
  cases kind with
  | choice main alt | markup =>
    cases hret
    refine ⟨rfl, by simp, hchildren, hlisted, fun j => watchersOf_modify_ne, rfl, ?_, ?_⟩
    · simp [Sibling.record?, Sibling.entry, World.nextBlock]
    · intro x hx
      unfold Sibling.record? at hx
      unfold Sibling.slot Sibling.record?
      cases hk : x.kind with
      | choice main' alt' | markup =>
        simp only [hk, Option.isSome_map, isSome_getElem?] at hx
        simp [World.nextBlock, Array.getElem?_push, hx.ne]

theorem Registers.hierarchy (hr : Registers owner b w w') (ho : Hierarchy w)
    (hb : b.watcher = w.watchers.size) : Hierarchy w' := by
  have hsize : w'.watchers.size = w.watchers.size + 1 := by rw [hr.watchers, Array.size_push]
  constructor
  · intro j
    rw [hr.children]
    exact ho.once j
  · intro j c hc
    rw [hr.children] at hc
    rw [hr.detectors]
    exact ho.newer j c hc
  · intro i j c hi hj
    rw [hr.children] at hi hj
    exact ho.parent i j c hi hj
  · intro j
    by_cases hj : j = owner
    · rw [hj, hr.listed, ← concat_eq_append]
      refine (ho.distinct owner).concat fun hm => ?_
      exact lt_irrefl _ (hb ▸ ho.stored owner _ hm)
    · rw [hr.elsewhere j hj]
      exact ho.distinct j
  · intro j i hi
    rw [hsize]
    by_cases hj : j = owner
    · rw [hj, hr.listed] at hi
      rcases mem_append.mp hi with hi | hi
      · exact lt_succ_of_lt (ho.stored owner i hi)
      · obtain rfl : i = b.watcher := by simpa using hi
        exact hb ▸ lt_succ_self _
    · rw [hr.elsewhere j hj] at hi
      exact lt_succ_of_lt (ho.stored j i hi)

theorem Posed.register
    (hp : Posed (w₀.family page owner parent bs) others (fun _ => {}) (fun _ => []) w)
    (hin : label ∈ w₀.document.children parent) (hnew : label ∉ bs.map (·.label))
    (htemplates : ∀ br ∈ kind.branches,
      br.template < w.document.nodes.size ∧ w.document.kind br.template = .fragment)
    (hret : Returns (kind.register owner label k) w () w') :
    Posed (w₀.family page owner parent (bs ++ [w.nextBlock kind label k])) others (fun _ => {})
      (fun _ => []) w' := by
  obtain ⟨hs, hf, hd, -⟩ := hp
  have hr := registers hf.alive hret
  generalize hb : w.nextBlock kind label k = b at hr ⊢
  obtain ⟨hlabel, hkind, hwatcher⟩ : b.label = label ∧ b.kind = kind ∧
      b.watcher = w.watchers.size := by
    subst hb
    exact ⟨rfl, rfl, rfl⟩
  have hold : ∀ x ∈ bs, x.watcher < w.watchers.size := fun x hx =>
    (Array.getElem?_eq_some_iff.mp (hf.watchers x hx)).1
  have hkept : ∀ x ∈ bs, x.slot ≠ b.slot ∧ x.record? w' = x.record? w := fun x hx =>
    hr.others x (by rw [hf.records x hx]; rfl)
  have hall : ∀ {P : Sibling κ → Prop}, (∀ x ∈ bs, P x) → P b → ∀ x ∈ bs ++ [b], P x :=
    fun h hb => forall_mem_append.mpr ⟨h, forall_mem_singleton.mpr hb⟩
  have hdistinct : ∀ {α : Type} (f : Sibling κ → α), (bs.map f).Nodup → (∀ x ∈ bs, f x ≠ f b) →
      ((bs ++ [b]).map f).Nodup := by
    intro α f hn hne
    rw [map_append, map_singleton, ← concat_eq_append]
    refine hn.concat fun hm => ?_
    obtain ⟨x, hx, he⟩ := mem_map.mp hm
    exact hne x hx he
  refine ⟨⟨hs.base, ?_, ?_, ?_, ?_⟩, ⟨?_, ?_, ?_, ?_, ?_, ?_⟩, ?_, fun _ _ _ => rfl⟩
  · refine hdistinct _ hs.labels fun x hx he => ?_
    exact hnew (hlabel ▸ he ▸ mem_map_of_mem hx)
  · refine hdistinct _ hs.watchers fun x hx he => ?_
    exact (hold x hx).ne (he.trans hwatcher)
  · exact hdistinct _ hs.slots fun x hx => (hkept x hx).1
  · exact hall hs.inside (hlabel ▸ hin)
  · exact hr.detectors ▸ hf.alive
  · exact hr.hierarchy hf.hierarchy hwatcher
  · have hchildren := hf.children
    rw [Family.mounted_blank] at hchildren ⊢
    exact (hr.children owner).symm ▸ hchildren
  · have hlisted : ∀ x ∈ bs ++ [b], x.watcher ∈ watchersOf w owner ++ [b.watcher] :=
      hall (fun x hx => mem_append_left _ (hf.listed x hx)) (by simp)
    exact hr.listed.symm ▸ hlisted
  · refine hall (fun x hx => ?_) ?_
    · rw [hr.watchers, Array.getElem?_push, if_neg ((hold x hx).ne)]
      exact hf.watchers x hx
    · rw [hr.watchers, hwatcher, Array.getElem?_push_size]
  · exact hall (fun x hx => (hkept x hx).2.trans (hf.records x hx)) hr.record
  · rw [hr.document]
    exact ⟨hd.linked, hd.known, hall hd.templates (hkind ▸ htemplates), hd.faithful, hd.siblings⟩

theorem Enrolled.posed (hw : Prepared page owner parent w₀)
    (he : Enrolled page owner parent w₀ bs w) :
    Posed (w₀.family page owner parent bs) (childrenOf w₀ owner) (fun _ => {}) (fun _ => []) w := by
  induction he with
  | start =>
    refine ⟨⟨hw.linked.nodup parent, .nil, .nil, .nil, nofun⟩, ?_, ?_, nofun⟩
    · refine ⟨hw.alive, hw.hierarchy, ?_, nofun, nofun, nofun⟩
      rw [Family.mounted_blank, append_nil]
      exact .refl _
    · refine ⟨hw.linked, hw.known, nofun, hw.faithful, ?_⟩
      simp [World.family]
  | other _ ha ih => exact ih.apart ha
  | block kind label k _ hin hnew htemplates hret ih => exact ih.register hin hnew htemplates hret

theorem Sibling.displays_blank (b : Sibling κ) : b.Displays h valid 0 0 {} [] := by
  unfold Sibling.Displays
  cases b.kind with
  | choice main alt => exact ⟨rfl, rfl⟩
  | markup => exact ⟨rfl, rfl, rfl, nofun⟩

end Registration

/-! ## Values that pass for each other -/

theorem mantissa_eq_zero_of_eq (h : (Number.Binary.finite s m e).eq (.finite t n k) = true) :
    m = 0 ↔ n = 0 := by
  have hpos : ∀ i : Nat, Nat.pow 2 i ≠ 0 := fun i => (Nat.pow_pos (by decide)).ne'
  have hsign : ∀ (c : Bool) (z : Nat), (if c = true then -(z : Int) else z).natAbs = z := by
    intro c z
    cases c <;> simp
  simp only [Number.Binary.eq, Number.Binary.align, beq_iff_eq] at h
  have habs := congrArg Int.natAbs h
  rw [hsign, hsign] at habs
  constructor
  · rintro rfl
    rw [Nat.zero_mul] at habs
    exact (Nat.mul_eq_zero.mp habs.symm).resolve_right (hpos _)
  · rintro rfl
    rw [Nat.zero_mul] at habs
    exact (Nat.mul_eq_zero.mp habs).resolve_right (hpos _)

theorem isZero_of_eq {a b : Number.Binary} (h : a.eq b = true) :
    a.isZero = b.isZero ∧ a ≠ .nan ∧ b ≠ .nan := by
  cases a with
  | nan => cases h
  | infinite s =>
    cases b with
    | infinite t => exact ⟨rfl, nofun, nofun⟩
    | _ => cases h
  | finite s m e =>
    cases b with
    | finite t n k =>
      have hzero := mantissa_eq_zero_of_eq h
      refine ⟨?_, nofun, nofun⟩
      cases m with
      | zero => rw [hzero.mp rfl]; rfl
      | succ m =>
        cases n with
        | zero => exact absurd (hzero.mpr rfl) (succ_ne_zero m)
        | succ n => rfl
    | _ => cases h

theorem Value.isTruthy_of_same {v v' : Value} (h : v.same v' = true) :
    v.isTruthy = v'.isTruthy := by
  cases v with
  | number a =>
    cases v' with
    | number b =>
      rw [same, Bool.or_eq_true] at h
      rcases h with h | h
      · obtain ⟨hz, ha, hb⟩ := isZero_of_eq h
        rw [isTruthy, isTruthy, hz, bne_iff_ne.mpr ha, bne_iff_ne.mpr hb]
      · obtain ⟨rfl, rfl⟩ : a = .nan ∧ b = .nan := by simpa using h
        rfl
    | _ => cases h
  | _ => cases v' <;> simp_all [same, isTruthy]

theorem Value.eq_of_same_string {v : Value} (h : v.same (.string t) = true) : v = .string t := by
  cases v <;> simp_all [same]

theorem Value.eq_of_same_bool {v : Value} (h : v.same (.bool t) = true) : v = .bool t := by
  cases v <;> simp_all [same]

/-! ## Rounds -/

variable (h : Host κ υ) (s : Family κ) (valid : (κ → Value) → World κ υ → Prop)
  (finish : Act κ υ Unit) (w₀ : World κ υ) in
/-- Round after round the hooks are made to give other values, and a digest of the owner follows. -/
inductive Rounds : List (κ → Value) → World κ υ → Prop where
  | start : Rounds [] w₀
  | round (given : κ → Value) : Rounds vs w → Apart s w u → valid given u →
    Returns (digest h s.owner finish) u n w' → Rounds (vs ++ [given]) w'

/-- The blocks after a digest in which the hooks gave `last`, or before the first one. Each child
that the parent had is followed by the nodes `own` of its block: a choice shows a copy of the one
branch that its value selects, and markup the trees of its text. The owner has one more child for
each branch that is mounted. -/
structure Arranged (h : Host κ υ) (s : Family κ) (valid : (κ → Value) → World κ υ → Prop)
    (others : List DetectorId) (last : Option (κ → Value)) (w : World κ υ) (note : NodeId → Note)
    (own : NodeId → List NodeId) : Prop where
  siblings : w.document.children s.parent = s.base.flatMap fun n => n :: own n
  bare : ∀ n, n ∉ s.blocks.map (·.label) → own n = []
  blank : last = none → ∀ b ∈ s.blocks, (note b.label).mounted = none ∧ own b.label = []
  choice : ∀ given, last = some given → ∀ b ∈ s.blocks, ∀ main alt, b.kind = .choice main alt →
    w.points[b.record]? =
        some { owner := s.owner, label := b.label, mounted := (note b.label).mounted } ∧
      match if (given b.hook).isTruthy then some main else alt with
      | some br => ∃ m, (note b.label).mounted = some m ∧
          br.Copy h (Known valid) 0 0 m (own b.label)
      | none => (note b.label).mounted = none ∧ own b.label = []
  markup : ∀ given, last = some given → ∀ b ∈ s.blocks, b.kind = .markup →
    (note b.label).mounted = none ∧ ∃ v : Value, v.same (given b.hook) = true ∧
      v.isTruthy = (given b.hook).isTruthy ∧ (∀ t, given b.hook = .string t → v = .string t) ∧
      w.document.HoldsAll (w.document.Away (· = s.parent)) (v.trees h.page) (own b.label)
  children : (childrenOf w s.owner).Perm (others ++ s.mounted note)
  once : (childrenOf w s.owner).Nodup

section Rounds

variable {h : Host κ υ} {s : Family κ} {valid : (κ → Value) → World κ υ → Prop}
  {finish : Act κ υ Unit} {others : List DetectorId} {note : NodeId → Note}
  {own : NodeId → List NodeId} {w w₀ : World κ υ}

theorem Laid.arranged (hl : Laid h s valid others note own w) {given : κ → Value}
    (hc : ∀ b ∈ s.blocks, b.Current given note) :
    Arranged h s valid others (some given) w note own where
  siblings := hl.posed.drawn.siblings
  bare := hl.bare
  blank := nofun
  choice := by
    rintro _ ⟨⟩ b hb main alt hk
    refine ⟨hl.posed.point_eq hb hk, ?_⟩
    have hseen := hc b hb
    rw [Sibling.Current, Sibling.target, hk] at hseen
    have hd := hl.displays b hb
    rw [Sibling.Displays, hk, eq_of_same_bool hseen] at hd
    exact hd
  markup := by
    rintro _ ⟨⟩ b hb hk
    have hseen := hc b hb
    rw [Sibling.Current, Sibling.target, hk] at hseen
    have hd := hl.displays b hb
    rw [Sibling.Displays, hk] at hd
    refine ⟨hd.1, (note b.label).seen, hseen, isTruthy_of_same hseen, ?_, ?_⟩
    · intro t ht
      refine eq_of_same_string ?_
      rw [← ht]
      exact hseen
    · have hworded := hl.posed.worded b hb hk
      rw [hd.2.2.1] at hworded
      exact hworded
  children := hl.posed.filed.children
  once := hl.posed.filed.hierarchy.once s.owner

theorem Laid.arranged_blank (hl : Laid h s valid others (fun _ => {}) (fun _ => []) w) :
    Arranged h s valid others none w (fun _ => {}) (fun _ => []) where
  siblings := hl.posed.drawn.siblings
  bare := hl.bare
  blank := fun _ _ _ => ⟨rfl, rfl⟩
  choice := nofun
  markup := nofun
  children := hl.posed.filed.children
  once := hl.posed.filed.hierarchy.once s.owner

theorem Posed.blank (hp : Posed s others (fun _ => {}) (fun _ => []) w) :
    Laid h s valid others (fun _ => {}) (fun _ => []) w :=
  ⟨hp, fun b _ => b.displays_blank, fun _ _ => rfl⟩

theorem Rounds.laid (ht : Tame h s valid finish)
    (hl : Laid h s valid others (fun _ => {}) (fun _ => []) w₀)
    (hr : Rounds h s valid finish w₀ vs w) : ∃ note own, Laid h s valid others note own w ∧
      Arranged h s valid others vs.getLast? w note own := by
  induction hr with
  | start => exact ⟨_, _, hl, hl.arranged_blank⟩
  | round given _ ha hv hret ih =>
    obtain ⟨note, own, hl', -⟩ := ih
    have hmeets := (hl'.apart ha).digest ht hv
    rw [Meets.of_outcome hret] at hmeets
    obtain ⟨note', own', hadv, hcurrent⟩ := hmeets
    refine ⟨note', own', hadv.1, ?_⟩
    rw [getLast?_append, getLast?_singleton]
    exact hadv.1.arranged hcurrent

end Rounds

/-- Whatever values the hooks give in whatever order, the children of the parent are those it had,
each label followed by what its block shows for its last value. A further round changes only the
blocks whose values have changed, and if it stops then not because of a block. -/
theorem siblings_arranged (h : Host κ υ) (valid : (κ → Value) → World κ υ → Prop)
    (finish : Act κ υ Unit) (owner : DetectorId) (parent : NodeId) (w₀ w₁ w : World κ υ)
    (bs : List (Sibling κ)) (vs : List (κ → Value)) (hw : Prepared h.page owner parent w₀)
    (he : Enrolled h.page owner parent w₀ bs w₁)
    (ht : Tame h (w₀.family h.page owner parent bs) valid finish)
    (hr : Rounds h (w₀.family h.page owner parent bs) valid finish w₁ vs w) :
    ∃ note own,
      Arranged h (w₀.family h.page owner parent bs) valid (childrenOf w₀ owner) vs.getLast? w note
        own ∧
      ∀ given u, Apart (w₀.family h.page owner parent bs) w u → valid given u →
        Meets (Interrupted h (w₀.family h.page owner parent bs) (Known valid) finish u)
          (digest h owner finish) u fun _ w' => ∃ note' own',
            Arranged h (w₀.family h.page owner parent bs) valid (childrenOf w₀ owner) (some given) w'
              note' own' ∧
            Moved h (w₀.family h.page owner parent bs) valid given u note own note' own' := by
  obtain ⟨note, own, hl, harranged⟩ := hr.laid ht (he.posed hw).blank
  refine ⟨note, own, harranged, ?_⟩
  intro given u ha hv
  refine ((hl.apart ha).digest ht hv).mono ?_
  rintro _ w' ⟨note', own', hadv, hcurrent⟩
  exact ⟨note', own', hadv.1.arranged hcurrent, hadv.2.2.2⟩

theorem Returns.of_ok {x : Act κ υ α} {a : α} (h : (outcome x w).1 = .ok a) :
    Returns x w a (outcome x w).2 :=
  Prod.ext h rfl

/-! A condition and a text are shown at two children of one element. -/

section Sample

def telling : Host Unit String where
  read _ := return .string (← get).user
  key _ v _ := pure v
  run _ _ := pure ()
  buildItem _ _ _ _ _ := pure ()
  attach _ _ := pure { destroy := (), setters := [] }
  construct _ _ _ := throw .failed
  options _ := pure {}
  page := Fragment.read

def tellingWorld : World Unit String where
  user := ""
  document := sampleDocument
  detectors := #[{ root := 0 }]

abbrev tellingKind : BlockKind Unit := .choice { template := 5, build := () } none

def tellingHalf : World Unit String :=
  { tellingWorld with
    detectors := #[{ root := 0, watchers := [0] }]
    points := #[{ owner := 0, label := 1 }]
    watchers := #[(tellingWorld.nextBlock tellingKind 1 ()).watch .undefined] }

abbrev tellingBlocks : List (Sibling Unit) :=
  [tellingWorld.nextBlock tellingKind 1 (), tellingHalf.nextBlock .markup 3 ()]

abbrev tellingFamily : Family Unit := tellingWorld.family Fragment.read 0 0 tellingBlocks

def tellingRegistered : World Unit String :=
  { tellingHalf with
    detectors := #[{ root := 0, watchers := [0, 1] }]
    markups := #[{ label := 3 }]
    watchers := #[(tellingWorld.nextBlock tellingKind 1 ()).watch .undefined,
      (tellingHalf.nextBlock .markup 3 ()).watch .undefined] }

/-- The user has set the text that is given, there are the watchers of the two blocks, and nothing
is to be done when a detector is destroyed. -/
structure Telling (given : Unit → Value) (w : World Unit String) : Prop where
  text : given () = .string w.user
  flat : Flat 0 w
  watchers : w.watchers.size = 2

theorem Telling.step (hw : Telling given w) (hstep : BlockStep tellingFamily w w') :
    Telling given w' := by
  obtain ⟨htext, hflat, hwatchers⟩ := hw
  cases hstep with
  | redraw _ | point b m _ | mark b last _ => exact ⟨htext, ⟨hflat.quiet, hflat.single⟩, hwatchers⟩
  | adopt hret =>
    obtain ⟨ds, rfl⟩ := newChild_world hret
    exact ⟨htext, hflat.adopt hret, hwatchers⟩
  | dismiss hret =>
    cases hret
    exact ⟨htext, hflat.modify 0 (fun _ hc => hc) (.inl rfl), hwatchers⟩
  | remember b v _ =>
    exact ⟨htext, ⟨hflat.quiet, hflat.single⟩, by simpa [World.remember] using hwatchers⟩
  | drain => exact ⟨htext, hflat.modify 0 (fun _ hc => hc) (.inl rfl), hwatchers⟩

theorem childrenOf_retire_ne (hj : j ≠ k) : childrenOf (w.retire j) k = childrenOf w k := by
  simp [World.retire, childrenOf, Array.getElem?_modify, hj]

theorem childrenOf_retire_self {w : World κ υ} {j : DetectorId} :
    childrenOf (w.retire j) j = [] := by
  cases hj : w.detectors[j]? <;> simp [World.retire, childrenOf, Array.getElem?_modify, hj]

theorem watchersOf_retire_ne (hj : j ≠ k) : watchersOf (w.retire j) k = watchersOf w k := by
  simp [World.retire, watchersOf, Array.getElem?_modify, hj]

theorem Hierarchy.retire (hw : Hierarchy w) : Hierarchy (w.retire j) := by
  have hw₁ := hw.modify j
    (f := fun c => { c with destroyed := true, watchers := [], preludes := [] })
    (fun _ => .refl _) fun _ => nil_sublist _
  have hw₂ := hw₁.modify j (f := fun c => { c with cleanups := [] }) (fun _ => .refl _)
    fun _ => .refl _
  exact hw₂.modify j (fun _ => nil_sublist _)
    fun _ => .refl _

theorem Apart.retire (hl : w.document.Linked) (hj : j ≠ s.owner) : Apart s w (w.retire j) where
  linked := hl
  nodes := le_refl _
  kinds := fun _ _ => Iff.rfl
  siblings := rfl
  faithful := fun _ _ hf => hf
  texts := fun _ _ _ _ _ _ _ ht => ht
  detectors := by simp [World.retire]
  stored := le_refl _
  children := childrenOf_retire_ne hj
  settled := by
    intro k c _ hm
    by_cases hk : j = k
    · rw [← hk, childrenOf_retire_self] at hm
      cases hm
    · rwa [childrenOf_retire_ne hk] at hm
  hierarchy := fun hw => hw.retire
  listed := watchersOf_retire_ne hj ▸ prefix_rfl
  watchers := fun _ _ => rfl
  records := fun _ _ => rfl

theorem telling_tame : Tame telling tellingFamily Telling (pure ()) where
  upkeep := fun _ _ _ hw hstep => hw.step hstep
  given := by
    intro given b _ w v w' hw hret
    cases hret
    exact hw.text.symm
  page := rfl
  harmless := by
    intro given α act hact w a w' hw hl hret
    cases hact with
    | read b _ | build b br c f _ _ | prelude k | once k | finish =>
      cases hret; exact ⟨hw, .refl hl⟩
    | check i hi =>
      have hlt := lt_size_of_check hret
      rw [hw.watchers] at hlt
      have hchoice : 0 ≠ i := hi _ mem_cons_self
      have hmarkup : 1 ≠ i := hi _ (.tail _ mem_cons_self)
      have hpos := Nat.pos_of_ne_zero hchoice.symm
      exact absurd (le_antisymm hpos (le_of_lt_succ hlt)) hmarkup
    | destroy b br m ns _ _ _ hnewer =>
      have hne : m.detector ≠ 0 := hnewer.ne'
      obtain ⟨rfl, hflat⟩ := destroy_flat_eq hne hw.flat hret
      exact ⟨⟨hw.text, hflat, hw.watchers⟩, .retire hl hne⟩

theorem tellingWorld_prepared : Prepared Fragment.read 0 0 tellingWorld where
  alive := by decide
  hierarchy := by
    have hchildren : ∀ j, childrenOf tellingWorld j = [] := by
      intro j
      by_cases hj : j = 0 <;> simp [childrenOf, tellingWorld, hj]
    have hwatchers : ∀ j, watchersOf tellingWorld j = [] := by
      intro j
      by_cases hj : j = 0 <;> simp [watchersOf, tellingWorld, hj]
    constructor <;> simp [hchildren, hwatchers]
  linked := linked_sampleDocument
  known := by decide
  faithful := nofun

theorem telling_enrolled :
    Enrolled Fragment.read 0 0 tellingWorld tellingBlocks tellingRegistered := by
  have hfirst : Enrolled Fragment.read 0 0 tellingWorld
      ([] ++ [tellingWorld.nextBlock tellingKind 1 ()]) tellingHalf := by
    refine .block tellingKind 1 () .start (by decide) (by decide) ?_ rfl
    intro br hbr
    obtain rfl : br = { template := 5, build := () } := by simpa [BlockKind.branches] using hbr
    exact ⟨by decide, rfl⟩
  exact .block .markup 3 () hfirst (by decide) (by decide) (by simp [BlockKind.branches]) rfl

theorem telling_digest : ∃ n w, Returns (digest telling 0 (pure ()))
    { tellingRegistered with user := "<i>on</i>" } n w := by
  have hpasses : (outcome (digest telling 0 (pure ()))
    { tellingRegistered with user := "<i>on</i>" }).1 = .ok 2 := by decide +kernel
  exact ⟨2, _, Returns.of_ok hpasses⟩

theorem tellingSet : Telling (fun _ => .string "<i>on</i>")
    { tellingRegistered with user := "<i>on</i>" } where
  text := rfl
  flat := .lone rfl rfl
  watchers := rfl

theorem siblings_arranged_telling : ∃ w note own,
    Arranged telling tellingFamily Telling [] (some fun _ => .string "<i>on</i>") w note own ∧
    ∀ given u, Apart tellingFamily w u → Telling given u →
      Meets (Interrupted telling tellingFamily (Known Telling) (pure ()) u)
        (digest telling 0 (pure ())) u fun _ w' => ∃ note' own',
          Arranged telling tellingFamily Telling [] (some given) w' note' own' ∧
          Moved telling tellingFamily Telling given u note own note' own' := by
  obtain ⟨n, w, hret⟩ := telling_digest
  have hset : Apart tellingFamily tellingRegistered
      { tellingRegistered with user := "<i>on</i>" } :=
    { Apart.refl (s := tellingFamily) (w := tellingRegistered) linked_sampleDocument with
      hierarchy := fun hw => hw.of_same rfl rfl }
  have hround : Rounds telling tellingFamily Telling (pure ()) tellingRegistered
      ([] ++ [fun _ => .string "<i>on</i>"]) w := .round _ .start hset tellingSet hret
  obtain ⟨note, own, hmain⟩ := siblings_arranged telling Telling (pure ()) 0 0 tellingWorld
    tellingRegistered w tellingBlocks _ tellingWorld_prepared telling_enrolled telling_tame hround
  exact ⟨w, note, own, hmain⟩

end Sample

end ReactiveMarkup.Reactive
