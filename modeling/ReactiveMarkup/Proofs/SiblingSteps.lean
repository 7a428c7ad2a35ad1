import ReactiveMarkup.Proofs.SiblingBlocks

/-! # Checks of blocks under one parent

What one check of a block does: nothing if its hook gives what was seen last, and else the nodes
after its label are replaced. All other blocks stay as they are.
-/

namespace ReactiveMarkup.Reactive

open List Function Meets Nat

variable {κ υ : Type} {h : Host κ υ} {s : Family κ} {valid : (κ → Value) → World κ υ → Prop}
  {finish : Act κ υ Unit} {given : κ → Value} {others : List DetectorId}
  {note note' note'' : NodeId → Note} {own own' own'' : NodeId → List NodeId}
  {w₀ w v w' : World κ υ} {b : Sibling κ} {x : Note} {ns : List NodeId} {main : Branch κ}
  {alt : Option (Branch κ)}

/-! ## Code of the user -/

variable (s w w') in
/-- From `w` to `w'` code of the user has run that leaves the blocks alone. -/
structure Apart : Prop where
  linked : w'.document.Linked
  nodes : w.document.nodes.size ≤ w'.document.nodes.size
  kinds : ∀ n < w.document.nodes.size,
    (w'.document.kind n = .fragment ↔ w.document.kind n = .fragment)
  siblings : w'.document.children s.parent = w.document.children s.parent
  faithful : ∀ avoid : NodeId → Prop, (∀ q : Nat, avoid q → q < w.document.nodes.size) →
    w.document.Faithful s.page avoid → w'.document.Faithful s.page avoid
  texts : ∀ own : NodeId → List NodeId,
    w.document.children s.parent = s.base.flatMap (fun n => n :: own n) →
    ∀ b ∈ s.blocks, b.kind = .markup → ∀ ok ts,
      w.document.HoldsAll ok ts (own b.label) → w'.document.HoldsAll ok ts (own b.label)
  detectors : w.detectors.size ≤ w'.detectors.size
  stored : w.watchers.size ≤ w'.watchers.size
  children : childrenOf w' s.owner = childrenOf w s.owner
  settled : ∀ j, ∀ c < w.detectors.size, c ∈ childrenOf w' j → c ∈ childrenOf w j
  hierarchy : Hierarchy w → Hierarchy w'
  listed : watchersOf w s.owner <+: watchersOf w' s.owner
  watchers : ∀ b ∈ s.blocks, w'.watchers[b.watcher]? = w.watchers[b.watcher]?
  records : ∀ b ∈ s.blocks, b.record? w' = b.record? w

variable (s w w') in
/-- Nodes, detectors and watchers are only added. No detector gets another parent, and the watchers
of the owner keep their places. -/
structure Onward : Prop where
  nodes : w.document.nodes.size ≤ w'.document.nodes.size
  detectors : w.detectors.size ≤ w'.detectors.size
  stored : w.watchers.size ≤ w'.watchers.size
  settled : ∀ j, ∀ c < w.detectors.size, c ∈ childrenOf w' j → c ∈ childrenOf w j
  listed : watchersOf w s.owner <+: watchersOf w' s.owner

namespace Onward

theorem refl (s : Family κ) (w : World κ υ) : Onward s w w :=
  ⟨le_refl _, le_refl _, le_refl _, fun _ _ _ hc => hc, prefix_rfl⟩

theorem of_same (hn : w'.document.nodes.size = w.document.nodes.size)
    (hd : w'.detectors = w.detectors) (hw : w'.watchers.size = w.watchers.size) :
    Onward s w w' := by
  cases w
  cases hd
  exact ⟨hn.symm.le, le_refl _, hw.symm.le, fun _ _ _ hc => hc,
    prefix_rfl⟩

theorem trans (h : Onward s w v) (h' : Onward s v w') : Onward s w w' :=
  ⟨h.nodes.trans h'.nodes, h.detectors.trans h'.detectors,
    h.stored.trans h'.stored,
    fun j c hc hm => h.settled j c hc (h'.settled j c (hc.trans_le h.detectors) hm),
    h.listed.trans h'.listed⟩

theorem adopt (hret : Returns (newChild s.owner) w c w') : Onward s w w' := by
  obtain ⟨-, hsize, -⟩ := newChild_eq hret
  have hsettled := newChild_settled hret
  have hlisted := newChild_watchersOf hret s.owner
  obtain ⟨ds, rfl⟩ := newChild_world hret
  exact ⟨le_refl _, (lt_of_lt_of_eq (lt_succ_self _) hsize.symm).le,
    le_refl _, hsettled, hlisted ▸ prefix_rfl⟩

theorem dismiss (hret : Returns (removeChild s.owner c) w () w') : Onward s w w' := by
  cases hret
  have hlisted := watchersOf_modify_of (w := w)
    (f := fun d => { d with children := d.children.filter (· != c) }) (fun _ => rfl) s.owner s.owner
  refine ⟨le_refl _, by simp, le_refl _, ?_, hlisted ▸ prefix_rfl⟩
  exact fun j _ _ hc => (childrenOf_modify_sublist (fun _ => filter_sublist)).subset hc

theorem arrange (h : Onward s w w') (hn : w'.document.nodes.size ≤ e.nodes.size) :
    Onward s w { w' with document := e } :=
  ⟨h.nodes.trans hn, h.detectors, h.stored, h.settled, h.listed⟩

end Onward

namespace Apart

theorem refl (hl : w.document.Linked) : Apart s w w :=
  ⟨hl, le_refl _, fun _ _ => Iff.rfl, rfl, fun _ _ h => h, fun _ _ _ _ _ _ _ h => h,
    le_refl _, le_refl _, rfl, fun _ _ _ hc => hc, fun h => h, prefix_rfl,
    fun _ _ => rfl, fun _ _ => rfl⟩

theorem onward (h : Apart s w w') : Onward s w w' :=
  ⟨h.nodes, h.detectors, h.stored, h.settled, h.listed⟩

end Apart

inductive Redrawn (s : Family κ) (d : Document (Reaction κ)) : Document (Reaction κ) → Prop where
  | clone (b : Sibling κ) (br : Branch κ) : b ∈ s.blocks → br ∈ b.kind.branches →
      Redrawn s d (d.clone br.template true).2
  | fetch (text : String) : Redrawn s d (d.fragment s.page text false).2
  | insert (b : Sibling κ) (f : NodeId) : b ∈ s.blocks → d.kind f = .fragment → f ≠ s.parent →
      Redrawn s d (d.insertBefore s.parent f (d.nextSibling? b.label))
  | remove (ns : List NodeId) : (∀ n ∈ ns, n ∈ d.children s.parent ∧ n ∉ s.base) →
      Redrawn s d (ns.foldl Document.detach d)

variable (s w) in
inductive BlockStep : World κ υ → Prop where
  | redraw : Redrawn s w.document e → BlockStep { w with document := e }
  | adopt {w' : World κ υ} : Returns (newChild s.owner) w c w' → BlockStep w'
  | dismiss {w' : World κ υ} : Returns (removeChild s.owner c) w () w' → BlockStep w'
  | point (b : Sibling κ) (m : Option Mounted) : b ∈ s.blocks →
      BlockStep { w with points := w.points.modify b.record fun p => { p with mounted := m } }
  | mark (b : Sibling κ) (last : Option NodeId) : b ∈ s.blocks →
      BlockStep { w with markups := w.markups.modify b.record fun p => { p with last := last } }
  | remember (b : Sibling κ) (v : Value) : b ∈ s.blocks → BlockStep (w.remember b.watcher v)
  | drain : BlockStep
      { w with detectors := w.detectors.modify s.owner fun c => { c with onces := [] } }

/-- The nodes `ns` are those of a copy of the template of a branch, which its code has bound. The
copy was made when there were `nodes` nodes and `detectors` detectors, or later. -/
def Branch.Copy (h : Host κ υ) (valid : World κ υ → Prop) (nodes detectors : Nat) (br : Branch κ)
    (m : Mounted) (ns : List NodeId) : Prop :=
  ∃ (e : Document (Reaction κ)) (f : NodeId) (u u' : World κ υ), valid u ∧
    nodes ≤ e.nodes.size ∧ detectors ≤ m.detector ∧ e.clone br.template true = (f, u.document) ∧
    u.document.Holds (e.nodes.size ≤ ·) (e.contents br.template) f ∧
    Returns (h.run br.build (.built m.detector f none)) u () u' ∧
    ns = u'.document.children f ∧ m.extent = ends ns

variable (h s) in
/-- What a digest of the owner calls besides its blocks: code of the user, checks of other watchers,
and the destruction of what a block had mounted. -/
inductive Foreign (valid : World κ υ → Prop) (finish : Act κ υ Unit) :
    (α : Type) → Act κ υ α → Prop where
  | read (b : Sibling κ) : b ∈ s.blocks → Foreign valid finish Value (h.read b.hook)
  | build (b : Sibling κ) (br : Branch κ) (c : DetectorId) (f : NodeId) : b ∈ s.blocks →
      br ∈ b.kind.branches → Foreign valid finish Unit (h.run br.build (.built c f none))
  | destroy (b : Sibling κ) (br : Branch κ) (m : Mounted) (ns : List NodeId) : b ∈ s.blocks →
      br ∈ b.kind.branches → br.Copy h valid 0 0 m ns → s.owner < m.detector →
      Foreign valid finish Unit (destroy h m.detector)
  | check (i : WatcherId) : (∀ b ∈ s.blocks, b.watcher ≠ i) →
      Foreign valid finish Bool (check h i)
  | prelude (k : κ) : Foreign valid finish Unit (h.run k .plain)
  | once (k : κ) : Foreign valid finish Unit (guarded (h.run k .plain))
  | finish : Foreign valid finish Unit finish

variable (valid w) in
/-- A world of the user, whatever the hooks give. -/
abbrev Known : Prop := ∃ given, valid given w

variable (h s valid finish) in
/-- While the hooks of the blocks give the values `given`, code of the user leaves the blocks and
these values alone. -/
structure Tame : Prop where
  upkeep : ∀ given w w', valid given w → BlockStep s w w' → valid given w'
  harmless : ∀ given (α : Type) (act : Act κ υ α), Foreign h s (Known valid) finish α act →
    ∀ w a w', valid given w → w.document.Linked → Returns act w a w' →
      valid given w' ∧ Apart s w w'
  given : ∀ given, ∀ b ∈ s.blocks, ∀ w v w', valid given w → Returns (h.read b.hook) w v w' →
    v = given b.hook
  page : h.page = s.page

variable (ht : Tame h s valid finish)

variable (h s) in
/-- A stop of a digest that begins in `w₀` comes from code of the user, or there are by then as many
new detectors or watchers as a walk allows for. -/
inductive Interrupted (valid : World κ υ → Prop) (finish : Act κ υ Unit) (w₀ : World κ υ) :
    Stop → World κ υ → Prop where
  | code {w w' : World κ υ} : Foreign h s valid finish α act → valid w →
      outcome act w = (.error st, w') → Interrupted valid finish w₀ st w'
  | exhausted {w : World κ υ} : w₀.detectors.size + slack ≤ w.detectors.size ∨
      w₀.watchers.size + slack ≤ w.watchers.size → Interrupted valid finish w₀ .exhausted w

/-! ## The blocks between two calls -/

variable (s others note own w) in
structure Posed : Prop where
  formed : s.Formed
  filed : Filed s others note w
  drawn : Drawn s own w.document
  worded : Worded s note own (· = s.parent) w.document

theorem Apart.worded (ha : Apart s w w')
    (hs : w.document.children s.parent = s.base.flatMap fun n => n :: own n)
    (hw : Worded s note own avoid w.document) : Worded s note own avoid w'.document := by
  intro b hb hk
  have hgrown : Document.Agrees (w.document.Away avoid) (w'.document.Away avoid) w'.document
      w'.document := fun _ hj => ⟨⟨hj.1.trans_le ha.nodes, hj.2⟩, rfl, rfl⟩
  exact Document.HoldsAll.agrees hgrown _ _ (ha.texts own hs b hb hk _ _ (hw b hb hk))

namespace Posed

theorem apart (hp : Posed s others note own w) (ha : Apart s w w') :
    Posed s others note own w' where
  formed := hp.formed
  filed := by
    have hf := hp.filed
    constructor
    · exact hf.alive.trans_le ha.detectors
    · exact ha.hierarchy hf.hierarchy
    · rw [ha.children]
      exact hf.children
    · exact fun b hb => ha.listed.subset (hf.listed b hb)
    · exact fun b hb => (ha.watchers b hb).trans (hf.watchers b hb)
    · exact fun b hb => (ha.records b hb).trans (hf.records b hb)
  drawn := by
    have hd := hp.drawn
    constructor
    · exact ha.linked
    · exact hd.known.trans_le ha.nodes
    · intro b hb br hbr
      obtain ⟨hlt, hkind⟩ := hd.templates b hb br hbr
      exact ⟨hlt.trans_le ha.nodes, (ha.kinds _ hlt).mpr hkind⟩
    · refine ha.faithful _ ?_ hd.faithful
      rintro q rfl
      exact hd.known
    · rw [ha.siblings]
      exact hd.siblings
  worded := ha.worded hp.drawn.siblings hp.worded

end Posed

/-! ## Steps of a block -/

include ht in
theorem Tame.meets {act : Act κ υ α} {post : α → World κ υ → Prop}
    (hact : Foreign h s (Known valid) finish α act) (hv : valid given w) (hl : w.document.Linked)
    (hpost : ∀ a w', Returns act w a w' → valid given w' → Apart s w w' → post a w') :
    Meets (Interrupted h s (Known valid) finish w₀) act w post := by
  refine of_returns ?_ fun st w' ho => .code hact ⟨given, hv⟩ ho
  intro a w' hret
  obtain ⟨hv', ha⟩ := ht.harmless given α act hact w a w' hv hl hret
  exact hpost a w' hret hv' ha

variable (s others note own) in
/-- From `w` to `v` a child of the owner and a copy of the template of a branch have been made. The
copy is a fragment of its own, which no kept template contains. -/
structure Primed (br : Branch κ) (c : DetectorId) (w v : World κ υ) : Prop where
  child : c = w.detectors.size
  clone : w.document.clone br.template true = (w.document.nodes.size, v.document)
  holds : v.document.Holds (w.document.nodes.size ≤ ·) (w.document.contents br.template)
    w.document.nodes.size
  known : w.document.nodes.size < v.document.nodes.size
  kind : v.document.kind w.document.nodes.size = .fragment
  faithful : v.document.Faithful s.page fun q => q = s.parent ∨ q = w.document.nodes.size
  worded : Worded s note own (fun q => q = s.parent ∨ q = w.document.nodes.size) v.document
  posed : Posed s (c :: others) note own v
  onward : Onward s w v

theorem Drawn.clearMarkup (hd : Drawn s own w.document) (hs : s.Formed) (hb : b ∈ s.blocks)
    (last : Option NodeId) (hl : last = (own b.label).getLast?) :
    Meets stop (last.forM fun last => changeDocument fun d =>
      match d.nextSibling? b.label with
      | some first => d.removeRange first last
      | none => d) w post ↔
    post () { w with document := (own b.label).foldl Document.detach w.document } := by
  cases last with
  | none =>
    have hempty : own b.label = [] := getLast?_eq_none_iff.mp hl.symm
    rw [hempty]
    exact Iff.rfl
  | some n =>
    rw [← hd.clear_eq hs hb hl.symm]
    exact Iff.rfl

theorem texts_fetched (hf : Document.Fetched page text false d f e) (hp : parent < d.nodes.size) :
    e.HoldsAll (e.Away fun q => q = parent ∨ q = f) (page.trees text false) (e.children f) := by
  obtain ⟨-, -, hlater, hholds⟩ := hf.holds
  refine Document.HoldsAll.agrees ?_ _ _ (Document.HoldsAll.above _ _ hholds hlater)
  rintro j ⟨⟨hlow, hhigh⟩, hj⟩
  have hparent : j ≠ parent := (hp.trans_le hlow).ne'
  have hroot : j ≠ f := hj.ne'
  exact ⟨⟨hhigh, by simp [hparent, hroot]⟩, rfl, rfl⟩

section

variable (hp : Posed s others note own w) (hv : valid given w) (hb : b ∈ s.blocks)
include hp hb

theorem Posed.markup_eq (hk : b.kind = .markup) :
    w.markups[b.record]? = some { label := b.label, last := (note b.label).last } := by
  have hrecord := hp.filed.records b hb
  simpa [Sibling.record?, Sibling.entry, hk] using hrecord

theorem Posed.prime (hbr : br ∈ b.kind.branches) : ∃ c ds e,
      Returns (newChild s.owner) w c { w with detectors := ds } ∧
      Primed s others note own br c w { w with detectors := ds, document := e } := by
  obtain ⟨c, v, hchild⟩ := newChild_returns hp.filed.alive
  obtain ⟨ds, rfl⟩ := newChild_world hchild
  obtain ⟨hf, hcopied⟩ := Document.clone_copied hp.drawn.linked
  have hholds := Document.clone_holds hp.drawn.linked br.template
  have htable : (w.document.clone br.template true).2.templates = w.document.templates :=
    Document.templates_plant _ _
  generalize hclone : w.document.clone br.template true = copy at hf hcopied hholds htable
  obtain ⟨f, e⟩ := copy
  obtain rfl : f = w.document.nodes.size := hf
  have hfaith := hp.drawn.faithful.copied hcopied htable
  have hdrawn := hp.drawn.grown hcopied.linked hcopied.grown.le hcopied.others
    (hfaith.mono fun _ hq => .inl hq)
  have hworded := hp.worded.agrees (Document.agrees_grown hcopied.grown.le
    hcopied.others (le_refl _))
  refine ⟨c, ds, e, hchild, (newChild_eq hchild).1, hclone, ?_, hcopied.grown, ?_, hfaith, hworded,
    ⟨hp.formed, (hp.filed.adopt hchild).arrange e, hdrawn, hworded.mono fun _ hq => .inl hq⟩, ?_⟩
  · exact Document.Holds.agrees (fun j hj => ⟨hj.1, rfl, rfl⟩) _ _ hholds
  · rw [hcopied.kind]
    exact (hp.drawn.templates b hb br hbr).2
  · exact (Onward.adopt hchild).arrange hcopied.grown.le

include ht hv in
theorem Posed.fillMarkup (hk : b.kind = .markup) (hempty : own b.label = []) : Meets stop (do
      let fragment ← extendDocument (·.fragment h.page text false)
      let last := (← document).lastChild? fragment
      updateMarkup b.record fun b => { b with last }
      insertAfter b.label fragment) w fun _ w' =>
        valid given w' ∧ Onward s w w' ∧ ∃ ns, (∀ n ∈ ns, w.document.nodes.size ≤ n) ∧
          Posed s others (update note b.label
            { note b.label with last := ns.getLast?, trees := h.page.trees text false })
            (update own b.label ns) w' := by
  have hs := hp.formed
  have hd := hp.drawn
  have hredrawn := Redrawn.fetch (s := s) (d := w.document) text
  obtain ⟨hfetched, hfaith⟩ := Document.fragment_fetched hd.linked hd.faithful
    (by rintro q rfl; exact hd.known) text false
  rw [ht.page]
  simp only [Meets.bind_iff, Meets.extendDocument_iff, Meets.document_iff, updateMarkup,
    Meets.modify_iff]
  generalize w.document.fragment s.page text false = fetched at hfetched hfaith hredrawn
  obtain ⟨f, e⟩ := fetched
  have hgrown : w.document.nodes.size ≤ e.nodes.size :=
    hfetched.new.trans hfetched.known.le
  have hdrawn : Drawn s own e := hd.grown hfetched.linked hgrown hfetched.others
    (hfaith.mono fun _ hq => .inl hq)
  have hne : f ≠ s.parent := (hd.known.trans_le hfetched.new).ne'
  have hinsert := Document.agrees_insertFragment (p := s.parent) hfetched.kind
    (e.nextSibling? b.label)
  have hworded := (hp.worded.agrees
    (Document.agrees_grown hgrown hfetched.others hfetched.new)).agrees hinsert
  have htexts := Document.HoldsAll.agrees hinsert _ _ (texts_fetched hfetched hd.known)
  have hinserted := hdrawn.inserted hs hb hempty hfetched.known hfetched.kind hne.symm hfaith
  rw [Meets.insertAfter_iff hdrawn hs hb]
  have hv₁ := ht.upkeep given w _ hv (.redraw hredrawn)
  have hv₂ := ht.upkeep given _ _ hv₁ (.mark b (e.lastChild? f) hb)
  have honward := ((Onward.refl s w).arrange hgrown).arrange
    (e := e.insertBefore s.parent f (e.nextSibling? b.label)) (by simp)
  refine ⟨ht.upkeep given _ _ hv₂ (.redraw (.insert b f hb hfetched.kind hne)),
    honward.trans (.of_same rfl rfl rfl), e.children f, ?_, hs, ?_, hinserted,
    hworded.change hs hb _ _ fun _ => htexts⟩
  · intro n hn
    obtain ⟨t, -, ht⟩ := hfetched.holds.2.2.2.mem hn
    exact ht.root.1
  · exact ((hp.filed.arrange e).mark hs hb hk).arrange _

include ht hv in
theorem Posed.showMarkup (hk : b.kind = .markup)
    (hl : (note b.label).last = (own b.label).getLast?) {v : Value} :
    Meets stop (showMarkup h b.record v) w fun _ w' =>
      valid given w' ∧ Onward s w w' ∧ ∃ ns, (∀ n ∈ ns, w.document.nodes.size ≤ n) ∧
        Posed s others (update note b.label
          { note b.label with last := ns.getLast?, trees := v.trees h.page })
          (update own b.label ns) w' := by
  have hs := hp.formed
  have hours := hp.drawn.own_mem hs hb
  have hv₁ := ht.upkeep given w _ hv (.mark b none hb)
  have hv₂ := ht.upkeep given _ _ hv₁ (.redraw (.remove (own b.label) hours))
  unfold ReactiveMarkup.Reactive.showMarkup
  rw [bind_iff, find_iff (hp.markup_eq hb hk)]
  rw [bind_iff, updateMarkup, modify_iff, bind_iff]
  refine (Drawn.clearMarkup
    (w := { w with markups := w.markups.modify b.record fun p => { p with last := none } })
    hp.drawn hs hb _ hl).mpr ?_
  have hworded := hp.worded.agrees
    (Document.agrees_detachAll hp.drawn.linked fun n hn => (hours n hn).1)
  have hcleared : Posed s others
      (update note b.label { note b.label with last := none, trees := [] })
      (update own b.label [])
      { w with
        markups := w.markups.modify b.record fun p => { p with last := none }
        document := (own b.label).foldl Document.detach w.document } :=
    ⟨hs, (hp.filed.mark hs hb hk).arrange _, hp.drawn.removed hs hb,
      hworded.change hs hb _ _ fun _ => rfl⟩
  have hsize : ((own b.label).foldl Document.detach w.document).nodes.size =
      w.document.nodes.size := by simp
  have honward : Onward s w
      { w with
        markups := w.markups.modify b.record fun p => { p with last := none }
        document := (own b.label).foldl Document.detach w.document } := .of_same hsize rfl rfl
  unfold Value.trees
  split
  · refine (hcleared.fillMarkup ht hv₂ hb hk (by rw [update_self])).mono ?_
    rintro _ w' ⟨hv₃, honward', ns, hnew, hposed⟩
    rw [hsize] at hnew
    rw [update_self, update_idem, update_idem] at hposed
    exact ⟨hv₃, honward.trans honward', ns, hnew, hposed⟩
  · exact ⟨hv₂, honward, [], nofun, hcleared⟩

variable (hk : b.kind = .choice main alt)
include hk

theorem Posed.point_eq : w.points[b.record]? =
      some { owner := s.owner, label := b.label, mounted := (note b.label).mounted } := by
  have hrecord := hp.filed.records b hb
  simpa [Sibling.record?, Sibling.entry, hk] using hrecord

/-- The detector of what is mounted is first a child that no block accounts for, and then no
child. -/
theorem Posed.disown (hm : (note b.label).mounted = some m)
    (hret : Returns (removeChild s.owner m.detector)
      { w with points := w.points.modify b.record fun p => { p with mounted := none } } () v) :
    Posed s others (update note b.label { note b.label with mounted := none }) own v ∧
      Onward s w v := by
  have hs := hp.formed
  have hperm : (s.mounted note).Perm (m.detector ::
      s.mounted (update note b.label { note b.label with mounted := none })) :=
    hs.mounted_update hb hm (by rw [update_self])
      fun l hl => by rw [update_of_ne hl]
  have hfiled : Filed s (m.detector :: others)
      (update note b.label { note b.label with mounted := none })
      { w with points := w.points.modify b.record fun p => { p with mounted := none } } :=
    hp.filed.point hs hb hk ((hperm.append_left others).trans perm_middle)
  have hpoint : Onward s w
      { w with points := w.points.modify b.record fun p => { p with mounted := none } } :=
    .of_same rfl rfl rfl
  have hdocument : v.document = w.document := by
    cases hret
    rfl
  exact ⟨⟨hs, hfiled.dismiss hret, hdocument ▸ hp.drawn,
    hdocument ▸ hp.worded.renote hs hb _ rfl⟩, hpoint.trans (.dismiss hret)⟩

include ht hv in
theorem Posed.unmount (hx : ends (own b.label) = (note b.label).mounted.bind (·.extent))
    (hm : ∀ m, (note b.label).mounted = some m →
      Foreign h s (Known valid) finish Unit (destroy h m.detector)) :
    Meets (Interrupted h s (Known valid) finish w₀) (unmount h b.record) w fun _ w' =>
      valid given w' ∧ Onward s w w' ∧
        Posed s others (update note b.label { note b.label with mounted := none })
          (update own b.label []) w' := by
  have hs := hp.formed
  have hv₁ := ht.upkeep given w _ hv (.point b none hb)
  unfold ReactiveMarkup.Reactive.unmount
  rw [bind_iff, find_iff (hp.point_eq hb hk)]
  simp only [updatePoint, bind_iff, modify_iff]
  cases hmounted : (note b.label).mounted with
  | none =>
    rw [hmounted] at hx
    have hempty : own b.label = [] := ends_eq_none_iff.mp hx
    have hsame : s.mounted (update note b.label { note b.label with mounted := none }) =
        s.mounted note := Family.mounted_renote hmounted.symm
    have hown : update own b.label [] = own := by
      rw [← hempty, update_eq_self]
    rw [hown]
    exact ⟨hv₁, .of_same rfl rfl rfl, hs, hp.filed.point hs hb hk (by rw [hsame]), hp.drawn,
      hp.worded.renote hs hb _ rfl⟩
  | some m =>
    simp only [Option.forM, bind_iff]
    obtain ⟨v, hremove⟩ : ∃ v, Returns (removeChild s.owner m.detector)
      { w with points := w.points.modify b.record fun p => { p with mounted := none } } () v :=
      ⟨_, rfl⟩
    have hv₂ := ht.upkeep given _ v hv₁ (.dismiss hremove)
    obtain ⟨hposed, honward⟩ := hp.disown hb hk hmounted hremove
    rw [of_outcome hremove]
    refine ht.meets (hm m hmounted) hv₂ hposed.drawn.linked ?_
    intro _ u _ hv₃ ha
    have hposed' := hposed.apart ha
    obtain ⟨front, back, hnow, -⟩ := hposed'.drawn.around hs hb
    have hours := hposed'.drawn.own_mem hs hb
    rw [hmounted, Option.bind_some] at hx
    rw [removeExtent_iff hposed'.drawn.linked hnow hx]
    have hgone := Document.Rearranged.detachAll (d := u.document) (own b.label)
    have hworded := hposed'.worded.agrees
      (Document.agrees_detachAll hposed'.drawn.linked fun n hn => (hours n hn).1)
    refine ⟨ht.upkeep given u _ hv₃ (.redraw (.remove _ hours)),
      (honward.trans ha.onward).arrange hgone.size.symm.le, hs,
      hposed'.filed.arrange _, hposed'.drawn.removed hs hb, ?_⟩
    have hchange := hworded.change hs hb { note b.label with mounted := none } []
      (by rw [hk]; intro hm; cases hm)
    rwa [update_idem] at hchange

include ht hv in
theorem Posed.mount {br : Branch κ} (hbr : br ∈ b.kind.branches)
    (hnone : (note b.label).mounted = none) (hempty : own b.label = []) :
    Meets (Interrupted h s (Known valid) finish w₀) (mountBranch h b.record br none) w fun _ w' =>
      valid given w' ∧ Onward s w w' ∧ ∃ m ns,
        br.Copy h (Known valid) w.document.nodes.size w.detectors.size m ns ∧
        Posed s others (update note b.label { note b.label with mounted := some m })
          (update own b.label ns) w' := by
  have hs := hp.formed
  obtain ⟨c, ds, e, hchild, hprimed⟩ := hp.prime hb hbr
  have hclone : w.document.clone br.template true = (w.document.nodes.size, e) := hprimed.clone
  have hredrawn : Redrawn s w.document e := by
    have hclone' := Redrawn.clone (d := w.document) b br hb hbr
    rwa [hclone] at hclone'
  have hv₁ := ht.upkeep given _ _ (ht.upkeep given w _ hv (.adopt hchild)) (.redraw hredrawn)
  unfold mountBranch mountWith
  rw [Meets.bind_iff, Meets.find_iff (hp.point_eq hb hk)]
  simp only [Meets.bind_iff]
  rw [Meets.of_outcome hchild, Meets.extendDocument_iff, hclone]
  refine ht.meets (.build b br c _ hb hbr) hv₁ hprimed.posed.drawn.linked ?_
  intro _ u hret hv₂ ha
  have hposed := hprimed.posed.apart ha
  simp only [Meets.document_iff, Meets.insertAfter_iff hposed.drawn hs hb, updatePoint,
    Meets.modify_iff]
  have hfaith := ha.faithful (fun q => q = s.parent ∨ q = w.document.nodes.size) (by
    rintro q (rfl | rfl)
    · exact hprimed.posed.drawn.known
    · exact hprimed.known) hprimed.faithful
  have hkind := (ha.kinds _ hprimed.known).mpr hprimed.kind
  have hne : w.document.nodes.size ≠ s.parent := hp.drawn.known.ne'
  have hdrawn := hposed.drawn.inserted hs hb hempty (hprimed.known.trans_le ha.nodes)
    hkind hne.symm hfaith
  have hworded := (ha.worded hprimed.posed.drawn.siblings hprimed.worded).agrees
    (Document.agrees_insertFragment hkind (u.document.nextSibling? b.label))
  have hperm : (s.mounted (update note b.label { note b.label with
      mounted := some ⟨c, u.document.extent? w.document.nodes.size⟩ })).Perm
      (c :: s.mounted note) :=
    hs.mounted_update hb (m := ⟨c, u.document.extent? w.document.nodes.size⟩)
      (by rw [update_self]) hnone fun l hl => by rw [update_of_ne hl]
  have hplaced := hposed.filed.arrange (u.document.insertBefore s.parent w.document.nodes.size
    (u.document.nextSibling? b.label))
  have hfiled := hplaced.point hs hb hk
    (perm_middle.symm.trans (hperm.symm.append_left others))
  refine ⟨?_, ?_, ⟨c, u.document.extent? w.document.nodes.size⟩,
    u.document.children w.document.nodes.size, ?_, hs, hfiled, hdrawn,
    hworded.change hs hb _ _ (by rw [hk]; intro hm; cases hm)⟩
  · have hv₃ := ht.upkeep given u _ hv₂ (.redraw (.insert b _ hb hkind hne))
    exact ht.upkeep given _ _ hv₃ (.point b _ hb)
  · have hpast := (hprimed.onward.trans ha.onward).arrange (e := u.document.insertBefore s.parent
      w.document.nodes.size (u.document.nextSibling? b.label)) (by simp)
    exact hpast.trans (.of_same rfl rfl rfl)
  · exact ⟨w.document, w.document.nodes.size, _, u, ⟨given, hv₁⟩, le_refl _,
      hprimed.child.symm.le, hclone, hprimed.holds, hret, rfl,
      Document.extent?_eq_ends⟩

include ht hv in
theorem Posed.mountChosen (hnone : (note b.label).mounted = none)
    (hempty : own b.label = []) (ho : ∀ br, o = some br → br ∈ b.kind.branches) :
    Meets (Interrupted h s (Known valid) finish w₀)
      (o.forM fun br => mountBranch h b.record br none) w fun _ w' =>
      valid given w' ∧ Onward s w w' ∧ ∃ m ns,
        (match o with
          | some br => ∃ y, m = some y ∧
              br.Copy h (Known valid) w.document.nodes.size w.detectors.size y ns
          | none => m = none ∧ ns = []) ∧
        Posed s others (update note b.label { note b.label with mounted := m })
          (update own b.label ns) w' := by
  cases o with
  | none =>
    have hnote : update note b.label { note b.label with mounted := none } = note := by
      rw [← hnone, update_eq_self]
    have hown : update own b.label [] = own := by
      rw [← hempty, update_eq_self]
    exact ⟨hv, .refl s w, none, [], ⟨rfl, rfl⟩, by rw [hnote, hown]; exact hp⟩
  | some br =>
    refine (hp.mount ht hv hb hk (ho br rfl) hnone hempty).mono ?_
    rintro _ w' ⟨hv', honward, m, ns, hcopy, hposed⟩
    exact ⟨hv', honward, some m, ns, ⟨m, rfl, hcopy⟩, hposed⟩

end

/-! ## Checks -/

/-- What a block shows fits what it has seen last: a choice shows the copy of a branch, or nothing,
and markup its nodes. What is shown was made when there were `nodes` nodes and `detectors`
detectors, or later. -/
def Sibling.Displays (h : Host κ υ) (valid : World κ υ → Prop) (nodes detectors : Nat)
    (b : Sibling κ) (x : Note) (ns : List NodeId) : Prop :=
  match b.kind with
  | .choice .. =>
    match b.kind.chosen x.seen with
    | some br => ∃ m, x.mounted = some m ∧ br.Copy h valid nodes detectors m ns
    | none => x.mounted = none ∧ ns = []
  | .markup => x.mounted = none ∧ x.last = ns.getLast? ∧ x.trees = x.seen.trees h.page ∧
      ∀ n ∈ ns, nodes ≤ n

variable (h s valid others note own w) in
/-- All blocks show what they have seen last, and nothing follows a node that is no label. -/
structure Laid : Prop where
  posed : Posed s others note own w
  displays : ∀ b ∈ s.blocks, b.Displays h (Known valid) 0 0 (note b.label) (own b.label)
  bare : ∀ n, n ∉ s.blocks.map (·.label) → own n = []

variable (hl : Laid h s valid others note own w)

include hl in
theorem Laid.apart (ha : Apart s w w') :
    Laid h s valid others note own w' :=
  ⟨hl.posed.apart ha, hl.displays, hl.bare⟩

def Sibling.target (b : Sibling κ) (given : κ → Value) : Value := b.kind.view (given b.hook)

variable (h s valid given w) in
/-- Each block is as it was, or it has seen another value and what it shows is new. -/
def Moved (note : NodeId → Note) (own : NodeId → List NodeId) (note' : NodeId → Note)
    (own' : NodeId → List NodeId) : Prop :=
  ∀ b ∈ s.blocks, note' b.label = note b.label ∧ own' b.label = own b.label ∨
    (note b.label).seen.same (b.target given) = false ∧
      (note' b.label).seen = b.target given ∧
      b.Displays h (Known valid) w.document.nodes.size w.detectors.size (note' b.label)
        (own' b.label)

def Sibling.Current (b : Sibling κ) (given : κ → Value) (note : NodeId → Note) : Prop :=
  (note b.label).seen.same (b.target given) = true

theorem Branch.Copy.mono {valid : World κ υ → Prop} {br : Branch κ} (hc : br.Copy h valid n' c' m ns)
    (hn : n ≤ n') (hd : c ≤ c') : br.Copy h valid n c m ns := by
  obtain ⟨e, f, u, u', hv, hnodes, hdetectors, hrest⟩ := hc
  exact ⟨e, f, u, u', hv, hn.trans hnodes, hd.trans hdetectors, hrest⟩

theorem Sibling.Displays.mono {valid : World κ υ → Prop} (hx : b.Displays h valid n' c' x ns)
    (hn : n ≤ n') (hd : c ≤ c') : b.Displays h valid n c x ns := by
  unfold Sibling.Displays at hx ⊢
  cases hk : b.kind with
  | choice main alt =>
    rw [hk] at hx
    cases hbr : (BlockKind.choice main alt).chosen x.seen with
    | none =>
      rw [hbr] at hx
      exact hx
    | some br =>
      rw [hbr] at hx
      obtain ⟨m, hm, hcopy⟩ := hx
      exact ⟨m, hm, hcopy.mono hn hd⟩
  | markup =>
    rw [hk] at hx
    exact ⟨hx.1, hx.2.1, hx.2.2.1, fun n hm => hn.trans (hx.2.2.2 n hm)⟩

namespace Moved

theorem refl (h : Host κ υ) (s : Family κ) (valid : (κ → Value) → World κ υ → Prop)
    (given : κ → Value) (w : World κ υ) (note : NodeId → Note) (own : NodeId → List NodeId) :
    Moved h s valid given w note own note own :=
  fun _ _ => .inl ⟨rfl, rfl⟩

theorem current (hm : Moved h s valid given w note own note' own') (hb : b ∈ s.blocks)
    (hc : b.Current given note) : b.Current given note' := by
  unfold Sibling.Current at hc ⊢
  rcases hm b hb with ⟨hn, -⟩ | ⟨hne, -⟩
  · rw [hn]
    exact hc
  · rw [hc] at hne
    cases hne

theorem trans (hm : Moved h s valid given w note own note' own')
    (hm' : Moved h s valid given v note' own' note'' own'') (ho : Onward s w v) :
    Moved h s valid given w note own note'' own'' := by
  intro b hb
  rcases hm b hb with ⟨hn, hns⟩ | ⟨hne, hseen, hd⟩
  · rcases hm' b hb with ⟨hn', hns'⟩ | ⟨hne', hseen', hd'⟩
    · exact .inl ⟨hn'.trans hn, hns'.trans hns⟩
    · rw [hn] at hne'
      exact .inr ⟨hne', hseen', hd'.mono ho.nodes ho.detectors⟩
  · -- a block that has seen the value of its hook does not change again
    rcases hm' b hb with ⟨hn', hns'⟩ | ⟨hne', -⟩
    · rw [hn', hns']
      exact .inr ⟨hne, hseen, hd⟩
    · rw [hseen, Value.same_refl] at hne'
      cases hne'

end Moved

theorem BlockKind.mem_of_chosen {kind : BlockKind κ} (hc : kind.chosen seen = some br) :
    br ∈ kind.branches := by
  unfold BlockKind.chosen at hc
  split at hc
  · split at hc
    · obtain rfl := Option.some.inj hc
      simp [BlockKind.branches]
    · simp [BlockKind.branches, hc]
  · cases hc

/-- What a choice shows is the range of what is mounted, which is a copy of one of its branches. -/
theorem Sibling.Displays.extent {valid : World κ υ → Prop} (hd : b.Displays h valid n c x ns)
    (hk : b.kind = .choice main alt) : ends ns = x.mounted.bind (·.extent) ∧
      ∀ m, x.mounted = some m → ∃ br ∈ b.kind.branches, br.Copy h valid n c m ns := by
  unfold Sibling.Displays at hd
  rw [hk] at hd
  cases hbr : (BlockKind.choice main alt).chosen x.seen with
  | none =>
    rw [hbr] at hd
    obtain ⟨hm, rfl⟩ := hd
    rw [hm]
    exact ⟨rfl, nofun⟩
  | some br =>
    rw [hbr] at hd
    obtain ⟨m, hm, hcopy⟩ := hd
    rw [hm]
    refine ⟨?_, ?_⟩
    · obtain ⟨_, _, _, _, _, _, _, _, _, _, _, hextent⟩ := hcopy
      exact hextent.symm
    · rintro _ ⟨⟩
      exact ⟨br, hk ▸ BlockKind.mem_of_chosen hbr, hcopy⟩

include ht in
theorem Tame.readSource (hv : valid given w) (hl : w.document.Linked) (hb : b ∈ s.blocks) :
    Meets (Interrupted h s (Known valid) finish w₀) (readSource h (b.watch seen).source) w
      fun v w' => v = b.target given ∧ valid given w' ∧ Apart s w w' := by
  unfold Sibling.watch Sibling.target
  cases b.kind with
  | choice main alt =>
    simp only [ReactiveMarkup.Reactive.readSource, bind_iff, pure_iff]
    refine ht.meets (.read b hb) hv hl ?_
    intro v w' hret hv' ha
    rw [ht.given given b hb w v w' hv hret]
    exact ⟨rfl, hv', ha⟩
  | markup =>
    refine ht.meets (.read b hb) hv hl ?_
    intro v w' hret hv' ha
    exact ⟨ht.given given b hb w v w' hv hret, hv', ha⟩

theorem chooseBranch_eq : chooseBranch h p main alt (.bool t) = (do
      unmount h p
      ((BlockKind.choice main alt).chosen (.bool t)).forM fun br => mountBranch h p br none) := by
  cases t <;> rfl

variable (h s valid given others note own b) in
/-- The block has seen `v` and shows it anew; the others are as they were in `w`. -/
def ShowsAnew (v : Value) (w w' : World κ υ) : Prop :=
  valid given w' ∧ Onward s w w' ∧ ∃ x ns, x.seen = v ∧
    b.Displays h (Known valid) w.document.nodes.size w.detectors.size x ns ∧
    Posed s others (Function.update note b.label x) (Function.update own b.label ns) w'

variable (hv : valid given w) (hb : b ∈ s.blocks)
include hl hb

theorem Laid.remembered {v : Value} :
    Posed s others (update note b.label { note b.label with seen := v }) own
      (w.remember b.watcher v) ∧ Onward s w (w.remember b.watcher v) :=
  ⟨⟨hl.posed.formed, hl.posed.filed.remember hl.posed.formed hb, hl.posed.drawn,
    hl.posed.worded.renote hl.posed.formed hb _ rfl⟩,
    .of_same rfl rfl (by simp [World.remember])⟩

include ht hv in
theorem Laid.choose (hk : b.kind = .choice main alt) :
    Meets (Interrupted h s (Known valid) finish w₀) (chooseBranch h b.record main alt (.bool t))
      (w.remember b.watcher (.bool t)) fun _ w' =>
        ShowsAnew h s valid given others note own b (.bool t) w w' := by
  have hv₁ := ht.upkeep given w _ hv (.remember b (.bool t) hb)
  obtain ⟨hposed, honward⟩ := hl.remembered hb
  obtain ⟨hx, hcopies⟩ := (hl.displays b hb).extent hk
  rw [chooseBranch_eq, bind_iff]
  refine (hposed.unmount ht hv₁ hb hk ?_ ?_).mono ?_
  · rw [update_self]
    exact hx
  · intro m hm
    rw [update_self] at hm
    obtain ⟨br, hbr, hcopy⟩ := hcopies m hm
    exact .destroy b br m _ hb hbr hcopy (hl.posed.filed.newer hb hm)
  · rintro _ u ⟨hv₂, honward₂, hemptied⟩
    refine (hemptied.mountChosen ht hv₂ hb hk (by rw [update_self])
      (by rw [update_self]) fun br hbr => hk ▸ BlockKind.mem_of_chosen hbr).mono ?_
    rintro _ w' ⟨hv₃, honward₃, m, ns, hm, hfinal⟩
    have hpast := honward.trans honward₂
    rw [update_self, update_self, update_idem, update_idem,
      update_idem] at hfinal
    refine ⟨hv₃, hpast.trans honward₃, _, ns, rfl, ?_, hfinal⟩
    unfold Sibling.Displays
    rw [hk]
    simp only
    cases hbr : (BlockKind.choice main alt).chosen (.bool t) with
    | none =>
      rw [hbr] at hm
      exact hm
    | some br =>
      rw [hbr] at hm
      obtain ⟨z, hz, hcopy⟩ := hm
      exact ⟨z, hz, hcopy.mono hpast.nodes hpast.detectors⟩

include ht hv in
theorem Laid.render (hk : b.kind = .markup) {v : Value} :
    Meets stop (showMarkup h b.record v) (w.remember b.watcher v) fun _ w' =>
      ShowsAnew h s valid given others note own b v w w' := by
  have hv₁ := ht.upkeep given w _ hv (.remember b v hb)
  obtain ⟨hposed, honward⟩ := hl.remembered hb
  have hold := hl.displays b hb
  unfold Sibling.Displays at hold
  rw [hk] at hold
  refine (hposed.showMarkup ht hv₁ hb hk ?_).mono ?_
  · rw [update_self]
    exact hold.2.1
  · rintro _ w' ⟨hv₂, honward₂, ns, hnew, hfinal⟩
    rw [update_self, update_idem] at hfinal
    refine ⟨hv₂, honward.trans honward₂, _, ns, rfl, ?_, hfinal⟩
    unfold Sibling.Displays
    rw [hk]
    exact ⟨hold.1, rfl, rfl, hnew⟩

include ht hv in
theorem Laid.perform : Meets (Interrupted h s (Known valid) finish w₀)
      (perform h (b.watch seen).action (b.target given))
      (w.remember b.watcher (b.target given)) fun _ w' =>
        ShowsAnew h s valid given others note own b (b.target given) w w' := by
  unfold Sibling.target Sibling.watch
  cases hk : b.kind with
  | choice main alt => exact hl.choose ht hv hb hk
  | markup => exact hl.render ht hv hb hk

theorem Laid.replaced (hd : b.Displays h (Known valid) 0 0 x ns)
    (hp : Posed s others (update note b.label x) (update own b.label ns) w') :
    Laid h s valid others (update note b.label x) (update own b.label ns) w' where
  posed := hp
  displays := by
    intro y hy
    rcases hp.formed.update hb hy note x with ⟨rfl, he⟩ | ⟨_, hne, he⟩
    · rw [he, update_self]
      exact hd
    · rw [he, update_of_ne hne]
      exact hl.displays y hy
  bare := by
    intro n hn
    have hne : n ≠ b.label := fun he => hn (he ▸ mem_map_of_mem hb)
    rw [update_of_ne hne]
    exact hl.bare n hn

variable (h s valid given others note own w w') in
/-- What comes of blocks that stood as `note` and `own` say in `w`. -/
def Advances (note' : NodeId → Note) (own' : NodeId → List NodeId) : Prop :=
  Laid h s valid others note' own' w' ∧ valid given w' ∧ Onward s w w' ∧
    Moved h s valid given w note own note' own'

include ht hv in
theorem Laid.check :
    Meets (Interrupted h s (Known valid) finish w₀) (check h b.watcher) w fun _ w' => ∃ note' own',
      Advances h s valid given others note own w w' note' own' ∧ b.Current given note' := by
  have hs := hl.posed.formed
  unfold ReactiveMarkup.Reactive.check
  rw [bind_iff, find_iff (hl.posed.filed.watchers b hb), bind_iff]
  refine (ht.readSource hv hl.posed.drawn.linked hb).mono ?_
  rintro _ u ⟨rfl, hv₁, ha⟩
  have hl₁ := hl.apart ha
  rw [bind_iff, find_iff (hl₁.posed.filed.watchers b hb), b.watch_value,
    b.watch_comparator]
  dsimp only
  split
  · next hchanged =>
    have hne : (note b.label).seen.same (b.target given) = false := by
      simpa [Comparator.changed] using hchanged
    rw [bind_iff]
    change Meets _ (_ >>= _) (u.remember b.watcher (b.target given)) _
    rw [bind_iff]
    refine (hl₁.perform ht hv₁ hb).mono ?_
    rintro _ w' ⟨hv₂, honward, x, ns, hseen, hd, hposed⟩
    refine ⟨_, _, ⟨hl₁.replaced hb (hd.mono (zero_le _) (zero_le _)) hposed, hv₂,
      ha.onward.trans honward, ?_⟩, ?_⟩
    · intro y hy
      rcases hs.update hb hy note x with ⟨rfl, he⟩ | ⟨_, hlabel, he⟩
      · rw [he, update_self]
        exact .inr ⟨hne, hseen, hd.mono ha.nodes ha.detectors⟩
      · rw [he, update_of_ne hlabel]
        exact .inl ⟨rfl, rfl⟩
    · rw [Sibling.Current, update_self, hseen]
      exact Value.same_refl _
  · next hchanged =>
    refine ⟨note, own, ⟨hl₁, hv₁, ha.onward, .refl h s valid given w note own⟩, ?_⟩
    simpa [Comparator.changed, Sibling.Current] using hchanged

end ReactiveMarkup.Reactive
