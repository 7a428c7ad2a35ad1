import ReactiveMarkup.Markup.Tree
import ReactiveMarkup.Proofs.Spelling

/-! # Faithful spans

The nodes of a tree tile the source: each holds the bytes of its span, and the parts of a construct
follow each other from its first byte to its last.
-/

namespace ReactiveMarkup.Markup

open Text (Span byteLength)

/-- The source has `text` from byte `start` to byte `stop`. -/
def Piece (src : List Char) (start stop : Nat) (text : String) : Prop :=
  Text.slice? src start stop = some text.toList

def braced (header : String) : String := "\x7b" ++ header ++ "\x7d"

section

variable (src : List Char)

mutual

inductive Faithful : Node → Prop where
  | text : Piece src s.start s.stop value → Faithful (.text value s)
  | comment : Piece src s.start s.stop content → Faithful (.comment content s)
  | sysTag : Piece src s.start s.stop (braced header) → Faithful (.sysTag header s)
  | raw : Piece src b.span.start b.span.stop (b.openTag ++ b.content ++ ("</" ++ b.name ++ ">")) →
      Faithful (.raw b)
  | closed : e.closed = true → Piece src s.start s.stop e.openTag → Faithful (.element e [] s)
  | element : e.closed = false → Piece src s.start a e.openTag → Tiling a body z →
      Piece src z s.stop ("</" ++ r ++ ">") → Text.trim r = e.name → Faithful (.element e body s)
  | each : Piece src s.start a (braced header) → Tiling a body z →
      Piece src z s.stop (braced "/each") → Faithful (.each header body s)
  | slot : Piece src s.start a (braced header) → Tiling a body z →
      Piece src z s.stop (braced "/slot") → Faithful (.slot header body s)
  | fragment : Piece src s.start a (braced header) → Tiling a body z →
      Piece src z s.stop (braced "/fragment") → Faithful (.fragment header body s)
  | cond : Piece src s.start a (braced header) → Tiling a body z →
      Piece src z s.stop (braced "/if") → Faithful (.cond header body false [] s)
  | condElse : Piece src s.start a (braced header) → Tiling a body x →
      Piece src x y (braced ":else") → Tiling y alt z → Piece src z s.stop (braced "/if") →
      Faithful (.cond header body true alt s)
  | await : Piece src s.start a (braced header) → Tiling a main x →
      Part x thenHeader thenBody y → Part y catchHeader catchBody z →
      Piece src z s.stop (braced "/await") →
      Faithful (.await header main thenHeader thenBody catchHeader catchBody s)

inductive Part : Nat → Option String → List Node → Nat → Prop where
  | absent : Part pos none [] pos
  | present : Piece src start mid (braced header) → Tiling mid body stop →
      Part start (some header) body stop

/-- Faithful nodes follow each other from one byte to another; none is empty. -/
inductive Tiling : Nat → List Node → Nat → Prop where
  | nil : Tiling pos [] pos
  | cons : Faithful n → n.span.start < n.span.stop → Tiling n.span.stop rest stop →
      Tiling n.span.start (n :: rest) stop

end

end

variable {src : List Char}

theorem Piece.stop_eq (h : Piece src start stop text) : stop = start + text.utf8ByteSize := by
  obtain ⟨_, _, _, _, hstop⟩ := Text.slice?_eq_some h
  rw [← Text.byteLength_toList, hstop]

theorem Piece.lt (h : Piece src start stop text) (hn : text.utf8ByteSize ≠ 0) : start < stop := by
  have := h.stop_eq
  omega

theorem Piece.le (h : Piece src start stop text) : start ≤ stop := by
  have := h.stop_eq
  omega

theorem braced_ne : (braced header).utf8ByteSize ≠ 0 := by
  have : "\x7b".utf8ByteSize = 1 := rfl
  rw [braced, String.utf8ByteSize_append, String.utf8ByteSize_append]
  omega

theorem Tiling.le (h : Tiling src start ns stop) : start ≤ stop := by
  induction ns generalizing start with
  | nil => cases h; exact Nat.le_refl _
  | cons n rest ih =>
    cases h with
    | cons _ hlt hrest => exact Nat.le_trans (Nat.le_of_lt hlt) (ih hrest)

theorem Tiling.concat (h : Tiling src start ns n.span.start) (hn : Faithful src n)
    (hlt : n.span.start < n.span.stop) : Tiling src start (ns ++ [n]) n.span.stop := by
  induction ns generalizing start with
  | nil =>
    cases h
    exact .cons hn hlt .nil
  | cons m rest ih =>
    cases h with
    | cons hm hmlt hrest => exact .cons hm hmlt (ih hrest)

/-! ## Headers -/

def Control.header : Control → String
  | .sysTag h | .each h | .cond h | .await h | .onValue h | .onError h | .slot h | .fragment h => h
  | .eachEnd => "/each"
  | .otherwise => ":else"
  | .condEnd => "/if"
  | .awaitEnd => "/await"
  | .slotEnd => "/slot"
  | .fragmentEnd => "/fragment"

def WrittenAs (header : String) (found : Option Control) : Prop :=
  ∀ role, found = some role → role.header = header

theorem WrittenAs.some (h : role.header = header) : WrittenAs header (some role) := by
  rintro _ ⟨⟩
  exact h

theorem WrittenAs.ite [Decidable p] (ha : p → WrittenAs header a)
    (hb : WrittenAs header b) : WrittenAs header (if p then a else b) := by
  split
  · next hp => exact ha hp
  · exact hb

theorem writtenAs_ofHeader? : WrittenAs header (Control.ofHeader? header) := by
  have keeps : ∀ (p : Prop) (role : Control), role.header = header →
      p → WrittenAs header (some role) := fun _ _ hr _ => .some hr
  have ends : ∀ (role : Control), (header == role.header) = true → WrittenAs header (some role) :=
    fun role hb => .some (eq_of_beq hb).symm
  refine .ite (keeps _ _ rfl) (.ite (keeps _ _ rfl) (.ite (ends .eachEnd) ?_))
  refine .ite (keeps _ _ rfl) (.ite (ends .condEnd) (.ite (ends .otherwise) ?_))
  refine .ite (keeps _ _ rfl) (.ite (keeps _ _ rfl) (.ite (keeps _ _ rfl) ?_))
  refine .ite (ends .awaitEnd) (.ite (keeps _ _ rfl) (.ite (ends .slotEnd) ?_))
  refine .ite (keeps _ _ rfl) (.ite (ends .fragmentEnd) ?_)
  rintro _ ⟨⟩

/-! ## Open constructs -/

def Frame.start : Frame → Nat
  | .element _ s | .each _ s | .cond _ s | .otherwise _ s _ | .await _ s | .onValue _ s _ _
  | .onError _ s _ _ _ _ | .slot _ s | .fragment _ s => s

variable (src) in
/-- What the source has of an open construct up to the byte where its last section begins. -/
inductive Begun : Frame → Nat → Prop where
  | element : e.closed = false → (∀ c ∈ e.name.toList, c.toNat < 0x80) →
      e.openTag.utf8ByteSize ≠ 0 → Piece src start a e.openTag → Begun (.element e start) a
  | each : Piece src start a (braced h) → Begun (.each h start) a
  | cond : Piece src start a (braced h) → Begun (.cond h start) a
  | otherwise : Piece src start a (braced h) → Tiling src a body x →
      Piece src x y (braced ":else") → Begun (.otherwise h start body) y
  | await : Piece src start a (braced h) → Begun (.await h start) a
  | onValue : Piece src start a (braced h) → Tiling src a main x → Piece src x y (braced part) →
      Begun (.onValue h start main part) y
  | onError : Piece src start a (braced h) → Tiling src a main x →
      Part src x thenHeader thenBody y → Piece src y z (braced part) →
      Begun (.onError h start main thenHeader thenBody part) z
  | slot : Piece src start a (braced h) → Begun (.slot h start) a
  | fragment : Piece src start a (braced h) → Begun (.fragment h start) a

theorem Part.le (h : Part src start header ns stop) : start ≤ stop := by
  cases h with
  | absent => exact Nat.le_refl _
  | present hp ht => exact Nat.le_trans hp.le ht.le

theorem Begun.lt (h : Begun src f a) : f.start < a := by
  cases h with
  | element _ _ hne hp => exact hp.lt hne
  | each hp | cond hp | await hp | slot hp | fragment hp => exact hp.lt braced_ne
  | otherwise hp ht hq | onValue hp ht hq =>
    exact Nat.lt_of_lt_of_le (hp.lt braced_ne) (Nat.le_trans ht.le hq.le)
  | onError hp ht hs hq =>
    exact Nat.lt_of_lt_of_le (hp.lt braced_ne)
      (Nat.le_trans ht.le (Nat.le_trans hs.le hq.le))

/-- The constructs on the stack are open at byte `pos`, and `nodes` are the finished members of the
innermost section. -/
def Opened (src : List Char) : List (Frame × List Node) → List Node → Nat → Prop
  | [], nodes, pos => Tiling src 0 nodes.reverse pos
  | (f, outer) :: below, nodes, pos =>
    ∃ a, Begun src f a ∧ Tiling src a nodes.reverse pos ∧ Opened src below outer f.start

theorem Opened.add (h : Opened src stack nodes start) (hn : Faithful src n)
    (hs : n.span = ⟨start, stop⟩) (hlt : start < stop) : Opened src stack (n :: nodes) stop := by
  obtain ⟨rfl, rfl⟩ : n.span.start = start ∧ n.span.stop = stop := by rw [hs]; exact ⟨rfl, rfl⟩
  cases stack with
  | nil =>
    rw [Opened, List.reverse_cons]
    exact h.concat hn hlt
  | cons top below =>
    obtain ⟨a, hb, ht, hrest⟩ := h
    refine ⟨a, hb, ?_, hrest⟩
    rw [List.reverse_cons]
    exact ht.concat hn hlt

theorem Opened.enter (h : Opened src stack nodes pos) (hb : Begun src f a) (hs : f.start = pos) :
    Opened src ((f, nodes) :: stack) [] a :=
  ⟨a, hb, .nil, hs ▸ h⟩

/-! ## One lexeme -/

def Ending.Spells : Ending → String → Prop
  | .closeTag name, text => ∃ r, text = "</" ++ String.ofList r ++ ">" ∧ closeName r = name
  | .control role header, text => text = braced header ∧ role.header = header

theorem end_opened {a a' : Assembly} (ho : Opened src a.stack a.nodes pos) (hs : ending.Spells text)
    (hp : Piece src pos stop text) (h : a.end ending stop = .ok a') :
    Opened src a'.stack a'.nodes stop := by
  unfold Assembly.end at h
  cases hstack : a.stack with
  | nil =>
    rw [hstack] at h
    cases ending <;> cases h
  | cons top below =>
    obtain ⟨frame, outer⟩ := top
    rw [hstack] at h ho
    obtain ⟨m, hb, ht, hrest⟩ := ho
    have hlt : frame.start < stop := by
      have := hb.lt
      have := ht.le
      have := hp.le
      omega
    -- one case for each construct and ending that belong together, and a last one for the others
    dsimp only at h
    split at h
    · next e start name =>
      split at h
      · next hname =>
        cases h
        obtain ⟨r, rfl, hclose⟩ := hs
        cases hb with
        | element hclosed hascii hne hopen =>
          have htrim := trim_of_closeName (hclose.trans hname) hascii
          exact hrest.add (.element hclosed hopen ht hp htrim) rfl hlt
      · cases h
    -- the construct that ends, or the next section of the same construct
    all_goals cases h
    all_goals obtain ⟨rfl, rfl⟩ := hs
    all_goals cases hb
    · next hopen => exact hrest.add (.each hopen ht hp) rfl hlt
    · next hopen => exact hrest.add (.cond hopen ht hp) rfl hlt
    · next hopen => exact hrest.enter (.otherwise hopen ht hp) rfl
    · next hopen hbody helse => exact hrest.add (.condElse hopen hbody helse ht hp) rfl hlt
    · next hopen => exact hrest.add (.await hopen ht .absent .absent hp) rfl hlt
    · next hopen => exact hrest.enter (.onValue hopen ht hp) rfl
    · next hopen => exact hrest.enter (.onError hopen ht .absent hp) rfl
    · next hopen hmain hthen =>
      exact hrest.add (.await hopen hmain (.present hthen ht) .absent hp) rfl hlt
    · next hopen hmain hthen => exact hrest.enter (.onError hopen hmain (.present hthen ht) hp) rfl
    · next hopen hmain hthen hcatch =>
      exact hrest.add (.await hopen hmain hthen (.present hcatch ht) hp) rfl hlt
    · next hopen => exact hrest.add (.slot hopen ht hp) rfl hlt
    · next hopen => exact hrest.add (.fragment hopen ht hp) rfl hlt

theorem feed_opened {a a' : Assembly} (hne : text ≠ []) (hs : l.token.Spells text)
    (hp : Text.slice? src l.start l.stop = some text) (ho : Opened src a.stack a.nodes l.start)
    (h : a.feed l = .ok a') : Opened src a'.stack a'.nodes l.stop := by
  have piece : ∀ {s : String}, text = s.toList → Piece src l.start l.stop s := by
    rintro s rfl
    exact hp
  have hlt : l.start < l.stop := by
    obtain ⟨c, cs, rfl⟩ := List.exists_cons_of_ne_nil hne
    obtain ⟨_, _, _, _, hstop⟩ := Text.slice?_eq_some hp
    have hpos := c.utf8Size_pos
    rw [Text.byteLength_cons] at hstop
    omega
  obtain ⟨token, start, stop⟩ := l
  unfold Assembly.feed at h
  cases token with
  | text value =>
    cases h
    exact ho.add (.text (piece hs)) rfl hlt
  | comment content =>
    cases h
    exact ho.add (.comment (piece hs)) rfl hlt
  | raw kind tag opening content =>
    cases h
    refine ho.add (.raw (piece ?_)) rfl hlt
    simpa [Token.Spells, RawBlock.name] using hs
  | openTag tag written =>
    obtain ⟨htext, hname⟩ := hs
    dsimp only at h
    split at h
    · next hclosed =>
      cases h
      exact ho.add (.closed hclosed (piece htext)) rfl hlt
    · next hclosed =>
      cases h
      have hopen := piece htext
      have hsize : written.utf8ByteSize ≠ 0 := by
        have := hopen.stop_eq
        omega
      exact ho.enter (.element (Bool.eq_false_iff.mpr hclosed) hname hsize hopen) rfl
  | closeTag name =>
    obtain ⟨r, htext, hclose⟩ := hs
    have hspells : (Ending.closeTag name).Spells ("</" ++ String.ofList r ++ ">") :=
      ⟨r, rfl, hclose⟩
    refine end_opened ho hspells (piece ?_) h
    rw [htext]
    simp
  | control role header =>
    obtain ⟨htext, hrole⟩ := hs
    have hwritten := writtenAs_ofHeader? role hrole
    have hopen : Piece src start stop (braced header) := by
      apply piece
      rw [htext]
      simp [braced]
    have hspells : (Ending.control role header).Spells (braced header) := ⟨rfl, hwritten⟩
    cases role with
    | sysTag value =>
      obtain rfl : value = header := hwritten
      cases h
      exact ho.add (.sysTag hopen) rfl hlt
    | each value | cond value | await value | slot value | fragment value =>
      obtain rfl : value = header := hwritten
      cases h
      refine ho.enter ?_ rfl
      constructor
      exact hopen
    | eachEnd | otherwise | condEnd | onValue _ | onError _ | awaitEnd | slotEnd | fragmentEnd =>
      exact end_opened ho hspells hopen h

/-! ## The whole source -/

theorem feedAll_opened {a a' : Assembly} (hl : Lexed src pos ls stop)
    (ho : Opened src a.stack a.nodes pos) (h : a.feedAll ls = .ok a') :
    Opened src a'.stack a'.nodes stop := by
  induction hl generalizing a with
  | nil pos =>
    cases h
    exact ho
  | cons l rest stop text hne hs hp _ ih =>
    unfold Assembly.feedAll at h
    rw [List.foldlM_cons] at h
    cases hf : a.feed l with
    | error f =>
      rw [hf] at h
      cases h
    | ok b =>
      rw [hf] at h
      exact ih (feed_opened hne hs hp ho hf) h

theorem parse_eq_ok (h : parse source = .ok root) : ∃ a, (lexemes 0 source.toList).2 = none ∧
      ({} : Assembly).feedAll (lexemes 0 source.toList).1 = .ok a ∧
      a.finish source.utf8ByteSize = .ok root := by
  have hfault : parseFault source = .ok root := by
    unfold parse at h
    cases hf : parseFault source with
    | error f =>
      rw [hf] at h
      cases h
    | ok r =>
      rw [hf] at h
      cases h
      rfl
  unfold parseFault at hfault
  cases ha : ({} : Assembly).feedAll (lexemes 0 source.toList).1 with
  | error f =>
    simp only [ha] at hfault
    cases hfault
  | ok a =>
    cases hend : (lexemes 0 source.toList).2 with
    | some f =>
      simp only [ha, hend] at hfault
      cases hfault
    | none =>
      simp only [ha, hend] at hfault
      exact ⟨a, rfl, rfl, hfault⟩

theorem finish_eq_ok {a : Assembly} (h : a.finish size = .ok root) :
    a.stack = [] ∧ root = { body := a.nodes.reverse, span := ⟨0, size⟩ } := by
  unfold Assembly.finish at h
  split at h
  · next hstack =>
    cases h
    exact ⟨hstack, rfl⟩
  · cases h

/-- The nodes of a tree tile its source, from the first byte to the last. -/
theorem parse_tiling (source : String) (root : Root) (h : parse source = .ok root) :
    root.span = ⟨0, source.utf8ByteSize⟩ ∧
      Tiling source.toList 0 root.body source.utf8ByteSize := by
  obtain ⟨a, hnone, hfeed, hfinish⟩ := parse_eq_ok h
  obtain ⟨hstack, rfl⟩ := finish_eq_ok hfinish
  have hstart : Opened source.toList ({} : Assembly).stack ({} : Assembly).nodes 0 := Tiling.nil
  obtain ⟨stop, hlexed, hstop⟩ := @lexemes_lexed 0 source.toList [] rfl
  have hopened := feedAll_opened hlexed hstart hfeed
  rw [hstack, hstop hnone, List.nil_append, Text.byteLength_toList] at hopened
  exact ⟨rfl, hopened⟩

def sampleSource : String :=
  "\x7b#each xs as x\x7d<p a=1>é\x7bx\x7d</ p >\x7b/each\x7d<!--c--><style>b</style>" ++
    "\x7b#await q\x7d.\x7b:catch e\x7d<br>\x7b/await\x7d\x7b#if y\x7d\x7b@html z\x7d\x7b:else\x7d!\x7b/if\x7d"

theorem parse_tiling_sample : ∃ root, parse sampleSource = .ok root ∧
    root.span = ⟨0, sampleSource.utf8ByteSize⟩ ∧
      Tiling sampleSource.toList 0 root.body sampleSource.utf8ByteSize := by
  have hok : (parse sampleSource).isOk = true := by decide +kernel
  cases h : parse sampleSource with
  | error halt =>
    rw [h] at hok
    cases hok
  | ok root => exact ⟨root, rfl, parse_tiling sampleSource root h⟩

end ReactiveMarkup.Markup
