import Mathlib.Tactic.Choose
import ReactiveMarkup.Markup.Tree
import ReactiveMarkup.Proofs.Spelling

/-! # Offsets of a tag scanner

A scanner keeps offsets of the attribute that it reads, and cuts the attribute out of the source
where it ends. Here every slice, subtraction and lookback is checked.
-/

namespace ReactiveMarkup.Markup

open List Option Text

open Text (byteLength slice?)

/-- What a scanner remembers of the attribute in hand: where it starts and its first `=`. -/
structure Offsets where
  attrStart : Option Nat := none
  equals : Option Nat := none

def less (n k : Nat) : Option Nat := if k ≤ n then some (n - k) else none

namespace Offsets

/-- Cuts out the attribute that ends at `stop`, and its name and value. -/
def flush (src : List Char) (o : Offsets) (stop : Nat) : Option Offsets :=
  match o.attrStart, o.equals with
  | none, _ => some o
  | some start, none => do
    let _ ← slice? src start stop
    return {}
  | some start, some e => do
    let _ ← slice? src start stop
    let _ ← slice? src start e
    let _ ← slice? src (e + 1) stop
    return {}

def start (s : TagState) (index : Nat) (c : Char) (o : Offsets) : Option Offsets :=
  if !s.inName && o.attrStart.isNone && !Text.isTagBlank c && c != '/' && c != '>' then do
    return { o with attrStart := some (← less index 1) }
  else some o

def attributeChar (src : List Char) (index : Nat) (c : Char) (o : Offsets) : Option Offsets :=
  if o.attrStart.isNone then some o
  else if c == '=' && o.equals.isNone then do return { o with equals := some (← less index 1) }
  else if Text.isTagBlank c then do o.flush src (← less index 1)
  else some o

/-- Ends the tag that starts at `first`, with a look at the byte before `>`. -/
def finish (src : List Char) (first index : Nat) (o : Offsets) : Option Offsets := do
  let o ← o.flush src (← less index 1)
  let _ ← src[← less index 2]?
  let _ ← slice? src first index
  return o

/-- One byte, after which the offset is `index`, for a reader in state `s`. -/
def step (src : List Char) (first index : Nat) (s : TagState) (c : Char) (o : Offsets) :
    Option Offsets := do
  if s.slash then
    if c == '>' then
      let o ← o.flush src (← less index 2)
      o.finish src first index
    else return o
  else if s.quote.isSome then return o
  else
    let o ← o.start s index c
    if isQuote c then return o
    else if c == '\x7b' then return o
    else if s.depth > 0 then
      if c == '\x7d' then
        let depth ← less s.depth 1
        if depth = 0 then o.flush src index else return o
      else return o
    else if c == '\x7d' then return o
    else if c == '<' then return o
    else if c == '/' then return o
    else if c == '>' then o.finish src first index
    else if s.inName then return if c == ':' then { attrStart := some index } else o
    else o.attributeChar src index c

end Offsets

def scanTag (src : List Char) (start : Nat) (s : TagState) (o : Offsets) (index : Nat) :
    List Char → Option (Except Fault (OpenTag × List Char))
  | [] => some (.error (.unfinished "tag" start))
  | c :: rest =>
    match o.step src start (index + 1) s c, s.step start index c with
    | none, _ => none
    | some _, .error f => some (.error f)
    | some o, .ok (.inl s) => scanTag src start s o (index + 1) rest
    | some _, .ok (.inr tag) => some (.ok (tag, rest))

/-! ## Offsets in range -/

theorem utf8Size_ascii {c : Char} (h : c.toNat < 0x80) : c.utf8Size = 1 :=
  Char.utf8Size_eq_one_iff.2 (UInt32.le_iff_toNat_le.2 (Nat.le_of_lt_succ h))

theorem byteLength_ascii (h : ∀ c ∈ cs, c.toNat < 0x80) : byteLength cs = cs.length := by
  induction cs with
  | nil => rfl
  | cons c cs ih =>
    rw [forall_mem_cons] at h
    rw [byteLength_cons, utf8Size_ascii h.1, ih h.2, length_cons, Nat.add_comm]

theorem floorBoundary_le (cs : List Char) (n : Nat) : floorBoundary cs n ≤ n := by
  unfold floorBoundary
  induction cs generalizing n with
  | nil => exact Nat.zero_le n
  | cons c cs ih =>
    rw [takeBytes]
    split
    · rw [byteLength_cons]
      have := ih (n - c.utf8Size)
      omega
    · exact Nat.zero_le n

/-- The attribute in hand starts at or before `stop`, and its `=` stands between the two. -/
inductive Spots (stop : Nat) : Option Partial → Offsets → Prop where
  | idle : Spots stop none {}
  | name (p : Partial) (start : Nat) : p.split = false → p.equals = none → start ≤ stop →
      Spots stop (some p) { attrStart := some start }
  | value (p : Partial) (start e : Nat) : p.split = false → p.equals ≠ none → start ≤ e → e < stop →
      Spots stop (some p) { attrStart := some start, equals := some e }

/-- At `index` the offsets fit what a reader has. No attribute is in hand before the name ends. -/
structure Tracks (index : Nat) (s : TagState) (o : Offsets) : Prop where
  spots : Spots (if s.slash then index - 1 else index) s.current o
  named : s.inName = true → s.current = none

/-- What one byte may come to: no slice fails and no character is split. -/
inductive Allows (index : Nat) :
    Except Fault (TagState ⊕ OpenTag) → Option Offsets → Prop where
  | fault (f : Fault) (o : Offsets) : f ≠ .splitCharacter → Allows index (.error f) (some o)
  | more (s : TagState) (o : Offsets) : Tracks index s o → Allows index (.ok (.inl s)) (some o)
  | complete (tag : OpenTag) (o : Offsets) : Allows index (.ok (.inr tag)) (some o)

theorem Allows.ite [Decidable p] {read read' : Except Fault (TagState ⊕ OpenTag)}
    (hpos : p → Allows index read o) (hneg : ¬p → Allows index read' o') :
    Allows index (if p then read else read') (if p then o else o') := by
  split
  · next h => exact hpos h
  · next h => exact hneg h

@[simp] theorem less_add : less (n + k) k = some n := by simp [less]

section Tag

variable {s : TagState} {o : Offsets} {c : Char} {index : Nat}

theorem Spots.push (h : Spots index s.current o) : Spots (index + 1) (s.push c).current o := by
  unfold TagState.push
  generalize s.current = current at h
  cases h with
  | idle => exact .idle
  | name p start hsplit hequals hstart => exact .name _ start hsplit hequals (by omega)
  | value p start e hsplit hequals hstart he =>
    exact .value _ start e hsplit hequals hstart (by omega)

theorem Tracks.push (c : Char) (h : Spots index s.current o) (hslash : s.slash = false)
    (hnamed : s.inName = true → s.current = none) : Tracks (index + 1) (s.push c) o where
  spots := by simpa [TagState.push, hslash] using h.push
  named hname := by simp [TagState.push, hnamed hname]

theorem Tracks.idle (hcurrent : s.current = none) : Tracks index s {} :=
  ⟨hcurrent ▸ .idle, fun _ => hcurrent⟩

theorem Spots.start (c : Char) (h : Spots index s.current o)
    (hnamed : s.inName = true → s.current = none) :
    ∃ current o', Spots index current o' ∧ (s.inName = true → current = none) ∧
      s.start c = { s with current } ∧ o.start s (index + 1) c = some o' := by
  have hnone : o.attrStart.isNone = s.current.isNone := by
    generalize s.current = current at h
    cases h <;> rfl
  unfold TagState.start Offsets.start
  rw [hnone]
  split
  · next hc =>
    simp only [Bool.and_eq_true, Bool.not_eq_true', isNone_iff_eq_none] at hc
    have hidle := hc.1.1.1
    rw [hidle.2] at h
    cases h
    exact ⟨some {}, _, .name {} index rfl rfl (Nat.le_refl _), by simp [hidle.1], rfl, by simp⟩
  · exact ⟨s.current, o, h, hnamed, rfl, rfl⟩

theorem Tracks.nameChar (hcurrent : s.current = none) (hslash : s.slash = false)
    (ha : c.toNat < 0x80) :
    Tracks index (s.nameChar c) (if c == ':' then { attrStart := some index } else {}) := by
  unfold TagState.nameChar
  by_cases hcolon : c = ':'
  · subst hcolon
    exact ⟨by simpa [hslash] using .name {} index rfl rfl (Nat.le_refl _), nofun⟩
  · simp only [hcolon, beq_iff_eq, ↓reduceIte]
    split <;> exact .idle hcurrent

variable {src : List Char} (ha : ∀ c ∈ src, c.toNat < 0x80)

include ha

theorem slice?_ascii (hstart : start ≤ stop) (hstop : stop ≤ src.length) :
    ∃ text, slice? src start stop = some text := by
  have htake n : byteLength (src.take n) = (src.take n).length :=
    byteLength_ascii fun c hc => ha c (mem_of_mem_take hc)
  have hfront : src.take start ++ (src.take stop).drop start = src.take stop := by
    rw [← Nat.min_eq_left hstart, ← take_take, Nat.min_eq_left hstart, take_append_drop]
  have h := slice?_append (src.take start) ((src.take stop).drop start) (src.drop stop)
  rw [hfront, take_append_drop, htake, htake, length_take, length_take,
    Nat.min_eq_left hstop, Nat.min_eq_left (Nat.le_trans hstart hstop)] at h
  exact ⟨_, h⟩

theorem Spots.flush (h : Spots stop s.current o) (hstop : stop ≤ src.length) :
    o.flush src stop = some {} ∧ ∃ s', s.flush = .ok s' ∧ s'.current = none := by
  have hcut {start : Nat} (h : start ≤ stop) := slice?_ascii ha h hstop
  unfold TagState.flush
  generalize hcurrent : s.current = current at h
  cases h with
  | idle => exact ⟨rfl, s, rfl, hcurrent⟩
  | name p start hsplit hequals hstart =>
    obtain ⟨text, htext⟩ := hcut hstart
    refine ⟨by simp [Offsets.flush, htext], ?_⟩
    cases s.arg <;> simp [hsplit]
  | value p start e hsplit hequals hstart he =>
    obtain ⟨text, htext⟩ := hcut (Nat.le_trans hstart (Nat.le_of_lt he))
    obtain ⟨name, hname⟩ := slice?_ascii ha hstart (Nat.le_of_lt (Nat.lt_of_lt_of_le he hstop))
    obtain ⟨value, hvalue⟩ := hcut he
    refine ⟨by simp [Offsets.flush, htext, hname, hvalue], ?_⟩
    cases s.arg <;> simp [hsplit]

theorem Spots.finish (h : Spots index s.current o) (hfirst : first < index)
    (hindex : index < src.length) :
    Allows stop (s.finish.map .inr) (o.finish src first (index + 1)) := by
  obtain ⟨ho, s', hs, -⟩ := h.flush ha (Nat.le_of_lt hindex)
  obtain ⟨text, htext⟩ : ∃ text, slice? src first (index + 1) = some text :=
    slice?_ascii ha (by omega) hindex
  have htwo : less (index + 1) 2 = some (index - 1) := if_pos (by omega)
  have hbefore : src[index - 1]? = some src[index - 1] := getElem?_eq_getElem _
  simp only [Offsets.finish, TagState.finish, less_add, ho, hs, htwo, hbefore, htext,
    bind_eq_bind, bind_some]
  exact .complete _ _

theorem Spots.flushed (h : Spots stop s.current o) (hstop : stop ≤ src.length) :
    Allows index (s.flush.map .inl) (o.flush src stop) := by
  obtain ⟨ho, s', hs, hidle⟩ := h.flush ha hstop
  rw [ho, hs]
  exact .more _ _ (.idle hidle)

theorem Spots.attributeChar (h : Spots index s.current o) (hname : s.inName = false)
    (hslash : s.slash = false) (hindex : index < src.length) :
    Allows (index + 1) ((s.attributeChar c).map .inl) (o.attributeChar src (index + 1) c) := by
  have hpushed : Allows (index + 1) ((Except.ok (s.push c)).map .inl) (some o) :=
    .more _ _ (.push c h hslash (by simp [hname]))
  have hflushed : Allows (index + 1) _ _ := h.flushed ha (Nat.le_of_lt hindex)
  unfold TagState.attributeChar Offsets.attributeChar
  generalize hcurrent : s.current = current at h
  cases h with
  | idle => exact .more _ _ (.idle hcurrent)
  | name p start hsplit hequals hstart =>
    by_cases heq : c = '='
    · subst heq
      simp only [hequals]
      refine .more _ _ ⟨?_, by simp [hname]⟩
      simpa [hslash] using .value _ start index hsplit nofun hstart (by omega)
    · by_cases hblank : isTagBlank c = true
      · simpa [heq, hblank] using hflushed
      · simpa [heq, hblank] using hpushed
  | value p start e hsplit hequals hstart he =>
    by_cases hblank : isTagBlank c = true
    · simpa [hblank, hequals] using hflushed
    · simpa [hblank, hequals] using hpushed

theorem Tracks.step (h : Tracks index s o) (hfirst : first < index) (hc : src[index]? = some c) :
    Allows (index + 1) (s.step first index c) (o.step src first (index + 1) s c) := by
  obtain ⟨hindex, -⟩ := List.getElem?_eq_some_iff.1 hc
  obtain ⟨hspots, hnamed⟩ := h
  unfold TagState.step Offsets.step
  by_cases hslash : s.slash = true
  · rw [if_pos hslash] at hspots
    rw [if_pos hslash, if_pos hslash]
    refine .ite (fun _ => ?_) fun _ => .fault _ _ nofun
    obtain ⟨ho, s', hs, hidle⟩ := hspots.flush ha (by omega)
    have htwo : less (index + 1) 2 = some (index - 1) := if_pos (by omega)
    have hflushed : s'.flush = .ok s' := by rw [TagState.flush, hidle]
    have hfinish : s.finish = s'.finish := by rw [TagState.finish, TagState.finish, hs, hflushed]
    have hidle : Spots index s'.current {} := hidle ▸ .idle
    simp only [htwo, ho, hfinish, bind_eq_bind, bind_some]
    exact hidle.finish ha hfirst hindex
  rw [if_neg hslash] at hspots
  rw [if_neg hslash, if_neg hslash]
  rw [Bool.not_eq_true] at hslash
  cases hq : s.quote with
  | some q =>
    have hpushed := Tracks.push c hspots hslash hnamed
    dsimp only
    split <;> exact .more _ _ ⟨hpushed.spots, hpushed.named⟩
  | none =>
    obtain ⟨current, o', hspots, hnamed, hs, ho⟩ := hspots.start c hnamed
    simp only [hs, ho, isSome_none, Bool.false_eq_true, ↓reduceIte, bind_eq_bind,
      bind_some]
    let s₁ : TagState := { s with current, quote := none }
    have hpushed : Tracks (index + 1) (s₁.push c) o' := .push c hspots hslash hnamed
    refine .ite (fun _ => .more _ _ ⟨hpushed.spots, hpushed.named⟩) fun _ => ?_
    refine .ite (fun _ => .more _ _ ⟨hpushed.spots, hpushed.named⟩) fun _ => ?_
    refine .ite (fun hdepth => ?_) fun _ => ?_
    · refine .ite (fun _ => ?_) fun _ => .more _ _ ⟨hpushed.spots, hpushed.named⟩
      have hless : less s.depth 1 = some (s.depth - 1) := if_pos hdepth
      simp only [hless, bind_some]
      refine .ite (fun _ => ?_) fun _ => .more _ _ ⟨hpushed.spots, hpushed.named⟩
      exact Spots.flushed ha
        (Spots.push hspots) hindex
    refine .ite (fun _ => .fault _ _ nofun) fun _ => .ite (fun _ => .fault _ _ nofun) fun _ => ?_
    refine .ite (fun _ => .more _ _ ⟨hspots, hnamed⟩) fun _ => ?_
    refine .ite (fun _ => hspots.finish ha hfirst hindex) fun _ => ?_
    refine .ite (fun hname => ?_) fun hname => ?_
    · obtain rfl := hnamed hname
      cases hspots
      exact .more _ _ (.nameChar rfl hslash (ha c (List.mem_of_getElem? hc)))
    · exact Spots.attributeChar ha hspots (by simpa using hname) hslash hindex

theorem scanTag_eq (h : Tracks index s o) (hfirst : first < index) (hrest : src.drop index = rest) :
    scanTag src first s o index rest = some (readTag first s index rest) ∧
      readTag first s index rest ≠ .error .splitCharacter := by
  induction rest generalizing index s o with
  | nil => exact ⟨rfl, nofun⟩
  | cons c rest ih =>
    have hc : src[index]? = some c := by rw [← head?_drop, hrest]; rfl
    have hstep := h.step ha hfirst hc
    rw [scanTag, readTag, utf8Size_ascii (ha c (mem_of_getElem? hc))]
    generalize s.step first index c = read, o.step src first (index + 1) s c = o' at hstep ⊢
    cases hstep with
    | fault f _ hf => exact ⟨rfl, fun heq => hf (Except.error.inj heq)⟩
    | complete tag => exact ⟨rfl, by rintro ⟨⟩⟩
    | more s o h => exact ih h (by omega) (by rw [← tail_drop, hrest]; rfl)

theorem scanTag_start (hsrc : src = front ++ '<' :: rest) :
    scanTag src front.length {} {} (front.length + 1) rest =
        some (readTag front.length {} (front.length + 1) rest) ∧
      readTag front.length {} (front.length + 1) rest ≠ .error .splitCharacter :=
  scanTag_eq ha (.idle rfl) (Nat.lt_succ_self _) (by simp [hsrc])

/-! ## Faults of ASCII markup -/

theorem excerpt_ascii (start stop : Nat) : ∃ text, Fault.excerpt src start stop = some text := by
  have hstart := floorBoundary_le src (min start (min stop (byteLength src)))
  obtain ⟨text, htext⟩ := @slice?_ascii src ha _ (min stop (byteLength src))
    (Nat.le_trans hstart (Nat.min_le_right ..)) (byteLength_ascii ha ▸ Nat.min_le_right ..)
  exact ⟨String.ofList text, by rw [Fault.excerpt, htext]; rfl⟩

theorem readLexeme_ascii (hsrc : src = front ++ c :: rest)
    (h : readLexeme front.length c rest = .error f) : f ≠ .splitCharacter := by
  rintro rfl
  have hsection (kind : RawKind) (n : Nat) : openSection kind n ≠ .splitCharacter := by
    cases kind <;> nofun
  have htag (hc : (c == '<') = true) :=
    (scanTag_start ha (eq_of_beq hc ▸ hsrc : src = front ++ '<' :: rest)).2
  unfold readLexeme at h
  dsimp only at h
  repeat' split at h
  all_goals first
    | exact hsection _ _ (Except.error.inj h)
    | cases h <;> exact htag ‹_› ‹_›

theorem lexemes_ascii (front : List Char) (hsrc : src = front ++ cs) (hpos : front.length = pos)
    (hf : (lexemes pos cs).2 = some f) : f ≠ .splitCharacter := by
  fun_induction lexemes pos cs generalizing front with
  | case1 pos => cases hf
  | case2 pos c rest f h =>
    cases hf
    subst hpos
    exact readLexeme_ascii ha hsrc h
  | case3 pos c rest token after h stop p ih =>
    obtain ⟨text, htext, -⟩ := readLexeme_spells h
    have hsrc' : src = (front ++ text) ++ after := by rw [hsrc, htext, append_assoc]
    have hsize : byteLength text = text.length :=
      byteLength_ascii fun c hc => ha c (by simp [hsrc', hc])
    refine ih (front ++ text) hsrc' ?_ hf
    simp only [stop, htext, length_append, Nat.add_sub_cancel, take_left, hsize, hpos]

end Tag

theorem interrupted_ne_splitCharacter {frame : Frame} {found : Found} {stop : Nat} :
    frame.interrupted found stop ≠ .splitCharacter := by
  cases frame <;> cases found <;> nofun

theorem feed_ne_splitCharacter (a : Assembly) : a.feed l ≠ .error .splitCharacter := by
  have hend (ending : Ending) (stop : Nat) : a.end ending stop ≠ .error .splitCharacter := by
    intro h
    unfold Assembly.end at h
    repeat' split at h
    all_goals first
      | cases h
      | exact interrupted_ne_splitCharacter (Except.error.inj h)
  intro h
  unfold Assembly.feed at h
  repeat' split at h
  all_goals first
    | cases h
    | exact hend _ _ h

theorem feedAll_ne_splitCharacter (a : Assembly) : a.feedAll ls ≠ .error .splitCharacter := by
  unfold Assembly.feedAll
  induction ls generalizing a with
  | nil => nofun
  | cons l ls ih =>
    rw [foldlM_cons]
    cases hfeed : a.feed l with
    | error f => exact fun h => feed_ne_splitCharacter a (hfeed.trans h)
    | ok b => exact ih b

section Source

variable {source : String} {f : Fault} (ha : ∀ c ∈ source.toList, c.toNat < 0x80)

include ha

theorem diagnose_ascii (hf : f ≠ .splitCharacter) : ∃ d, f.diagnose source = some d := by
  choose text htext using excerpt_ascii ha
  cases f with
  | splitCharacter => exact absurd rfl hf
  | _ => simp [Fault.diagnose, htext]

theorem parseFault_ascii (h : parseFault source = .error f) : f ≠ .splitCharacter := by
  unfold parseFault at h
  cases hfeed : ({} : Assembly).feedAll (lexemes 0 source.toList).1 with
  | error f =>
    simp only [hfeed] at h
    cases h
    rintro rfl
    exact feedAll_ne_splitCharacter _ hfeed
  | ok a =>
    cases hfault : (lexemes 0 source.toList).2 with
    | some f =>
      simp only [hfeed, hfault] at h
      cases h
      exact lexemes_ascii ha [] rfl rfl hfault
    | none =>
      simp only [hfeed, hfault] at h
      change a.finish source.utf8ByteSize = _ at h
      unfold Assembly.finish at h
      split at h <;> cases h
      exact interrupted_ne_splitCharacter

end Source

/-- Markup in ASCII is read to a tree or a diagnostic. Its lexemes are slices that follow each other
and are not empty. Where a tag starts, all that is read by offsets is in range. -/
theorem ascii_reading_stays_in_range (source : String)
    (hascii : ∀ c ∈ source.toList, c.toNat < 0x80) :
    ((∃ root, parse source = .ok root) ∨ ∃ d, parse source = .error (.diagnostic d)) ∧
      (∃ stop, Lexed source.toList 0 (lexemes 0 source.toList).1 stop) ∧
      (∀ front rest, source.toList = front ++ '<' :: rest →
        scanTag source.toList front.length {} {} (front.length + 1) rest =
          some (readTag front.length {} (front.length + 1) rest)) ∧
      ∀ start stop, ∃ text, Fault.excerpt source.toList start stop = some text := by
  refine ⟨?_, ?_, fun front rest hsrc => (scanTag_start hascii hsrc).1, excerpt_ascii hascii⟩
  · unfold parse
    cases hparse : parseFault source with
    | ok root => exact .inl ⟨root, rfl⟩
    | error f =>
      obtain ⟨d, hd⟩ := diagnose_ascii hascii (parseFault_ascii hascii hparse)
      exact .inr ⟨d, by simp only [Except.mapError, Halt.ofFault, hd]⟩
  · obtain ⟨stop, hlexed, -⟩ := @lexemes_lexed 0 source.toList [] rfl
    exact ⟨stop, hlexed⟩

/-- An argument that is empty, an attribute up to the slash, and a tag that is not finished. -/
def tersePage : String := "<a: b=/><i c"

theorem ascii_reading_stays_in_range_tersePage :
    scanTag tersePage.toList 0 {} {} 1 "a: b=/><i c".toList =
      some (readTag 0 {} 1 "a: b=/><i c".toList) := by
  have hascii : ∀ c ∈ tersePage.toList, c.toNat < 0x80 := by simp [tersePage]
  exact (ascii_reading_stays_in_range tersePage hascii).2.2.1 [] _ rfl

end ReactiveMarkup.Markup
