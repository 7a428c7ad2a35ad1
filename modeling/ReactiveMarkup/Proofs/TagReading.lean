import ReactiveMarkup.Proofs.Printing

/-! # Reading printed tags

A tag that has been written from an element is read as that element. Each part of a tag leads the
reader from one state to another, whatever follows it; `Ready` holds of the states between parts.
-/

namespace ReactiveMarkup.Markup

open List

open Text (byteLength)

/-- The characters `cs` lead the reader from one state to another, whatever follows them. -/
def Scans (s : TagState) (cs : List Char) (s' : TagState) : Prop :=
  ∀ start pos rest, readTag start s pos (cs ++ rest) = readTag start s' (pos + byteLength cs) rest

namespace Scans

variable {s s' s'' : TagState} {c : Char} {cs ds : List Char}

theorem nil : Scans s [] s := by
  intro start pos rest
  rfl

theorem append (h : Scans s cs s') (h' : Scans s' ds s'') : Scans s (cs ++ ds) s'' := by
  intro start pos rest
  rw [append_assoc, h, h', Text.byteLength_append, Nat.add_assoc]

theorem one (h : ∀ start pos, s.step start pos c = .ok (.inl s')) : Scans s [c] s' := by
  intro start pos rest
  rw [singleton_append, readTag, h]
  rfl

theorem cons (h : ∀ start pos, s.step start pos c = .ok (.inl s')) (h' : Scans s' cs s'') :
    Scans s (c :: cs) s'' :=
  (one h).append h'

end Scans

namespace TagState

variable {s t : TagState} {c : Char} {p : Partial}

/-! ## Steps -/

/-- A character with a meaning of its own wherever it stands outside quotes and braces. -/
def isMark (c : Char) : Bool :=
  isQuote c || c == '\x7b' || c == '\x7d' || c == '<' || c == '>' || c == '/'

/-- The reader is outside quotes and braces and has seen no slash. -/
structure Outside (s : TagState) : Prop where
  slash : s.slash = false
  quote : s.quote = none
  depth : s.depth = 0

theorem step_name (ho : s.Outside) (hn : s.inName = true) (hc : isMark c = false) :
    s.step first pos c = .ok (.inl (s.nameChar c)) := by
  have hstart : s.start c = s := by simp [TagState.start, hn]
  simp only [isMark, Bool.or_eq_false_iff] at hc
  simp [step, ho.slash, ho.quote, ho.depth, hstart, hc, hn]

theorem step_attribute (ho : s.Outside) (hn : s.inName = false) (hc : isMark c = false) :
    s.step first pos c = ((s.start c).attributeChar c).map .inl := by
  have hdepth : (s.start c).depth = 0 := by
    rw [← ho.depth]
    unfold TagState.start
    split <;> rfl
  have hname : (s.start c).inName = false := by
    rw [← hn]
    unfold TagState.start
    split <;> rfl
  simp only [isMark, Bool.or_eq_false_iff] at hc
  simp [step, ho.slash, ho.quote, hdepth, hname, hc]

theorem step_congr (hs : s.Outside) (ht : t.Outside) (h : s.start c = t.start c)
    (first pos : Nat) : s.step first pos c = t.step first pos c := by
  simp only [step, hs.slash, ht.slash, hs.quote, ht.quote, h, Bool.false_eq_true, if_false]

def reading (t : TagState) (p : Partial) : TagState := { t with current := some p }

theorem Outside.reading (ho : t.Outside) : (t.reading p).Outside := ⟨ho.slash, ho.quote, ho.depth⟩

theorem start_reading : (t.reading p).start c = t.reading p := by
  simp [TagState.start, reading]

theorem scans_start (ho : t.Outside) (hn : t.inName = false) (hnone : t.current = none)
    (hb : Text.isTagBlank c = false) (hs : c ≠ '/') (hg : c ≠ '>')
    (h : Scans (t.reading {}) (c :: cs) s) : Scans t (c :: cs) s := by
  have hstart : t.start c = t.reading {} := by
    simp [TagState.start, reading, hn, hnone, hb, hs, hg]
  have hstep := step_congr ho ho.reading (hstart.trans start_reading.symm)
  intro first pos rest
  rw [← h first pos rest, cons_append, readTag, readTag, hstep]

/-! ## Characters of names -/

theorem isMark_of_isNameChar (h : isNameChar c = true) : isMark c = false := by
  simp only [isNameChar, Bool.not_eq_true', Bool.or_eq_false_iff] at h
  simp [isMark, h]

theorem isMark_of_isAlphanum (h : c.isAlphanum = true) : isMark c = false := by
  have hne : ∀ d : Char, d.isAlphanum = false → (c == d) = false := by
    intro d hd
    refine beq_eq_false_iff_ne.mpr ?_
    rintro rfl
    rw [h] at hd
    cases hd
  simp only [isMark, isQuote, Bool.or_eq_false_iff]
  exact ⟨⟨⟨⟨⟨⟨⟨hne _ rfl, hne _ rfl⟩, hne _ rfl⟩, hne _ rfl⟩, hne _ rfl⟩, hne _ rfl⟩, hne _ rfl⟩,
    hne _ rfl⟩

theorem scans_nameChar {name : List Char}
    (h : (c.isAlphanum || (c == '-' && !name.isEmpty)) = true) :
    Scans { name } [c] { name := c :: name } := by
  have hmark : isMark c = false := by
    rcases Bool.or_eq_true_iff.mp h with hc | hc
    · exact isMark_of_isAlphanum hc
    · rw [eq_of_beq (Bool.and_eq_true_iff.mp hc).1]
      rfl
  have hchar : ({ name } : TagState).nameChar c = { name := c :: name } := if_pos h
  refine .one fun first pos => ?_
  rw [step_name ⟨rfl, rfl, rfl⟩ rfl hmark, hchar]

theorem scans_tagName (h : isTagName cs = true) : Scans {} cs { name := cs.reverse } := by
  have more : ∀ (cs name : List Char), name ≠ [] →
      cs.all (fun d => d.isAlphanum || d == '-') = true →
      Scans { name } cs { name := cs.reverse ++ name } := by
    intro cs
    induction cs with
    | nil => exact fun name _ _ => .nil
    | cons c cs ih =>
      intro name hne h
      rw [all_cons, Bool.and_eq_true_iff] at h
      have hc : (c.isAlphanum || (c == '-' && !name.isEmpty)) = true := by
        simpa [hne] using h.1
      rw [reverse_cons, append_assoc]
      exact (scans_nameChar hc).append (ih (c :: name) (cons_ne_nil c name) h.2)
  cases cs with
  | nil => cases h
  | cons c cs =>
    obtain ⟨hc, hcs⟩ := Bool.and_eq_true_iff.mp h
    have hfirst : Scans {} [c] { name := [c] } := scans_nameChar (by rw [hc]; rfl)
    rw [reverse_cons]
    exact hfirst.append (more cs [c] (cons_ne_nil c []) hcs)

theorem scans_chars (ho : t.Outside) (hn : t.inName = false) (h : cs.all isNameChar = true) :
    Scans (t.reading p) cs (t.reading { p with content := cs.reverse ++ p.content }) := by
  induction cs generalizing p with
  | nil => exact .nil
  | cons c cs ih =>
    rw [all_cons, Bool.and_eq_true_iff] at h
    obtain ⟨hc, hcs⟩ := h
    have hplain := hc
    simp only [isNameChar, Bool.not_eq_true', Bool.or_eq_false_iff] at hplain
    rw [reverse_cons, append_assoc]
    refine .cons (fun first pos => ?_) (ih hcs (p := { p with content := c :: p.content }))
    rw [step_attribute ho.reading hn (isMark_of_isNameChar hc), start_reading]
    simp [attributeChar, reading, hplain, push, Except.map]

theorem scans_equals (ho : t.Outside) (hn : t.inName = false) :
    Scans (t.reading { content := r }) ['=']
      (t.reading { content := '=' :: r, equals := some r.length }) := by
  refine .one fun first pos => ?_
  rw [step_attribute ho.reading hn rfl, start_reading]
  rfl

/-! ## Quotes and braces -/

/-- The state with `p` being read, inside a quote `q` and `d` braces. -/
def inside (t : TagState) (p : Partial) (q : Option Char) (d : Nat) : TagState :=
  { t with current := some p, quote := q, depth := d }

theorem Outside.inside_eq (ho : t.Outside) : t.inside p none 0 = t.reading p := by
  rw [inside, TagState.reading, ← ho.quote, ← ho.depth]

section

variable (hs : t.slash = false)
include hs

theorem step_inQuote (first pos : Nat) : (t.inside p (some q) d).step first pos c =
      .ok (.inl (t.inside { p with content := c :: p.content } (if c == q then none else some q)
        d)) := by
  simp only [step, inside, hs, push, Option.map_some, Bool.false_eq_true, if_false]
  split <;> rfl

theorem step_openQuote (hq : isQuote c = true) (first pos : Nat) :
    (t.inside p none d).step first pos c =
      .ok (.inl (t.inside { p with content := c :: p.content } (some c) d)) := by
  simp [step, inside, hs, push, TagState.start, hq]

theorem step_openBrace (first pos : Nat) : (t.inside p none d).step first pos '\x7b' =
      .ok (.inl (t.inside { p with content := '\x7b' :: p.content } none (d + 1))) := by
  simp [step, inside, hs, push, TagState.start, isQuote, backquote]

theorem step_closeBrace (first pos : Nat) : (t.inside p none (d + 2)).step first pos '\x7d' =
      .ok (.inl (t.inside { p with content := '\x7d' :: p.content } none (d + 1))) := by
  simp [step, inside, hs, push, TagState.start, isQuote, backquote]

theorem step_inBraces (hq : isQuote c = false) (ho : c ≠ '\x7b')
    (hc : c ≠ '\x7d') (first pos : Nat) : (t.inside p none (d + 1)).step first pos c =
      .ok (.inl (t.inside { p with content := c :: p.content } none (d + 1))) := by
  simp [step, inside, hs, push, TagState.start, hq, ho, hc]

end

theorem scans_quoted (ho : t.Outside) (hv : '"' ∉ v) : Scans (t.reading p) ('"' :: (v ++ ['"']))
      (t.reading { p with content := '"' :: v.reverse ++ '"' :: p.content }) := by
  have inner : ∀ (v : List Char) (p : Partial), '"' ∉ v → Scans (t.inside p (some '"') 0) v
      (t.inside { p with content := v.reverse ++ p.content } (some '"') 0) := by
    intro v
    induction v with
    | nil => exact fun p _ => .nil
    | cons c v ih =>
      intro p hv
      rw [mem_cons, not_or] at hv
      rw [reverse_cons, append_assoc]
      refine .cons (fun first pos => ?_) (ih { p with content := c :: p.content } hv.2)
      rw [step_inQuote ho.slash, if_neg (by simpa using Ne.symm hv.1)]
  rw [← ho.inside_eq, ← ho.inside_eq]
  refine .cons (step_openQuote ho.slash rfl) ((inner v _ hv).append (.one fun first pos => ?_))
  rw [step_inQuote ho.slash]
  rfl

theorem scans_balanced (hs : t.slash = false) (he : balancedFrom q d e = true) :
    Scans (t.inside p q (d + 1)) e
      (t.inside { p with content := e.reverse ++ p.content } none 1) := by
  induction e generalizing q d p with
  | nil =>
    rw [balancedFrom, Bool.and_eq_true_iff, Option.isNone_iff_eq_none, beq_iff_eq] at he
    obtain ⟨rfl, rfl⟩ := he
    exact .nil
  | cons c e ih =>
    rw [reverse_cons, append_assoc]
    unfold balancedFrom at he
    cases q with
    | some q => exact .cons (step_inQuote hs) (ih he)
    | none =>
      by_cases hq : isQuote c = true
      · rw [if_pos hq] at he
        exact .cons (step_openQuote hs hq) (ih he)
      rw [if_neg hq] at he
      by_cases ho : c = '\x7b'
      · subst ho
        exact .cons (step_openBrace hs) (ih he)
      by_cases hc : c = '\x7d'
      · subst hc
        obtain ⟨hd, he⟩ := Bool.and_eq_true_iff.mp he
        obtain ⟨k, rfl⟩ : ∃ k, d = k + 1 := Nat.exists_eq_succ_of_ne_zero (by simpa using hd)
        exact .cons (step_closeBrace hs) (ih he)
      · rw [if_neg (by simpa using ho), if_neg (by simpa using hc)] at he
        exact .cons (step_inBraces hs (by simpa using hq) ho hc) (ih he)

theorem scans_braced (ho : t.Outside) (he : Balanced e)
    (hf : (t.reading { p with content := (braced e).toList.reverse ++ p.content }).flush = .ok s) :
    Scans (t.reading p) (braced e).toList s := by
  have hlist : (braced e).toList = '\x7b' :: (e.toList ++ ['\x7d']) := by simp [braced]
  rw [hlist] at hf ⊢
  rw [← ho.inside_eq]
  refine .cons (step_openBrace ho.slash) ((scans_balanced ho.slash he).append
    (.one fun first pos => ?_))
  have hpush : (t.inside { p with content := e.toList.reverse ++ '\x7b' :: p.content } none 1).step
      first pos '\x7d' = (t.reading { p with
        content := ('\x7b' :: (e.toList ++ ['\x7d'])).reverse ++ p.content }).flush.map .inl := by
    rw [← ho.inside_eq]
    simp [step, inside, ho.slash, push, TagState.start, isQuote, backquote]
  rw [hpush, hf]
  rfl

/-! ## Between the parts of a tag -/

/-- The state after the name, the argument and some attributes, the last one first. -/
def settled (name : List Char) (arg : ArgState) (attrs : List Attribute) : TagState :=
  { inName := false, name, arg, attributes := attrs }

theorem settled_outside {name : List Char} {arg : ArgState} {attrs : List Attribute} :
    (settled name arg attrs).Outside :=
  ⟨rfl, rfl, rfl⟩

/-- The next blank, or the end of the tag, settles what is being read. -/
structure Ready (s t : TagState) : Prop where
  outside : s.Outside
  first : s.inName = true → s.current = none
  flush : s.flush = .ok { t with inName := s.inName }

variable {name : List Char} {arg : ArgState} {attrs : List Attribute}

theorem Ready.blank (h : Ready s (settled name arg attrs)) :
    Scans s [' '] (settled name arg attrs) := by
  have hstart : s.start ' ' = s := by simp [TagState.start, Text.isTagBlank]
  refine .one fun first pos => ?_
  have hflush := h.flush
  cases hn : s.inName with
  | true =>
    have hnone := h.first hn
    rw [TagState.flush, hnone] at hflush
    rw [step_name h.outside hn rfl]
    exact congrArg (fun u : TagState => Except.ok (Sum.inl { u with inName := false }))
      (Except.ok.inj hflush)
  | false =>
    rw [hn] at hflush
    rw [step_attribute h.outside hn rfl, hstart]
    cases hc : s.current with
    | none =>
      rw [TagState.flush, hc] at hflush
      cases hflush
      rfl
    | some p =>
      have hchar : s.attributeChar ' ' = s.flush := by
        rw [attributeChar, hc]
        rfl
      rw [hchar, hflush]
      rfl

theorem flush_slash : ({ s with slash := true } : TagState).flush =
    s.flush.map fun u => { u with slash := true } := by
  obtain ⟨inName, name, arg, attrs, current, depth, quote, slash⟩ := s
  cases current with
  | none => rfl
  | some p =>
    unfold TagState.flush
    dsimp only
    split
    · rfl
    · cases arg <;> rfl

def opened (t : TagState) (slash : Bool) : OpenTag where
  name := String.ofList t.name.reverse
  arg := match t.arg with
    | .given v => some v
    | _ => none
  attributes := t.attributes.reverse
  closed := voidNames.contains (String.ofList t.name.reverse) || slash
  void := voidNames.contains (String.ofList t.name.reverse)

theorem Ready.end (h : Ready s (settled name arg attrs)) (start : Nat) (rest : List Char) :
    readTag start s pos ('>' :: rest) = .ok ((settled name arg attrs).opened false, rest) := by
  have hstart : s.start '>' = s := by simp [TagState.start]
  have hstep : s.step start pos '>' = s.finish.map .inr := by
    simp [step, h.outside.slash, h.outside.quote, h.outside.depth, hstart, isQuote, backquote]
  rw [readTag, hstep, finish, h.flush]
  rfl

theorem Ready.selfClose (h : Ready s (settled name arg attrs)) (start : Nat) (rest : List Char) :
    readTag start s pos ('/' :: '>' :: rest) =
      .ok ((settled name arg attrs).opened true, rest) := by
  have hstart : s.start '/' = s := by simp [TagState.start]
  have hstep : s.step start pos '/' = .ok (.inl { s with slash := true }) := by
    simp [step, h.outside.slash, h.outside.quote, h.outside.depth, hstart, isQuote, backquote]
  have hend : ∀ pos, ({ s with slash := true } : TagState).step start pos '>' =
      ({ s with slash := true } : TagState).finish.map .inr := fun _ => rfl
  rw [readTag, hstep]
  dsimp only
  rw [readTag, hend, finish, flush_slash, h.flush]
  rfl

/-! ## Attributes -/

theorem ready_settled : Ready (settled name arg attrs) (settled name arg attrs) where
  outside := settled_outside
  first := fun _ => rfl
  flush := rfl

theorem flush_reading (ha : arg ≠ .pending) (hp : p.split = false) (hattr : p.attribute = a) :
    ((settled name arg attrs).reading p).flush = .ok (settled name arg (a :: attrs)) := by
  subst hattr
  cases arg with
  | pending => exact absurd rfl ha
  | absent | given v => simp [TagState.flush, reading, settled, hp]

theorem ready_reading (ha : arg ≠ .pending) (hp : p.split = false) (hattr : p.attribute = a) :
    Ready ((settled name arg attrs).reading p) (settled name arg (a :: attrs)) where
  outside := settled_outside.reading
  first := nofun
  flush := flush_reading ha hp hattr

theorem scans_bareName (hn : BareName n) : Scans (settled name arg attrs) n.toList
      ((settled name arg attrs).reading { content := n.toList.reverse }) := by
  have hscan : Scans ((settled name arg attrs).reading {}) n.toList
      ((settled name arg attrs).reading { content := n.toList.reverse ++ [] }) :=
    scans_chars settled_outside rfl hn.chars
  obtain ⟨c, cs, hlist⟩ := exists_cons_of_ne_nil hn.some
  have hc : isNameChar c = true := all_eq_true.mp hn.chars c (by simp [hlist])
  simp only [isNameChar, Bool.not_eq_true', Bool.or_eq_false_iff, beq_eq_false_iff_ne] at hc
  obtain ⟨⟨⟨⟨⟨⟨⟨hb, -⟩, -⟩, -⟩, -⟩, hg⟩, hs⟩, -⟩ := hc
  rw [append_nil, hlist] at hscan
  rw [hlist]
  exact scans_start settled_outside rfl rfl hb hs hg hscan

theorem attribute_named (hc : content.reverse = text.toList)
    (ht : text.toList = n.toList ++ '=' :: value) (hv : unquote value = v.toList) :
    Partial.attribute { content, equals := some n.toList.reverse.length } = ⟨n, some v, text⟩ := by
  have htake : text.toList.take n.toList.length = n.toList := by simp [ht]
  have hdrop : text.toList.drop (n.toList.length + 1) = value := by simp [ht]
  simp only [Partial.attribute, hc, length_reverse, htake, hdrop, hv, String.ofList_toList]

theorem unquote_quoted : unquote ('"' :: (v ++ ['"'])) = v := by
  simp [unquote]

theorem unquote_braced : unquote (braced e).toList = (braced e).toList := by
  have hlist : (braced e).toList = '\x7b' :: e.toList ++ ['\x7d'] := by simp [braced]
  have hlast : (braced e).toList.getLast? = some '\x7d' := by rw [hlist, getLast?_concat]
  have hhead : (braced e).toList.head? = some '\x7b' := by rw [hlist]; rfl
  simp [unquote, hhead, hlast]

theorem scans_code (hp : arg ≠ .pending) (he : Balanced e) (hs : p.split = false)
    (hattr : Partial.attribute { p with content := (braced e).toList.reverse ++ p.content } = a) :
    Scans ((settled name arg attrs).reading p) (braced e).toList
      (settled name arg (a :: attrs)) := by
  refine scans_braced settled_outside he ?_
  exact flush_reading hp hs hattr

theorem scans_attribute {a : Attribute} (ha : a.Written) (hp : arg ≠ .pending) :
    ∃ s, Scans (settled name arg attrs) a.content.toList s ∧
      Ready s (settled name arg (a :: attrs)) := by
  cases ha with
  | @bare n hn =>
    refine ⟨_, scans_bareName hn, ready_reading hp rfl ?_⟩
    simp [Partial.attribute]
  | @quoted n v hn hv =>
    have htext : (n ++ "=\"" ++ v ++ "\"").toList =
        n.toList ++ ['='] ++ '"' :: (v.toList ++ ['"']) := by simp
    have hscan := ((scans_bareName hn).append (scans_equals settled_outside rfl)).append
      (scans_quoted (@settled_outside name arg attrs) hv)
    refine ⟨_, htext ▸ hscan, ready_reading hp rfl ?_⟩
    exact attribute_named (by simp) (by simp) unquote_quoted
  | @code n e hn he =>
    have htext : (n ++ "=" ++ braced e).toList = n.toList ++ ['='] ++ (braced e).toList := by simp
    have hscan : Scans (settled name arg attrs) (n.toList ++ ['='] ++ (braced e).toList)
        (settled name arg (⟨n, some (braced e), n ++ "=" ++ braced e⟩ :: attrs)) := by
      refine ((scans_bareName hn).append (scans_equals settled_outside rfl)).append
        (scans_code hp he rfl ?_)
      exact attribute_named (by simp) (by simp) unquote_braced
    exact ⟨_, htext ▸ hscan, ready_settled⟩
  | @short e he =>
    have hscan : Scans ((settled name arg attrs).reading {}) (braced e).toList
        (settled name arg (⟨braced e, none, braced e⟩ :: attrs)) := by
      refine scans_code hp he rfl ?_
      simp [Partial.attribute]
    have hlist : (braced e).toList = '\x7b' :: (e.toList ++ ['\x7d']) := by simp [braced]
    refine ⟨_, ?_, ready_settled⟩
    rw [hlist] at hscan ⊢
    exact scans_start settled_outside rfl rfl rfl (by decide) (by decide) hscan

theorem scans_attributes (has : ∀ a ∈ as, a.Written) (hp : arg ≠ .pending)
    (hs : Ready s (settled name arg attrs)) : ∃ s', Scans s (attributesText as).toList s' ∧
      Ready s' (settled name arg (as.reverse ++ attrs)) := by
  induction as generalizing s attrs with
  | nil => exact ⟨s, .nil, hs⟩
  | cons a as ih =>
    obtain ⟨u, hu, hready⟩ := @scans_attribute name arg attrs a (has a mem_cons_self) hp
    obtain ⟨s', hs', hready'⟩ := ih (fun b hb => has b (.tail a hb)) hready
    have htext : (attributesText (a :: as)).toList =
        [' '] ++ a.content.toList ++ (attributesText as).toList := by
      simp [attributesText]
    rw [htext, reverse_cons, append_assoc as.reverse]
    exact ⟨s', (hs.blank.append hu).append hs', hready'⟩

/-! ## The whole tag -/

def argState : Option String → ArgState
  | some a => .given a
  | none => .absent

theorem scans_arg (ha : ∀ v, a = some v → WrittenArg v) :
    ∃ s, Scans { name } (argText a).toList s ∧ Ready s (settled name (argState a) []) := by
  cases a with
  | none => exact ⟨_, .nil, ⟨rfl, rfl, rfl⟩, fun _ => rfl, rfl⟩
  | some v =>
    have hcolon : Scans { name } [':'] ((settled name .pending []).reading {}) := by
      refine .one fun first pos => ?_
      rfl
    have htext : (argText (some v)).toList = [':'] ++ v.toList := by simp [argText]
    rw [htext]
    cases ha v rfl with
    | name hchars =>
      refine ⟨_, hcolon.append (scans_chars settled_outside rfl hchars), settled_outside.reading,
        by simp [reading, settled], ?_⟩
      simp [TagState.flush, reading, settled, argState]
    | code he =>
      refine ⟨_, hcolon.append (scans_braced settled_outside he ?_), ready_settled⟩
      simp [TagState.flush, reading, settled, argState]

end TagState

def Element.tag (e : Element) : OpenTag := ⟨e.name, e.arg, e.attributes, e.closed, e.void⟩

theorem readTag_tagText {e : Element} (h : e.Written) (start pos : Nat) (rest : List Char)
    (ht : '<' :: text = (e.tagText slash).toList) :
    readTag start {} pos (text ++ rest) = .ok (e.tag, rest) := by
  obtain ⟨s, hs, hready⟩ := @TagState.scans_arg e.name.toList.reverse e.arg h.arg
  obtain ⟨u, hu, hready⟩ := TagState.scans_attributes h.attributes
    (by cases e.arg <;> nofun) hready
  have hscan := ((TagState.scans_tagName h.name).append hs).append hu
  have htext : text = e.name.toList ++ (argText e.arg).toList ++
      (attributesText e.attributes).toList ++
        (if e.closed && (!e.void || slash e) then "/>" else ">").toList := by
    simpa [Element.tagText] using ht
  have hopened : ∀ b, (e.void || b) = e.closed →
      (TagState.settled e.name.toList.reverse (TagState.argState e.arg)
        (e.attributes.reverse ++ [])).opened b = e.tag := by
    intro b hb
    rw [Element.tag, ← hb, h.void]
    cases e.arg <;> simp [TagState.opened, TagState.settled, TagState.argState]
  rw [htext, append_assoc, hscan]
  -- a tag that is not closed by a slash is closed only if it is void
  have hvoid := h.closed
  by_cases hslash : (e.closed && (!e.void || slash e)) = true
  · rw [if_pos hslash]
    refine (hready.selfClose start rest).trans ?_
    rw [hopened true (by simp_all)]
  · rw [if_neg hslash]
    refine (hready.end start rest).trans ?_
    rw [hopened false (by cases hc : e.closed <;> cases hv : e.void <;> simp_all)]

end ReactiveMarkup.Markup
