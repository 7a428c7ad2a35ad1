import ReactiveMarkup.Text.Blank
import ReactiveMarkup.Text.Offset

/-! # Slices

A slice is what stands between two byte offsets: what comes before it takes up the bytes to the
first, and with the slice the bytes to the second.
-/

namespace ReactiveMarkup.Text

theorem byteLength_toList {s : String} : byteLength s.toList = s.utf8ByteSize := by
  have hlist : ∀ cs : List Char, (String.ofList cs).utf8ByteSize = byteLength cs := by
    intro cs
    induction cs with
    | nil => rfl
    | cons c cs ih =>
      have hcons : String.ofList (c :: cs) = String.singleton c ++ String.ofList cs := by
        rw [← List.singleton_append, String.ofList_append]
        rfl
      rw [hcons, String.utf8ByteSize_append, String.utf8ByteSize_singleton, ih]
      rfl
  rw [← hlist, String.ofList_toList]

theorem splitAt?_append : splitAt? (front ++ back) (byteLength front) = some (front, back) := by
  induction front with
  | nil => cases back <;> rfl
  | cons c cs ih =>
    have hpos := c.utf8Size_pos
    obtain ⟨n, hn⟩ : ∃ n, byteLength (c :: cs) = n + 1 :=
      ⟨byteLength (c :: cs) - 1, by simp only [byteLength_cons]; omega⟩
    have hrest : n + 1 - c.utf8Size = byteLength cs := by
      rw [← hn, byteLength_cons]
      omega
    have hle : c.utf8Size ≤ n + 1 := by
      rw [← hn, byteLength_cons]
      omega
    rw [hn, List.cons_append, splitAt?, if_pos hle, hrest, ih]
    rfl

theorem splitAt?_eq_some (h : splitAt? cs n = some (front, back)) :
    cs = front ++ back ∧ byteLength front = n := by
  induction cs generalizing n front with
  | nil =>
    cases n with
    | zero =>
      obtain ⟨rfl, rfl⟩ : [] = front ∧ [] = back := by simpa [splitAt?] using h
      exact ⟨rfl, rfl⟩
    | succ n => simp [splitAt?] at h
  | cons c cs ih =>
    cases n with
    | zero =>
      obtain ⟨rfl, rfl⟩ : [] = front ∧ c :: cs = back := by simpa [splitAt?] using h
      exact ⟨rfl, rfl⟩
    | succ n =>
      rw [splitAt?] at h
      split at h
      · next hle =>
        obtain ⟨⟨f, b⟩, hsplit, hp⟩ := Option.map_eq_some_iff.mp h
        cases hp
        obtain ⟨rfl, hlen⟩ := ih hsplit
        refine ⟨rfl, ?_⟩
        rw [byteLength_cons, hlen]
        omega
      · simp at h

theorem slice?_append (front middle back : List Char) :
    slice? (front ++ middle ++ back) (byteLength front) (byteLength (front ++ middle)) =
      some middle := by
  rw [slice?, splitAt?_append]
  simp [splitAt?_append]

theorem slice?_eq_some (h : slice? cs start stop = some middle) :
    ∃ front back, cs = front ++ middle ++ back ∧ byteLength front = start ∧
      start + byteLength middle = stop := by
  obtain ⟨⟨f, b⟩, hstop, h⟩ := Option.bind_eq_some_iff.mp h
  obtain ⟨⟨x, m⟩, hstart, hm⟩ := Option.bind_eq_some_iff.mp h
  obtain rfl : m = middle := by simpa using hm
  obtain ⟨rfl, rfl⟩ := splitAt?_eq_some hstop
  obtain ⟨rfl, rfl⟩ := splitAt?_eq_some hstart
  exact ⟨x, b, rfl, rfl, byteLength_append.symm⟩

/-! ## Blanks at the ends -/

theorem mem_dropWhile {cs : List Char} (hc : c ∈ cs) (hp : p c = false) : c ∈ cs.dropWhile p := by
  induction cs with
  | nil => simp at hc
  | cons d ds ih =>
    rw [List.dropWhile_cons]
    split
    · next hd =>
      have hne : c ≠ d := by
        rintro rfl
        simp [hp] at hd
      exact ih ((List.mem_cons.mp hc).resolve_left hne)
    · exact hc

theorem mem_trimChars (hc : c ∈ cs) (hb : isBlank c = false) : c ∈ trimChars cs := by
  rw [trimChars, trimEnd, List.mem_reverse]
  apply mem_dropWhile _ hb
  rw [List.mem_reverse]
  exact mem_dropWhile hc hb

end ReactiveMarkup.Text
