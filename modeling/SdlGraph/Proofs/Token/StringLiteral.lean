import SdlGraph.Proofs.Token.Lexeme

/-!
# Reading strings

Reading an escape, a quoted string or a block string takes exactly a piece of the right shape. An
escape ends by itself and a quoted string at the first quote outside its escapes, so what follows
does not matter. For a block string the reader goes from character to character, and the position of
the closing quotes moves with it.
-/

namespace SdlGraph

open Text

theorem Text.scalar?_eq_some_iff {n : Nat} {c : Char} : scalar? n = some c ↔ c.toNat = n := by
  rw [scalar?, Option.ite_none_right_eq_some, Option.some.injEq]
  constructor
  · rintro ⟨hn, rfl⟩
    rw [Char.ofNat, dif_pos hn]
    rfl
  · rintro rfl
    exact ⟨c.valid, Char.ofNat_toNat c⟩

namespace Escape

variable {text piece rest : List Char} {value : Char}

/-- Four hexadecimal digits are read as they stand. -/
theorem fourDigits?_eq_some_iff {n : Nat} : fourDigits? text = some (n, rest) ↔
    ∃ digits, digits.length = 4 ∧ (∀ c ∈ digits, isHexDigit c = true) ∧
      text = digits ++ rest ∧ hexNumber digits = n := by
  constructor
  · intro h
    unfold fourDigits? at h
    split at h
    next a b c d after =>
      simp only [Option.ite_none_right_eq_some, Option.some.injEq, Prod.mk.injEq,
        List.all_eq_true] at h
      obtain ⟨hdigits, rfl, rfl⟩ := h
      exact ⟨[a, b, c, d], rfl, hdigits, rfl, rfl⟩
    · cases h
  · rintro ⟨digits, hlength, hdigits, rfl, rfl⟩
    obtain ⟨a, b, c, d, rfl⟩ := List.length_eq_four.mp hlength
    exact if_pos (List.all_eq_true.mpr hdigits)

/-- Digits in braces are read up to the brace that closes them. -/
theorem braced?_eq_some_iff : braced? text = some (value, rest) ↔
    ∃ digits, (1 ≤ digits.length ∧ digits.length ≤ 6) ∧ (∀ c ∈ digits, isHexDigit c = true) ∧
      value.toNat = hexNumber digits ∧ text = '\x7b' :: (digits ++ '\x7d' :: rest) := by
  constructor
  · intro h
    unfold braced? at h
    split at h
    next c tail =>
      simp only at h
      split at h
      next after hafter =>
        simp only [Option.ite_none_right_eq_some, Option.map_eq_some_iff, Prod.mk.injEq] at h
        obtain ⟨hlength, c, hc, rfl, rfl⟩ := h
        obtain ⟨ht, hdigits, -⟩ := takeWhile_dropWhile_iff.mp ⟨rfl, hafter⟩
        refine ⟨_, hlength, hdigits, scalar?_eq_some_iff.mp hc, ?_⟩
        rw [← ht]
      · cases h
    · cases h
  · rintro ⟨digits, hlength, hdigits, hvalue, rfl⟩
    have hbrace : StartsOutside isHexDigit ('\x7d' :: rest) := by
      simp [StartsOutside, isHexDigit, hexDigit?]
    obtain ⟨htake, hdrop⟩ := takeWhile_dropWhile_iff.mpr ⟨rfl, hdigits, hbrace⟩
    simp [braced?, htake, hdrop, hlength, scalar?_eq_some_iff.mpr hvalue]

/-- The number of a character is not that of a surrogate. -/
theorem isLeading_toNat (value : Char) : isLeading value.toNat = false := by
  have hvalid : value.toNat < 0xD800 ∨ 0xDFFF < value.toNat ∧ value.toNat < 0x110000 := value.valid
  simp only [isLeading, Bool.and_eq_false_iff, decide_eq_false_iff_not]
  omega

theorem readFixed_sound (h : readFixed text = .char value rest) :
    ∃ piece, text = piece ++ rest ∧ Names ('u' :: piece) value := by
  unfold readFixed at h
  split at h
  · cases h
  next leading after hl =>
    obtain ⟨first, hfirst, hdigits, rfl, rfl⟩ := fourDigits?_eq_some_iff.mp hl
    split at h
    next hlead =>
      split at h
      next second =>
        split at h
        · cases h
        next trailing last ht =>
          obtain ⟨group, hgroup, hdigits', rfl, rfl⟩ := fourDigits?_eq_some_iff.mp ht
          split at h
          next htrail hvalue =>
            cases h
            refine ⟨first ++ '\\' :: 'u' :: group, by simp, ?_⟩
            refine .pair hfirst hgroup ?_ (by simpa [isLeading] using hlead)
              (by simpa [isTrailing] using htrail) (scalar?_eq_some_iff.mp hvalue)
            exact fun c hc => (List.mem_append.mp hc).elim (hdigits c) (hdigits' c)
          · cases h
      · cases h
    · split at h
      next hvalue =>
        cases h
        exact ⟨first, rfl, .fixed hfirst hdigits (scalar?_eq_some_iff.mp hvalue)⟩
      · cases h

/-- A character after a backslash that names a character by itself. -/
theorem simple?_eq_some_iff {c : Char} : simple? c = some value ↔ (c, value) ∈ letters := by
  constructor
  · intro h
    unfold simple? at h
    split at h <;> cases h <;> decide
  · intro h
    simp only [letters, List.mem_cons, Prod.mk.injEq, List.not_mem_nil, or_false] at h
    rcases h with ⟨rfl, rfl⟩ | ⟨rfl, rfl⟩ | ⟨rfl, rfl⟩ | ⟨rfl, rfl⟩ | ⟨rfl, rfl⟩ | ⟨rfl, rfl⟩ |
      ⟨rfl, rfl⟩ | ⟨rfl, rfl⟩ <;> rfl

theorem read_sound (h : read text = .char value rest) :
    ∃ piece, text = piece ++ rest ∧ Names piece value := by
  cases text with
  | nil => cases h
  | cons c tail =>
    rw [read] at h
    split at h
    next hc =>
      subst hc
      split at h
      next hbraced =>
        cases h
        obtain ⟨digits, hlength, hdigits, hvalue, rfl⟩ := braced?_eq_some_iff.mp hbraced
        exact ⟨_, by simp, .braced hlength hdigits hvalue⟩
      · obtain ⟨piece, rfl, hpiece⟩ := readFixed_sound h
        exact ⟨'u' :: piece, rfl, hpiece⟩
    · split at h
      next hsimple =>
        cases h
        exact ⟨[c], rfl, .letter (simple?_eq_some_iff.mp hsimple)⟩
      · cases h

/-- Digits without braces are not read as digits in braces. -/
theorem braced?_eq_none (hne : piece ≠ []) (h : ∀ c ∈ piece, isHexDigit c = true) :
    braced? (piece ++ rest) = none := by
  rw [Option.eq_none_iff_forall_ne_some]
  rintro ⟨value, after⟩ hb
  obtain ⟨digits, -, -, -, ht⟩ := braced?_eq_some_iff.mp hb
  obtain ⟨c, more, rfl⟩ := List.exists_cons_of_ne_nil hne
  obtain ⟨rfl, -⟩ := List.cons.inj ht
  exact absurd (h _ List.mem_cons_self) (by decide)

theorem read_complete (h : Names piece value) : read (piece ++ rest) = .char value rest := by
  cases h with
  | @letter c _ h =>
    have hsimple := simple?_eq_some_iff.mpr h
    have hc : c ≠ 'u' := by
      rintro rfl
      cases hsimple
    simp [read, hc, hsimple]
  | @fixed digits _ hlength hdigits hvalue =>
    have hne : digits ≠ [] := List.ne_nil_of_length_pos (by omega)
    have hfour : fourDigits? (digits ++ rest) = some (value.toNat, rest) :=
      fourDigits?_eq_some_iff.mpr ⟨digits, hlength, hdigits, rfl, hvalue.symm⟩
    have hscalar : scalar? value.toNat = some value := scalar?_eq_some_iff.mpr rfl
    simp [read, braced?_eq_none hne hdigits, readFixed, hfour, isLeading_toNat, hscalar]
  | @pair leading trailing _ hleading htrailing hdigits hfirst hsecond hvalue =>
    have hne : leading ≠ [] := List.ne_nil_of_length_pos (by omega)
    have hlead : ∀ c ∈ leading, isHexDigit c = true :=
      fun c hc => hdigits c (List.mem_append_left _ hc)
    have htrail : ∀ c ∈ trailing, isHexDigit c = true :=
      fun c hc => hdigits c (List.mem_append_right _ hc)
    have hfour : fourDigits? (leading ++ '\\' :: 'u' :: (trailing ++ rest)) =
        some (hexNumber leading, '\\' :: 'u' :: (trailing ++ rest)) :=
      fourDigits?_eq_some_iff.mpr ⟨leading, hleading, hlead, rfl, rfl⟩
    have hfour' : fourDigits? (trailing ++ rest) = some (hexNumber trailing, rest) :=
      fourDigits?_eq_some_iff.mpr ⟨trailing, htrailing, htrail, rfl, rfl⟩
    have hscalar : scalar? (joinSurrogates (hexNumber leading) (hexNumber trailing)) =
        some value := scalar?_eq_some_iff.mpr hvalue
    have hisLeading : isLeading (hexNumber leading) = true := by simpa [isLeading] using hfirst
    have hisTrailing : isTrailing (hexNumber trailing) = true := by
      simpa [isTrailing] using hsecond
    simp [read, braced?_eq_none hne hlead, readFixed, hfour, hfour', hisLeading, hisTrailing,
      hscalar]
  | @braced digits _ hlength hdigits hvalue =>
    have hbraced : braced? ('\x7b' :: (digits ++ '\x7d' :: rest)) = some (value, rest) :=
      braced?_eq_some_iff.mpr ⟨digits, hlength, hdigits, hvalue, rfl⟩
    simp [read, hbraced]

/-- The escapes at the start of a text. -/
theorem read_eq_char_iff : read text = .char value rest ↔
    ∃ piece, text = piece ++ rest ∧ Names piece value := by
  constructor
  · exact read_sound
  · rintro ⟨piece, rfl, h⟩
    exact read_complete h

end Escape

namespace QuotedString

variable {offset : Nat} {text body value rest : List Char}

theorem isLineEnd_eq_false_iff {c : Char} : isLineEnd c = false ↔ c ≠ '\n' ∧ c ≠ '\r' := by
  simp [isLineEnd]

theorem read_sound (h : read offset text = .ok (value, rest)) :
    ∃ body, text = body ++ '"' :: rest ∧ Body body value := by
  fun_induction read offset text generalizing value rest with
  | case1 => cases h
  | case2 =>
    cases h
    exact ⟨[], rfl, .nil⟩
  | case3 => cases h
  | case4 offset tail c after he _ _ _ ih =>
    cases hr : read (offset + 1 + (tail.length - after.length)) after with
    | error fault => simp [hr, Except.map] at h
    | ok answer =>
      simp only [hr, Except.map, Except.ok.injEq, Prod.mk.injEq] at h
      obtain ⟨rfl, rfl⟩ := h
      obtain ⟨body, rfl, hbody⟩ := ih hr
      obtain ⟨piece, rfl, hpiece⟩ := Escape.read_eq_char_iff.mp he
      exact ⟨_, by simp, .escape hpiece hbody⟩
  | case5 => cases h
  | case6 => cases h
  | case7 offset c tail hquote hline hbackslash ih =>
    cases hr : read (offset + c.utf8Size) tail with
    | error fault => simp [hr, Except.map] at h
    | ok answer =>
      simp only [hr, Except.map, Except.ok.injEq, Prod.mk.injEq] at h
      obtain ⟨rfl, rfl⟩ := h
      obtain ⟨body, rfl, hbody⟩ := ih hr
      have hplain : c ≠ '\n' ∧ c ≠ '\r' := isLineEnd_eq_false_iff.mp (by simpa using hline)
      exact ⟨c :: body, rfl, .plain hquote hbackslash hplain hbody⟩

theorem read_complete (h : Body body value) :
    read offset (body ++ '"' :: rest) = .ok (value, rest) := by
  induction h generalizing offset with
  | nil =>
    rw [List.nil_append, read, if_pos rfl]
  | @plain c body value hquote hbackslash hline hbody ih =>
    have hend : ¬isLineEnd c = true := by simpa using isLineEnd_eq_false_iff.mpr hline
    rw [List.cons_append, read, if_neg hquote, if_neg hend, if_neg hbackslash, ih]
    rfl
  | @escape piece body value c hpiece hbody ih =>
    have he : Escape.read (piece ++ (body ++ '"' :: rest)) = .char c (body ++ '"' :: rest) :=
      Escape.read_complete hpiece
    rw [List.cons_append, List.append_assoc, read, if_neg (by decide), if_neg (by decide),
      if_pos rfl]
    split
    next c' after he' =>
      rw [he] at he'
      cases he'
      rw [ih]
      rfl
    next he' => rw [he] at he'; cases he'
    next he' => rw [he] at he'; cases he'

/-- A quoted string is read up to the quote that closes it, whatever the offset of its start. -/
theorem read_eq_ok_iff : read offset text = .ok (value, rest) ↔
    ∃ body, text = body ++ '"' :: rest ∧ Body body value := by
  constructor
  · exact read_sound
  · rintro ⟨body, rfl, h⟩
    exact read_complete h

end QuotedString

namespace BlockString

variable {text raw rest : List Char} {i n : Nat}

theorem closesAt_zero_iff : ClosesAt text 0 ↔ quotes <+: text := by
  simp [ClosesAt]

/-- Behind a backslash that does not hide three quotes, positions move on by one. -/
theorem closesAt_succ_iff {c : Char} (h : ¬ '\\' :: quotes <+: c :: text) :
    ClosesAt (c :: text) (i + 1) ↔ ClosesAt text i := by
  constructor
  · rintro ⟨hquotes, hescape⟩
    exact ⟨hquotes, fun j hj hle => hescape (j + 1) (by omega) (by omega)⟩
  · rintro ⟨hquotes, hescape⟩
    refine ⟨hquotes, ?_⟩
    intro j hj hle
    cases j with
    | zero => exact h
    | succ j => exact hescape j (by omega) (by omega)

/-- Nothing closes a string within three quotes after a backslash. -/
theorem not_closesAt_escape (hi : i < 4) : ¬ClosesAt ('\\' :: (quotes ++ text)) i := by
  rintro ⟨hquotes, hescape⟩
  cases i with
  | zero => simp [quotes] at hquotes
  | succ i => exact hescape 0 (by omega) (by omega) (List.prefix_append ('\\' :: quotes) text)

/-- Behind them positions move on by four. -/
theorem closesAt_escape_iff : ClosesAt ('\\' :: (quotes ++ text)) (i + 4) ↔ ClosesAt text i := by
  constructor
  · rintro ⟨hquotes, hescape⟩
    exact ⟨hquotes, fun j hj hle => hescape (j + 4) (by omega) (by omega)⟩
  · rintro ⟨hquotes, hescape⟩
    refine ⟨hquotes, ?_⟩
    intro j hj hle
    -- An escape that overlaps the quotes starts behind this backslash, and not at a quote.
    match j with
    | 0 => omega
    | 1 | 2 | 3 => simp [quotes]
    | j + 4 => exact hescape j (by omega) (by omega)

/-- Where all positions move on by some number, so does the first one that closes. -/
theorem firstClosesAt_iff_of_shift {moved : List Char} {k : Nat}
    (hnone : ∀ i < k, ¬ClosesAt moved i) (hshift : ∀ i, ClosesAt moved (i + k) ↔ ClosesAt text i) :
    FirstClosesAt moved n ↔ ∃ i, n = i + k ∧ FirstClosesAt text i := by
  constructor
  · rintro ⟨hcloses, hfirst⟩
    obtain ⟨i, rfl⟩ : ∃ i, n = i + k :=
      ⟨n - k, by have := not_lt.mp fun hlt => hnone n hlt hcloses; omega⟩
    refine ⟨i, rfl, (hshift i).mp hcloses, ?_⟩
    exact fun j hj hc => hfirst (j + k) (by omega) ((hshift j).mpr hc)
  · rintro ⟨i, rfl, hcloses, hfirst⟩
    refine ⟨(hshift i).mpr hcloses, ?_⟩
    intro j hj hc
    obtain ⟨m, rfl⟩ : ∃ m, j = m + k :=
      ⟨j - k, by have := not_lt.mp fun hlt => hnone j hlt hc; omega⟩
    exact hfirst m (by omega) ((hshift m).mp hc)

/-- A text that starts with the closing quotes closes there. -/
theorem firstClosesAt_quotes_iff : FirstClosesAt (quotes ++ text) n ↔ n = 0 := by
  have hzero : ClosesAt (quotes ++ text) 0 := closesAt_zero_iff.mpr (List.prefix_append ..)
  constructor
  · intro h
    by_contra hne
    exact h.2 0 (by omega) hzero
  · rintro rfl
    exact ⟨hzero, by simp⟩

theorem unescape_cons {c : Char} (h : ¬ '\\' :: quotes <+: c :: text) :
    unescape (c :: text) = c :: unescape text := by
  rw [unescape]
  rintro rest rfl rfl
  exact h (List.prefix_append ('\\' :: quotes) rest)

/-- A block string is read up to the first position at which it closes. -/
theorem readRaw?_eq_some_iff : readRaw? text = some (raw, rest) ↔
    ∃ n, FirstClosesAt text n ∧ unescape (text.take n) = raw ∧ text.drop (n + 3) = rest := by
  fun_induction readRaw? text generalizing raw rest with
  | case1 after =>
    have hquotes : '"' :: '"' :: '"' :: after = quotes ++ after := rfl
    rw [hquotes]
    simp only [firstClosesAt_quotes_iff, exists_eq_left, Option.some.injEq, Prod.mk.injEq]
    rfl
  | case2 after ih =>
    have hescape : '\\' :: '"' :: '"' :: '"' :: after = '\\' :: (quotes ++ after) := rfl
    rw [hescape]
    simp only [firstClosesAt_iff_of_shift (fun i => not_closesAt_escape)
      (fun i => closesAt_escape_iff), Option.map_eq_some_iff, Prod.exists, Prod.mk.injEq, ih]
    constructor
    · rintro ⟨_, _, ⟨n, hn, rfl, rfl⟩, rfl, rfl⟩
      exact ⟨n + 4, ⟨n, rfl, hn⟩, rfl, rfl⟩
    · rintro ⟨_, ⟨n, rfl, hn⟩, rfl, rfl⟩
      exact ⟨_, _, ⟨n, hn, rfl, rfl⟩, rfl, rfl⟩
  | case3 c after hquotes hescape ih =>
    -- The first character opens neither quotes nor an escape, in the text or in a part cut from it.
    have hnone : ¬ '\\' :: quotes <+: c :: after := by
      rintro ⟨rest, he⟩
      cases he
      exact hescape rest rfl rfl
    have hzero : ∀ i < 1, ¬ClosesAt (c :: after) i := by
      intro i hi
      obtain rfl : i = 0 := by omega
      rw [closesAt_zero_iff]
      rintro ⟨rest, he⟩
      cases he
      exact hquotes rest rfl rfl
    simp only [firstClosesAt_iff_of_shift hzero (fun i => closesAt_succ_iff hnone),
      Option.map_eq_some_iff, Prod.exists, Prod.mk.injEq, ih]
    have htake (n : Nat) : ¬ '\\' :: quotes <+: c :: after.take n :=
      fun h => hnone (h.trans ((List.prefix_cons_inj c).mpr (List.take_prefix n after)))
    constructor
    · rintro ⟨_, _, ⟨n, hn, rfl, rfl⟩, rfl, rfl⟩
      exact ⟨n + 1, ⟨n, rfl, hn⟩, unescape_cons (htake n), rfl⟩
    · rintro ⟨_, ⟨n, rfl, hn⟩, rfl, rfl⟩
      exact ⟨_, _, ⟨n, hn, rfl, rfl⟩, (unescape_cons (htake n)).symm, rfl⟩
  | case4 =>
    constructor
    · intro h
      cases h
    · rintro ⟨n, ⟨⟨hquotes, -⟩, -⟩, -⟩
      simp [quotes] at hquotes

/-- A block string is read up to the first quotes that close it. -/
theorem readRaw?_iff : readRaw? text = some (raw, rest) ↔
    ∃ body, text = body ++ quotes ++ rest ∧ FirstClosesAt text body.length ∧
      unescape body = raw := by
  rw [readRaw?_eq_some_iff]
  constructor
  · rintro ⟨n, hn, rfl, rfl⟩
    obtain ⟨last, hlast⟩ := hn.1.1
    have hdrop : text.drop (n + 3) = last := by
      rw [← List.drop_drop, ← hlast]
      rfl
    have hlength : (text.take n).length = n := by
      have hle : n ≤ text.length := by
        by_contra hgt
        rw [List.drop_eq_nil_of_le (by omega)] at hlast
        cases hlast
      exact List.length_take_of_le hle
    refine ⟨text.take n, ?_, by rwa [hlength], rfl⟩
    rw [hdrop, List.append_assoc, hlast, List.take_append_drop]
  · rintro ⟨body, ht, hn, rfl⟩
    refine ⟨body.length, hn, by rw [ht]; simp, ?_⟩
    rw [ht, ← List.drop_drop]
    simp [quotes]

end BlockString

end SdlGraph
