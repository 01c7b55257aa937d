import SdlGraph.Proofs.Token.Faults

/-!
# Skipping a string that cannot be read

A string that cannot be read is read a second time, without a look at its escapes: a backslash hides
the character after it, and the string ends at the first quote that is not hidden, or at the end of
its line. Where a string can be read, both readers end at the same quote, since escapes hold no
quotes but hidden ones. Where it breaks off, all before the place is read alike, so a bad escape
lies in what is skipped.
-/

namespace SdlGraph.QuotedString

/-- Whether the character behind a text is the second one of a backslash pair: a backslash that is
not itself the second one of a pair stands directly before it. -/
def hides (before : List Char) : Bool := before.foldl (fun hidden c => !hidden && c = '\\') false

/-- A string ends at a position if a quote that is not the second character of a backslash pair
stands there, or a line end. -/
def StopsAt (text : List Char) (i : Nat) : Prop :=
  ∃ c, text[i]? = some c ∧ (c = '"' ∧ hides (text.take i) = false ∨ isLineEnd c = true)

/-- The piece of a text that a string takes after its opening quote when it is skipped. -/
inductive Skipped (text : List Char) : List Char → Prop where
  /-- It ends right after the first position at which a string ends. -/
  | stop {i : Nat} (hstop : StopsAt text i) (hfirst : ∀ j < i, ¬StopsAt text j) :
      Skipped text (text.take (i + 1))
  /-- It is all of the text if there is no such position. -/
  | all (hnone : ∀ i, ¬StopsAt text i) : Skipped text text

variable {c d : Char} {text lead piece other rest body bad value : List Char} {offset : Nat}
  {fault : LexicalFault}

/-- Only one piece is skipped. -/
theorem Skipped.unique (h : Skipped text piece) (h' : Skipped text other) : piece = other := by
  cases h with
  | @stop i hstop hfirst =>
    cases h' with
    | @stop j hstop' hfirst' =>
      have hle : i ≤ j := Nat.le_of_not_lt fun hlt => hfirst j hlt hstop'
      have hge : j ≤ i := Nat.le_of_not_lt fun hlt => hfirst' i hlt hstop
      rw [Nat.le_antisymm hle hge]
    | all hnone => exact absurd hstop (hnone i)
  | all hnone =>
    cases h' with
    | @stop j hstop' _ => exact absurd hstop' (hnone j)
    | all => rfl

theorem stopsAt_zero_iff : StopsAt (c :: text) 0 ↔ c = '"' ∨ isLineEnd c = true := by
  simp [StopsAt, hides]

/-- Behind characters after which nothing is hidden, positions move on by their number. -/
theorem stopsAt_append_iff (hneutral : ∀ before, hides (lead ++ before) = hides before) (i : Nat) :
    StopsAt (lead ++ text) (lead.length + i) ↔ StopsAt text i := by
  have hget : (lead ++ text)[lead.length + i]? = text[i]? := by
    rw [List.getElem?_append_right (Nat.le_add_right _ _), Nat.add_sub_cancel_left]
  have htake : (lead ++ text).take (lead.length + i) = lead ++ text.take i :=
    List.take_length_add_append i
  rw [StopsAt, StopsAt, hget, htake, hneutral]

/-- Characters at which no string ends, and after which nothing is hidden, are skipped. -/
theorem Skipped.behind (hneutral : ∀ before, hides (lead ++ before) = hides before)
    (hnone : ∀ i < lead.length, ¬StopsAt (lead ++ text) i) (h : Skipped text piece) :
    Skipped (lead ++ text) (lead ++ piece) := by
  cases h with
  | @stop i hstop hfirst =>
    have htake : lead ++ text.take (i + 1) = (lead ++ text).take (lead.length + i + 1) := by
      rw [Nat.add_assoc]
      exact (List.take_length_add_append (i + 1)).symm
    rw [htake]
    refine .stop ((stopsAt_append_iff hneutral i).mpr hstop) fun j hj hstop' => ?_
    rcases Nat.lt_or_ge j lead.length with hlt | hge
    · exact hnone j hlt hstop'
    · obtain ⟨k, rfl⟩ := Nat.exists_eq_add_of_le hge
      exact hfirst k (by omega) ((stopsAt_append_iff hneutral k).mp hstop')
  | all hall =>
    refine .all fun j hstop' => ?_
    rcases Nat.lt_or_ge j lead.length with hlt | hge
    · exact hnone j hlt hstop'
    · obtain ⟨k, rfl⟩ := Nat.exists_eq_add_of_le hge
      exact hall k ((stopsAt_append_iff hneutral k).mp hstop')

/-- A string that ends at the first character takes this one. -/
theorem Skipped.first (hstop : c = '"' ∨ isLineEnd c = true) : Skipped (c :: text) [c] :=
  .stop (stopsAt_zero_iff.mpr hstop) fun j hj => absurd hj (Nat.not_lt_zero j)

/-- A character at which no string ends and that hides nothing is skipped. -/
theorem Skipped.plain (hstop : ¬(c = '"' ∨ isLineEnd c = true)) (hbackslash : c ≠ '\\')
    (h : Skipped text piece) : Skipped (c :: text) (c :: piece) := by
  have hneutral (before : List Char) : hides ([c] ++ before) = hides before := by
    simp [hides, hbackslash]
  have hnone : ∀ i < [c].length, ¬StopsAt ([c] ++ text) i := by
    intro i hi
    obtain rfl : i = 0 := Nat.lt_one_iff.mp hi
    exact fun h => hstop (stopsAt_zero_iff.mp h)
  exact h.behind hneutral hnone

/-- A backslash and the character it hides are skipped. -/
theorem Skipped.pair (hend : isLineEnd d = false) (h : Skipped text piece) :
    Skipped ('\\' :: d :: text) ('\\' :: d :: piece) := by
  have hneutral (before : List Char) : hides (['\\', d] ++ before) = hides before := by
    simp [hides]
  have hnone : ∀ i < ['\\', d].length, ¬StopsAt (['\\', d] ++ text) i := by
    rintro (_ | _ | i) hi
    · exact fun h => absurd (stopsAt_zero_iff.mp h) (by decide)
    · simp [StopsAt, hides, hend]
    · exact absurd hi (by simp)
  exact h.behind hneutral hnone

/-- A backslash does not hide the end of its line. -/
theorem Skipped.lineEnd (hend : isLineEnd d = true) : Skipped ('\\' :: d :: text) ['\\', d] := by
  have hstop : StopsAt ('\\' :: d :: text) 1 := ⟨d, rfl, .inr hend⟩
  refine .stop hstop fun j hj => ?_
  obtain rfl : j = 0 := Nat.lt_one_iff.mp hj
  exact fun h => absurd (stopsAt_zero_iff.mp h) (by decide)

/-- A string is skipped up to the first position at which it ends. -/
theorem exists_skipped (text : List Char) :
    ∃ piece, text = piece ++ skip text ∧ Skipped text piece := by
  fun_induction skip text with
  | case1 => exact ⟨[], rfl, .all fun i h => by simp [StopsAt] at h⟩
  | case2 c =>
    refine ⟨[c], rfl, ?_⟩
    by_cases hstop : c = '"' ∨ isLineEnd c = true
    · exact .first hstop
    · refine .all fun i h => ?_
      cases i with
      | zero => exact hstop (stopsAt_zero_iff.mp h)
      | succ i => simp [StopsAt] at h
  | case3 c d rest hstop => exact ⟨[c], rfl, .first hstop⟩
  | case4 c d rest hstop hpair ih =>
    obtain ⟨rfl, hend⟩ := hpair
    obtain ⟨piece, hrest, hpiece⟩ := ih
    exact ⟨'\\' :: d :: piece, congrArg (['\\', d] ++ ·) hrest, hpiece.pair hend⟩
  | case5 c d rest hstop hpair ih =>
    by_cases hbackslash : c = '\\'
    · have hend : isLineEnd d = true := by simpa [hbackslash] using hpair
      subst hbackslash
      rw [skip_stop (.inr hend)]
      exact ⟨['\\', d], rfl, .lineEnd hend⟩
    · obtain ⟨piece, hrest, hpiece⟩ := ih
      exact ⟨c :: piece, congrArg (c :: ·) hrest, hpiece.plain hstop hbackslash⟩

/-- What is skipped and what remains make up the text. -/
theorem Skipped.append_skip (h : Skipped text piece) : text = piece ++ skip text := by
  obtain ⟨other, htext, hother⟩ := exists_skipped text
  rwa [h.unique hother]

/-- Digits are skipped one by one. -/
theorem Skipped.hexDigits {digits : List Char} (hdigits : ∀ c ∈ digits, Text.isHexDigit c = true)
    (h : Skipped text piece) : Skipped (digits ++ text) (digits ++ piece) := by
  induction digits with
  | nil => exact h
  | cons c digits ih =>
    obtain ⟨hc, hrest⟩ := List.forall_mem_cons.mp hdigits
    have hquote : c ≠ '"' := by rintro rfl; exact absurd hc (by decide)
    have hbackslash : c ≠ '\\' := by rintro rfl; exact absurd hc (by decide)
    have hend : isLineEnd c = false := isLineEnd_of_visible (isVisible_of_isHexDigit hc)
    exact (ih hrest).plain (by simp [hquote, hend]) hbackslash

/-- An escape is skipped as a whole. -/
theorem Skipped.escape {name : List Char} (hname : Escape.Names name c) (h : Skipped text piece) :
    Skipped ('\\' :: (name ++ text)) ('\\' :: (name ++ piece)) := by
  cases hname with
  | letter hletter =>
    have hvisible := (Escape.Names.letter hletter).visible
    exact h.pair (isLineEnd_of_visible (hvisible _ List.mem_cons_self))
  | fixed _ hdigits _ => exact (h.hexDigits hdigits).pair rfl
  | pair _ _ hdigits _ _ _ =>
    obtain ⟨hleading, htrailing⟩ := List.forall_mem_append.mp hdigits
    have hsecond := (h.hexDigits htrailing).pair (d := 'u') rfl
    simpa using (hsecond.hexDigits hleading).pair (d := 'u') rfl
  | braced _ hdigits _ =>
    have hclosed := h.plain (c := '\x7d') (by decide) (by decide)
    have hopened := (hclosed.hexDigits hdigits).plain (c := '\x7b') (by decide) (by decide)
    simpa using hopened.pair (d := 'u') rfl

/-- What a string holds is skipped as a whole. -/
theorem Skipped.of_body (hbody : Body body value) (h : Skipped text piece) :
    Skipped (body ++ text) (body ++ piece) := by
  induction hbody with
  | nil => exact h
  | plain hquote hbackslash hline _ ih =>
    have hend := isLineEnd_eq_false_iff.mpr hline
    exact ih.plain (by simp [hquote, hend]) hbackslash
  | escape hname _ ih => simpa using ih.escape hname

/-- A string that can be read is skipped up to the quote that closes it. -/
theorem skip_body (hbody : Body body value) (rest : List Char) :
    skip (body ++ '"' :: rest) = rest := by
  have hquote : Skipped ('"' :: rest) ['"'] := .first (.inl rfl)
  have htext := (hquote.of_body hbody).append_skip
  rw [List.append_assoc, List.append_cancel_left_eq] at htext
  exact (List.cons.inj htext).2.symm

/-- Something is skipped of a text that is not empty. -/
theorem Skipped.ne_nil (h : Skipped (c :: text) piece) : piece ≠ [] := by
  cases h with
  | stop => exact List.cons_ne_nil _ _
  | all => exact List.cons_ne_nil _ _

/-- Where a string goes wrong after what it may hold, this lies in what is skipped, and so does the
character there. -/
theorem Skipped.exists_more (hbody : Body body value) (h : Skipped (body ++ c :: text) piece) :
    ∃ more, piece = body ++ c :: more := by
  obtain ⟨other, htext, hother⟩ := exists_skipped (c :: text)
  obtain ⟨d, more, rfl⟩ := List.exists_cons_of_ne_nil hother.ne_nil
  obtain ⟨rfl, -⟩ := List.cons.inj htext
  exact ⟨more, h.unique (hother.of_body hbody)⟩

/-- The bytes of an escape are counted by what reading it leaves. -/
theorem utf8Length_escape {name : List Char} (hname : Escape.Names name c) (body rest : List Char) :
    utf8Length ('\\' :: (name ++ body)) =
      1 + ((name ++ rest).length - rest.length) + utf8Length body := by
  rw [utf8Length, utf8Length_append, utf8Length_of_visible hname.visible, List.length_append,
    Nat.add_sub_cancel, ← Nat.add_assoc]
  rfl

/-- Behind what a string may hold, reading goes on by what this has taken. -/
theorem read_append (hbody : Body body value) (offset : Nat) (rest : List Char) :
    read offset (body ++ rest) =
      (read (offset + utf8Length body) rest).map (Prod.map (value ++ ·) id) := by
  induction hbody generalizing offset with
  | nil =>
    rw [List.nil_append, utf8Length, Nat.add_zero]
    cases read offset rest <;> rfl
  | @plain c body value hquote hbackslash hline _ ih =>
    have hend : ¬isLineEnd c = true := by simpa using isLineEnd_eq_false_iff.mpr hline
    rw [List.cons_append, read, if_neg hquote, if_neg hend, if_neg hbackslash, ih, utf8Length,
      Nat.add_assoc]
    cases read (offset + (c.utf8Size + utf8Length body)) rest <;> rfl
  | @escape name body value c hname _ ih =>
    have hread : Escape.read (name ++ (body ++ rest)) = .char c (body ++ rest) :=
      Escape.read_complete hname
    have hlength := utf8Length_escape hname body (body ++ rest)
    rw [List.cons_append, List.append_assoc, read, if_neg (by decide), if_neg (by decide),
      if_pos rfl]
    split
    next d after hd =>
      rw [hread] at hd
      cases hd
      rw [ih, hlength, ← Nat.add_assoc, ← Nat.add_assoc]
      cases read _ rest <;> rfl
    next hd => rw [hread] at hd; cases hd
    next hd => rw [hread] at hd; cases hd

/-- Why a string breaks off, some bytes after the start of its token. -/
inductive Breaks (offset : Nat) : List Char → LexicalFault → Prop where
  /-- The text ends. -/
  | text : Breaks offset [] (.unterminatedString offset)
  /-- The line ends. -/
  | line {c : Char} {rest : List Char} (hend : isLineEnd c = true) :
      Breaks offset (c :: rest) (.unterminatedString offset)
  /-- No escape starts with what follows a backslash. -/
  | unknown {bad : List Char} (hread : Escape.read bad = .unknown) :
      Breaks offset ('\\' :: bad) (.invalidEscape offset)
  /-- A unicode escape goes wrong. -/
  | malformed {bad : List Char} {length : Nat} (hread : Escape.read bad = .malformed length) :
      Breaks offset ('\\' :: bad) (.invalidUnicodeEscape offset length)

/-- A string that cannot be read breaks off after something that it may hold. -/
theorem exists_breaks_of_read (h : read offset text = .error fault) :
    ∃ body value bad, text = body ++ bad ∧ Body body value ∧
      Breaks (offset + utf8Length body) bad fault := by
  fun_induction read offset text with
  | case1 => exact Except.error.inj h ▸ ⟨[], [], [], rfl, .nil, .text⟩
  | case2 => cases h
  | case3 offset c rest _ hend =>
    exact Except.error.inj h ▸ ⟨[], [], c :: rest, rfl, .nil, .line hend⟩
  | case4 offset rest value after he _ _ _ ih =>
    obtain ⟨body, text, bad, rfl, hbody, hbreaks⟩ := ih (eq_error_of_map h)
    obtain ⟨name, rfl, hname⟩ := Escape.read_eq_char_iff.mp he
    refine ⟨'\\' :: (name ++ body), value :: text, bad, by simp, .escape hname hbody, ?_⟩
    rwa [utf8Length_escape hname body (body ++ bad), ← Nat.add_assoc, ← Nat.add_assoc]
  | case5 offset rest he =>
    exact Except.error.inj h ▸ ⟨[], [], '\\' :: rest, rfl, .nil, .unknown he⟩
  | case6 offset rest length he =>
    exact Except.error.inj h ▸ ⟨[], [], '\\' :: rest, rfl, .nil, .malformed he⟩
  | case7 offset c rest hquote hline hbackslash ih =>
    obtain ⟨body, text, bad, rfl, hbody, hbreaks⟩ := ih (eq_error_of_map h)
    have hplain : c ≠ '\n' ∧ c ≠ '\r' := isLineEnd_eq_false_iff.mp (by simpa using hline)
    refine ⟨c :: body, c :: text, bad, rfl, .plain hquote hbackslash hplain hbody, ?_⟩
    rwa [utf8Length, ← Nat.add_assoc]

end SdlGraph.QuotedString
