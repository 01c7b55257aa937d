import SdlGraph.Proofs.Token.Lexeme

/-!
# Reading numbers

Each reader of a part of a number takes a piece of the language of that part. Conversely it takes
the whole of such a piece where no digit follows it: only then is the piece as long as it can be. A
number that nothing continues is therefore read whole, and it is the only one that is.
-/

namespace SdlGraph

namespace Numeral

open Number

variable {text piece rest : List Char}

/-- A character of one class before any number of another. -/
theorem mem_one_mul_run {p q : Char → Bool} : piece ∈ one p * run q ↔
    ∃ c more, p c = true ∧ (∀ d ∈ more, q d = true) ∧ piece = c :: more := by
  rw [Language.mem_mul]
  constructor
  · rintro ⟨_, ⟨c, hc, rfl⟩, more, hmore, rfl⟩
    exact ⟨c, more, hc, hmore, rfl⟩
  · rintro ⟨c, more, hc, hmore, rfl⟩
    exact ⟨[c], ⟨c, hc, rfl⟩, more, hmore, rfl⟩

/-- Digits are taken together with all digits that follow. -/
theorem afterDigits?_eq_some_iff : afterDigits? text = some rest ↔
    ∃ piece ∈ digits, text = piece ++ rest ∧ StartsOutside isDigit rest := by
  simp only [digits, mem_one_mul_run]
  cases text with
  | nil => simp [afterDigits?]
  | cons c tail =>
    simp only [afterDigits?, Option.ite_none_right_eq_some, Option.some.injEq]
    constructor
    · rintro ⟨hc, hrest⟩
      obtain ⟨ht, hmore, houtside⟩ := takeWhile_dropWhile_iff.mp ⟨rfl, hrest⟩
      exact ⟨_, ⟨c, _, hc, hmore, rfl⟩, by rw [List.cons_append, ← ht], houtside⟩
    · rintro ⟨_, ⟨d, more, hd, hmore, rfl⟩, ht, houtside⟩
      obtain ⟨rfl, rfl⟩ := List.cons.inj ht
      exact ⟨hd, (takeWhile_dropWhile_iff.mpr ⟨rfl, hmore, houtside⟩).2⟩

/-- A digit other than zero is one from one to nine. -/
theorem isDigit_and_ne_zero_iff {c : Char} :
    isDigit c = true ∧ c ≠ '0' ↔ ('1' ≤ c && c ≤ '9') = true := by
  simp only [isDigit, Bool.and_eq_true, decide_eq_true_eq, Char.le_def, UInt32.le_iff_toNat_le,
    ne_eq, Char.ext_iff, ← UInt32.toNat_inj]
  simp only [show ('0' : Char).val.toNat = 48 from rfl, show ('1' : Char).val.toNat = 49 from rfl,
    show ('9' : Char).val.toNat = 57 from rfl]
  omega

theorem afterInteger?_sound (h : afterInteger? text = some rest) :
    ∃ piece ∈ unsigned, text = piece ++ rest := by
  cases text with
  | nil => simp [afterInteger?] at h
  | cons c tail =>
    simp only [afterInteger?] at h
    split at h
    next hc =>
      subst hc
      exact ⟨['0'], .inl rfl, by rw [Option.some.inj h]; rfl⟩
    next hc =>
      obtain ⟨piece, hpiece, ht, -⟩ := afterDigits?_eq_some_iff.mp h
      obtain ⟨d, more, hd, hmore, rfl⟩ := mem_one_mul_run.mp hpiece
      obtain ⟨rfl, -⟩ := List.cons.inj ht
      refine ⟨_, .inr (mem_one_mul_run.mpr ⟨c, more, ?_, hmore, rfl⟩), ht⟩
      exact isDigit_and_ne_zero_iff.mp ⟨hd, hc⟩

theorem afterInteger?_complete (h : piece ∈ unsigned) (hrest : StartsOutside isDigit rest) :
    afterInteger? (piece ++ rest) = some rest := by
  rcases h with rfl | h
  · rfl
  · obtain ⟨c, more, hc, hmore, rfl⟩ := mem_one_mul_run.mp h
    obtain ⟨hdigit, hne⟩ := isDigit_and_ne_zero_iff.mpr hc
    rw [List.cons_append, afterInteger?, if_neg hne]
    exact afterDigits?_eq_some_iff.mpr
      ⟨c :: more, mem_one_mul_run.mpr ⟨c, more, hdigit, hmore, rfl⟩, rfl, hrest⟩

/-- A sign is taken if there is one. -/
theorem afterSign_sound (text : List Char) :
    ∃ sign ∈ (1 + {['-']} : Language Char), text = sign ++ afterSign text := by
  cases text with
  | nil => exact ⟨[], .inl rfl, rfl⟩
  | cons c tail =>
    by_cases hc : c = '-'
    · exact ⟨['-'], .inr rfl, by simp [afterSign, hc]⟩
    · exact ⟨[], .inl rfl, by simp [afterSign, hc]⟩

theorem afterSign_complete {sign : List Char} (h : sign ∈ (1 + {['-']} : Language Char))
    (htext : StartsOutside (· = '-') text) : afterSign (sign ++ text) = text := by
  rcases h with rfl | rfl
  · cases text with
    | nil => rfl
    | cons c tail => simpa [afterSign, StartsOutside] using htext
  · rfl

theorem afterExponentSign_sound (text : List Char) :
    ∃ sign ∈ (1 + one fun c => c = '+' || c = '-'), text = sign ++ afterExponentSign text := by
  cases text with
  | nil => exact ⟨[], .inl rfl, rfl⟩
  | cons c tail =>
    by_cases hc : c = '+' ∨ c = '-'
    · exact ⟨[c], .inr ⟨c, by simpa using hc, rfl⟩, by simp [afterExponentSign, hc]⟩
    · exact ⟨[], .inl rfl, by simp [afterExponentSign, hc]⟩

theorem afterExponentSign_complete {sign : List Char}
    (h : sign ∈ (1 + one fun c => c = '+' || c = '-'))
    (htext : StartsOutside (fun c => c = '+' || c = '-') text) :
    afterExponentSign (sign ++ text) = text := by
  rcases h with rfl | ⟨c, hc, rfl⟩
  · cases text with
    | nil => rfl
    | cons c tail =>
      have hne : ¬(c = '+' ∨ c = '-') := by simpa [StartsOutside] using htext
      exact if_neg hne
  · have hsign : c = '+' ∨ c = '-' := by simpa using hc
    exact if_pos hsign

/-- Digits do not start with a character of a class without digits. -/
theorem startsOutside_digits {p : Char → Bool} (hp : ∀ c, p c = true → isDigit c = false)
    (h : piece ∈ digits) : StartsOutside p (piece ++ rest) := by
  obtain ⟨c, more, hc, -, rfl⟩ := mem_one_mul_run.mp h
  rw [List.cons_append, StartsOutside.cons_iff, Bool.eq_false_iff]
  intro hpc
  exact absurd hc (by simp [hp c hpc])

/-- A fraction is taken together with all digits that follow. -/
theorem afterFraction?_eq_some_iff : afterFraction? text = some rest ↔
    ∃ piece ∈ fraction, text = piece ++ rest ∧ StartsOutside isDigit rest := by
  constructor
  · intro h
    cases text with
    | nil => simp [afterFraction?] at h
    | cons c tail =>
      rw [afterFraction?, Option.ite_none_right_eq_some] at h
      obtain ⟨rfl, h⟩ := h
      obtain ⟨piece, hpiece, rfl, hrest⟩ := afterDigits?_eq_some_iff.mp h
      exact ⟨['.'] ++ piece, Language.append_mem_mul rfl hpiece, rfl, hrest⟩
  · rintro ⟨piece, hpiece, rfl, hrest⟩
    obtain ⟨_, rfl, more, hmore, rfl⟩ := Language.mem_mul.mp hpiece
    rw [List.singleton_append, List.cons_append, afterFraction?, if_pos rfl]
    exact afterDigits?_eq_some_iff.mpr ⟨more, hmore, rfl, hrest⟩

/-- An exponent is taken together with all digits that follow. -/
theorem afterExponent?_eq_some_iff : afterExponent? text = some rest ↔
    ∃ piece ∈ exponent, text = piece ++ rest ∧ StartsOutside isDigit rest := by
  constructor
  · intro h
    cases text with
    | nil => simp [afterExponent?] at h
    | cons c tail =>
      rw [afterExponent?, Option.ite_none_right_eq_some] at h
      obtain ⟨hc, h⟩ := h
      obtain ⟨sign, hsign, ht⟩ := afterExponentSign_sound tail
      obtain ⟨piece, hpiece, hp, hrest⟩ := afterDigits?_eq_some_iff.mp h
      refine ⟨[c] ++ (sign ++ piece), ?_, by rw [ht, hp]; simp, hrest⟩
      exact Language.append_mem_mul ⟨c, by simpa using hc, rfl⟩
        (Language.append_mem_mul hsign hpiece)
  · rintro ⟨piece, hpiece, rfl, hrest⟩
    obtain ⟨_, ⟨c, hc, rfl⟩, tail, htail, rfl⟩ := Language.mem_mul.mp hpiece
    obtain ⟨sign, hsign, more, hmore, rfl⟩ := Language.mem_mul.mp htail
    have hletter : c = 'e' ∨ c = 'E' := by simpa using hc
    have hnoSign : StartsOutside (fun c => c = '+' || c = '-') (more ++ rest) := by
      refine startsOutside_digits (fun d hd => ?_) hmore
      rcases (by simpa using hd : d = '+' ∨ d = '-') with rfl | rfl <;> rfl
    rw [List.singleton_append, List.cons_append, afterExponent?, if_pos hletter,
      List.append_assoc, afterExponentSign_complete hsign hnoSign]
    exact afterDigits?_eq_some_iff.mpr ⟨more, hmore, rfl, hrest⟩

theorem afterFraction?_eq_none (h : StartsOutside (· = '.') text) : afterFraction? text = none := by
  cases text with
  | nil => rfl
  | cons c tail =>
    have hc : ¬c = '.' := by simpa [StartsOutside] using h
    exact if_neg hc

theorem afterExponent?_eq_none (h : StartsOutside (fun c => c = 'e' || c = 'E') text) :
    afterExponent? text = none := by
  cases text with
  | nil => rfl
  | cons c tail =>
    have hc : ¬(c = 'e' ∨ c = 'E') := by simpa [StartsOutside] using h
    exact if_neg hc

/-- An exponent starts with its letter. -/
theorem startsOutside_exponent {p : Char → Bool} (hp : p 'e' = false ∧ p 'E' = false)
    (h : piece ∈ exponent) : StartsOutside p (piece ++ rest) := by
  obtain ⟨_, ⟨c, hc, rfl⟩, tail, -, rfl⟩ := Language.mem_mul.mp h
  rw [List.append_assoc, List.singleton_append, StartsOutside.cons_iff]
  rcases (by simpa using hc : c = 'e' ∨ c = 'E') with rfl | rfl
  · exact hp.1
  · exact hp.2

/-- A fraction starts with a full stop. -/
theorem startsOutside_fraction (h : piece ∈ fraction) : StartsOutside isDigit (piece ++ rest) := by
  obtain ⟨_, rfl, tail, -, rfl⟩ := Language.mem_mul.mp h
  exact StartsOutside.cons_iff.mpr rfl

theorem integer_sound (h : afterInteger? (afterSign text) = some rest) :
    ∃ piece ∈ integer, text = piece ++ rest := by
  obtain ⟨sign, hsign, ht⟩ := afterSign_sound text
  obtain ⟨piece, hpiece, hp⟩ := afterInteger?_sound h
  exact ⟨sign ++ piece, Language.append_mem_mul hsign hpiece,
    by rw [List.append_assoc, ← hp, ← ht]⟩

theorem integer_complete (h : piece ∈ integer) (hrest : StartsOutside isDigit rest) :
    afterInteger? (afterSign (piece ++ rest)) = some rest := by
  obtain ⟨sign, hsign, number, hnumber, rfl⟩ := Language.mem_mul.mp h
  have hnoSign : StartsOutside (· = '-') (number ++ rest) := by
    rcases hnumber with rfl | hnumber
    · exact StartsOutside.cons_iff.mpr rfl
    · obtain ⟨c, more, hc, -, rfl⟩ := mem_one_mul_run.mp hnumber
      rw [List.cons_append, StartsOutside.cons_iff, decide_eq_false_iff_not]
      rintro rfl
      exact absurd hc (by decide)
  rw [List.append_assoc, afterSign_complete hsign hnoSign]
  exact afterInteger?_complete hnumber hrest

/-- The three shapes of a number that is not an integer. -/
theorem mem_decimal_iff : piece ∈ decimal ↔ ∃ whole ∈ integer,
    (∃ frac ∈ fraction, piece = whole ++ frac) ∨
      (∃ frac ∈ fraction, ∃ exp ∈ exponent, piece = whole ++ (frac ++ exp)) ∨
        ∃ exp ∈ exponent, piece = whole ++ exp := by
  constructor
  · intro h
    obtain ⟨whole, hwhole, tail, htail, rfl⟩ := Language.mem_mul.mp h
    refine ⟨whole, hwhole, ?_⟩
    rcases htail with htail | hexp
    · obtain ⟨frac, hfrac, _, rfl | hexp, rfl⟩ := Language.mem_mul.mp htail
      · exact .inl ⟨frac, hfrac, by simp⟩
      · exact .inr (.inl ⟨frac, hfrac, _, hexp, rfl⟩)
    · exact .inr (.inr ⟨tail, hexp, rfl⟩)
  · rintro ⟨whole, hwhole, ⟨frac, hfrac, rfl⟩ | ⟨frac, hfrac, exp, hexp, rfl⟩ | ⟨exp, hexp, rfl⟩⟩
    · have hmem : frac ++ [] ∈ fraction * (1 + exponent) :=
        Language.append_mem_mul hfrac (.inl rfl)
      rw [List.append_nil] at hmem
      exact Language.append_mem_mul hwhole (.inl hmem)
    · exact Language.append_mem_mul hwhole (.inl (Language.append_mem_mul hfrac (.inr hexp)))
    · exact Language.append_mem_mul hwhole (.inr hexp)

/-- The numbers with a fraction or an exponent, or those without. -/
def numbers : Bool → Language Char
  | false => integer
  | true => decimal

/-- What is read at the start of a text is a number. -/
theorem read?_sound {isFloat : Bool} (h : read? text = some ⟨isFloat, rest⟩) :
    ∃ written ∈ numbers isFloat, text = written ++ rest := by
  -- One case for each choice of the two optional parts; only with neither is it an integer.
  unfold read? at h
  split at h
  · cases h
  next middle hi =>
    obtain ⟨whole, hwhole, rfl⟩ := integer_sound hi
    cases hf : afterFraction? middle with
    | none =>
      cases he : afterExponent? middle with
      | none =>
        simp only [hf, he, Option.getD_none, Option.isSome_none, Bool.or_self] at h
        cases h
        exact ⟨whole, hwhole, rfl⟩
      | some last =>
        obtain ⟨exp, hexp, hm, -⟩ := afterExponent?_eq_some_iff.mp he
        simp only [hf, he, Option.getD_none, Option.getD_some, Option.isSome_some,
          Bool.or_true] at h
        cases h
        exact ⟨whole ++ exp, mem_decimal_iff.mpr ⟨whole, hwhole, .inr (.inr ⟨exp, hexp, rfl⟩)⟩,
          by rw [hm, List.append_assoc]⟩
    | some middle' =>
      obtain ⟨frac, hfrac, hm, -⟩ := afterFraction?_eq_some_iff.mp hf
      cases he : afterExponent? middle' with
      | none =>
        simp only [hf, he, Option.getD_none, Option.getD_some, Option.isSome_some,
          Bool.true_or] at h
        cases h
        exact ⟨whole ++ frac, mem_decimal_iff.mpr ⟨whole, hwhole, .inl ⟨frac, hfrac, rfl⟩⟩,
          by rw [hm, List.append_assoc]⟩
      | some last =>
        obtain ⟨exp, hexp, hl, -⟩ := afterExponent?_eq_some_iff.mp he
        simp only [hf, he, Option.getD_some, Option.isSome_some, Bool.true_or] at h
        cases h
        exact ⟨whole ++ (frac ++ exp),
          mem_decimal_iff.mpr ⟨whole, hwhole, .inr (.inl ⟨frac, hfrac, exp, hexp, rfl⟩)⟩,
          by rw [hm, hl]; simp⟩

/-- No digit, fraction or exponent starts where nothing continues a number. -/
theorem startsOutside_of_continues (h : StartsOutside continues rest) :
    StartsOutside isDigit rest ∧ afterFraction? rest = none ∧ afterExponent? rest = none := by
  refine ⟨h.mono fun c hc => ?_, afterFraction?_eq_none (h.mono fun c hc => ?_),
    afterExponent?_eq_none (h.mono fun c hc => ?_)⟩
  · simp [continues, Reading.isNameChar, hc]
  · simpa [continues] using Or.inr hc
  · rcases (by simpa using hc : c = 'e' ∨ c = 'E') with rfl | rfl <;> rfl

/-- A number that nothing continues is read whole. -/
theorem read?_complete {isFloat : Bool} (h : piece ∈ numbers isFloat)
    (hrest : StartsOutside continues rest) : read? (piece ++ rest) = some ⟨isFloat, rest⟩ := by
  obtain ⟨hdigit, hnoFraction, hnoExponent⟩ := startsOutside_of_continues hrest
  cases isFloat with
  | false => simp [read?, integer_complete h hdigit, hnoFraction, hnoExponent]
  | true =>
    obtain ⟨whole, hwhole, hshape⟩ := mem_decimal_iff.mp h
    rcases hshape with ⟨frac, hfrac, rfl⟩ | ⟨frac, hfrac, exp, hexp, rfl⟩ | ⟨exp, hexp, rfl⟩
    · have hf : afterFraction? (frac ++ rest) = some rest :=
        afterFraction?_eq_some_iff.mpr ⟨frac, hfrac, rfl, hdigit⟩
      simp [read?, List.append_assoc, integer_complete hwhole (startsOutside_fraction hfrac), hf,
        hnoExponent]
    · have he : afterExponent? (exp ++ rest) = some rest :=
        afterExponent?_eq_some_iff.mpr ⟨exp, hexp, rfl, hdigit⟩
      have hf : afterFraction? (frac ++ (exp ++ rest)) = some (exp ++ rest) :=
        afterFraction?_eq_some_iff.mpr
          ⟨frac, hfrac, rfl, startsOutside_exponent (by decide) hexp⟩
      simp [read?, List.append_assoc, integer_complete hwhole (startsOutside_fraction hfrac), hf,
        he]
    · have he : afterExponent? (exp ++ rest) = some rest :=
        afterExponent?_eq_some_iff.mpr ⟨exp, hexp, rfl, hdigit⟩
      have hf : afterFraction? (exp ++ rest) = none :=
        afterFraction?_eq_none (startsOutside_exponent (by decide) hexp)
      simp [read?, List.append_assoc,
        integer_complete hwhole (startsOutside_exponent (by decide) hexp), hf, he]

/-- A number is a token exactly where nothing continues it. -/
theorem ofNumber_append {written after : List Char} {isFloat : Bool} {token : Token}
    (h : read? (written ++ after) = some ⟨isFloat, after⟩) :
    Reading.ofNumber (written ++ after) = ⟨.ok token, rest⟩ ↔ StartsOutside continues after ∧
      Reading.ofNumber.numberToken isFloat written = token ∧ after = rest := by
  have hwritten : (written ++ after).take ((written ++ after).length - after.length) = written := by
    rw [List.length_append, Nat.add_sub_cancel, List.take_left]
  simp only [Reading.ofNumber, h, hwritten]
  cases after with
  | nil => simp [StartsOutside]
  | cons c tail =>
    have hif : (Reading.isNameChar c || decide (c = '.')) = continues c := rfl
    simp only [StartsOutside.cons_iff, hif]
    cases continues c <;> simp

/-- The number tokens at the start of a text. -/
theorem ofNumber_eq_ok_iff {token : Token} : Reading.ofNumber text = ⟨.ok token, rest⟩ ↔
    ∃ isFloat, ∃ written ∈ numbers isFloat, text = written ++ rest ∧
      StartsOutside continues rest ∧ Reading.ofNumber.numberToken isFloat written = token := by
  constructor
  · intro h
    cases hr : read? text with
    | none => simp [Reading.ofNumber, hr] at h
    | some number =>
      obtain ⟨isFloat, after⟩ := number
      obtain ⟨written, hw, rfl⟩ := read?_sound hr
      obtain ⟨hrest, htoken, rfl⟩ := (ofNumber_append hr).mp h
      exact ⟨isFloat, written, hw, rfl, hrest, htoken⟩
  · rintro ⟨isFloat, written, hw, rfl, hrest, htoken⟩
    exact (ofNumber_append (read?_complete hw hrest)).mpr ⟨hrest, htoken, rfl⟩

end Numeral

end SdlGraph
