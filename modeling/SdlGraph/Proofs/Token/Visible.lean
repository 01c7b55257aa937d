import SdlGraph.Proofs.Token.Numeral

/-!
# The characters of numbers and escapes

Numbers and escapes are written with visible ASCII characters. Each of these takes one byte and ends
no line, so a number or an escape has as many bytes as characters and stands within a line.
-/

namespace SdlGraph

/-- Whether a character is a visible one of ASCII. -/
def isVisible (c : Char) : Bool := '!' ≤ c && c ≤ '~'

/-- Characters between two visible ones are visible. -/
theorem isVisible_of_between {low high c : Char} (hlow : '!' ≤ low) (hhigh : high ≤ '~')
    (h : low ≤ c ∧ c ≤ high) : isVisible c = true := by
  simp only [isVisible, Bool.and_eq_true, decide_eq_true_eq]
  exact ⟨Char.le_trans hlow h.1, Char.le_trans h.2 hhigh⟩

/-- A visible character takes one byte. -/
theorem utf8Size_of_isVisible {c : Char} (h : isVisible c = true) : c.utf8Size = 1 := by
  simp only [isVisible, Bool.and_eq_true, decide_eq_true_eq] at h
  have hlast : ('~' : Char).val ≤ 127 := by decide
  exact Char.utf8Size_eq_one_iff.mpr (UInt32.le_trans (Char.le_def.mp h.2) hlast)

/-- Visible characters take a byte each. -/
theorem utf8Length_of_visible {text : List Char} (h : ∀ c ∈ text, isVisible c = true) :
    utf8Length text = text.length := by
  induction text with
  | nil => rfl
  | cons c rest ih =>
    obtain ⟨hc, hrest⟩ := List.forall_mem_cons.mp h
    rw [utf8Length, utf8Size_of_isVisible hc, ih hrest, List.length_cons, Nat.add_comm]

theorem isVisible_of_isDigit {c : Char} (h : Number.isDigit c = true) : isVisible c = true := by
  simp only [Number.isDigit, Bool.and_eq_true, decide_eq_true_eq] at h
  exact isVisible_of_between (by decide) (by decide) h

theorem isVisible_of_isHexDigit {c : Char} (h : Text.isHexDigit c = true) :
    isVisible c = true := by
  unfold Text.isHexDigit Text.hexDigit? at h
  split_ifs at h with hdigit hlower hupper
  · exact isVisible_of_between (by decide) (by decide) hdigit
  · exact isVisible_of_between (by decide) (by decide) hlower
  · exact isVisible_of_between (by decide) (by decide) hupper
  · cases h

namespace Numeral

/-- All texts of a language are made of visible characters. -/
def Visible (language : Language Char) : Prop :=
  ∀ text ∈ language, ∀ c ∈ text, isVisible c = true

section

variable {first second : Language Char} {p : Char → Bool}

theorem Visible.mul (hfirst : Visible first) (hsecond : Visible second) :
    Visible (first * second) := by
  intro text htext
  obtain ⟨front, hfront, back, hback, rfl⟩ := Language.mem_mul.mp htext
  exact List.forall_mem_append.mpr ⟨hfirst front hfront, hsecond back hback⟩

theorem Visible.add (hfirst : Visible first) (hsecond : Visible second) :
    Visible (first + second) :=
  fun text htext => htext.elim (hfirst text) (hsecond text)

theorem visible_one : Visible 1 := by
  intro text htext
  rw [(Language.mem_one text).mp htext]
  exact List.forall_mem_nil _

theorem visible_singleton {c : Char} (hc : isVisible c = true) : Visible {[c]} := by
  intro text htext
  rw [Set.mem_singleton_iff.mp htext]
  exact List.forall_mem_singleton.mpr hc

theorem visible_class (h : ∀ c, p c = true → isVisible c = true) : Visible (one p) := by
  rintro text ⟨c, hc, rfl⟩
  exact List.forall_mem_singleton.mpr (h c hc)

theorem visible_run (h : ∀ c, p c = true → isVisible c = true) : Visible (run p) :=
  fun _ hrun c hc => h c (hrun c hc)

end

theorem visible_integer : Visible integer := by
  have hnonzero (c : Char) (hc : ('1' ≤ c && c ≤ '9') = true) : isVisible c = true := by
    simp only [Bool.and_eq_true, decide_eq_true_eq] at hc
    exact isVisible_of_between (by decide) (by decide) hc
  have hunsigned : Visible unsigned := (visible_singleton (by decide)).add
    ((visible_class hnonzero).mul (visible_run fun c => isVisible_of_isDigit))
  exact (visible_one.add (visible_singleton (by decide))).mul hunsigned

theorem visible_decimal : Visible decimal := by
  have hdigits : Visible digits := (visible_class fun c => isVisible_of_isDigit).mul
    (visible_run fun c => isVisible_of_isDigit)
  have hpair {a b c : Char} (ha : isVisible a = true) (hb : isVisible b = true)
      (hc : (c = a || c = b) = true) : isVisible c = true := by
    rcases (by simpa using hc : c = a ∨ c = b) with rfl | rfl
    · exact ha
    · exact hb
  have hfraction : Visible fraction := (visible_singleton (by decide)).mul hdigits
  have hsign : Visible (one fun c => c = '+' || c = '-') :=
    visible_class fun c => hpair (by decide) (by decide)
  have hletter : Visible (one fun c => c = 'e' || c = 'E') :=
    visible_class fun c => hpair (by decide) (by decide)
  have hexponent : Visible exponent := hletter.mul ((visible_one.add hsign).mul hdigits)
  exact visible_integer.mul ((hfraction.mul (visible_one.add hexponent)).add hexponent)

/-- Numbers are made of visible characters. -/
theorem visible_numbers (isFloat : Bool) : Visible (numbers isFloat) := by
  cases isFloat with
  | false => exact visible_integer
  | true => exact visible_decimal

end Numeral

/-- Escapes are made of visible characters. -/
theorem Escape.Names.visible {piece : List Char} {value : Char} (h : Escape.Names piece value) :
    ∀ c ∈ piece, isVisible c = true := by
  have hhex {digits : List Char} (hdigits : ∀ c ∈ digits, Text.isHexDigit c = true) :
      ∀ c ∈ digits, isVisible c = true :=
    fun c hc => isVisible_of_isHexDigit (hdigits c hc)
  cases h with
  | @letter c _ hletter =>
    have hall : ∀ entry ∈ Escape.letters, isVisible entry.1 = true := by decide
    exact List.forall_mem_singleton.mpr (hall _ hletter)
  | fixed _ hdigits _ => exact List.forall_mem_cons.mpr ⟨by decide, hhex hdigits⟩
  | pair _ _ hdigits _ _ _ =>
    obtain ⟨hleading, htrailing⟩ := List.forall_mem_append.mp hdigits
    have hsecond : ∀ c ∈ '\\' :: 'u' :: _, isVisible c = true :=
      List.forall_mem_cons.mpr ⟨by decide, List.forall_mem_cons.mpr ⟨by decide, hhex htrailing⟩⟩
    exact List.forall_mem_cons.mpr
      ⟨by decide, List.forall_mem_append.mpr ⟨hhex hleading, hsecond⟩⟩
  | braced _ hdigits _ =>
    have hclosed : ∀ c ∈ _ ++ ['\x7d'], isVisible c = true :=
      List.forall_mem_append.mpr ⟨hhex hdigits, List.forall_mem_singleton.mpr (by decide)⟩
    exact List.forall_mem_cons.mpr ⟨by decide, List.forall_mem_cons.mpr ⟨by decide, hclosed⟩⟩

end SdlGraph
