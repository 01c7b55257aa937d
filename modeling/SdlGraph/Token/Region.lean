import SdlGraph.Token.Reading

/-!
# Cutting a text into regions

Reading token after token cuts a text into regions: each holds one token, or one fault together
with the text skipped because of it. The regions tile the text. A text without faults gives its
tokens with their byte ranges; any other gives a diagnostic for each fault.
-/

namespace SdlGraph

/-- A piece of text that was read as one token or skipped because of one fault. -/
structure Region where
  /-- The characters of the piece. -/
  text : List Char
  /-- The token, or what is wrong with the piece. -/
  outcome : Except LexicalFault Token

namespace Region

/-- The region that a reading at the start of the text `c :: text` takes. -/
def ofReading (c : Char) (text : List Char) (reading : Reading) : Region :=
  ⟨(c :: text).take (text.length + 1 - reading.rest.length), reading.outcome⟩

/-- Cut a text into its regions. -/
def cut : List Char → List Region
  | [] => []
  | c :: text =>
    ofReading c text (Reading.ofText c text) :: cut (Reading.ofText c text).rest
termination_by text => text.length
decreasing_by exact Nat.lt_succ_of_le (Reading.ofText_suffix c text).length_le

/-- Regions with their byte ranges, the first of them starting at byte `start`. -/
def locate (start : Nat) : List Region → List (Located Span Region)
  | [] => []
  | region :: rest =>
    ⟨region, Span.between start (start + utf8Length region.text)⟩ ::
      locate (start + utf8Length region.text) rest

/-- The token of a region, if it holds one. -/
def token? (region : Located Span Region) : Option (Located Span Token) :=
  match region.value.outcome with
  | .ok token => some ⟨token, region.place⟩
  | .error _ => none

/-- The diagnostic of a region, if it holds a fault. -/
def diagnostic? (region : Located Span Region) : Option (Diagnostic Span) :=
  match region.value.outcome with
  | .ok _ => none
  | .error fault => some (fault.diagnostic region.place.start)

/-- What a reading takes and what it leaves make up the text. -/
theorem ofReading_text_append (c : Char) (text : List Char) :
    ∃ piece, (ofReading c text (Reading.ofText c text)).text = c :: piece ∧
      text = piece ++ (Reading.ofText c text).rest := by
  obtain ⟨piece, hp⟩ := Reading.ofText_suffix c text
  refine ⟨piece, ?_, hp.symm⟩
  have hl : text.length + 1 - (Reading.ofText c text).rest.length = (c :: piece).length := by
    have := congrArg List.length hp
    simp only [List.length_append] at this
    simp only [List.length_cons]
    omega
  have ht : c :: text = (c :: piece) ++ (Reading.ofText c text).rest := by simp [hp]
  rw [ofReading, hl, ht, List.take_left]

/-- The regions of a text put together give the text. -/
theorem cut_tiles (text : List Char) : (cut text).flatMap (·.text) = text := by
  fun_induction cut text with
  | case1 => rfl
  | case2 c text ih =>
    obtain ⟨piece, ht, hp⟩ := ofReading_text_append c text
    rw [List.flatMap_cons, ih, ht, List.cons_append, ← hp]

end Region

/-- The tokens of a text with their byte ranges, or a diagnostic for each fault in it. -/
def Token.scan (source : String) : Except (List (Diagnostic Span)) (List (Located Span Token)) :=
  let regions := Region.locate 0 (Region.cut source.toList)
  match regions.filterMap Region.diagnostic? with
  | [] => .ok (regions.filterMap Region.token?)
  | problems => .error problems

end SdlGraph
