import Mathlib.Data.List.Chain
import Mathlib.Data.List.Forall2
import SdlGraph.Proofs.Token.Lexeme

/-!
# Pieces of a text one behind the other

Pieces that make up a text stand between its characters, each where the one before ends. Where no
piece is empty, their byte ranges tile the text.
-/

namespace SdlGraph

theorem utf8ByteSize_ofList (text : List Char) :
    (String.ofList text).utf8ByteSize = utf8Length text := by
  induction text with
  | nil => rfl
  | cons c rest ih =>
    rw [← List.singleton_append, String.ofList_append, String.utf8ByteSize_append, ih]
    simp [utf8Length]

/-- A text with a character takes up at least one byte. -/
theorem utf8Length_pos {piece : List Char} (h : piece ≠ []) : 0 < utf8Length piece := by
  obtain ⟨c, more, rfl⟩ := List.exists_cons_of_ne_nil h
  exact Nat.add_pos_left c.utf8Size_pos _

/-- The characters before a place in a text are known from their bytes. -/
theorem append_inj_of_utf8Length {before front after back : List Char}
    (h : before ++ after = front ++ back) (hlength : utf8Length before = utf8Length front) :
    before = front ∧ after = back := by
  obtain ⟨gap, rfl, rfl⟩ | ⟨gap, rfl, rfl⟩ := List.append_eq_append_iff.mp h
  all_goals
    have hgap : gap = [] := by
      by_contra hne
      have hpos := utf8Length_pos hne
      rw [utf8Length_append] at hlength
      omega
    simp [hgap]

namespace Span

/-- The byte ranges of pieces one behind the other, the first of them starting at byte `start`. -/
def tile (start : Nat) : List (List Char) → List Span
  | [] => []
  | piece :: rest =>
    .between start (start + utf8Length piece) :: tile (start + utf8Length piece) rest

/-- Byte ranges tile a text: they run between its characters, one behind the other from its start to
its end, and none is empty. -/
structure Tiling (source : String) (spans : List Span) : Prop where
  /-- No range is empty. -/
  nonempty : ∀ span ∈ spans, span.start < span.stop
  /-- Ranges start and end between characters. -/
  boundaries : ∀ span ∈ spans, (String.Pos.Raw.mk span.start).IsValid source ∧
    (String.Pos.Raw.mk span.stop).IsValid source
  /-- Each range starts where the one before ends. -/
  consecutive : spans.IsChain fun span next => span.stop = next.start
  /-- The first range starts at the start. -/
  first : ∀ span ∈ spans.head?, span.start = 0
  /-- The last range ends at the end. -/
  last : ∀ span ∈ spans.getLast?, span.stop = source.utf8ByteSize
  /-- Only the empty text has no ranges. -/
  empty : spans = [] → source = ""

variable {source : String} {start : Nat} {pieces : List (List Char)}

theorem stop_between (start length : Nat) :
    (Span.between start (start + length)).stop = start + length :=
  Nat.max_eq_right (Nat.le_add_right start length)

/-- The byte range of a piece in a text holds the piece. -/
theorem holds_between {front piece back : List Char}
    (h : source.toList = front ++ (piece ++ back)) :
    (Span.between (utf8Length front) (utf8Length (front ++ piece))).Holds source
      (String.ofList piece) := by
  refine ⟨String.ofList front, String.ofList back, ?_, ?_, ?_⟩
  · rw [← String.ofList_append, ← String.ofList_append, List.append_assoc, ← h,
      String.ofList_toList]
  · exact (utf8ByteSize_ofList front).symm
  · rw [← String.ofList_append, utf8ByteSize_ofList, utf8Length_append]
    exact stop_between _ _

/-- A byte range that holds a piece starts and ends between characters. -/
theorem isValid_of_holds {span : Span} {piece : String} (h : span.Holds source piece) :
    (String.Pos.Raw.mk span.start).IsValid source ∧
      (String.Pos.Raw.mk span.stop).IsValid source := by
  obtain ⟨before, after, rfl, hstart, hstop⟩ := h
  rw [String.Pos.Raw.isValid_iff_exists_append, String.Pos.Raw.isValid_iff_exists_append]
  refine ⟨⟨before, piece ++ after, by rw [String.append_assoc], ?_⟩,
    ⟨before ++ piece, after, rfl, ?_⟩⟩
  · rw [hstart]; rfl
  · rw [hstop]; rfl

/-- Pieces stand where their byte ranges say. -/
theorem holds_tile {before after : List Char}
    (hsource : source.toList = before ++ (pieces.flatten ++ after)) :
    List.Forall₂ (fun span piece => span.Holds source (String.ofList piece))
      (tile (utf8Length before) pieces) pieces := by
  -- By induction on the pieces, with all that stands before them carried along.
  induction pieces generalizing before with
  | nil => exact .nil
  | cons piece pieces ih =>
    rw [List.flatten_cons, List.append_assoc] at hsource
    refine .cons ?_ ?_
    · rw [← utf8Length_append]
      exact holds_between hsource
    · rw [← utf8Length_append]
      exact ih (by rw [hsource, List.append_assoc])

theorem start_head?_tile : ∀ span ∈ (tile start pieces).head?, span.start = start := by
  cases pieces <;> simp [tile, between]

theorem consecutive_tile :
    (tile start pieces).IsChain fun span next => span.stop = next.start := by
  induction pieces generalizing start with
  | nil => exact .nil
  | cons piece pieces ih =>
    rw [tile, List.isChain_cons]
    refine ⟨fun next hnext => ?_, ih⟩
    rw [start_head?_tile next hnext, stop_between]

theorem stop_getLast?_tile :
    ∀ span ∈ (tile start pieces).getLast?, span.stop = start + utf8Length pieces.flatten := by
  induction pieces generalizing start with
  | nil => simp [tile]
  | cons piece pieces ih =>
    rw [List.flatten_cons, utf8Length_append, ← Nat.add_assoc]
    cases pieces with
    | nil => simp [tile, stop_between, utf8Length]
    | cons => simpa only [tile, List.getLast?_cons_cons] using ih

theorem nonempty_tile (h : ∀ piece ∈ pieces, piece ≠ []) :
    ∀ span ∈ tile start pieces, span.start < span.stop := by
  induction pieces generalizing start with
  | nil => simp [tile]
  | cons piece pieces ih =>
    obtain ⟨hpiece, hrest⟩ := List.forall_mem_cons.mp h
    rw [tile, List.forall_mem_cons]
    refine ⟨?_, ih hrest⟩
    rw [stop_between]
    exact Nat.lt_add_of_pos_right (utf8Length_pos hpiece)

/-- Pieces that make up a text tile it, where none is empty. -/
theorem tiling_tile (hne : ∀ piece ∈ pieces, piece ≠ [])
    (hsource : source.toList = pieces.flatten) : Tiling source (tile 0 pieces) where
  nonempty := nonempty_tile hne
  boundaries := by
    have hpieces : source.toList = [] ++ (pieces.flatten ++ []) := by
      rw [List.nil_append, List.append_nil, hsource]
    have hholds := holds_tile hpieces
    have hvalid := hholds.imp fun span piece h => And.intro (isValid_of_holds h) h
    exact ((List.forall₂_and_left _ _).mp hvalid).1
  consecutive := consecutive_tile
  first := start_head?_tile
  last := by
    intro span hspan
    rw [stop_getLast?_tile span hspan, ← hsource, ← utf8ByteSize_ofList, String.ofList_toList,
      Nat.zero_add]
  empty := by
    intro hnil
    cases pieces with
    | nil => exact String.toList_eq_nil_iff.mp hsource
    | cons piece rest => cases hnil

/-- Of ranges that tile a text, each ends before any later one starts. -/
theorem Tiling.pairwise {spans : List Span} (h : Tiling source spans) :
    spans.Pairwise fun span next => span.stop ≤ next.start := by
  have : IsTrans Span fun span next => span.stop ≤ next.start :=
    ⟨fun _ middle _ hfirst hsecond => hfirst.trans (middle.start_le_stop.trans hsecond)⟩
  exact List.isChain_iff_pairwise.mp (h.consecutive.imp fun span next he => Nat.le_of_eq he)

end Span

end SdlGraph
