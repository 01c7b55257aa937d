import SdlGraph.Proofs.Document.Membership

/-!
# Open brackets

Lists nest in types, and lists and input objects in constants. How many brackets of such a part are
open is told by the tokens alone: a part begins behind a colon or an equals sign and ends with the
token that leaves none of its brackets open. Whole types and constants leave open what was open
before them.
-/

namespace SdlGraph

open Spelling

namespace Nesting

/-- A part with some open brackets, unless there are none and it is at its end. -/
def stillOpen : Nat → Option Nat
  | 0 => none
  | depth + 1 => some (depth + 1)

/-- The number of open brackets of the part under way behind a token, from that before it. There is
none outside of parts. -/
def next : Option Nat → Token → Option Nat
  | none, .punctuator .colon => some 0
  | none, .punctuator .equals => some 0
  | none, _ => none
  | some depth, .punctuator .leftBracket => some (depth + 1)
  | some depth, .punctuator .leftBrace => some (depth + 1)
  | some depth, .punctuator .rightBracket => stillOpen (depth - 1)
  | some depth, .punctuator .rightBrace => stillOpen (depth - 1)
  | some depth, _ => stillOpen depth

/-- The number of open brackets of the part under way behind some tokens. -/
def track (depth? : Option Nat) (tokens : List Token) : Option Nat := tokens.foldl next depth?

theorem track_append (depth? : Option Nat) (us vs : List Token) :
    track depth? (us ++ vs) = track (track depth? us) vs := List.foldl_append

end Nesting

/-- How many brackets are open in the type or constant that the tokens end in. -/
def openBrackets (tokens : List Token) : Nat := (Nesting.track none tokens).getD 0

/-- The colon of an entry does not begin a part of its own. -/
example : openBrackets [.name "a", .punctuator .colon, .punctuator .leftBracket,
    .punctuator .leftBrace, .name "b", .punctuator .colon] = 2 := by decide

open Nesting

/-- A bracket that encloses what leaves the others open is closed again. -/
theorem Nesting.track_enclosed {opening close : Token} {depth : Nat} {ts : List Token}
    (hopening : next (some depth) opening = some (depth + 1))
    (hts : track (some (depth + 1)) ts = some (depth + 1))
    (hclose : next (some (depth + 1)) close = stillOpen depth) :
    track (some depth) ([opening] ++ (ts ++ [close])) = stillOpen depth := by
  have hopened : track (some depth) [opening] = some (depth + 1) := hopening
  have hclosed : track (some (depth + 1)) [close] = stillOpen depth := hclose
  rw [track_append, hopened, track_append, hts, hclosed]

/-- A type leaves the brackets around it open, and is at its end if there are none. -/
theorem TypeRef.track_spelling {type : TypeRef} {ts : List Token} (hts : ts ∈ type.spelling)
    (depth : Nat) : track (some depth) ts = stillOpen depth := by
  induction type generalizing ts depth with
  | named name =>
    rw [mem_word.mp hts]
    rfl
  | list element ih =>
    obtain ⟨us, hu, rfl⟩ := mem_enclosed.mp hts
    exact track_enclosed rfl (ih hu (depth + 1)) rfl
  | nonNull inner ih =>
    obtain ⟨us, hu, vs, hv, rfl⟩ := mem_prod_cons.mp hts
    rw [mem_prod_singleton, mem_mark] at hv
    rw [track_append, ih hu depth, hv]
    cases depth <;> rfl

mutual

/-- A constant leaves the brackets around it open, and is at its end if there are none. -/
theorem Value.track_spelling : (value : Value) → ∀ ts ∈ value.spelling, ∀ depth,
    track (some depth) ts = stillOpen depth
  | .list items => by
    intro ts hts depth
    obtain ⟨us, hu, rfl⟩ := mem_enclosed.mp hts
    exact track_enclosed rfl (Value.track_items items us hu depth) rfl
  | .object entries => by
    intro ts hts depth
    obtain ⟨us, hu, rfl⟩ := mem_enclosed.mp hts
    exact track_enclosed rfl (Value.track_entries entries us hu depth) rfl
  | .string _ => by
    intro ts hts depth
    rcases mem_text.mp hts with rfl | rfl
    · rfl
    · rfl
  | .int _ => by
    intro ts hts depth
    rw [show ts = _ from hts]
    rfl
  | .float _ => by
    intro ts hts depth
    rw [show ts = _ from hts]
    rfl
  | .boolean true => by
    intro ts hts depth
    rw [mem_word.mp hts]
    rfl
  | .boolean false => by
    intro ts hts depth
    rw [mem_word.mp hts]
    rfl
  | .null => by
    intro ts hts depth
    rw [mem_word.mp hts]
    rfl
  | .enum _ => by
    intro ts hts depth
    rw [mem_word.mp hts]
    rfl

theorem Value.track_items : (items : List Value) → ∀ ts ∈ Value.itemsSpelling items, ∀ depth,
    track (some (depth + 1)) ts = some (depth + 1)
  | [] => by
    intro ts hts depth
    rw [(Language.mem_one ts).mp hts]
    rfl
  | item :: rest => by
    intro ts hts depth
    obtain ⟨us, hu, vs, hv, rfl⟩ := Language.mem_mul.mp hts
    rw [track_append, Value.track_spelling item us hu (depth + 1)]
    exact Value.track_items rest vs hv depth

theorem Value.track_entries : (entries : List (String × Value)) →
    ∀ ts ∈ Value.entriesSpelling entries, ∀ depth,
      track (some (depth + 1)) ts = some (depth + 1)
  | [] => by
    intro ts hts depth
    rw [(Language.mem_one ts).mp hts]
    rfl
  | (name, value) :: rest => by
    intro ts hts depth
    obtain ⟨us, hu, vs, hv, rfl⟩ := Language.mem_mul.mp hts
    obtain ⟨_, rfl, xs, hx, rfl⟩ := mem_prod_cons.mp hu
    obtain ⟨_, rfl, ys, hy, rfl⟩ := mem_prod_cons.mp hx
    rw [mem_prod_singleton] at hy
    have hbefore : track (some (depth + 1)) ([.name name] ++ [.punctuator .colon]) =
        some (depth + 1) := rfl
    rw [track_append, ← List.append_assoc, track_append, hbefore,
      Value.track_spelling value ys hy (depth + 1)]
    exact Value.track_entries rest vs hv depth

end

end SdlGraph
