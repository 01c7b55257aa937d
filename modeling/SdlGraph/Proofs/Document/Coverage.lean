import Mathlib.Data.List.ReduceOption
import SdlGraph.Proofs.Document.Positions

/-!
# Places that are put together cover what is read

The place of a larger part is put together from its first token and from those of its parts that can
be its last. No part that ends it is forgotten: wherever a construct of the grammar is read, the
union of these places is the range from the first of the tokens taken to the last.
-/

namespace SdlGraph

namespace Extent

variable {place : Extent} {ends : List Extent} {start length stop : Nat}

theorem union_mk (first stop start' stop' : Nat) :
    union ⟨first, stop⟩ ⟨start', stop'⟩ = ⟨min first start', max stop stop'⟩ := rfl

/-- A place keeps its beginning if nothing it is extended by begins before it. -/
theorem first_foldl_union (h : ∀ other ∈ ends, place.first ≤ other.first) :
    (ends.foldl union place).first = place.first := by
  induction ends generalizing place with
  | nil => rfl
  | cons other ends ih =>
    obtain ⟨hother, hends⟩ := List.forall_mem_cons.mp h
    have hfirst : (place.union other).first = place.first := Nat.min_eq_left hother
    rw [List.foldl_cons, ih (hfirst ▸ hends), hfirst]

/-- A place extended by others ends where the last of them does. -/
theorem stop_foldl_union (hplace : place.stop ≤ stop) (h : ∀ other ∈ ends, other.stop ≤ stop)
    (hreached : place.stop = stop ∨ ∃ other ∈ ends, other.stop = stop) :
    (ends.foldl union place).stop = stop := by
  induction ends generalizing place with
  | nil => exact hreached.resolve_right (by simp)
  | cons other ends ih =>
    obtain ⟨hother, hends⟩ := List.forall_mem_cons.mp h
    have hunion : (place.union other).stop = max place.stop other.stop := rfl
    rw [List.foldl_cons]
    refine ih (hunion ▸ Nat.max_le.mpr ⟨hplace, hother⟩) hends ?_
    rcases hreached with hreached | ⟨last, hlast, hreached⟩
    · exact .inl (by omega)
    · rcases List.mem_cons.mp hlast with rfl | hlast
      · exact .inl (by omega)
      · exact .inr ⟨last, hlast, hreached⟩

/-- Some places lie in a run of tokens, and one of them reaches its end unless the run is empty. -/
structure ReachesEnd (start length : Nat) (ends : List Extent) : Prop where
  /-- No place begins before the run. -/
  start_le : ∀ place ∈ ends, start ≤ place.first
  /-- No place ends behind the run. -/
  stop_le : ∀ place ∈ ends, place.stop ≤ start + length
  /-- The end is reached. -/
  reached : length = 0 ∨ ∃ place ∈ ends, place.stop = start + length

/-- A place begins in a run of tokens and ends with it. -/
def EndsAt (start length : Nat) (place : Extent) : Prop :=
  start ≤ place.first ∧ place.stop = start + length

theorem EndsAt.after {skipped : Nat} (h : EndsAt (start + skipped) length place) :
    EndsAt start (skipped + length) place :=
  ⟨Nat.le_of_add_right_le h.1, by rw [h.2, Nat.add_assoc]⟩

namespace ReachesEnd

variable {ends' : List Extent} {length' : Nat}

theorem nil (start : Nat) : ReachesEnd start 0 [] :=
  ⟨List.forall_mem_nil _, List.forall_mem_nil _, .inl rfl⟩

theorem single (h : EndsAt start length place) : ReachesEnd start length [place] :=
  ⟨List.forall_mem_singleton.mpr h.1, List.forall_mem_singleton.mpr h.2.le,
    .inr ⟨place, List.mem_singleton_self place, h.2⟩⟩

/-- A run behind a run. -/
theorem append (h : ReachesEnd start length ends) (h' : ReachesEnd (start + length) length' ends') :
    ReachesEnd start (length + length') (ends ++ ends') := by
  refine ⟨List.forall_mem_append.mpr ⟨h.start_le, fun place hp => ?_⟩,
    List.forall_mem_append.mpr ⟨fun place hp => ?_, fun place hp => ?_⟩, ?_⟩
  · exact Nat.le_of_add_right_le (h'.start_le place hp)
  · exact (h.stop_le place hp).trans (by omega)
  · exact (h'.stop_le place hp).trans (by omega)
  · rcases h'.reached with hnone | ⟨last, hlast, hreached⟩
    · refine h.reached.imp (fun hnone' => by omega) fun ⟨last, hlast, hreached⟩ => ?_
      exact ⟨last, List.mem_append_left _ hlast, by omega⟩
    · exact .inr ⟨last, List.mem_append_right _ hlast, by omega⟩

/-- The order of the places does not matter. -/
theorem congr (h : ReachesEnd start length ends) (hmem : ∀ place, place ∈ ends' ↔ place ∈ ends) :
    ReachesEnd start length ends' :=
  ⟨fun place hp => h.start_le place ((hmem place).mp hp),
    fun place hp => h.stop_le place ((hmem place).mp hp),
    h.reached.imp_right fun ⟨last, hlast, hreached⟩ => ⟨last, (hmem last).mpr hlast, hreached⟩⟩

/-- A place in front of a run, extended by places that reach the end of the run, is the range up to
there. -/
theorem foldl_union (h : ReachesEnd start length ends) (hfirst : place.first ≤ start)
    (hstop : place.stop = start) : ends.foldl union place = ⟨place.first, start + length⟩ := by
  have hstart : (ends.foldl union place).first = place.first :=
    first_foldl_union fun other ho => hfirst.trans (h.start_le other ho)
  have hend : (ends.foldl union place).stop = start + length := by
    refine stop_foldl_union (by omega) h.stop_le (h.reached.imp_left fun hnone => ?_)
    omega
  rw [← hstart, ← hend]

end ReachesEnd

end Extent

namespace Consecutive

variable {α : Type} {place : α → Extent} {start : Nat} {taken : List Token} {values : List α}

/-- The places of items that are read one after the other reach the end of the last. -/
theorem reaches (h : Consecutive (fun start taken value =>
      place value = ⟨start, start + taken.length⟩) start taken values) :
    Extent.ReachesEnd start taken.length (values.map place) := by
  induction h with
  | nil start => exact .nil start
  | @cons start us vs value values hplace hrest ih =>
    have hone : Extent.EndsAt start us.length (place value) := by
      rw [hplace]
      exact ⟨Nat.le_refl start, rfl⟩
    rw [List.length_append]
    exact (Extent.ReachesEnd.single hone).append ih

/-- The last item that is read ends where the items end. -/
theorem endsAt_getLast? (h : Consecutive (fun start taken value =>
      (place value).EndsAt start taken.length) start taken values) :
    (taken = [] ∧ values = []) ∨
      ∃ last ∈ values.getLast?, (place last).EndsAt start taken.length := by
  induction h with
  | nil start => exact .inl ⟨rfl, rfl⟩
  | @cons start us vs value values hends hrest ih =>
    right
    rcases ih with ⟨rfl, rfl⟩ | ⟨last, hlast, hends'⟩
    · exact ⟨value, rfl, by rwa [List.append_nil]⟩
    · refine ⟨last, ?_, by rw [List.length_append]; exact hends'.after⟩
      rw [List.getLast?_cons, Option.mem_def.mp hlast]
      rfl

end Consecutive

namespace Parser

open Spelling

variable {α : Type} {start : Nat}

/-- The place of what a parser reads is the range of the tokens it takes. -/
def Spans (parser : Parser α) (place : α → Extent) : Prop :=
  ∀ start, parser.TakesFrom start fun result taken =>
    place result = ⟨start, start + taken.length⟩

/-- Some places in what a parser reads reach the end of the tokens it takes. -/
def ReachesEnd (parser : Parser α) (ends : α → List Extent) : Prop :=
  ∀ start, parser.TakesFrom start fun result taken =>
    Extent.ReachesEnd start taken.length (ends result)

/-- A way behind a mark puts its place together from that of the mark. -/
theorem Spans.ifNext {mark : Punctuator} {yes : Extent → Parser α} {no : Parser α}
    {place : α → Extent}
    (hyes : ∀ start, (yes ⟨start, start + 1⟩).TakesFrom (start + 1) fun result taken =>
      place result = ⟨start, start + 1 + taken.length⟩)
    (hno : no.Spans place) : (Parser.ifNext mark yes no).Spans place := by
  intro start
  refine .ifNext ((hyes start).mono fun result taken hplace => ?_) (hno start)
  rw [hplace, List.length_cons, Nat.add_right_comm, Nat.add_assoc]

theorem spans_take (expectation : Expectation) (value? : Token → Option α) :
    (take expectation value?).Spans Located.place := by
  refine fun start => (TakesFrom.take expectation value?).mono fun read taken h => ?_
  rw [h.1, h.2]

section

variable {β : Type} {parser : Parser α} {item : α → Language Token} {fine : α → Prop}
  {between opening close : Punctuator}

/-- A closing mark is the last token taken. -/
theorem takesFrom_upTo (h : parser.Takes fun value taken => taken ∈ item value ∧ fine value)
    (hne : ∀ value, [] ∉ item value) : (upTo close parser).TakesFrom start fun read taken =>
      ∃ length, taken.length = length + 1 ∧
        read.2 = ⟨start + length, start + length + 1⟩ := by
  refine .bind (.of_takes (.collect (.unlessNext h) hne)) fun items us _ => ?_
  refine .bind (.expect close) fun stop vs ⟨hstop, hlength⟩ => .pure ⟨us.length, ?_, hstop⟩
  rw [List.append_nil, List.length_append, hlength]

/-- What stands between two marks has its place from the one to the other. -/
theorem union_marks (start length : Nat) :
    Extent.union ⟨start, start + 1⟩ ⟨start + 1 + length, start + 1 + length + 1⟩ =
      ⟨start, start + 1 + (length + 1)⟩ := by
  rw [Extent.union_mk, Nat.min_eq_left (by omega), Nat.max_eq_right (by omega), Nat.add_assoc]

/-- Items between marks have a place, from the one mark to the other, if there are any. -/
theorem takesFrom_delimited (h : parser.Takes fun value taken => taken ∈ item value ∧ fine value)
    (hne : ∀ value, [] ∉ item value) :
    (delimited opening close parser).TakesFrom start fun read taken =>
      read.2.elim (taken = []) fun block => block = ⟨start, start + taken.length⟩ := by
  refine .ifNext (.committed (.bind (.of_takes h) fun first us _ => ?_)) (.pure rfl)
  refine .bind (takesFrom_upTo h hne) fun ⟨more, stop⟩ vs ⟨length, hlength, hstop⟩ => .pure ?_
  dsimp only at hstop
  rw [hstop, Nat.add_assoc (start + 1)]
  refine (union_marks start _).trans ?_
  simp only [List.append_nil, List.length_cons, List.length_append, hlength, Extent.mk.injEq,
    true_and]
  omega

theorem reaches_delimited (h : parser.Takes fun value taken => taken ∈ item value ∧ fine value)
    (hne : ∀ value, [] ∉ item value) :
    (delimited opening close parser).ReachesEnd fun read => read.2.toList := by
  refine fun start => (takesFrom_delimited h hne).mono fun ⟨items, block⟩ taken hblock => ?_
  cases block with
  | none =>
    obtain rfl : taken = [] := hblock
    exact .nil start
  | some block =>
    obtain rfl : block = _ := hblock
    exact .single ⟨Nat.le_refl start, rfl⟩

/-- The last of some items with a mark between them ends where they end. -/
theorem takesFrom_separated {place : α → Extent} (h : parser.Spans place)
    (hne : parser.Takes fun _ taken => taken ≠ []) :
    (separated between parser).TakesFrom start fun values taken =>
      ∃ last ∈ values.getLast?, (place last).EndsAt start taken.length := by
  have hstep (start : Nat) : (following between fun _ => parser).TakesFrom start
      fun result taken => result.elim (taken = []) fun value =>
        (place value).EndsAt start taken.length ∧ taken ≠ [] := by
    refine .ifNext (.map ((h _).mono fun value taken hplace => ?_)) (.pure rfl)
    refine ⟨?_, List.cons_ne_nil _ _⟩
    rw [hplace, List.length_cons, Nat.add_comm taken.length]
    exact ⟨Nat.le_add_right start 1, Nat.add_assoc start 1 taken.length⟩
  refine .bind ((h start).and_takes hne) fun first us ⟨hplace, hus⟩ => ?_
  refine .bind (TakesFrom.collect hstep fun _ _ h => h.2 rfl) fun rest taken hrest => .pure ?_
  obtain ⟨vs, ws, hvs, rfl, rfl⟩ := hrest
  rw [List.append_nil, List.append_nil]
  rcases (hvs.mono fun _ _ _ h => h.1).endsAt_getLast? with ⟨rfl, rfl⟩ | ⟨last, hlast, hends⟩
  · refine ⟨first, rfl, ?_⟩
    rw [List.append_nil, hplace]
    exact ⟨Nat.le_refl start, rfl⟩
  · refine ⟨last, ?_, by rw [List.length_append]; exact hends.after⟩
    rw [List.getLast?_cons, Option.mem_def.mp hlast]
    rfl

end

/-- The place of a list or an input object reaches from its opening mark to its closing one. -/
theorem spans_value (levels : Nat) : (value levels).Spans Located.place := by
  cases levels with
  | zero =>
    refine fun start => .bind_peek? fun next => ?_
    split
    next => exact .refuse
    next => exact .refuse
    next => exact spans_take _ _ start
  | succ levels =>
    have hitem := takes_listItem (takes_value levels)
    have hentry := takes_objectEntry (takes_value levels)
    refine Spans.ifNext (fun start => .committed ?_) (Spans.ifNext (fun start => .committed ?_)
      (spans_take _ _))
    · refine .bind (takesFrom_upTo hitem nil_not_mem_value)
        fun ⟨items, stop⟩ us ⟨length, hlength, hstop⟩ => .pure ?_
      dsimp only at hstop
      rw [hstop, union_marks, List.append_nil, hlength]
    · refine .bind (takesFrom_upTo hentry nil_not_mem_entry)
        fun ⟨entries, stop⟩ us ⟨length, hlength, hstop⟩ => .pure ?_
      dsimp only at hstop
      rw [hstop, union_marks, List.append_nil, hlength]

theorem spans_constant : constant.Spans Located.place := spans_value nestingLimit

/-- An exclamation mark extends the place of the type before it. -/
theorem takesFrom_nullable {first : Nat} {inner : Parser (TypeUse Extent)} (hle : first ≤ start)
    (h : inner.TakesFrom start fun use taken => use.place = ⟨first, start + taken.length⟩) :
    (typeRef.nullable inner).TakesFrom start fun use taken =>
      use.place = ⟨first, start + taken.length⟩ := by
  refine .bind h fun use us hplace => .ifNext (.pure ?_) (.pure ?_)
  · rw [hplace, Extent.union_mk, Nat.min_eq_left (by omega), Nat.max_eq_right (by omega),
      List.length_append, List.length_singleton, Nat.add_assoc]
  · rw [List.append_nil, hplace]

/-- The place of a type reaches from its first mark or its name to its last. -/
theorem spans_typeRef (levels : Nat) : (typeRef levels).Spans TypeUse.place := by
  have hnamed : (typeRef.nullable typeRef.namedType).Spans TypeUse.place := by
    refine fun start => takesFrom_nullable (Nat.le_refl start) ?_
    refine .bind (spans_take _ _ start) fun name us hplace => .pure ?_
    rw [List.append_nil, hplace]
  cases levels with
  | zero =>
    refine fun start => .bind_peek? fun next => ?_
    split
    next => exact .refuse
    next => exact hnamed start
  | succ levels =>
    refine Spans.ifNext (fun start => takesFrom_nullable (Nat.le_add_right start 1) ?_) hnamed
    refine .committed (.bind (.of_takes (takes_typeRef levels)) fun element us _ => ?_)
    refine .bind (.expect .rightBracket) fun stop vs ⟨hstop, hlength⟩ => .pure ?_
    rw [hstop, union_marks, List.append_nil, List.length_append, hlength]

theorem spans_typeUse : typeUse.Spans TypeUse.place := spans_typeRef nestingLimit

/-- A directive application ends with its arguments or, if it has none, with its name. -/
theorem spans_directiveUse (start : Nat) :
    (directiveUse ⟨start, start + 1⟩).TakesFrom (start + 1) fun use taken =>
      use.place = ⟨start, start + 1 + taken.length⟩ := by
  refine .bind (TakesFrom.take _ _) fun name us ⟨hname, hus⟩ => ?_
  refine .bind (takesFrom_delimited takes_argument nil_not_mem_argument)
    fun ⟨arguments, block⟩ vs hblock => .pure ?_
  rw [List.append_nil, List.length_append, hus]
  cases block with
  | none =>
    obtain rfl : vs = [] := hblock
    rw [Option.getD_none, hname, Extent.union_mk, Nat.min_eq_left (by omega),
      Nat.max_eq_right (by omega)]
    rfl
  | some block =>
    obtain rfl : block = _ := hblock
    rw [Option.getD_some, hus, Extent.union_mk, Nat.min_eq_left (by omega),
      Nat.max_eq_right (by omega), Nat.add_assoc (start + 1)]

theorem spans_directiveUse? (start : Nat) : directiveUse?.TakesFrom start fun result taken =>
    result.elim (taken = []) fun use => use.place = ⟨start, start + taken.length⟩ := by
  refine .ifNext (.map (.committed ((spans_directiveUse start).mono fun use taken hplace => ?_)))
    (.pure rfl)
  rw [Option.elim_some, hplace, List.length_cons, Nat.add_right_comm, Nat.add_assoc]

/-- Directive applications are read one after the other. -/
theorem reaches_directives : directives.ReachesEnd fun uses => uses.map DirectiveUse.place := by
  have hstep (start : Nat) : directiveUse?.TakesFrom start fun result taken =>
      result.elim (taken = []) fun use =>
        use.place = ⟨start, start + taken.length⟩ ∧ taken ≠ [] := by
    refine ((spans_directiveUse? start).and_takes takes_directiveUse?).mono
      fun result taken ⟨hplace, hspelling⟩ => ?_
    cases result with
    | none => exact hplace
    | some use =>
      exact ⟨hplace, fun hnil => nil_not_mem_directiveUse use (hnil ▸ hspelling.1)⟩
  refine fun start => (TakesFrom.collect hstep fun _ _ h => h.2 rfl).mono fun uses taken h => ?_
  obtain ⟨us, vs, hus, rfl, rfl⟩ := h
  rw [List.append_nil]
  exact (hus.mono fun _ _ _ h => h.1).reaches

/-- The last of some names with a mark between them ends where they end. -/
theorem takesFrom_names (expectation : Expectation) (between : Punctuator) :
    (separated between (name expectation)).TakesFrom start fun names taken =>
      ∃ last ∈ names.getLast?, last.place.EndsAt start taken.length := by
  refine takesFrom_separated (spans_take _ _) ((takes_name expectation).mono ?_)
  rintro name _ htaken rfl
  exact nil_not_mem_word htaken

/-- A place that ends with what is read behind some tokens reaches its end together with them. -/
theorem reaches_last {names : List (Located Extent String)} {skipped length : Nat}
    (h : ∃ last ∈ names.getLast?, last.place.EndsAt (start + skipped) length) :
    Extent.ReachesEnd start (skipped + length) (names.getLast?.map Located.place).toList := by
  obtain ⟨last, hlast, hends⟩ := h
  rw [Option.mem_def.mp hlast]
  exact .single hends.after

/-- The last interface ends the interfaces. -/
theorem reaches_interfaces :
    interfaces.ReachesEnd fun names => (names.getLast?.map Located.place).toList := by
  intro start
  refine .bind (.of_takes (.eatWord _)) fun eaten us hu => ?_
  cases eaten with
  | false =>
    obtain rfl : us = [] := hu
    exact .pure (.nil start)
  | true =>
    refine .committed (.bind (.of_takes (takes_optional .amp)) fun _ vs _ => ?_)
    refine (takesFrom_names _ .amp).mono fun names ws h => ?_
    rw [Nat.add_assoc, ← List.length_append] at h
    have hlength : (us ++ (vs ++ ws)).length = (us ++ vs).length + ws.length := by
      rw [← List.append_assoc, List.length_append]
    rw [hlength]
    exact reaches_last h

/-- The last member ends the members. -/
theorem reaches_unionMembers :
    unionMembers.ReachesEnd fun names => (names.getLast?.map Located.place).toList := by
  refine fun start => .ifNext (.bind (.of_takes (takes_optional .pipe)) fun _ us _ => ?_)
    (.pure (.nil start))
  refine (takesFrom_names _ .pipe).mono fun names vs h => ?_
  rw [Nat.add_assoc] at h
  have hlength : (Token.punctuator .equals :: (us ++ vs)).length = 1 + us.length + vs.length := by
    rw [List.length_cons, List.length_append]
    omega
  rw [hlength]
  exact reaches_last h

/-- The places by which that of a type is extended beyond its name. -/
def typeEnds (read : List (DirectiveUse Extent) × TypeBody Extent × Option Extent) : List Extent :=
  read.1.map DirectiveUse.place ++ [read.2.1.interfaces.getLast?.map Located.place,
    read.2.1.members.getLast?.map Located.place, read.2.2].reduceOption

theorem mem_typeEnds {read : List (DirectiveUse Extent) × TypeBody Extent × Option Extent}
    {place : Extent} : place ∈ typeEnds read ↔
      place ∈ (read.2.1.interfaces.getLast?.map Located.place).toList ++
        (read.1.map DirectiveUse.place ++
          ((read.2.1.members.getLast?.map Located.place).toList ++ read.2.2.toList)) := by
  simp only [typeEnds, List.mem_append, List.reduceOption_mem_iff, List.mem_cons,
    List.not_mem_nil, or_false, Option.mem_toList, eq_comm (a := some place)]
  exact or_left_comm

theorem typePlace_eq (place : Extent) (directives : List (DirectiveUse Extent))
    (body : TypeBody Extent) (block : Option Extent) :
    typePlace place directives body block =
      (typeEnds (directives, body, block)).foldl Extent.union place := by
  rw [typePlace, typeEnds, List.foldl_append, List.foldl_map, directivesPlace]

/-- The interfaces, directives and fields of an object or interface type. -/
theorem reaches_composite {make : List (Located Extent String) → List (Field Extent) →
      TypeBody Extent} (hinterfaces : ∀ names fields, (make names fields).interfaces = names)
    (hmembers : ∀ names fields, (make names fields).members = []) :
    ReachesEnd (do
      let interfaces ← interfaces
      let directives ← directives
      let (fields, block) ← fields
      pure (directives, make interfaces fields, block)) typeEnds := by
  intro start
  refine .bind (reaches_interfaces start) fun names us hu => ?_
  refine .bind (reaches_directives _) fun uses vs hv => ?_
  refine .bind (reaches_delimited takes_field nil_not_mem_field _)
    fun ⟨fields, block⟩ ws hw => .pure ?_
  rw [List.append_nil, List.length_append, List.length_append]
  refine (hu.append (hv.append hw)).congr fun place => ?_
  rw [mem_typeEnds, hinterfaces, hmembers]
  rfl

/-- Directives and what else there is in a type without interfaces. -/
theorem reaches_simple {parser : Parser α} {ends : α → List Extent}
    {make : α → TypeBody Extent × Option Extent} (h : parser.ReachesEnd ends)
    (hinterfaces : ∀ value, (make value).1.interfaces = [])
    (hends : ∀ value, ends value =
      ((make value).1.members.getLast?.map Located.place).toList ++ (make value).2.toList) :
    ReachesEnd (do
      let directives ← directives
      let value ← parser
      pure (directives, make value)) typeEnds := by
  intro start
  refine .bind (reaches_directives start) fun uses us hu => ?_
  refine .bind (h _) fun value vs hv => .pure ?_
  rw [List.append_nil, List.length_append]
  refine (hu.append hv).congr fun place => ?_
  rw [mem_typeEnds, hinterfaces, hends]
  rfl

/-- What is read behind the name of a type ends with one of its parts. -/
theorem reaches_typeBody (kind : TypeKind) : (typeBody kind).ReachesEnd typeEnds := by
  cases kind with
  | object => exact reaches_composite (fun _ _ => rfl) fun _ _ => rfl
  | interface => exact reaches_composite (fun _ _ => rfl) fun _ _ => rfl
  | union =>
    refine reaches_simple reaches_unionMembers (fun _ => rfl) fun names => ?_
    exact (List.append_nil _).symm
  | enum =>
    exact reaches_simple (reaches_delimited takes_enumValue nil_not_mem_enumValue)
      (fun _ => rfl) fun _ => rfl
  | inputObject =>
    exact reaches_simple (reaches_delimited (takes_inputValue _) nil_not_mem_inputValue)
      (fun _ => rfl) fun _ => rfl
  | scalar =>
    refine fun start => .bind (reaches_directives start) fun uses us hu => .pure ?_
    rw [List.append_nil]
    exact hu.congr fun place => by rw [mem_typeEnds]; simp [TypeBody.interfaces, TypeBody.members]

section

variable {first : Nat} {place : Extent} (hfirst : place.first = first) (hle : first ≤ start)
  (hstop : place.stop ≤ start + 1)

include hfirst hle hstop

/-- The place at which a definition starts, extended by its keyword. -/
theorem union_keyword : place.union ⟨start, start + 1⟩ = ⟨first, start + 1⟩ := by
  rw [Extent.union, hfirst, Nat.min_eq_left hle, Nat.max_eq_right hstop]

/-- The place of a type declaration reaches from where the definition starts to the last of its
parts. -/
theorem spans_typeDeclaration (kind : TypeKind) (isExtension : Bool) :
    (typeDeclaration kind isExtension place).TakesFrom start fun declaration taken =>
      declaration.place = ⟨first, start + taken.length⟩ := by
  refine .bind (.expectWord _) fun keyword us ⟨hkeyword, hus⟩ => .committed ?_
  refine .bind (TakesFrom.take _ _) fun name vs ⟨hname, hvs⟩ => ?_
  refine .bind (reaches_typeBody kind _) fun ⟨uses, body, block⟩ ws hw => ?_
  dsimp only
  split
  next => exact .refuse
  next =>
    refine .pure ?_
    have hbefore : (place.union keyword).union name.place = ⟨first, start + 1 + 1⟩ := by
      rw [hkeyword, union_keyword hfirst hle hstop, hname, hus, Extent.union_mk,
        Nat.min_eq_left (by omega), Nat.max_eq_right (by omega)]
    rw [hus, hvs] at hw
    rw [hbefore, typePlace_eq, hw.foldl_union (hle.trans (by omega)) rfl]
    simp only [List.append_nil, List.length_append, hus, hvs, Nat.add_assoc]

/-- The place of a schema block reaches to its last operation or directive. -/
theorem spans_schemaBlock (isExtension : Bool) :
    (schemaBlock isExtension place).TakesFrom start fun schema taken =>
      schema.place = ⟨first, start + taken.length⟩ := by
  refine .bind (.expectWord _) fun keyword us ⟨hkeyword, hus⟩ => .committed ?_
  refine .bind (reaches_directives _) fun uses vs hv => ?_
  refine .bind (takesFrom_delimited takes_rootOperation nil_not_mem_rootOperation)
    fun ⟨operations, block⟩ ws hblock => ?_
  dsimp only at hblock ⊢
  split
  next => exact .refuse
  next =>
    refine .pure ?_
    rw [hus] at hv hblock
    have hbefore : directivesPlace (place.union keyword) uses =
        ⟨first, start + 1 + vs.length⟩ := by
      rw [directivesPlace, ← List.foldl_map (f := DirectiveUse.place), hkeyword,
        union_keyword hfirst hle hstop, hv.foldl_union (hle.trans (by omega)) rfl]
    rw [hbefore]
    simp only [List.append_nil, List.length_append, hus]
    cases block with
    | none =>
      obtain rfl : ws = [] := hblock
      simp only [Option.elim_none, List.length_nil, Nat.add_zero, Nat.add_assoc]
    | some block =>
      obtain rfl : block = _ := hblock
      rw [Option.elim_some, Extent.union_mk, Nat.min_eq_left (by omega),
        Nat.max_eq_right (by omega)]
      simp only [Nat.add_assoc]

/-- The place of a directive declaration reaches to its last location. -/
theorem spans_directiveDeclaration :
    (directiveDeclaration place).TakesFrom start fun declaration taken =>
      declaration.place = ⟨first, start + taken.length⟩ := by
  refine .bind (.expectWord _) fun keyword ss ⟨hkeyword, hss⟩ => .committed ?_
  refine .bind (.of_takes (.expect .atSign)) fun _ ts _ => ?_
  refine .bind (.of_takes (takes_name _)) fun name us _ => ?_
  refine .bind (.of_takes takes_argumentDefinitions) fun arguments vs _ => ?_
  refine .bind (.of_takes (.eatWord _)) fun isRepeatable ws _ => ?_
  refine .bind (.of_takes (.expectWord _)) fun _ xs _ => ?_
  refine .bind (.of_takes (.eat .pipe)) fun _ ys _ => ?_
  have hlocation : directiveLocation.Takes fun _ taken => taken ≠ [] :=
    takes_location.mono fun location _ htaken hnil => nil_not_mem_word (hnil ▸ htaken)
  refine .bind (takesFrom_separated (spans_take _ _) hlocation)
    fun locations zs ⟨last, hlast, hends⟩ => .pure ?_
  rw [Option.mem_def.mp hlast, Option.map_some, Option.getD_some, hkeyword,
    union_keyword hfirst hle hstop]
  obtain ⟨hstart, hend⟩ := hends
  rw [Extent.union, Extent.mk.injEq, hend]
  simp only [List.append_nil, List.length_append, hss] at hstart ⊢
  omega

theorem spans_extension : (extension place).TakesFrom start fun definition taken =>
    definition.place = ⟨first, start + taken.length⟩ := by
  refine .bind_peek? fun next => ?_
  split
  next => exact .map (spans_schemaBlock hfirst hle hstop true)
  next word _ =>
    split
    next kind _ => exact .map (spans_typeDeclaration hfirst hle hstop kind true)
    next => exact .refuse
  next => exact .refuse

theorem spans_describedDefinition (described : Option (Located Extent String)) :
    (describedDefinition place described).TakesFrom start fun definition taken =>
      definition.place = ⟨first, start + taken.length⟩ := by
  refine .bind_peek? fun next => ?_
  split
  next => exact .refuse
  next => exact .refuse
  next word =>
    split_ifs
    · exact .map (spans_schemaBlock hfirst hle hstop false)
    · exact .map (spans_directiveDeclaration hfirst hle hstop)
    · refine .bind (.expectWord _) fun _ us ⟨_, hus⟩ => ?_
      refine (spans_extension hfirst (by omega) (by omega)).mono fun definition taken hplace => ?_
      rw [hplace, List.length_append, Nat.add_assoc]
    · exact .refuse
    · split
      next kind _ => exact .map (spans_typeDeclaration hfirst hle hstop kind false)
      next => exact .refuse
  next => exact .refuse

end

/-- The place of a definition reaches from its description or its keyword to its last token. -/
theorem spans_definition : definition.Spans Definition.place := by
  intro start
  refine .bind (.take? _) fun described us hus => .bind_nextPlace ?_
  cases described with
  | none =>
    obtain rfl : us = [] := hus
    exact spans_describedDefinition rfl (Nat.le_refl start) (Nat.le_refl _) none
  | some written =>
    obtain ⟨hplace, hlength⟩ := hus
    have hfirst : written.place.first = start := congrArg Extent.first hplace
    have hstop : written.place.stop = start + 1 := congrArg Extent.stop hplace
    refine (spans_describedDefinition hfirst (by omega) (by omega) _).mono
      fun definition taken hwhole => ?_
    rw [hwhole, List.length_append, Nat.add_assoc]

end Parser

end SdlGraph
