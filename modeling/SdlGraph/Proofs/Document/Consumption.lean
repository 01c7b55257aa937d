import SdlGraph.Proofs.Document.Membership

/-!
# What parsers take

A parser that ends with a result has taken some tokens from the front of the rest. `Parser.Takes`
relates the result to the tokens taken, and each primitive and each way to combine parsers has a
rule for it, so that what a construct takes follows from what its parts take. The repetitions take
the spellings of their items one after the other.
-/

namespace SdlGraph

open Spelling

namespace Parser

variable {α β : Type}

/-- Whenever a parser ends with a result, it has taken tokens that stand in a relation to it. -/
def Takes (parser : Parser α) (relation : α → List Token → Prop) : Prop :=
  ∀ cursor result later, parser cursor = .ok (result, later) →
    ∃ taken, relation result taken ∧ cursor.rest = taken ++ later.rest ∧
      later.index = cursor.index + taken.length

namespace Takes

variable {parser : Parser α} {relation relation' : α → List Token → Prop}

theorem mono (h : parser.Takes relation)
    (himp : ∀ result taken, relation result taken → relation' result taken) :
    parser.Takes relation' := by
  intro cursor result later hr
  obtain ⟨taken, ht, hrest, hindex⟩ := h cursor result later hr
  exact ⟨taken, himp _ _ ht, hrest, hindex⟩

theorem pure {result : α} (h : relation result []) :
    Takes (Pure.pure result : Parser α) relation := by
  intro cursor result' later hr
  cases hr
  exact ⟨[], h, rfl, rfl⟩

/-- What is taken by one parser and then by the next. -/
theorem bind {next : α → Parser β} {relation' : β → List Token → Prop}
    (h : parser.Takes relation)
    (hnext : ∀ result us, relation result us →
      (next result).Takes fun result' vs => relation' result' (us ++ vs)) :
    (parser >>= next).Takes relation' := by
  intro cursor result' later hr
  simp only [Bind.bind] at hr
  split at hr
  next result middle hp =>
    obtain ⟨us, hu, hrest, hindex⟩ := h cursor result middle hp
    obtain ⟨vs, hv, hrest', hindex'⟩ := hnext result us hu middle result' later hr
    refine ⟨us ++ vs, hv, by rw [hrest, hrest', List.append_assoc], ?_⟩
    rw [hindex', hindex, List.length_append]
    omega
  next => cases hr

theorem map {change : α → β} {relation' : β → List Token → Prop}
    (h : parser.Takes fun result taken => relation' (change result) taken) :
    (change <$> parser).Takes relation' :=
  bind h fun result us hu => pure (by rwa [List.append_nil])

theorem refuse {obstacle : Obstacle} : (Parser.refuse obstacle : Parser α).Takes relation := by
  intro cursor result later hr
  cases hr

theorem nextPlace : Parser.nextPlace.Takes fun _ taken => taken = [] := by
  intro cursor result later hr
  cases hr
  exact ⟨[], rfl, rfl, rfl⟩

theorem peek? : Parser.peek?.Takes fun _ taken => taken = [] := by
  intro cursor result later hr
  cases hr
  exact ⟨[], rfl, rfl, rfl⟩

/-- Looking at the place of the next token takes nothing. -/
theorem bind_nextPlace {next : Extent → Parser α} (h : ∀ place, (next place).Takes relation) :
    (Parser.nextPlace >>= next).Takes relation := by
  refine bind nextPlace fun place us hu => ?_
  rw [hu]
  exact h place

/-- Looking at the next token takes nothing. -/
theorem bind_peek? {next : Option Token → Parser α} (h : ∀ token, (next token).Takes relation) :
    (Parser.peek? >>= next).Takes relation := by
  refine bind peek? fun token us hu => ?_
  rw [hu]
  exact h token

theorem committed (h : parser.Takes relation) : (Parser.committed parser).Takes relation := by
  intro cursor result later hr
  unfold Parser.committed at hr
  split at hr
  next answer hp =>
    cases hr
    exact h cursor result later hp
  next => cases hr

/-- A token is taken if it has the value asked for, and nothing otherwise. -/
theorem take? (value? : Token → Option α) : (Parser.take? value?).Takes fun result taken =>
    result.elim (taken = []) fun read =>
      ∃ token, value? token = some read.value ∧ taken = [token] := by
  intro cursor result later hr
  unfold Parser.take? at hr
  split at hr
  next =>
    cases hr
    exact ⟨[], rfl, rfl, rfl⟩
  next token rest hrest =>
    split at hr
    next value hv =>
      cases hr
      exact ⟨[token], ⟨token, hv, rfl⟩, hrest, rfl⟩
    next =>
      cases hr
      exact ⟨[], rfl, rfl, rfl⟩

theorem take {expectation : Expectation} (value? : Token → Option α) :
    (Parser.take expectation value?).Takes fun read taken =>
      ∃ token, value? token = some read.value ∧ taken = [token] := by
  refine bind (take? value?) fun result us hu => ?_
  cases result with
  | none => exact refuse
  | some read => exact pure (by simpa using hu)

/-- A mark has a place if it was next, and is taken then. -/
theorem eat (written : Punctuator) : (Parser.eat written).Takes fun place? taken =>
    place?.elim (taken = []) fun _ => taken = [.punctuator written] := by
  refine map ((take? _).mono fun result taken h => ?_)
  cases result with
  | none => exact h
  | some read =>
    obtain ⟨token, ht, rfl⟩ := h
    split at ht
    next he => rw [he]; rfl
    next => cases ht

/-- Which way is gone depends on whether a mark is next. -/
theorem ifNext {written : Punctuator} {yes : Extent → Parser α} {no : Parser α}
    (hyes : ∀ place, (yes place).Takes fun result taken =>
      relation result (.punctuator written :: taken))
    (hno : no.Takes relation) : (Parser.ifNext written yes no).Takes relation := by
  refine bind (eat written) fun place? us hu => ?_
  cases place? with
  | some place =>
    obtain rfl : us = _ := hu
    exact hyes place
  | none =>
    obtain rfl : us = _ := hu
    exact hno

theorem eatWord (written : String) : (Parser.eatWord written).Takes fun eaten taken =>
    taken = if eaten then [.name written] else [] := by
  refine map ((take? _).mono fun result taken h => ?_)
  cases result with
  | none => exact h
  | some read =>
    obtain ⟨token, ht, rfl⟩ := h
    split at ht
    next he => rw [he]; rfl
    next => cases ht

theorem expect (written : Punctuator) :
    (Parser.expect written).Takes fun _ taken => taken ∈ mark written := by
  refine map ((take _).mono fun result taken h => ?_)
  obtain ⟨token, ht, rfl⟩ := h
  split at ht
  next he => rw [he]; rfl
  next => cases ht

theorem expectWord (written : String) :
    (Parser.expectWord written).Takes fun _ taken => taken ∈ word written := by
  refine map ((take _).mono fun result taken h => ?_)
  obtain ⟨token, ht, rfl⟩ := h
  split at ht
  next he => rw [he]; rfl
  next => cases ht

variable {step : Parser (Option α)} {item : α → Language Token} {fine : α → Prop}
  {ending : List Token → Prop}

/-- A repetition takes the spellings of its items up to a point at which its step yields no more.
Each item has to take a token, so that the repetition cannot stop for lack of progress. -/
theorem collect_eq_ok (hstep : step.Takes fun result taken =>
      result.elim (ending taken) fun value => taken ∈ item value ∧ fine value)
    (hne : ∀ value, [] ∉ item value) {cursor last : Cursor} {values : List α}
    (hr : Parser.collect step cursor = .ok (values, last)) :
    (∀ value ∈ values, fine value) ∧ ∃ us ∈ each item values, ∃ stop : Cursor,
      cursor.rest = us ++ stop.rest ∧ stop.index = cursor.index + us.length ∧
        step stop = .ok (none, last) := by
  fun_induction Parser.collect step cursor generalizing values last with
  | case1 cursor refusal h => cases hr
  | case2 cursor later h =>
    cases hr
    exact ⟨List.forall_mem_nil _, [], mem_each_nil.mpr rfl, cursor, rfl, rfl, h⟩
  | case3 cursor value later h hlt refusal hc ih => cases hr
  | case4 cursor value later h hlt values' last' hc ih =>
    cases hr
    obtain ⟨us, ⟨hu, hfine⟩, hrest, hindex⟩ := hstep cursor (some value) later h
    obtain ⟨hfines, vs, hvs, stop, hrest', hindex', hstop⟩ := ih hc
    refine ⟨List.forall_mem_cons.mpr ⟨hfine, hfines⟩, us ++ vs,
      mem_each_cons.mpr ⟨us, hu, vs, hvs, rfl⟩, stop, ?_, ?_, hstop⟩
    · rw [hrest, hrest', List.append_assoc]
    · rw [hindex', hindex, List.length_append]
      omega
  | case5 cursor value later h hlt =>
    obtain ⟨us, ⟨hu, -⟩, hrest, -⟩ := hstep cursor (some value) later h
    have hlength : cursor.rest.length = us.length + later.rest.length := by
      rw [hrest, List.length_append]
    have hempty : us = [] := List.length_eq_zero_iff.mp (by omega)
    exact absurd (hempty ▸ hu) (hne value)

/-- A repetition takes the spellings of its items and then what its step takes at the end. -/
theorem collect (hstep : step.Takes fun result taken =>
      result.elim (ending taken) fun value => taken ∈ item value ∧ fine value)
    (hne : ∀ value, [] ∉ item value) :
    (Parser.collect step).Takes fun values taken => (∀ value ∈ values, fine value) ∧
      ∃ us ∈ each item values, ∃ vs, ending vs ∧ taken = us ++ vs := by
  intro cursor values last hr
  obtain ⟨hfine, us, hu, stop, hrest, hindex, hstop⟩ := collect_eq_ok hstep hne hr
  obtain ⟨vs, hv, hrest', hindex'⟩ := hstep stop none last hstop
  refine ⟨us ++ vs, ⟨hfine, us, hu, vs, hv, rfl⟩, ?_, ?_⟩
  · rw [hrest, hrest', List.append_assoc]
  · rw [hindex', hindex, List.length_append]
    omega

/-- At a closing mark nothing is taken. -/
theorem unlessNext {close : Punctuator} (h : parser.Takes relation) :
    (Parser.unlessNext close parser).Takes fun result taken =>
      result.elim (taken = []) fun value => relation value taken := by
  refine bind_peek? fun next => ?_
  split
  next => exact pure rfl
  next => exact map h

/-- Items up to a closing mark are taken together with the mark. -/
theorem upTo {close : Punctuator}
    (h : parser.Takes fun value taken => taken ∈ item value ∧ fine value)
    (hne : ∀ value, [] ∉ item value) :
    (Parser.upTo close parser).Takes fun read taken =>
      (∀ value ∈ read.1, fine value) ∧ taken ∈ [each item read.1, mark close].prod := by
  refine bind (collect (unlessNext h) hne) fun items us hu => ?_
  obtain ⟨hfine, us, hus, vs, rfl, rfl⟩ := hu
  refine bind (expect close) fun place ws hw => pure ⟨hfine, ?_⟩
  rw [List.append_nil]
  exact append_mem_prod hus (append_mem_prod hw nil_mem_prod)

/-- What follows a mark is taken together with it. -/
theorem following {between : Punctuator} {next : Extent → Parser α}
    {relation : α → List Token → Prop} (h : ∀ place, (next place).Takes relation) :
    (Parser.following between next).Takes fun result taken =>
      result.elim (taken = []) fun value =>
        ∃ us, relation value us ∧ taken = .punctuator between :: us := by
  refine ifNext (fun place => map ((h place).mono fun value taken hv => ?_)) (pure rfl)
  exact ⟨taken, hv, rfl⟩

/-- Items that each follow a mark are taken together with their marks. -/
theorem collect_following {between : Punctuator}
    (h : parser.Takes fun value taken => taken ∈ item value ∧ fine value) :
    (Parser.collect (Parser.following between fun _ => parser)).Takes fun values taken =>
      (∀ value ∈ values, fine value) ∧
        taken ∈ each (fun value => mark between * item value) values := by
  have hstep : (Parser.following between fun _ => parser).Takes fun result taken =>
      result.elim (taken = []) fun value =>
        taken ∈ mark between * item value ∧ fine value := by
    refine (following fun _ => h).mono fun result taken hr => ?_
    cases result with
    | none => exact hr
    | some value =>
      obtain ⟨us, ⟨hu, hfine⟩, rfl⟩ := hr
      exact ⟨Language.mem_mul.mpr ⟨_, mem_mark.mpr rfl, us, hu, rfl⟩, hfine⟩
  have hne : ∀ value, [] ∉ mark between * item value := by
    intro value hm
    obtain ⟨us, hu, vs, -, he⟩ := Language.mem_mul.mp hm
    rw [mem_mark.mp hu] at he
    cases he
  refine (collect hstep hne).mono fun values taken hv => ?_
  obtain ⟨hfine, us, hus, vs, rfl, rfl⟩ := hv
  exact ⟨hfine, by rwa [List.append_nil]⟩

/-- A list between marks is taken as its spelling, and it has a place if it is not empty. -/
theorem delimited {opening close : Punctuator}
    (h : parser.Takes fun value taken => taken ∈ item value ∧ fine value)
    (hne : ∀ value, [] ∉ item value) :
    (Parser.delimited opening close parser).Takes fun read taken =>
      (∀ value ∈ read.1, fine value) ∧ taken ∈ block item opening close read.1 ∧
        (read.2 = none ↔ read.1 = []) := by
  refine ifNext (fun place => committed ?_)
    (pure ⟨List.forall_mem_nil _, mem_block_nil.mpr rfl, iff_of_true rfl rfl⟩)
  refine bind h fun first us ⟨hu, hfine⟩ => ?_
  refine bind (upTo h hne) fun ⟨more, stop⟩ vs ⟨hfines, hv⟩ => ?_
  obtain ⟨ws, hw, _, hmark, rfl⟩ := mem_prod_cons.mp hv
  rw [mem_prod_singleton, mem_mark] at hmark
  refine pure ⟨List.forall_mem_cons.mpr ⟨hfine, hfines⟩, ?_, ?_⟩
  · refine (mem_block (List.cons_ne_nil _ _)).mpr
      ⟨us ++ ws, mem_each_cons.mpr ⟨us, hu, ws, hw, rfl⟩, ?_⟩
    rw [hmark, List.append_nil, List.append_assoc]
    rfl
  · exact iff_of_false (Option.some_ne_none _) (List.cons_ne_nil _ _)

/-- A list with marks between its items is taken as its spelling. -/
theorem separated {between : Punctuator}
    (h : parser.Takes fun value taken => taken ∈ item value ∧ fine value) :
    (Parser.separated between parser).Takes fun values taken => values ≠ [] ∧
      (∀ value ∈ values, fine value) ∧ taken ∈ Spelling.separated item between values := by
  refine bind h fun first us ⟨hu, hfine⟩ => ?_
  refine bind (collect_following h) fun rest vs ⟨hfines, hv⟩ => ?_
  refine pure ⟨List.cons_ne_nil _ _, List.forall_mem_cons.mpr ⟨hfine, hfines⟩, ?_⟩
  exact append_mem_prod hu (append_mem_prod hv nil_mem_prod)

end Takes

end Parser

end SdlGraph
