import SdlGraph.Proofs.Document.Outline

/-!
# What parsers take, and where

`Parser.TakesFrom` relates the result of a parser to the tokens it has taken from a known position
on, so that the places in the result can be compared with the tokens. `Parser.Outlines` is the case
in which the parts of the result lie in these tokens, one after the other. Each way to combine
parsers has its rule for both, and what is known about the tokens alone carries over.
-/

namespace SdlGraph

namespace Parser

variable {α β : Type}

/-- Whenever a parser ends with a result, it has taken tokens from index `start` on that stand in a
relation to the result. -/
def TakesFrom (start : Nat) (parser : Parser α) (relation : α → List Token → Prop) : Prop :=
  ∀ cursor result later, cursor.index = start → parser cursor = .ok (result, later) →
    ∃ taken, relation result taken ∧ cursor.rest = taken ++ later.rest ∧
      later.index = start + taken.length

/-- Wherever a parser starts, the parts of its result lie in the tokens taken. -/
def Outlines (parser : Parser α) (parts : α → List (Outline Extent)) : Prop :=
  ∀ start, parser.TakesFrom start fun result taken => Outlined start taken (parts result)

namespace TakesFrom

variable {start : Nat} {parser : Parser α} {relation relation' : α → List Token → Prop}

theorem mono (h : parser.TakesFrom start relation)
    (himp : ∀ result taken, relation result taken → relation' result taken) :
    parser.TakesFrom start relation' := by
  intro cursor result later hstart hr
  obtain ⟨taken, ht, hrest, hindex⟩ := h cursor result later hstart hr
  exact ⟨taken, himp _ _ ht, hrest, hindex⟩

/-- What is taken does not depend on the position. -/
theorem of_takes (h : parser.Takes relation) : parser.TakesFrom start relation := by
  intro cursor result later hstart hr
  obtain ⟨taken, ht, hrest, hindex⟩ := h cursor result later hr
  exact ⟨taken, ht, hrest, hstart ▸ hindex⟩

/-- Two things known about the tokens taken. -/
theorem and_takes (h : parser.TakesFrom start relation) (h' : parser.Takes relation') :
    parser.TakesFrom start fun result taken => relation result taken ∧ relation' result taken := by
  intro cursor result later hstart hr
  obtain ⟨taken, ht, hrest, hindex⟩ := h cursor result later hstart hr
  obtain ⟨taken', ht', hrest', -⟩ := h' cursor result later hr
  obtain rfl : taken = taken' := List.append_cancel_right (hrest.symm.trans hrest')
  exact ⟨taken, ⟨ht, ht'⟩, hrest, hindex⟩

theorem pure {result : α} (h : relation result []) :
    TakesFrom start (Pure.pure result : Parser α) relation := by
  intro cursor result' later hstart hr
  cases hr
  exact ⟨[], h, rfl, hstart⟩

theorem refuse {obstacle : Obstacle} :
    (Parser.refuse obstacle : Parser α).TakesFrom start relation := by
  intro cursor result later _ hr
  cases hr

/-- Two things known about the tokens taken from the same position on. -/
theorem and (h : parser.TakesFrom start relation) (h' : parser.TakesFrom start relation') :
    parser.TakesFrom start fun result taken => relation result taken ∧ relation' result taken := by
  intro cursor result later hstart hr
  obtain ⟨taken, ht, hrest, hindex⟩ := h cursor result later hstart hr
  obtain ⟨taken', ht', hrest', -⟩ := h' cursor result later hstart hr
  obtain rfl : taken = taken' := List.append_cancel_right (hrest.symm.trans hrest')
  exact ⟨taken, ⟨ht, ht'⟩, hrest, hindex⟩

/-- What is taken by one parser and then, from the position it reaches, by the next. -/
theorem bind {next : α → Parser β} {relation' : β → List Token → Prop}
    (h : parser.TakesFrom start relation)
    (hnext : ∀ result us, relation result us → (next result).TakesFrom (start + us.length)
      fun result' vs => relation' result' (us ++ vs)) :
    (parser >>= next).TakesFrom start relation' := by
  intro cursor result' later hstart hr
  simp only [Bind.bind] at hr
  split at hr
  next result middle hp =>
    obtain ⟨us, hu, hrest, hindex⟩ := h cursor result middle hstart hp
    obtain ⟨vs, hv, hrest', hindex'⟩ := hnext result us hu middle result' later hindex hr
    refine ⟨us ++ vs, hv, by rw [hrest, hrest', List.append_assoc], ?_⟩
    rw [hindex', List.length_append, Nat.add_assoc]
  next => cases hr

theorem map {change : α → β} {relation' : β → List Token → Prop}
    (h : parser.TakesFrom start fun result taken => relation' (change result) taken) :
    (change <$> parser).TakesFrom start relation' :=
  bind h fun result us hu => pure (by rwa [List.append_nil])

/-- The place looked at is that of the token the parser starts at. -/
theorem bind_nextPlace {next : Extent → Parser α}
    (h : (next ⟨start, start + 1⟩).TakesFrom start relation) :
    (Parser.nextPlace >>= next).TakesFrom start relation := by
  intro cursor result later hstart hr
  subst hstart
  exact h cursor result later rfl hr

/-- Looking at the next token takes nothing. -/
theorem bind_peek? {next : Option Token → Parser α}
    (h : ∀ token, (next token).TakesFrom start relation) :
    (Parser.peek? >>= next).TakesFrom start relation :=
  fun cursor result later hstart hr => h _ cursor result later hstart hr

theorem committed (h : parser.TakesFrom start relation) :
    (Parser.committed parser).TakesFrom start relation := by
  intro cursor result later hstart hr
  unfold Parser.committed at hr
  split at hr
  next answer hp =>
    cases hr
    exact h cursor result later hstart hp
  next => cases hr

/-- A token has the place at which it is taken. -/
theorem take? (value? : Token → Option α) :
    (Parser.take? value?).TakesFrom start fun result taken =>
      result.elim (taken = []) fun read =>
        read.place = ⟨start, start + 1⟩ ∧ taken.length = 1 := by
  intro cursor result later hstart hr
  subst hstart
  unfold Parser.take? at hr
  split at hr
  next =>
    cases hr
    exact ⟨[], rfl, rfl, rfl⟩
  next token rest hrest =>
    split at hr
    next value hv =>
      cases hr
      exact ⟨[token], ⟨rfl, rfl⟩, hrest, rfl⟩
    next =>
      cases hr
      exact ⟨[], rfl, rfl, rfl⟩

theorem take (expectation : Expectation) (value? : Token → Option α) :
    (Parser.take expectation value?).TakesFrom start fun read taken =>
      read.place = ⟨start, start + 1⟩ ∧ taken.length = 1 := by
  refine bind (take? value?) fun result us hu => ?_
  cases result with
  | none => exact refuse
  | some read => exact pure (by simpa using hu)

theorem expect (mark : Punctuator) : (Parser.expect mark).TakesFrom start fun place taken =>
    place = ⟨start, start + 1⟩ ∧ taken.length = 1 := map (take _ _)

theorem expectWord (word : String) : (Parser.expectWord word).TakesFrom start fun place taken =>
    place = ⟨start, start + 1⟩ ∧ taken.length = 1 := map (take _ _)

/-- The way behind a mark knows where the parser starts. -/
theorem ifNext {mark : Punctuator} {yes : Extent → Parser α} {no : Parser α}
    (hyes : (yes ⟨start, start + 1⟩).TakesFrom (start + 1)
      fun result taken => relation result (.punctuator mark :: taken))
    (hno : no.TakesFrom start relation) : (Parser.ifNext mark yes no).TakesFrom start relation := by
  have heat : (Parser.eat mark).TakesFrom start fun place? taken =>
      place?.elim True fun place => place = ⟨start, start + 1⟩ :=
    map ((take? _).mono fun result taken hr => by
      cases result with
      | none => trivial
      | some read => exact hr.1)
  refine bind (heat.and_takes (Takes.eat mark)) fun place? us ⟨hplace, hu⟩ => ?_
  cases place? with
  | some place =>
    obtain rfl : place = _ := hplace
    obtain rfl : us = _ := hu
    exact hyes
  | none =>
    obtain rfl : us = _ := hu
    exact hno

variable {step : Parser (Option α)} {item : Nat → List Token → α → Prop}
  {ending : Nat → List Token → Prop}

/-- A repetition takes its items in consecutive runs, and then what its step takes at the end. -/
theorem collect (hstep : ∀ start, step.TakesFrom start fun result taken =>
      result.elim (ending start taken) (item start taken))
    (hne : ∀ start value, ¬item start [] value) :
    (Parser.collect step).TakesFrom start fun values taken => ∃ us vs,
      Consecutive item start us values ∧ ending (start + us.length) vs ∧ taken = us ++ vs := by
  intro cursor values last hstart hr
  fun_induction Parser.collect step cursor generalizing start values last with
  | case1 cursor refusal h => cases hr
  | case2 cursor later h =>
    cases hr
    obtain ⟨vs, hv, hrest, hindex⟩ := hstep start cursor none later hstart h
    exact ⟨vs, ⟨[], vs, .nil start, hv, rfl⟩, hrest, hindex⟩
  | case3 cursor value later h hlt refusal hc ih => cases hr
  | case4 cursor value later h hlt values' last' hc ih =>
    cases hr
    obtain ⟨us, hu, hrest, hindex⟩ := hstep start cursor (some value) later hstart h
    obtain ⟨taken, ⟨vs, ws, hvs, hws, rfl⟩, hrest', hindex'⟩ := ih _ _ hindex hc
    rw [Nat.add_assoc, ← List.length_append] at hws
    refine ⟨us ++ (vs ++ ws), ⟨us ++ vs, ws, .cons hu hvs, hws, ?_⟩, ?_, ?_⟩
    · rw [List.append_assoc]
    · rw [hrest, hrest', ← List.append_assoc]
    · rw [hindex', Nat.add_assoc, ← List.length_append]
  | case5 cursor value later h hlt =>
    obtain ⟨us, hu, hrest, -⟩ := hstep start cursor (some value) later hstart h
    have hlength := congrArg List.length hrest
    rw [List.length_append] at hlength
    have hempty : us = [] := List.length_eq_zero_iff.mp (by omega)
    exact absurd (hempty ▸ hu) (hne start value)

end TakesFrom

namespace Outlines

variable {parser : Parser α} {step : Parser (Option α)} {outline : α → Outline Extent}
  {between opening close : Punctuator} {start : Nat}

/-- A repetition outlines its items. -/
theorem collect (h : step.Outlines fun result => result.toList.map outline) :
    (Parser.collect step).Outlines (List.map outline) := by
  intro start
  have hstep (start : Nat) : step.TakesFrom start fun result taken =>
      result.elim True fun value => Outlined start taken [outline value] := by
    refine (h start).mono fun result taken hresult => ?_
    cases result with
    | none => trivial
    | some value => exact hresult
  refine (TakesFrom.collect hstep fun _ _ h => h.ne_nil rfl).mono fun values taken htaken => ?_
  obtain ⟨us, vs, hus, -, rfl⟩ := htaken
  exact hus.outlined.skip

theorem unlessNext (h : parser.Outlines fun value => [outline value]) :
    (Parser.unlessNext close parser).Outlines fun result => result.toList.map outline := by
  intro start
  refine .bind_peek? fun next => ?_
  split
  next => exact .pure (.nil _ _)
  next => exact .map (h start)

theorem upTo (h : parser.Outlines fun value => [outline value]) :
    (Parser.upTo close parser).Outlines fun read => read.1.map outline := by
  intro start
  refine .bind (h.unlessNext.collect start) fun items us hu => ?_
  exact .bind (.of_takes (.expect close)) fun stop vs _ => .pure hu.skip

theorem following {next : Extent → Parser α}
    (h : ∀ place, (next place).Outlines fun value => [outline value]) :
    (Parser.following between next).Outlines fun result => result.toList.map outline := by
  intro start
  refine .ifNext (.map ((h _ _).mono fun value taken hvalue => ?_)) (.pure (.nil _ _))
  exact hvalue.behind

theorem delimited (h : parser.Outlines fun value => [outline value]) :
    (Parser.delimited opening close parser).Outlines fun read => read.1.map outline := by
  intro start
  refine .ifNext (.committed (.bind (h _) fun first us hu => ?_)) (.pure (.nil _ _))
  refine .bind (h.upTo _) fun ⟨more, stop⟩ vs hv => .pure ?_
  rw [List.append_nil]
  exact (hu.append hv).behind

theorem separated (h : parser.Outlines fun value => [outline value]) :
    (Parser.separated between parser).Outlines (List.map outline) := by
  intro start
  refine .bind (h start) fun first us hu => ?_
  refine .bind ((following fun _ => h).collect _) fun rest vs hv => .pure ?_
  rw [List.append_nil]
  exact hu.append hv

/-- All that a parser takes is one part of a document. -/
theorem part {parts : α → List (Outline Extent)} {spelling : α → Language Token}
    {fine : α → Prop} (htakes : parser.Takes fun value taken => taken ∈ spelling value ∧ fine value)
    (hne : ∀ value, [] ∉ spelling value) (h : parser.Outlines parts) :
    parser.Outlines fun value => [.part none (spelling value) (parts value)] := by
  intro start
  refine ((h start).and_takes htakes).mono fun value taken ⟨hparts, hspelling, _⟩ => ?_
  exact hparts.part (fun hnil => hne value (hnil ▸ hspelling)) hspelling (by simp)

end Outlines

end Parser

end SdlGraph
