import Mathlib.Computability.MyhillNerode
import SdlGraph.Proofs.Document.Consumption

/-!
# Parsers refuse at the first token that cannot go on

What a parser makes of a token list is settled by the tokens it takes and the one behind them. If it
refuses, then at the token behind what it has taken, and what it has taken can still be continued to
something in order. `Parser.Predicts` states both, and each primitive and each way to combine
parsers has a rule for it. In `Parser.Follows` the tokens are those of a language. Behind the tokens
of one part, the next one follows what can still stand there, the left quotient of the language by
these tokens.
-/

namespace SdlGraph

open Spelling
open scoped Computability

/-- An obstacle that can be met before some tokens: an executable definition and a nesting that is
too deep start with a token, and the absence of definitions is told before anything is read. -/
def Obstacle.Fits (after : List Token) : Obstacle → Prop
  | .expected _ => True
  | .executable => after ≠ []
  | .tooDeep => after ≠ []
  | .noDefinitions => False

namespace Spelling

variable {σ : Type} {item : σ → Language Token} {fine : σ → Prop} {ts : List Token}

/-- The spellings of all things that are in order. -/
def spelled (item : σ → Language Token) (fine : σ → Prop) : Language Token :=
  {ts | ∃ value, fine value ∧ ts ∈ item value}

theorem nil_not_mem_spelled (h : ∀ value, [] ∉ item value) : [] ∉ spelled item fine := by
  rintro ⟨value, -, hnil⟩
  exact h value hnil

/-- Spellings one after the other spell a list. -/
theorem mem_spelled_each (h : ts ∈ (spelled item fine)∗) :
    ts ∈ spelled (each item) fun values => ∀ value ∈ values, fine value := by
  obtain ⟨parts, rfl, hparts⟩ := Language.mem_kstar.mp h
  clear h
  induction parts with
  | nil => exact ⟨[], List.forall_mem_nil _, mem_each_nil.mpr rfl⟩
  | cons us parts ih =>
    obtain ⟨⟨first, hfirst, hus⟩, hrest⟩ := List.forall_mem_cons.mp hparts
    obtain ⟨rest, hfine, hvs⟩ := ih hrest
    exact ⟨first :: rest, List.forall_mem_cons.mpr ⟨hfirst, hfine⟩,
      mem_each_cons.mpr ⟨us, hus, _, hvs, rfl⟩⟩

end Spelling

namespace Parser

variable {α β : Type}

/-- At an index before some tokens, a parser takes the first of them, and either its result is
related to these, or they are viable and it refuses behind them. The outcome is the same before all
tokens that start with the same one. -/
inductive PredictsAt (parser : Parser α) (relation : α → List Token → Prop)
    (viable : List Token → Prop) (index : Nat) : List Token → Prop where
  /-- The parser ends with a result. -/
  | ends {result : α} {taken after : List Token} (hrelation : relation result taken)
      (hsame : ∀ after', after'.head? = after.head? → parser ⟨index, taken ++ after'⟩ =
        .ok (result, ⟨index + taken.length, after'⟩)) :
      PredictsAt parser relation viable index (taken ++ after)
  /-- The parser refuses. -/
  | refuses {refusal : Refusal} {taken after : List Token} (hviable : viable taken)
      (hindex : refusal.index = index + taken.length) (hfits : refusal.obstacle.Fits after)
      (hsame : ∀ after', after'.head? = after.head? → parser ⟨index, taken ++ after'⟩ =
        .error refusal) :
      PredictsAt parser relation viable index (taken ++ after)

/-- A parser takes related or viable tokens, whatever the index and the tokens. -/
def Predicts (parser : Parser α) (relation : α → List Token → Prop)
    (viable : List Token → Prop) : Prop :=
  ∀ index rest, PredictsAt parser relation viable index rest

/-- Tokens with which some token list of a language starts. -/
def Viable (language : Language Token) (ts : List Token) : Prop := ∃ more, ts ++ more ∈ language

/-- A parser takes a token list of a language, or refuses behind the start of one. -/
structure Follows (parser : Parser α) (language : Language Token) : Prop where
  /-- There is something it may result in. -/
  result : Nonempty α
  /-- Where it ends or refuses. -/
  predicts : Predicts parser (fun _ taken => taken ∈ language) (Viable language)

namespace PredictsAt

variable {parser : Parser α} {relation relation' : α → List Token → Prop}
  {viable viable' : List Token → Prop} {index : Nat} {rest : List Token}

theorem mono (h : PredictsAt parser relation viable index rest)
    (hrelation : ∀ result taken, relation result taken → relation' result taken)
    (hviable : ∀ taken, viable taken → viable' taken) :
    PredictsAt parser relation' viable' index rest := by
  cases h with
  | ends hends hsame => exact .ends (hrelation _ _ hends) hsame
  | refuses hrefuses hindex hfits hsame => exact .refuses (hviable _ hrefuses) hindex hfits hsame

theorem refuse {obstacle : Obstacle} (hviable : viable []) (hfits : obstacle.Fits rest) :
    PredictsAt (Parser.refuse obstacle : Parser α) relation viable index rest := by
  have hsame : ∀ after', after'.head? = rest.head? →
      (Parser.refuse obstacle : Parser α) ⟨index, [] ++ after'⟩ = .error ⟨obstacle, index, none⟩ :=
    fun _ _ => rfl
  exact .refuses hviable rfl hfits hsame

theorem map {change : α → β} {relation' : β → List Token → Prop}
    (h : PredictsAt parser (fun result taken => relation' (change result) taken) viable index
      rest) :
    PredictsAt (change <$> parser) relation' viable index rest := by
  cases h with
  | @ends result taken after hends hsame =>
    have hsame' : ∀ after', after'.head? = after.head? →
        (change <$> parser) ⟨index, taken ++ after'⟩ =
          .ok (change result, ⟨index + taken.length, after'⟩) := by
      intro after' hafter
      simp only [Functor.map, hsame after' hafter]
      rfl
    exact .ends hends hsame'
  | @refuses refusal taken after hviable hindex hfits hsame =>
    refine .refuses hviable hindex hfits fun after' hafter => ?_
    simp only [Functor.map, hsame after' hafter]

theorem head?_append {us after after' : List Token} (h : after'.head? = after.head?) :
    (us ++ after').head? = (us ++ after).head? := by
  cases us with
  | nil => exact h
  | cons token us => rfl

/-- A parser that has taken some tokens and goes on like another one. -/
theorem ahead {next : Parser α} {us after : List Token}
    (hthen : ∀ after', after'.head? = after.head? →
      parser ⟨index, us ++ after'⟩ = next ⟨index + us.length, after'⟩)
    (h : PredictsAt next (fun result vs => relation result (us ++ vs)) (fun vs => viable (us ++ vs))
      (index + us.length) after) :
    PredictsAt parser relation viable index (us ++ after) := by
  generalize hmiddle : index + us.length = middle at hthen h
  cases h with
  | @ends result vs after hends hsame =>
    have hsame' : ∀ after', after'.head? = after.head? → parser ⟨index, us ++ vs ++ after'⟩ =
        .ok (result, ⟨index + (us ++ vs).length, after'⟩) := by
      intro after' hafter
      rw [List.append_assoc, hthen _ (head?_append hafter), hsame after' hafter,
        List.length_append, ← Nat.add_assoc, hmiddle]
    rw [← List.append_assoc]
    exact .ends hends hsame'
  | @refuses refusal vs after hviable hindex hfits hsame =>
    have hindex' : refusal.index = index + (us ++ vs).length := by
      rw [hindex, List.length_append, ← Nat.add_assoc, hmiddle]
    have hsame' : ∀ after', after'.head? = after.head? → parser ⟨index, us ++ vs ++ after'⟩ =
        .error refusal := by
      intro after' hafter
      rw [List.append_assoc, hthen _ (head?_append hafter), hsame after' hafter]
    rw [← List.append_assoc]
    exact .refuses hviable hindex' hfits hsame'

end PredictsAt

namespace Predicts

variable {parser : Parser α} {relation relation' : α → List Token → Prop}
  {viable viable' : List Token → Prop}

theorem mono (h : Predicts parser relation viable)
    (hrelation : ∀ result taken, relation result taken → relation' result taken)
    (hviable : ∀ taken, viable taken → viable' taken) : Predicts parser relation' viable' :=
  fun index rest => (h index rest).mono hrelation hviable

theorem pure {result : α} (h : relation result []) :
    Predicts (Pure.pure result : Parser α) relation viable := by
  intro index rest
  have hsame : ∀ after', after'.head? = rest.head? →
      (Pure.pure result : Parser α) ⟨index, [] ++ after'⟩ =
        .ok (result, ⟨index + ([] : List Token).length, after'⟩) := fun _ _ => rfl
  exact .ends h hsame

/-- What is known of all that a parser takes is known as well where it predicts. -/
theorem of_takes (h : Predicts parser relation viable) (htakes : parser.Takes relation') :
    Predicts parser (fun result taken => relation result taken ∧ relation' result taken)
      viable := by
  intro index rest
  cases h index rest with
  | @ends result taken after hends hsame =>
    obtain ⟨taken', hrelation, hrest, -⟩ := htakes _ _ _ (hsame after rfl)
    obtain rfl : taken = taken' := List.append_cancel_right hrest
    exact .ends ⟨hends, hrelation⟩ hsame
  | refuses hviable hindex hfits hsame => exact .refuses hviable hindex hfits hsame

/-- What one parser takes and then the next. A refusal of the first leaves viable tokens, and so
does one of the next behind what the first has taken. -/
theorem bind {next : α → Parser β} {relation' : β → List Token → Prop}
    (h : Predicts parser relation viable) (hviable : ∀ taken, viable taken → viable' taken)
    (hnext : ∀ result us, relation result us → Predicts (next result)
      (fun result' vs => relation' result' (us ++ vs)) fun vs => viable' (us ++ vs)) :
    Predicts (parser >>= next) relation' viable' := by
  intro index rest
  cases h index rest with
  | @ends result us after hends hsame =>
    refine .ahead (fun after' hafter => ?_) (hnext result us hends (index + us.length) after)
    simp only [Bind.bind, hsame after' hafter]
  | @refuses refusal us after hrefuses hindex hfits hsame =>
    refine .refuses (hviable us hrefuses) hindex hfits fun after' hafter => ?_
    simp only [Bind.bind, hsame after' hafter]

theorem map {change : α → β} {relation' : β → List Token → Prop}
    (h : Predicts parser (fun result taken => relation' (change result) taken) viable) :
    Predicts (change <$> parser) relation' viable := fun index rest => (h index rest).map

/-- Looking at the place of the next token settles nothing. -/
theorem bind_nextPlace {next : Extent → Parser α}
    (h : ∀ place, Predicts (next place) relation viable) :
    Predicts (Parser.nextPlace >>= next) relation viable := by
  intro index rest
  cases h ⟨index, index + 1⟩ index rest with
  | ends hends hsame => exact .ends hends hsame
  | refuses hviable hindex hfits hsame => exact .refuses hviable hindex hfits hsame

/-- What is done on sight of the next token. -/
theorem bind_peek? {next : Option Token → Parser α}
    (h : ∀ index rest, PredictsAt (next rest.head?) relation viable index rest) :
    Predicts (Parser.peek? >>= next) relation viable := by
  intro index rest
  have hthen (later : List Token) :
      (Parser.peek? >>= next) ⟨index, later⟩ = next later.head? ⟨index, later⟩ := rfl
  have hrest := h index rest
  generalize hhead : rest.head? = head at hrest
  cases hrest with
  | @ends result taken after hends hsame =>
    refine .ends hends fun after' hafter => ?_
    rw [hthen, PredictsAt.head?_append hafter, hhead]
    exact hsame after' hafter
  | @refuses refusal taken after hviable hindex hfits hsame =>
    refine .refuses hviable hindex hfits fun after' hafter => ?_
    rw [hthen, PredictsAt.head?_append hafter, hhead]
    exact hsame after' hafter

theorem committed (h : Predicts parser relation viable) :
    Predicts (Parser.committed parser) relation viable := by
  intro index rest
  cases h index rest with
  | ends hends hsame =>
    refine .ends hends fun after' hafter => ?_
    rw [Parser.committed, hsame after' hafter]
  | @refuses refusal taken after hviable hindex hfits hsame =>
    have hindex' : (refusal.within index).index = index + taken.length := hindex
    refine .refuses hviable hindex' hfits fun after' hafter => ?_
    rw [Parser.committed, hsame after' hafter]

/-- A token is taken if it has the value asked for, and nothing otherwise. Nothing is refused. -/
theorem take? (value? : Token → Option α) :
    Predicts (Parser.take? value?) (fun result taken => result.elim (taken = []) fun read =>
      ∃ token, value? token = some read.value ∧ taken = [token]) viable := by
  intro index rest
  cases rest with
  | nil =>
    have hsame : ∀ after' : List Token, after'.head? = ([] : List Token).head? →
        Parser.take? value? ⟨index, [] ++ after'⟩ =
          .ok (none, ⟨index + ([] : List Token).length, after'⟩) := by
      intro after' hafter
      obtain rfl := List.head?_eq_none_iff.mp hafter
      rfl
    refine .ends ?_ hsame
    rfl
  | cons token rest =>
    cases hvalue : value? token with
    | none =>
      have hsame : ∀ after' : List Token, after'.head? = (token :: rest).head? →
          Parser.take? value? ⟨index, [] ++ after'⟩ =
            .ok (none, ⟨index + ([] : List Token).length, after'⟩) := by
        intro after' hafter
        obtain ⟨later, rfl⟩ := List.head?_eq_some_iff.mp hafter
        simp [Parser.take?, hvalue]
      refine .ends ?_ hsame
      rfl
    | some value =>
      have hsame : ∀ after' : List Token, after'.head? = rest.head? →
          Parser.take? value? ⟨index, [token] ++ after'⟩ =
            .ok (some ⟨value, index, index + 1⟩, ⟨index + [token].length, after'⟩) := by
        intro after' _
        simp [Parser.take?, Cursor.nextPlace, hvalue]
      exact .ends ⟨token, hvalue, rfl⟩ hsame

/-- A token that must have a value is refused before anything is taken. -/
theorem take {expectation : Expectation} (value? : Token → Option α) (hviable : viable []) :
    Predicts (Parser.take expectation value?) (fun read taken =>
      ∃ token, value? token = some read.value ∧ taken = [token]) viable := by
  refine bind (take? value?) (fun _ hnever => hnever) fun result us hu => ?_
  cases result with
  | none =>
    obtain rfl : us = [] := hu
    exact fun index rest => .refuse hviable trivial
  | some read =>
    refine pure ?_
    rw [List.append_nil]
    exact hu

/-- What is told of a token that may be there is told without a refusal. -/
theorem map_take? (value? : Token → Option α) (change : Option (Located Extent α) → β) :
    Predicts (change <$> Parser.take? value?) (fun _ _ => True) viable :=
  map ((take? value?).mono (fun _ _ _ => trivial) fun _ hviable => hviable)

theorem eat (written : Punctuator) : Predicts (Parser.eat written) (fun place? taken =>
    place?.elim (taken = []) fun _ => taken = [.punctuator written]) viable :=
  ((map_take? _ _).of_takes (Takes.eat written)).mono (fun _ _ ht => ht.2) fun _ hviable => hviable

theorem eatWord (written : String) : Predicts (Parser.eatWord written) (fun eaten taken =>
    taken = if eaten then [.name written] else []) viable :=
  ((map_take? _ _).of_takes (Takes.eatWord written)).mono (fun _ _ ht => ht.2)
    fun _ hviable => hviable

/-- Which way is gone depends on whether a mark is next. -/
theorem ifNext {written : Punctuator} {yes : Extent → Parser α} {no : Parser α}
    (hyes : ∀ place, Predicts (yes place)
      (fun result taken => relation result (.punctuator written :: taken))
      fun taken => viable (.punctuator written :: taken))
    (hno : Predicts no relation viable) :
    Predicts (Parser.ifNext written yes no) relation viable := by
  refine bind (eat written) (fun _ hviable => hviable) fun place? us hu => ?_
  cases place? with
  | some place =>
    obtain rfl : us = _ := hu
    exact hyes place
  | none =>
    obtain rfl : us = _ := hu
    exact hno

/-- At a closing mark nothing is taken. -/
theorem unlessNext (close : Punctuator) (h : Predicts parser relation viable) :
    Predicts (Parser.unlessNext close parser) (fun result taken =>
      result.elim (taken = []) fun value => relation value taken) viable := by
  refine bind_peek? fun index rest => ?_
  have hstop : Predicts (Pure.pure none : Parser (Option α)) (fun result taken =>
      result.elim (taken = []) fun value => relation value taken) viable := pure rfl
  have hgo : Predicts (some <$> parser) (fun result taken =>
      result.elim (taken = []) fun value => relation value taken) viable := map h
  split
  next => exact hstop index rest
  next => exact hgo index rest

end Predicts

namespace Viable

variable {language other : Language Token} {us ts : List Token}

theorem mono (h : Viable language ts) (hle : ∀ us ∈ language, us ∈ other) : Viable other ts := by
  obtain ⟨more, hmore⟩ := h
  exact ⟨more, hle _ hmore⟩

/-- What is viable behind some tokens is viable together with them. -/
theorem append (h : Viable (language.leftQuotient us) ts) : Viable language (us ++ ts) := by
  obtain ⟨more, hmore⟩ := h
  exact ⟨more, by rwa [List.append_assoc]⟩

end Viable

namespace Follows

variable {parser : Parser α} {language other : Language Token}

theorem mono (h : parser.Follows language) (hle : ∀ ts ∈ language, ts ∈ other) :
    parser.Follows other :=
  ⟨h.result, h.predicts.mono (fun _ ts hts => hle ts hts) fun _ hviable => hviable.mono hle⟩

/-- There is something that a parser follows. -/
theorem nonempty (h : parser.Follows language) : ∃ ts, ts ∈ language := by
  have hat {rest : List Token} (hrest : PredictsAt parser (fun _ taken => taken ∈ language)
      (Viable language) 0 rest) : ∃ ts, ts ∈ language := by
    cases hrest with
    | ends hends _ => exact ⟨_, hends⟩
    | refuses hviable _ _ _ =>
      obtain ⟨more, hmore⟩ := hviable
      exact ⟨_, hmore⟩
  exact hat (h.predicts 0 [])

theorem pure {result : α} (h : [] ∈ language) : (Pure.pure result : Parser α).Follows language :=
  ⟨⟨result⟩, Predicts.pure h⟩

theorem refuse {expectation : Expectation} (hresult : Nonempty α) (h : ∃ ts, ts ∈ language) :
    (Parser.refuse (.expected expectation) : Parser α).Follows language :=
  ⟨hresult, fun _ _ => .refuse h trivial⟩

/-- One part after the other, where each token list of the first can be followed by the next. -/
theorem bind {next : α → Parser β} (h : parser.Follows language)
    (hnext : ∀ us ∈ language, ∀ result, (next result).Follows (other.leftQuotient us)) :
    (parser >>= next).Follows other := by
  obtain ⟨result⟩ := h.result
  obtain ⟨ts, hts⟩ := h.nonempty
  refine ⟨(hnext ts hts result).result, Predicts.bind h.predicts (fun us hus => ?_)
    fun result us hus => ?_⟩
  · obtain ⟨more, hmore⟩ := hus
    obtain ⟨vs, hvs⟩ := (hnext _ hmore result).nonempty
    exact ⟨more ++ vs, by rwa [← List.append_assoc]⟩
  · exact (hnext us hus result).predicts.mono (fun _ _ hvs => hvs) fun _ hvs => hvs.append

/-- One part after the other, where the next one relies on the result of the first. -/
theorem bind_of_takes {next : α → Parser β} {relation : α → List Token → Prop}
    (h : parser.Follows language) (htakes : parser.Takes relation)
    (hresult : Nonempty β) (hviable : ∀ us ∈ language, Viable other us)
    (hnext : ∀ result us, us ∈ language → relation result us →
      (next result).Follows (other.leftQuotient us)) :
    (parser >>= next).Follows other := by
  refine ⟨hresult, Predicts.bind (h.predicts.of_takes htakes) (fun us hus => ?_)
    fun result us hus => ?_⟩
  · obtain ⟨more, hmore⟩ := hus
    obtain ⟨vs, hvs⟩ := hviable _ hmore
    exact ⟨more ++ vs, by rwa [← List.append_assoc]⟩
  · exact (hnext result us hus.1 hus.2).predicts.mono (fun _ _ hvs => hvs) fun _ hvs => hvs.append

theorem map {change : α → β} (h : parser.Follows language) :
    (change <$> parser).Follows language := by
  have hpredicts : Predicts (change <$> parser) (fun _ taken => taken ∈ language)
      (Viable language) := Predicts.map h.predicts
  exact ⟨h.result.map change, hpredicts⟩

theorem bind_nextPlace {next : Extent → Parser α} (h : ∀ place, (next place).Follows language) :
    (Parser.nextPlace >>= next).Follows language :=
  ⟨(h ⟨0, 1⟩).result, Predicts.bind_nextPlace fun place => (h place).predicts⟩

/-- What is done on sight of the next token. -/
theorem bind_peek? {next : Option Token → Parser α} (hresult : Nonempty α)
    (h : ∀ index rest, PredictsAt (next rest.head?) (fun _ taken => taken ∈ language)
      (Viable language) index rest) : (Parser.peek? >>= next).Follows language :=
  ⟨hresult, Predicts.bind_peek? h⟩

theorem committed (h : parser.Follows language) : (Parser.committed parser).Follows language :=
  ⟨h.result, h.predicts.committed⟩

theorem take {expectation : Expectation} {value? : Token → Option α}
    (h : ∀ token value, value? token = some value → [token] ∈ language)
    (hsome : ∃ token, (value? token).isSome) :
    (Parser.take expectation value?).Follows language := by
  obtain ⟨token, hsome⟩ := hsome
  obtain ⟨value, hvalue⟩ := Option.isSome_iff_exists.mp hsome
  have hviable : Viable language [] := ⟨_, h token value hvalue⟩
  refine ⟨⟨⟨value, 0, 1⟩⟩, (Predicts.take value? hviable).mono (fun read taken ht => ?_)
    fun _ hviable => hviable⟩
  obtain ⟨token, hvalue, rfl⟩ := ht
  exact h token read.value hvalue

theorem expect (written : Punctuator) : (Parser.expect written).Follows (mark written) := by
  refine map (take (fun token value ht => ?_) ⟨.punctuator written, by simp⟩)
  split at ht
  next he => rw [he]; rfl
  next => cases ht

theorem expectWord (written : String) : (Parser.expectWord written).Follows (word written) := by
  refine map (take (fun token value ht => ?_) ⟨.name written, by simp⟩)
  split at ht
  next he => rw [he]; rfl
  next => cases ht

/-- A mark whose presence is not looked at. -/
theorem eat_optional (written : Punctuator) :
    (Parser.eat written).Follows (optional (mark written)) := by
  refine ⟨⟨none⟩, (Predicts.eat written).mono (fun place? taken ht => ?_) fun _ hviable => hviable⟩
  cases place? with
  | some place => exact mem_optional.mpr (.inr ht)
  | none => exact mem_optional.mpr (.inl ht)

/-- A word that may stand here. -/
theorem eatWord_optional (written : String) :
    (Parser.eatWord written).Follows (optional (word written)) := by
  refine ⟨⟨true⟩, (Predicts.eatWord written).mono (fun eaten taken ht => ?_)
    fun _ hviable => hviable⟩
  subst ht
  cases eaten with
  | true => exact mem_optional.mpr (.inr rfl)
  | false => exact mem_optional.mpr (.inl rfl)

/-- Which way is followed depends on whether a mark is next. -/
theorem ifNext {written : Punctuator} {yes : Extent → Parser α} {no : Parser α}
    (hyes : ∀ place, (yes place).Follows (language.leftQuotient [.punctuator written]))
    (hno : no.Follows language) : (Parser.ifNext written yes no).Follows language :=
  ⟨hno.result, Predicts.ifNext (fun place => (hyes place).predicts.mono (fun _ _ hvs => hvs)
    fun _ hvs => hvs.append) hno.predicts⟩

/-- Which branch is followed depends on whether a word is next. -/
theorem ite_eatWord {written : String} {yes no : Parser α}
    (hyes : yes.Follows (language.leftQuotient [.name written]))
    (hno : no.Follows language) :
    (Parser.eatWord written >>= fun eaten => if eaten then yes else no).Follows language := by
  refine ⟨hno.result, Predicts.bind (Predicts.eatWord written) (fun _ hviable => hviable)
    fun eaten us hu => ?_⟩
  subst hu
  cases eaten with
  | true => exact hyes.predicts.mono (fun _ _ hvs => hvs) fun _ hvs => hvs.append
  | false => exact hno.predicts

/-- A repetition of items up to an end. Each item takes a token, so that the repetition cannot stop
for lack of progress. -/
theorem collect {step : Parser (Option α)} {item ending : Language Token}
    (hstep : Predicts step (fun result taken => result.elim (taken ∈ ending) fun _ => taken ∈ item)
      (Viable (item + ending)))
    (hitem : [] ∉ item) (hending : ∃ vs, vs ∈ ending) :
    (Parser.collect step).Follows (item∗ * ending) := by
  have hstar : item * item∗ ≤ item∗ := mul_kstar_le_kstar
  have hcons {us vs : List Token} (hu : us ∈ item) (hv : vs ∈ item∗ * ending) :
      us ++ vs ∈ item∗ * ending := by
    obtain ⟨xs, hx, ys, hy, rfl⟩ := Language.mem_mul.mp hv
    rw [← List.append_assoc]
    exact Language.append_mem_mul (hstar (Language.append_mem_mul hu hx)) hy
  have hend {us : List Token} (hu : us ∈ ending) : us ∈ item∗ * ending :=
    Language.append_mem_mul (Language.nil_mem_kstar item) hu
  have hone : item ≤ item∗ := le_kstar
  -- By induction on the number of tokens, since each item leaves fewer of them.
  have hall : ∀ length index (rest : List Token), rest.length = length →
      PredictsAt (Parser.collect step) (fun _ taken => taken ∈ item∗ * ending)
        (Viable (item∗ * ending)) index rest := by
    intro length
    induction length using Nat.strongRecOn with
    | ind length ih =>
      intro index rest hlength
      cases hstep index rest with
      | @ends result us after hends hsame =>
        cases result with
        | none =>
          have hstop : ∀ after', after'.head? = after.head? →
              Parser.collect step ⟨index, us ++ after'⟩ =
                .ok ([], ⟨index + us.length, after'⟩) := by
            intro after' hafter
            rw [Parser.collect, hsame after' hafter]
          exact .ends (hend hends) hstop
        | some value =>
          have hne : us ≠ [] := fun hnil => hitem (hnil ▸ hends)
          have hpos : 0 < us.length := List.length_pos_iff.mpr hne
          have hless : after.length < length := by
            rw [← hlength, List.length_append]
            omega
          have hthen : ∀ after', after'.head? = after.head? →
              Parser.collect step ⟨index, us ++ after'⟩ =
                ((value :: ·) <$> Parser.collect step) ⟨index + us.length, after'⟩ := by
            intro after' hafter
            have hprogress : after'.length < (us ++ after').length := by
              rw [List.length_append]
              omega
            rw [Parser.collect, hsame after' hafter]
            simp only [hprogress, if_true, Functor.map]
            cases Parser.collect step ⟨index + us.length, after'⟩ <;> rfl
          have hviable {vs : List Token} (hv : Viable (item∗ * ending) vs) :
              Viable (item∗ * ending) (us ++ vs) := by
            obtain ⟨more, hmore⟩ := hv
            exact ⟨more, by rw [List.append_assoc]; exact hcons hends hmore⟩
          have hrest : PredictsAt (Parser.collect step) (fun _ vs => us ++ vs ∈ item∗ * ending)
              (fun vs => Viable (item∗ * ending) (us ++ vs)) (index + us.length) after :=
            (ih after.length hless (index + us.length) after rfl).mono
              (fun _ vs hv => hcons hends hv) fun vs hv => hviable hv
          exact .ahead hthen hrest.map
      | @refuses refusal us after hviable hindex hfits hsame =>
        obtain ⟨more, hmore⟩ := hviable
        have hviable' : Viable (item∗ * ending) us := by
          rcases hmore with hmore | hmore
          · obtain ⟨vs, hvs⟩ := hending
            exact ⟨more ++ vs, by
              rw [← List.append_assoc]; exact Language.append_mem_mul (hone hmore) hvs⟩
          · exact ⟨more, hend hmore⟩
        refine .refuses hviable' hindex hfits fun after' hafter => ?_
        rw [Parser.collect, hsame after' hafter]
  exact ⟨⟨[]⟩, fun index rest => hall _ index rest rfl⟩

variable {σ : Type} {item : σ → Language Token} {fine : σ → Prop}

/-- Items until there are no more. -/
theorem collect_each {step : Parser (Option α)} (hstep : Predicts step (fun result taken =>
      result.elim (taken ∈ (1 : Language Token)) fun _ => taken ∈ spelled item fine)
      (Viable (spelled item fine + 1)))
    (hne : ∀ value, [] ∉ item value) : (Parser.collect step).Follows
      (spelled (each item) fun values => ∀ value ∈ values, fine value) := by
  refine (collect hstep (nil_not_mem_spelled hne) ⟨[], rfl⟩).mono fun ts hts => ?_
  rw [mul_one] at hts
  exact mem_spelled_each hts

/-- Items up to a closing mark. -/
theorem upTo (close : Punctuator) (h : parser.Follows (spelled item fine))
    (hne : ∀ value, [] ∉ item value) : (Parser.upTo close parser).Follows
      (spelled (fun values => [each item values, mark close].prod) fun values =>
        ∀ value ∈ values, fine value) := by
  have hstep := Predicts.unlessNext close (h.predicts.mono (fun _ _ hts => hts) fun _ hviable =>
    hviable.mono fun us hus => (.inl hus : us ∈ spelled item fine + (1 : Language Token)))
  refine bind (collect_each hstep hne) fun us hus values => ?_
  refine bind (expect close) fun vs hvs place => pure ?_
  obtain ⟨values, hvalues, hus⟩ := hus
  exact ⟨values, hvalues, append_mem_prod hus (append_mem_prod hvs nil_mem_prod)⟩

/-- An item behind a mark, or nothing. -/
theorem predicts_following {between : Punctuator} {next : Extent → Parser α}
    (h : ∀ place, (next place).Follows (language.leftQuotient [.punctuator between])) :
    Predicts (Parser.following between next) (fun result taken =>
      result.elim (taken ∈ (1 : Language Token)) fun _ => taken ∈ language)
      (Viable (language + 1)) := by
  refine Predicts.ifNext (fun place => ?_) (Predicts.pure rfl)
  exact Predicts.map ((h place).predicts.mono (fun _ _ hvs => hvs) fun _ hvs =>
    hvs.append.mono fun _ => .inl)

/-- What may stand behind a mark. -/
theorem following {between : Punctuator} {next : Extent → Parser α}
    (h : ∀ place, (next place).Follows (language.leftQuotient [.punctuator between]))
    (hnil : [] ∈ language) : (Parser.following between next).Follows language :=
  ifNext (fun place => (h place).map) (pure hnil)

/-- Items that each follow a mark. -/
theorem collect_following (between : Punctuator) (h : parser.Follows (spelled item fine)) :
    (Parser.collect (Parser.following between fun _ => parser)).Follows
      (spelled (each fun value => mark between * item value) fun values =>
        ∀ value ∈ values, fine value) := by
  have hne (value : σ) : [] ∉ mark between * item value := by
    intro hnil
    obtain ⟨us, rfl, vs, -, he⟩ := Language.mem_mul.mp hnil
    cases he
  have hbehind : parser.Follows ((spelled (fun value => mark between * item value)
      fine).leftQuotient [.punctuator between]) := by
    refine h.mono fun vs hvs => ?_
    obtain ⟨value, hvalue, hvs⟩ := hvs
    exact ⟨value, hvalue, Language.append_mem_mul rfl hvs⟩
  exact collect_each (predicts_following fun _ => hbehind) hne

/-- Items between an opening and a closing mark, or nothing. -/
theorem delimited (opening close : Punctuator) (h : parser.Follows (spelled item fine))
    (hne : ∀ value, [] ∉ item value) : (Parser.delimited opening close parser).Follows
      (spelled (block item opening close) fun values => ∀ value ∈ values, fine value) := by
  refine ifNext (fun start => committed (bind h fun us hus _ => ?_))
    (pure ⟨[], List.forall_mem_nil _, mem_block_nil.mpr rfl⟩)
  obtain ⟨first, hfirst, hus⟩ := hus
  refine bind (upTo close h hne) fun vs hvs read => pure ?_
  rw [Language.mem_leftQuotient, List.append_nil]
  obtain ⟨rest, hrest, hvs⟩ := hvs
  obtain ⟨ws, hws, _, hmark, rfl⟩ := mem_prod_cons.mp hvs
  have hitems : us ++ ws ∈ each item (first :: rest) := mem_each_cons.mpr ⟨us, hus, ws, hws, rfl⟩
  have hall : ∀ value ∈ first :: rest, fine value := List.forall_mem_cons.mpr ⟨hfirst, hrest⟩
  refine ⟨first :: rest, hall, (mem_block (List.cons_ne_nil _ _)).mpr ⟨us ++ ws, hitems, ?_⟩⟩
  rw [mem_mark.mp (mem_prod_singleton.mp hmark), List.append_assoc]

/-- Items with a mark between them. -/
theorem separated (between : Punctuator) (h : parser.Follows (spelled item fine)) :
    (Parser.separated between parser).Follows (spelled (Spelling.separated item between)
      fun values => values ≠ [] ∧ ∀ value ∈ values, fine value) := by
  refine bind h fun us hus _ => (collect_following between h).map.mono fun vs hvs => ?_
  obtain ⟨first, hfirst, hus⟩ := hus
  obtain ⟨rest, hrest, hvs⟩ := hvs
  exact ⟨first :: rest, ⟨List.cons_ne_nil _ _, List.forall_mem_cons.mpr ⟨hfirst, hrest⟩⟩,
    append_mem_prod hus (mem_prod_singleton.mpr hvs)⟩

end Follows

end Parser

end SdlGraph
