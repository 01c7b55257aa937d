import SdlGraph.Proofs.Document.Membership

/-!
# Reading up to a point

A parser reads some tokens before a rest if it takes exactly these and leaves the rest.
`Parser.Reads` states this together with what holds of the result, for each primitive and each way
to combine parsers. What is optional or repeated ends where the next token is not one that goes on
with it, so these rules ask for a rest that does not start with some marks.
-/

namespace SdlGraph

open Spelling

/-- A token list does not start with any of some marks. -/
def HeadOutside (marks : List Punctuator) (ts : List Token) : Prop :=
  ∀ mark ∈ marks, ts.head? ≠ some (.punctuator mark)

namespace HeadOutside

variable {marks fewer : List Punctuator} {us vs : List Token}

theorem nil : HeadOutside marks [] := fun _ _ => nofun

/-- Every token list starts outside no marks. -/
theorem noMarks {ts : List Token} : HeadOutside [] ts := fun _ => nofun

theorem name {text : String} {rest : List Token} : HeadOutside marks (.name text :: rest) :=
  fun _ _ => nofun

theorem mark {written : Punctuator} {rest : List Token} (h : written ∉ marks) :
    HeadOutside marks (.punctuator written :: rest) := by
  intro mark hm he
  cases he
  exact h hm

theorem append (hu : HeadOutside marks us) (hv : HeadOutside marks vs) :
    HeadOutside marks (us ++ vs) := by
  cases us with
  | nil => exact hv
  | cons token us => exact hu

/-- Only the first token matters. -/
theorem append_right (hu : HeadOutside marks us) (hne : us ≠ []) :
    HeadOutside marks (us ++ vs) := by
  cases us with
  | nil => exact absurd rfl hne
  | cons token us => exact hu

theorem mono (h : HeadOutside marks us) (hsub : ∀ mark ∈ fewer, mark ∈ marks) :
    HeadOutside fewer us := fun mark hm => h mark (hsub mark hm)

theorem each {α : Type} {item : α → Language Token} {items : List α}
    (h : ∀ value, ∀ us ∈ item value, HeadOutside marks us) (hu : us ∈ each item items) :
    HeadOutside marks us := by
  induction items generalizing us with
  | nil => exact mem_each_nil.mp hu ▸ nil
  | cons first rest ih =>
    obtain ⟨ws, hw, vs, hv, rfl⟩ := mem_each_cons.mp hu
    exact (h first ws hw).append (ih hv)

end HeadOutside

/-- A token list does not start with a word. -/
def WordOutside (written : String) (ts : List Token) : Prop := ts.head? ≠ some (.name written)

theorem WordOutside.append {written : String} {us vs : List Token} (hu : WordOutside written us)
    (hv : WordOutside written vs) : WordOutside written (us ++ vs) := by
  cases us with
  | nil => exact hv
  | cons token us => exact hu

/-- A token list starts with a mark, unless it is empty. -/
def HeadMark (written : Punctuator) (ts : List Token) : Prop :=
  ts = [] ∨ ∃ later, ts = .punctuator written :: later

theorem HeadMark.outside {written : Punctuator} {marks : List Punctuator} {ts : List Token}
    (h : HeadMark written ts) (hmark : written ∉ marks) : HeadOutside marks ts := by
  rcases h with rfl | ⟨later, rfl⟩
  · exact HeadOutside.nil
  · exact HeadOutside.mark hmark

theorem HeadMark.wordOutside {written : Punctuator} {word : String} {ts : List Token}
    (h : HeadMark written ts) : WordOutside word ts := by
  rcases h with rfl | ⟨later, rfl⟩
  · exact nofun
  · exact nofun

namespace Parser

variable {α β : Type}

/-- Before a rest, a parser takes exactly some tokens, and its result satisfies a condition. -/
def Reads (parser : Parser α) (ts rest : List Token) (post : α → Prop) : Prop :=
  ∀ index, ∃ result, parser ⟨index, ts ++ rest⟩ = .ok (result, ⟨index + ts.length, rest⟩) ∧
    post result

namespace Reads

variable {parser : Parser α} {ts us vs rest : List Token} {post post' : α → Prop}

theorem mono (h : parser.Reads ts rest post) (himp : ∀ result, post result → post' result) :
    parser.Reads ts rest post' := by
  intro index
  obtain ⟨result, hr, hpost⟩ := h index
  exact ⟨result, hr, himp result hpost⟩

theorem pure {result : α} (h : post result) : (Pure.pure result : Parser α).Reads [] rest post :=
  fun _ => ⟨result, rfl, h⟩

/-- What is read by one parser and then by the next. -/
theorem bind {next : α → Parser β} {post' : β → Prop} (h : parser.Reads us (vs ++ rest) post)
    (hnext : ∀ result, post result → (next result).Reads vs rest post') :
    (parser >>= next).Reads (us ++ vs) rest post' := by
  intro index
  obtain ⟨result, hr, hpost⟩ := h index
  obtain ⟨result', hr', hpost'⟩ := hnext result hpost (index + us.length)
  refine ⟨result', ?_, hpost'⟩
  have hindex : index + (us ++ vs).length = index + us.length + vs.length := by
    rw [List.length_append]
    omega
  rw [List.append_assoc, hindex, ← hr']
  simp only [Bind.bind, hr]

/-- A parser that only looks leaves all tokens to the next. -/
theorem look {next : α → Parser β} {post' : β → Prop} (h : parser.Reads [] (ts ++ rest) post)
    (hnext : ∀ result, post result → (next result).Reads ts rest post') :
    (parser >>= next).Reads ts rest post' := bind h hnext

/-- A parser after which nothing is taken any more. -/
theorem bind_last {next : α → Parser β} {post' : β → Prop} (h : parser.Reads ts rest post)
    (hnext : ∀ result, post result → (next result).Reads [] rest post') :
    (parser >>= next).Reads ts rest post' := by
  have hbind : (parser >>= next).Reads (ts ++ []) rest post' := bind h hnext
  rwa [List.append_nil] at hbind

theorem map {change : α → β} {post' : β → Prop}
    (h : parser.Reads ts rest fun result => post' (change result)) :
    (change <$> parser).Reads ts rest post' :=
  bind_last h fun _ hpost => pure hpost

theorem nextPlace : Parser.nextPlace.Reads [] rest fun _ => True := fun _ => ⟨_, rfl, trivial⟩

theorem peek? : Parser.peek?.Reads [] rest fun next => next = rest.head? :=
  fun _ => ⟨rest.head?, rfl, rfl⟩

/-- What is done on sight of the next token. -/
theorem bind_peek? {next : Option Token → Parser β} {post' : β → Prop}
    (h : (next (ts ++ rest).head?).Reads ts rest post') :
    (Parser.peek? >>= next).Reads ts rest post' := by
  refine look peek? fun token ht => ?_
  rw [ht]
  exact h

theorem committed (h : parser.Reads ts rest post) :
    (Parser.committed parser).Reads ts rest post := by
  intro index
  obtain ⟨result, hr, hpost⟩ := h index
  exact ⟨result, by rw [Parser.committed, hr], hpost⟩

/-- A token that has the value asked for is taken. -/
theorem take? {value? : Token → Option α} {token : Token} {value : α}
    (h : value? token = some value) :
    (Parser.take? value?).Reads [token] rest fun result =>
      result.map Located.value = some value :=
  fun _ => ⟨_, by simp only [Parser.take?, List.cons_append, h]; rfl, rfl⟩

/-- A token that has not the value asked for is left. -/
theorem take?_none {value? : Token → Option α} (h : ∀ token ∈ rest.head?, value? token = none) :
    (Parser.take? value?).Reads [] rest fun result => result = none := by
  intro index
  refine ⟨none, ?_, rfl⟩
  cases rest with
  | nil => rfl
  | cons token rest =>
    have hnone : value? token = none := h token rfl
    simp [Parser.take?, hnone]

theorem take {expectation : Expectation} {value? : Token → Option α} {token : Token} {value : α}
    (h : value? token = some value) :
    (Parser.take expectation value?).Reads [token] rest fun read => read.value = value := by
  refine bind_last (take? h) fun result hr => ?_
  cases result with
  | none => cases hr
  | some read => exact pure (Option.some.inj hr)

theorem eat {written : Punctuator} :
    (Parser.eat written).Reads [.punctuator written] rest fun place? => place?.isSome := by
  refine map ((take? (if_pos rfl)).mono fun result hr => ?_)
  cases result with
  | none => cases hr
  | some read => rfl

/-- A mark that is not next is not taken. -/
theorem eat_none {written : Punctuator} (h : rest.head? ≠ some (.punctuator written)) :
    (Parser.eat written).Reads [] rest fun place? => place? = none := by
  refine map ((take?_none fun token ht => if_neg fun he => ?_).mono fun result hr => ?_)
  · rw [he] at ht
    exact h ht
  · rw [hr]
    rfl

theorem eatWord {written : String} :
    (Parser.eatWord written).Reads [.name written] rest fun eaten => eaten = true := by
  refine map ((take? (if_pos rfl)).mono fun result hr => ?_)
  cases result with
  | none => cases hr
  | some read => rfl

/-- A word that is not next is not taken. -/
theorem eatWord_false {written : String} (h : rest.head? ≠ some (.name written)) :
    (Parser.eatWord written).Reads [] rest fun eaten => eaten = false := by
  refine map ((take?_none fun token ht => if_neg fun he => ?_).mono fun result hr => ?_)
  · rw [he] at ht
    exact h ht
  · rw [hr]
    rfl

/-- The way behind a mark that is next. -/
theorem ifNext {written : Punctuator} {yes : Extent → Parser α} {no : Parser α}
    (h : ∀ place, (yes place).Reads ts rest post) :
    (Parser.ifNext written yes no).Reads ([.punctuator written] ++ ts) rest post := by
  refine bind eat fun place? he => ?_
  cases place? with
  | none => cases he
  | some place => exact h place

/-- The way to go if a mark is not next. -/
theorem ifNext_else {written : Punctuator} {yes : Extent → Parser α} {no : Parser α}
    (hhead : (ts ++ rest).head? ≠ some (.punctuator written)) (h : no.Reads ts rest post) :
    (Parser.ifNext written yes no).Reads ts rest post := by
  refine look (eat_none hhead) fun place? he => ?_
  subst he
  exact h

/-- A mark that may be left out is taken if it is written. -/
theorem eat_optional {written : Punctuator} (hts : ts ∈ optional (mark written))
    (hrest : HeadOutside [written] rest) :
    (Parser.eat written).Reads ts rest fun _ => True := by
  rcases mem_optional.mp hts with rfl | hts
  · exact (eat_none (hrest written List.mem_cons_self)).mono fun _ _ => trivial
  · rw [mem_mark.mp hts]
    exact eat.mono fun _ _ => trivial

theorem expect {written : Punctuator} :
    (Parser.expect written).Reads [.punctuator written] rest fun _ => True :=
  map ((take (if_pos rfl)).mono fun _ _ => trivial)

theorem expectWord {written : String} :
    (Parser.expectWord written).Reads [.name written] rest fun _ => True :=
  map ((take (if_pos rfl)).mono fun _ _ => trivial)

end Reads

/-- A parser gets every proper value back from each of its spellings, unless one of some marks
follows. What it reads is compared after a change, which forgets places. -/
def Recovers (parser : Parser α) (change : α → β) (item : β → Language Token) (fine : β → Prop)
    (marks : List Punctuator) : Prop :=
  ∀ value, fine value → ∀ ts ∈ item value, ∀ rest, HeadOutside marks rest →
    parser.Reads ts rest fun result => change result = value

namespace Recovers

variable {parser : Parser α} {change : α → β} {item : β → Language Token} {fine : β → Prop}
  {marks : List Punctuator} {ts es rest : List Token}

/-- A repetition gets its items back, if each may follow the others and its step ends after them. -/
theorem collect {step : Parser (Option α)} {follow : List Token → Prop}
    (hstep : ∀ value, fine value → ∀ us ∈ item value, ∀ later, follow later →
      step.Reads us later fun result => result.map change = some value)
    (hstart : ∀ value, ∀ us ∈ item value, us ≠ [] ∧ ∀ later, follow (us ++ later))
    (hend : follow (es ++ rest)) (hstop : step.Reads es rest fun result => result = none)
    {values : List β} (hfine : ∀ value ∈ values, fine value) (hts : ts ∈ each item values) :
    (Parser.collect step).Reads (ts ++ es) rest fun read => read.map change = values := by
  induction values generalizing ts with
  | nil =>
    rw [mem_each_nil] at hts
    subst hts
    intro index
    obtain ⟨result, hr, rfl⟩ := hstop index
    refine ⟨[], ?_, rfl⟩
    rw [Parser.collect, List.nil_append, hr]
  | cons value values ih =>
    obtain ⟨us, hu, vs, hv, rfl⟩ := mem_each_cons.mp hts
    have hvalues : follow (vs ++ (es ++ rest)) := by
      cases values with
      | nil =>
        rw [mem_each_nil.mp hv]
        exact hend
      | cons next values =>
        obtain ⟨ws, hw, xs, -, rfl⟩ := mem_each_cons.mp hv
        rw [List.append_assoc]
        exact (hstart next ws hw).2 _
    intro index
    obtain ⟨result, hr, hresult⟩ :=
      hstep value (hfine value List.mem_cons_self) us hu _ hvalues index
    obtain ⟨reads, hrs, hreads⟩ :=
      ih (fun other ho => hfine other (List.mem_cons_of_mem _ ho)) hv (index + us.length)
    cases result with
    | none => cases hresult
    | some read =>
      have hread : change read = value := Option.some.inj hresult
      have hlength : 0 < us.length := List.length_pos_iff.mpr (hstart value us hu).1
      have hboth : (read :: reads).map change = value :: values := by
        rw [List.map_cons, hread, hreads]
      have hless : (vs ++ (es ++ rest)).length < (us ++ (vs ++ (es ++ rest))).length := by
        simp only [List.length_append]
        omega
      have hindex : index + us.length + (vs ++ es).length = index + (us ++ vs ++ es).length := by
        simp only [List.length_append]
        omega
      refine ⟨read :: reads, ?_, hboth⟩
      rw [List.append_assoc, hindex] at hrs
      rw [Parser.collect, List.append_assoc, List.append_assoc us, hr]
      simp only
      rw [if_pos hless, hrs]

/-- Items up to a closing mark are read together with the mark. -/
theorem reads_upTo {close : Punctuator} (h : parser.Recovers change item fine marks)
    (hstart : ∀ value, ∀ us ∈ item value, us ≠ [] ∧ HeadOutside (close :: marks) us)
    (hclose : close ∉ marks) {values : List β} (hfine : ∀ value ∈ values, fine value)
    (hts : ts ∈ each item values) :
    (Parser.upTo close parser).Reads (ts ++ [.punctuator close]) rest
      fun read => read.1.map change = values := by
  have hitems : (Parser.collect (unlessNext close parser)).Reads (ts ++ [])
      ([.punctuator close] ++ rest) fun read => read.map change = values := by
    refine collect (fun value hvalue us hu later hlater => ?_) (fun value us hu => ?_)
      (HeadOutside.mark hclose) ?_ hfine hts
    · obtain ⟨hne, hhead⟩ := hstart value us hu
      have hopen : HeadOutside (close :: marks) (us ++ later) := hhead.append_right hne
      refine Reads.bind_peek? ?_
      rw [if_neg (hopen close List.mem_cons_self)]
      refine Reads.map ((h value hvalue us hu later hlater).mono fun result hr => ?_)
      rw [Option.map_some, hr]
    · obtain ⟨hne, hhead⟩ := hstart value us hu
      have hmarks : HeadOutside marks us := hhead.mono fun mark hm => List.mem_cons_of_mem _ hm
      exact ⟨hne, fun later => hmarks.append_right hne⟩
    · have hclosing : ([] ++ ([Token.punctuator close] ++ rest)).head? =
          some (.punctuator close) := rfl
      refine Reads.bind_peek? ?_
      rw [if_pos hclosing]
      exact Reads.pure rfl
  rw [List.append_nil] at hitems
  refine Reads.bind hitems fun items hi => ?_
  exact Reads.bind_last Reads.expect fun place _ => Reads.pure hi

/-- Items that each follow a mark are read together with their marks. -/
theorem collect_following {between : Punctuator} (h : parser.Recovers change item fine [])
    (hend : HeadOutside [between] rest) {values : List β} (hfine : ∀ value ∈ values, fine value)
    (hts : ts ∈ each (fun value => mark between * item value) values) :
    (Parser.collect (Parser.following between fun _ => parser)).Reads ts rest
      fun read => read.map change = values := by
  have hcollect : (Parser.collect (Parser.following between fun _ => parser)).Reads (ts ++ []) rest
      fun read => read.map change = values := by
    refine collect (fun value hvalue us hu later hlater => ?_) (fun value us hu => ?_)
      HeadOutside.noMarks ?_ hfine hts
    · obtain ⟨_, rfl, vs, hv, rfl⟩ := Language.mem_mul.mp hu
      refine Reads.ifNext fun _ => ?_
      refine Reads.map ((h value hvalue vs hv later hlater).mono fun result hr => ?_)
      rw [Option.map_some, hr]
    · obtain ⟨_, rfl, vs, hv, rfl⟩ := Language.mem_mul.mp hu
      exact ⟨List.cons_ne_nil _ _, fun _ => HeadOutside.noMarks⟩
    · refine Reads.ifNext_else (hend between List.mem_cons_self) ?_
      exact Reads.pure rfl
  rwa [List.append_nil] at hcollect

/-- A list between marks is got back from its spelling, and it has a place if it is not empty. -/
theorem reads_delimited {opening close : Punctuator} (h : parser.Recovers change item fine marks)
    (hstart : ∀ value, ∀ us ∈ item value, us ≠ [] ∧ HeadOutside (close :: marks) us)
    (hclose : close ∉ marks) {values : List β} (hfine : ∀ value ∈ values, fine value)
    (hts : ts ∈ block item opening close values) (hrest : HeadOutside [opening] rest) :
    (Parser.delimited opening close parser).Reads ts rest fun read =>
      read.1.map change = values ∧ (read.2 = none ↔ values = []) := by
  cases values with
  | nil =>
    rw [mem_block_nil] at hts
    subst hts
    refine Reads.ifNext_else (hrest opening List.mem_cons_self) ?_
    exact Reads.pure ⟨rfl, iff_of_true rfl rfl⟩
  | cons first values =>
    obtain ⟨us, hu, rfl⟩ := (mem_block (List.cons_ne_nil _ _)).mp hts
    obtain ⟨vs, hv, ws, hw, rfl⟩ := mem_each_cons.mp hu
    obtain ⟨hfirst, hmore⟩ := List.forall_mem_cons.mp hfine
    have hlater : HeadOutside marks (ws ++ [.punctuator close] ++ rest) := by
      have hitems : HeadOutside marks ws := HeadOutside.each (fun value us hu =>
        (hstart value us hu).2.mono fun mark hm => List.mem_cons_of_mem _ hm) hw
      rw [List.append_assoc]
      exact hitems.append (HeadOutside.mark hclose)
    refine Reads.ifNext fun start => Reads.committed ?_
    rw [List.append_assoc]
    refine Reads.bind (h first hfirst vs hv _ hlater) fun result hr => ?_
    refine Reads.bind_last (reads_upTo h hstart hclose hmore hw) fun ⟨more, stop⟩ hm => ?_
    refine Reads.pure ⟨?_, iff_of_false (Option.some_ne_none _) (List.cons_ne_nil _ _)⟩
    rw [List.map_cons, hr, hm]

theorem delimited {opening close : Punctuator} (h : parser.Recovers change item fine marks)
    (hstart : ∀ value, ∀ us ∈ item value, us ≠ [] ∧ HeadOutside (close :: marks) us)
    (hclose : close ∉ marks) :
    (Parser.delimited opening close parser).Recovers (fun read => read.1.map change)
      (block item opening close) (fun values => ∀ value ∈ values, fine value) [opening] :=
  fun _ hfine _ hts _ hrest =>
    (reads_delimited h hstart hclose hfine hts hrest).mono fun _ hread => hread.1

/-- A list with marks between its items is got back from its spelling. -/
theorem separated {between : Punctuator} (h : parser.Recovers change item fine []) :
    (Parser.separated between parser).Recovers (List.map change) (Spelling.separated item between)
      (fun values => values ≠ [] ∧ ∀ value ∈ values, fine value) [between] := by
  intro values ⟨hne, hfine⟩ ts hts rest hrest
  cases values with
  | nil => exact absurd rfl hne
  | cons first values =>
    obtain ⟨us, hu, vs, hv, rfl⟩ := mem_prod_cons.mp hts
    rw [mem_prod_singleton] at hv
    obtain ⟨hfirst, hmore⟩ := List.forall_mem_cons.mp hfine
    refine Reads.bind (h first hfirst us hu _ HeadOutside.noMarks) fun result hr => ?_
    refine Reads.bind_last (collect_following h hrest hmore hv) fun results hrs => ?_
    refine Reads.pure ?_
    rw [List.map_cons, hr, hrs]

end Recovers

end Parser

end SdlGraph
