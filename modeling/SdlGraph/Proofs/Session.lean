import SdlGraph.Session

/-!
# A session reflects its last call

A load clears the session before anything else, and nothing that comes after looks at what was shown
before: a schema is put into the session only when the text has been read, and on every other way
out the session stays clear. So whatever a session has been through, a call does to it what it would
do to one that has shown nothing yet: after a load that succeeds it shows the schema of the text
loaded, and after any other call it is empty.
-/

namespace SdlGraph

variable {layout : Layout} {source path : String} {files : FileSystem} {failure : Failure}

/-- A text is read as its catalog, or fails with the problems found in it. -/
theorem parseSchema_eq_ok_iff {catalog : Catalog} :
    parseSchema source = .ok catalog ↔ Catalog.ofSource source = .ok catalog := by
  unfold parseSchema
  cases Catalog.ofSource source <;> simp

theorem exists_schema_of_parseSchema (h : parseSchema source = .error failure) :
    ∃ problems, failure = .schema problems := by
  unfold parseSchema at h
  split at h
  next => cases h
  next problems _ =>
    cases h
    exact ⟨problems, rfl⟩

/-- What is read of a schema file is its content. -/
theorem readSchemaFile_eq_ok_iff : readSchemaFile files path = .ok source ↔
    isSchemaFile path = true ∧ files.readText path = .ok source := by
  unfold readSchemaFile
  split
  next hpath => cases files.readText path <;> simp [hpath]
  next hpath => simp [hpath]

/-- A file is refused for its extension alone. -/
theorem readSchemaFile_eq_unsupported_iff {path' : String} :
    readSchemaFile files path = .error (.unsupportedFile path') ↔
      isSchemaFile path = false ∧ path' = path := by
  unfold readSchemaFile
  split
  next hpath => cases files.readText path <;> simp [hpath]
  next hpath => simp [hpath, eq_comm]

/-- A schema file that cannot be read fails with the fault of the file system. -/
theorem readSchemaFile_eq_io_iff {fault : IoFault} :
    readSchemaFile files path = .error (.io fault) ↔
      isSchemaFile path = true ∧ files.readText path = .error fault := by
  unfold readSchemaFile
  split
  next hpath => cases files.readText path <;> simp [hpath]
  next hpath => simp [hpath]

namespace Session

variable {session : Session} {catalog : Catalog}

theorem clear_eq_fresh (session : Session) : session.clear = fresh session.layout := rfl

/-- To clear a session before a load changes nothing. -/
theorem loadSource_clear (session : Session) (source : String) :
    session.clear.loadSource source = session.loadSource source := rfl

theorem loadSource_of_isBlank (h : Text.isBlank source = true) :
    session.loadSource source = (fresh session.layout, .error .emptySource) := by
  simp only [loadSource, validateSource, h, if_true, clear_eq_fresh]

theorem loadSource_of_parse_error (hblank : Text.isBlank source = false)
    (h : parseSchema source = .error failure) :
    session.loadSource source = (fresh session.layout, .error failure) := by
  simp only [loadSource, validateSource, hblank, Bool.false_eq_true, if_false, h, clear_eq_fresh]

/-- A text that can be read is shown with the graph of its catalog. -/
theorem loadSource_of_parse_ok (hblank : Text.isBlank source = false)
    (h : parseSchema source = .ok catalog) :
    session.loadSource source =
      (⟨session.layout, some ⟨catalog, catalog.project session.layout⟩⟩,
        .ok (catalog.project session.layout)) := by
  simp only [loadSource, validateSource, hblank, Bool.false_eq_true, if_false, h]
  rfl

/-- The ways out of a load: the text is blank, it cannot be read, or it is shown. -/
theorem loadSource_cases (session : Session) (source : String) :
    (Text.isBlank source = true ∧
      session.loadSource source = (fresh session.layout, .error .emptySource)) ∨
    (Text.isBlank source = false ∧ ∃ failure, parseSchema source = .error failure ∧
      session.loadSource source = (fresh session.layout, .error failure)) ∨
    Text.isBlank source = false ∧ ∃ catalog, parseSchema source = .ok catalog ∧
      session.loadSource source =
        (⟨session.layout, some ⟨catalog, catalog.project session.layout⟩⟩,
          .ok (catalog.project session.layout)) := by
  cases hblank : Text.isBlank source with
  | true => exact .inl ⟨rfl, loadSource_of_isBlank hblank⟩
  | false =>
    cases hparse : parseSchema source with
    | error failure =>
      exact .inr (.inl ⟨rfl, failure, rfl, loadSource_of_parse_error hblank hparse⟩)
    | ok catalog =>
      exact .inr (.inr ⟨rfl, catalog, rfl, loadSource_of_parse_ok hblank hparse⟩)

theorem loadFile_of_error (h : readSchemaFile files path = .error failure) :
    session.loadFile files path = (fresh session.layout, .error failure) := by
  simp only [loadFile, h, clear_eq_fresh]

/-- A file that can be read is loaded as the text in it. -/
theorem loadFile_of_ok (h : readSchemaFile files path = .ok source) :
    session.loadFile files path = session.loadSource source := by
  simp only [loadFile, h, loadSource_clear]

/-- A call on a session. A load of a file sees the files there are at its time. -/
inductive Call where
  /-- Load a schema text. -/
  | loadSource (source : String)
  /-- Load a schema file. -/
  | loadFile (files : FileSystem) (path : String)
  /-- Show nothing again. -/
  | reset

/-- What a load returns; a reset returns nothing. -/
abbrev Answer : Type := Option (Except Failure SchemaGraph)

/-- The session after a call, and what the call returns. -/
def carryOut (session : Session) : Call → Session × Answer
  | .loadSource source => (session.loadSource source).map id some
  | .loadFile files path => (session.loadFile files path).map id some
  | .reset => (session.reset, none)

/-- The session after a sequence of calls. -/
def run (session : Session) (calls : List Call) : Session :=
  calls.foldl (fun state call => (state.carryOut call).1) session

/-- The text that a call loads: the text given, or the content of the schema file. -/
inductive Call.Loads : Call → String → Prop where
  /-- A text is given. -/
  | text (source : String) : Loads (.loadSource source) source
  /-- The text is the content of a schema file. -/
  | content {files : FileSystem} {path source : String} (hpath : isSchemaFile path = true)
      (hcontent : files.readText path = .ok source) : Loads (.loadFile files path) source

/-- A load does to a session what it does to one that shows nothing. -/
theorem loadSource_eq_fresh (session : Session) (source : String) :
    session.loadSource source = (fresh session.layout).loadSource source := by
  rw [← loadSource_clear, clear_eq_fresh]

theorem loadFile_eq_fresh (session : Session) (files : FileSystem) (path : String) :
    session.loadFile files path = (fresh session.layout).loadFile files path := by
  cases hread : readSchemaFile files path with
  | error failure => rw [loadFile_of_error hread, loadFile_of_error hread]; rfl
  | ok source => rw [loadFile_of_ok hread, loadFile_of_ok hread, loadSource_eq_fresh]

/-- A call does to a session what it does to one that shows nothing. -/
theorem carryOut_eq_fresh (session : Session) (call : Call) :
    session.carryOut call = (fresh session.layout).carryOut call := by
  cases call with
  | loadSource source => rw [carryOut, carryOut, loadSource_eq_fresh]
  | loadFile files path => rw [carryOut, carryOut, loadFile_eq_fresh]
  | reset => rfl

theorem layout_loadSource (session : Session) (source : String) :
    (session.loadSource source).1.layout = session.layout := by
  rcases session.loadSource_cases source with ⟨-, h⟩ | ⟨-, _, -, h⟩ | ⟨-, _, -, h⟩ <;>
    exact congrArg (fun outcome => outcome.1.layout) h

/-- No call changes the layout. -/
theorem layout_carryOut (session : Session) (call : Call) :
    (session.carryOut call).1.layout = session.layout := by
  cases call with
  | loadSource source => exact layout_loadSource session source
  | loadFile files path =>
    show (session.loadFile files path).1.layout = session.layout
    cases hread : readSchemaFile files path with
    | error failure => rw [loadFile_of_error hread]; rfl
    | ok source => rw [loadFile_of_ok hread, layout_loadSource]
  | reset => rfl

/-- No sequence of calls changes the layout. -/
theorem layout_run (session : Session) (calls : List Call) :
    (session.run calls).layout = session.layout := by
  induction calls generalizing session with
  | nil => rfl
  | cons call calls ih => exact (ih _).trans (layout_carryOut session call)

/-- What a session shows after a call tells what the call was and what it returned. -/
structure Reflects (layout : Layout) (call : Call) (session : Session) (answer : Answer) :
    Prop where
  /-- The layout stays. -/
  layout_eq : session.layout = layout
  /-- There is a graph exactly when a schema is shown. -/
  isSome_graph : session.graph?.isSome = session.isLoaded
  /-- There is a catalog exactly when a schema is shown. -/
  isSome_catalog : session.catalog?.isSome = session.isLoaded
  /-- A schema is shown exactly when the call was a load that succeeded. -/
  isLoaded_iff : session.isLoaded = true ↔ ∃ graph, answer = some (.ok graph)
  /-- The schema shown is that of the text loaded, and its graph is the one returned. -/
  shows : ∀ graph, answer = some (.ok graph) → ∃ source catalog, call.Loads source ∧
    Catalog.ofSource source = .ok catalog ∧ session.catalog? = some catalog ∧
    session.graph? = some graph ∧ graph = catalog.project layout ∧
    visualize layout source = .ok graph
  /-- After any other call the session is empty. -/
  empty : (∀ graph, answer ≠ some (.ok graph)) → session = fresh layout

/-- A call that shows nothing leaves the session empty. -/
theorem reflects_fresh {call : Call} {answer : Answer}
    (h : ∀ graph, answer ≠ some (.ok graph)) : Reflects layout call (fresh layout) answer where
  layout_eq := rfl
  isSome_graph := rfl
  isSome_catalog := rfl
  isLoaded_iff := iff_of_false Bool.false_ne_true fun ⟨graph, hanswer⟩ => h graph hanswer
  shows graph hanswer := absurd hanswer (h graph)
  empty _ := rfl

/-- A call that loads a text shows what the text is read as, or leaves the session empty. -/
theorem reflects_loadSource {call : Call} (session : Session) (hloads : call.Loads source) :
    Reflects session.layout call (session.loadSource source).1
      (some (session.loadSource source).2) := by
  rcases session.loadSource_cases source with ⟨-, h⟩ | ⟨-, failure, -, h⟩ | ⟨-, catalog, hparse, h⟩
  · rw [h]
    exact reflects_fresh nofun
  · rw [h]
    exact reflects_fresh nofun
  · rw [h]
    have hvisualize : visualize session.layout source = .ok (catalog.project session.layout) := by
      rw [visualize, hparse]
    refine ⟨rfl, rfl, rfl, iff_of_true rfl ⟨_, rfl⟩, ?_, fun hnone => absurd rfl (hnone _)⟩
    rintro graph ⟨⟩
    exact ⟨source, catalog, hloads, parseSchema_eq_ok_iff.mp hparse, rfl, rfl, rfl, hvisualize⟩

/-- One call, whatever the session shows before it. -/
theorem reflects_carryOut (session : Session) (call : Call) :
    Reflects session.layout call (session.carryOut call).1 (session.carryOut call).2 := by
  cases call with
  | loadSource source => exact session.reflects_loadSource (.text source)
  | loadFile files path =>
    show Reflects session.layout _ (session.loadFile files path).1
      (some (session.loadFile files path).2)
    cases hread : readSchemaFile files path with
    | error failure =>
      rw [loadFile_of_error hread]
      exact reflects_fresh nofun
    | ok source =>
      obtain ⟨hpath, hcontent⟩ := readSchemaFile_eq_ok_iff.mp hread
      rw [loadFile_of_ok hread]
      exact session.reflects_loadSource (.content hpath hcontent)
  | reset => exact reflects_fresh nofun

/-- How a call fails. A text fails as blank or as it fails to be read; a file fails as it fails to
be read, and otherwise does what the text in it does. -/
structure FailsAs (session : Session) : Prop where
  /-- A text fails as blank exactly if it is all white space. -/
  blank : ∀ source, (session.carryOut (.loadSource source)).2 = some (.error .emptySource) ↔
    ∀ c ∈ source.toList, Text.isWhiteSpace c = true
  /-- Any other text is loaded exactly as it is visualized. -/
  text : ∀ source, (∃ c ∈ source.toList, Text.isWhiteSpace c = false) →
    (session.carryOut (.loadSource source)).2 = some (visualize session.layout source)
  /-- Visualizing a text fails exactly as reading it does. -/
  visualize : ∀ source failure,
    visualize session.layout source = .error failure ↔ parseSchema source = .error failure
  /-- A file is refused for its extension exactly if reading it is, which is so for all files but
  schema files. -/
  unsupported : ∀ files path path',
    ((session.carryOut (.loadFile files path)).2 = some (.error (.unsupportedFile path')) ↔
      readSchemaFile files path = .error (.unsupportedFile path')) ∧
    (readSchemaFile files path = .error (.unsupportedFile path') ↔
      isSchemaFile path = false ∧ path' = path)
  /-- A file fails for a fault of the file system exactly if reading it does, which is so if the
  fault keeps the content of a schema file from being read. -/
  io : ∀ files path fault,
    ((session.carryOut (.loadFile files path)).2 = some (.error (.io fault)) ↔
      readSchemaFile files path = .error (.io fault)) ∧
    (readSchemaFile files path = .error (.io fault) ↔
      isSchemaFile path = true ∧ files.readText path = .error fault)
  /-- A file that fails to be read leaves the session empty. -/
  unread : ∀ files path failure, readSchemaFile files path = .error failure →
    session.carryOut (.loadFile files path) = (fresh session.layout, some (.error failure))
  /-- What can be read of a file is the content of a schema file, and it is loaded as the text that
  it is. -/
  content : ∀ files path source,
    (readSchemaFile files path = .ok source ↔
      isSchemaFile path = true ∧ files.readText path = .ok source) ∧
    (readSchemaFile files path = .ok source →
      session.carryOut (.loadFile files path) = session.carryOut (.loadSource source))

/-- A text fails as blank only if it is. -/
theorem loadSource_eq_emptySource_iff :
    (session.loadSource source).2 = .error .emptySource ↔ Text.isBlank source = true := by
  rcases session.loadSource_cases source with ⟨hblank, h⟩ | ⟨hblank, failure, hparse, h⟩ |
    ⟨hblank, catalog, hparse, h⟩
  · exact iff_of_true (by rw [h]) hblank
  · obtain ⟨problems, rfl⟩ := exists_schema_of_parseSchema hparse
    exact iff_of_false (by rw [h]; nofun) (by rw [hblank]; nofun)
  · exact iff_of_false (by rw [h]; nofun) (by rw [hblank]; nofun)

/-- A text that fails to load is blank or has problems. -/
theorem failure_of_loadSource (h : (session.loadSource source).2 = .error failure) :
    failure = .emptySource ∨ ∃ problems, failure = .schema problems := by
  rcases session.loadSource_cases source with ⟨-, hload⟩ | ⟨-, failure', hparse, hload⟩ |
    ⟨-, catalog, -, hload⟩ <;> rw [hload] at h <;> cases h
  · exact .inl rfl
  · exact .inr (exists_schema_of_parseSchema hparse)

/-- Loading a file fails for a reason that no text gives exactly when reading it does. -/
theorem loadFile_eq_error_iff
    (hfailure : (∃ path', failure = .unsupportedFile path') ∨ ∃ fault, failure = .io fault) :
    (session.loadFile files path).2 = .error failure ↔
      readSchemaFile files path = .error failure := by
  cases hread : readSchemaFile files path with
  | error failure' =>
    rw [loadFile_of_error hread]
    simp only [Except.error.injEq]
  | ok source =>
    rw [loadFile_of_ok hread]
    refine iff_of_false (fun hload => ?_) nofun
    rcases failure_of_loadSource hload with rfl | ⟨problems, rfl⟩ <;>
      rcases hfailure with ⟨path', ⟨⟩⟩ | ⟨fault, ⟨⟩⟩

/-- A text that is not blank is loaded exactly as it is visualized. -/
theorem loadSource_eq_visualize (hblank : Text.isBlank source = false) :
    (session.loadSource source).2 = SdlGraph.visualize session.layout source := by
  rw [SdlGraph.visualize]
  cases hparse : parseSchema source with
  | error failure => rw [loadSource_of_parse_error hblank hparse]
  | ok catalog => rw [loadSource_of_parse_ok hblank hparse]

theorem failsAs (session : Session) : FailsAs session where
  blank source := by
    rw [← Text.isBlank_iff, ← loadSource_eq_emptySource_iff]
    exact Option.some_inj
  text source := by
    rintro ⟨c, hc, hspace⟩
    have hblank : Text.isBlank source = false := by
      refine Bool.eq_false_iff.mpr fun hblank => ?_
      rw [Text.isBlank_iff.mp hblank c hc] at hspace
      cases hspace
    exact congrArg some (loadSource_eq_visualize hblank)
  visualize source failure := by
    unfold SdlGraph.visualize
    cases parseSchema source <;> simp
  unsupported files path path' :=
    ⟨Option.some_inj.trans (loadFile_eq_error_iff (.inl ⟨path', rfl⟩)),
      readSchemaFile_eq_unsupported_iff⟩
  io files path fault :=
    ⟨Option.some_inj.trans (loadFile_eq_error_iff (.inr ⟨fault, rfl⟩)), readSchemaFile_eq_io_iff⟩
  unread files path failure hread := by
    rw [carryOut, loadFile_of_error hread]
    rfl
  content files path source :=
    ⟨readSchemaFile_eq_ok_iff, fun hread => by rw [carryOut, carryOut, loadFile_of_ok hread]⟩

/-- After any sequence of calls on a session that showed nothing, and one call more, the session
reflects this last call: what it shows and what the call returned are the same as on a session that
has been through nothing before, and the last call alone tells what they are. -/
theorem reflects_last (layout : Layout) (calls : List Call) (call : Call) :
    let before := (fresh layout).run calls
    Reflects layout call (before.carryOut call).1 (before.carryOut call).2 ∧
      FailsAs before ∧ (fresh layout).run (calls ++ [call]) = (before.carryOut call).1 ∧
      before.carryOut call = (fresh layout).carryOut call := by
  intro before
  have hlayout : before.layout = layout := layout_run _ calls
  refine ⟨?_, failsAs before, ?_, ?_⟩
  · rw [← hlayout]
    exact reflects_carryOut before call
  · simp [run, before, List.foldl_append]
  · rw [carryOut_eq_fresh before call, hlayout]

/-- A text is shown, another one fails to load, and then the content of a file outside the working
directory is shown. -/
theorem reflects_last_content :
    let source := "type User \x7b id: ID \x7d type Query \x7b me: User \x7d"
    let files : FileSystem :=
      FileTree.system ⟨["home", "work"], [(["schemas", "api.graphql"], .file source.toUTF8)]⟩
    let load := Call.loadFile files "/schemas/api.graphql"
    let shown := (fresh .standard).run [.loadSource source]
    let before := (fresh .standard).run [.loadSource source, .loadSource "type Query \x7b"]
    shown.isLoaded = true ∧ before.isLoaded = false ∧ load.Loads source ∧
      ∃ graph, (before.carryOut load).2 = some (.ok graph) ∧ graph.edges.length = 1 ∧
        Reflects .standard load (before.carryOut load).1 (before.carryOut load).2 := by
  intro source files load shown before
  have hshown : shown.isLoaded = true := by decide +kernel
  have hbefore : before.isLoaded = false := by decide +kernel
  have hcontent : files.readText "/schemas/api.graphql" = .ok source := by
    obtain ⟨content, hread⟩ : ∃ content, files.readText "/schemas/api.graphql" = .ok content :=
      exists_ok_of_isOk (by decide +kernel)
    have hsame : (files.readText "/schemas/api.graphql").toOption = some source := by
      decide +kernel
    rw [hread] at hsame ⊢
    exact congrArg Except.ok (Option.some.inj hsame)
  obtain ⟨graph, hgraph⟩ : ∃ graph, (before.loadFile files "/schemas/api.graphql").2 = .ok graph :=
    exists_ok_of_isOk (by decide +kernel)
  have hedges : (before.loadFile files "/schemas/api.graphql").2.toOption.map
      (·.edges.length) = some 1 := by
    decide +kernel
  rw [hgraph] at hedges
  exact ⟨hshown, hbefore, .content (by decide +kernel) hcontent, graph, congrArg some hgraph,
    Option.some.inj hedges, (reflects_last .standard _ load).1⟩

end Session

end SdlGraph
