import SdlGraph.Proofs.Catalog.Contents
import SdlGraph.Proofs.Document.Placeless
import SdlGraph.Proofs.Graph.Depiction
import SdlGraph.Proofs.Session
import SdlGraph.Proofs.Token.Appending

/-!
# Schema texts that grow

A schema text that is continued behind a line break keeps its tokens, and with more definitions
behind it a document keeps the types that it has. As long as no extension adds to them, the first
types that the graph shows are the same, on the same places of the grid, and the edges of a type
depend on the types before it only. So the graph keeps its nodes and edges and gets new ones behind
them.
-/

namespace SdlGraph

section Entries

variable {σ τ : Type} (f : σ → τ)

@[simp]
theorem InputValue.argumentEntry_mapPlace (input : InputValue σ) :
    (input.mapPlace f).argumentEntry = input.argumentEntry := by
  simp [argumentEntry, mapPlace, TypeUse.mapPlace, Function.comp_def]

@[simp]
theorem InputValue.fieldEntry_mapPlace (input : InputValue σ) :
    (input.mapPlace f).fieldEntry = input.fieldEntry := by
  simp [fieldEntry, mapPlace, TypeUse.mapPlace, Function.comp_def]

@[simp]
theorem Field.entry_mapPlace (field : Field σ) : (field.mapPlace f).entry = field.entry := by
  simp [entry, mapPlace, TypeUse.mapPlace, Function.comp_def]

@[simp]
theorem TypeBody.fieldEntries_mapPlace (body : TypeBody σ) :
    (body.mapPlace f).fieldEntries = body.fieldEntries := by
  simp [fieldEntries, Function.comp_def]

/-- The entry of a type does not depend on where its parts stand. -/
theorem TypeEntry.ofBodies_mapPlace (name : String) (kind : TypeKind) (description : Option String)
    (bodies : List (TypeBody σ)) :
    ofBodies name kind description (bodies.map (·.mapPlace f)) =
      ofBodies name kind description bodies := by
  simp [ofBodies, List.flatMap_map, EnumValue.mapPlace, Function.comp_def]

namespace Document

variable (document : Document σ)

/-- The entries of the types that a document defines, extensions included. -/
def typeEntries : List TypeEntry := document.typeDefinitions.map document.typeEntry

theorem typeDefinitions_mapPlace : (document.mapPlace f).typeDefinitions =
    document.typeDefinitions.map fun defined =>
      (defined.1.map (·.mapPlace f), defined.2.mapPlace f) := by
  rw [typeDefinitions, mapPlace, List.filterMap_map, typeDefinitions, List.map_filterMap]
  congr 1
  funext definition
  cases definition <;> rfl

theorem typeExtensions_mapPlace : (document.mapPlace f).typeExtensions =
    document.typeExtensions.map (·.mapPlace f) := by
  rw [typeExtensions, mapPlace, List.filterMap_map, typeExtensions, List.map_filterMap]
  congr 1
  funext definition
  cases definition <;> rfl

theorem extensionBodies_mapPlace (name : String) : (document.mapPlace f).extensionBodies name =
    (document.extensionBodies name).map (·.mapPlace f) := by
  rw [extensionBodies, typeExtensions_mapPlace, extensionBodies, List.filter_map, List.map_map,
    List.map_map]
  rfl

theorem typeEntries_mapPlace : (document.mapPlace f).typeEntries = document.typeEntries := by
  rw [typeEntries, typeDefinitions_mapPlace, List.map_map, typeEntries]
  refine List.map_congr_left fun defined _ => ?_
  obtain ⟨description, declaration⟩ := defined
  rw [Function.comp_apply, typeEntry, typeEntry, extensionBodies_mapPlace,
    TypeDeclaration.kind_mapPlace, Option.map_map,
    ← TypeEntry.ofBodies_mapPlace f _ _ _ (declaration.body :: _), List.map_cons]
  rfl

/-- The definitions of another document put behind those of a document leave the entries of its
types, unless one of them extends a type. -/
theorem typeEntries_append (first : Document σ) {second : Document σ}
    (h : second.typeExtensions = []) :
    ∃ more, (Document.mk (first.definitions ++ second.definitions)).typeEntries =
      first.typeEntries ++ more := by
  have hentry :
      (Document.mk (first.definitions ++ second.definitions)).typeEntry = first.typeEntry := by
    funext defined
    have hnone : second.extensionBodies defined.2.name.value = [] := by
      rw [extensionBodies, h]
      rfl
    rw [typeEntry, typeEntry, extensionBodies_append, hnone, List.append_nil]
  have hdefinitions : (Document.mk (first.definitions ++ second.definitions)).typeDefinitions =
      first.typeDefinitions ++ second.typeDefinitions := List.filterMap_append
  refine ⟨second.typeDefinitions.map first.typeEntry, ?_⟩
  rw [typeEntries, hentry, hdefinitions, List.map_append, typeEntries]

end Document

end Entries

/-- The types that a graph shows are among those that the document defines. -/
theorem Document.Sound.shownTypes_eq {σ : Type} {document : Document σ} (hsound : document.Sound)
    {catalog : Catalog} (h : document.assemble = .ok catalog) :
    catalog.shownTypes = document.typeEntries.filter fun type =>
      (type.kind = .object ∨ type.kind = .interface) ∧ ¬['_', '_'] <+: type.name.toList := by
  have hbuiltIn : ∀ type ∈ BuiltIn.types,
      ¬((type.kind = .object ∨ type.kind = .interface) ∧ ¬['_', '_'] <+: type.name.toList) := by
    decide +kernel
  rw [Catalog.shownTypes, hsound.entries_types h, List.filter_append, ← typeEntries]
  refine (congrArg _ (List.filter_eq_nil_iff.mpr fun type ht => ?_)).trans (List.append_nil _)
  exact fun hshown => hbuiltIn type (List.mem_filter.mp ht).1 (of_decide_eq_true hshown)

/-- An edge stands for a field by the earlier types, whatever types come later. -/
theorem Edge.standsFor_append_iff {types more : List TypeEntry} {source : Nat} {field : FieldEntry}
    {edge : Edge} (hlt : source < types.length) :
    edge.StandsFor (types ++ more) source field ↔ edge.StandsFor types source field := by
  have hget {target : Nat} (ht : target < source) : (types ++ more)[target]? = types[target]? :=
    List.getElem?_append_left (ht.trans hlt)
  constructor
  · rintro ⟨target, type, ht, htype, hedge⟩
    exact ⟨target, type, ht, hget ht ▸ htype, hedge⟩
  · rintro ⟨target, type, ht, htype, hedge⟩
    exact ⟨target, type, ht, (hget ht).symm ▸ htype, hedge⟩

/-- A graph that shows more types behind those of another one has its nodes and edges, and more
behind them. -/
theorem SchemaGraph.Depicts.grows {graph larger : SchemaGraph} {layout : Layout}
    {types more : List TypeEntry} (h : graph.Depicts layout types)
    (hlarger : larger.Depicts layout (types ++ more)) :
    graph.nodes <+: larger.nodes ∧ graph.edges <+: larger.edges := by
  constructor
  · rw [h.nodes, hlarger.nodes, List.mapIdx_append]
    exact List.prefix_append _ _
  · obtain ⟨edge?, hedge, hedges⟩ := h.edges
    obtain ⟨other?, hother, hothers⟩ := hlarger.edges
    have hsame : (types.mapIdx fun source type => type.fields.filterMap (other? source)) =
        types.mapIdx fun source type => type.fields.filterMap (edge? source) := by
      refine List.ext_getElem (by simp) fun source hlt _ => ?_
      rw [List.length_mapIdx] at hlt
      have hmore : source < (types ++ more).length := by
        rw [List.length_append]
        omega
      have hfields : other? source = edge? source := by
        funext field
        refine Option.ext fun edge => ?_
        rw [hother source hmore, hedge source hlt, Edge.standsFor_append_iff hlt]
      rw [List.getElem_mapIdx, List.getElem_mapIdx, hfields]
    rw [hedges, hothers, List.mapIdx_append, List.flatten_append, hsame]
    exact List.prefix_append _ _

/-- The types that the graph of a schema text shows come first among those of the text with more
definitions behind it. -/
theorem Catalog.shownTypes_append {schema more lineBreak : String} {catalog whole : Catalog}
    {tokens : SignificantTokens} {document : Document Extent}
    (hschema : ofSource schema = .ok catalog)
    (htokens : SignificantTokens.ofSource more = .ok tokens)
    (hdocument : tokens.document = .ok document) (hextensions : document.typeExtensions = [])
    (hbreak : lineBreak ∈ lineBreaks)
    (hwhole : ofSource (schema ++ lineBreak ++ more) = .ok whole) :
    ∃ types, whole.shownTypes = catalog.shownTypes ++ types := by
  obtain ⟨_, first, hfirst, hread, hsound, hcatalog⟩ := ofSource_eq_ok_iff.mp hschema
  obtain ⟨_, all, hall, hreadAll, hsoundAll, hwholeCatalog⟩ := ofSource_eq_ok_iff.mp hwhole
  have hmore := SignificantTokens.document_eq_ok_iff.mp hdocument
  -- The document of the whole text has the definitions of both documents.
  obtain ⟨joined, hjoined, hvalues⟩ := SignificantTokens.ofSource_append hfirst htokens hbreak
  obtain rfl := Except.ok.inj (hall.symm.trans hjoined)
  obtain ⟨read, hreadJoined, hplaceless⟩ := Document.read_append hread hmore
  rw [← hvalues] at hreadJoined
  obtain rfl := Except.ok.inj (hreadAll.symm.trans hreadJoined)
  have hnone : (document.mapPlace noPlace).typeExtensions = [] := by
    rw [Document.typeExtensions_mapPlace, hextensions, List.map_nil]
  obtain ⟨entries, hentries⟩ := (first.mapPlace noPlace).typeEntries_append hnone
  rw [← hplaceless, Document.typeEntries_mapPlace] at hentries
  rw [hsound.shownTypes_eq hcatalog, hsoundAll.shownTypes_eq hwholeCatalog, hentries,
    Document.typeEntries_mapPlace, List.filter_append]
  exact ⟨_, rfl⟩

/-- A schema text that is accepted, and still is with more definitions behind it, on lines of their
own and without extensions of types, has its graph in the larger one: the nodes and edges come first
there, unchanged and in the same order. -/
theorem visualize_append (layout : Layout) {schema more lineBreak : String}
    {catalog whole : Catalog} {tokens : SignificantTokens} {document : Document Extent}
    (hschema : parseSchema schema = .ok catalog)
    (htokens : SignificantTokens.ofSource more = .ok tokens)
    (hdocument : tokens.document = .ok document) (hextensions : document.typeExtensions = [])
    (hbreak : lineBreak ∈ lineBreaks)
    (hwhole : parseSchema (schema ++ lineBreak ++ more) = .ok whole) :
    ∃ graph larger, visualize layout schema = .ok graph ∧
      visualize layout (schema ++ lineBreak ++ more) = .ok larger ∧
      graph.nodes <+: larger.nodes ∧ graph.edges <+: larger.edges ∧
      graph.nodes.map (·.colorClass) <+: larger.nodes.map (·.colorClass) := by
  obtain ⟨types, hwholeTypes⟩ := Catalog.shownTypes_append (parseSchema_eq_ok_iff.mp hschema)
    htokens hdocument hextensions hbreak (parseSchema_eq_ok_iff.mp hwhole)
  have hgraph : visualize layout schema = .ok (catalog.project layout) := by
    rw [visualize, hschema]
  have hlarger : visualize layout (schema ++ lineBreak ++ more) = .ok (whole.project layout) := by
    rw [visualize, hwhole]
  have hdepicts := whole.depicts_project layout
  rw [hwholeTypes] at hdepicts
  obtain ⟨hnodes, hedges⟩ := (catalog.depicts_project layout).grows hdepicts
  exact ⟨_, _, hgraph, hlarger, hnodes, hedges, hnodes.map _⟩

/-- A text that ends in a comment is continued: the line break ends the comment, the types keep
their nodes, a field that leads to a later type still has no edge, and a type behind them gets an
edge to an earlier one. -/
theorem visualize_append_comment :
    let schema := "type Query \x7b b: B \x7d type B \x7b q: Query \x7d # end"
    let more := "scalar Int type C \x7b b: [B] \x7d"
    ∃ graph larger, visualize .standard schema = .ok graph ∧
      visualize .standard (schema ++ "\r\n" ++ more) = .ok larger ∧
      (graph.nodes.length, graph.edges.length) = (2, 1) ∧
      (larger.nodes.length, larger.edges.length) = (3, 2) ∧
      graph.nodes <+: larger.nodes ∧ graph.edges <+: larger.edges ∧
      graph.nodes.map (·.colorClass) <+: larger.nodes.map (·.colorClass) := by
  intro schema more
  let size (outcome : Except Failure SchemaGraph) : Option (Nat × Nat) :=
    outcome.toOption.map fun graph => (graph.nodes.length, graph.edges.length)
  have hschema : (parseSchema schema).isOk = true := by decide +kernel
  have hwhole : (parseSchema (schema ++ "\r\n" ++ more)).isOk = true := by decide +kernel
  obtain ⟨catalog, hschema⟩ := exists_ok_of_isOk hschema
  obtain ⟨whole, hwhole⟩ := exists_ok_of_isOk hwhole
  have hextensions : ((SignificantTokens.ofSource more).toOption.bind fun tokens =>
      tokens.document.toOption.map fun document => document.typeExtensions.length) = some 0 := by
    decide +kernel
  have hsize : size (visualize .standard schema) = some (2, 1) := by decide +kernel
  have hsize' : size (visualize .standard (schema ++ "\r\n" ++ more)) = some (3, 2) := by
    decide +kernel
  obtain ⟨tokens, document, htokens, hdocument, hextensions⟩ :=
    SignificantTokens.exists_document_of_found hextensions
  obtain ⟨graph, larger, hgraph, hlarger, hgrows⟩ := visualize_append .standard hschema htokens
    hdocument (List.length_eq_zero_iff.mp hextensions) (by decide : "\r\n" ∈ lineBreaks) hwhole
  rw [hgraph] at hsize
  rw [hlarger] at hsize'
  exact ⟨graph, larger, hgraph, hlarger, Option.some.inj hsize, Option.some.inj hsize', hgrows⟩

end SdlGraph
