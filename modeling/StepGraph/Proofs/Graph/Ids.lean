import StepGraph.Proofs.Graph.Crossings
import StepGraph.Proofs.Graph.Encoding
import StepGraph.Proofs.Graph.Summaries
import StepGraph.Proofs.Json.Parts

/-!
The ids in documents of drawn views. An id is read as it is written, whatever text it is; so the ids
of a document are those of steps if its texts are, and only then. In what is written for a view that
was drawn they are.
-/
set_option autoImplicit false

namespace StepGraph

open Json Record

def ForkSummary.ids (f : ForkSummary) : List EdgeId := f.paths.flatMap (·.edgeIds)

def Node.ids (n : Node) : List EdgeId := n.inEdges ++ n.outEdges

def Graph.ids (g : Graph) : List EdgeId :=
  g.nodes.flatMap Node.ids ++ g.edges.map (·.id) ++ (g.forks.getD []).flatMap ForkSummary.ids

def EdgeId.texts (j : Json) : List String := j.string?.toList

def PathSummary.idTexts (j : Json) : List String := (j.itemsAt "edgeIds" 7).flatMap EdgeId.texts

def ForkSummary.idTexts (j : Json) : List String :=
  (j.itemsAt "paths" 4).flatMap PathSummary.idTexts

def Node.idTexts (j : Json) : List String :=
  (j.itemsAt "inEdges" 8 ++ j.itemsAt "outEdges" 9).flatMap EdgeId.texts

def Edge.idTexts (j : Json) : List String := (j.part? "id" 0).toList.flatMap EdgeId.texts

def Graph.idTexts (j : Json) : List String :=
  (j.itemsAt "nodes" 6).flatMap Node.idTexts ++ (j.itemsAt "edges" 7).flatMap Edge.idTexts ++
    (j.itemsAt "branchCollections" 8).flatMap ForkSummary.idTexts

theorem EdgeId.texts_of_ofJson? {j : Json} {id : EdgeId} (h : EdgeId.ofJson? j = some id) :
    [id.text] = texts j := by
  obtain ⟨text, htext, rfl⟩ := Option.map_eq_some_iff.mp h
  rw [texts, htext]
  rfl

section

variable {α β : Type} {decode : Json → Option α} {f : α → List β} {g : Json → List β} {j : Json}
  {key : String} {n : Nat}

theorem flatMap_itemsAt (hitem : ∀ i a, decode i = some a → f a = g i) {as : List α}
    (h : (j.part? key n).bind (list? decode) = some as) :
    as.flatMap f = (j.itemsAt key n).flatMap g := by
  obtain ⟨i, hi, has⟩ := Option.bind_eq_some_iff.mp h
  rw [itemsAt, hi]
  exact flatMap_of_list? hitem has

theorem flatMap_itemsAt_optional (hitem : ∀ i a, decode i = some a → f a = g i)
    {o : Option (List α)}
    (h : ((j.part? key n).getD .null).optional? (list? decode) = some o) :
    (o.getD []).flatMap f = (j.itemsAt key n).flatMap g := by
  rw [flatMap_of_optional? hitem h, itemsAt]
  cases j.part? key n <;> rfl

end

theorem PathSummary.yields_idTexts (j : Json) : PathSummary.record.Yields j 0 8 fun p =>
    p.edgeIds.flatMap (fun id => [id.text]) = idTexts j :=
  .bind yields_required fun _ _ =>
  .bind yields_required fun _ _ =>
  .bind yields_required fun _ _ =>
  .bind yields_nullable fun _ _ =>
  .bind yields_nullable fun _ _ =>
  .bind yields_nullable fun _ _ =>
  .bind yields_nullable fun _ _ =>
  .bind yields_required fun _ hids =>
  yields_pure (flatMap_itemsAt (fun _ _ => EdgeId.texts_of_ofJson?) hids)

theorem ForkSummary.yields_idTexts (j : Json) : ForkSummary.record.Yields j 0 5 fun f =>
    f.ids.flatMap (fun id => [id.text]) = idTexts j :=
  .bind yields_required fun _ _ =>
  .bind yields_required fun _ _ =>
  .bind yields_nullable fun _ _ =>
  .bind yields_nullable fun _ _ =>
  .bind yields_required fun _ hpaths =>
  yields_pure (by
    rw [ids, List.flatMap_assoc]
    exact flatMap_itemsAt (fun i _ => (PathSummary.yields_idTexts i).read) hpaths)

theorem Node.yields_idTexts (j : Json) : Node.record.Yields j 0 14 fun n =>
    n.ids.flatMap (fun id => [id.text]) = idTexts j :=
  .bind yields_required fun _ _ =>
  .bind yields_required fun _ _ =>
  .bind yields_required fun _ _ =>
  .bind yields_nullable fun _ _ =>
  .bind yields_nullable fun _ _ =>
  .bind yields_required fun _ _ =>
  .bind yields_nullable fun _ _ =>
  .bind yields_required fun _ _ =>
  .bind yields_required fun _ hin =>
  .bind yields_required fun _ hout =>
  .bind yields_required fun _ _ =>
  .bind yields_required fun _ _ =>
  .bind yields_nullable fun _ _ =>
  .bind yields_required fun _ _ =>
  yields_pure (by
    rw [ids, List.flatMap_append, idTexts, List.flatMap_append,
      flatMap_itemsAt (fun _ _ => EdgeId.texts_of_ofJson?) hin,
      flatMap_itemsAt (fun _ _ => EdgeId.texts_of_ofJson?) hout])

theorem Edge.yields_idTexts (j : Json) : Edge.record.Yields j 0 19 fun e =>
    [e.id.text] = idTexts j :=
  .bind yields_required fun _ hid =>
  .bind yields_required fun _ _ =>
  .bind yields_required fun _ _ =>
  .bind yields_nullable fun _ _ =>
  .bind yields_nullable fun _ _ =>
  .bind yields_nullable fun _ _ =>
  .bind yields_nullable fun _ _ =>
  .bind yields_nullable fun _ _ =>
  .bind yields_nullable fun _ _ =>
  .bind yields_nullable fun _ _ =>
  .bind yields_required fun _ _ =>
  .bind yields_required fun _ _ =>
  .bind yields_required fun _ _ =>
  .bind yields_required fun _ _ =>
  .bind yields_required fun _ _ =>
  .bind yields_nullable fun _ _ =>
  .bind yields_nullable fun _ _ =>
  .bind yields_nullable fun _ _ =>
  .bind yields_required fun _ _ =>
  yields_pure (by
    obtain ⟨i, hi, hid⟩ := Option.bind_eq_some_iff.mp hid
    rw [idTexts, hi, EdgeId.texts_of_ofJson? hid]
    simp)

theorem Graph.yields_idTexts (j : Json) : Graph.record.Yields j 0 9 fun g =>
    g.ids.flatMap (fun id => [id.text]) = idTexts j :=
  .bind yields_required fun _ _ =>
  .bind yields_nullable fun _ _ =>
  .bind yields_nullable fun _ _ =>
  .bind yields_required fun _ _ =>
  .bind yields_required fun _ _ =>
  .bind yields_required fun _ _ =>
  .bind yields_required fun _ hnodes =>
  .bind yields_required fun _ hedges =>
  .bind yields_omissible fun _ hforks =>
  yields_pure (by
    rw [ids, List.flatMap_append, List.flatMap_append, List.flatMap_assoc, List.flatMap_assoc,
      List.flatMap_map, idTexts,
      flatMap_itemsAt (fun i _ => (Node.yields_idTexts i).read) hnodes,
      flatMap_itemsAt (fun i _ => (Edge.yields_idTexts i).read) hedges,
      flatMap_itemsAt_optional (fun i _ => (ForkSummary.yields_idTexts i).read) hforks])

theorem Graph.texts_of_ofJson? {j : Json} {g : Graph} (h : Graph.ofJson? j = some g) :
    g.ids.map (·.text) = idTexts j := by
  rw [List.map_eq_flatMap]
  exact (yields_idTexts j).read h

theorem exists_entry_of_mem_idsUnder {key : Key} {log : List Entry} {id : EdgeId}
    (h : id ∈ idsUnder key log) : ∃ x ∈ log, x.1 = id := by
  obtain ⟨x, hx, hid⟩ := List.mem_flatMap.mp h
  exact ⟨x, hx, (List.eq_of_mem_replicate hid).symm⟩

theorem Graph.forks_of_draw_flat {model : Model} {options : Options} {v : View} {g : Graph}
    (h : v.draw model options = .ok g) (hflat : options.branchAware = false) :
    g.forks.getD [] = [] := by
  obtain ⟨selected, l, nodes, _, hl, _, rfl⟩ := View.draw_eq_ok_iff.mp h
  rw [hflat] at hl
  rw [View.getD_forks_graphOf]
  exact (Scene.placeFlat_eq_ok_iff.mp hl).1

theorem Graph.exists_edge_of_draw {model : Model} {options : Options} {v : View} {g : Graph}
    (h : v.draw model options = .ok g) {id : EdgeId} (hid : id ∈ g.ids) :
    ∃ e ∈ g.edges, e.id = id := by
  rw [ids, List.mem_append, List.mem_append] at hid
  rcases hid with (hid | hid) | hid
  · obtain ⟨n, hn, hid⟩ := List.mem_flatMap.mp hid
    obtain ⟨hout, hin⟩ := noted_of_draw h hn
    rw [Node.ids, hout, hin, List.mem_append, List.mem_map, List.mem_map] at hid
    rcases hid with ⟨e, he, hid⟩ | ⟨e, he, hid⟩
    · exact ⟨e, (List.mem_filter.mp he).1, hid⟩
    · exact ⟨e, (List.mem_filter.mp he).1, hid⟩
  · exact List.mem_map.mp hid
  · obtain ⟨c, hc, hid⟩ := List.mem_flatMap.mp hid
    obtain ⟨p, hp, hid⟩ := List.mem_flatMap.mp hid
    cases haware : options.branchAware with
    | false =>
      rw [forks_of_draw_flat h haware] at hc
      cases hc
    | true =>
      obtain ⟨forks, hholds, hforks⟩ := holds_of_draw h haware
      rw [hforks] at hc
      rw [hholds.edgeIds_summary hc hp] at hid
      obtain ⟨x, hx, hid⟩ := exists_entry_of_mem_idsUnder hid
      obtain ⟨e, he, rfl⟩ := List.mem_map.mp hx
      exact ⟨e, he, hid⟩

/-- Whatever texts a document holds where ids are read, they are the ids of its graph. So all of
these are recognised just if all of the texts are, and all of them are if the graph was drawn. The
segments of an id that is recognised can be told; of another they can if one of its characters ends
after five bytes. -/
theorem ids_of_document {j : Json} {g : Graph} (h : Graph.ofJson? j = some g) :
    g.ids.map (·.text) = Graph.idTexts j ∧
    ((∀ id ∈ g.ids, EdgeId.parse? id.text = some id) ↔
      ∀ text ∈ Graph.idTexts j, EdgeId.isId text = true) ∧
    (∀ id ∈ g.ids, (EdgeId.parse? id.text = some id → id.segments?.isSome = true) ∧
      (id.segments?.isSome = true ↔
        ∃ front rest : String, id.text = front ++ rest ∧ front.utf8ByteSize = 5)) ∧
    ∀ model options v, View.draw model options v = .ok g →
      ∀ id ∈ g.ids, EdgeId.parse? id.text = some id := by
  have htexts := Graph.texts_of_ofJson? h
  refine ⟨htexts, ?_, fun id _ => ⟨fun hid => ?_, EdgeId.isSome_segments?_iff⟩, ?_⟩
  · simp only [← htexts, List.forall_mem_map, EdgeId.parse?_eq_some_iff]
  · exact EdgeId.isSome_segments?_of_isId (EdgeId.parse?_eq_some_iff.mp hid)
  · intro model options v hdraw id hid
    obtain ⟨e, he, rfl⟩ := Graph.exists_edge_of_draw hdraw hid
    obtain ⟨root, nested, hid⟩ := exists_ofSegments_of_draw hdraw he
    rw [hid, EdgeId.parse?_ofSegments]

/-- The document of a view with one edge, under an id that is none of a step. -/
def mislabelled : Json := .object
  [("id", .string "v"), ("title", .null), ("description", .null), ("tags", .array []),
   ("autoLayout", .string "TB"), ("variant", .string "diagram"), ("nodes", .array []),
   ("edges", .array [.object
     [("id", .string "x"), ("source", .string "a"), ("target", .string "b"), ("parent", .null),
      ("label", .null), ("description", .null), ("technology", .null), ("kind", .null),
      ("notation", .null), ("notes", .null), ("relations", .array []),
      ("dir", .string "forward"), ("color", .string "gray"), ("line", .string "dashed"),
      ("head", .string "normal"), ("tail", .null), ("navigateTo", .null),
      ("astPath", .string "")]])]

theorem ids_of_document_mislabelled :
    ∃ g, Graph.ofJson? mislabelled = some g ∧ g.ids.map (·.text) = Graph.idTexts mislabelled ∧
      ((∀ id ∈ g.ids, EdgeId.parse? id.text = some id) ↔
        ∀ text ∈ Graph.idTexts mislabelled, EdgeId.isId text = true) ∧
      (∀ id ∈ g.ids, (EdgeId.parse? id.text = some id → id.segments?.isSome = true) ∧
        (id.segments?.isSome = true ↔
          ∃ front rest : String, id.text = front ++ rest ∧ front.utf8ByteSize = 5)) ∧
      ∀ model options v, View.draw model options v = .ok g →
        ∀ id ∈ g.ids, EdgeId.parse? id.text = some id := by
  obtain ⟨g, hg⟩ : ∃ g, Graph.ofJson? mislabelled = some g :=
    Option.isSome_iff_exists.mp (by decide +kernel)
  exact ⟨g, hg, ids_of_document hg⟩

/-- The document is read, although its id is not recognised and has no segments. -/
theorem unrecognised_id_read :
    ∃ g, Graph.ofJson? mislabelled = some g ∧
      ∃ id ∈ g.ids, EdgeId.parse? id.text = none ∧ id.segments? = none := by
  obtain ⟨g, hg, hids⟩ : ∃ g, Graph.ofJson? mislabelled = some g ∧ g.ids = [⟨"x"⟩] :=
    Option.map_eq_some_iff.mp (by decide +kernel)
  exact ⟨g, hg, ⟨"x"⟩, by simp [hids], by decide +kernel, by decide +kernel⟩

end StepGraph
