import StepGraph.Graph.Encoding
import StepGraph.Proofs.View.Encoding

/-!
Drawn views read back as they were written. Trails, summaries and the names of paths are left out
where they are absent, all other absent values are written as null; both are read as absent again.
-/
set_option autoImplicit false

namespace StepGraph

open Json Record

attribute [local simp] List.lookup_append List.lookup_cons

theorem EdgeId.restores : Restores EdgeId.ofJson? EdgeId.toJson := ⟨fun _ => rfl, rfl⟩

theorem TrailEntry.restores : Restores TrailEntry.ofJson? TrailEntry.toJson where
  decode_encode e := Takes.read_object <|
    .bind (takes_required restores_string rfl) <|
    .bind (takes_required restores_string rfl) <|
    .bind (takes_required ForkKind.restores rfl) <|
    .bind (takes_required restores_nat rfl) <|
    .bind (takes_required restores_nat rfl) <|
    .bind (takes_nullable_if restores_string (by simp)) <|
    .bind (takes_nullable_if restores_string (by simp)) <|
    .bind (takes_required restores_bool (by simp)) (takes_pure e)
  decode_null := rfl

theorem PathSummary.restores : Restores PathSummary.ofJson? PathSummary.toJson where
  decode_encode p := Takes.read_object <|
    .bind (takes_required restores_string rfl) <|
    .bind (takes_required restores_nat rfl) <|
    .bind (takes_required restores_bool rfl) <|
    .bind (takes_nullable_if restores_string (by simp)) <|
    .bind (takes_nullable_if restores_string (by simp)) <|
    .bind (takes_nullable_if restores_string (by simp)) <|
    .bind (takes_nullable_if restores_strings (by simp)) <|
    .bind (takes_required EdgeId.restores.list (by simp)) (takes_pure p)
  decode_null := rfl

theorem ForkSummary.restores : Restores ForkSummary.ofJson? ForkSummary.toJson where
  decode_encode f := Takes.read_object <|
    .bind (takes_required restores_string rfl) <|
    .bind (takes_required ForkKind.restores rfl) <|
    .bind (takes_nullable_if restores_string (by simp)) <|
    .bind (takes_nullable_if restores_string (by simp)) <|
    .bind (takes_required PathSummary.restores.list (by simp)) (takes_pure f)
  decode_null := rfl

theorem Style.restores : Restores Style.ofJson? Style.toJson where
  decode_encode s := Takes.read_object <|
    .bind (takes_required restores_string rfl) <|
    .bind (takes_required restores_string rfl) <|
    .bind (takes_required restores_byte rfl) <|
    .bind (takes_required restores_string rfl) <|
    .bind (takes_required restores_string rfl) (takes_pure s)
  decode_null := rfl

theorem Node.restores : Restores Node.ofJson? Node.toJson where
  decode_encode n := Takes.read_object <|
    .bind (takes_required Name.restores rfl) <|
    .bind (takes_required restores_string rfl) <|
    .bind (takes_required restores_string rfl) <|
    .bind (takes_nullable restores_string rfl) <|
    .bind (takes_nullable restores_string rfl) <|
    .bind (takes_required restores_strings rfl) <|
    .bind (takes_nullable Name.restores rfl) <|
    .bind (takes_required Name.restores.list rfl) <|
    .bind (takes_required EdgeId.restores.list rfl) <|
    .bind (takes_required EdgeId.restores.list rfl) <|
    .bind (takes_required restores_nat rfl) <|
    .bind (takes_required restores_nat rfl) <|
    .bind (takes_nullable restores_string rfl) <|
    .bind (takes_required Style.restores rfl) (takes_pure n)
  decode_null := rfl

theorem Direction.restores : Restores Direction.ofJson? Direction.toJson where
  decode_encode d := by cases d <;> rfl
  decode_null := rfl

theorem Edge.restores : Restores Edge.ofJson? Edge.toJson where
  decode_encode e := Takes.read_object <|
    .bind (takes_required EdgeId.restores rfl) <|
    .bind (takes_required Name.restores rfl) <|
    .bind (takes_required Name.restores rfl) <|
    .bind (takes_nullable Name.restores rfl) <|
    .bind (takes_nullable restores_string rfl) <|
    .bind (takes_nullable restores_string rfl) <|
    .bind (takes_nullable restores_string rfl) <|
    .bind (takes_nullable restores_string rfl) <|
    .bind (takes_nullable restores_string rfl) <|
    .bind (takes_nullable restores_string rfl) <|
    .bind (takes_required restores_strings rfl) <|
    .bind (takes_required Direction.restores rfl) <|
    .bind (takes_required restores_string rfl) <|
    .bind (takes_required restores_string rfl) <|
    .bind (takes_required restores_string rfl) <|
    .bind (takes_nullable restores_string rfl) <|
    .bind (takes_nullable restores_string rfl) <|
    .bind (takes_nullable_if TrailEntry.restores.list (by simp)) <|
    .bind (takes_required restores_string (by simp)) (takes_pure e)
  decode_null := rfl

/-- A graph is read back from what is written for it, whatever it holds. -/
theorem graph_reread (g : Graph) : Graph.ofJson? g.toJson = some g :=
  Takes.read_object <|
    .bind (takes_required restores_string rfl) <|
    .bind (takes_nullable restores_string rfl) <|
    .bind (takes_nullable restores_string rfl) <|
    .bind (takes_required restores_strings rfl) <|
    .bind (takes_required Layout.restores rfl) <|
    .bind (takes_required Variant.restores rfl) <|
    .bind (takes_required Node.restores.list rfl) <|
    .bind (takes_required Edge.restores.list rfl) <|
    .bind (takes_nullable_if ForkSummary.restores.list (by simp)).omissible (takes_pure g)

end StepGraph
