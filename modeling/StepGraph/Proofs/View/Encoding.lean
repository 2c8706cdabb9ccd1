import StepGraph.Proofs.Step.Encoding
import StepGraph.View.Encoding

/-!
Declared views read back as they were written. Documents may say less than what is written for the
view that they hold: fields with values of their own may be missing, and others may be added.
-/
set_option autoImplicit false

namespace StepGraph

open Json Record

theorem Layout.restores : Restores Layout.ofJson? Layout.toJson where
  decode_encode l := by cases l <;> rfl
  decode_null := rfl

theorem Variant.restores : Restores Variant.ofJson? Variant.toJson where
  decode_encode v := by cases v <;> rfl
  decode_null := rfl

/-- The parts of the style stand among the fields of its rule. -/
theorem StyleRule.takes_patch (r : StyleRule) :
    StylePatch.record.Takes (("targets", strings r.targets) :: r.patch.fields) r.patch :=
  .bind (takes_nullable restores_string rfl) <|
  .bind (takes_nullable restores_string rfl) <|
  .bind (takes_nullable restores_byte rfl) <|
  .bind (takes_nullable restores_string rfl) <|
  .bind (takes_nullable restores_string rfl) (takes_pure r.patch)

theorem StyleRule.restores : Restores StyleRule.ofJson? StyleRule.toJson where
  decode_encode r := Takes.read_object <|
    .bind (takes_required restores_strings rfl) <|
    .bind r.takes_patch (takes_pure r)
  decode_null := rfl

theorem Rule.restores : Restores Rule.ofJson? Rule.toJson where
  decode_encode r := by
    cases r with
    | including es => exact congrArg (Option.map including) (restores_strings.decode_encode es)
    | excluding es => exact congrArg (Option.map excluding) (restores_strings.decode_encode es)
    | styling r => exact congrArg (Option.map styling) (StyleRule.restores.decode_encode r)
  decode_null := rfl

/-- A view is read back from what is written for it, whatever it holds. So a document that can be
read at all may be replaced by what is written for the view read from it. -/
theorem view_reread : (∀ v : View, View.ofJson? v.toJson = some v) ∧
    ∀ j, (View.ofJson? j).bind (fun v => View.ofJson? v.toJson) = View.ofJson? j := by
  have hreread : ∀ v : View, View.ofJson? v.toJson = some v := fun v => Takes.read_object <|
    .bind (takes_required restores_string rfl) <|
    .bind (takes_nullable restores_string rfl) <|
    .bind (takes_nullable restores_string rfl) <|
    .bind (takes_defaulted restores_strings rfl) <|
    .bind (takes_defaulted Rule.restores.list rfl) <|
    .bind (takes_defaulted Step.restores.list rfl) <|
    .bind (takes_defaulted Layout.restores rfl) <|
    .bind (takes_defaulted Variant.restores rfl) (takes_pure v)
  refine ⟨hreread, fun j => ?_⟩
  cases View.ofJson? j with
  | none => rfl
  | some v => exact hreread v

end StepGraph
