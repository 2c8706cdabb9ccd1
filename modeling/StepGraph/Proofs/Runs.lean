import StepGraph.Command.Run
import StepGraph.Proofs.Files
import StepGraph.Proofs.Report
import StepGraph.Request

/-!
What a run and a request write. All that a run reads comes down to a task, or the run ends with
nothing written. The text of a task is the report on a workspace with the selected views alone, as
any workspace is reported on; a request gets the same text for all views.
-/
set_option autoImplicit false

namespace StepGraph

def RequestOptions.given? : Option String → Option RequestOptions
  | none => some {}
  | some text => ofText? text

theorem answer_eq_ok_iff {environment : Bool} {workspace text : String} {text? : Option String} :
    answer environment workspace text? = .ok text ↔ ∃ o w theme,
      RequestOptions.given? text? = some o ∧ Workspace.ofText workspace = .ok w ∧
      Theme.find o.theme = .ok theme ∧
      w.render { branchAware := (o.branchAware.or w.project.branchAware).getD environment, theme }
        (o.pretty.getD false) = text := by
  have hrest (o : RequestOptions) : (do
      let w ← (Workspace.ofText workspace).mapError .document
      let theme ← (Theme.find o.theme).mapError .unknownTheme
      let branchAware := Flag.resolve o.branchAware w.project.branchAware environment
      return w.render { branchAware, theme } (o.pretty.getD false) : Except RequestError String) =
        .ok text ↔ ∃ w theme, Workspace.ofText workspace = .ok w ∧
          Theme.find o.theme = .ok theme ∧
          w.render { branchAware := (o.branchAware.or w.project.branchAware).getD environment,
                     theme } (o.pretty.getD false) = text := by
    simp only [bind_eq_ok_iff, mapError_eq_ok_iff, pure_eq_ok_iff, Flag.resolve]
    constructor
    · rintro ⟨w, hw, theme, htheme, rfl⟩
      exact ⟨w, theme, hw, htheme, rfl⟩
    · rintro ⟨w, theme, hw, htheme, rfl⟩
      exact ⟨w, hw, theme, htheme, rfl⟩
  cases text? with
  | none => exact (hrest {}).trans (by simp [RequestOptions.given?])
  | some given =>
    cases hread : RequestOptions.ofText? given with
    | none => simp [answer, hread, RequestOptions.given?, bind, Except.bind]
    | some o =>
      simp only [answer, hread, RequestOptions.given?]
      exact (hrest o).trans (by simp)

namespace Command

structure Task where
  settings : Settings
  workspace : Workspace
  views : List View

namespace Task

structure Given (t : Task) (a : Arguments) (sources : Sources) : Prop where
  settings : (sources.config = none ∧ t.settings = {}) ∨
    ∃ text, sources.config = some (.ok text) ∧ Settings.ofText text = .ok t.settings
  workspace : ∃ text, sources.input = .ok text ∧ Workspace.ofText text = .ok t.workspace
  views : (a.views = [] ∧ t.views = t.workspace.views) ∨
    (a.views ≠ [] ∧ List.Forall₂ (fun name v => t.workspace.view? name = some v) a.views t.views)

variable (t : Task) (a : Arguments) (environment : Option String)

/-- The arguments decide before the configuration, this before the workspace, this before the
environment. -/
def options : Options where
  branchAware := (((a.branchRequest.or t.settings.branchAware).or
    t.workspace.project.branchAware).getD (Flag.ofVariable environment))
  theme := t.settings.theme

def report : Report := .ofViews t.workspace.model t.views (t.options a environment)

def document : Json := (t.report a environment).toJson

def text : String := (t.document a environment).render (t.settings.pretty && !a.compact) ++ "\n"

def product : Product where
  text := t.text a environment
  failure := reportFailure (t.report a environment).faults t.views.length

end Task

theorem settingsOf_eq_ok_iff {config : Option (Except FileFault String)} {s : Settings} :
    settingsOf config = .ok s ↔ (config = none ∧ s = {}) ∨
      ∃ text, config = some (.ok text) ∧ Settings.ofText text = .ok s := by
  rcases config with _ | _ | text
  · simp [settingsOf, eq_comm]
  · simp [settingsOf]
  · simp [settingsOf, mapError_eq_ok_iff]

theorem selectViews_eq_ok_iff {w : Workspace} {names : List String} {views : List View} :
    selectViews w names = .ok views ↔ (names = [] ∧ views = w.views) ∨
      (names ≠ [] ∧ List.Forall₂ (fun name v => w.view? name = some v) names views) := by
  rw [selectViews]
  split
  · rename_i h
    simp [List.isEmpty_iff.mp h, eq_comm]
  · rename_i h
    rw [List.isEmpty_iff] at h
    rw [mapM_eq_ok_iff, or_iff_right fun hnil => h hnil.1, and_iff_right h]
    constructor
    · refine fun hviews => hviews.imp fun name v hv => ?_
      split at hv
      · rename_i u hu
        cases hv
        exact hu
      · cases hv
    · refine fun hviews => hviews.imp fun name v hv => ?_
      rw [hv]

theorem Task.options_eq (t : Task) (a : Arguments) (environment : Option String) :
    t.options a environment =
      { branchAware := branchAware a t.settings t.workspace environment
        theme := t.settings.theme } := by
  rw [options, Option.or_assoc]
  rfl

theorem produce_eq_ok_iff {a : Arguments} {sources : Sources} {p : Product} :
    produce a sources = .ok p ↔
      ∃ t : Task, t.Given a sources ∧ t.product a sources.environment = p := by
  simp only [produce, bind_eq_ok_iff, mapError_eq_ok_iff, pure_eq_ok_iff, settingsOf_eq_ok_iff,
    selectViews_eq_ok_iff]
  constructor
  · rintro ⟨settings, hsettings, text, htext, w, hw, views, hviews, rfl⟩
    refine ⟨⟨settings, w, views⟩, ⟨hsettings, ⟨text, htext, hw⟩, hviews⟩, ?_⟩
    rw [Task.product, Task.text, Task.document, Task.report, Task.options_eq]
  · rintro ⟨⟨settings, w, views⟩, ⟨hsettings, ⟨text, htext, hw⟩, hviews⟩, rfl⟩
    refine ⟨settings, hsettings, text, htext, w, hw, views, hviews, ?_⟩
    rw [Task.product, Task.text, Task.document, Task.report, Task.options_eq]

/-- The code is zero if the document has no field for faults, and one if it has. -/
def Task.Judges (t : Task) (a : Arguments) (environment : Option String) (code : Nat) : Prop :=
  (code = 0 ↔ ¬(t.document a environment).Has "errors") ∧
    (code = 1 ↔ (t.document a environment).Has "errors")

/-- Where the text of the task goes and what the run then says. A file that cannot be written to
stays as it was. -/
def Task.Ends (t : Task) (a : Arguments) (environment : Option String) (files : Files)
    (out : Outcome) : Prop :=
  match a.output with
  | none =>
    out.stdout = t.text a environment ∧ out.files = files ∧ t.Judges a environment out.code
  | some path => out.stdout = "" ∧
    match files.write path (t.text a environment) with
    | .ok after => out.files = after ∧ after.read path = .ok (t.text a environment) ∧
      t.Judges a environment out.code
    | .error _ => out.files = files ∧ out.code = 1

structure Outcome.Refuses (out : Outcome) (files : Files) : Prop where
  stdout : out.stdout = ""
  files : out.files = files
  code : out.code = 1

theorem Task.judges_finished (t : Task) (a : Arguments) (environment : Option String)
    (stdout : String) (files : Files) :
    t.Judges a environment (finished stdout files (t.product a environment).failure).code := by
  rw [Judges, document, Report.has_errors_iff, product]
  cases (t.report a environment).faults <;> simp [reportFailure, finished, failed]

theorem stdout_finished (stdout : String) (files : Files) (failure : Option Failure) :
    (finished stdout files failure).stdout = stdout := by
  cases failure <;> rfl

theorem files_finished (stdout : String) (files : Files) (failure : Option Failure) :
    (finished stdout files failure).files = files := by
  cases failure <;> rfl

theorem Task.ends_execute {t : Task} {a : Arguments} {files : Files} {stdin : String}
    {environment : Option String} (ht : t.Given a (sourcesIn a files stdin environment)) :
    t.Ends a environment files (execute a files stdin environment) := by
  have hproduce : produce a (sourcesIn a files stdin environment) =
      .ok (t.product a environment) := produce_eq_ok_iff.mpr ⟨t, ht, rfl⟩
  rw [Ends, execute, hproduce]
  cases a.output with
  | none => exact ⟨stdout_finished _ _ _, files_finished _ _ _, t.judges_finished _ _ _ _⟩
  | some path =>
    cases hwrite : files.write path (t.text a environment) with
    | error cause =>
      simp only [Task.product, hwrite]
      exact ⟨rfl, rfl, rfl⟩
    | ok after =>
      simp only [Task.product, hwrite]
      exact ⟨stdout_finished _ _ _, files_finished _ _ _, Files.read_write hwrite,
        t.judges_finished _ _ _ _⟩

theorem refuses_execute {a : Arguments} {files : Files} {stdin : String}
    {environment : Option String}
    (h : ∀ t : Task, ¬t.Given a (sourcesIn a files stdin environment)) :
    (execute a files stdin environment).Refuses files := by
  rw [execute]
  cases hproduce : produce a (sourcesIn a files stdin environment) with
  | error failure => exact ⟨rfl, rfl, rfl⟩
  | ok p =>
    obtain ⟨t, ht, -⟩ := produce_eq_ok_iff.mp hproduce
    exact absurd ht (h t)

/-- Requests and runs write the text of one and the same report. A request that is answered gets
that of its workspace under the switch and the theme in force. A run whose sources are all in order
writes that of its workspace with the selected views alone, and a line break; any other run writes
nothing. -/
theorem texts_agree :
    (∀ environment workspace text? text, answer environment workspace text? = .ok text ↔
      ∃ o w theme, RequestOptions.given? text? = some o ∧ Workspace.ofText workspace = .ok w ∧
        Theme.find o.theme = .ok theme ∧
        w.render { branchAware := (o.branchAware.or w.project.branchAware).getD environment, theme }
          (o.pretty.getD false) = text) ∧
    ∀ program arguments a files stdin environment, parse arguments = .ok (.run a) →
      (∀ t : Task, t.Given a (sourcesIn a files stdin environment) →
        t.text a environment = { t.workspace with views := t.views }.render
          (t.options a environment) (t.settings.pretty && !a.compact) ++ "\n" ∧
        t.Ends a environment files (run program arguments files stdin environment)) ∧
      ((∀ t : Task, ¬t.Given a (sourcesIn a files stdin environment)) →
        (run program arguments files stdin environment).Refuses files) := by
  refine ⟨fun environment workspace text? text => answer_eq_ok_iff, ?_⟩
  intro program arguments a files stdin environment ha
  have hrun : run program arguments files stdin environment =
      execute a files stdin environment := by rw [run, ha]
  rw [hrun]
  exact ⟨fun t ht => ⟨rfl, t.ends_execute ht⟩, refuses_execute⟩

def shopFiles : Files where
  entries :=
    [(["shop.json"], "\x7b\"views\":[\x7b\"id\":\"one\"\x7d,\x7b\"id\":\"two\"\x7d]\x7d"),
     (["plain.json"], "\x7b\"pretty\":false\x7d")]

def saving : Arguments where
  input := some "shop.json"
  output := some "out.json"
  config := some "plain.json"
  views := ["two"]

/-- A run that saves the report on one view, and another one without input. -/
theorem texts_agree_shop :
    (∃ t : Task, t.Given saving (sourcesIn saving shopFiles "" none) ∧
      t.Ends saving none shopFiles (run "dynview"
        ["-i", "shop.json", "-c", "plain.json", "--view", "two", "-o", "out.json"]
        shopFiles "" none)) ∧
    (run "dynview" ["-i", "none.json"] shopFiles "" none).Refuses shopFiles := by
  have hstart (path : String) (h : '\x00' ∉ path.toList) : path.contains '\x00' = false := by
    rw [String.contains_char_eq, decide_eq_false h]
  have hshop : shopFiles.read "shop.json" =
      .ok "\x7b\"views\":[\x7b\"id\":\"one\"\x7d,\x7b\"id\":\"two\"\x7d]\x7d" := by
    rw [Files.read, Files.start?, hstart _ (by decide)]
    rfl
  have hplain : shopFiles.read "plain.json" = .ok "\x7b\"pretty\":false\x7d" := by
    rw [Files.read, Files.start?, hstart _ (by decide)]
    rfl
  have hnone : shopFiles.read "none.json" = .error .notFound := by
    rw [Files.read, Files.start?, hstart _ (by decide)]
    rfl
  refine ⟨?_, (texts_agree.2 "dynview" ["-i", "none.json"] _ shopFiles "" none rfl).2 ?_⟩
  · obtain ⟨s, hs, -⟩ : ∃ s, Settings.ofText "\x7b\"pretty\":false\x7d" = .ok s ∧
        s.pretty = false :=
      exists_ok_of_map_toOption (by decide +kernel)
    obtain ⟨w, hw, htwo⟩ : ∃ w, Workspace.ofText
        "\x7b\"views\":[\x7b\"id\":\"one\"\x7d,\x7b\"id\":\"two\"\x7d]\x7d" = .ok w ∧
        (w.view? "two").isSome = true :=
      exists_ok_of_map_toOption (by decide +kernel)
    obtain ⟨v, hv⟩ := Option.isSome_iff_exists.mp htwo
    have ht : Task.Given ⟨s, w, [v]⟩ saving (sourcesIn saving shopFiles "" none) :=
      ⟨.inr ⟨_, congrArg some hplain, hs⟩, ⟨_, hshop, hw⟩,
        .inr ⟨List.cons_ne_nil "two" [], .cons hv .nil⟩⟩
    exact ⟨_, ht, ((texts_agree.2 "dynview" _ saving shopFiles "" none rfl).1 _ ht).2⟩
  · rintro t ⟨-, ⟨text, htext, -⟩, -⟩
    have hread : shopFiles.read "none.json" = .ok text := htext
    rw [hnone] at hread
    cases hread

end Command

end StepGraph
