import SolutionTree.Json
import SolutionTree.Report

/-!
Targets and reports as JSON documents.

Fields stand in a fixed order. A value that is missing is left out, except the main
target of a solution, which is then null.
-/

namespace SolutionTree

def Identifier.document (id : Identifier) : Json :=
  .string id.text

def Manifest.document (m : Manifest) : Json :=
  .object <|
    Json.fieldIf "executable_name" .string m.executable ++
    [("dependencies", Json.strings m.dependencies),
      ("extra_include_dirs", Json.strings m.includeDirs)] ++
    Json.fieldIf "extra_compiler_args" .string m.compilerArgs ++
    Json.fieldIf "default_run_args" .string m.runArgs

def Owner.document (o : Owner) : Json :=
  .object [("name", .string o.name), ("relative_dir", .string o.relativeDir),
    ("dependencies", Json.strings o.dependencies)]

def Target.document (t : Target) : Json :=
  .object <|
    [("name", .string t.name), ("kind", .string t.kind.word), ("id", t.id.document),
      ("relative_dir", .string t.relativeDir), ("manifest", t.manifest.document)] ++
    Json.fieldIf "owner" Owner.document t.owner

def Catalog.document (c : Catalog) : Json :=
  .array (c.targets.map Target.document)

def Reference.document (r : Reference) : Json :=
  .object [("name", .string r.name), ("id", r.id.document)]

def Member.document (m : Member) : Json :=
  .object [("target", m.target.document), ("file_name", .string m.fileName),
    ("edges", .array (m.references.map Reference.document))]

def Solution.document (s : Solution) : Json :=
  .object [("name", .string s.name), ("main", Json.optional .string s.main),
    ("entries", .array (s.members.map Member.document))]

def BuildSettings.document (b : BuildSettings) : Json :=
  .object <|
    [("name", .string b.configuration.name),
      ("debug_libraries", .bool (b.configuration == .debug)),
      ("intermediate_dir", .string b.intermediateDir), ("output_dir", .string b.outputDir)] ++
    Json.fieldIf "post_build" .string b.postBuild

def CompileItem.document (item : CompileItem) : Json :=
  .object <|
    ("path", .string item.path) ::
      (if item.defines.isEmpty then [] else [("defines", Json.strings item.defines)])

def TestRunner.document (r : TestRunner) : Json :=
  .object [("file_name", .string r.fileName), ("contents", .string r.contents)]

def ProjectFile.document (f : ProjectFile) : Json :=
  let product := ProductType.ofKind f.kind
  .object <|
    [("name", .string f.name), ("file_name", .string f.fileName), ("id", f.id.document),
      ("kind", .string f.kind.word), ("configuration_type", .string product.word),
      ("target_extension", .string product.extension)] ++
    Json.fieldIf "platform_toolset" .string f.toolset ++
    [("configurations", .array (f.builds.map BuildSettings.document)),
      ("compile_items", .array (f.compileItems.map CompileItem.document)),
      ("include_items", Json.strings f.includeItems),
      ("include_dirs", Json.strings f.includeDirs)] ++
    Json.fieldIf "extra_compiler_args" .string f.compilerArgs ++
    Json.fieldIf "default_run_args" .string f.runArgs ++
    [("link_libraries", Json.strings f.linkLibraries),
      ("references", .array (f.references.map Reference.document))] ++
    Json.fieldIf "test_runner" TestRunner.document f.testRunner

def Report.document (r : Report) : Json :=
  .object [("solution", r.solution.document), ("fingerprint", .string r.fingerprint),
    ("projects", .array (r.projectFiles.map ProjectFile.document))]

end SolutionTree
