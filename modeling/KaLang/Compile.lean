import KaLang.Script.Emission
import KaLang.Syntax.Program

/-!
From a source text to a script.
-/

namespace KaLang

/-- The outcome for a source text. One that is no program has no scopes and asks for no file. -/
def compile (source : String) (env : Environment) : Emission :=
  match Program.ofSource source with
  | .ok program => program.emit env
  | .error error => ⟨.error error, .start, []⟩

/-- The whole script of a source text. -/
def compileText (source : String) (env : Environment) : Except CompileError String :=
  (compile source env).result.map fun script => script.text Script.defaultWidth

end KaLang
