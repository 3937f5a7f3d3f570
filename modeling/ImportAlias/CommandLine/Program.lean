import ImportAlias.CommandLine.Parse
import ImportAlias.Run

/-! The program as a function of its arguments and of the files. -/
namespace ImportAlias

/-- What a process leaves behind. -/
structure ProcessResult where
  stdout : Text := []
  /-- The first line on the error stream, if the run failed. -/
  errorLine : Option Text := none
  exitCode : Nat := 0
  deriving DecidableEq, Repr

namespace Program

def version : Text := "relimport 0.1.0\n".toList

def help : Text :=
  "\n".intercalate ["Rewrite deep relative imports into project aliases",
    "",
    "Usage: relimport [OPTIONS] [PATHS]...",
    "",
    "Arguments:",
    "  [PATHS]...  Files or directories to process [default: .]",
    "",
    "Options:",
    "      --write                            Write changes back to the files",
    "      --check                            Exit with status 1 if any file would change",
    "      --prefix <PREFIX>                  Alias prefix for rewritten imports (default: @/)",
    "      --max-depth <MAX_DEPTH>            " ++
      "Parent levels kept relative before rewriting (default: 1)",
    "      --tsconfig <TSCONFIG>              " ++
      "Path to tsconfig.json or jsconfig.json (auto-detected by default)",
    "      --framework-mode <FRAMEWORK_MODE>  " ++
      "Treat the project as a Next.js app (detected by default) [possible values: auto, on, off]",
    "      --strategy <STRATEGY>              " ++
      "Rewrite the source text or the parsed tree [possible values: text, tree]",
    "      --config <CONFIG>                  " ++
      "Options file (default: relimport.toml or .relimport.toml)",
    "      --include <INCLUDE>                Include only files matching this glob",
    "      --exclude <EXCLUDE>                Exclude files matching this glob",
    "      --format <FORMAT>                  " ++
      "Output format [default: text] [possible values: text, json, compact]",
    "  -h, --help                             Print help",
    "  -V, --version                          Print version",
    ""] |>.toList

/-- A text with a line end behind it, unless it is empty or has one. -/
def closeLine (t : Text) : Text :=
  if t = [] ∨ t.getLast? = some '\n' then t else t ++ ['\n']

/-- Runs the program with arguments in a directory of a file tree. -/
def run (arguments : List Text) (tree : FileTree) (cwd : Path) : ProcessResult × FileTree :=
  match Request.parse arguments with
  | .error .help => ({ stdout := help }, tree)
  | .error .version => ({ stdout := version }, tree)
  | .error _ => ({ exitCode := 2 }, tree)
  | .ok request =>
    match request.run tree cwd with
    | .error e =>
      ({ errorLine := some ("Error: ".toList ++ e.message.toList), exitCode := 1 }, tree)
    | .ok (outcome, tree) =>
      ({ stdout := closeLine outcome.stdout, exitCode := outcome.exitCode }, tree)

end Program

end ImportAlias
