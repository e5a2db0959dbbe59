import EditorSync.Path.Basic

namespace EditorSync.LanguageServer

def languageOf? (path : String) : Option String :=
  (Path.extension? path).bind fun
    | "rs" => some "rust"
    | "go" => some "go"
    | "py" => some "python"
    | "js" => some "javascript"
    | "ts" => some "typescript"
    | "tsx" => some "typescriptreact"
    | "jsx" => some "javascriptreact"
    | "c" => some "c"
    | "cpp" | "cc" | "cxx" | "h" | "hpp" => some "cpp"
    | "java" => some "java"
    | "rb" => some "ruby"
    | "sh" | "bash" | "zsh" => some "shellscript"
    | "json" => some "json"
    | "yaml" | "yml" => some "yaml"
    | "toml" => some "toml"
    | "md" => some "markdown"
    | "html" => some "html"
    | "css" => some "css"
    | "lua" => some "lua"
    | _ => none

end EditorSync.LanguageServer
