import CodeCensus.Path

/-! The tables by which a path tells its language. Extensions are in lower case and begin with their dot. -/

namespace CodeCensus.Language

def plainText : String := "text"

def backendSuffix : String := "-backend"

def extensionTags : List (String × String) := [
  (".js", "javascript"), (".jsx", "javascript"), (".mjs", "javascript"), (".cjs", "javascript"),
  (".ts", "typescript"), (".tsx", "typescript"), (".mts", "typescript"), (".cts", "typescript"),
  (".vue", "vue"), (".svelte", "svelte"), (".py", "python"), (".pyi", "python"),
  (".pyx", "python"), (".pyw", "python"), (".java", "java"), (".kt", "kotlin"),
  (".kts", "kotlin"), (".scala", "scala"), (".sc", "scala"), (".c", "c"), (".h", "c"),
  (".cpp", "cpp"), (".cxx", "cpp"), (".cc", "cpp"), (".hpp", "cpp"), (".hxx", "cpp"),
  (".cs", "csharp"), (".csx", "csharp"), (".php", "php"), (".phtml", "php"), (".rb", "ruby"),
  (".rbw", "ruby"), (".go", "go"), (".rs", "rust"), (".swift", "swift"), (".dart", "dart"),
  (".r", "r"), (".pl", "perl"), (".pm", "perl"), (".lua", "lua"), (".sql", "sql"),
  (".sh", "shell"), (".bash", "shell"), (".zsh", "shell"), (".fish", "shell"),
  (".ps1", "powershell"), (".bat", "batch"), (".html", "html"), (".htm", "html"),
  (".css", "css"), (".scss", "scss"), (".sass", "sass"), (".less", "less"), (".json", "json"),
  (".yaml", "yaml"), (".yml", "yaml"), (".xml", "xml"), (".toml", "toml"), (".ini", "ini"),
  (".md", "markdown"), (".markdown", "markdown"), (".dockerfile", "dockerfile")]

def nameTags : List (String × String) := [
  ("dockerfile", "dockerfile"), ("makefile", "makefile"), ("gemfile", "ruby"),
  ("rakefile", "ruby")]

def backendCapable : List String := [
  "javascript", "typescript", "python", "java", "csharp", "php", "ruby", "go"]

def backendMarks : List String := ["server", "backend", "api", "routes"]

def binaryExtensions : List String := [
  ".png", ".jpg", ".jpeg", ".gif", ".bmp", ".ico", ".svg", ".webp", ".tiff", ".zip", ".tar",
  ".gz", ".tgz", ".bz2", ".xz", ".7z", ".rar", ".jar", ".exe", ".dll", ".so", ".dylib", ".o",
  ".a", ".lib", ".class", ".pyc", ".pyo", ".wasm", ".mp3", ".mp4", ".avi", ".mov", ".wav",
  ".flac", ".flv", ".mkv", ".ogg", ".webm", ".ttf", ".otf", ".woff", ".woff2", ".eot", ".pdf",
  ".bin", ".dat", ".db", ".sqlite", ".sqlite3"]

def sourceExtensions : List String := [
  ".js", ".jsx", ".mjs", ".cjs", ".ts", ".tsx", ".mts", ".cts", ".vue", ".svelte", ".py", ".pyi",
  ".java", ".kt", ".kts", ".scala", ".c", ".h", ".cpp", ".cc", ".hpp", ".cs", ".php", ".rb",
  ".go", ".rs", ".swift", ".dart", ".r", ".pl", ".pm", ".lua", ".sql", ".sh", ".bash", ".zsh",
  ".ps1", ".bat", ".html", ".htm", ".css", ".scss", ".sass", ".less", ".json", ".yaml", ".yml",
  ".xml", ".toml", ".ini", ".md", ".markdown", ".txt", ".dockerfile"]

def displayNames : List (String × String) := [
  (".js", "JavaScript"), (".jsx", "JavaScript"), (".mjs", "JavaScript"), (".cjs", "JavaScript"),
  (".ts", "TypeScript"), (".tsx", "TypeScript"), (".py", "Python"), (".pyi", "Python"),
  (".java", "Java"), (".kt", "Kotlin"), (".scala", "Scala"), (".c", "C"), (".h", "C"),
  (".cpp", "C++"), (".cc", "C++"), (".hpp", "C++"), (".cs", "C#"), (".php", "PHP"),
  (".rb", "Ruby"), (".go", "Go"), (".rs", "Rust"), (".swift", "Swift"), (".dart", "Dart"),
  (".r", "R"), (".pl", "Perl"), (".lua", "Lua"), (".html", "HTML"), (".htm", "HTML"),
  (".css", "CSS"), (".scss", "SCSS"), (".sass", "Sass"), (".less", "Less"), (".vue", "Vue"),
  (".svelte", "Svelte"), (".json", "JSON"), (".xml", "XML"), (".yaml", "YAML"), (".yml", "YAML"),
  (".toml", "TOML"), (".md", "Markdown"), (".sql", "SQL"), (".sh", "Shell"), (".bash", "Bash"),
  (".ps1", "PowerShell"), (".dockerfile", "Dockerfile")]

end CodeCensus.Language
