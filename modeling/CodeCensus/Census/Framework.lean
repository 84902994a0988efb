import CodeCensus.Entry
import CodeCensus.SourceFile

/-! Frameworks, recognised by signatures in file contents, by declared dependencies and by file names. -/

namespace CodeCensus.Framework

open Pattern Text

def anyText (choices : List String) : Pattern := oneWord choices

def importFrom (source : String) : Pattern :=
  inOrder ["import", .run (beyond ['\n']), "from ", quote, source, quote]

def required (source : String) : Pattern := inOrder ["require(", quote, source, quote, ")"]

def twoWords (first second : String) : Pattern := inOrder [first, blanks1, second]

def named (word : String) : Pattern := inOrder [word, blanks1, .one isWord]

def signatures : List (String × Pattern) := [
  ("React", importFrom "react"),
  ("Vue", importFrom "vue"),
  ("Angular", anyText ["@angular", "ng-", "angular.module"]),
  ("Express",
    oneOf ["express()", "app.get", "app.post", "router.", twoWords "const" "express", required "express"]),
  ("Next.js", anyText ["next/", "getServerSideProps", "getStaticProps"]),
  ("Svelte", anyText ["svelte", ".svelte"]),
  ("Node.js",
    oneOf ["require(", "module.exports", "process.env",
      inOrder ["const", blanks1, some1 isWord, blanks, "=", blanks, "require"]]),
  ("TypeScript",
    oneOf [named "interface", inOrder ["type", blanks1, some1 isWord, blanks, "="],
      inOrder [".ts", .edge .lastLineEnd], inOrder [".tsx", .edge .lastLineEnd]]),
  ("Fastify", anyText ["fastify", ".register(", ".listen("]),
  ("Koa", oneOf [twoWords "const" "Koa", required "koa", "ctx.body"]),
  ("NestJS", anyText ["@nestjs", "@Controller", "@Injectable", "@Module"]),
  ("Django", oneOf [twoWords "from" "django", "django.contrib", "models.Model"]),
  ("Flask", oneOf [twoWords "from" "flask", "Flask(__name__)", "@app.route"]),
  ("FastAPI",
    oneOf [twoWords "from" "fastapi", "FastAPI(", "@app.get", "@app.post", "@app.put", "@app.delete"]),
  ("Spring Boot", anyText ["@SpringBootApplication", "@RestController", "@Service", "@Repository"]),
  ("ASP.NET", oneOf [twoWords "using" "Microsoft.AspNetCore", "Controller", "ActionResult"]),
  ("GraphQL", oneOf ["graphql", twoWords "type" "Query", twoWords "type" "Mutation", "apollo"]),
  ("Socket.io", anyText ["socket.io", "io(", "socket.on", "socket.emit"]),
  ("Prisma", oneOf ["prisma", "@prisma/client", inOrder ["$", some1 isWord, ".findMany"]]),
  ("MongoDB", anyText ["mongoose", "MongoClient", ".find()", ".insertOne"]),
  ("Redis", anyText ["redis", ".set(", ".get(", "RedisClient"])]

def dependencyMarks : List (String × String) := [
  ("react", "React"), ("vue", "Vue"), ("@angular/core", "Angular"), ("next", "Next.js"), ("vite", "Vite"),
  ("express", "Express"), ("django", "Django"), ("flask", "Flask"), ("fastapi", "FastAPI")]

/-- Which file names tell a framework: one name, or all that begin alike. -/
inductive NameMark where
  | exactly (name : String)
  | beginning (start : String)

def NameMark.fits (name : String) : NameMark → Bool
  | .exactly other => name == other
  | .beginning start => start.toList.isPrefixOf name.toList

def nameMarks : List (NameMark × String) := [
  (.beginning "next.config.", "Next.js"), (.beginning "vite.config.", "Vite"),
  (.exactly "manage.py", "Django"), (.exactly "pom.xml", "Spring Boot"),
  (.exactly "build.gradle", "Spring Boot"), (.exactly "go.mod", "Go"), (.exactly "cargo.toml", "Rust"),
  (.exactly "package.json", "Node.js")]

def inContents (contents : List (List Char)) : List String :=
  (signatures.filter fun (_, signature) => contents.any signature.foundIn).map Prod.fst

def declared (m : Manifest) : List String :=
  (m.dependencies ++ m.devDependencies).map lowercase

def inDependencies (files : List SourceFile) : List String :=
  let all := (files.filterMap SourceFile.manifest).flatMap declared
  (dependencyMarks.filter fun (dependency, _) => all.contains dependency).map Prod.snd

def inNames (entries : List Entry) : List String :=
  let names := (entries.filter fun e => e.kind == .file).map fun e => lowercase (Path.name e.path)
  (nameMarks.filter fun (mark, _) => names.any mark.fits).map Prod.snd

/-- The frameworks of a repository, each once: by contents, then by dependencies, then by file names. -/
def detect (files : List SourceFile) (entries : List Entry) : List String :=
  (inContents (files.map fun f => f.content.toList) ++ inDependencies files ++ inNames entries).eraseDups

end CodeCensus.Framework
