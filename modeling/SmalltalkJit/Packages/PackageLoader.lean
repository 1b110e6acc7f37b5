import Mathlib.Data.Nat.Notation
import Mathlib.Logic.Function.Basic

/-! # The package loader

A project is loaded in two phases. `resolve` walks the requirements of a package
depth first, keyed by package name, and appends each package to the load order
when all its requirements were walked; then the packages are loaded in this
order, each into a namespace that imports the namespaces of its direct
requirements. The file system, the evaluation of manifests and the compilation
of a package's files are those of the environment.
-/
namespace SmalltalkJit.Packages

namespace Path

def startsWithSeparator (s : String) : Bool := s.toList.head? = some '/'

def endsWithSeparator (s : String) : Bool := s.toList.getLast? = some '/'

def join (a b : String) : String :=
  if a.isEmpty then b
  else if b.isEmpty then a
  else if endsWithSeparator a then
    if startsWithSeparator b then a ++ String.ofList (b.toList.drop 1) else a ++ b
  else if startsWithSeparator b then a ++ b
  else a ++ "/" ++ b

def isAbsolute (s : String) : Bool := startsWithSeparator s

end Path

structure PackageRequirement where
  name : String
  path : Option String
  version : Option String
  deriving DecidableEq

/-- What the expression in a `package.st` answers, before it is validated. -/
structure Manifest where
  name : Option String
  version : Option String
  requirements : List PackageRequirement

structure PackageSpec where
  name : String
  version : Option String
  requirements : List PackageRequirement
  rootPath : String
  deriving DecidableEq

inductive LoadError
  | noManifest (packageDir : String)
  | noSpec (manifestPath : String)
  | missingName (manifestPath : String)
  | packageNotFound (name : String) (searched : List String)
  | dependencyCycle (stack : List String) (closing : String)
  | wrongName (dir declared required : String)
  | conflictingSources (name rootPath dir : String)
  | wrongVersion (name : String) (version : Option String) (required : String)
  | noNamespace (name : String)
  | compilation (text : String)
  deriving DecidableEq

def cycle (stack : List String) (closing : String) : String := stack.foldl (fun s n => s ++ n ++ " -> ") "" ++ closing

def printString (s : String) : String := "'" ++ s ++ "'"

/-- An `OrderedCollection` of at most 200 strings, printed. -/
def printStrings (strings : List String) : String :=
  strings.foldl (fun s string => s ++ printString string ++ " ") "an OrderedCollection (" ++ ")"

/-- The text of an `Error`; the missing key is the value of a `NotFoundError`. -/
def LoadError.messageText : LoadError → String
  | noManifest packageDir => "no package.st in " ++ packageDir
  | noSpec manifestPath => manifestPath ++ " must answer a PackageSpec (end the expression with yourself)"
  | missingName manifestPath => "manifest missing name: (" ++ manifestPath ++ ")"
  | packageNotFound name searched => "package " ++ name ++ " not found; searched: " ++ printStrings searched
  | dependencyCycle stack closing => "dependency cycle: " ++ cycle stack closing
  | wrongName dir declared required =>
    dir ++ "/package.st declares name " ++ declared ++ " but was required as " ++ required
  | conflictingSources name rootPath dir =>
    "conflicting sources for package " ++ name ++ ": " ++ rootPath ++ " vs " ++ dir
  | wrongVersion name version required =>
    "package " ++ name ++ " is version " ++ (version.elim "nil" printString) ++ " but " ++ required ++
      " was required (exact match in v1)"
  | noNamespace name => name
  | compilation text => text

/-- What the loader asks of its surroundings. `evaluate` is none where a manifest answers something
else than a specification, `compile` is the text of an error in the files of a package. -/
structure Environment where
  packageRoots : List String
  fileExists : String → Bool
  realpath : String → String
  evaluate : String → Option Manifest
  compile : PackageSpec → Option String

section Loader
variable (env : Environment)

def specFrom (packageDir : String) : Except LoadError PackageSpec :=
  let manifestPath := Path.join packageDir "package.st"
  if env.fileExists manifestPath then
    match env.evaluate manifestPath with
    | none => .error (.noSpec manifestPath)
    | some manifest =>
      match manifest.name with
      | none => .error (.missingName manifestPath)
      | some name => .ok ⟨name,manifest.version,manifest.requirements,packageDir⟩
  else .error (.noManifest packageDir)

def resolveRequirement (req : PackageRequirement) (spec : PackageSpec) : Except LoadError String :=
  match req.path with
  | some path => .ok (env.realpath (if Path.isAbsolute path then path else Path.join spec.rootPath path))
  | none =>
    let candidates := env.packageRoots.map fun root => Path.join root req.name
    match candidates.find? fun candidate => env.fileExists (Path.join candidate "package.st") with
    | some candidate => .ok (env.realpath candidate)
    | none => .error (.packageNotFound req.name candidates)

def check (req : PackageRequirement) (spec : PackageSpec) : Except LoadError Unit :=
  match req.version with
  | none => .ok ()
  | some version =>
    if spec.version = some version then .ok () else .error (.wrongVersion spec.name spec.version version)

structure PackageLoader where
  specs : String → Option PackageSpec
  loadOrder : List PackageSpec

def PackageLoader.register (loader : PackageLoader) (name : String) (spec : PackageSpec) : PackageLoader :=
  { loader with specs := Function.update loader.specs name (some spec) }

/-- The answer of a walk; it is none when the walk does not end within its fuel. -/
abbrev Walk := Option (Except LoadError PackageLoader)

def Walk.andThen (walk : Walk) (next : PackageLoader → Walk) : Walk :=
  match walk with
  | some (.ok loader) => next loader
  | some (.error e) => some (.error e)
  | none => none

def recheck (spec : PackageSpec) (req : PackageRequirement) (existing : PackageSpec) : Except LoadError Unit :=
  if req.path.isSome then
    match resolveRequirement env req spec with
    | .error e => .error e
    | .ok dir =>
      if dir = existing.rootPath then check req existing
      else .error (.conflictingSources req.name existing.rootPath dir)
  else check req existing

def fetch (spec : PackageSpec) (req : PackageRequirement) : Except LoadError PackageSpec :=
  match resolveRequirement env req spec with
  | .error e => .error e
  | .ok dir =>
    match specFrom env dir with
    | .error e => .error e
    | .ok child =>
      if child.name = req.name then
        match check req child with
        | .error e => .error e
        | .ok () => .ok child
      else .error (.wrongName dir child.name req.name)

/-- One turn of the loop over the requirements; `walk` resolves a package that is met for the first
time. -/
def require (walk : PackageSpec → PackageLoader → Walk) (spec : PackageSpec)
    (req : PackageRequirement) (loader : PackageLoader) : Walk :=
  if req.name = "Core" then some (.ok loader)
  else
    match loader.specs req.name with
    | none =>
      match fetch env spec req with
      | .error e => some (.error e)
      | .ok child => walk child (loader.register req.name child)
    | some existing => some ((recheck env spec req existing).map fun _ => loader)

def requireAll (walk : PackageSpec → PackageLoader → Walk) (spec : PackageSpec) :
    List PackageRequirement → PackageLoader → Walk
  | [], loader => some (.ok loader)
  | req :: rest, loader => (require env walk spec req loader).andThen (requireAll walk spec rest)

/-- `resolve:stack:`; the stack of the callers is as it was when a call returns. -/
def resolve : ℕ → PackageSpec → List String → PackageLoader → Walk
  | 0, _, _, _ => none
  | fuel+1, spec, stack, loader =>
    if spec.name ∈ stack then some (.error (.dependencyCycle stack spec.name))
    else
      (requireAll env (fun child => resolve fuel child (stack ++ [spec.name])) spec spec.requirements
        loader).andThen fun loader => some (.ok { loader with loadOrder := loader.loadOrder ++ [spec] })

/-- The names of the loaded packages and of the namespaces in the image. -/
structure Image where
  loadedPackages : List String
  namespaces : List String
  deriving DecidableEq

def loadPackage (spec : PackageSpec) (image : Image) : Except LoadError Image :=
  if spec.name = "Core" then .ok { image with loadedPackages := spec.name :: image.loadedPackages }
  else if spec.name ∈ image.loadedPackages then .ok image
  else
    match spec.requirements.find? fun req => req.name ≠ "Core" ∧ req.name ∉ image.namespaces with
    | some req => .error (.noNamespace req.name)
    | none =>
      match env.compile spec with
      | some text => .error (.compilation text)
      | none => .ok ⟨spec.name :: image.loadedPackages,spec.name :: image.namespaces⟩

def loadPackages : List PackageSpec → Image → Except LoadError Image
  | [], image => .ok image
  | spec :: rest, image =>
    match loadPackage env spec image with
    | .error e => .error e
    | .ok image => loadPackages rest image

def resolution (fuel : ℕ) (rootSpec : PackageSpec) : Walk :=
  resolve env fuel rootSpec [] (PackageLoader.register ⟨fun _ => none,[]⟩ rootSpec.name rootSpec)

/-- `load:` with what it leaves in the loader and in the image. -/
def load (fuel : ℕ) (projectDir : String) (image : Image) : Option (Except LoadError (PackageLoader × Image)) :=
  match specFrom env (env.realpath projectDir) with
  | .error e => some (.error e)
  | .ok rootSpec =>
    match resolution env fuel rootSpec with
    | none => none
    | some (.error e) => some (.error e)
    | some (.ok loader) => some ((loadPackages env loader.loadOrder image).map fun image => (loader,image))

end Loader

end SmalltalkJit.Packages
