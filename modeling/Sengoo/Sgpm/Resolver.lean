import Mathlib.Data.List.Basic

/-!
The package resolver. A depth-first walk over manifests builds the dependency
graph: manifests are told apart by their canonical path, while the two ends of
an edge are identities made of name, version and source. The file system, the
version arithmetic, git and remote registries enter as an environment; fuel
makes the recursion structural and is bounded by the number of files.
-/

namespace Sengoo.Sgpm

structure FilePath where
  absolute : Bool
  parts : List String
  deriving DecidableEq

namespace FilePath

def join (base path : FilePath) : FilePath :=
  if path.absolute then path else ⟨base.absolute, base.parts ++ path.parts⟩

def child (base : FilePath) (name : String) : FilePath := ⟨base.absolute, base.parts ++ [name]⟩

def parent (path : FilePath) : Option FilePath :=
  if path.parts = [] then none else some ⟨path.absolute, path.parts.dropLast⟩

def display (path : FilePath) : String :=
  (if path.absolute then "/" else "") ++ String.intercalate "/" path.parts

/-- The components as strings; the root counts as one of them. -/
def pathParts (path : FilePath) : List String :=
  (if path.absolute then ["/"] else []) ++ path.parts.filter (· ≠ ".")

def slashPath (path : FilePath) : String :=
  String.intercalate "/" ((if path.absolute then ["/"] else []) ++ path.parts)

end FilePath

def commonLength : List String → List String → Nat
  | left :: lefts, right :: rights => if left = right then commonLength lefts rights + 1 else 0
  | _, _ => 0

def relativePath (fromDir toDir : FilePath) : FilePath :=
  if fromDir = toDir then ⟨false, ["."]⟩
  else
    let source := fromDir.pathParts
    let target := toDir.pathParts
    if source.head? ≠ target.head? then toDir
    else
      let common := commonLength source target
      let parts := List.replicate (source.length - common) ".." ++ target.drop common
      if parts = [] then ⟨false, ["."]⟩ else ⟨false, parts⟩

structure Dependency where
  name : String
  package : Option String
  path : Option FilePath
  git : Option String
  rev : Option String
  versionReq : Option String
  registry : Option String
  deriving DecidableEq

def Dependency.targetName (dep : Dependency) : String := dep.package.getD dep.name

structure RegistryConfig where
  path : Option FilePath
  url : Option String
  tokenEnv : Option String
  deriving DecidableEq

/-- A parsed manifest; the dependencies are in the order of their aliases. -/
structure Manifest where
  name : String
  version : String
  bin : Option FilePath
  lib : Option FilePath
  registries : List (String × RegistryConfig)
  dependencies : List (String × Dependency)
  deriving DecidableEq

def defaultBinPath : FilePath := ⟨false, ["src", "main.sg"]⟩

def Manifest.entryPath (manifest : Manifest) : FilePath :=
  match manifest.bin, manifest.lib with
  | some path, _ => path
  | none, some path => path
  | none, none => defaultBinPath

structure RegistryPackageMetadata where
  checksum : Option String
  yanked : Bool
  yankReason : Option String
  features : List String
  deriving DecidableEq

inductive PackageSource where
  | path
  | git (url rev : String)
  | registry (registry version : String) (metadata : RegistryPackageMetadata)
  deriving DecidableEq

inductive ResolveError where
  | pathNotFound (path : FilePath)
  | noParent (path : FilePath)
  | manifest (path : FilePath) (reason : String)
  | cyclic (cycle : List FilePath)
  | conflictingSources (name version : String) (existing key : FilePath)
  | entryNotRelative (package target : String) (path : FilePath)
  | entryMissing (package target : String) (path : FilePath)
  | entryOutside (package target : String) (path : FilePath)
  | entryNotFile (package target : String) (path : FilePath)
  | packageName (dep found expected : String)
  | noSupportedSource (dep : String)
  | invalidRequirement (dep : String)
  | registryNotConfigured (dep registry : String)
  | registryHasNoPackage (registry package : String)
  | registryUnreadable (path : FilePath)
  | registryManifestName (package version found : String)
  | registryManifestVersion (package version found : String)
  | noVersions (package requirement : String)
  | yanked (package version : String) (reason : Option String)
  | external (reason : String)
  | dependency (depAlias : String) (cause : ResolveError)
  | outOfFuel
  deriving DecidableEq

/-- What the resolver asks of the file system, of the version library, of git and
of remote registries. There are finitely many files, a canonical path is its own
canonical path, and a manifest read by any path is the one at its canonical path. -/
structure Environment (Version : Type) where
  files : List FilePath
  canonicalize : FilePath → Option FilePath
  isDir : FilePath → Bool
  isFile : FilePath → Bool
  load : FilePath → Except String Manifest
  readDir : FilePath → Option (List String)
  localMetadata : FilePath → Except String RegistryPackageMetadata
  parseVersion : String → Option Version
  showVersion : Version → String
  versionLe : Version → Version → Bool
  parseReq : String → Option (Version → Bool)
  gitCheckout : FilePath → FilePath → Dependency → String → Bool → Except String (FilePath × String)
  remotePackage : FilePath → String → RegistryConfig → String → String → Bool →
    Except String (Version × FilePath × RegistryPackageMetadata)
  canonicalize_mem : ∀ {path key}, canonicalize path = some key → key ∈ files
  canonicalize_idem : ∀ {path key}, canonicalize path = some key → canonicalize key = some key
  load_canonicalize : ∀ {path key manifest}, canonicalize path = some key →
    load path = .ok manifest → load key = .ok manifest

/-- The options without a lock. -/
structure ResolveOptions where
  refreshGit : Bool
  allowYanked : Bool
  deriving DecidableEq

/-- An edge; its ends are identities, not paths. -/
structure DependencyEdge where
  source : String
  depAlias : String
  target : String
  deriving DecidableEq

structure PackageNode where
  id : String
  name : String
  manifestPath : FilePath
  rootDir : FilePath
  entryPath : FilePath
  manifest : Manifest
  source : PackageSource
  deriving DecidableEq

def packageIdentity (name version sourceKey : String) : String :=
  name ++ "@" ++ version ++ "+" ++ sourceKey

def canonicalSourceKey (baseDir packageRoot : FilePath) (source : PackageSource)
    (packageName : String) : String :=
  match source with
  | .path => "path:" ++ (relativePath baseDir packageRoot).slashPath
  | .git url rev => "git+" ++ url ++ "#" ++ rev
  | .registry registry version _ =>
    "registry+" ++ registry ++ "/" ++ packageName ++ "@" ++ version

section Resolve

variable {Version : Type} (env : Environment Version)

def canonicalizeExisting (path : FilePath) : Except ResolveError FilePath :=
  match env.canonicalize path with
  | some key => .ok key
  | none => .error (.pathNotFound path)

def loadManifest (path : FilePath) : Except ResolveError Manifest :=
  match env.load path with
  | .ok manifest => .ok manifest
  | .error reason => .error (.manifest path reason)

def parentDir (path : FilePath) : Except ResolveError FilePath :=
  match path.parent with
  | some dir => .ok dir
  | none => .error (.noParent path)

def manifestIn (path : FilePath) : FilePath :=
  if env.isDir path then path.child "Sengoo.toml" else path

def resolveManifestPath (path : FilePath) : Except ResolveError FilePath :=
  canonicalizeExisting env (manifestIn env path)

def resolvePathDependencyManifest (dir depPath : FilePath) : Except ResolveError FilePath :=
  canonicalizeExisting env (manifestIn env (dir.join depPath))

def resolveRegistryPath (rootDir registryPath : FilePath) : Except ResolveError FilePath :=
  canonicalizeExisting env (rootDir.join registryPath)

/-- One entry of a registry package directory: nothing when it is skipped. -/
def registryCandidate (packageRoot : FilePath) (packageName : String)
    (matchesReq : Version → Bool) (allowYanked : Bool) (entry : String) :
    Except ResolveError (Option (Version × FilePath × RegistryPackageMetadata)) :=
  let path := packageRoot.child entry
  if ¬ env.isDir path then .ok none
  else
    match env.parseVersion entry with
    | none => .ok none
    | some version =>
      if ¬ matchesReq version then .ok none
      else do
        let manifestPath ← canonicalizeExisting env (path.child "Sengoo.toml")
        let manifest ← loadManifest env manifestPath
        if manifest.name ≠ packageName then
          throw (.registryManifestName packageName (env.showVersion version) manifest.name)
        else if manifest.version ≠ env.showVersion version then
          throw (.registryManifestVersion packageName (env.showVersion version) manifest.version)
        else
          match env.localMetadata path with
          | .error reason => throw (.external reason)
          | .ok metadata =>
            if metadata.yanked ∧ ¬ allowYanked then pure none
            else pure (some (version, manifestPath, metadata))

/-- The last of the greatest candidates, as sorting and popping gives it. -/
def greatestCandidate
    (candidates : List (Version × FilePath × RegistryPackageMetadata)) :
    Option (Version × FilePath × RegistryPackageMetadata) :=
  candidates.foldl (fun best candidate =>
    match best with
    | none => some candidate
    | some best =>
      if env.versionLe best.1 candidate.1 then some candidate else some best) none

def selectRegistryPackageManifest (packageRoot : FilePath) (packageName : String)
    (matchesReq : Version → Bool) (requirement : String) (allowYanked : Bool) :
    Except ResolveError (Version × FilePath × RegistryPackageMetadata) :=
  match env.readDir packageRoot with
  | none => .error (.registryUnreadable packageRoot)
  | some entries => do
      let candidates ← entries.mapM
        (registryCandidate env packageRoot packageName matchesReq allowYanked)
      match greatestCandidate env (candidates.filterMap id) with
      | some candidate => pure candidate
      | none => throw (.noVersions packageName requirement)

def rejectYankedPackage (packageName : String) (version : Version)
    (metadata : RegistryPackageMetadata) : Except ResolveError Unit :=
  if ¬ metadata.yanked then .ok ()
  else .error (.yanked packageName (env.showVersion version)
    (metadata.yankReason.filter (fun reason => reason.trimAscii.toString ≠ "")))

/-- The configuration of one run of the resolver. -/
structure GraphConfig where
  rootDir : FilePath
  registries : List (String × RegistryConfig)
  options : ResolveOptions
  deriving DecidableEq

def GraphConfig.gitCacheDir (config : GraphConfig) : FilePath :=
  ((config.rootDir.child "target").child "sgpm").child "git"

def GraphConfig.registryCacheDir (config : GraphConfig) : FilePath :=
  ((config.rootDir.child "target").child "sgpm").child "registry"

variable (config : GraphConfig)

def locateRegistryPackage (registryName : String) (registry : RegistryConfig)
    (packageName requirement : String) (matchesReq : Version → Bool) :
    Except ResolveError (Version × FilePath × RegistryPackageMetadata) :=
  match registry.path with
  | some registryPath => do
      let registryRoot ← resolveRegistryPath env config.rootDir registryPath
      match env.canonicalize (registryRoot.child packageName) with
      | none => throw (.registryHasNoPackage registryName packageName)
      | some packageRoot =>
        selectRegistryPackageManifest env packageRoot packageName matchesReq requirement
          config.options.allowYanked
  | none =>
    match env.remotePackage config.registryCacheDir registryName registry packageName
      requirement config.options.allowYanked with
    | .ok found => .ok found
    | .error reason => .error (.external reason)

def resolveRegistryDependencyManifest (dep : Dependency) :
    Except ResolveError (FilePath × PackageSource) :=
  match dep.versionReq with
  | none => .error (.noSupportedSource dep.name)
  | some requirement =>
    match env.parseReq requirement with
    | none => .error (.invalidRequirement dep.name)
    | some matchesReq =>
      let registryName := dep.registry.getD "default"
      match config.registries.lookup registryName with
      | none => .error (.registryNotConfigured dep.name registryName)
      | some registry => do
          let (version, manifestPath, metadata) ← locateRegistryPackage env config
            registryName registry dep.targetName requirement matchesReq
          if ¬ config.options.allowYanked then
            rejectYankedPackage env dep.targetName version metadata
          else pure ()
          pure (manifestPath, .registry registryName (env.showVersion version) metadata)

def resolveDependencyManifest (dir : FilePath) (dep : Dependency) :
    Except ResolveError (FilePath × PackageSource) :=
  match dep.path, dep.git with
  | some depPath, _ => do
      let manifestPath ← resolvePathDependencyManifest env dir depPath
      pure (manifestPath, .path)
  | none, some gitUrl =>
    match env.gitCheckout dir config.gitCacheDir dep gitUrl config.options.refreshGit with
    | .ok (manifestPath, rev) => .ok (manifestPath, .git gitUrl rev)
    | .error reason => .error (.external reason)
  | none, none => resolveRegistryDependencyManifest env config dep

def validatePackageEntry (rootDir : FilePath) (package target : String)
    (relative : FilePath) : Except ResolveError Unit :=
  if relative.absolute then .error (.entryNotRelative package target relative)
  else
    match env.canonicalize (rootDir.join relative) with
    | none => .error (.entryMissing package target (rootDir.join relative))
    | some entryPath =>
      if ¬ (entryPath.absolute = rootDir.absolute ∧ rootDir.parts <+: entryPath.parts) then
        .error (.entryOutside package target relative)
      else if ¬ env.isFile entryPath then .error (.entryNotFile package target entryPath)
      else .ok ()

def validatePackageEntries (rootDir : FilePath) (manifest : Manifest) :
    Except ResolveError Unit :=
  match manifest.bin, manifest.lib with
  | none, none => validatePackageEntry env rootDir manifest.name "[bin]" manifest.entryPath
  | bin, lib => do
      match bin with
      | some path => validatePackageEntry env rootDir manifest.name "[bin]" path
      | none => pure ()
      match lib with
      | some path => validatePackageEntry env rootDir manifest.name "[lib]" path
      | none => pure ()

/-- A dependency as its parent sees it: the manifest it resolves to and the
identity that the edge to it names. -/
structure Reference where
  depAlias : String
  manifestPath : FilePath
  source : PackageSource
  id : String
  deriving DecidableEq

def identityOf (manifest : Manifest) (rootDir : FilePath) (source : PackageSource) : String :=
  packageIdentity manifest.name manifest.version
    (canonicalSourceKey config.rootDir rootDir source manifest.name)

def resolveReference (rootDir : FilePath) (entry : String × Dependency) :
    Except ResolveError Reference := do
  let (manifestPath, source) ←
    (resolveDependencyManifest env config rootDir entry.2).mapError (.dependency entry.1)
  let manifest ← loadManifest env manifestPath
  if manifest.name ≠ entry.2.targetName then
    throw (.packageName entry.2.name manifest.name entry.2.targetName)
  else do
    let dir ← parentDir manifestPath
    pure ⟨entry.1, manifestPath, source, identityOf config manifest dir source⟩

/-- The state of the walk. The sets of the code are lists that are only asked for
membership. -/
structure GraphBuilder where
  visiting : List FilePath
  visited : List FilePath
  stack : List FilePath
  nodes : List PackageNode
  edges : List DependencyEdge
  packageIds : List (String × FilePath)
  deriving DecidableEq

namespace GraphBuilder

def empty : GraphBuilder := ⟨[], [], [], [], [], []⟩

def pushEdge (builder : GraphBuilder) (edge : DependencyEdge) : GraphBuilder :=
  { builder with edges := builder.edges ++ [edge] }

def enter (builder : GraphBuilder) (key : FilePath) (packageIds : List (String × FilePath)) :
    GraphBuilder :=
  { builder with
    visiting := key :: builder.visiting
    stack := builder.stack ++ [key]
    packageIds := packageIds }

def leave (builder : GraphBuilder) (node : PackageNode) : GraphBuilder :=
  { builder with
    nodes := builder.nodes ++ [node]
    stack := builder.stack.dropLast
    visiting := builder.visiting.erase node.manifestPath
    visited := node.manifestPath :: builder.visited }

end GraphBuilder

def recordPackageId (manifest : Manifest) (id : String) (key : FilePath)
    (packageIds : List (String × FilePath)) :
    Except ResolveError (List (String × FilePath)) :=
  match packageIds.lookup id with
  | some existing =>
    if existing ≠ key then
      .error (.conflictingSources manifest.name manifest.version existing key)
    else .ok packageIds
  | none => .ok ((id, key) :: packageIds)

/-- The loop over the dependencies: an edge is pushed before its target is
visited. -/
def visitDependencies
    (visit : FilePath → PackageSource → GraphBuilder → Except ResolveError GraphBuilder)
    (packageId : String) (rootDir : FilePath) :
    List (String × Dependency) → GraphBuilder → Except ResolveError GraphBuilder
  | [], builder => .ok builder
  | entry :: entries, builder => do
      let reference ← resolveReference env config rootDir entry
      let builder ← visit reference.manifestPath reference.source
        (builder.pushEdge ⟨packageId, reference.depAlias, reference.id⟩)
      visitDependencies visit packageId rootDir entries builder

def visit : Nat → FilePath → PackageSource → GraphBuilder → Except ResolveError GraphBuilder
  | 0, _, _, _ => .error .outOfFuel
  | fuel + 1, manifestPath, source, builder => do
      let key ← canonicalizeExisting env manifestPath
      if key ∈ builder.visited then pure builder
      else if key ∈ builder.visiting then throw (.cyclic (builder.stack ++ [key]))
      else do
        let manifest ← loadManifest env key
        let rootDir ← parentDir key
        let packageId := identityOf config manifest rootDir source
        let packageIds ← recordPackageId manifest packageId key builder.packageIds
        validatePackageEntries env rootDir manifest
        let walked ← visitDependencies env config (visit fuel) packageId rootDir
          manifest.dependencies (builder.enter key packageIds)
        pure (walked.leave ⟨packageId, manifest.name, key, rootDir,
          rootDir.join manifest.entryPath, manifest, source⟩)

structure Graph where
  root : FilePath
  nodes : List PackageNode
  edges : List DependencyEdge
  registries : List (String × RegistryConfig)
  deriving DecidableEq

/-- The root manifest and the configuration that the walk from it runs under. -/
def rootConfig (manifestPath : FilePath) (options : ResolveOptions) :
    Except ResolveError (FilePath × GraphConfig) := do
  let rootManifest ← resolveManifestPath env manifestPath
  let rootDir ← parentDir rootManifest
  let manifest ← loadManifest env rootManifest
  pure (rootManifest, ⟨rootDir, manifest.registries, options⟩)

def fromRootWithOptions (manifestPath : FilePath) (options : ResolveOptions) :
    Except ResolveError Graph := do
  let (rootManifest, config) ← rootConfig env manifestPath options
  let builder ← visit env config (env.files.length + 1) rootManifest .path .empty
  pure ⟨rootManifest, builder.nodes, builder.edges, config.registries⟩

end Resolve

end Sengoo.Sgpm
