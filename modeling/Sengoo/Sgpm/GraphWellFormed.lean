import Sengoo.Sgpm.GraphInvariant

/-!
Well-formedness of a resolved graph. The walk always gives distinct identities,
one edge per dependency and the dependency order; the target of an edge is the
identity of the right node exactly when all references to a manifest agree on
its identity. A package reached both by path and through a registry breaks it.
-/

namespace Sengoo.Sgpm

open Sengoo.Fallible Sengoo.Topological Relation List

section Statement

variable {Version : Type} (env : Environment Version) (config : GraphConfig)

/-- No manifest is named under two identities. -/
def Consistent (root : FilePath) : Prop :=
  ∀ key id id', Named env config root key id → Named env config root key id' → id = id'

/-- A package graph in dependency order: identities are distinct, edges join nodes, a
node has one edge per dependency, and each goes to an earlier node, the one of the
manifest the dependency resolves to. -/
structure WellFormed (graph : Graph) : Prop where
  ids_nodup : (graph.nodes.map PackageNode.id).Nodup
  ends : ∀ edge ∈ graph.edges, (∃ node ∈ graph.nodes, node.id = edge.source) ∧
    ∃ node ∈ graph.nodes, node.id = edge.target
  one_per_dependency : ∀ node ∈ graph.nodes,
    (edgesFrom node.id graph.edges).map DependencyEdge.depAlias =
      node.manifest.dependencies.map Prod.fst
  targets : ∀ before node after, graph.nodes = before ++ node :: after →
    ∀ entry ∈ node.manifest.dependencies, ∃ reference,
      resolveReference env config node.rootDir entry = .ok reference ∧
      ⟨node.id, entry.1, reference.id⟩ ∈ graph.edges ∧
      ∃ target ∈ before, env.canonicalize reference.manifestPath = some target.manifestPath ∧
        target.id = reference.id

end Statement

section Main

variable {Version : Type} {env : Environment Version} {config : GraphConfig}

theorem invariant_empty (root : FilePath) : Invariant env config root .empty where
  ordered := .nil
  visited_iff _ := Iff.rfl
  disjoint _ hkey := by cases hkey
  visiting_nodup := nodup_nil
  visiting_files _ hkey := by cases hkey
  registered _ _ h := by cases h
  unique _ _ _ h := by cases h
  sources _ hedge := by cases hedge
  settled _ hnode := by cases hnode

variable {manifestPath root : FilePath} {options : ResolveOptions}

theorem rootConfig_ok
    (h : rootConfig env manifestPath options = .ok (root, config)) :
    env.canonicalize root = some root := by
  obtain ⟨found, hfound, h⟩ := bind_eq_ok h
  obtain ⟨dir, -, h⟩ := bind_eq_ok h
  obtain ⟨manifest, -, h⟩ := bind_eq_ok h
  cases h
  exact env.canonicalize_idem (canonicalizeExisting_ok hfound)

theorem fromRootWithOptions_eq
    (h : rootConfig env manifestPath options = .ok (root, config)) :
    fromRootWithOptions env manifestPath options =
      (visit env config (env.files.length + 1) root .path .empty >>= fun builder =>
        pure ⟨root, builder.nodes, builder.edges, config.registries⟩) := by
  rw [fromRootWithOptions, h]
  rfl

/-- What is left after a whole run: the invariant, with nothing being visited and
the root among the visited manifests. -/
theorem fromRootWithOptions_ok
    {graph : Graph} (hroot : rootConfig env manifestPath options = .ok (root, config))
    (h : fromRootWithOptions env manifestPath options = .ok graph) :
    ∃ builder, Invariant env config root builder ∧ builder.visiting = [] ∧
      root ∈ builder.visited ∧
      graph = ⟨root, builder.nodes, builder.edges, config.registries⟩ := by
  rw [fromRootWithOptions_eq hroot] at h
  obtain ⟨builder, hvisit, h⟩ := bind_eq_ok h
  cases h
  have hcanonical := rootConfig_ok hroot
  obtain ⟨hinv, hgrows, key, hkey, hvisited⟩ :=
    visit_keeps root _ _ _ _ _ hvisit (invariant_empty root) (Requested.of_root hcanonical)
  cases hcanonical.symm.trans hkey
  exact ⟨builder, hinv, hgrows.visiting_eq, hvisited, rfl⟩

/-- References to one manifest agree when none is to the root and those to others do. -/
theorem Consistent.of_references
    (hroot : ∀ {key reference}, ReflTransGen (Depends env config) root key →
      ¬ Refers env config key reference root)
    (hsame : ∀ {key key' reference reference' target},
      ReflTransGen (Depends env config) root key → ReflTransGen (Depends env config) root key' →
      Refers env config key reference target → Refers env config key' reference' target →
      reference.id = reference'.id) : Consistent env config root := by
  intro key id id' hid hid'
  cases hid with
  | root hload hparent =>
    cases hid' with
    | root hload' hparent' =>
      cases hload.symm.trans hload'
      cases hparent.symm.trans hparent'
      rfl
    | dependency hreach href => exact absurd href (hroot hreach)
  | dependency hreach href =>
    cases hid' with
    | root => exact absurd href (hroot hreach)
    | dependency hreach' href' => exact hsame hreach hreach' href href'

section Final

variable {root : FilePath} {builder : GraphBuilder}

theorem Invariant.listed (h : Invariant env config root builder)
    (hroot : root ∈ builder.visited) {key : FilePath}
    (hreach : ReflTransGen (Depends env config) root key) :
    key ∈ builder.nodes.map PackageNode.manifestPath :=
  h.ordered.reachable ((h.visited_iff root).mp hroot) hreach

theorem Invariant.no_cycle (h : Invariant env config root builder)
    (hroot : root ∈ builder.visited) : ¬ HasCycle env config root := by
  rintro ⟨key, hreach, hcycle⟩
  exact h.ordered.acyclic (h.listed hroot hreach) hcycle

variable {node : PackageNode}

section

variable (h : Invariant env config root builder)
include h

theorem Invariant.node_named
    (hnode : node ∈ builder.nodes) : Named env config root node.manifestPath node.id :=
  (h.registered node.id node.manifestPath (h.settled node hnode).registered).1

theorem Invariant.node_eq {node other : PackageNode}
    (hnode : node ∈ builder.nodes) (hother : other ∈ builder.nodes)
    (hpath : node.manifestPath = other.manifestPath) : node = other :=
  inj_on_of_nodup_map h.ordered.nodup hnode hother hpath

theorem Invariant.ids_nodup : (builder.nodes.map PackageNode.id).Nodup := by
  refine List.Nodup.map_on ?_ (List.Nodup.of_map _ h.ordered.nodup)
  intro node hnode other hother hid
  have hnodeKey := (h.settled node hnode).registered
  rw [hid, (h.settled other hother).registered] at hnodeKey
  exact h.node_eq hnode hother (Option.some.inj hnodeKey).symm

theorem Invariant.source_node
    (hvisiting : builder.visiting = []) {edge : DependencyEdge} (hedge : edge ∈ builder.edges) :
    ∃ node ∈ builder.nodes, node.id = edge.source := by
  obtain ⟨key, hkey⟩ := h.sources edge hedge
  obtain ⟨-, hin⟩ := h.registered edge.source key hkey
  rw [hvisiting] at hin
  have hlisted := (h.visited_iff key).mp (hin.resolve_right not_mem_nil)
  obtain ⟨node, hnode, rfl⟩ := mem_map.mp hlisted
  exact ⟨node, hnode, h.unique _ _ _ (h.settled node hnode).registered hkey⟩

theorem Invariant.one_per_dependency
    (hnode : node ∈ builder.nodes) :
    (edgesFrom node.id builder.edges).map DependencyEdge.depAlias =
      node.manifest.dependencies.map Prod.fst := by
  obtain ⟨references, hreferences, hfrom, -⟩ := (h.settled node hnode).edges
  rw [hfrom, List.map_map]
  apply map_eq_of_mapM hreferences
  intro entry reference href
  obtain ⟨_, _, -, -, -, halias, -⟩ := resolveReference_ok href
  exact halias

/-- A dependency of a node, as the edge it left and the manifest it goes to. -/
theorem Invariant.dependency
    (hnode : node ∈ builder.nodes) {entry : String × Dependency}
    (hentry : entry ∈ node.manifest.dependencies) :
    ∃ reference target, resolveReference env config node.rootDir entry = .ok reference ∧
      edgeTo node.id reference ∈ builder.edges ∧
      Refers env config node.manifestPath reference target := by
  have hsettled := h.settled node hnode
  obtain ⟨references, hreferences, hfrom, htargets⟩ := hsettled.edges
  obtain ⟨k, hk⟩ := getElem?_of_mem hentry
  obtain ⟨reference, hreference, href⟩ := getElem?_of_mapM hreferences hk
  have hmem := mem_of_getElem? hreference
  obtain ⟨target, htarget⟩ := htargets reference hmem
  have hedge : edgeTo node.id reference ∈ edgesFrom node.id builder.edges := by
    rw [hfrom]
    exact mem_map_of_mem hmem
  exact ⟨reference, target, href, mem_of_mem_filter hedge, node.manifest, node.rootDir,
    hsettled.load, hsettled.parent, entry, hentry, href, htarget⟩

theorem Invariant.edge_entry
    (hnode : node ∈ builder.nodes) {edge : DependencyEdge} (hedge : edge ∈ builder.edges)
    (hsource : edge.source = node.id) :
    ∃ entry ∈ node.manifest.dependencies, ∃ reference,
      resolveReference env config node.rootDir entry = .ok reference ∧
      edge.target = reference.id := by
  obtain ⟨references, hreferences, hfrom, -⟩ := (h.settled node hnode).edges
  have hin : edge ∈ edgesFrom node.id builder.edges := by
    simp [edgesFrom, hedge, hsource]
  rw [hfrom] at hin
  obtain ⟨reference, hreference, rfl⟩ := mem_map.mp hin
  obtain ⟨entry, hentry, href⟩ := exists_of_mem_mapM hreferences reference hreference
  exact ⟨entry, hentry, reference, href, rfl⟩

/-- When references agree, a dependency goes to an earlier node under its identity. -/
theorem Invariant.target_before
    (hconsistent : Consistent env config root) {before after : List PackageNode}
    (hsplit : builder.nodes = before ++ node :: after)
    {reference : Reference} {target : FilePath}
    (href : Refers env config node.manifestPath reference target) :
    ∃ other ∈ before, other.manifestPath = target ∧ other.id = reference.id := by
  have hnode : node ∈ builder.nodes := by simp [hsplit]
  have hkeys : builder.nodes.map PackageNode.manifestPath = before.map PackageNode.manifestPath ++
        node.manifestPath :: after.map PackageNode.manifestPath := by
    simp [hsplit]
  obtain ⟨other, hother, rfl⟩ := mem_map.mp (h.ordered.before hkeys ⟨reference, href⟩)
  refine ⟨other, hother, rfl, ?_⟩
  apply hconsistent other.manifestPath
  · exact h.node_named (by simp [hsplit, hother])
  · exact .dependency (h.node_named hnode).reachable href

theorem Invariant.wellFormed
    (hvisiting : builder.visiting = []) (hconsistent : Consistent env config root) :
    WellFormed env config ⟨root, builder.nodes, builder.edges, config.registries⟩ where
  ids_nodup := h.ids_nodup
  ends edge hedge := by
    obtain ⟨node, hnode, hid⟩ := h.source_node hvisiting hedge
    obtain ⟨entry, hentry, reference, href, htarget⟩ := h.edge_entry hnode hedge hid.symm
    obtain ⟨before, after, hsplit⟩ := append_of_mem hnode
    obtain ⟨found, target, hfound, -, hrefers⟩ := h.dependency hnode hentry
    cases href.symm.trans hfound
    obtain ⟨other, hother, -, hotherId⟩ := h.target_before hconsistent hsplit hrefers
    exact ⟨⟨node, hnode, hid⟩, other, by simp [hsplit, hother], hotherId.trans htarget.symm⟩
  one_per_dependency node := h.one_per_dependency
  targets before node after hsplit entry hentry := by
    dsimp only at hsplit
    obtain ⟨reference, target, href, hedge, hrefers⟩ := h.dependency (by simp [hsplit]) hentry
    obtain ⟨other, hother, rfl, hid⟩ := h.target_before hconsistent hsplit hrefers
    obtain ⟨_, _, -, -, -, halias, -⟩ := resolveReference_ok href
    obtain ⟨_, _, -, -, _, -, -, htarget⟩ := hrefers
    refine ⟨reference, href, ?_, other, hother, htarget, hid⟩
    rw [← halias]
    exact hedge

/-- In a well-formed graph the identity on every reference is that of the node. -/
theorem Invariant.consistent
    (hroot : root ∈ builder.visited) (hwellFormed : WellFormed env config
      ⟨root, builder.nodes, builder.edges, config.registries⟩) : Consistent env config root := by
  have hnode : ∀ key reference target, ReflTransGen (Depends env config) root key →
      Refers env config key reference target →
      ∃ node ∈ builder.nodes, node.manifestPath = target ∧ node.id = reference.id := by
    rintro key reference target hreach ⟨manifest, dir, hload, hparent, entry, hentry, href, htarget⟩
    obtain ⟨node, hnode, rfl⟩ := mem_map.mp (h.listed hroot hreach)
    have hsettled := h.settled node hnode
    cases hsettled.load.symm.trans hload
    cases hsettled.parent.symm.trans hparent
    obtain ⟨before, after, hsplit⟩ := append_of_mem hnode
    obtain ⟨found, hfound, -, other, hother, hcanonical, hid⟩ :=
      hwellFormed.targets before node after hsplit entry hentry
    cases href.symm.trans hfound
    cases htarget.symm.trans hcanonical
    exact ⟨other, by simp [hsplit, hother], rfl, hid⟩
  apply Consistent.of_references
  · intro key reference hreach href
    exact h.no_cycle hroot ⟨root, .refl, .tail' hreach ⟨reference, href⟩⟩
  · intro key key' reference reference' target hreach hreach' href href'
    obtain ⟨node, hmem, hpath, hnodeId⟩ := hnode _ _ _ hreach href
    obtain ⟨other, hother, hotherPath, hotherId⟩ := hnode _ _ _ hreach' href'
    have hsame := h.node_eq hmem hother (hpath.trans hotherPath.symm)
    rw [← hnodeId, ← hotherId, hsame]

end

end Final

/-- A resolved graph is well formed exactly when no manifest is referred to under
two identities. A reachable cycle makes the resolution fail, and among packages
that otherwise resolve it is reported exactly when there is one. -/
theorem resolved_graph_wellFormed_iff {manifestPath root : FilePath} {options : ResolveOptions}
    (hroot : rootConfig env manifestPath options = .ok (root, config)) :
    (∀ graph, fromRootWithOptions env manifestPath options = .ok graph →
      (WellFormed env config graph ↔ Consistent env config root)) ∧
    (HasCycle env config root →
      ∃ e, fromRootWithOptions env manifestPath options = .error e) ∧
    (Resolvable env config root →
      (HasCycle env config root ↔
        ∃ cycle, fromRootWithOptions env manifestPath options = .error (.cyclic cycle))) := by
  have hfails : HasCycle env config root →
      ∃ e, fromRootWithOptions env manifestPath options = .error e := by
    intro hcycle
    cases hresult : fromRootWithOptions env manifestPath options with
    | error e => exact ⟨e, rfl⟩
    | ok graph =>
      obtain ⟨builder, hinv, -, hvisited, -⟩ := fromRootWithOptions_ok hroot hresult
      exact absurd hcycle (hinv.no_cycle hvisited)
  have hreports : ∀ e, Resolvable env config root →
      fromRootWithOptions env manifestPath options = .error e →
      ∃ cycle, e = .cyclic cycle ∧ HasCycle env config root := by
    intro e hresolvable hresult
    rw [fromRootWithOptions_eq hroot] at hresult
    rcases bind_eq_error hresult with hresult | ⟨builder, -, hresult⟩
    · have hcanonical := rootConfig_ok hroot
      refine visit_reports hresolvable _ _ _ _ _ root hresult (invariant_empty root)
        (Requested.of_root hcanonical) hcanonical .refl
        (Nat.lt_add_right _ (Nat.lt_succ_self _)) ?_
      intro other hother
      cases hother
    · cases hresult
  refine ⟨?_, hfails, ?_⟩
  · intro graph hgraph
    obtain ⟨builder, hinv, hvisiting, hvisited, rfl⟩ := fromRootWithOptions_ok hroot hgraph
    exact ⟨hinv.consistent hvisited, hinv.wellFormed hvisiting⟩
  · intro hresolvable
    constructor
    · intro hcycle
      obtain ⟨e, he⟩ := hfails hcycle
      obtain ⟨cycle, rfl, -⟩ := hreports e hresolvable he
      exact ⟨cycle, he⟩
    · rintro ⟨cycle, hcycle⟩
      obtain ⟨-, -, hhas⟩ := hreports _ hresolvable hcycle
      exact hhas

end Main

/-- A file system without links: every path is canonical. -/
def plainEnvironment (manifests : List (FilePath × Manifest)) (dirs : List FilePath)
    (texts : List FilePath) : Environment String where
  files := manifests.map Prod.fst ++ dirs ++ texts
  canonicalize path :=
    if path ∈ manifests.map Prod.fst ++ dirs ++ texts then some path else none
  isDir path := decide (path ∈ dirs)
  isFile path := decide (path ∈ manifests.map Prod.fst ++ texts)
  load path :=
    match manifests.lookup path with
    | some manifest => .ok manifest
    | none => .error "failed to read manifest"
  readDir path :=
    if path ∈ dirs then
      some (dirs.filterMap fun dir =>
        if dir.parent = some path then dir.parts.getLast? else none)
    else none
  localMetadata _ := .ok ⟨none, false, none, []⟩
  parseVersion text := if text = "1.0.0" then some text else none
  showVersion version := version
  versionLe left right := decide (left ≤ right)
  parseReq requirement := some fun version => decide ("=" ++ version = requirement)
  gitCheckout _ _ _ _ _ := .error "failed to start git"
  remotePackage _ _ _ _ _ _ := .error "failed to fetch remote registry"
  canonicalize_mem {path key} h := by
    split at h
    · next hmem =>
        cases h
        exact hmem
    · cases h
  canonicalize_idem {path key} h := by
    split at h
    · next hmem =>
        cases h
        exact if_pos hmem
    · cases h
  load_canonicalize {path key manifest} h hload := by
    split at h
    · cases h
      exact hload
    · cases h

def appDir : FilePath := ⟨true, ["app"]⟩

def registryDir : FilePath := appDir.child "registry"

def utilDir : FilePath := (registryDir.child "util").child "1.0.0"

def utilManifest : Manifest := ⟨"util", "1.0.0", none, some ⟨false, ["lib.sg"]⟩, [], []⟩

def appManifest (dependencies : List (String × Dependency)) : Manifest :=
  ⟨"app", "0.1.0", some ⟨false, ["main.sg"]⟩, none,
    [("default", ⟨some ⟨false, ["registry"]⟩, none, none⟩)], dependencies⟩

def appEnvironment (dependencies : List (String × Dependency)) : Environment String :=
  plainEnvironment [(appDir.child "Sengoo.toml", appManifest dependencies),
      (utilDir.child "Sengoo.toml", utilManifest)]
    [appDir, registryDir, registryDir.child "util", utilDir]
    [appDir.child "main.sg", utilDir.child "lib.sg"]

/-- A path dependency into the directory of a local registry. -/
def byPath (name : String) : String × Dependency :=
  (name, ⟨name, some "util", some ⟨false, ["registry", "util", "1.0.0"]⟩, none, none, none, none⟩)

def byRegistry (name : String) : String × Dependency :=
  (name, ⟨name, some "util", none, none, none, some "=1.0.0", none⟩)

def appManifestPath : FilePath := appDir.child "Sengoo.toml"

def utilManifestPath : FilePath := utilDir.child "Sengoo.toml"

def defaultOptions : ResolveOptions := ⟨false, false⟩

/-- The package is reached by its path first, so its node has the path identity,
and the edge of the registry dependency names an identity that no node has. -/
theorem path_and_registry_leave_dangling_edge :
    ∃ graph, fromRootWithOptions (appEnvironment [byPath "local", byRegistry "util"]) appDir
        defaultOptions = .ok graph ∧
      ∃ edge ∈ graph.edges, ∀ node ∈ graph.nodes, node.id ≠ edge.target := by
  refine exists_ok_of_decide ?_
  decide +kernel

def appConfig : GraphConfig := ⟨appDir, (appManifest []).registries, defaultOptions⟩

/-- The package is reached twice, both times by its path. -/
def twicePath : List (String × Dependency) := [byPath "local", byPath "util"]

theorem twicePath_refers {key target : FilePath} {reference : Reference}
    (hkey : key = appManifestPath ∨ key = utilManifestPath)
    (h : Refers (appEnvironment twicePath) appConfig key reference target) :
    target = utilManifestPath ∧ reference.id = "util@1.0.0+path:registry/util/1.0.0" := by
  obtain ⟨manifest, dir, hload, hparent, entry, hentry, href, htarget⟩ := h
  rcases hkey with rfl | rfl
  · have happ : (appEnvironment twicePath).load appManifestPath = .ok (appManifest twicePath) := by
      decide +kernel
    have hdir : appManifestPath.parent = some appDir := by decide
    rw [hdir] at hparent
    cases hload
    cases hparent
    have hreference : ∀ entry ∈ twicePath,
        resolveReference (appEnvironment twicePath) appConfig appDir entry =
          .ok ⟨entry.1, utilManifestPath, .path, "util@1.0.0+path:registry/util/1.0.0"⟩ := by
      decide +kernel
    rw [hreference entry hentry] at href
    cases href
    have hutil : (appEnvironment twicePath).canonicalize utilManifestPath =
        some utilManifestPath := by
      decide +kernel
    exact ⟨Option.some.inj (htarget.symm.trans hutil), rfl⟩
  · have hutil : (appEnvironment twicePath).load utilManifestPath = .ok utilManifest := by
      decide +kernel
    cases hload
    cases hentry

theorem twicePath_reachable {key : FilePath}
    (h : ReflTransGen (Depends (appEnvironment twicePath) appConfig) appManifestPath key) :
    key = appManifestPath ∨ key = utilManifestPath := by
  induction h with
  | refl => exact .inl rfl
  | tail _ hstep ih =>
    obtain ⟨reference, href⟩ := hstep
    exact .inr (twicePath_refers ih href).1

theorem twicePath_consistent : Consistent (appEnvironment twicePath) appConfig appManifestPath := by
  apply Consistent.of_references
  · intro key reference hreach href
    exact absurd (twicePath_refers (twicePath_reachable hreach) href).1 (by decide)
  · intro key key' reference reference' target hreach hreach' href href'
    rw [(twicePath_refers (twicePath_reachable hreach) href).2,
      (twicePath_refers (twicePath_reachable hreach') href').2]

theorem twicePath_wellFormed :
    ∃ graph, fromRootWithOptions (appEnvironment twicePath) appDir defaultOptions = .ok graph ∧
      graph.nodes.length = 2 ∧ graph.edges.length = 2 ∧
      WellFormed (appEnvironment twicePath) appConfig graph := by
  have hroot : rootConfig (appEnvironment twicePath) appDir defaultOptions =
      .ok (appManifestPath, appConfig) := by
    decide +kernel
  obtain ⟨graph, hgraph, hnodes, hedges⟩ :
      ∃ graph, fromRootWithOptions (appEnvironment twicePath) appDir defaultOptions = .ok graph ∧
        graph.nodes.length = 2 ∧ graph.edges.length = 2 :=
    exists_ok_of_decide (by decide +kernel)
  exact ⟨graph, hgraph, hnodes, hedges,
    ((resolved_graph_wellFormed_iff hroot).1 graph hgraph).mpr twicePath_consistent⟩

end Sengoo.Sgpm
