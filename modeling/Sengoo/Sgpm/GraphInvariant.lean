import Mathlib.Data.List.Perm.Subperm
import Sengoo.Fallible
import Sengoo.Topological
import Sengoo.Sgpm.Resolver

/-!
What a run of the resolver keeps. Manifests in `nodes` are in dependency order,
identities are registered for one manifest each, and a finished node has one
edge per dependency. A run that fails although every package resolves has met a
cycle.
-/

namespace Sengoo.Sgpm

open Sengoo.Fallible Sengoo.Topological Relation List

section Walk

variable {Version : Type} (env : Environment Version) (config : GraphConfig)

/-- The package at `key` has a dependency that resolves to the manifest `target`. -/
def Refers (key : FilePath) (reference : Reference) (target : FilePath) : Prop :=
  ∃ manifest dir, env.load key = .ok manifest ∧ key.parent = some dir ∧
    ∃ entry ∈ manifest.dependencies, resolveReference env config dir entry = .ok reference ∧
      env.canonicalize reference.manifestPath = some target

def Depends (key target : FilePath) : Prop := ∃ reference, Refers env config key reference target

/-- A manifest with an identity under which the root or a reachable dependency
names it. -/
inductive Named (root : FilePath) : FilePath → String → Prop
  | root {manifest : Manifest} {dir : FilePath} :
      env.load root = .ok manifest → root.parent = some dir →
        Named root root (identityOf config manifest dir .path)
  | dependency {key target : FilePath} {reference : Reference} :
      ReflTransGen (Depends env config) root key → Refers env config key reference target →
        Named root target reference.id

def edgesFrom (id : String) (edges : List DependencyEdge) : List DependencyEdge :=
  edges.filter (fun edge => decide (edge.source = id))

variable {env config}

variable {key dir path root target : FilePath} {id other : String} {reference : Reference}

theorem canonicalizeExisting_ok
    (h : canonicalizeExisting env path = .ok key) : env.canonicalize path = some key := by
  unfold canonicalizeExisting at h
  split at h <;> cases h
  assumption

variable {manifest : Manifest} {entry : String × Dependency} {id : String}
  {builder result : GraphBuilder}

theorem loadManifest_ok (h : loadManifest env path = .ok manifest) : env.load path = .ok manifest := by
  unfold loadManifest at h
  split at h <;> cases h
  assumption

theorem parentDir_ok (h : parentDir path = .ok dir) : path.parent = some dir := by
  unfold parentDir at h
  split at h <;> cases h
  assumption

/-- A path source comes with a canonical manifest path. -/
theorem resolveDependencyManifest_path {manifestPath : FilePath} {dep : Dependency}
    (h : resolveDependencyManifest env config dir dep = .ok (manifestPath, .path)) :
    env.canonicalize manifestPath = some manifestPath := by
  unfold resolveDependencyManifest at h
  split at h
  · obtain ⟨found, hfound, h⟩ := bind_eq_ok h
    cases h
    exact env.canonicalize_idem (canonicalizeExisting_ok hfound)
  · split at h <;> cases h
  · unfold resolveRegistryDependencyManifest at h
    split at h
    · cases h
    · split at h
      · cases h
      · dsimp only at h
        split at h
        · cases h
        · obtain ⟨⟨version, path, metadata⟩, -, h⟩ := bind_eq_ok h
          split at h
          · obtain ⟨_, -, h⟩ := bind_eq_ok h
            cases h
          · cases h

theorem resolveReference_ok (h : resolveReference env config dir entry = .ok reference) :
    ∃ manifest refDir, resolveDependencyManifest env config dir entry.2 =
        .ok (reference.manifestPath, reference.source) ∧
      env.load reference.manifestPath = .ok manifest ∧
      reference.manifestPath.parent = some refDir ∧ reference.depAlias = entry.1 ∧
      reference.id = identityOf config manifest refDir reference.source := by
  obtain ⟨⟨manifestPath, source⟩, hfound, h⟩ := bind_eq_ok h
  obtain ⟨manifest, hmanifest, h⟩ := bind_eq_ok h
  obtain ⟨-, h⟩ := of_guard h
  obtain ⟨refDir, hdir, h⟩ := bind_eq_ok h
  cases h
  refine ⟨manifest, refDir, ?_, loadManifest_ok hmanifest, parentDir_ok hdir, rfl, rfl⟩
  cases hresolve : resolveDependencyManifest env config dir entry.2 <;> rw [hresolve] at hfound
  · cases hfound
  · cases hfound
    rfl

/-- The identity computed at the visited manifest is the one its referrer wrote
on the edge. -/
theorem resolveReference_identity {targetDir : FilePath}
    (h : resolveReference env config dir entry = .ok reference)
    (htarget : env.canonicalize reference.manifestPath = some target)
    (hmanifest : env.load target = .ok manifest) (hdir : target.parent = some targetDir) :
    identityOf config manifest targetDir reference.source = reference.id := by
  obtain ⟨found, refDir, hresolve, hload, hparent, -, hid⟩ := resolveReference_ok h
  have hsame : manifest = found := by
    have hboth := hmanifest.symm.trans (env.load_canonicalize htarget hload)
    exact Except.ok.inj hboth
  subst hsame
  rw [hid]
  cases hsource : reference.source with
  | git url rev | registry registry version metadata => rfl
  | path =>
    rw [hsource] at hresolve
    have hcanonical := resolveDependencyManifest_path hresolve
    rw [htarget] at hcanonical
    cases hcanonical
    rw [hparent] at hdir
    cases hdir
    rfl

theorem Named.reachable
    (h : Named env config root key id) : ReflTransGen (Depends env config) root key := by
  cases h with
  | root => exact .refl
  | dependency hkey href => exact hkey.tail ⟨_, href⟩

theorem recordPackageId_ok {packageIds recorded : List (String × FilePath)}
    (h : recordPackageId manifest id key packageIds = .ok recorded) :
    packageIds.lookup id = some key ∧ recorded = packageIds ∨
      packageIds.lookup id = none ∧ recorded = (id, key) :: packageIds := by
  unfold recordPackageId at h
  split at h
  · next existing hexisting =>
      obtain ⟨hsame, h⟩ := of_guard h
      cases h
      rw [not_not] at hsame
      subst hsame
      exact .inl ⟨hexisting, rfl⟩
  · next hnone =>
      cases h
      exact .inr ⟨hnone, rfl⟩

/-- The node that a visit of `key` appends. -/
def nodeFor (config : GraphConfig) (manifest : Manifest) (key dir : FilePath)
    (source : PackageSource) : PackageNode :=
  ⟨identityOf config manifest dir source, manifest.name, key, dir,
    dir.join manifest.entryPath, manifest, source⟩

/-- How a visit succeeds: the manifest was visited before, or it is entered, its
dependencies are walked, and it is left. -/
theorem visit_ok {fuel : Nat} {source : PackageSource}
    (h : visit env config (fuel + 1) path source builder = .ok result) :
    ∃ key, env.canonicalize path = some key ∧ (key ∈ builder.visited ∧ result = builder ∨
        key ∉ builder.visited ∧ key ∉ builder.visiting ∧
          ∃ manifest dir packageIds walked, env.load key = .ok manifest ∧ key.parent = some dir ∧
            recordPackageId manifest (identityOf config manifest dir source) key
              builder.packageIds = .ok packageIds ∧
            visitDependencies env config (visit env config fuel)
              (identityOf config manifest dir source) dir manifest.dependencies
              (builder.enter key packageIds) = .ok walked ∧
            result = walked.leave (nodeFor config manifest key dir source)) := by
  obtain ⟨key, hkey, h⟩ := bind_eq_ok h
  refine ⟨key, canonicalizeExisting_ok hkey, ?_⟩
  split at h
  · next hvisited =>
      cases h
      exact .inl ⟨hvisited, rfl⟩
  · next hvisited =>
      obtain ⟨hvisiting, h⟩ := of_guard h
      obtain ⟨manifest, hmanifest, h⟩ := bind_eq_ok h
      obtain ⟨dir, hdir, h⟩ := bind_eq_ok h
      obtain ⟨packageIds, hrecord, h⟩ := bind_eq_ok h
      obtain ⟨_, -, h⟩ := bind_eq_ok h
      obtain ⟨walked, hwalked, h⟩ := bind_eq_ok h
      cases h
      exact .inr ⟨hvisited, hvisiting, manifest, dir, packageIds, walked,
        loadManifest_ok hmanifest, parentDir_ok hdir, hrecord, hwalked, rfl⟩

@[simp]
theorem edgesFrom_append (id : String) (edges more : List DependencyEdge) :
    edgesFrom id (edges ++ more) = edgesFrom id edges ++ edgesFrom id more :=
  filter_append ..

theorem edgesFrom_eq_nil {edges : List DependencyEdge}
    (h : ∀ edge ∈ edges, edge.source ≠ id) : edgesFrom id edges = [] := by
  apply filter_eq_nil_iff.mpr
  intro edge hedge
  simpa using h edge hedge

def edgeTo (id : String) (reference : Reference) : DependencyEdge :=
  ⟨id, reference.depAlias, reference.id⟩

@[simp]
theorem edgesFrom_edgeTo (id : String) (reference : Reference) :
    edgesFrom id [edgeTo id reference] = [edgeTo id reference] := by
  simp [edgesFrom, edgeTo]

theorem edgesFrom_edgeTo_ne (h : id ≠ other) (reference : Reference) :
    edgesFrom other [edgeTo id reference] = [] := by
  apply edgesFrom_eq_nil
  intro edge hedge
  obtain rfl := mem_singleton.mp hedge
  exact h

variable (env config) in
/-- A finished node: its identity is registered for its manifest, and its edges
are those of its resolved dependencies, in order. -/
structure Settled (packageIds : List (String × FilePath)) (edges : List DependencyEdge)
    (node : PackageNode) : Prop where
  registered : packageIds.lookup node.id = some node.manifestPath
  load : env.load node.manifestPath = .ok node.manifest
  parent : node.manifestPath.parent = some node.rootDir
  edges : ∃ references, node.manifest.dependencies.mapM (resolveReference env config node.rootDir) =
      .ok references ∧
    edgesFrom node.id edges = references.map (edgeTo node.id) ∧
    ∀ reference ∈ references, ∃ target, env.canonicalize reference.manifestPath = some target

variable (env config) in
structure Invariant (root : FilePath) (builder : GraphBuilder) : Prop where
  ordered : Ordered (Depends env config) (builder.nodes.map PackageNode.manifestPath)
  visited_iff : ∀ key, key ∈ builder.visited ↔ key ∈ builder.nodes.map PackageNode.manifestPath
  disjoint : ∀ key ∈ builder.visiting, key ∉ builder.visited
  visiting_nodup : builder.visiting.Nodup
  visiting_files : ∀ key ∈ builder.visiting, key ∈ env.files
  registered : ∀ id key, builder.packageIds.lookup id = some key →
    Named env config root key id ∧ (key ∈ builder.visited ∨ key ∈ builder.visiting)
  unique : ∀ id id' key, builder.packageIds.lookup id = some key →
    builder.packageIds.lookup id' = some key → id = id'
  sources : ∀ edge ∈ builder.edges, ∃ key, builder.packageIds.lookup edge.source = some key
  settled : ∀ node ∈ builder.nodes, Settled env config builder.packageIds builder.edges node

/-- What a visit leaves in place: the manifests being visited, all registered
identities, and the edges of every package being visited except `own`. -/
structure Grows (own : Option String) (builder result : GraphBuilder) : Prop where
  visiting_eq : result.visiting = builder.visiting
  visited_mono : ∀ key ∈ builder.visited, key ∈ result.visited
  lookup_mono : ∀ id key, builder.packageIds.lookup id = some key →
    result.packageIds.lookup id = some key
  frame : ∀ id key, some id ≠ own → builder.packageIds.lookup id = some key →
    key ∈ builder.visiting → edgesFrom id result.edges = edgesFrom id builder.edges

theorem Grows.refl (own : Option String) (builder : GraphBuilder) : Grows own builder builder where
  visiting_eq := rfl
  visited_mono _ hkey := hkey
  lookup_mono _ _ hlookup := hlookup
  frame _ _ _ _ _ := rfl

theorem Grows.trans {own : Option String} {first second third : GraphBuilder}
    (h₁ : Grows own first second) (h₂ : Grows own second third) : Grows own first third where
  visiting_eq := h₂.visiting_eq.trans h₁.visiting_eq
  visited_mono key hkey := h₂.visited_mono key (h₁.visited_mono key hkey)
  lookup_mono id key hlookup := h₂.lookup_mono id key (h₁.lookup_mono id key hlookup)
  frame id key hid hlookup hkey := by
    rw [h₂.frame id key hid (h₁.lookup_mono id key hlookup) (h₁.visiting_eq ▸ hkey),
      h₁.frame id key hid hlookup hkey]

theorem Grows.except (own : Option String)
    (h : Grows none builder result) : Grows own builder result :=
  { h with frame := fun id key _ => h.frame id key (by simp) }

variable {node : PackageNode}

theorem Settled.mono {packageIds packageIds' : List (String × FilePath)}
    {edges edges' : List DependencyEdge}
    (h : Settled env config packageIds edges node)
    (hids : packageIds'.lookup node.id = some node.manifestPath)
    (hedges : edgesFrom node.id edges' = edgesFrom node.id edges) :
    Settled env config packageIds' edges' node := by
  obtain ⟨references, hreferences, hfrom, htargets⟩ := h.edges
  exact { h with
    registered := hids, edges := ⟨references, hreferences, hedges.trans hfrom, htargets⟩ }

theorem grows_pushEdge (builder : GraphBuilder) (id : String) (reference : Reference) :
    Grows (some id) builder (builder.pushEdge (edgeTo id reference)) where
  visiting_eq := rfl
  visited_mono _ hkey := hkey
  lookup_mono _ _ hlookup := hlookup
  frame other key hother _ _ := by
    have hne : id ≠ other := fun h => hother (congrArg some h.symm)
    simp [GraphBuilder.pushEdge, edgesFrom_edgeTo_ne hne]

variable {packageIds : List (String × FilePath)}

section Steps

variable {root : FilePath} {builder : GraphBuilder}

variable {key : FilePath}

theorem Invariant.pushEdge (h : Invariant env config root builder)
    (hid : builder.packageIds.lookup id = some key)
    (hkey : key ∈ builder.visiting) (reference : Reference) :
    Invariant env config root (builder.pushEdge (edgeTo id reference)) where
  __ := h
  sources edge hedge := by
    rcases mem_append.mp hedge with hedge | hedge
    · exact h.sources edge hedge
    · obtain rfl := mem_singleton.mp hedge
      exact ⟨key, hid⟩
  settled node hnode := by
    have hold := h.settled node hnode
    refine hold.mono hold.registered ?_
    have hne : id ≠ node.id := by
      rintro rfl
      have hsame : key = node.manifestPath :=
        Option.some.inj (hid.symm.trans hold.registered)
      refine h.disjoint key hkey ((h.visited_iff key).mpr ?_)
      rw [hsame]
      exact mem_map_of_mem hnode
    simp [GraphBuilder.pushEdge, edgesFrom_edgeTo_ne hne]

theorem lookup_cons_mono (hfresh : packageIds.lookup id = none)
    (h : packageIds.lookup other = some target) :
    ((id, key) :: packageIds).lookup other = some target := by
  have hne : (other == id) = false := by
    rw [beq_eq_false_iff_ne]
    rintro rfl
    rw [hfresh] at h
    cases h
  rw [lookup_cons, hne]
  exact h

theorem lookup_cons_cases (h : ((id, key) :: packageIds).lookup other = some target) :
    other = id ∧ target = key ∨ packageIds.lookup other = some target := by
  rw [lookup_cons] at h
  split at h
  · next heq =>
      cases h
      exact .inl ⟨eq_of_beq heq, rfl⟩
  · exact .inr h

/-- Entering a manifest that is neither visited nor being visited. -/
theorem Invariant.enter (h : Invariant env config root builder)
    (hvisited : key ∉ builder.visited) (hvisiting : key ∉ builder.visiting)
    (hfile : key ∈ env.files) (hnamed : Named env config root key id)
    (hfresh : builder.packageIds.lookup id = none) :
    Invariant env config root (builder.enter key ((id, key) :: builder.packageIds)) where
  __ := h
  disjoint other hother := by
    rcases mem_cons.mp hother with rfl | hother
    · exact hvisited
    · exact h.disjoint other hother
  visiting_nodup := nodup_cons.mpr ⟨hvisiting, h.visiting_nodup⟩
  visiting_files other hother := by
    rcases mem_cons.mp hother with rfl | hother
    · exact hfile
    · exact h.visiting_files other hother
  registered other target hlookup := by
    rcases lookup_cons_cases hlookup with ⟨rfl, rfl⟩ | hlookup
    · exact ⟨hnamed, .inr (mem_cons_self ..)⟩
    · obtain ⟨hother, hin⟩ := h.registered other target hlookup
      exact ⟨hother, hin.imp_right (mem_cons_of_mem key)⟩
  unique first second target hfirst hsecond := by
    have hold : ∀ other, builder.packageIds.lookup other ≠ some key := by
      intro other hother
      exact (not_or.mpr ⟨hvisited, hvisiting⟩) (h.registered other key hother).2
    rcases lookup_cons_cases hfirst with ⟨rfl, rfl⟩ | hfirstOld
    · rcases lookup_cons_cases hsecond with ⟨rfl, -⟩ | hsecondOld
      · rfl
      · exact absurd hsecondOld (hold second)
    · rcases lookup_cons_cases hsecond with ⟨rfl, rfl⟩ | hsecondOld
      · exact absurd hfirstOld (hold first)
      · exact h.unique first second target hfirstOld hsecondOld
  sources edge hedge := by
    obtain ⟨target, htarget⟩ := h.sources edge hedge
    exact ⟨target, lookup_cons_mono hfresh htarget⟩
  settled node hnode := by
    have hold := h.settled node hnode
    exact hold.mono (lookup_cons_mono hfresh hold.registered) rfl

/-- Leaving the manifest at the head of `visiting`, all of whose dependencies
have been visited. -/
theorem Invariant.leave (h : Invariant env config root builder)
    {rest : List FilePath} (hvisiting : builder.visiting = node.manifestPath :: rest)
    (hnode : Settled env config builder.packageIds builder.edges node)
    (hdepends : ∀ target, Depends env config node.manifestPath target → target ∈ builder.visited) :
    Invariant env config root (builder.leave node) where
  __ := h
  ordered := by
    have hfresh : node.manifestPath ∉ builder.nodes.map PackageNode.manifestPath := by
      rw [← h.visited_iff]
      apply h.disjoint
      simp [hvisiting]
    have hlisted : ∀ target, Depends env config node.manifestPath target →
        target ∈ builder.nodes.map PackageNode.manifestPath :=
      fun target htarget => (h.visited_iff target).mp (hdepends target htarget)
    simpa [GraphBuilder.leave] using h.ordered.snoc hfresh hlisted
  visited_iff key := by
    simp only [GraphBuilder.leave, mem_cons, h.visited_iff key, map_append,
      mem_append, map_cons, map_nil, not_mem_nil, or_false]
    exact or_comm
  disjoint key hkey := by
    simp only [GraphBuilder.leave, hvisiting, erase_cons_head] at hkey
    have hnodup := h.visiting_nodup
    rw [hvisiting, nodup_cons] at hnodup
    simp only [GraphBuilder.leave, mem_cons, not_or]
    refine ⟨?_, h.disjoint key (by simp [hvisiting, hkey])⟩
    rintro rfl
    exact hnodup.1 hkey
  visiting_nodup := h.visiting_nodup.erase _
  visiting_files key hkey := h.visiting_files key (mem_of_mem_erase hkey)
  registered id key hlookup := by
    obtain ⟨hnamed, hin⟩ := h.registered id key hlookup
    refine ⟨hnamed, ?_⟩
    rcases hin with hin | hin
    · exact .inl (mem_cons_of_mem _ hin)
    · simp only [GraphBuilder.leave, hvisiting, erase_cons_head, mem_cons]
      rw [hvisiting] at hin
      rcases mem_cons.mp hin with rfl | hin
      · exact .inl (.inl rfl)
      · exact .inr hin
  settled other hother := by
    rcases mem_append.mp hother with hother | hother
    · exact h.settled other hother
    · obtain rfl := mem_singleton.mp hother
      exact hnode

end Steps

variable (env config) in
/-- Whoever asks for a visit names the manifest under the identity that the visit
computes. -/
def Requested (root path : FilePath) (source : PackageSource) : Prop :=
  ∀ key manifest dir, env.canonicalize path = some key → env.load key = .ok manifest →
    key.parent = some dir →
    Named env config root key (identityOf config manifest dir source)

theorem Requested.of_root (hroot : env.canonicalize root = some root) :
    Requested env config root root .path := by
  intro key manifest dir hkey hload hparent
  rw [hroot] at hkey
  cases hkey
  exact .root hload hparent

theorem Requested.of_reference (hreach : ReflTransGen (Depends env config) root key)
    (hload : env.load key = .ok manifest) (hparent : key.parent = some dir)
    (hentry : entry ∈ manifest.dependencies)
    (href : resolveReference env config dir entry = .ok reference) :
    Requested env config root reference.manifestPath reference.source := by
  intro target targetManifest targetDir htarget htargetLoad htargetParent
  rw [resolveReference_identity href htarget htargetLoad htargetParent]
  exact .dependency hreach ⟨manifest, dir, hload, hparent, entry, hentry, href, htarget⟩

variable (env config) in
def VisitKeeps (root : FilePath)
    (step : FilePath → PackageSource → GraphBuilder → Except ResolveError GraphBuilder) :
    Prop :=
  ∀ path source builder result, step path source builder = .ok result →
    Invariant env config root builder → Requested env config root path source →
    Invariant env config root result ∧ Grows none builder result ∧
      ∃ key, env.canonicalize path = some key ∧ key ∈ result.visited

variable {step : FilePath → PackageSource → GraphBuilder → Except ResolveError GraphBuilder}

variable {entries : List (String × Dependency)}

variable (env config) in
def HasCycle (root : FilePath) : Prop :=
  ∃ key, ReflTransGen (Depends env config) root key ∧ TransGen (Depends env config) key key

variable (env config) in
/-- Every package reachable from the root can be opened and resolves its
dependencies, and no identity stands for two manifests: the walk has nothing but
a cycle to report. -/
structure Resolvable (root : FilePath) : Prop where
  opens : ∀ key, ReflTransGen (Depends env config) root key →
    ∃ manifest dir, env.load key = .ok manifest ∧ key.parent = some dir ∧
      validatePackageEntries env dir manifest = .ok () ∧
      ∀ entry ∈ manifest.dependencies, ∃ reference target,
        resolveReference env config dir entry = .ok reference ∧
        env.canonicalize reference.manifestPath = some target
  distinct : ∀ id key key', Named env config root key id → Named env config root key' id →
    key = key'

variable (env config) in
/-- Among resolvable packages a visit fails only by meeting a manifest that is
being visited, which lies on a cycle. -/
def VisitReports (root : FilePath) (fuel : Nat)
    (step : FilePath → PackageSource → GraphBuilder → Except ResolveError GraphBuilder) :
    Prop :=
  ∀ path source builder e key, step path source builder = .error e →
    Invariant env config root builder → Requested env config root path source →
    env.canonicalize path = some key → ReflTransGen (Depends env config) root key →
    env.files.length < fuel + builder.visiting.length →
    (∀ other ∈ builder.visiting, TransGen (Depends env config) other key) →
    ∃ cycle, e = .cyclic cycle ∧ HasCycle env config root

section Dependencies

variable (hstep : VisitKeeps env config root step)
  (hreach : ReflTransGen (Depends env config) root key)
  (hload : env.load key = .ok manifest) (hparent : key.parent = some dir)
  (hentries : ∀ entry ∈ entries, entry ∈ manifest.dependencies)
  (hinv : Invariant env config root builder)
  (hid : builder.packageIds.lookup id = some key) (hkey : key ∈ builder.visiting)
include hstep hreach hload hparent hentries hinv hid hkey

/-- The loop over the dependencies of a package being visited. -/
theorem visitDependencies_keeps
    (h : visitDependencies env config step id dir entries builder = .ok result) :
    Invariant env config root result ∧ Grows (some id) builder result ∧
      ∃ references, entries.mapM (resolveReference env config dir) = .ok references ∧
        edgesFrom id result.edges = edgesFrom id builder.edges ++ references.map (edgeTo id) ∧
        ∀ reference ∈ references, ∃ target,
          env.canonicalize reference.manifestPath = some target ∧ target ∈ result.visited := by
  induction entries generalizing builder with
  | nil =>
    cases h
    exact ⟨hinv, .refl _ _, [], rfl, by simp, by simp⟩
  | cons entry entries ih =>
    obtain ⟨reference, href, h⟩ := bind_eq_ok h
    obtain ⟨visited, hvisit, h⟩ := bind_eq_ok h
    have hrequested := Requested.of_reference hreach hload hparent
      (hentries entry (mem_cons_self ..)) href
    obtain ⟨hvisitedInv, hgrows, target, htarget, htargetVisited⟩ :=
      hstep _ _ _ _ hvisit (hinv.pushEdge hid hkey reference) hrequested
    have hpushed := (grows_pushEdge builder id reference).trans (hgrows.except (some id))
    obtain ⟨hresultInv, hrest, references, hreferences, hfrom, htargets⟩ :=
      ih (fun e he => hentries e (mem_cons_of_mem entry he)) hvisitedInv
        (hpushed.lookup_mono id key hid) (hpushed.visiting_eq ▸ hkey) h
    refine ⟨hresultInv, hpushed.trans hrest, reference :: references, ?_, ?_, ?_⟩
    · rw [mapM_cons, href, hreferences]
      rfl
    · have hframe := hgrows.frame id key (by simp) hid hkey
      rw [hfrom, hframe]
      change edgesFrom id (builder.edges ++ [edgeTo id reference]) ++ _ = _
      simp
    · exact forall_mem_cons.mpr
        ⟨⟨target, htarget, hrest.visited_mono target htargetVisited⟩, htargets⟩

theorem visitDependencies_reports {fuel : Nat} (hresolvable : Resolvable env config root)
    (hreports : VisitReports env config root fuel step)
    (hfuel : env.files.length < fuel + builder.visiting.length)
    (hpath : ∀ other ∈ builder.visiting, ReflTransGen (Depends env config) other key)
    {e : ResolveError} (h : visitDependencies env config step id dir entries builder = .error e) :
    ∃ cycle, e = .cyclic cycle ∧ HasCycle env config root := by
  induction entries generalizing builder with
  | nil => cases h
  | cons entry entries ih =>
    unfold visitDependencies at h
    have hentry := hentries entry (mem_cons_self ..)
    obtain ⟨manifest', dir', hload', hparent', -, hdeps⟩ := hresolvable.opens key hreach
    rw [hload] at hload'
    rw [hparent] at hparent'
    cases hload'
    cases hparent'
    obtain ⟨reference, target, href, htarget⟩ := hdeps entry hentry
    rw [href] at h
    change (step _ _ (builder.pushEdge (edgeTo id reference)) >>= _) = _ at h
    have hpushed := hinv.pushEdge hid hkey reference
    have hrequested := Requested.of_reference hreach hload hparent hentry href
    have hdepends : Depends env config key target :=
      ⟨reference, manifest, dir, hload, hparent, entry, hentry, href, htarget⟩
    rcases bind_eq_error h with h | ⟨visited, hvisit, h⟩
    · exact hreports _ _ _ _ target h hpushed hrequested htarget (hreach.tail hdepends) hfuel
        (fun other hother => .tail' (hpath other hother) hdepends)
    · obtain ⟨hvisitedInv, hgrows, -⟩ := hstep _ _ _ _ hvisit hpushed hrequested
      have hvisiting : visited.visiting = builder.visiting := hgrows.visiting_eq
      exact ih (fun other hother => hentries other (mem_cons_of_mem entry hother))
        hvisitedInv (hgrows.lookup_mono id key hid) (hvisiting ▸ hkey) (hvisiting ▸ hfuel)
        (fun other hother => hpath other (hvisiting ▸ hother)) h

end Dependencies

/-- The identity of a manifest that is entered has not been registered. -/
theorem Invariant.fresh_identity
    (h : Invariant env config root builder) (hvisited : key ∉ builder.visited)
    (hvisiting : key ∉ builder.visiting)
    (hrecord : recordPackageId manifest id key builder.packageIds = .ok packageIds) :
    builder.packageIds.lookup id = none ∧ packageIds = (id, key) :: builder.packageIds := by
  rcases recordPackageId_ok hrecord with ⟨hknown, -⟩ | hfresh
  · obtain ⟨-, hin⟩ := h.registered id key hknown
    exact absurd hin (not_or.mpr ⟨hvisited, hvisiting⟩)
  · exact hfresh

/-- A package whose references have all been visited has no other dependencies. -/
theorem visited_of_depends {references : List Reference} {visited : List FilePath}
    (hload : env.load key = .ok manifest) (hparent : key.parent = some dir)
    (hreferences : manifest.dependencies.mapM (resolveReference env config dir) = .ok references)
    (htargets : ∀ reference ∈ references, ∃ target,
      env.canonicalize reference.manifestPath = some target ∧ target ∈ visited)
    (h : Depends env config key target) : target ∈ visited := by
  obtain ⟨reference, manifest', dir', hload', hparent', entry, hentry, href, htarget⟩ := h
  rw [hload] at hload'
  rw [hparent] at hparent'
  cases hload'
  cases hparent'
  obtain ⟨k, hk⟩ := getElem?_of_mem hentry
  obtain ⟨found, hfound, hresolve⟩ := getElem?_of_mapM hreferences hk
  rw [href] at hresolve
  cases hresolve
  obtain ⟨visitedTarget, hvisitedTarget, hin⟩ :=
    htargets reference (mem_of_getElem? hfound)
  rw [htarget] at hvisitedTarget
  cases hvisitedTarget
  exact hin

/-- Entering a fresh package, walking its dependencies and leaving it only adds
its own edges. -/
theorem Grows.leave {builder walked : GraphBuilder} (hfresh : builder.packageIds.lookup id = none)
    (hnode : node.manifestPath = key)
    (h : Grows (some id) (builder.enter key ((id, key) :: builder.packageIds)) walked) :
    Grows none builder (walked.leave node) where
  visiting_eq := by
    simp only [GraphBuilder.leave, h.visiting_eq, hnode]
    simp [GraphBuilder.enter]
  visited_mono other hother := mem_cons_of_mem _ (h.visited_mono other hother)
  lookup_mono other target hlookup :=
    h.lookup_mono other target (lookup_cons_mono hfresh hlookup)
  frame other target _ hlookup htarget := by
    have hne : some other ≠ some id := by
      intro heq
      cases heq
      rw [hfresh] at hlookup
      cases hlookup
    exact h.frame other target hne (lookup_cons_mono hfresh hlookup)
      (mem_cons_of_mem _ htarget)

theorem visit_keeps (root : FilePath) (fuel : Nat) :
    VisitKeeps env config root (visit env config fuel) := by
  induction fuel with
  | zero =>
    intro path source builder result h
    cases h
  | succ fuel ih =>
    intro path source builder result h hinv hrequested
    obtain ⟨key, hkey, ⟨hvisited, rfl⟩ | ⟨hvisited, hvisiting, manifest, dir, packageIds,
      walked, hload, hparent, hrecord, hwalked, rfl⟩⟩ := visit_ok h
    · exact ⟨hinv, .refl _ _, key, hkey, hvisited⟩
    · have hnamed := hrequested key manifest dir hkey hload hparent
      obtain ⟨hfresh, rfl⟩ := hinv.fresh_identity hvisited hvisiting hrecord
      have hentered := hinv.enter hvisited hvisiting (env.canonicalize_mem hkey) hnamed hfresh
      obtain ⟨hwalkedInv, hgrows, references, hreferences, hfrom, htargets⟩ :=
        visitDependencies_keeps ih hnamed.reachable hload hparent (fun _ he => he) hentered
          (by simp [GraphBuilder.enter])
          (mem_cons_self ..) hwalked
      have hnoEdges : edgesFrom (identityOf config manifest dir source) builder.edges = [] := by
        apply edgesFrom_eq_nil
        intro edge hedge heq
        obtain ⟨target, htarget⟩ := hinv.sources edge hedge
        rw [heq, hfresh] at htarget
        cases htarget
      have hsettled : Settled env config walked.packageIds walked.edges
          (nodeFor config manifest key dir source) := by
        refine ⟨hgrows.lookup_mono _ _ (by simp [GraphBuilder.enter, nodeFor]), hload, hparent, references, hreferences, ?_, ?_⟩
        · refine hfrom.trans ?_
          change edgesFrom _ builder.edges ++ _ = _
          rw [hnoEdges]
          rfl
        · intro reference hreference
          obtain ⟨target, htarget, -⟩ := htargets reference hreference
          exact ⟨target, htarget⟩
      exact ⟨hwalkedInv.leave hgrows.visiting_eq hsettled
          (fun target => visited_of_depends hload hparent hreferences htargets),
        Grows.leave hfresh rfl hgrows, key, hkey, mem_cons_self ..⟩

theorem visit_fresh {fuel : Nat} {source : PackageSource}
    (hkey : env.canonicalize path = some key) (hvisited : key ∉ builder.visited)
    (hvisiting : key ∉ builder.visiting) (hload : env.load key = .ok manifest)
    (hparent : key.parent = some dir)
    (hrecord : recordPackageId manifest (identityOf config manifest dir source) key
      builder.packageIds = .ok packageIds)
    (hvalid : validatePackageEntries env dir manifest = .ok ()) :
    visit env config (fuel + 1) path source builder =
      (visitDependencies env config (visit env config fuel)
        (identityOf config manifest dir source) dir manifest.dependencies
        (builder.enter key packageIds) >>= fun walked =>
          pure (walked.leave (nodeFor config manifest key dir source))) := by
  have hcanonical : canonicalizeExisting env path = .ok key := by
    simp only [canonicalizeExisting, hkey]
  have hmanifest : loadManifest env key = .ok manifest := by
    simp only [loadManifest, hload]
  have hdir : parentDir key = .ok dir := by
    simp only [parentDir, hparent]
  rw [visit, hcanonical]
  change (if key ∈ builder.visited then _ else _) = _
  rw [if_neg hvisited, if_neg hvisiting, hmanifest]
  rw [hdir]
  change (recordPackageId manifest (identityOf config manifest dir source) key
    builder.packageIds >>= _) = _
  rw [hrecord]
  rw [hvalid]
  rfl

theorem Resolvable.record
    (h : Resolvable env config root) (hinv : Invariant env config root builder)
    (hnamed : Named env config root key id) (manifest : Manifest) :
    ∃ packageIds, recordPackageId manifest id key builder.packageIds = .ok packageIds := by
  unfold recordPackageId
  cases hlookup : builder.packageIds.lookup id with
  | none => exact ⟨_, rfl⟩
  | some existing =>
    have hsame : existing = key :=
      h.distinct id existing key (hinv.registered id existing hlookup).1 hnamed
    simp [hsame]

theorem Invariant.visiting_length_le
    (h : Invariant env config root builder) : builder.visiting.length ≤ env.files.length :=
  (subperm_of_subset h.visiting_nodup h.visiting_files).length_le

theorem visit_reports (hresolvable : Resolvable env config root)
    (fuel : Nat) : VisitReports env config root fuel (visit env config fuel) := by
  induction fuel with
  | zero =>
    intro path source builder e key _ hinv _ _ _ hfuel
    have hbound := hinv.visiting_length_le
    omega
  | succ fuel ih =>
    intro path source builder e key h hinv hrequested hkey hreach hfuel hpath
    by_cases hvisited : key ∈ builder.visited
    · rw [visit, canonicalizeExisting, hkey] at h
      change (if key ∈ builder.visited then _ else _) = _ at h
      rw [if_pos hvisited] at h
      cases h
    · by_cases hvisiting : key ∈ builder.visiting
      · rw [visit, canonicalizeExisting, hkey] at h
        change (if key ∈ builder.visited then _ else _) = _ at h
        rw [if_neg hvisited, if_pos hvisiting] at h
        cases h
        exact ⟨_, rfl, key, hreach, hpath key hvisiting⟩
      · obtain ⟨manifest, dir, hload, hparent, hvalid, -⟩ := hresolvable.opens key hreach
        have hnamed := hrequested key manifest dir hkey hload hparent
        obtain ⟨packageIds, hrecord⟩ := hresolvable.record hinv hnamed manifest
        rw [visit_fresh hkey hvisited hvisiting hload hparent hrecord hvalid] at h
        obtain ⟨hfresh, rfl⟩ := hinv.fresh_identity hvisited hvisiting hrecord
        rcases bind_eq_error h with h | ⟨walked, -, h⟩
        · refine visitDependencies_reports (visit_keeps root fuel) hreach hload hparent
            (fun _ he => he)
            (hinv.enter hvisited hvisiting (env.canonicalize_mem hkey) hnamed hfresh)
            (by simp [GraphBuilder.enter]) (mem_cons_self ..) hresolvable ih ?_ ?_ h
          · simp only [GraphBuilder.enter, length_cons]
            omega
          · exact forall_mem_cons.mpr
              ⟨.refl, fun other hother => (hpath other hother).to_reflTransGen⟩
        · cases h

end Walk

end Sengoo.Sgpm
