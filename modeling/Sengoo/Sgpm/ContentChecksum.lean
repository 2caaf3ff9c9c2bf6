import Mathlib.Data.List.Nodup
import Sengoo.Codec
import Sengoo.Utf8

/-!
The checksum of a package's content. The regular files below the package
directory are taken in the order of their rendered paths, and the path and the
bytes of each are hashed with their lengths in front. The file system is taken
to answer every request; the hash and what is shown for a path that is not
UTF-8 are parameters.
-/

namespace Sengoo.Sgpm

open Codec List Utf8

/-- A regular file with its path below the package directory. A `usize` counts
the bytes of both. -/
structure PackageFile where
  relative : List UInt8
  content : List UInt8
  relative_lt : relative.length < 256 ^ 8
  content_lt : content.length < 256 ^ 8

/-- What `WalkDir` meets. -/
inductive WalkEntry where
  | directory (path : List UInt8)
  | symlink (path : List UInt8)
  | file (file : PackageFile)

inductive ChecksumError where
  | unsupportedSymbolicLink (path : List UInt8)

def collectFiles : List WalkEntry → Except ChecksumError (List PackageFile)
  | [] => .ok []
  | .symlink path :: _ => .error (.unsupportedSymbolicLink path)
  | .directory _ :: entries => collectFiles entries
  | .file file :: entries => do return file :: (← collectFiles entries)

section

variable {δ : Type} (replaced : List UInt8 → List Char) (sha256 : List UInt8 → δ)

/-- UTF-8 is shown as it is. -/
def toStringLossy (path : List UInt8) : List Char :=
  match path.toByteArray.utf8Decode? with
  | some text => text.toList
  | none => replaced path

def renderPath (file : PackageFile) : List Char :=
  (toStringLossy replaced file.relative).map fun c => if c = '\\' then '/' else c

def digestInput (file : PackageFile) : List UInt8 :=
  leBytes 8 (bytes (renderPath replaced file)).length ++ (bytes (renderPath replaced file) ++
    (leBytes 8 file.content.length ++ file.content))

/-- The files that are hashed, in their order. -/
def hashedFiles (excludedRelativePaths : List (List Char)) (files : List PackageFile) :
    List PackageFile :=
  (files.filter fun file => renderPath replaced file ∉ excludedRelativePaths).mergeSort
    fun file other => bytes (renderPath replaced file) ≤ bytes (renderPath replaced other)

def packageContentChecksum (entries : List WalkEntry) (excludedRelativePaths : List (List Char)) :
    Except ChecksumError δ := do
  let files ← collectFiles entries
  return sha256 ((hashedFiles replaced excludedRelativePaths files).flatMap (digestInput replaced))

/-! ### Names -/

/-- The path is UTF-8 without a backslash. -/
def PackageFile.Portable (file : PackageFile) : Prop :=
  ∃ text, '\\' ∉ text ∧ file.relative = bytes text

variable {replaced sha256} {file other : PackageFile}

theorem toStringLossy_bytes (text : List Char) : toStringLossy replaced (bytes text) = text := by
  have hdecode : (bytes text).toByteArray.utf8Decode? = some text.toArray :=
    utf8Decode?_utf8Encode
  rw [toStringLossy, hdecode]

theorem renderPath_eq {text : List Char} (hback : '\\' ∉ text)
    (hname : file.relative = bytes text) : renderPath replaced file = text := by
  rw [renderPath, hname, toStringLossy_bytes]
  apply (map_congr_left _).trans (map_id text)
  intro c hc
  apply if_neg
  rintro rfl
  exact hback hc

theorem PackageFile.Portable.bytes_renderPath (h : file.Portable) :
    bytes (renderPath replaced file) = file.relative := by
  obtain ⟨text, hback, hname⟩ := h
  rw [renderPath_eq hback hname, hname]

/-- A file is left out for its own path only. -/
theorem PackageFile.Portable.renderPath_mem (h : file.Portable) {excluded : List (List Char)} :
    renderPath replaced file ∈ excluded ↔ file.relative ∈ excluded.map bytes := by
  obtain ⟨text, hback, hname⟩ := h
  have hinj : Function.Injective bytes :=
    Function.LeftInverse.injective (@toStringLossy_bytes replaced)
  rw [renderPath_eq hback hname, hname, mem_map_of_injective hinj]

/-! ### Records -/

theorem prefixed_inj {first second rest rest' : List UInt8} (hfirst : first.length < 256 ^ 8)
    (hsecond : second.length < 256 ^ 8)
    (h : leBytes 8 first.length ++ (first ++ rest) = leBytes 8 second.length ++ (second ++ rest')) :
    first = second ∧ rest = rest' := by
  obtain ⟨hlength, hrest⟩ := append_inj h (by simp only [leBytes_length])
  have hsame := congrArg ofLeBytes hlength
  rw [ofLeBytes_leBytes, ofLeBytes_leBytes, Nat.mod_eq_of_lt hfirst,
    Nat.mod_eq_of_lt hsecond] at hsame
  exact append_inj hrest hsame

/-- The record of a file ends where the next one begins. -/
theorem digestInput_inj (h : file.Portable) (h' : other.Portable) {rest rest' : List UInt8}
    (hsame : digestInput replaced file ++ rest = digestInput replaced other ++ rest') :
    file = other ∧ rest = rest' := by
  simp only [digestInput, h.bytes_renderPath, h'.bytes_renderPath, append_assoc] at hsame
  obtain ⟨hrelative, hsame⟩ := prefixed_inj file.relative_lt other.relative_lt hsame
  obtain ⟨hcontent, hrest⟩ := prefixed_inj file.content_lt other.content_lt hsame
  cases file
  cases other
  cases hrelative
  cases hcontent
  exact ⟨rfl, hrest⟩

theorem digestInputs_inj {files others : List PackageFile} (h : ∀ file ∈ files, file.Portable)
    (h' : ∀ file ∈ others, file.Portable)
    (hsame : files.flatMap (digestInput replaced) = others.flatMap (digestInput replaced)) :
    files = others := by
  induction files generalizing others with
  | nil => cases others with
    | nil => rfl
    | cons other others => cases hsame
  | cons file files ih => cases others with
    | nil => cases hsame
    | cons other others =>
      obtain ⟨hfile, hfiles⟩ := forall_mem_cons.mp h
      obtain ⟨hother, hothers⟩ := forall_mem_cons.mp h'
      obtain ⟨rfl, hrest⟩ := digestInput_inj hfile hother hsame
      rw [ih hfiles hothers hrest]

/-! ### Directories -/

/-- The regular files of a directory. -/
def regularFiles (entries : List WalkEntry) : List PackageFile :=
  entries.filterMap fun
    | .file file => some file
    | _ => none

/-- A walk through a directory without symbolic links, in whatever order: no
path is met twice. -/
structure PlainWalk (entries : List WalkEntry) : Prop where
  no_symlink : ∀ path, .symlink path ∉ entries
  nodup : ((regularFiles entries).map PackageFile.relative).Nodup

structure PortableWalk (entries : List WalkEntry) : Prop extends PlainWalk entries where
  portable : ∀ file ∈ regularFiles entries, file.Portable

/-- A regular file of the directory that the list does not name. -/
def Contains (excluded : List (List Char)) (entries : List WalkEntry) (file : PackageFile) : Prop :=
  file ∈ regularFiles entries ∧ file.relative ∉ excluded.map bytes

variable {entries entries' : List WalkEntry} {excluded : List (List Char)}

theorem collectFiles_eq (h : ∀ path, .symlink path ∉ entries) :
    collectFiles entries = .ok (regularFiles entries) := by
  induction entries with
  | nil => rfl
  | cons entry entries ih =>
    have hrest := ih fun path hmem => h path (mem_cons_of_mem _ hmem)
    cases entry with
    | directory path => exact hrest
    | symlink path => exact absurd (mem_cons_self ..) (h path)
    | file file =>
      rw [collectFiles, hrest]
      rfl

theorem PlainWalk.checksum_eq (h : PlainWalk entries) :
    packageContentChecksum replaced sha256 entries excluded =
      .ok (sha256 ((hashedFiles replaced excluded (regularFiles entries)).flatMap
        (digestInput replaced))) := by
  rw [packageContentChecksum, collectFiles_eq h.no_symlink]
  rfl

theorem PortableWalk.mem_hashedFiles (h : PortableWalk entries) :
    file ∈ hashedFiles replaced excluded (regularFiles entries) ↔ Contains excluded entries file := by
  rw [hashedFiles, (mergeSort_perm _ _).mem_iff, mem_filter, decide_eq_true_eq]
  exact and_congr_right fun hmem => not_congr (h.portable file hmem).renderPath_mem

theorem pairwise_hashedFiles (files : List PackageFile) :
    (hashedFiles replaced excluded files).Pairwise fun file other =>
      bytes (renderPath replaced file) ≤ bytes (renderPath replaced other) := by
  refine (pairwise_mergeSort (fun _ _ _ hfirst hsecond => ?_) (fun _ _ => ?_) _).imp
    of_decide_eq_true
  · exact decide_eq_true (List.le_trans (of_decide_eq_true hfirst) (of_decide_eq_true hsecond))
  · simpa using List.le_total _ _

/-- The order of the walk does not matter. -/
theorem PortableWalk.hashedFiles_eq (h : PortableWalk entries) (h' : PortableWalk entries')
    (hsame : ∀ file, Contains excluded entries file ↔ Contains excluded entries' file) :
    hashedFiles replaced excluded (regularFiles entries) =
      hashedFiles replaced excluded (regularFiles entries') := by
  have hnodup {entries} (h : PortableWalk entries) :
      (hashedFiles replaced excluded (regularFiles entries)).Nodup :=
    (mergeSort_perm _ _).nodup_iff.mpr ((Nodup.of_map _ h.nodup).filter _)
  apply Perm.eq_of_pairwise _ (pairwise_hashedFiles _) (pairwise_hashedFiles _)
  · refine (perm_ext_iff_of_nodup (hnodup h) (hnodup h')).mpr fun file => ?_
    rw [h.mem_hashedFiles, hsame, h'.mem_hashedFiles]
  · intro file other hfile hother hle hge
    have hin := (h.mem_hashedFiles.mp hfile).1
    have hin' := ((hsame other).mpr (h'.mem_hashedFiles.mp hother)).1
    have hpath := List.le_antisymm hle hge
    rw [(h.portable file hin).bytes_renderPath, (h.portable other hin').bytes_renderPath] at hpath
    exact inj_on_of_nodup_map h.nodup hin hin' hpath

variable (replaced excluded)

end

/-- An empty file of that name. -/
def emptyFile (name : String) (h : size name.toList < 256 ^ 8) : PackageFile :=
  ⟨bytes name.toList, [], h, by decide⟩

def fileA : PackageFile := emptyFile "a" (by decide)

def fileB : PackageFile := emptyFile "b" (by decide)

def backslashFile : PackageFile := emptyFile "a\\b" (by decide)

def nestedFile : PackageFile := emptyFile "a/b" (by decide)

end Sengoo.Sgpm
