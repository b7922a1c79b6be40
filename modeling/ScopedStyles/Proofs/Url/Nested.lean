import Mathlib.Data.List.DropRight
import ScopedStyles.Proofs.Url.Folding

/-!
# Nested urls

A url in an imported stylesheet is resolved against what the import was resolved to, so that the
directories on the way are folded one after the other. Nothing is lost on the way: the url leads
where it would lead from the outer stylesheet, written behind the directory of the import
(`Url.resolve_resolve`).
-/

namespace ScopedStyles

open Text

namespace Url

variable {base path u v : Text}

/-- A directory and the directory of what stands in it are one directory. -/
theorem directory_directory_append (path u : Text) :
    directory (directory path ++ u) = directory path ++ directory u := by
  have hinner : (path.reverse.dropWhile (· != '/')).dropWhile (· != '/') =
      path.reverse.dropWhile (· != '/') := List.dropWhile_idempotent _ _
  rw [directory, directory, directory, List.reverse_append, List.reverse_reverse,
    List.dropWhile_append, hinner]
  cases hu : u.reverse.dropWhile (· != '/') with
  | nil => exact (List.append_nil _).symm
  | cons c front => exact List.reverse_append

/-- In front of a relative url, the directory of one does not lead to the root. -/
theorem not_isPrefixOf_directory_append (hu : ¬ ['/'].isPrefixOf u) (hv : ¬ ['/'].isPrefixOf v) :
    ¬ ['/'].isPrefixOf (directory u ++ v) := by
  intro hroot
  cases hdir : directory u with
  | nil =>
    rw [hdir, List.nil_append] at hroot
    exact hv hroot
  | cons c dir =>
    rw [hdir, List.cons_append, List.isPrefixOf_iff_prefix, List.cons_prefix_cons] at hroot
    obtain ⟨rest, hrest⟩ := directory_isPrefix u
    refine hu (List.isPrefixOf_iff_prefix.mpr ⟨dir ++ rest, ?_⟩)
    rw [← hrest, hdir, hroot.1]
    rfl

/-- A path that does not end with a point or with what leads back keeps its last segment when it is
folded, and the segments in front of it are folded for themselves. -/
theorem dropLast_split_foldDots
    (hlast : ∀ s ∈ (split '/' path).getLast?, s ≠ ['.'] ∧ s ≠ ['.', '.']) :
    (split '/' (foldDots path)).dropLast = (foldSegments (split '/' path).dropLast).reverse := by
  obtain ⟨init, last, hsplit⟩ :=
    (List.eq_nil_or_concat' (split '/' path)).resolve_left (split_ne_nil '/' path)
  rw [hsplit, List.getLast?_concat] at hlast
  obtain ⟨hpoint, hup⟩ := hlast last rfl
  have hfold : foldSegments (split '/' path) = last :: foldSegments init := by
    rw [hsplit, foldSegments_concat hpoint hup]
  rcases split_foldDots path with ⟨-, hfolded⟩ | ⟨hnil, -⟩
  · rw [hfolded, hfold, hsplit, List.dropLast_concat, List.reverse_cons, List.dropLast_concat]
  · rw [hfold] at hnil
    exact absurd hnil (List.cons_ne_nil _ _)

/-- Folded paths one behind the other are folded as one path. -/
theorem foldDots_directory_foldDots (v : Text)
    (hlast : ∀ s ∈ (split '/' path).getLast?, s ≠ ['.'] ∧ s ≠ ['.', '.']) :
    foldDots (directory (foldDots path) ++ v) = foldDots (directory path ++ v) := by
  have hsegments : foldSegments (split '/' (directory (foldDots path) ++ v)) =
      foldSegments (split '/' (directory path ++ v)) := by
    rw [split_directory_append, split_directory_append, dropLast_split_foldDots hlast,
      foldSegments_append]
  exact congrArg (fun left => ['/'].intercalate left.reverse) hsegments

/-- A url in an imported stylesheet leads where it leads from the stylesheet with the import, if it
is written behind the directory of the import. -/
theorem resolve_resolve (hbase : ':' ∉ (splitSchema base).2) (hu : ':' ∉ u) (hv : ':' ∉ v)
    (huroot : ¬ ['/'].isPrefixOf u) (hvroot : ¬ ['/'].isPrefixOf v)
    (hlast : ∀ s ∈ (split '/' u).getLast?, s ≠ ['.'] ∧ s ≠ ['.', '.']) :
    resolve (resolve base u) v = resolve base (directory u ++ v) := by
  have hcolon : ':' ∉ directory u ++ v := fun hmem =>
    (List.mem_append.mp hmem).elim (fun hmem => hu ((directory_isPrefix u).subset hmem)) hv
  have hnested : IsRelative (directory u ++ v) :=
    ⟨schema?_eq_none hcolon, not_isPrefixOf_directory_append huroot hvroot⟩
  have hfolded : ∀ s ∈ (split '/' (directory (splitSchema base).2 ++ u)).getLast?,
      s ≠ ['.'] ∧ s ≠ ['.', '.'] := by
    rw [split_directory_append, List.getLast?_append_of_ne_nil _ (split_ne_nil '/' u)]
    exact hlast
  rw [resolve_of_isRelative ⟨schema?_eq_none hv, hvroot⟩,
    splitSchema_resolve_of_not_mem hbase hu huroot, resolve_of_isRelative hnested,
    foldDots_directory_foldDots v hfolded, directory_directory_append, List.append_assoc]

/-- An import that climbs above where the package begins, and a url in it that leads back again. -/
theorem resolve_resolve_back :
    resolve (resolve "package:a/b.css".toList "../../c/d.css".toList) "../e.css".toList =
      resolve "package:a/b.css".toList "../../c/../e.css".toList :=
  resolve_resolve (by decide) (by decide) (by decide) (by decide) (by decide) (by decide)

end Url

end ScopedStyles
