import ScopedStyles.Proofs.Url.Folding

/-!
# Plain urls

A url is plain if its path ends with the name of a file, and has no colon and no empty segment. What
a plain url is resolved to is plain (`Url.IsPlain.resolve`), and leads where a path would lead from
the folder of the stylesheet it stands in (`Url.IsPlain.destination_resolve`).
-/

namespace ScopedStyles

open Text

namespace Url

variable {base path raw url : Text}

/-- The path on a disk that a url below the folder `root` stands for. -/
def pathBelow (root : Place) (url : Text) : Text := Path.join root.path (Url.path url)

/-- A path to a file, with nothing in it that could be taken for something else. -/
structure IsPlainPath (path : Text) : Prop where
  no_colon : ':' ∉ path
  no_empty : [] ∉ split '/' path
  names : Path.NamesFile path

/-- The schema of a url leads to stylesheets, and its path is plain. -/
structure IsPlain (url : Text) : Prop where
  schema : (splitSchema url).1 ∈ [[], "package:".toList, "asset:".toList]
  path : IsPlainPath (splitSchema url).2

theorem IsPlainPath.not_isAbsolute (h : IsPlainPath path) : ¬ Path.isAbsolute path := by
  rw [Path.isAbsolute_iff]
  rintro ⟨rest, -, hsplit⟩
  exact h.no_empty (hsplit ▸ List.mem_cons_self)

/-- A url that can lead to a stylesheet has no other schema. -/
theorem schema_mem_of_isResolvable (h : isResolvable url) :
    (splitSchema url).1 ∈ [[], "package:".toList, "asset:".toList] := by
  rw [splitSchema]
  cases hschema : schema? url with
  | none => exact List.mem_cons_self
  | some found =>
    obtain ⟨schema, rest⟩ := found
    rw [isResolvable.eq_def] at h
    split at h
    · cases h
    · cases h
    · simp only [hschema, Bool.or_eq_true, beq_iff_eq] at h
      rcases h with rfl | rfl
      · exact List.mem_cons_of_mem _ List.mem_cons_self
      · exact List.mem_cons_of_mem _ (List.mem_cons_of_mem _ List.mem_cons_self)

/-- A url with no other schema stands for the path behind it. -/
theorem path_eq_of_mem (h : (splitSchema url).1 ∈ [[], "package:".toList, "asset:".toList]) :
    Url.path url = (splitSchema url).2 := by
  have hurl := splitSchema_append url
  simp only [List.mem_cons, List.not_mem_nil, or_false] at h
  rcases h with hschema | hschema | hschema
  · have hpath : (splitSchema url).2 = url := by rwa [hschema] at hurl
    rcases path_or url with hself | hself
    · rw [hself, hpath]
    · exact hself
  · rw [Url.path, after?_exact.mpr (hschema ▸ hurl).symm]
  · have hpackage : after? .exact "package:".toList url = none := by
      rw [← hurl, hschema]
      rfl
    rw [Url.path, hpackage, after?_exact.mpr (hschema ▸ hurl).symm]
    rfl

/-- A plain url stands for the path behind its schema. -/
theorem IsPlain.path_eq (h : IsPlain url) : Url.path url = (splitSchema url).2 :=
  path_eq_of_mem h.schema

/-- In the directory of a plain path a plain path is folded into a plain one. -/
theorem IsPlainPath.foldDots (hbase : IsPlainPath base) (hraw : IsPlainPath raw) :
    IsPlainPath (Url.foldDots (directory base ++ raw)) := by
  obtain ⟨name, below, -, hreverse, hidle, hup, -⟩ := hraw.names.exists_steps
  have hsegments : split '/' (directory base ++ raw) =
      ((split '/' base).dropLast ++ below.reverse) ++ [name] := by
    rw [split_directory_append, ← List.reverse_reverse (split '/' raw), hreverse,
      List.reverse_cons, List.append_assoc]
  have hfold : foldSegments (split '/' (directory base ++ raw)) =
      name :: foldSegments ((split '/' base).dropLast ++ below.reverse) := by
    have hpoint : name ≠ ['.'] := by
      rintro rfl
      exact hidle rfl
    rw [hsegments, foldSegments_concat hpoint hup]
  have hsplit := (split_foldDots (directory base ++ raw)).resolve_right fun hnil => by
    rw [hfold] at hnil
    exact absurd hnil.1 (List.cons_ne_nil _ _)
  have hmem : ∀ s ∈ split '/' (Url.foldDots (directory base ++ raw)),
      s ∈ split '/' base ∨ s ∈ split '/' raw := by
    intro s hs
    rw [hsplit.2, List.mem_reverse] at hs
    have hs := (mem_foldl_pushSegment hs).resolve_left List.not_mem_nil
    rw [split_directory_append] at hs
    exact (List.mem_append.mp hs).imp_left List.mem_of_mem_dropLast
  have hreversed : (split '/' (Url.foldDots (directory base ++ raw))).reverse =
      name :: foldSegments ((split '/' base).dropLast ++ below.reverse) := by
    rw [hsplit.2, List.reverse_reverse, hfold]
  exact ⟨not_mem_foldDots_directory (by decide) hbase.no_colon hraw.no_colon,
    fun hempty => (hmem [] hempty).elim hbase.no_empty hraw.no_empty,
    name, _, hreversed, hidle, hup⟩

namespace IsPlain

/-- A plain url keeps its schema. -/
theorem splitSchema_resolve (h : IsPlain base) (hraw : IsPlainPath raw) :
    splitSchema (Url.resolve base raw) =
      ((splitSchema base).1, Url.foldDots (directory (splitSchema base).2 ++ raw)) :=
  splitSchema_resolve_of_not_mem h.path.no_colon hraw.no_colon hraw.not_isAbsolute

theorem resolve (h : IsPlain base) (hraw : IsPlainPath raw) : IsPlain (Url.resolve base raw) := by
  constructor
  · rw [h.splitSchema_resolve hraw]
    exact h.schema
  · rw [h.splitSchema_resolve hraw]
    exact h.path.foldDots hraw

/-- A plain url leads where it leads from the folder of the stylesheet that it stands in. -/
theorem destination_resolve (h : IsPlain base) (hraw : IsPlainPath raw) (d : Disk) (root : Place) :
    d.destination (pathBelow root (Url.resolve base raw)) =
      Disk.arrive (d.destination (pathBelow root base)).dropLast (Path.steps raw) := by
  obtain ⟨name, below, -, hreverse, hidle, hup, hsteps⟩ := h.path.names.exists_steps
  have hfolder : (split '/' (splitSchema base).2).dropLast = below.reverse := by
    rw [← List.reverse_reverse (split '/' _), hreverse, List.reverse_cons, List.dropLast_concat]
  have hbase : d.destination (pathBelow root base) =
      Disk.arrive (d.destination root.path) (below.reverse.filter (!Path.isIdle ·)) ++ [name] := by
    rw [pathBelow, h.path_eq, Disk.destination_join d _ h.path.not_isAbsolute, hsteps,
      Disk.arrive_append]
    exact if_neg hup
  rw [hbase, List.dropLast_concat, pathBelow, (h.resolve hraw).path_eq, h.splitSchema_resolve hraw,
    Disk.destination_join d _ (h.path.foldDots hraw).not_isAbsolute, steps_foldDots, foldSegments,
    arrive_foldl_pushSegment _ isFolded_nil, split_directory_append, hfolder, List.filter_append,
    Disk.arrive_append]
  rfl

end IsPlain

end Url

end ScopedStyles
