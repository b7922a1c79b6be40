import Mathlib.Data.List.Chain
import ScopedStyles.Disk.Source
import ScopedStyles.Proofs.Disk.Names

/-!
# Folded paths

A relative url is resolved by folding the segments of a directory and of the url into one path. The
path leads where the segments do (`Url.arrive_foldSegments`). What leads back stands in front of the
names, or behind an empty segment, which is never taken back; and no empty segment comes in but from
the url (`Url.emptySegments_resolve_le`).
-/

namespace ScopedStyles

open Text

namespace Url

variable {base url path raw schema : Text} {stack segments : List Text} {s : Text}

/-! ## Schemas -/

theorem schema?_eq_some_iff :
    schema? url = some (schema, path) ↔
      url = schema ++ ':' :: path ∧ schema ≠ [] ∧ ∀ c ∈ schema, inSchema c := by
  constructor
  · intro h
    rw [schema?] at h
    split at h
    · rename_i rest hrest
      split at h
      · cases h
      rename_i hne
      obtain ⟨rfl, rfl⟩ := Prod.mk.inj (Option.some.inj h)
      refine ⟨?_, hne, fun c hc => List.mem_takeWhile_imp hc⟩
      rw [← hrest, List.takeWhile_append_dropWhile]
    · cases h
  · rintro ⟨rfl, hne, hall⟩
    have hcolon : inSchema ':' = false := rfl
    have htake : (schema ++ ':' :: path).takeWhile inSchema = schema := by
      rw [List.takeWhile_append_of_pos hall, List.takeWhile_cons, hcolon]
      exact List.append_nil schema
    have hdrop : (schema ++ ':' :: path).dropWhile inSchema = ':' :: path := by
      rw [List.dropWhile_append_of_pos hall, List.dropWhile_cons, hcolon]
      rfl
    rw [schema?, hdrop, htake]
    exact if_neg hne

theorem schema?_eq_none (h : ':' ∉ url) : schema? url = none := by
  cases hschema : schema? url with
  | none => rfl
  | some found =>
    obtain ⟨rfl, -⟩ := schema?_eq_some_iff.mp hschema
    exact absurd (List.mem_append_right _ List.mem_cons_self) h

/-- A url is its schema and the path behind it. -/
theorem splitSchema_append (url : Text) : (splitSchema url).1 ++ (splitSchema url).2 = url := by
  rw [splitSchema]
  cases hschema : schema? url with
  | none => rfl
  | some found =>
    obtain ⟨hurl, -⟩ := schema?_eq_some_iff.mp hschema
    rw [hurl]
    exact List.append_assoc _ _ _

/-- There is no slash in a schema. -/
theorem not_mem_schema (url : Text) : '/' ∉ (splitSchema url).1 := by
  rw [splitSchema]
  cases hschema : schema? url with
  | none => exact List.not_mem_nil
  | some found =>
    obtain ⟨-, -, hall⟩ := schema?_eq_some_iff.mp hschema
    intro hmem
    rcases List.mem_append.mp hmem with hmem | hmem
    · exact absurd (hall '/' hmem) (by decide)
    · exact absurd (List.mem_singleton.mp hmem) (by decide)

/-- A schema is kept with another path behind it. -/
theorem splitSchema_of_schema (h : (splitSchema base).1 ≠ []) (path : Text) :
    splitSchema ((splitSchema base).1 ++ path) = ((splitSchema base).1, path) := by
  cases hschema : schema? base with
  | none =>
    rw [splitSchema, hschema] at h
    exact absurd rfl h
  | some found =>
    obtain ⟨-, hne, hall⟩ := schema?_eq_some_iff.mp hschema
    have hnew : schema? (found.1 ++ ':' :: path) = some (found.1, path) :=
      schema?_eq_some_iff.mpr ⟨rfl, hne, hall⟩
    have hbase : (splitSchema base).1 = found.1 ++ [':'] := by rw [splitSchema, hschema]
    rw [hbase, List.append_assoc, splitSchema]
    simp only [List.singleton_append, hnew]

/-- The path that a url stands for is the url itself, or what is behind its schema. -/
theorem path_or (url : Text) : Url.path url = url ∨ Url.path url = (splitSchema url).2 := by
  have hknown : ∀ {name rest : Text}, url = (name ++ [':']) ++ rest → name ≠ [] →
      (∀ c ∈ name, inSchema c) → rest = (splitSchema url).2 := by
    rintro name rest rfl hne hall
    rw [List.append_assoc, List.singleton_append, splitSchema,
      schema?_eq_some_iff.mpr ⟨rfl, hne, hall⟩]
  rw [Url.path]
  cases hpackage : after? .exact "package:".toList url with
  | some rest =>
    have hurl : url = ("package".toList ++ [':']) ++ rest := after?_exact.mp hpackage
    exact .inr (hknown hurl (by decide) (by decide))
  | none =>
    cases hasset : after? .exact "asset:".toList url with
    | some rest =>
      have hurl : url = ("asset".toList ++ [':']) ++ rest := after?_exact.mp hasset
      exact .inr (hknown hurl (by decide) (by decide))
    | none => exact .inl rfl

/-- A schema belongs to the first segment. -/
theorem exists_split_eq (url : Text) :
    ∃ first rest, split '/' (splitSchema url).2 = first :: rest ∧
      split '/' url = ((splitSchema url).1 ++ first) :: rest := by
  obtain ⟨first, rest, hsplit, hschema⟩ :=
    split_append_left (not_mem_schema url) (splitSchema url).2
  rw [splitSchema_append] at hschema
  exact ⟨first, rest, hsplit, hschema⟩

/-- Behind the first segment a url has the same segments with its schema as without it. -/
theorem tail_split (url : Text) :
    (split '/' url).tail = (split '/' (splitSchema url).2).tail := by
  obtain ⟨first, rest, hsplit, hschema⟩ := exists_split_eq url
  rw [hschema, hsplit, List.tail_cons, List.tail_cons]

theorem tail_split_path (url : Text) :
    (split '/' (Url.path url)).tail = (split '/' (splitSchema url).2).tail := by
  rcases path_or url with hpath | hpath
  · rw [hpath, tail_split]
  · rw [hpath]

/-! ## Directories -/

theorem directory_of_not_mem (h : '/' ∉ path) : directory path = [] := by
  have hnone : path.reverse.dropWhile (· != '/') = [] :=
    List.dropWhile_eq_nil_iff.mpr fun c hc =>
      bne_iff_ne.mpr (ne_of_mem_of_not_mem (List.mem_reverse.mp hc) h)
  rw [directory, hnone]
  rfl

theorem directory_append {last : Text} (h : '/' ∉ last) (path : Text) :
    directory (path ++ '/' :: last) = path ++ ['/'] := by
  have hlast : ∀ c ∈ last.reverse, (c != '/') = true := fun c hc =>
    bne_iff_ne.mpr (ne_of_mem_of_not_mem (List.mem_reverse.mp hc) h)
  have hdrop : (path ++ '/' :: last).reverse.dropWhile (· != '/') = '/' :: path.reverse := by
    rw [List.reverse_append, List.reverse_cons, List.append_assoc,
      List.dropWhile_append_of_pos hlast]
    rfl
  rw [directory, hdrop, List.reverse_cons, List.reverse_reverse]

theorem directory_isPrefix (path : Text) : directory path <+: path := by
  rw [directory, ← List.reverse_suffix, List.reverse_reverse]
  exact List.dropWhile_suffix _

/-- Behind a directory a url stands in the place of the last segment. -/
theorem split_directory_append (path raw : Text) :
    split '/' (directory path ++ raw) = (split '/' path).dropLast ++ split '/' raw := by
  obtain ⟨init, last, hsplit⟩ :=
    (List.eq_nil_or_concat' (split '/' path)).resolve_left (split_ne_nil '/' path)
  have hslash : ∀ p ∈ init ++ [last], '/' ∉ p := fun p hp =>
    not_mem_of_mem_split (hsplit ▸ hp : p ∈ split '/' path)
  have hpath := intercalate_split '/' path
  rw [hsplit] at hpath ⊢
  rw [List.dropLast_concat, ← hpath]
  by_cases hinit : init = []
  · subst hinit
    rw [List.nil_append, List.intercalate_singleton, directory_of_not_mem (hslash last (by simp))]
    rfl
  · have hjoined : ['/'].intercalate (init ++ [last]) = ['/'].intercalate init ++ '/' :: last := by
      rw [intercalate_append hinit (List.cons_ne_nil last []), List.intercalate_singleton]
      rfl
    rw [hjoined, directory_append (hslash last (by simp)), List.append_assoc,
      List.singleton_append, split_append_separator,
      split_intercalate hinit fun p hp => hslash p (List.mem_append_left _ hp)]

/-! ## Folding segments -/

/-- Segments folded into the ones that are left, the last one first. -/
def foldSegments (segments : List Text) : List Text := segments.foldl pushSegment []

/-- One segment may follow the other in a folded path: what leads back does not follow a name. -/
def MayFollow (s t : Text) : Prop := t = ['.', '.'] → s = [] ∨ s = ['.', '.']

/-- What folding makes of segments, the last one first. -/
structure IsFolded (stack : List Text) : Prop where
  chain : stack.IsChain fun t s => MayFollow s t
  no_point : ['.'] ∉ stack

theorem isFolded_nil : IsFolded [] := ⟨List.isChain_nil, List.not_mem_nil⟩

/-- What a segment does to a folded path: it is idle, takes back a name, or is put on top. -/
theorem pushSegment_cases (stack : List Text) (s : Text) :
    s = ['.'] ∧ pushSegment stack s = stack ∨
      (∃ top below, stack = top :: below ∧ s = ['.', '.'] ∧ top ≠ [] ∧ top ≠ ['.', '.'] ∧
        pushSegment stack s = below) ∨
      s ≠ ['.'] ∧ (∀ top ∈ stack.head?, MayFollow top s) ∧ pushSegment stack s = s :: stack := by
  rw [pushSegment.eq_def]
  by_cases hpoint : s = ['.']
  · exact .inl ⟨hpoint, if_pos hpoint⟩
  rw [if_neg hpoint]
  by_cases hup : s = ['.', '.']
  · rw [if_pos hup]
    cases stack with
    | nil => exact .inr (.inr ⟨hpoint, by simp, rfl⟩)
    | cons top below =>
      by_cases htop : top = [] ∨ top = ['.', '.']
      · simp only [Bool.or_eq_true, decide_eq_true_eq, htop, if_true]
        refine .inr (.inr ⟨hpoint, ?_, trivial⟩)
        rintro _ ⟨⟩
        exact fun _ => htop
      · simp only [Bool.or_eq_true, decide_eq_true_eq, htop, if_false]
        obtain ⟨hempty, hback⟩ := not_or.mp htop
        exact .inr (.inl ⟨top, below, rfl, hup, hempty, hback, rfl⟩)
  · exact .inr (.inr ⟨hpoint, fun _ _ h => absurd h hup, if_neg hup⟩)

theorem IsFolded.push (h : IsFolded stack) (s : Text) : IsFolded (pushSegment stack s) := by
  rcases pushSegment_cases stack s with ⟨-, heq⟩ | ⟨top, below, rfl, -, -, -, heq⟩ |
    ⟨hpoint, hfollows, heq⟩
  · rwa [heq]
  · rw [heq]
    exact ⟨h.chain.tail, fun hmem => h.no_point (List.mem_cons_of_mem _ hmem)⟩
  · rw [heq]
    refine ⟨List.isChain_cons.mpr ⟨fun top htop => hfollows top htop, h.chain⟩, ?_⟩
    rw [List.mem_cons, not_or]
    exact ⟨Ne.symm hpoint, h.no_point⟩

theorem IsFolded.foldl (h : IsFolded stack) (segments : List Text) :
    IsFolded (segments.foldl pushSegment stack) := by
  induction segments generalizing stack with
  | nil => exact h
  | cons s segments ih => exact ih (h.push s)

theorem isFolded_foldSegments (segments : List Text) : IsFolded (foldSegments segments) :=
  isFolded_nil.foldl segments

/-- What is folded is folded into itself. -/
theorem IsFolded.foldSegments_reverse (h : IsFolded stack) :
    foldSegments stack.reverse = stack := by
  induction stack with
  | nil => rfl
  | cons top below ih =>
    obtain ⟨hchain, hpoint⟩ := h
    rw [List.mem_cons, not_or] at hpoint
    obtain ⟨hfollows, hchain⟩ := List.isChain_cons.mp hchain
    have hbelow : foldSegments below.reverse = below := ih ⟨hchain, hpoint.2⟩
    have hpush : pushSegment below top = top :: below := by
      rcases pushSegment_cases below top with ⟨htop, -⟩ |
        ⟨name, rest, rfl, htop, hempty, hback, -⟩ | ⟨-, -, heq⟩
      · exact absurd htop.symm hpoint.1
      · rcases hfollows name rfl htop with hname | hname
        · exact absurd hname hempty
        · exact absurd hname hback
      · exact heq
    rw [List.reverse_cons, foldSegments, List.foldl_append, ← foldSegments, hbelow]
    exact hpush

/-- Segments behind a folded path are folded as behind the path. -/
theorem foldSegments_append (front back : List Text) :
    foldSegments ((foldSegments front).reverse ++ back) = foldSegments (front ++ back) := by
  have hfront := (isFolded_foldSegments front).foldSegments_reverse
  rw [foldSegments, List.foldl_append, ← foldSegments, hfront, foldSegments, foldSegments,
    List.foldl_append]

/-- A path that does not end with a point or leads back at its end is folded up to its last
segment. -/
theorem foldSegments_concat (hpoint : s ≠ ['.']) (hup : s ≠ ['.', '.']) (segments : List Text) :
    foldSegments (segments ++ [s]) = s :: foldSegments segments := by
  rw [foldSegments, List.foldl_append, List.foldl_cons, List.foldl_nil, pushSegment.eq_def,
    if_neg hpoint, if_neg hup]
  rfl

/-- A segment that is left was there. -/
theorem mem_foldl_pushSegment (h : s ∈ segments.foldl pushSegment stack) :
    s ∈ stack ∨ s ∈ segments := by
  induction segments generalizing stack with
  | nil => exact .inl h
  | cons t segments ih =>
    rcases ih h with hs | hs
    · rcases pushSegment_cases stack t with ⟨-, heq⟩ | ⟨top, below, rfl, -, -, -, heq⟩ | ⟨-, -, heq⟩
      · exact .inl (heq ▸ hs)
      · exact .inl (List.mem_cons_of_mem _ (heq ▸ hs))
      · rw [heq] at hs
        rcases List.mem_cons.mp hs with rfl | hs
        · exact .inr List.mem_cons_self
        · exact .inl hs
    · exact .inr (List.mem_cons_of_mem _ hs)

/-- No empty segment comes in. -/
theorem count_foldl_pushSegment_le (stack segments : List Text) :
    (segments.foldl pushSegment stack).count [] ≤ stack.count [] + segments.count [] := by
  induction segments generalizing stack with
  | nil => exact Nat.le_refl _
  | cons t segments ih =>
    refine (ih (pushSegment stack t)).trans ?_
    have hpush : (pushSegment stack t).count [] ≤ stack.count [] + [t].count [] := by
      rcases pushSegment_cases stack t with ⟨-, heq⟩ | ⟨top, below, rfl, -, -, -, heq⟩ | ⟨-, -, heq⟩
      · rw [heq]
        exact Nat.le_add_right _ _
      · rw [heq]
        exact (List.count_le_count_cons).trans (Nat.le_add_right _ _)
      · rw [heq, ← List.singleton_append, List.count_append, Nat.add_comm]
    rw [← List.singleton_append (l := segments), List.count_append]
    omega

/-- A folded path leads where its segments lead. -/
theorem arrive_foldl_pushSegment (place : Place) (h : IsFolded stack) (segments : List Text) :
    Disk.arrive place ((segments.foldl pushSegment stack).reverse.filter (!Path.isIdle ·)) =
      Disk.arrive (Disk.arrive place (stack.reverse.filter (!Path.isIdle ·)))
        (segments.filter (!Path.isIdle ·)) := by
  induction segments generalizing stack with
  | nil => rfl
  | cons t segments ih =>
    have hpush : Disk.arrive place ((pushSegment stack t).reverse.filter (!Path.isIdle ·)) =
        Disk.arrive (Disk.arrive place (stack.reverse.filter (!Path.isIdle ·)))
          ([t].filter (!Path.isIdle ·)) := by
      rcases pushSegment_cases stack t with ⟨rfl, heq⟩ | ⟨top, below, rfl, rfl, hne, hup, heq⟩ |
        ⟨-, -, heq⟩
      · rw [heq]
        rfl
      · have htop : ¬ Path.isIdle top := by
          have hpoint : top ≠ ['.'] := fun hpoint => h.no_point (hpoint ▸ List.mem_cons_self)
          simp [Path.isIdle, hne, hpoint]
        rw [heq, List.reverse_cons, List.filter_append,
          List.filter_cons_of_pos (by simpa using htop), Disk.arrive_append]
        have hback : Disk.advance (Disk.arrive place (below.reverse.filter (!Path.isIdle ·))) top =
            Disk.arrive place (below.reverse.filter (!Path.isIdle ·)) ++ [top] := if_neg hup
        exact (congrArg List.dropLast hback).trans List.dropLast_concat |>.symm
      · rw [heq, List.reverse_cons, List.filter_append, Disk.arrive_append]
    rw [List.foldl_cons, ih (h.push t), hpush, ← Disk.arrive_append, ← List.filter_append,
      List.singleton_append]

/-! ## Folded paths -/

/-- The segments of a folded path are those that are left, if any are. -/
theorem split_foldDots (path : Text) :
    foldSegments (split '/' path) ≠ [] ∧
        split '/' (foldDots path) = (foldSegments (split '/' path)).reverse ∨
      foldSegments (split '/' path) = [] ∧ split '/' (foldDots path) = [[]] := by
  by_cases hnil : foldSegments (split '/' path) = []
  · refine .inr ⟨hnil, ?_⟩
    have hfold : foldDots path = ['/'].intercalate (foldSegments (split '/' path)).reverse := rfl
    rw [hfold, hnil]
    rfl
  · refine .inl ⟨hnil, split_intercalate (List.reverse_ne_nil_iff.mpr hnil) fun p hp => ?_⟩
    have hmem := mem_foldl_pushSegment (List.mem_reverse.mp hp)
    exact not_mem_of_mem_split (hmem.resolve_left List.not_mem_nil)

/-- No character comes in. -/
theorem mem_foldDots {c : Char} (h : c ∈ foldDots path) : c ∈ path ∨ c = '/' := by
  rcases mem_intercalate h with hslash | ⟨s, hs, hc⟩
  · exact .inr (List.mem_singleton.mp hslash)
  · have hmem := mem_foldl_pushSegment (List.mem_reverse.mp hs)
    exact .inl ((infix_of_mem_split (hmem.resolve_left List.not_mem_nil)).subset hc)

theorem steps_foldDots (path : Text) :
    Path.steps (foldDots path) =
      (foldSegments (split '/' path)).reverse.filter (!Path.isIdle ·) := by
  rw [Path.steps]
  rcases split_foldDots path with ⟨-, hsplit⟩ | ⟨hnil, hsplit⟩
  · rw [hsplit]
  · rw [hsplit, hnil]
    rfl

/-- In a folded path nothing that leads back follows a name, and no segment is a point. -/
theorem isChain_split_foldDots (path : Text) :
    (split '/' (foldDots path)).IsChain MayFollow ∧ ['.'] ∉ split '/' (foldDots path) := by
  obtain ⟨hchain, hpoint⟩ := isFolded_foldSegments (split '/' path)
  rcases split_foldDots path with ⟨-, hsplit⟩ | ⟨-, hsplit⟩
  · rw [hsplit, List.mem_reverse, List.isChain_reverse]
    exact ⟨hchain, hpoint⟩
  · rw [hsplit]
    exact ⟨List.isChain_singleton [], by decide⟩

/-! ## Resolved urls -/

/-- A url is relative: it has no schema and does not begin at the root. -/
def IsRelative (raw : Text) : Prop := schema? raw = none ∧ ¬ ['/'].isPrefixOf raw

theorem resolve_of_isRelative (h : IsRelative raw) (base : Text) :
    resolve base raw =
      (splitSchema base).1 ++ foldDots (directory (splitSchema base).2 ++ raw) := by
  rw [resolve, if_neg]
  simp [h.1, h.2]

/-- The path of a resolved url. -/
theorem splitSchema_resolve (h : IsRelative raw) (base : Text) :
    (splitSchema base).1 ≠ [] ∧ splitSchema (resolve base raw) =
        ((splitSchema base).1, foldDots (directory (splitSchema base).2 ++ raw)) ∨
      (splitSchema base).1 = [] ∧
        resolve base raw = foldDots (directory (splitSchema base).2 ++ raw) := by
  rw [resolve_of_isRelative h]
  by_cases hschema : (splitSchema base).1 = []
  · exact .inr ⟨hschema, by rw [hschema, List.nil_append]⟩
  · exact .inl ⟨hschema, splitSchema_of_schema hschema _⟩

/-- A character that is in neither of the two is not in the path that they are folded into. -/
theorem not_mem_foldDots_directory {c : Char} (hc : c ≠ '/') (hpath : c ∉ path) (hraw : c ∉ raw) :
    c ∉ foldDots (directory path ++ raw) := by
  intro hmem
  rcases mem_foldDots hmem with hmem | hslash
  · rcases List.mem_append.mp hmem with hmem | hmem
    · exact hpath ((directory_isPrefix path).subset hmem)
    · exact hraw hmem
  · exact hc hslash

/-- The path of a resolved url, where no colon can come to its front. -/
theorem splitSchema_resolve_of_not_mem (hbase : ':' ∉ (splitSchema base).2) (hraw : ':' ∉ raw)
    (hroot : ¬ ['/'].isPrefixOf raw) :
    splitSchema (resolve base raw) =
      ((splitSchema base).1, foldDots (directory (splitSchema base).2 ++ raw)) := by
  rcases splitSchema_resolve ⟨schema?_eq_none hraw, hroot⟩ base with
    ⟨-, hsplit⟩ | ⟨hschema, hresolve⟩
  · exact hsplit
  · rw [hresolve, hschema, splitSchema,
      schema?_eq_none (not_mem_foldDots_directory (by decide) hbase hraw)]

/-- How many empty segments a url has behind its schema. One more counts for a url without a schema,
as it can turn out to have one when it is resolved. -/
def emptySegments (url : Text) : Nat :=
  (split '/' (splitSchema url).2).count [] + if (splitSchema url).1 = [] then 1 else 0

/-- Behind the first segment of a resolved url nothing that leads back follows a name. -/
theorem tail_split_resolve (h : IsRelative raw) (base : Text) :
    (split '/' (Url.path (resolve base raw))).tail.IsChain MayFollow ∧
      ['.'] ∉ (split '/' (Url.path (resolve base raw))).tail := by
  have hfolded : (split '/' (splitSchema (resolve base raw)).2).tail =
      (split '/' (foldDots (directory (splitSchema base).2 ++ raw))).tail := by
    rcases splitSchema_resolve h base with ⟨-, hsplit⟩ | ⟨-, hresolve⟩
    · rw [hsplit]
    · rw [← hresolve, tail_split (resolve base raw)]
  obtain ⟨hchain, hpoint⟩ :=
    isChain_split_foldDots (directory (splitSchema base).2 ++ raw)
  rw [tail_split_path, hfolded]
  exact ⟨hchain.tail, fun hmem => hpoint (List.mem_of_mem_tail hmem)⟩

theorem count_tail_split_path_le (url : Text) :
    (split '/' (Url.path url)).tail.count [] ≤ emptySegments url := by
  rw [tail_split_path, emptySegments]
  exact ((List.tail_sublist _).count_le []).trans (Nat.le_add_right _ _)

/-- A relative url without empty segments adds none, apart from the one of an empty path. -/
theorem emptySegments_resolve_le (h : IsRelative raw) (hraw : [] ∉ split '/' raw) (base : Text) :
    emptySegments (resolve base raw) ≤ max 2 (emptySegments base) := by
  have hfolded : (split '/' (foldDots (directory (splitSchema base).2 ++ raw))).count [] ≤
      max 1 ((split '/' (splitSchema base).2).count []) := by
    rcases split_foldDots (directory (splitSchema base).2 ++ raw) with ⟨-, hsplit⟩ | ⟨-, hsplit⟩
    · have hle := count_foldl_pushSegment_le []
        (split '/' (directory (splitSchema base).2 ++ raw))
      have hinit : (split '/' (splitSchema base).2).dropLast.count [] ≤
          (split '/' (splitSchema base).2).count [] := (List.dropLast_sublist _).count_le []
      rw [split_directory_append, List.count_append, List.count_eq_zero.mpr hraw] at hle
      rw [hsplit, List.count_reverse, split_directory_append, foldSegments]
      simp only [List.count_nil] at hle
      omega
    · rw [hsplit]
      exact Nat.le_max_left _ _
  rw [emptySegments, emptySegments]
  rcases splitSchema_resolve h base with ⟨hschema, hsplit⟩ | ⟨hschema, hresolve⟩
  · rw [hsplit, if_neg hschema]
    simp only
    omega
  · rw [if_pos hschema]
    obtain ⟨first, rest, hsplit, hsplit'⟩ := exists_split_eq (resolve base raw)
    rw [← hresolve] at hfolded
    by_cases hnew : (splitSchema (resolve base raw)).1 = []
    · rw [hnew, List.nil_append] at hsplit'
      rw [hsplit'] at hfolded
      rw [if_pos hnew, hsplit]
      omega
    · have hrest : rest.count [] ≤ (split '/' (resolve base raw)).count [] := by
        rw [hsplit']
        exact List.count_le_count_cons
      have hfirst : (first :: rest).count [] ≤ rest.count [] + 1 := by
        rw [List.count_cons]
        split <;> omega
      rw [if_neg hnew, hsplit]
      omega

end Url

end ScopedStyles
