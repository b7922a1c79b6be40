import ScopedStyles.Proofs.Component.Template
import ScopedStyles.Proofs.Selector.Pieces
import ScopedStyles.Proofs.Sheet.HostRules

/-!
# Selectors that are scoped by a template

What is scoped by the attributes of a component that has no identifier yet is a template of what is
scoped by its attributes (`IsTemplateOf.selector`). The attributes of a scope are written into a
selector and are looked for in it, for a scope that is there already and for markers of `:host`:
`IsTemplateOf` says that neither is found with the one scope or with the other.
-/

namespace ScopedStyles

open Text

/-- What the names of content attributes begin with. -/
def Component.contentPrefix : Text := "_ngcontent-".toList

/-- What the names of host attributes begin with. -/
def Component.hostPrefix : Text := "_nghost-".toList

namespace Scope

open Component Selector

/-- The attributes of `s'` are those of `s` with `id` in their holes, and neither scope is taken for
one that a selector without names of content attributes begins with. -/
structure IsTemplateOf (id : Text) (s s' : Scope) : Prop where
  template : s.IsStrict
  filled : s'.IsStrict
  content : Front id s.contentAttribute s'.contentAttribute
  host : Front id s.hostText s'.hostText
  unscoped : ∀ t, ¬ includes .exact contentPrefix t →
    ¬ isScoped s.content t ∧ ¬ isScoped s'.content t

/-- No marker is made where the host attribute replaces the anchor. -/
theorem IsStrict.replace_append_hostText {s : Scope} (hs : s.IsStrict) (new x u : Text) :
    replace .anyCase Host.marker new (x ++ (s.hostText ++ u)) =
      replace .anyCase Host.marker new x ++ (s.hostText ++ replace .anyCase Host.marker new u) := by
  simp only [hs.hostText_eq, List.cons_append, List.append_assoc, List.nil_append]
  rw [replace_append_cons (by decide) (by decide), replace_append_cons (by decide) (by decide),
    replace_of_not_includes hs.host]

namespace IsTemplateOf

variable {id t : Text} {s s' : Scope}

theorem front_replace (h : IsTemplateOf id s s') (ht : '%' ∉ t) :
    Front id (replace .anyCase Host.marker (s.hostText ++ [' ']) t)
      (replace .anyCase Host.marker (s'.hostText ++ [' ']) t) := by
  obtain ⟨hfirst, hothers⟩ :=
    Reader.between_isInfix (Reader.leavesSuffix_literal .anyCase Host.marker) t
  rw [replace, replace, Reader.substitute_const, Reader.substitute_const]
  refine (h.host.append (Front.of_not_mem (by decide))).intercalate_same fun p hp hmem => ?_
  rcases List.mem_cons.mp hp with rfl | hp
  · exact ht (hfirst.subset hmem)
  · exact ht ((hothers p hp).subset hmem)

theorem writeHost (h : IsTemplateOf id s s') (ht : '%' ∉ t) :
    Front id (s.writeHost t) (s'.writeHost t) := by
  rw [Scope.writeHost, Scope.writeHost, replaceFirst, replaceFirst]
  cases hcut : cut .exact Host.anchor t with
  | none => exact h.front_replace ht
  | some sides =>
    obtain ⟨before, rest⟩ := sides
    obtain rfl := cut_exact hcut
    have hbefore : '%' ∉ before :=
      fun hmem => ht (List.mem_append_left _ (List.mem_append_left _ hmem))
    have hrest : '%' ∉ rest := fun hmem => ht (List.mem_append_right _ hmem)
    -- the brackets around the host attribute stand in no marker
    simp only [List.append_assoc]
    rw [h.template.replace_append_hostText, h.filled.replace_append_hostText]
    exact (h.front_replace hbefore).append (h.host.append (h.front_replace hrest))

theorem compound (h : IsTemplateOf id s s') (ht : '%' ∉ t) :
    Front id (s.compound t) (s'.compound t) := by
  have hbare : '%' ∉ replace .anyCase Host.marker [] t :=
    fun hmem => (mem_replace hmem).elim ht List.not_mem_nil
  unfold Scope.compound
  split
  · exact Front.of_not_mem List.not_mem_nil
  · split
    · exact h.writeHost ht
    · split
      · exact Front.of_not_mem fun hmem => ht ((trim_isInfix t).subset hmem)
      · have hbefore : Front id _ _ :=
          Front.of_not_mem fun hmem => hbare ((List.takeWhile_prefix (· != ':')).subset hmem)
        have hbehind : Front id _ _ :=
          Front.of_not_mem fun hmem => hbare ((List.dropWhile_suffix (· != ':')).subset hmem)
        exact (hbefore.append h.content).append hbehind

theorem links (h : IsTemplateOf id s s') {chained : List (Text × Char)}
    (hlinks : ∀ link ∈ chained, '%' ∉ link.1 ∧ isCombinator link.2) (reached : Bool) :
    Front id (s.links reached chained) (s'.links reached chained) := by
  induction chained generalizing reached with
  | nil => exact Front.of_not_mem List.not_mem_nil
  | cons link chained ih =>
    obtain ⟨k, c⟩ := link
    rw [List.forall_mem_cons] at hlinks
    obtain ⟨⟨hk, hc⟩, hrest⟩ := hlinks
    have htrim : '%' ∉ trim k := fun hmem => hk ((trim_isInfix k).subset hmem)
    have hsign : '%' ≠ c := by
      rintro rfl
      exact absurd (show isCombinator '%' from hc) (by decide)
    have hcombinator : '%' ∉ [' ', c, ' '] := by simp [hsign]
    rw [Scope.links, Scope.links]
    refine (Front.append ?_ (Front.of_not_mem hcombinator)).append (ih hrest _)
    split
    · exact h.compound htrim
    · exact Front.of_not_mem htrim

theorem strictly (h : IsTemplateOf id s s') (ht : '%' ∉ t) :
    Front id (s.strictly t) (s'.strictly t) := by
  obtain ⟨hlinks, hlast⟩ := infix_of_mem_links t
  have hlinks' : ∀ link ∈ (chain t).links, '%' ∉ link.1 ∧ isCombinator link.2 :=
    fun link hlink => ⟨fun hmem => ht ((hlinks link hlink).1.subset hmem), (hlinks link hlink).2⟩
  exact (h.links hlinks' _).append (h.compound fun hmem => ht (hlast.subset hmem))

theorem shallow (h : IsTemplateOf id s s') (ht : '%' ∉ t)
    (hname : ¬ includes .exact contentPrefix t) : Front id (s.shallow t) (s'.shallow t) := by
  obtain ⟨hs, hs'⟩ := h.unscoped t hname
  rw [Scope.shallow, Scope.shallow, if_neg hs, if_neg hs', h.template.mode, h.filled.mode]
  exact h.strictly ht

theorem alternative (h : IsTemplateOf id s s') (ht : '%' ∉ t)
    (hname : ¬ includes .exact contentPrefix t) :
    Front id (s.alternative t) (s'.alternative t) := by
  obtain ⟨hown, hforeign⟩ := Reader.between_isInfix leavesSuffix_deepReader (trim t)
  have htrim := trim_isInfix t
  have hfront := h.shallow (fun hmem => ht (htrim.subset (hown.subset hmem)))
    (not_includes_of_isInfix (hown.isInfix.trans htrim) hname)
  refine (Front.of_not_mem (by decide)).intercalate (.cons hfront ?_)
  rw [List.forall₂_same]
  exact fun p hp => Front.of_not_mem fun hmem => ht (htrim.subset ((hforeign p hp).subset hmem))

/-- A selector that names no content attribute is scoped to a template. -/
theorem selector (h : IsTemplateOf id s s') (ht : '%' ∉ t)
    (hname : ¬ includes .exact contentPrefix t) : Front id (s.selector t) (s'.selector t) := by
  refine (Front.of_not_mem (by decide)).intercalate ?_
  rw [List.forall₂_map_left_iff, List.forall₂_map_right_iff, List.forall₂_same]
  intro p hp
  have hpiece := infix_of_mem_split hp
  exact h.alternative (fun hmem => ht (hpiece.subset hmem)) (not_includes_of_isInfix hpiece hname)

end IsTemplateOf

/-! ## Selectors that are not scoped yet -/

theorem suffix_of_mem_fromLineStarts {l : Text} (h : l ∈ fromLineStarts t) : l <:+ t := by
  rcases List.mem_cons.mp h with rfl | h
  · exact List.suffix_refl l
  · clear * - h
    induction t with
    | nil => exact absurd h List.not_mem_nil
    | cons c t ih =>
      rw [fromLineStarts.afterBreaks] at h
      split at h
      · rcases List.mem_cons.mp h with rfl | h
        · exact List.suffix_cons c l
        · exact (ih h).trans (List.suffix_cons c t)
      · exact (ih h).trans (List.suffix_cons c t)

/-- A selector in which the beginning of the scope does not occur is not scoped. -/
theorem not_isScoped_of_not_includes {p t : Text} (h : ¬ includes .exact p t) (x : Text) :
    ¬ isScoped (p ++ x) t := by
  intro hscoped
  obtain ⟨l, hl, hbegins⟩ := List.any_eq_true.mp hscoped
  have hnone := after?_eq_none_of_not_includes h (suffix_of_mem_fromLineStarts hl)
  rw [beginsWith, after?_append_literal, hnone] at hbegins
  exact absurd hbegins Bool.false_ne_true

end Scope

/-! ## The scopes of a component -/

namespace Component

open Scope

variable {id t : Text}

/-- The scope of a component whose attributes end with `x`. -/
def attributes (x : Text) : Scope where
  content := contentPrefix ++ x
  host := hostPrefix ++ x

theorem templateScope_eq : templateScope .strict = attributes placeholder := rfl

theorem instantiate_append_placeholder (ht : '%' ∉ t) (id : Text) :
    instantiate id (t ++ '-' :: placeholder) = t ++ '-' :: id := by
  have hat : after? .exact placeholder placeholder = some [] := by decide
  rw [instantiate, replace_append_cons (by decide) (by decide),
    replace_of_not_includes (not_includes_of_not_mem (by decide) ht),
    replace_of_after? (by decide) hat, replace_of_not_includes (by decide), List.append_nil]

theorem scope_eq (id : Text) : scope .strict id = attributes id := by
  have hcontent := instantiate_append_placeholder (t := "_ngcontent".toList) (by decide) id
  have hhost := instantiate_append_placeholder (t := "_nghost".toList) (by decide) id
  exact congrArg₂ (Scope.mk · · .strict) hcontent hhost

theorem not_includes_marker_append {p : Text} (hp : Shuts .anyCase "shadowcsshost".toList p)
    {x : Text} (hx : ¬ includes .anyCase "shadowcsshost".toList x) :
    ¬ includes .anyCase Host.marker (p ++ x) := by
  intro h
  have hword : includes .anyCase "shadowcsshost".toList (p ++ x) := includes_of_includes_cons h
  rw [includes_append_of_shuts hp] at hword
  exact hx hword

theorem isStrict_attributes {x : Text} (his : ¬ includes .exact "[is=".toList x)
    (hmarker : ¬ includes .anyCase "shadowcsshost".toList x) : (attributes x).IsStrict where
  mode := rfl
  nonempty := List.cons_ne_nil _ _
  content := not_includes_marker_append (by decide) hmarker
  host := not_includes_marker_append (by decide) hmarker
  value := by
    have hname : Shuts .exact "[is=".toList contentPrefix := by decide
    rwa [attributes, includes_append_of_shuts hname]

/-- The scope of a component without an identifier is a template of its scope. -/
theorem isTemplateOf_scope (his : ¬ includes .exact "[is=".toList id)
    (hmarker : ¬ includes .anyCase "shadowcsshost".toList id) :
    IsTemplateOf id (templateScope .strict) (scope .strict id) := by
  have htemplate : (attributes placeholder).IsStrict := isStrict_attributes (by decide) (by decide)
  have hfilled := isStrict_attributes his hmarker
  rw [templateScope_eq, scope_eq]
  refine ⟨htemplate, hfilled, ?_, ?_, ?_⟩
  · rw [htemplate.contentAttribute_eq, hfilled.contentAttribute_eq]
    exact Front.of_attribute (t := "[_ngcontent".toList) (by decide)
  · rw [htemplate.hostText_eq, hfilled.hostText_eq]
    exact Front.of_attribute (t := "[_nghost".toList) (by decide)
  · exact fun t ht => ⟨not_isScoped_of_not_includes ht _, not_isScoped_of_not_includes ht _⟩

end Component

end ScopedStyles
