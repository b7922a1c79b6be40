import ScopedStyles.Proofs.Loading.Transparent

/-!
# Loading in both forms

The scoped form of a stylesheet is kept under its url with a suffix behind it. That is a url too: a
stylesheet which has it is kept, in its plain form, under the same key. Two stylesheets share a key
in this way only (`Dependency.key_eq_iff`), and where no two that a session can meet do, every load
answers what it would answer with an empty cache.
-/

namespace ScopedStyles

open Text Relation

variable {s : Scope} {files : List (Text × Text)}

/-! ## Shared keys -/

namespace Dependency

/-- The url of `e`, which is not scoped, is the key of `d`, which is. -/
structure Shadows (d e : Dependency) : Prop where
  left : d.isScoped = true
  right : e.isScoped = false
  url_eq : e.url = d.url ++ scopedSuffix

/-- Two stylesheets have one key if they are the same, or one of them shadows the other. -/
theorem key_eq_iff {d e : Dependency} : d.key = e.key ↔ d = e ∨ d.Shadows e ∨ e.Shadows d := by
  obtain ⟨u, a⟩ := d
  obtain ⟨v, b⟩ := e
  constructor
  · intro hkey
    cases a <;> cases b
    · exact .inl (by rw [key_injective hkey])
    · exact .inr (.inr ⟨rfl, rfl, hkey⟩)
    · exact .inr (.inl ⟨rfl, rfl, hkey.symm⟩)
    · exact .inl (by rw [key_injective hkey])
  · rintro (h | ⟨rfl, rfl, rfl⟩ | ⟨rfl, rfl, rfl⟩)
    · rw [h]
    · rfl
    · rfl

/-- Loading one of `requests` can meet `d`: it is requested, or imported, directly or not, by a
stylesheet that is requested in the same form. -/
def MetBy (files : List (Text × Text)) (requests : List Dependency) (d : Dependency) : Prop :=
  ∃ r ∈ requests, Url.isResolvable r.url ∧ d.isScoped = r.isScoped ∧
    ReflTransGen (Imports files) r.url d.url

theorem isKeyed_metBy {requests : List Dependency}
    (hshadow : ∀ d e, MetBy files requests d → MetBy files requests e → ¬ d.Shadows e) :
    IsKeyed files (MetBy files requests) where
  key_injective := by
    intro d e hd he hkey
    rcases key_eq_iff.mp hkey with heq | hde | hed
    · exact heq
    · exact absurd hde (hshadow d e hd he)
    · exact absurd hed (hshadow e d he hd)
  imports := by
    rintro d v ⟨r, hr, hurl, hform, hreach⟩ hedge
    exact ⟨r, hr, hurl, hform, hreach.tail hedge⟩

end Dependency

/-! ## Sessions of loads in both forms -/

namespace Session

/-- The session still has `files`, and a cache that is complete for all that can be met. -/
structure IsCompleteFor (session : Session) (s : Scope) (files : List (Text × Text))
    (met : Dependency → Prop) : Prop where
  files_eq : session.files = files
  cache : session.cache.IsCompleteFor s files met

theorem isCompleteFor_start (s : Scope) (files : List (Text × Text)) (met : Dependency → Prop) :
    IsCompleteFor { files } s files met :=
  ⟨rfl, fun _ _ _ h => by cases h⟩

theorem IsCompleteFor.step_load {session : Session} {met : Dependency → Prop}
    (h : session.IsCompleteFor s files met) (hmet : Dependency.IsKeyed files met) {r : Dependency}
    (hr : Url.isResolvable r.url → met r) :
    (session.step s (.load r.url r.isScoped)).1.result =
        (directLoad s files r.url r.isScoped).map some ∧
      (session.step s (.load r.url r.isScoped)).2.IsCompleteFor s files met := by
  obtain ⟨hfiles, hcache⟩ := h
  obtain ⟨hout, hcache'⟩ := Loader.load_eq_directLoad_of_isKeyed (Nat.lt_succ_self _) hmet hr
    { cache := session.cache } hcache
  rw [step, loading, hfiles]
  exact ⟨congrArg (Except.map some) hout, rfl, hcache'⟩

theorem IsCompleteFor.answers_loads {session : Session} {met : Dependency → Prop}
    (h : session.IsCompleteFor s files met) (hmet : Dependency.IsKeyed files met)
    {requests : List Dependency} (hall : ∀ r ∈ requests, Url.isResolvable r.url → met r) :
    (answers s session (requests.map fun r => .load r.url r.isScoped)).map (·.result) =
      requests.map fun r => (directLoad s files r.url r.isScoped).map some := by
  induction requests generalizing session with
  | nil => rfl
  | cons r requests ih =>
    rw [List.forall_mem_cons] at hall
    obtain ⟨hresult, hnext⟩ := h.step_load hmet hall.1
    rw [List.map_cons, List.map_cons, answers, List.map_cons, hresult, ih hnext hall.2]

/-- A load that comes first answers what loading directly does. -/
theorem result_first_load (s : Scope) (files : List (Text × Text)) (r : Dependency) :
    (step s { files } (.load r.url r.isScoped)).1.result =
      (directLoad s files r.url r.isScoped).map some :=
  ((isComplete_start s r.isScoped files).step_load r.url).1

/-- Loads in both forms from one set of files answer what each of them does first in a session,
unless two stylesheets that they can meet share a key; and stylesheets do that only if one of them
shadows the other. -/
theorem answers_loads_of_not_shadows (s : Scope) (files : List (Text × Text))
    (requests : List Dependency)
    (hshadow : ∀ d e, Dependency.MetBy files requests d → Dependency.MetBy files requests e →
      ¬ d.Shadows e) :
    (answers s { files } (requests.map fun r => .load r.url r.isScoped)).map (·.result) =
        requests.map (fun r => (step s { files } (.load r.url r.isScoped)).1.result) ∧
      ∀ d e : Dependency, d.key = e.key ↔ d = e ∨ d.Shadows e ∨ e.Shadows d := by
  refine ⟨?_, fun d e => Dependency.key_eq_iff⟩
  have hall : ∀ r ∈ requests, Url.isResolvable r.url → Dependency.MetBy files requests r :=
    fun r hr hurl => ⟨r, hr, hurl, rfl, .refl⟩
  rw [(isCompleteFor_start s files _).answers_loads (Dependency.isKeyed_metBy hshadow) hall]
  simp only [result_first_load]

/-- Both forms of a stylesheet and of the one that it imports. -/
theorem answers_loads_both_forms :
    let s := Component.templateScope .strict
    let files := [("a.css".toList, "@import 'b.css';x".toList), ("b.css".toList, "y".toList)]
    let requests : List Dependency :=
      [⟨"a.css".toList, true⟩, ⟨"b.css".toList, false⟩, ⟨"a.css".toList, false⟩]
    (∀ d e, Dependency.MetBy files requests d → Dependency.MetBy files requests e →
        ¬ d.Shadows e) ∧
      (answers s { files } (requests.map fun r => .load r.url r.isScoped)).map (·.result) =
        requests.map fun r => (step s { files } (.load r.url r.isScoped)).1.result := by
  intro s files requests
  have himports : (Import.extract "a.css".toList "@import 'b.css';x".toList).urls =
      ["b.css".toList] := by decide +kernel
  have hnone : (Import.extract "b.css".toList "y".toList).urls = [] := by decide +kernel
  have hurls : ∀ r ∈ requests, r.url ∈ ["a.css".toList, "b.css".toList] := by decide
  have hmet : ∀ d, Dependency.MetBy files requests d →
      d.url ∈ ["a.css".toList, "b.css".toList] := by
    rintro d ⟨r, hr, -, -, hreach⟩
    generalize d.url = v at hreach ⊢
    induction hreach with
    | refl => exact hurls r hr
    | tail hreach hedge ih =>
      obtain ⟨css, hfile, hv⟩ := hedge
      simp only [List.mem_cons, List.not_mem_nil, or_false] at ih
      rcases ih with rfl | rfl
      · obtain rfl := Option.some.inj hfile
        rw [himports] at hv
        exact List.mem_cons_of_mem _ hv
      · obtain rfl := Option.some.inj hfile
        rw [hnone] at hv
        cases hv
  have hshadow : ∀ d e, Dependency.MetBy files requests d → Dependency.MetBy files requests e →
      ¬ d.Shadows e := by
    rintro d e hd he ⟨-, -, hurl⟩
    have hnot : ∀ u ∈ ["a.css".toList, "b.css".toList],
        u ++ scopedSuffix ∉ ["a.css".toList, "b.css".toList] := by decide
    exact hnot d.url (hmet d hd) (hurl ▸ hmet e he)
  exact ⟨hshadow, (answers_loads_of_not_shadows s files requests hshadow).1⟩

/-- A stylesheet whose url is the key of another one is answered with the styles of that one, if
these are kept already. -/
theorem answers_loads_shadowed :
    let files := [("a.css".toList, "x".toList), ("a.css.shim".toList, "y".toList)]
    let requests : List Dependency := [⟨"a.css".toList, true⟩, ⟨"a.css.shim".toList, false⟩]
    let s := Component.templateScope .strict
    (answers s { files } (requests.map fun r => .load r.url r.isScoped)).map (·.result.toOption) =
        [some (some ["x".toList]), some (some ["x".toList])] ∧
      requests.map (fun r => (step s { files } (.load r.url r.isScoped)).1.result.toOption) =
        [some (some ["x".toList]), some (some ["y".toList])] := by
  decide +kernel

end Session

end ScopedStyles
