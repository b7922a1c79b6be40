import ScopedStyles.Text.Basic

/-!
# Readers

Most of what is done to a stylesheet has one shape: something is recognised where it stands, all
else is copied. A `Reader` recognises at the head of a text; `Reader.scan` moves it over a whole
text from left to right and goes on behind whatever was found. `Reader.substitute` and
`Reader.found` are the two views of a scan.
-/

namespace ScopedStyles

/-- A reader recognises something at the head of a text. It answers what it found and the text
behind it, which is always shorter. -/
structure Reader (α : Type) where
  /-- What stands at the head of a text, with the text behind it. -/
  read : Text → Option (α × Text)
  /-- Something found has at least one character. -/
  shorter : ∀ {t : Text} {a : α} {rest : Text},
    read t = some (a, rest) → rest.length < t.length

/-- A piece of a scanned text. -/
inductive Piece (α : Type) where
  /-- A character at which nothing was found. -/
  | plain (c : Char)
  /-- Something that was found. -/
  | found (a : α)
  deriving DecidableEq, Repr

namespace Reader

variable {α : Type}

/-- The pieces of a text, from left to right: what the reader finds, and single characters where
it finds nothing. -/
def scan (R : Reader α) (t : Text) : List (Piece α) :=
  match t with
  | [] => []
  | c :: t =>
    match _h : R.read (c :: t) with
    | some (a, rest) => .found a :: R.scan rest
    | none => .plain c :: R.scan t
termination_by t.length
decreasing_by
  · exact R.shorter _h
  · simp

/-- Everything found in a text, in order. -/
def found (R : Reader α) (t : Text) : List α :=
  (R.scan t).filterMap fun
    | .plain _ => none
    | .found a => some a

/-- A text with everything that is found replaced. -/
def substitute (R : Reader α) (write : α → Text) (t : Text) : Text :=
  (R.scan t).flatMap fun
    | .plain c => [c]
    | .found a => write a

/-- The texts between whatever is found: the first one and all others. -/
def between (R : Reader α) (t : Text) : Text × List Text :=
  (R.scan t).foldr
    (fun
      | .plain c, (first, others) => (c :: first, others)
      | .found _, (first, others) => ([], first :: others))
    ([], [])

/-- The reader of a literal. The empty literal is found nowhere. -/
def literal (m : Text.Letters) (word : Text) : Reader Unit where
  read t := if word = [] then none else (Text.after? m word t).map ((), ·)
  shorter := by
    intro t a rest h
    split at h
    · simp at h
    · rename_i hne
      simp only [Option.map_eq_some_iff, Prod.mk.injEq] at h
      obtain ⟨r, hr, -, rfl⟩ := h
      have := Text.length_after? hr
      have := List.length_pos_iff.mpr hne
      omega

@[simp] theorem scan_nil (R : Reader α) : R.scan [] = [] := by rw [scan]

theorem scan_of_read {R : Reader α} {c : Char} {t rest : Text} {a : α}
    (h : R.read (c :: t) = some (a, rest)) : R.scan (c :: t) = .found a :: R.scan rest := by
  rw [scan]
  split
  · rename_i b r hr
    rw [h] at hr
    simp only [Option.some.injEq, Prod.mk.injEq] at hr
    obtain ⟨rfl, rfl⟩ := hr
    rfl
  · rename_i hn
    rw [h] at hn
    simp at hn

theorem scan_of_none {R : Reader α} {c : Char} {t : Text} (h : R.read (c :: t) = none) :
    R.scan (c :: t) = .plain c :: R.scan t := by
  rw [scan]
  split
  · rename_i hs
    rw [h] at hs
    simp at hs
  · rfl

/-- What is found in a text was read at the head of a text that is not longer. -/
theorem exists_read_of_mem_found {R : Reader α} {t : Text} {a : α} (h : a ∈ R.found t) :
    ∃ s rest, s.length ≤ t.length ∧ R.read s = some (a, rest) := by
  rw [found, List.mem_filterMap] at h
  obtain ⟨piece, hmem, hpiece⟩ := h
  obtain ⟨rfl⟩ : piece = .found a := by
    cases piece with
    | plain c => simp at hpiece
    | found b => simpa using hpiece
  fun_induction R.scan t with
  | case1 => simp at hmem
  | case2 c t b rest hread ih =>
    rcases List.mem_cons.mp hmem with heq | hmem
    · cases heq
      exact ⟨c :: t, rest, Nat.le_refl _, hread⟩
    · obtain ⟨s, r, hs, hr⟩ := ih hmem
      have := R.shorter hread
      exact ⟨s, r, by omega, hr⟩
  | case3 c t hread ih =>
    rcases List.mem_cons.mp hmem with heq | hmem
    · cases heq
    · obtain ⟨s, r, hs, hr⟩ := ih hmem
      exact ⟨s, r, by simp only [List.length_cons]; omega, hr⟩

end Reader

namespace Text

/-- A text with every occurrence of `literal` replaced, from left to right. -/
def replace (m : Letters) (literal new t : Text) : Text :=
  (Reader.literal m literal).substitute (fun _ => new) t

end Text

end ScopedStyles
