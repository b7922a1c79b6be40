import ScopedStyles.Disk.Path

/-!
# Glob patterns

In a pattern `?` stands for a character, `*` for any number of them, `[ab-d]` for one of the given
characters and ranges, and `[!ab-d]` for any other character. The wildcard `**` has to be a whole
segment of a path, and stands for any number of folders. A pattern that is not written like this is
refused, with the place of the fault.
-/

namespace ScopedStyles.Glob

open Text

/-- A member of a set of characters. -/
inductive Member where
  /-- A single character. -/
  | single (c : Char)
  /-- All characters from the first one to the last one. -/
  | range (first last : Char)
  deriving DecidableEq, Repr

/-- A part of a pattern. -/
inductive Token where
  /-- The character itself. -/
  | char (c : Char)
  /-- Any character. -/
  | anyChar
  /-- Any number of characters. -/
  | anyText
  /-- Any number of folders. -/
  | anyFolders
  /-- One of the members. -/
  | among (members : List Member)
  /-- Anything but the members. -/
  | except (members : List Member)
  deriving DecidableEq, Repr

/-- What is wrong with a pattern. -/
inductive Fault where
  /-- There are more than two stars in a row. -/
  | tooManyStars
  /-- The wildcard `**` is not a whole segment. -/
  | starsInSegment
  /-- A set of characters has no end. -/
  | unclosedSet
  deriving DecidableEq, Repr

/-- Says what is wrong with a pattern. -/
def Fault.message : Fault → Text
  | tooManyStars => "wildcards are either regular `*` or recursive `**`".toList
  | starsInSegment => "recursive wildcards must form a single path component".toList
  | unclosedSet => "invalid range pattern".toList

/-- A fault and its place, counted in characters. -/
structure PatternError where
  /-- The place of the fault. -/
  place : Nat
  /-- What is wrong there. -/
  fault : Fault
  deriving DecidableEq, Repr

/-- Says what is wrong with a pattern, and where. -/
def PatternError.message (e : PatternError) : Text :=
  "Pattern syntax error near position ".toList ++ (toString e.place).toList ++ ": ".toList ++
    e.fault.message

/-! ## Reading patterns -/

/-- The members that stand between the brackets of a set. -/
def members : Text → List Member
  | first :: '-' :: last :: t => .range first last :: members t
  | c :: t => .single c :: members t
  | [] => []

/-- The set behind an opening bracket, with the text behind its closing one. A set has at least one
character, so that a closing bracket right at the beginning belongs to it. -/
def set? : Text → Option (Token × Text)
  | '!' :: c :: t =>
    (cut .exact [']'] t).map fun (inner, rest) => (.except (members (c :: inner)), rest)
  | '!' :: [] => none
  | c :: t => (cut .exact [']'] t).map fun (inner, rest) => (.among (members (c :: inner)), rest)
  | [] => none

theorem length_set? {t rest : Text} {token : Token} (h : set? t = some (token, rest)) :
    rest.length < t.length := by
  unfold set? at h
  split at h
  · simp only [Option.map_eq_some_iff, Prod.mk.injEq, Prod.exists] at h
    obtain ⟨inner, r, hcut, -, rfl⟩ := h
    have := length_cut hcut
    simp only [List.length_cons]
    omega
  · simp at h
  · simp only [Option.map_eq_some_iff, Prod.mk.injEq, Prod.exists] at h
    obtain ⟨inner, r, hcut, -, rfl⟩ := h
    have := length_cut hcut
    simp only [List.length_cons]
    omega
  · simp at h

/-- The tokens of a pattern from some place on; `previous` is the character before it. The wildcard
`**` takes the slash behind it. -/
def tokensFrom (place : Nat) (previous : Option Char) (t : Text) :
    Except PatternError (List Token) :=
  match t with
  | [] => .ok []
  | '?' :: t => do return .anyChar :: (← tokensFrom (place + 1) (some '?') t)
  | '*' :: '*' :: '*' :: _ => .error ⟨place + 2, .tooManyStars⟩
  | '*' :: '*' :: t =>
    if previous = none ∨ previous = some '/' then
      match t with
      | [] => .ok [.anyFolders]
      | '/' :: t => do return .anyFolders :: (← tokensFrom (place + 3) (some '/') t)
      | _ => .error ⟨place + 2, .starsInSegment⟩
    else .error ⟨place - 1, .starsInSegment⟩
  | '*' :: t => do return .anyText :: (← tokensFrom (place + 1) (some '*') t)
  | '[' :: t =>
    match _h : set? t with
    | none => .error ⟨place, .unclosedSet⟩
    | some (token, rest) => do
      return token :: (← tokensFrom (place + (1 + t.length - rest.length)) (some ']') rest)
  | c :: t => do return .char c :: (← tokensFrom (place + 1) (some c) t)
termination_by t.length
decreasing_by
  · simp
  · simp only [List.length_cons]; omega
  · simp
  · have := length_set? _h
    simp only [List.length_cons]
    omega
  · simp

/-- The tokens of a pattern. -/
def tokens (pattern : Text) : Except PatternError (List Token) := tokensFrom 0 none pattern

/-! ## Matching -/

/-- Whether a character is what a member stands for. -/
def Member.admits : Member → Char → Bool
  | single a, c => a == c
  | range first last, c => first ≤ c && c ≤ last

/-- Whether a name is written as the tokens say. -/
def isMatch : List Token → Text → Bool
  | [], t => t.isEmpty
  | .char a :: ts, c :: t => a == c && isMatch ts t
  | .anyChar :: ts, _ :: t => isMatch ts t
  | .among ms :: ts, c :: t => ms.any (·.admits c) && isMatch ts t
  | .except ms :: ts, c :: t => !ms.any (·.admits c) && isMatch ts t
  | .anyText :: ts, [] => isMatch ts []
  | .anyText :: ts, c :: t => isMatch ts (c :: t) || isMatch (.anyText :: ts) t
  | .anyFolders :: ts, [] => isMatch ts []
  | .anyFolders :: ts, c :: t => isMatch ts (c :: t) || isMatch (.anyFolders :: ts) t
  | _ :: _, [] => false

/-- The name that tokens spell out, if they are all characters. -/
def literal? : List Token → Option Text
  | [] => some []
  | .char c :: ts => (literal? ts).map (c :: ·)
  | _ :: _ => none

end ScopedStyles.Glob
