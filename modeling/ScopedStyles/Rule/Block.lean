import ScopedStyles.Text.Reader

/-!
# Blocks

A block is what stands between an opening brace and the brace that closes it, or the end of the
text if none does. `flatten` takes the outermost blocks out of a text and leaves a placeholder in
each pair of braces, so that what remains can be read without counting braces. A closing brace that
closes nothing is ordinary text.
-/

namespace ScopedStyles.Block

/-- What stands for a block in a flattened text. -/
def placeholder : Text := "%BLOCK%".toList

/-- A block behind its opening brace, with the text from its closing brace on; `depth` braces are
open inside it. -/
def body : (depth : Nat) → Text → Text × Text
  | _, [] => ([], [])
  | 0, '}' :: t => ([], '}' :: t)
  | depth + 1, '}' :: t => let (b, rest) := body depth t; ('}' :: b, rest)
  | depth, '{' :: t => let (b, rest) := body (depth + 1) t; ('{' :: b, rest)
  | depth, c :: t => let (b, rest) := body depth t; (c :: b, rest)

/-- A block and what follows it make up the text. -/
theorem body_append (depth : Nat) (t : Text) : (body depth t).1 ++ (body depth t).2 = t := by
  fun_induction body depth t <;> simp_all

/-- The opening brace at the head of a text and the block behind it. -/
def read : Text → Option (Text × Text)
  | '{' :: t => some (body 0 t)
  | _ => none

theorem eq_of_read {t b rest : Text} (h : read t = some (b, rest)) : t = '{' :: (b ++ rest) := by
  unfold read at h
  split at h
  · rename_i t
    have := body_append 0 t
    simp only [Option.some.injEq] at h
    rw [h] at this
    rw [this]
  · simp at h

/-- Finds the outermost blocks. -/
def reader : Reader Text where
  read := read
  shorter h := by
    have := congrArg List.length (eq_of_read h)
    simp only [List.length_cons, List.length_append] at this
    omega

/-- A text whose outermost blocks have been taken out. -/
structure Flat where
  /-- The text with a placeholder for each block. -/
  skeleton : Text
  /-- The blocks, in the order of their placeholders. -/
  blocks : List Text
  deriving DecidableEq, Repr

/-- Takes the outermost blocks out of a text. -/
def flatten (t : Text) : Flat where
  skeleton := reader.substitute (fun _ => '{' :: placeholder) t
  blocks := reader.found t

/-- A block is shorter than the text it stands in, which has a brace too. -/
theorem length_lt_of_mem_blocks {t b : Text} (h : b ∈ (flatten t).blocks) :
    b.length < t.length := by
  obtain ⟨s, rest, hs, hread⟩ := Reader.exists_read_of_mem_found h
  have := congrArg List.length (eq_of_read hread)
  simp only [List.length_cons, List.length_append] at this
  omega

end ScopedStyles.Block
