import SeaClaw.Tools.PatchTable

/-!
# Patches that fit

The changes of a file come in the order of its lines. Where a patch has their hunks in the other
order, each header names a line that no hunk before has moved, and the tool makes the changes.
-/

namespace SeaClaw.Tools

open SeaClaw.Lib

/-- The texts that a hunk leaves in the file. -/
def newTexts (body : List HunkLine) : List Bytes :=
  body.filterMap fun
    | .removed _ => none
    | .added t => some t
    | .kept t => some t

/-- A change: the lines in front of it that stay, and the lines of its hunk. -/
structure Change where
  gap : List Bytes
  body : List HunkLine

/-- The lines that the hunks before have added, and those that they have removed, are as many,
where a hunk has lines of the file; where it has none there is one less. -/
def Placed : ℤ → List Change → Prop
  | _, [] => True
  | moved, c :: cs =>
    moved = (if oldTexts c.body = [] then -1 else 0) ∧
      Placed (moved + (newTexts c.body).length - (oldTexts c.body).length) cs

instance decidablePlaced : ∀ moved cs, Decidable (Placed moved cs)
  | _, [] => isTrue trivial
  | moved, c :: cs =>
    have := decidablePlaced (moved + (newTexts c.body).length - (oldTexts c.body).length) cs
    inferInstanceAs (Decidable (_ ∧ Placed _ cs))

end SeaClaw.Tools
