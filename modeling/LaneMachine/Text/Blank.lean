set_option autoImplicit false

/-!
# Blanks and words

A text is cut into words at white space.  White space is the Unicode property of that
name: 25 characters, of which `isBlank` is the table.

Main statement: a blank between two texts separates their words (`words_append_blank`).
-/

namespace LaneMachine

namespace Text

/-- Whether a character is white space. -/
def isBlank (c : Char) : Bool :=
  let n := c.toNat
  (0x09 ≤ n && n ≤ 0x0d) || n == 0x20 || n == 0x85 || n == 0xa0 || n == 0x1680 ||
    (0x2000 ≤ n && n ≤ 0x200a) || n == 0x2028 || n == 0x2029 || n == 0x202f || n == 0x205f ||
    n == 0x3000

/-- The words of a text whose first word has already begun with `begun`, last character first. -/
def wordsFrom : (begun : List Char) → List Char → List (List Char)
  | begun, [] => if begun.isEmpty then [] else [begun.reverse]
  | begun, c :: text =>
    if isBlank c then
      if begun.isEmpty then wordsFrom [] text else begun.reverse :: wordsFrom [] text
    else wordsFrom (c :: begun) text

/-- The longest runs of characters that are not white space, in order. -/
def words (text : List Char) : List (List Char) :=
  wordsFrom [] text

theorem wordsFrom_append_blank (begun text more : List Char) (blank : Char)
    (h : isBlank blank = true) :
    wordsFrom begun (text ++ blank :: more) = wordsFrom begun text ++ words more := by
  induction text generalizing begun with
  | nil =>
    simp only [List.nil_append, wordsFrom, h, if_true, words]
    split <;> simp
  | cons c text ih =>
    simp only [List.cons_append, wordsFrom, ih]
    split
    · split <;> simp
    · rfl

/-- A blank between two texts separates their words. -/
theorem words_append_blank (text more : List Char) (blank : Char) (h : isBlank blank = true) :
    words (text ++ blank :: more) = words text ++ words more :=
  wordsFrom_append_blank [] text more blank h

end Text

end LaneMachine
