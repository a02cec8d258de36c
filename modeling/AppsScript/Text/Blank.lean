import AppsScript.Text.Basic

/-!
# White space

The characters with the Unicode property White_Space, and trimming by them. The byte order mark is
not one of them.
-/

namespace AppsScript

/-- The Unicode property White_Space. -/
def Text.isBlank (c : Char) : Bool :=
  let n := c.toNat
  (9 ≤ n && n ≤ 13) || n == 0x20 || n == 0x85 || n == 0xa0 || n == 0x1680 ||
    (0x2000 ≤ n && n ≤ 0x200a) || n == 0x2028 || n == 0x2029 || n == 0x202f || n == 0x205f ||
    n == 0x3000

namespace Text

/-- `text` without the white space it starts with. -/
def trimStart (text : Text) : Text := text.dropWhile isBlank

/-- `text` without the white space it ends with. -/
def trimEnd (text : Text) : Text := (text.reverse.dropWhile isBlank).reverse

/-- `text` without the white space at either end. -/
def trim (text : Text) : Text := trimEnd (trimStart text)

end Text

end AppsScript
