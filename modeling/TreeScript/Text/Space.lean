/-!
# TreeScript — white space

Which characters count as white space, and what it means to trim a text.
The set is the Unicode property `White_Space`; the zero-width space and the
byte order mark are not in it. Texts are lists of characters here, as in
every module that reads or writes text.

* `isSpace` — the property, as a test on code points;
* `trimStart`, `trimEnd`, `trim` — texts without white space at their ends.
-/

namespace TreeScript.Text

/-- Whether `c` has the Unicode property `White_Space`. -/
def isSpace (c : Char) : Bool :=
  let n := c.toNat
  (9 ≤ n && n ≤ 13) || n == 0x20 || n == 0x85 || n == 0xA0 || n == 0x1680
    || (0x2000 ≤ n && n ≤ 0x200A) || n == 0x2028 || n == 0x2029 || n == 0x202F
    || n == 0x205F || n == 0x3000

/-- A space or a tab: what may stand between a closing quote and the line end. -/
def isBlank (c : Char) : Bool := c == ' ' || c == '\t'

/-- A character that ends a line. -/
def isLineEnd (c : Char) : Bool := c == '\n' || c == '\r'

/-- The text without the white space in front. -/
def trimStart (cs : List Char) : List Char := cs.dropWhile isSpace

/-- The text without the white space at its end. -/
def trimEnd (cs : List Char) : List Char := (cs.reverse.dropWhile isSpace).reverse

/-- The text without the white space at both ends. -/
def trim (cs : List Char) : List Char := trimEnd (trimStart cs)

/-- `trim` on strings. -/
def trimmed (s : String) : List Char := trim s.toList

/-- Cuts a text where `p` fails for the first time. -/
def splitWhile (p : Char → Bool) (cs : List Char) : List Char × List Char :=
  (cs.takeWhile p, cs.dropWhile p)

theorem dropWhile_length_le (p : Char → Bool) (cs : List Char) :
    (cs.dropWhile p).length ≤ cs.length :=
  (List.dropWhile_sublist p).length_le

-- ---------------------------------------------------------------------------
-- Letter case
-- ---------------------------------------------------------------------------

/-- The text with the letters `A`–`Z` in lower case and all else unchanged. -/
def foldCase (cs : List Char) : List Char := cs.map Char.toLower

/-- Whether two texts agree up to the case of the letters `A`–`Z`. -/
def sameFolded (a b : List Char) : Bool := foldCase a == foldCase b

/-- Whether `front` is a beginning of `cs`, up to the case of the letters `A`–`Z`. -/
def startsFolded (cs front : List Char) : Bool := (foldCase front).isPrefixOf (foldCase cs)

end TreeScript.Text
