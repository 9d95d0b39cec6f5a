/-!
# Blanks and words

Blank characters are those with the Unicode property White_Space, control characters those of the
general category Cc. A text is cut into words at blanks, and trimmed of blanks at both ends.
-/

namespace PeerChat.Text

def blankRanges : List (Nat × Nat) :=
  [(0x9, 0xd), (0x20, 0x20), (0x85, 0x85), (0xa0, 0xa0), (0x1680, 0x1680), (0x2000, 0x200a),
   (0x2028, 0x2029), (0x202f, 0x202f), (0x205f, 0x205f), (0x3000, 0x3000)]

/-- Whether a character's code point is in one of the given runs. -/
def inRanges (ranges : List (Nat × Nat)) (c : Char) : Bool :=
  ranges.any fun (first, last) => first ≤ c.toNat && c.toNat ≤ last

def isBlank (c : Char) : Bool := inRanges blankRanges c

def isControl (c : Char) : Bool := c.toNat ≤ 0x1f || (0x7f ≤ c.toNat && c.toNat ≤ 0x9f)

/-- The characters up to the first blank, and the words after them. -/
def cutWord : List Char → List Char × List (List Char)
  | [] => ([], [])
  | c :: rest =>
    let (word, later) := cutWord rest
    if isBlank c then ([], if word.isEmpty then later else word :: later)
    else (c :: word, later)

/-- The longest runs of characters that are not blank. -/
def wordList (cs : List Char) : List (List Char) :=
  let (word, later) := cutWord cs
  if word.isEmpty then later else word :: later

def words (s : String) : List String := (wordList s.toList).map String.ofList

/-- Drops characters from the end as long as they satisfy the test. -/
def dropEnd (p : Char → Bool) (cs : List Char) : List Char := (cs.reverse.dropWhile p).reverse

def trim (s : String) : String := String.ofList (dropEnd isBlank (s.toList.dropWhile isBlank))

def isLineEnd (c : Char) : Bool := c == '\r' || c == '\n'

/-- Drops all line feeds and carriage returns from the end. -/
def trimLineEnd (s : String) : String := String.ofList (dropEnd isLineEnd s.toList)

/-- What follows a given beginning, if the text has it. -/
def dropStart? : (start : List Char) → List Char → Option (List Char)
  | [], cs => some cs
  | _ :: _, [] => none
  | a :: start, c :: cs => if a = c then dropStart? start cs else none

def after? (start s : String) : Option String :=
  (dropStart? start.toList s.toList).map String.ofList

/-- A text that ends in a line feed. -/
def terminated (s : String) : String :=
  if s.toList.getLast? = some '\n' then s else s ++ "\n"

end PeerChat.Text
