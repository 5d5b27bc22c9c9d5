/-!
# Blank characters

The characters Unicode calls white space, and text without them at either end.
-/
namespace KeyedLog.Text

/-- The characters with the property `White_Space`. -/
def isBlank (c : Char) : Bool :=
  let n := c.toNat
  (9 ≤ n && n ≤ 13) || n == 0x20 || n == 0x85 || n == 0xA0 || n == 0x1680 ||
    (0x2000 ≤ n && n ≤ 0x200A) || n == 0x2028 || n == 0x2029 || n == 0x202F || n == 0x205F ||
    n == 0x3000

def trimStart (cs : List Char) : List Char := cs.dropWhile isBlank

/-- The characters without the blank ones at both ends. -/
def trimChars (cs : List Char) : List Char :=
  (trimStart (trimStart cs).reverse).reverse

def trim (text : String) : String := String.ofList (trimChars text.toList)

/-- Whether a text has no character other than blank ones. -/
def isAllBlank (text : String) : Bool := text.toList.all isBlank

/-- A to Z become a to z; every other character stays. -/
def lower (text : String) : String := String.ofList (text.toList.map Char.toLower)

/-- A text that says nothing counts as absent. -/
def nonBlank? (text : String) : Option String := if isAllBlank text then none else some text

end KeyedLog.Text
