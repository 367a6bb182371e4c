/-!
Lines of a byte stream. A line ends at a line feed, and a carriage return right before the feed
belongs to the line end. Lines are cut before they are decoded, so bytes that are no UTF-8 spoil only
their own line.
-/

namespace FilterSql.Text

def dropReturn : List UInt8 → List UInt8
  | 13 :: rest => rest
  | bytes => bytes

/-- The lines of a stream whose current line has been read backwards up to here. -/
def linesFrom (read : List UInt8) : List UInt8 → List (List UInt8)
  | [] => if read.isEmpty then [] else [read.reverse]
  | 10 :: rest => (dropReturn read).reverse :: linesFrom [] rest
  | byte :: rest => linesFrom (byte :: read) rest

def lines (bytes : List UInt8) : List (List UInt8) := linesFrom [] bytes

def decode? (bytes : List UInt8) : Option String := String.fromUTF8? ⟨bytes.toArray⟩

end FilterSql.Text
