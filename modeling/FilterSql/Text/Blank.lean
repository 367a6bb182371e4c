/-!
Blank characters: the code points with the Unicode property White_Space. Names are quoted because
of them and input lines made only of them are skipped, so the class has to be the whole property
and not its ASCII part.
-/

namespace FilterSql.Text

/-- The White_Space code points as closed ranges, in increasing order. -/
def blankRanges : List (Nat × Nat) :=
  [(0x09, 0x0d), (0x20, 0x20), (0x85, 0x85), (0xa0, 0xa0), (0x1680, 0x1680), (0x2000, 0x200a),
   (0x2028, 0x2029), (0x202f, 0x202f), (0x205f, 0x205f), (0x3000, 0x3000)]

def isBlank (c : Char) : Bool :=
  blankRanges.any fun r => r.1 ≤ c.toNat && c.toNat ≤ r.2

end FilterSql.Text
