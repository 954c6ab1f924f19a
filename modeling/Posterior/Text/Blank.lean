import Posterior.Text.CodePoints

set_option autoImplicit false

namespace Posterior.Text

/-- The code points with bidirectional class space or of a space category. -/
def blanks : CodePoints where
  ranges := [
    (0x9, 0xd), (0x1c, 0x20), (0x85, 0x85), (0xa0, 0xa0), (0x1680, 0x1680), (0x2000, 0x200a),
    (0x2028, 0x2029), (0x202f, 0x202f), (0x205f, 0x205f), (0x3000, 0x3000)
  ]

def isBlank (c : Char) : Bool :=
  blanks.contains c

theorem isBlank_newline : isBlank '\n' = true := by decide

end Posterior.Text
