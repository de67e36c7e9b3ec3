/-!
# Reading bytes as UTF-8

Text is stored as bytes, which need not be UTF-8. `pieces` reads them from left to right into
characters and ill-formed pieces. An ill-formed piece is as long as it can be while still starting
some character, so a byte that cannot continue the character begun before it starts afresh.

* `decode?`: the text, when no piece is ill-formed.
* `decodeLossy`: the text with each ill-formed piece replaced by one replacement character.
-/

namespace QueryEngine.Utf8

/-- The least and the greatest value that a byte may have. -/
structure Interval where
  low : UInt8
  high : UInt8

def Interval.contains (i : Interval) (b : UInt8) : Bool := i.low ≤ b && b ≤ i.high

/-- A continuation byte. -/
def tail : Interval := ⟨0x80, 0xBF⟩

/-- A character of several bytes of which some are read: the bits so far, the interval of the byte
that has to follow, and the intervals of those after it. -/
structure Begun where
  code : Nat
  following : Interval
  later : List Interval

/-- What a first byte gives: the pieces it ends, and the character it begins. The second byte of a
character is restricted where a wider interval would allow an overlong form, a surrogate or a code
past the last one. -/
def leading (b : UInt8) : List (Option Char) × Option Begun :=
  let begin (bits : UInt8) (following : Interval) (later : List Interval) :
      List (Option Char) × Option Begun := ([], some ⟨(b - bits).toNat, following, later⟩)
  if b < 0x80 then ([some (Char.ofNat b.toNat)], none)
  else if b < 0xC2 then ([none], none)
  else if b < 0xE0 then begin 0xC0 tail []
  else if b = 0xE0 then begin 0xE0 ⟨0xA0, 0xBF⟩ [tail]
  else if b = 0xED then begin 0xE0 ⟨0x80, 0x9F⟩ [tail]
  else if b < 0xF0 then begin 0xE0 tail [tail]
  else if b = 0xF0 then begin 0xF0 ⟨0x90, 0xBF⟩ [tail, tail]
  else if b < 0xF4 then begin 0xF0 tail [tail, tail]
  else if b = 0xF4 then begin 0xF0 ⟨0x80, 0x8F⟩ [tail, tail]
  else ([none], none)

/-- One byte further. -/
def step : Option Begun → UInt8 → List (Option Char) × Option Begun
  | none, b => leading b
  | some begun, b =>
    if begun.following.contains b then
      let code := begun.code * 64 + b.toNat % 64
      match begun.later with
      | [] => ([some (Char.ofNat code)], none)
      | following :: later => ([], some ⟨code, following, later⟩)
    else
      let (ended, next) := leading b
      (none :: ended, next)

/-- The characters of `bytes`, with `none` for each ill-formed piece, when a character may have
begun before them. -/
def piecesFrom : Option Begun → List UInt8 → List (Option Char)
  | none, [] => []
  | some _, [] => [none]
  | begun, b :: bytes =>
    let (ended, next) := step begun b
    ended ++ piecesFrom next bytes

/-- The characters of `bytes`, with `none` for each ill-formed piece. -/
def pieces (bytes : List UInt8) : List (Option Char) := piecesFrom none bytes

/-- The text that `bytes` are the UTF-8 form of, if any. -/
def decode? (bytes : List UInt8) : Option String := ((pieces bytes).mapM id).map String.ofList

/-- The text of `bytes`, with U+FFFD for each ill-formed piece. -/
def decodeLossy (bytes : List UInt8) : String :=
  String.ofList ((pieces bytes).map (·.getD '\uFFFD'))

end QueryEngine.Utf8
