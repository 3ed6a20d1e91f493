/-!
# TreeScript — UTF-8

Characters as bytes and back. Reading bytes comes in two kinds: `decode?`
takes well-formed text only, `decodeLossy` takes anything and writes U+FFFD
for each longest piece that could have begun a character but did not.

* `encode` — the bytes of a text;
* `scan` — one step of reading: a character, or the length of a bad piece;
* `decode?`, `decodeLossy` — the two readers.
-/

namespace TreeScript.Utf8

/-- The bytes of one character. -/
def encodeChar (c : Char) : List UInt8 :=
  let n := c.toNat
  if n < 0x80 then [UInt8.ofNat n]
  else if n < 0x800 then [UInt8.ofNat (0xC0 + n / 64), UInt8.ofNat (0x80 + n % 64)]
  else if n < 0x10000 then
    [UInt8.ofNat (0xE0 + n / 4096), UInt8.ofNat (0x80 + n / 64 % 64), UInt8.ofNat (0x80 + n % 64)]
  else
    [UInt8.ofNat (0xF0 + n / 262144), UInt8.ofNat (0x80 + n / 4096 % 64),
      UInt8.ofNat (0x80 + n / 64 % 64), UInt8.ofNat (0x80 + n % 64)]

/-- The bytes of a text. -/
def encode (cs : List Char) : List UInt8 := cs.flatMap encodeChar

/-- A byte that continues a character. -/
def isTail (b : UInt8) : Bool := 0x80 ≤ b && b ≤ 0xBF

/-- The second bytes that may follow a leading byte of three or four. -/
def isSecond (lead b : UInt8) : Bool :=
  if lead == 0xE0 then 0xA0 ≤ b && b ≤ 0xBF
  else if lead == 0xED then 0x80 ≤ b && b ≤ 0x9F
  else if lead == 0xF0 then 0x90 ≤ b && b ≤ 0xBF
  else if lead == 0xF4 then 0x80 ≤ b && b ≤ 0x8F
  else isTail b

/-- The six low bits of a continuing byte. -/
def low (b : UInt8) : Nat := b.toNat % 64

/-- What stands at the beginning of some bytes: a character and the bytes
after it, or the bytes after a piece that is no character. -/
inductive Piece where
  | char (c : Char) (rest : List UInt8)
  | bad (rest : List UInt8)

/-- Reads the piece that begins with `lead`. -/
def scan (lead : UInt8) (rest : List UInt8) : Piece :=
  if lead < 0x80 then .char (Char.ofNat lead.toNat) rest
  else if 0xC2 ≤ lead && lead ≤ 0xDF then
    match rest with
    | b :: rest' =>
      if isTail b then .char (Char.ofNat (lead.toNat % 32 * 64 + low b)) rest' else .bad rest
    | [] => .bad rest
  else if 0xE0 ≤ lead && lead ≤ 0xEF then
    match rest with
    | b :: rest₁ =>
      if isSecond lead b then
        match rest₁ with
        | c :: rest₂ =>
          if isTail c then
            .char (Char.ofNat (lead.toNat % 16 * 4096 + low b * 64 + low c)) rest₂
          else .bad rest₁
        | [] => .bad rest₁
      else .bad rest
    | [] => .bad rest
  else if 0xF0 ≤ lead && lead ≤ 0xF4 then
    match rest with
    | b :: rest₁ =>
      if isSecond lead b then
        match rest₁ with
        | c :: rest₂ =>
          if isTail c then
            match rest₂ with
            | d :: rest₃ =>
              if isTail d then
                .char (Char.ofNat
                  (lead.toNat % 8 * 262144 + low b * 4096 + low c * 64 + low d)) rest₃
              else .bad rest₂
            | [] => .bad rest₂
          else .bad rest₁
        | [] => .bad rest₁
      else .bad rest
    | [] => .bad rest
  else .bad rest

/-- The bytes left over after a piece. -/
def Piece.rest : Piece → List UInt8
  | .char _ rest => rest
  | .bad rest => rest

/-- A piece takes at least its leading byte. -/
theorem scan_rest_length (lead : UInt8) (rest : List UInt8) :
    (scan lead rest).rest.length ≤ rest.length := by
  unfold scan
  repeat' split
  all_goals simp [Piece.rest]
  all_goals omega

/-- Reading goes on with fewer bytes. -/
theorem Piece.rest_lt {lead : UInt8} {bytes : List UInt8} {p : Piece} (h : scan lead bytes = p) :
    p.rest.length < (lead :: bytes).length := by
  have hle := scan_rest_length lead bytes
  rw [h] at hle
  exact Nat.lt_succ_of_le hle

/-- The text that well-formed bytes stand for. -/
def decode? : List UInt8 → Option (List Char)
  | [] => some []
  | lead :: rest =>
    match _h : scan lead rest with
    | .bad _ => none
    | .char c rest' => (decode? rest').map (c :: ·)
termination_by bytes => bytes.length
decreasing_by exact Piece.rest_lt _h

/-- The text that any bytes stand for, with U+FFFD in place of each bad piece. -/
def decodeLossy : List UInt8 → List Char
  | [] => []
  | lead :: rest =>
    match _h : scan lead rest with
    | .bad rest' => '\uFFFD' :: decodeLossy rest'
    | .char c rest' => c :: decodeLossy rest'
termination_by bytes => bytes.length
decreasing_by all_goals exact Piece.rest_lt _h

end TreeScript.Utf8
