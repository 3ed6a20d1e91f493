/-!
# TreeScript — base 64

Bytes as text over the alphabet `A`–`Z a`–`z 0`–`9 + /`, three bytes to four
characters, with `=` filling up the last group. Reading is strict: the
filling has to be there and the bits it leaves unused have to be zero, so
each list of bytes has one text only.

* `encode`, `decode?` — the two directions.
-/

namespace TreeScript.Base64

/-- The character of a six-bit number. -/
def symbol (n : Nat) : Char :=
  if n < 26 then Char.ofNat ('A'.toNat + n)
  else if n < 52 then Char.ofNat ('a'.toNat + (n - 26))
  else if n < 62 then Char.ofNat ('0'.toNat + (n - 52))
  else if n = 62 then '+'
  else '/'

/-- The six-bit number of a character of the alphabet. -/
def sextet? (c : Char) : Option Nat :=
  if 'A' ≤ c ∧ c ≤ 'Z' then some (c.toNat - 'A'.toNat)
  else if 'a' ≤ c ∧ c ≤ 'z' then some (c.toNat - 'a'.toNat + 26)
  else if '0' ≤ c ∧ c ≤ '9' then some (c.toNat - '0'.toNat + 52)
  else if c = '+' then some 62
  else if c = '/' then some 63
  else none

/-- The text of some bytes. -/
def encode : List UInt8 → List Char
  | [] => []
  | [a] =>
    let n := a.toNat * 16
    [symbol (n / 64), symbol (n % 64), '=', '=']
  | [a, b] =>
    let n := (a.toNat * 256 + b.toNat) * 4
    [symbol (n / 4096), symbol (n / 64 % 64), symbol (n % 64), '=']
  | a :: b :: c :: rest =>
    let n := a.toNat * 65536 + b.toNat * 256 + c.toNat
    symbol (n / 262144) :: symbol (n / 4096 % 64) :: symbol (n / 64 % 64) :: symbol (n % 64)
      :: encode rest

/-- The bytes of a full group of four characters. -/
def group? (w x y z : Char) : Option (List UInt8) := do
  let n := (← sextet? w) * 262144 + (← sextet? x) * 4096 + (← sextet? y) * 64 + (← sextet? z)
  some [UInt8.ofNat (n / 65536), UInt8.ofNat (n / 256 % 256), UInt8.ofNat (n % 256)]

/-- The bytes of a last group, which may be filled up; unused bits are zero. -/
def last? (w x y z : Char) : Option (List UInt8) :=
  if z = '=' then
    if y = '=' then do
      let n := (← sextet? w) * 64 + (← sextet? x)
      if n % 16 = 0 then some [UInt8.ofNat (n / 16)] else none
    else do
      let n := (← sextet? w) * 4096 + (← sextet? x) * 64 + (← sextet? y)
      if n % 4 = 0 then some [UInt8.ofNat (n / 1024), UInt8.ofNat (n / 4 % 256)] else none
  else group? w x y z

/-- The bytes that a text stands for. -/
def decode? : List Char → Option (List UInt8)
  | [] => some []
  | [w, x, y, z] => last? w x y z
  | w :: x :: y :: z :: rest => do
    let front ← group? w x y z
    let back ← decode? rest
    some (front ++ back)
  | _ => none

end TreeScript.Base64
