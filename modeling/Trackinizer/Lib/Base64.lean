import Mathlib.Tactic.SplitIfs

/-! Base64 with padding, over bytes and code points. -/

namespace Base64

/-- The code point of a digit below 64. -/
def digit (n : Nat) : Nat :=
  if n < 26 then 0x41 + n
  else if n < 52 then 0x61 + (n - 26)
  else if n < 62 then 0x30 + (n - 52)
  else if n = 62 then 0x2b
  else 0x2f

def value (c : Nat) : Option Nat :=
  if 0x41 ≤ c ∧ c ≤ 0x5a then some (c - 0x41)
  else if 0x61 ≤ c ∧ c ≤ 0x7a then some (c - 0x61 + 26)
  else if 0x30 ≤ c ∧ c ≤ 0x39 then some (c - 0x30 + 52)
  else if c = 0x2b then some 62
  else if c = 0x2f then some 63
  else none

/-- `=`. -/
def pad : Nat := 0x3d

/-- `base64.b64encode`. -/
def encode : List UInt8 → List Nat
  | [] => []
  | [a] => [digit (a.toNat / 4), digit (a.toNat % 4 * 16), pad, pad]
  | [a, b] =>
      [digit (a.toNat / 4), digit (a.toNat % 4 * 16 + b.toNat / 16), digit (b.toNat % 16 * 4), pad]
  | a :: b :: c :: rest =>
      digit (a.toNat / 4) :: digit (a.toNat % 4 * 16 + b.toNat / 16) ::
        digit (b.toNat % 16 * 4 + c.toNat / 64) :: digit (c.toNat % 64) :: encode rest

/-- `base64.b64decode` that validates: whole groups of four digits, of which only the last may
be padded. -/
def decode : List Nat → Option (List UInt8)
  | [] => some []
  | w :: x :: y :: z :: rest =>
      if rest = [] ∧ y = pad ∧ z = pad then do
        let p ← value w
        let q ← value x
        return [UInt8.ofNat (p * 4 + q / 16)]
      else if rest = [] ∧ z = pad then do
        let p ← value w
        let q ← value x
        let r ← value y
        return [UInt8.ofNat (p * 4 + q / 16), UInt8.ofNat (q % 16 * 16 + r / 4)]
      else do
        let p ← value w
        let q ← value x
        let r ← value y
        let s ← value z
        let bytes ← decode rest
        return UInt8.ofNat (p * 4 + q / 16) :: UInt8.ofNat (q % 16 * 16 + r / 4) ::
          UInt8.ofNat (r % 4 * 64 + s) :: bytes
  | _ => none

theorem value_digit {n : Nat} (h : n < 64) : value (digit n) = some n := by
  unfold digit value
  split
  next => rw [if_pos (by omega)]; congr 1; omega
  next =>
    split
    next => rw [if_neg (by omega), if_pos (by omega)]; congr 1; omega
    next =>
      split
      next => rw [if_neg (by omega), if_neg (by omega), if_pos (by omega)]; congr 1; omega
      next =>
        split
        next => simp; omega
        next => simp; omega

theorem digit_ne_pad (n : Nat) : digit n ≠ pad := by
  unfold digit pad
  split_ifs <;> omega

theorem ofNat_of_eq {a : UInt8} {n : Nat} (h : n = a.toNat) : UInt8.ofNat n = a := by
  rw [h, UInt8.ofNat_toNat]

theorem decode_encode (bytes : List UInt8) : decode (encode bytes) = some bytes := by
  induction bytes using encode.induct with
  | case1 => rfl
  | case2 a =>
      have ha := a.toNat_lt
      have hbyte : UInt8.ofNat (a.toNat / 4 * 4 + a.toNat % 4 * 16 / 16) = a :=
        ofNat_of_eq (by omega)
      rw [encode, decode, if_pos ⟨rfl, rfl, rfl⟩, value_digit (by omega), value_digit (by omega)]
      exact congrArg (fun b => some [b]) hbyte
  | case3 a b =>
      have ha := a.toNat_lt
      have hb := b.toNat_lt
      have hfirst : UInt8.ofNat (a.toNat / 4 * 4 + (a.toNat % 4 * 16 + b.toNat / 16) / 16) = a :=
        ofNat_of_eq (by omega)
      have hsecond : UInt8.ofNat ((a.toNat % 4 * 16 + b.toNat / 16) % 16 * 16 +
          b.toNat % 16 * 4 / 4) = b :=
        ofNat_of_eq (by omega)
      rw [encode, decode, if_neg (fun h => digit_ne_pad _ h.2.1), if_pos ⟨rfl, rfl⟩,
        value_digit (by omega), value_digit (by omega), value_digit (by omega)]
      show some [_, _] = _
      rw [hfirst, hsecond]
  | case4 a b c rest ih =>
      have ha := a.toNat_lt
      have hb := b.toNat_lt
      have hc := c.toNat_lt
      have hfirst : UInt8.ofNat (a.toNat / 4 * 4 + (a.toNat % 4 * 16 + b.toNat / 16) / 16) = a :=
        ofNat_of_eq (by omega)
      have hsecond : UInt8.ofNat ((a.toNat % 4 * 16 + b.toNat / 16) % 16 * 16 +
          (b.toNat % 16 * 4 + c.toNat / 64) / 4) = b :=
        ofNat_of_eq (by omega)
      have hthird : UInt8.ofNat ((b.toNat % 16 * 4 + c.toNat / 64) % 4 * 64 + c.toNat % 64) = c :=
        ofNat_of_eq (by omega)
      rw [encode, decode, if_neg (fun h => digit_ne_pad _ h.2.1),
        if_neg (fun h => digit_ne_pad _ h.2), value_digit (by omega), value_digit (by omega),
        value_digit (by omega), value_digit (by omega), ih]
      show some (_ :: _ :: _ :: rest) = _
      rw [hfirst, hsecond, hthird]

end Base64
