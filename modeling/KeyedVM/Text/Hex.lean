set_option relaxedAutoImplicit false
set_option autoImplicit false

/-!
# Hexadecimal text

Offsets, keys and ids are shown in lower-case hexadecimal, filled with zeros on the left up to a
width that depends on the place; a longer number keeps all its digits.

## Main definitions

* `KeyedVM.Text.hex` — the digits, at least `width` of them;
* `KeyedVM.Text.hex0x` — the same behind the mark `0x`;
* `KeyedVM.Text.commaSeparated` — a list of texts joined by a comma and a blank.
-/

namespace KeyedVM.Text

/-- The lower-case hexadecimal digits of `n`, filled with zeros on the left to `width` digits. -/
def hex (width n : Nat) : String :=
  let digits := Nat.toDigits 16 n
  String.ofList (List.replicate (width - digits.length) '0' ++ digits)

/-- The hexadecimal form of `n` behind the mark `0x`. -/
def hex0x (width n : Nat) : String := "0x" ++ hex width n

/-- Texts joined by a comma and a blank. -/
def commaSeparated (texts : List String) : String := String.intercalate ", " texts

end KeyedVM.Text
