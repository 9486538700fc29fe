set_option relaxedAutoImplicit false
set_option autoImplicit false

/-!
# Camel case

Names of the machine are written in capitals with underscores between their words
(`FCONV_R32_R64`).  In the messages about byte assignments and operands the same names stand in
camel case (`FconvR32R64`).

## Main definitions

* `KeyedVM.Text.camel` — from the capital form to camel case.
-/

namespace KeyedVM.Text

/-- Camel case of a list of characters: an underscore is dropped and starts a word, the first
character of a word stays, every other one is put in lower case. -/
def camelChars (start : Bool) : List Char → List Char
  | [] => []
  | c :: rest =>
    if c = '_' then camelChars true rest
    else (if start then c else c.toLower) :: camelChars false rest

/-- Camel case of a name in capitals, such as `CallvirtConstrained` for
`CALLVIRT_CONSTRAINED`. -/
def camel (name : String) : String := String.ofList (camelChars true name.toList)

end KeyedVM.Text
