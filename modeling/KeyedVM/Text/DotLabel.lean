set_option relaxedAutoImplicit false
set_option autoImplicit false

/-!
# Quoted labels of Graphviz graphs

Inside a quoted label a backslash, a quote and the separators of record labels stand behind a
backslash, a line feed is written as backslash and `n`, and carriage returns are dropped.  The
text is prepared in nine passes, each of which replaces one character everywhere; the backslash
comes first, so that no later pass doubles a backslash that an earlier one wrote.

## Main definitions

* `KeyedVM.Text.substitute` — one pass;
* `KeyedVM.Text.escapeDot` — the nine passes in order;
* `KeyedVM.Text.escapeDotChar` — what becomes of a single character.
-/

namespace KeyedVM.Text

/-- One pass: every `c` of the text gives way to `replacement`. -/
def substitute (c : Char) (replacement : List Char) (text : List Char) : List Char :=
  text.flatMap fun d => if d = c then replacement else [d]

/-- The passes that prepare a text for a quoted label, first to last. -/
def dotPasses : List (Char × List Char) :=
  [('\\', ['\\', '\\']), ('"', ['\\', '"']), ('\n', ['\\', 'n']), ('\r', []),
    ('<', ['\\', '<']), ('>', ['\\', '>']), ('\x7b', ['\\', '\x7b']),
    ('\x7d', ['\\', '\x7d']), ('|', ['\\', '|'])]

/-- A list of characters after all passes. -/
def escapeDotChars (text : List Char) : List Char :=
  dotPasses.foldl (fun text pass => substitute pass.1 pass.2 text) text

/-- A text made safe for a quoted label. -/
def escapeDot (text : String) : String := String.ofList (escapeDotChars text.toList)

/-- What a single character becomes in a quoted label: nothing for a carriage return, backslash
and `n` for a line feed, the character behind a backslash if it is special, and otherwise the
character itself. -/
def escapeDotChar (c : Char) : List Char :=
  if c = '\r' then []
  else if c = '\n' then ['\\', 'n']
  else if c ∈ ['\\', '"', '<', '>', '\x7b', '\x7d', '|'] then ['\\', c]
  else [c]

end KeyedVM.Text
