import KeyedVM.Text.DotLabel
import Mathlib.Algebra.Ring.Parity
import Mathlib.Data.List.Induction
import Mathlib.Tactic.Lemma

set_option relaxedAutoImplicit false
set_option autoImplicit false

/-!
# Quoted labels are safe

A text is prepared for a quoted label in passes over the whole text.  No pass touches what an
earlier one has written, so each character is replaced on its own.  The backslashes of the result
come in pairs, or stand before the character that they protect.  So no quote of the text can close
the label, and the text can be read back from it, but for carriage returns.

## Main definitions

* `KeyedVM.Text.backslashesAtEnd` — the length of the run of backslashes at the end of a text;
* `KeyedVM.Text.readLabel` — reads a label up to the quote that closes it.

## Main results

* `KeyedVM.Text.escapeDotChars_eq_flatMap` — the passes replace each character on its own;
* `KeyedVM.Text.readLabel_flatMap` — a label is read back;
* `KeyedVM.Text.escapeDot_safe` — labels are safe and lose only carriage returns.
-/

namespace KeyedVM.Text

variable {text front back : List Char} {c : Char}

/-! ## One character after the other -/

/-- What passes make of a text that is put together. -/
lemma foldl_substitute_append (passes : List (Char × List Char)) (front back : List Char) :
    passes.foldl (fun text pass => substitute pass.1 pass.2 text) (front ++ back)
      = passes.foldl (fun text pass => substitute pass.1 pass.2 text) front
        ++ passes.foldl (fun text pass => substitute pass.1 pass.2 text) back := by
  induction passes generalizing front back with
  | nil => rfl
  | cons pass passes ih => rw [List.foldl_cons, substitute, List.flatMap_append, ih]; rfl

/-- The passes turn a single character into what it becomes in a label. -/
lemma escapeDotChars_singleton (c : Char) : escapeDotChars [c] = escapeDotChar c := by
  fun_cases escapeDotChar c with
  | case1 hreturn => exact hreturn ▸ by decide
  | case2 _ hfeed => exact hfeed ▸ by decide
  | case3 _ _ hspecial =>
    simp only [List.mem_cons, List.not_mem_nil, or_false] at hspecial
    rcases hspecial with rfl | rfl | rfl | rfl | rfl | rfl | rfl <;> decide
  | case4 hreturn hfeed hspecial =>
    simp only [List.mem_cons, List.not_mem_nil, or_false, not_or] at hspecial
    simp [escapeDotChars, dotPasses, substitute, hreturn, hfeed, hspecial]

/-- **The passes replace each character on its own.** -/
theorem escapeDotChars_eq_flatMap (text : List Char) :
    escapeDotChars text = text.flatMap escapeDotChar := by
  induction text with
  | nil => rfl
  | cons c text ih =>
    rw [List.flatMap_cons, ← ih, ← escapeDotChars_singleton]
    exact foldl_substitute_append dotPasses [c] text

/-! ## Runs of backslashes -/

/-- The number of backslashes in a row at the end of a text. -/
def backslashesAtEnd (text : List Char) : Nat := (text.reverse.takeWhile (· = '\\')).length

/-- A backslash lengthens the run of backslashes at the end by one. -/
lemma backslashesAtEnd_concat_backslash (text : List Char) :
    backslashesAtEnd (text ++ ['\\']) = backslashesAtEnd text + 1 := by
  rw [backslashesAtEnd, List.reverse_append, List.reverse_singleton, List.singleton_append,
    List.takeWhile_cons_of_pos (by decide), List.length_cons, backslashesAtEnd]

/-- Any other character ends the run of backslashes. -/
lemma backslashesAtEnd_concat (text : List Char) (hc : c ≠ '\\') :
    backslashesAtEnd (text ++ [c]) = 0 := by
  rw [backslashesAtEnd, List.reverse_append, List.reverse_singleton, List.singleton_append,
    List.takeWhile_cons_of_neg (by simpa using hc), List.length_nil]

/-- What a character becomes in a label keeps the run of backslashes at the end even. -/
lemma even_backslashesAtEnd_append (h : Even (backslashesAtEnd text)) (c : Char) :
    Even (backslashesAtEnd (text ++ escapeDotChar c)) := by
  fun_cases escapeDotChar c with
  | case1 => rwa [List.append_nil]
  | case2 =>
    rw [← List.singleton_append, ← List.append_assoc, backslashesAtEnd_concat _ (by decide)]
    exact Even.zero
  | case3 =>
    rw [← List.singleton_append, ← List.append_assoc]
    by_cases hc : c = '\\'
    · rw [hc, backslashesAtEnd_concat_backslash, backslashesAtEnd_concat_backslash]
      exact h.add_one.add_one
    · rw [backslashesAtEnd_concat _ hc]
      exact Even.zero
  | case4 _ _ hspecial =>
    rw [backslashesAtEnd_concat _ fun hc => hspecial (hc ▸ List.mem_cons_self)]
    exact Even.zero

/-- **A label ends in an even run of backslashes.** -/
theorem even_backslashesAtEnd_flatMap (text : List Char) :
    Even (backslashesAtEnd (text.flatMap escapeDotChar)) := by
  induction text using List.reverseRecOn with
  | nil => exact Even.zero
  | append_singleton text c ih =>
    rw [List.flatMap_append, List.flatMap_singleton]
    exact even_backslashesAtEnd_append ih c

/-- The characters of what a character becomes: a backslash, the letter that stands for a line feed,
and characters of the text other than carriage returns and line feeds. -/
lemma mem_escapeDotChar {d : Char} (h : d ∈ escapeDotChar c) :
    d = '\\' ∨ d = 'n' ∨ (d = c ∧ d ≠ '\r' ∧ d ≠ '\n') := by
  unfold escapeDotChar at h
  split at h
  · cases h
  · next hreturn =>
    split at h
    · simp only [List.mem_cons, List.not_mem_nil, or_false] at h
      exact h.imp_right Or.inl
    · next hfeed =>
      have hkept : d = c → d = c ∧ d ≠ '\r' ∧ d ≠ '\n' :=
        fun heq => ⟨heq, heq ▸ hreturn, heq ▸ hfeed⟩
      split at h <;> simp only [List.mem_cons, List.not_mem_nil, or_false] at h
      · exact h.imp_right fun heq => Or.inr (hkept heq)
      · exact Or.inr (Or.inr (hkept h))

/-- A quote stands behind one backslash in what a character becomes. -/
lemma eq_of_escapeDotChar_eq (h : escapeDotChar c = front ++ '"' :: back) : front = ['\\'] := by
  have hquote : '"' ∈ escapeDotChar c := h ▸ List.mem_append_right _ List.mem_cons_self
  obtain ⟨rfl, -⟩ : '"' = c ∧ _ :=
    ((mem_escapeDotChar hquote).resolve_left (by decide)).resolve_left (by decide)
  rw [show escapeDotChar '"' = ['\\', '"'] by decide] at h
  match front, h with
  | [], h => exact absurd (List.cons.inj h).1 (by decide)
  | [d], h => rw [(List.cons.inj h).1]
  | _ :: _ :: _, h => simp at h

/-- **Every quote in a label stands behind an odd run of backslashes.**

**Proof sketch.** Induction on the text from its end.  In what the last character becomes, a quote
stands behind one backslash, and before that comes an even run. -/
theorem odd_backslashesAtEnd_of_quote (h : text.flatMap escapeDotChar = front ++ '"' :: back) :
    Odd (backslashesAtEnd front) := by
  induction text using List.reverseRecOn generalizing back with
  | nil => simp at h
  | append_singleton text c ih =>
    rw [List.flatMap_append, List.flatMap_singleton] at h
    rcases List.append_eq_append_iff.1 h with ⟨between, rfl, hlast⟩ | ⟨between, hfront, hquote⟩
    · rw [eq_of_escapeDotChar_eq hlast, backslashesAtEnd_concat_backslash]
      exact (even_backslashesAtEnd_flatMap text).add_one
    · rcases List.cons_eq_append_iff.1 hquote with ⟨-, hlast⟩ | ⟨rest, rfl, -⟩
      · have hnone : [] = ['\\'] := eq_of_escapeDotChar_eq hlast
        cases hnone
      · exact ih hfront

/-- A label holds neither line feeds nor carriage returns. -/
lemma not_mem_flatMap_escapeDotChar (text : List Char) :
    '\n' ∉ text.flatMap escapeDotChar ∧ '\r' ∉ text.flatMap escapeDotChar := by
  constructor
  · intro hmem
    obtain ⟨c, -, hc⟩ := List.mem_flatMap.1 hmem
    rcases mem_escapeDotChar hc with h | h | ⟨-, -, h⟩
    · exact absurd h (by decide)
    · exact absurd h (by decide)
    · exact h rfl
  · intro hmem
    obtain ⟨c, -, hc⟩ := List.mem_flatMap.1 hmem
    rcases mem_escapeDotChar hc with h | h | ⟨-, h, -⟩
    · exact absurd h (by decide)
    · exact absurd h (by decide)
    · exact h rfl

/-! ## Reading a label back -/

/-- Reads a label up to the quote that closes it, and gives the text of the label and what stands
behind the quote.  A backslash protects the character behind it, which stands for itself unless it
is an `n`, which stands for a line feed. -/
def readLabel : List Char → Option (List Char × List Char)
  | [] => none
  | '"' :: behind => some ([], behind)
  | ['\\'] => none
  | '\\' :: 'n' :: rest => (readLabel rest).map fun label => ('\n' :: label.1, label.2)
  | '\\' :: c :: rest => (readLabel rest).map fun label => (c :: label.1, label.2)
  | c :: rest => (readLabel rest).map fun label => (c :: label.1, label.2)

/-- Reading what one character becomes. -/
lemma readLabel_append (c : Char) (rest : List Char) :
    readLabel (escapeDotChar c ++ rest) = (readLabel rest).map fun label =>
      ([c].filter (· ≠ '\r') ++ label.1, label.2) := by
  fun_cases escapeDotChar c with
  | case1 hreturn => simp [hreturn]
  | case2 _ hfeed => simp [hfeed, readLabel]
  | case3 _ _ hspecial =>
    simp only [List.mem_cons, List.not_mem_nil, or_false] at hspecial
    rcases hspecial with rfl | rfl | rfl | rfl | rfl | rfl | rfl <;> simp [readLabel]
  | case4 hreturn _ hspecial =>
    simp only [List.mem_cons, List.not_mem_nil, or_false, not_or] at hspecial
    simp [readLabel, hreturn, hspecial]

/-- **A label is read back**, whatever stands behind it, but for carriage returns. -/
theorem readLabel_flatMap (text behind : List Char) :
    readLabel (text.flatMap escapeDotChar ++ '"' :: behind)
      = some (text.filter (· ≠ '\r'), behind) := by
  induction text with
  | nil => simp [readLabel]
  | cons c text ih =>
    rw [List.flatMap_cons, List.append_assoc, readLabel_append, ih, Option.map_some,
      ← List.filter_append, List.singleton_append]

/-- Carriage returns leave nothing in a label. -/
lemma flatMap_filter_escapeDotChar (text : List Char) :
    (text.filter (· ≠ '\r')).flatMap escapeDotChar = text.flatMap escapeDotChar := by
  induction text with
  | nil => rfl
  | cons c text ih =>
    rw [List.flatMap_cons, ← ih]
    by_cases hc : c = '\r'
    · rw [List.filter_cons_of_neg (by simpa using hc), hc]
      rfl
    · rw [List.filter_cons_of_pos (by simpa using hc), List.flatMap_cons]

/-- **Labels are safe and lose only carriage returns.**  Each character is replaced on its own.
Inside a label every quote stands behind an odd run of backslashes, and at its end the run is even;
there are no line feeds and no carriage returns.  So a label is read up to the quote that was put
behind it.  Two texts have the same label exactly if they are the same without carriage returns. -/
theorem escapeDot_safe (s : String) :
    (escapeDot s).toList = s.toList.flatMap escapeDotChar ∧
    (∀ front back, (escapeDot s).toList = front ++ '"' :: back → Odd (backslashesAtEnd front)) ∧
    Even (backslashesAtEnd (escapeDot s).toList) ∧
    ('\n' ∉ (escapeDot s).toList ∧ '\r' ∉ (escapeDot s).toList) ∧
    (∀ behind, readLabel ((escapeDot s).toList ++ '"' :: behind)
      = some (s.toList.filter (· ≠ '\r'), behind)) ∧
    ∀ t : String, escapeDot s = escapeDot t ↔
      s.toList.filter (· ≠ '\r') = t.toList.filter (· ≠ '\r') := by
  have hlabel : ∀ t : String, (escapeDot t).toList = t.toList.flatMap escapeDotChar := by
    intro t
    rw [escapeDot, String.toList_ofList, escapeDotChars_eq_flatMap]
  refine ⟨hlabel s, ?_, ?_, ?_, fun behind => ?_, fun t => ⟨fun h => ?_, fun h => ?_⟩⟩
  · rw [hlabel]
    exact fun front back => odd_backslashesAtEnd_of_quote
  · rw [hlabel]
    exact even_backslashesAtEnd_flatMap _
  · rw [hlabel]
    exact not_mem_flatMap_escapeDotChar _
  · rw [hlabel, readLabel_flatMap]
  · have hread := readLabel_flatMap s.toList []
    rw [← hlabel, h, hlabel, readLabel_flatMap] at hread
    exact (Prod.mk.inj (Option.some.inj hread)).1.symm
  · rw [← String.toList_inj, hlabel, hlabel, ← flatMap_filter_escapeDotChar, h,
      flatMap_filter_escapeDotChar]

/-- A label with all kinds of special characters: no quote is bare after escaping, and a carriage
return is lost. -/
theorem escapeDot_safe_mixed :
    (escapeDot "a\\\"<\r\n").toList = ['a', '\\', '\\', '\\', '"', '\\', '<', '\\', 'n'] ∧
    Odd (backslashesAtEnd ['a', '\\', '\\', '\\']) ∧
    escapeDot "a\\\"<\r\n" = escapeDot "a\\\"<\n" := by
  obtain ⟨hlabel, hquote, -, -, -, hsame⟩ := escapeDot_safe "a\\\"<\r\n"
  have htext : (escapeDot "a\\\"<\r\n").toList
      = ['a', '\\', '\\', '\\', '"', '\\', '<', '\\', 'n'] := hlabel.trans (by decide)
  exact ⟨htext, hquote _ ['\\', '<', '\\', 'n'] htext, (hsame "a\\\"<\n").2 (by decide)⟩

end KeyedVM.Text
