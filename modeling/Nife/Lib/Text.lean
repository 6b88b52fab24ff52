/-
Text as lists of characters, with the operations a line-oriented format is read by: `lines`,
`trim` and the words between single spaces (`List.splitOn ' '`).  White space is Unicode's.

Two things make a format read back.  A text made of lines, each ended by a newline, has those
lines (`lines_unlines`), provided none holds a newline or ends in a carriage return; and a line
that begins and ends with something other than white space is its own trim (`trim_eq_self`).
-/
import Mathlib.Data.List.DropRight

/-- A string, character by character. -/
abbrev Text := List Char

namespace Text

open List

variable {t l : Text} {ls : List Text}

/-- The Unicode white-space property. -/
def isWhitespace (c : Char) : Bool :=
  let v := c.val.toNat
  (9 ≤ v && v ≤ 13) || v == 0x20 || v == 0x85 || v == 0xa0 || v == 0x1680 ||
    (0x2000 ≤ v && v ≤ 0x200a) || v == 0x2028 || v == 0x2029 || v == 0x202f || v == 0x205f ||
    v == 0x3000

/-- Without the white space at both ends. -/
def trim (l : Text) : Text := (l.dropWhile isWhitespace).rdropWhile isWhitespace

/-- Without one carriage return at the end. -/
def stripCr (l : Text) : Text := if l.getLast? = some '\r' then l.dropLast else l

/-- The lines of a text: what each newline ends, and what is left after the last one. -/
def lines (t : Text) : List Text :=
  let pieces := t.splitOn '\n'
  pieces.dropLast.map stripCr ++ if pieces.getLast? = some [] then [] else pieces.getLast?.toList

def unlines (ls : List Text) : Text := ls.flatMap (· ++ ['\n'])

/-- The bytes of a text in UTF-8. -/
def bytes (t : Text) : List UInt8 := t.flatMap String.utf8EncodeChar

theorem bytes_append (t l : Text) : bytes (t ++ l) = bytes t ++ bytes l := flatMap_append ..

theorem unlines_append (ls ls' : List Text) : unlines (ls ++ ls') = unlines ls ++ unlines ls' :=
  flatMap_append ..

theorem unlines_eq_intercalate (ls : List Text) : unlines ls = ['\n'].intercalate (ls ++ [[]]) := by
  induction ls with
  | nil => rfl
  | cons l ls ih =>
    have hrest : ls ++ [([] : Text)] ≠ [] := by simp
    have hcons : ['\n'].intercalate (l :: (ls ++ [[]])) =
        l ++ ['\n'] ++ ['\n'].intercalate (ls ++ [[]]) := intercalate_cons_of_ne_nil hrest
    rw [cons_append, hcons, ← ih]
    rfl

/-- **Lines written one after the other are read back.** -/
theorem lines_unlines (hls : ∀ l ∈ ls, '\n' ∉ l ∧ l.getLast? ≠ some '\r') :
    lines (unlines ls) = ls := by
  have hsplit : (unlines ls).splitOn '\n' = ls ++ [[]] := by
    rw [unlines_eq_intercalate, splitOn_intercalate]
    · intro l hl
      rcases mem_append.mp hl with hl | hl
      · exact (hls l hl).1
      · rw [mem_singleton.mp hl]
        exact not_mem_nil
    · simp
  have hstrip : ls.map stripCr = ls := by
    conv_rhs => rw [← map_id ls]
    exact map_congr_left fun l hl => if_neg (hls l hl).2
  simp [lines, hsplit, hstrip]

/-- A line with something at both ends is its own trim. -/
theorem trim_eq_self (hfirst : ∀ c, l.head? = some c → isWhitespace c = false)
    (hlast : ∀ c, l.getLast? = some c → isWhitespace c = false) : trim l = l := by
  have hdrop : l.dropWhile isWhitespace = l := by
    cases l with
    | nil => rfl
    | cons c l => rw [dropWhile_cons, if_neg (by simp [hfirst c rfl])]
  rw [trim, hdrop, rdropWhile_eq_self_iff]
  intro hne
  rw [hlast _ (getLast?_eq_getLast_of_ne_nil hne)]
  decide

/-- What is left at the end of a trim is not white space. -/
theorem getLast?_trim {c : Char} (h : (trim l).getLast? = some c) : isWhitespace c = false := by
  have hne : trim l ≠ [] := by
    intro heq
    rw [heq] at h
    cases h
  have hlast := rdropWhile_last_not isWhitespace (l.dropWhile isWhitespace) hne
  rw [getLast?_eq_getLast_of_ne_nil hne, Option.some.injEq] at h
  rw [← h]
  exact Bool.eq_false_iff.mpr hlast

/-- Words joined by a separator end as the last of them does. -/
theorem getLast?_intercalate {w : Text} (sep : Text) (ws : List Text) (hw : w ≠ []) :
    (sep.intercalate (ws ++ [w])).getLast? = w.getLast? := by
  induction ws with
  | nil => simp [intercalate]
  | cons w' ws ih =>
    have hrest : ws ++ [w] ≠ [] := by simp
    have hne : sep.intercalate (ws ++ [w]) ≠ [] := by
      intro h
      rw [h, getLast?_nil, eq_comm, getLast?_eq_none_iff] at ih
      exact hw ih
    rw [cons_append, intercalate_cons_of_ne_nil hrest,
      getLast?_append_of_ne_nil _ hne, ih]

end Text
