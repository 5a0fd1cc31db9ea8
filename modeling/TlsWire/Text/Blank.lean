/-!
# Blank characters

The blank characters are those with the Unicode property `White_Space`. `trim` drops them from
both ends of a text: nothing blank is left at either end (`head?_trim`), and a text without blanks
at its ends is kept as it is.
-/

namespace TlsWire.Text

/-- Membership in the Unicode property `White_Space`. -/
def isBlank (c : Char) : Bool :=
  let n := c.toNat
  (0x09 ≤ n && n ≤ 0x0D) || n == 0x20 || n == 0x85 || n == 0xA0 || n == 0x1680 ||
    (0x2000 ≤ n && n ≤ 0x200A) || n == 0x2028 || n == 0x2029 || n == 0x202F || n == 0x205F ||
    n == 0x3000

/-- The text without the blanks at its end. -/
def trimEnd (cs : List Char) : List Char := (cs.reverse.dropWhile isBlank).reverse

/-- The text without the blanks at its ends. -/
def trim (cs : List Char) : List Char := trimEnd (cs.dropWhile isBlank)

/-- `trim` on strings. -/
def trimmed (s : String) : String := String.ofList (trim s.toList)

theorem head?_dropWhile_isBlank (cs : List Char) (c : Char)
    (h : (cs.dropWhile isBlank).head? = some c) : isBlank c = false := by
  induction cs with
  | nil => simp at h
  | cons d cs ih =>
    by_cases hd : isBlank d = true
    · exact ih (by simpa [List.dropWhile_cons, hd] using h)
    · have : d = c := by simpa [List.dropWhile_cons, hd] using h
      simpa [← this] using hd

/-- What follows no blank is kept: trimming the end cannot expose or drop the first character. -/
theorem trimEnd_cons {c : Char} (hc : isBlank c = false) (cs : List Char) :
    trimEnd (c :: cs) = c :: trimEnd cs := by
  simp only [trimEnd, List.reverse_cons]
  rw [List.dropWhile_append]
  split
  case isTrue h =>
    simp only [List.isEmpty_iff] at h
    simp [h, hc]
  case isFalse h => simp

theorem head?_trim {cs : List Char} {c : Char} (h : (trim cs).head? = some c) :
    isBlank c = false := by
  unfold trim at h
  cases hd : cs.dropWhile isBlank with
  | nil => simp [hd, trimEnd] at h
  | cons d ds =>
    have hblank := head?_dropWhile_isBlank cs d (by simp [hd])
    rw [hd, trimEnd_cons hblank, List.head?_cons, Option.some.injEq] at h
    exact h ▸ hblank

theorem trimEnd_trimEnd (cs : List Char) : trimEnd (trimEnd cs) = trimEnd cs := by
  unfold trimEnd
  rw [List.reverse_reverse]
  congr 1
  generalize cs.reverse = ds
  induction ds with
  | nil => rfl
  | cons d ds ih => by_cases hd : isBlank d = true <;> simp_all

/-- Trimmed text has nothing left to trim. -/
theorem trim_trim (cs : List Char) : trim (trim cs) = trim cs := by
  have hkeep : (trim cs).dropWhile isBlank = trim cs := by
    cases ht : trim cs with
    | nil => rfl
    | cons c rest =>
      have hc := head?_trim (show (trim cs).head? = some c by simp [ht])
      simp [hc]
  conv => lhs; rw [trim, hkeep]
  exact trimEnd_trimEnd _

end TlsWire.Text
